import Yokan.InMemory

/-!
# Yokan: the backends over key/value libraries

What `leveldb.cpp`, `lmdb.cpp` and `tkrzw.cpp` do on `get` and `erase`. The libraries are outside
the repository: `LevelDB`, `LMDB` and `Tkrzw` collect the calls that these two operations make,
with the results already passed through the `convertStatus` of the backend.

The packed branch of `get` is where these backends part from the ones in memory: the first value
that does not fit ends the loop, and marks its key and all the keys after it.
-/

namespace Yokan

open Buffer

/-- What a library reports for a key. -/
inductive Lookup where
  | found (value : Bytes)
  | notFound
  | failed (status : Status)
  deriving DecidableEq

/-- What a lookup reports for an entry. -/
def Lookup.ofEntry : Option Bytes → Lookup
  | none => .notFound
  | some v => .found v

/-! ### The loops of `get` in LevelDB and LMDB -/

/-- The local variables of a packed `get`, with the value sizes set so far. -/
structure PackedFill where
  vals : Bytes
  valOffset : ℕ
  valRemainingSize : ℕ
  vsizes : List ℕ
  deriving DecidableEq

/-- The loop of the packed branch of `get`. A lookup that fails ends it when `strict`, and
otherwise leaves the size of its key as it was. -/
def getPackedLoop (lookup : Bytes → Lookup) (strict : Bool) (keys : Bytes) :
    List (ℕ × ℕ) → ℕ → PackedFill → Option Status × PackedFill
  | [], _, g => (none, g)
  | (ksize, vsize) :: sizes, keyOffset, g =>
    match lookup (slice keys keyOffset ksize) with
    | .notFound =>
      getPackedLoop lookup strict keys sizes (addSize keyOffset ksize)
        { g with vsizes := g.vsizes ++ [keyNotFound] }
    | .found v =>
      if g.valRemainingSize < v.length then
        -- the inner loop brings `i` to the end; the offset it leaves behind is not used any more
        (none, { g with vsizes := g.vsizes ++ List.replicate (sizes.length + 1) sizeTooSmall })
      else
        getPackedLoop lookup strict keys sizes (addSize keyOffset ksize)
          { vals := blit g.vals g.valOffset v
            valOffset := addSize g.valOffset v.length
            valRemainingSize := g.valRemainingSize - v.length
            vsizes := g.vsizes ++ [v.length] }
    | .failed status =>
      if strict then (some status, g)
      else
        getPackedLoop lookup strict keys sizes (addSize keyOffset ksize)
          { g with vsizes := g.vsizes ++ [vsize] }

/-- The loop of the branch of `get` where each value has its own slot. -/
def getSlotLoop (lookup : Bytes → Lookup) (keys : Bytes) :
    List (ℕ × ℕ) → ℕ → ℕ → Bytes → List ℕ → Option Status × Bytes × List ℕ
  | [], _, _, vals, out => (none, vals, out)
  | (ksize, vsize) :: sizes, keyOffset, valOffset, vals, out =>
    match lookup (slice keys keyOffset ksize) with
    | .failed status => (some status, vals, out)
    | .notFound =>
      getSlotLoop lookup keys sizes (addSize keyOffset ksize) (addSize valOffset vsize) vals
        (out ++ [keyNotFound])
    | .found v =>
      let (size, vals) := copyOut vals valOffset vsize v
      getSlotLoop lookup keys sizes (addSize keyOffset ksize) (addSize valOffset vsize) vals
        (out ++ [size])

/-- The two loops of `get`, between the checks at its beginning and the erasure at its end. -/
def getLoops (lookup : Bytes → Lookup) (strict packed : Bool) (keys : Bytes) (ksizes : List ℕ)
    (vals : Bytes) (vsizes : List ℕ) : Option Status × GetOutput :=
  if packed then
    let r := getPackedLoop lookup strict keys (ksizes.zip vsizes) 0 ⟨vals, 0, vals.length, []⟩
    let out := r.2.vsizes ++ vsizes.drop r.2.vsizes.length
    match r.1 with
    | some status => (some status, ⟨r.2.vals, vals.length, out⟩)
    | none => (none, ⟨r.2.vals, vals.length - r.2.valRemainingSize, out⟩)
  else
    let r := getSlotLoop lookup keys (ksizes.zip vsizes) 0 0 vals []
    (r.1, ⟨r.2.1, vals.length, r.2.2 ++ vsizes.drop r.2.2.length⟩)

/-! ### LevelDB -/

/-- The calls into LevelDB: a lookup, and a batch of deletions. -/
class LevelDB (δ : Type) where
  get : δ → Bytes → Lookup
  write : δ → List Bytes → Status × δ

structure LevelDBDatabase (δ : Type) where
  db : δ
  migrated : Bool
  deriving DecidableEq

namespace LevelDBDatabase

variable {δ : Type} [LevelDB δ]

def erase (_mode : Mode) (s : LevelDBDatabase δ) (keys : Bytes) (ksizes : List ℕ) :
    Status × LevelDBDatabase δ :=
  if s.migrated then (.Migrated, s)
  else
    match keysLoop true (fun key wb => (none, wb ++ [key])) keys ksizes 0 [] with
    | (some status, _) => (status, s)
    | (none, wb) => let r := LevelDB.write s.db wb; (r.1, { s with db := r.2 })

def get (mode : Mode) (packed : Bool) (s : LevelDBDatabase δ) (keys : Bytes) (ksizes : List ℕ)
    (vals : Bytes) (vsizes : List ℕ) : GetResult (LevelDBDatabase δ) :=
  if s.migrated then ⟨.Migrated, s, ⟨vals, vals.length, vsizes⟩⟩
  else if ksizes.length ≠ vsizes.length then ⟨.InvalidArg, s, ⟨vals, vals.length, vsizes⟩⟩
  else
    match getLoops (LevelDB.get s.db) false packed keys ksizes vals vsizes with
    | (some status, out) => ⟨status, s, out⟩
    | (none, out) =>
      if mode.has .consume then let r := erase mode s keys ksizes; ⟨r.1, r.2, out⟩
      else ⟨.OK, s, out⟩

end LevelDBDatabase

/-! ### LMDB -/

/-- The calls into LMDB. `del` reports `NotFound` for an absent key; a transaction that is aborted
leaves no trace. -/
class LMDB (δ : Type) where
  txnBegin : δ → Status
  get : δ → Bytes → Lookup
  del : δ → Bytes → Status × δ
  txnCommit : δ → Status × δ

structure LMDBDatabase (δ : Type) where
  db : δ
  migrated : Bool
  deriving DecidableEq

namespace LMDBDatabase

variable {δ : Type} [LMDB δ]

/-- The body of the loop of `erase`, inside its transaction. -/
def eraseBody (key : Bytes) (txn : δ) : Option Status × δ :=
  let r := LMDB.del txn key
  if r.1 ≠ .OK ∧ r.1 ≠ .NotFound then (some r.1, r.2) else (none, r.2)

def erase (_mode : Mode) (s : LMDBDatabase δ) (keys : Bytes) (ksizes : List ℕ) :
    Status × LMDBDatabase δ :=
  if s.migrated then (.Migrated, s)
  else if keys.length < accumulate ksizes then (.InvalidArg, s)
  else if LMDB.txnBegin s.db ≠ .OK then (LMDB.txnBegin s.db, s)
  else
    match keysLoop false eraseBody keys ksizes 0 s.db with
    | (some status, _) => (status, s)
    | (none, txn) => let r := LMDB.txnCommit txn; (r.1, { s with db := r.2 })

def get (mode : Mode) (packed : Bool) (s : LMDBDatabase δ) (keys : Bytes) (ksizes : List ℕ)
    (vals : Bytes) (vsizes : List ℕ) : GetResult (LMDBDatabase δ) :=
  if s.migrated then ⟨.Migrated, s, ⟨vals, vals.length, vsizes⟩⟩
  else if ksizes.length ≠ vsizes.length then ⟨.InvalidArg, s, ⟨vals, vals.length, vsizes⟩⟩
  else if LMDB.txnBegin s.db ≠ .OK then
    ⟨LMDB.txnBegin s.db, s, ⟨vals, vals.length, vsizes⟩⟩
  else
    match getLoops (LMDB.get s.db) true packed keys ksizes vals vsizes with
    | (some status, out) => ⟨status, s, out⟩
    | (none, out) =>
      if mode.has .consume then let r := erase mode s keys ksizes; ⟨r.1, r.2, out⟩
      else ⟨.OK, s, out⟩

end LMDBDatabase

/-! ### Tkrzw -/

/-- The calls into Tkrzw. `process` hands the record of a key to a processor that changes nothing;
`remove` reports `NotFound` for an absent key. -/
class Tkrzw (δ : Type) where
  process : δ → Bytes → Lookup
  remove : δ → Bytes → Status × δ

/-- The processor of `get`: the buffer of the values and the offset in it. -/
structure GetValue where
  values : Bytes
  offset : ℕ
  deriving DecidableEq

namespace GetValue

/-- `ProcessFull`: the new size of the key, which had `vsize`. -/
def processFull (packed : Bool) (vsize : ℕ) (value : Bytes) (g : GetValue) : ℕ × GetValue :=
  if packed then
    if g.values.length - g.offset < value.length then (sizeTooSmall, g)
    else
      (value.length, ⟨blit g.values g.offset value, addSize g.offset value.length⟩)
  else if vsize < value.length then (sizeTooSmall, { g with offset := addSize g.offset vsize })
  else (value.length, ⟨blit g.values g.offset value, addSize g.offset vsize⟩)

/-- `ProcessEmpty`. -/
def processEmpty (packed : Bool) (vsize : ℕ) (g : GetValue) : ℕ × GetValue :=
  (keyNotFound, if packed then g else { g with offset := addSize g.offset vsize })

end GetValue

structure TkrzwDatabase (δ : Type) where
  db : δ
  migrated : Bool
  deriving DecidableEq

namespace TkrzwDatabase

variable {δ : Type}

/-- The loop of `get`, with the value sizes set so far. -/
def getLoop (process : Bytes → Lookup) (packed : Bool) (keys : Bytes) :
    List (ℕ × ℕ) → ℕ → GetValue → List ℕ → Option Status × GetValue × List ℕ
  | [], _, g, out => (none, g, out)
  | (ksize, vsize) :: sizes, keyOffset, g, out =>
    match process (slice keys keyOffset ksize) with
    | .failed status => (some status, g, out)
    | .notFound =>
      let (size, g) := g.processEmpty packed vsize
      getLoop process packed keys sizes (addSize keyOffset ksize) g (out ++ [size])
    | .found v =>
      let (size, g) := g.processFull packed vsize v
      if packed ∧ size = sizeTooSmall then
        (none, g, out ++ List.replicate (sizes.length + 1) sizeTooSmall)
      else getLoop process packed keys sizes (addSize keyOffset ksize) g (out ++ [size])

variable [Tkrzw δ]

/-- The body of the loop of `erase`. -/
def eraseBody (key : Bytes) (s : TkrzwDatabase δ) : Option Status × TkrzwDatabase δ :=
  let r := Tkrzw.remove s.db key
  if r.1 ≠ .OK ∧ r.1 ≠ .NotFound then (some r.1, { s with db := r.2 })
  else (none, { s with db := r.2 })

def erase (_mode : Mode) (s : TkrzwDatabase δ) (keys : Bytes) (ksizes : List ℕ) :
    Status × TkrzwDatabase δ :=
  if s.migrated then (.Migrated, s)
  else let r := keysLoop true eraseBody keys ksizes 0 s; (r.1.getD .OK, r.2)

def get (mode : Mode) (packed : Bool) (s : TkrzwDatabase δ) (keys : Bytes) (ksizes : List ℕ)
    (vals : Bytes) (vsizes : List ℕ) : GetResult (TkrzwDatabase δ) :=
  if s.migrated then ⟨.Migrated, s, ⟨vals, vals.length, vsizes⟩⟩
  else if ksizes.length ≠ vsizes.length then ⟨.InvalidArg, s, ⟨vals, vals.length, vsizes⟩⟩
  else
    let r := getLoop (Tkrzw.process s.db) packed keys (ksizes.zip vsizes) 0 ⟨vals, 0⟩ []
    let out := r.2.2 ++ vsizes.drop r.2.2.length
    match r.1 with
    | some status => ⟨status, s, ⟨r.2.1.values, vals.length, out⟩⟩
    | none =>
      let out : GetOutput := ⟨r.2.1.values, r.2.1.offset, out⟩
      if mode.has .consume then let r := erase mode s keys ksizes; ⟨r.1, r.2, out⟩
      else ⟨.OK, s, out⟩

end TkrzwDatabase

end Yokan
