import Yokan.BerkeleyListing
import Yokan.PackedGet

/-!
# Yokan: the operations of the backends over libraries

`exists`, `length`, `put`, `get`, `fetch` and `erase` of `leveldb.cpp` (and `rocksdb.cpp`, which has
the same text over its own library), `lmdb.cpp`, `tkrzw.cpp`, `berkeleydb.cpp` and `gdbm.cpp`, as
instances of `DatabaseInterface`. The libraries are outside the repository: for each of them a class
collects the calls that these operations make.

Berkeley DB is told sizes as `u_int32_t`, and GDBM as `int`. What GDBM makes of a `datum` with a
negative size, which 2 ^ 31 bytes and more have, is not modelled.
-/

namespace Yokan

open Buffer

/-! ### The loops that the backends share -/

section Loops

variable {σ υ ρ : Type}

/-- The body of the loops of `exists` and `length`: what is reported of a key is added to the
caller's array, unless the library fails and the backend says so. -/
def reportBody (report : Bytes → Except Status ρ) (key : Bytes) (out : List ρ) :
    Option Status × List ρ :=
  match report key with
  | .ok r => (none, out ++ [r])
  | .error status => (some status, out)

/-- The loops of `exists` and `length`, over the front of the caller's array. -/
def reportWith (report : Bytes → Except Status ρ) (keys : Bytes) (ksizes : List ℕ) (out : List ρ) :
    Status × List ρ :=
  let r := keysLoop true (reportBody report) keys ksizes 0 []
  (r.1.getD .OK, r.2 ++ out.drop r.2.length)

/-- The size of what was looked up. -/
def Lookup.length : Lookup → Except Status ℕ
  | .found v => .ok v.length
  | .notFound => .ok keyNotFound
  | .failed status => .error status

/-- Whether something was found, where failures are passed on. -/
def Lookup.flag : Lookup → Except Status Bool
  | .found _ => .ok true
  | .notFound => .ok false
  | .failed status => .error status

/-- Whether something was found, where failures count as absence. -/
def Lookup.isFound : Lookup → Bool
  | .found _ => true
  | _ => false

/-- What a loop does with the answer of a callback. -/
def answered (r : Status × υ) : Option Status × υ :=
  if r.1 ≠ .OK then (some r.1, r.2) else (none, r.2)

/-- The body of the loop of `fetch`. -/
def deliverBody (lookup : Bytes → Lookup) (func : υ → Bytes → Option Bytes → Status × υ)
    (key : Bytes) (u : υ) : Option Status × υ :=
  match lookup key with
  | .failed status => (some status, u)
  | .notFound => answered (func u key none)
  | .found v => answered (func u key (some v))

/-- `fetch`: its loop, and in the mode `YOKAN_MODE_CONSUME` the erasure of the keys. -/
def fetchWith (lookup : Bytes → Lookup) (erase : Mode → σ → Bytes → List ℕ → Status × σ)
    (mode : Mode) (s : σ) (keys : Bytes) (ksizes : List ℕ)
    (func : υ → Bytes → Option Bytes → Status × υ) (u : υ) : Status × σ × υ :=
  match keysLoop false (deliverBody lookup func) keys ksizes 0 u with
  | (some status, u) => (status, s, u)
  | (none, u) =>
    if mode.has .consume then let r := erase mode s keys ksizes; (r.1, r.2, u)
    else (.OK, s, u)

/-- The end of `get`, behind its loops: in the mode `YOKAN_MODE_CONSUME`, the erasure of the keys. -/
def gatherFrom (loops : Option Status × GetOutput)
    (erase : Mode → σ → Bytes → List ℕ → Status × σ) (mode : Mode) (s : σ) (keys : Bytes)
    (ksizes : List ℕ) : GetResult σ :=
  match loops with
  | (some status, out) => ⟨status, s, out⟩
  | (none, out) =>
    if mode.has .consume then let r := erase mode s keys ksizes; ⟨r.1, r.2, out⟩
    else ⟨.OK, s, out⟩

/-- `get`: its loops, and in the mode `YOKAN_MODE_CONSUME` the erasure of the keys. -/
def gatherWith (lookup : Bytes → Lookup) (strict : Bool)
    (erase : Mode → σ → Bytes → List ℕ → Status × σ) (mode : Mode) (packed : Bool) (s : σ)
    (keys : Bytes) (ksizes : List ℕ) (vals : Bytes) (vsizes : List ℕ) : GetResult σ :=
  gatherFrom (getLoops lookup strict packed keys ksizes vals vsizes) erase mode s keys ksizes

/-- The loop of the packed branch of `get`, where `told` is the room that is left as the library or
a comparison is told it. -/
def getPackedLoopTold (told : ℕ → ℤ) (lookup : Bytes → Lookup) (keys : Bytes) :
    List (ℕ × ℕ) → ℕ → PackedFill → Option Status × PackedFill
  | [], _, g => (none, g)
  | (ksize, _) :: sizes, keyOffset, g =>
    match lookup (slice keys keyOffset ksize) with
    | .failed status => (some status, g)
    | .notFound =>
      getPackedLoopTold told lookup keys sizes (addSize keyOffset ksize)
        { g with vsizes := g.vsizes ++ [keyNotFound] }
    | .found v =>
      if told g.valRemainingSize < v.length then
        (none, { g with vsizes := g.vsizes ++ List.replicate (sizes.length + 1) sizeTooSmall })
      else
        getPackedLoopTold told lookup keys sizes (addSize keyOffset ksize)
          { vals := blit g.vals g.valOffset v
            valOffset := addSize g.valOffset v.length
            valRemainingSize := g.valRemainingSize - v.length
            vsizes := g.vsizes ++ [v.length] }

/-- The loop of the branch where each value has its own slot. -/
def getSlotLoopTold (told : ℕ → ℤ) (lookup : Bytes → Lookup) (keys : Bytes) :
    List (ℕ × ℕ) → ℕ → ℕ → Bytes → List ℕ → Option Status × Bytes × List ℕ
  | [], _, _, vals, out => (none, vals, out)
  | (ksize, vsize) :: sizes, keyOffset, valOffset, vals, out =>
    match lookup (slice keys keyOffset ksize) with
    | .failed status => (some status, vals, out)
    | .notFound =>
      getSlotLoopTold told lookup keys sizes (addSize keyOffset ksize) (addSize valOffset vsize)
        vals (out ++ [keyNotFound])
    | .found v =>
      let (size, vals) :=
        if told vsize < v.length then (sizeTooSmall, vals) else (v.length, blit vals valOffset v)
      getSlotLoopTold told lookup keys sizes (addSize keyOffset ksize) (addSize valOffset vsize)
        vals (out ++ [size])

/-- The two loops of `get`. -/
def getLoopsTold (told : ℕ → ℤ) (lookup : Bytes → Lookup) (packed : Bool) (keys : Bytes)
    (ksizes : List ℕ) (vals : Bytes) (vsizes : List ℕ) : Option Status × GetOutput :=
  if packed then
    let r := getPackedLoopTold told lookup keys (ksizes.zip vsizes) 0 ⟨vals, 0, vals.length, []⟩
    let out := r.2.vsizes ++ vsizes.drop r.2.vsizes.length
    match r.1 with
    | some status => (some status, ⟨r.2.vals, vals.length, out⟩)
    | none => (none, ⟨r.2.vals, vals.length - r.2.valRemainingSize, out⟩)
  else
    let r := getSlotLoopTold told lookup keys (ksizes.zip vsizes) 0 0 vals []
    (r.1, ⟨r.2.1, vals.length, r.2.2 ++ vsizes.drop r.2.2.length⟩)

/-- A `size_t` as a `u_int32_t`. -/
def asUInt32 (n : ℕ) : ℤ := (n % 2 ^ 32 : ℕ)

/-- A `size_t` as an `int`. -/
def asInt (n : ℕ) : ℤ := (BitVec.ofNat 32 n).toInt

/-- The checks that `put` makes on its arguments. -/
def putArguments (keys : Bytes) (ksizes : List ℕ) (vals : Bytes) (vsizes : List ℕ) : Bool :=
  decide (ksizes.length = vsizes.length) && decide (accumulate ksizes ≤ keys.length) &&
    decide (accumulate vsizes ≤ vals.length)

/-- The loop of `put`, from its body. -/
def putLoop (body : Bytes × Bytes → σ → Option Status × σ) (s : σ) (keys : Bytes)
    (ksizes : List ℕ) (vals : Bytes) (vsizes : List ℕ) : Status × σ :=
  let r := pairsLoop body keys vals (ksizes.zip vsizes) 0 0 s
  (r.1.getD .OK, r.2)

/-- The loop of `erase`, from its body. -/
def eraseLoop (body : Bytes → σ → Option Status × σ) (s : σ) (keys : Bytes) (ksizes : List ℕ) :
    Status × σ :=
  let r := keysLoop true body keys ksizes 0 s
  (r.1.getD .OK, r.2)

/-- The body of the loop of `erase` where a library reports `NotFound` for an absent key. -/
def removeKeyBody (remove : σ → Bytes → Status × σ) (key : Bytes) (s : σ) : Option Status × σ :=
  let r := remove s key
  if r.1 ≠ .OK ∧ r.1 ≠ .NotFound then (some r.1, r.2) else (none, r.2)

/-- The outcome of storing a pair. -/
inductive StoreResult
  | stored
  | duplicate
  | failed (status : Status)
  deriving DecidableEq

/-- What the loop of `put` does with an outcome, when a duplicate matters for a batch of one pair
with `YOKAN_MODE_NEW_ONLY` only. -/
def StoreResult.next (newOnly single : Bool) : StoreResult → Option Status
  | .stored => none
  | .duplicate => if newOnly ∧ single then some .KeyExists else none
  | .failed status => some status

end Loops

/-- The modes that the backends over a library accept, besides those that one of them adds. -/
def engineModes : Mode :=
  .inclusive ||| .consume ||| .noPrefix ||| .ignoreKeys ||| .keepLast ||| .suffix ||| .luaFilter |||
    .ignoreDocs ||| .filterValue ||| .libFilter ||| .noRdma ||| .updateNew

def engineSupportsMode (more mode : Mode) : Bool := mode == mode &&& (engineModes ||| more)

/-! ### LevelDB and RocksDB -/

/-- The calls into LevelDB that store values: one pair, or a batch of them. -/
class LevelDBWrites (δ : Type) extends LevelDB δ where
  put : δ → Bytes → Bytes → Status × δ
  writePuts : δ → List (Bytes × Bytes) → Status × δ

/-- A database with the option `use_write_batch`, which `put` looks at. -/
structure LevelDBStore (δ : Type) extends LevelDBDatabase δ where
  useWriteBatch : Bool

namespace LevelDBStore

variable {δ υ : Type} [LevelDBWrites δ]

def existsKeys (_mode : Mode) (s : LevelDBStore δ) (keys : Bytes) (ksizes : List ℕ)
    (flags : List Bool) : Status × List Bool :=
  if s.migrated then (.Migrated, flags)
  else if flags.length < ksizes.length then (.InvalidArg, flags)
  else reportWith (fun key => .ok (LevelDB.get s.db key).isFound) keys ksizes flags

def length (_mode : Mode) (s : LevelDBStore δ) (keys : Bytes) (ksizes vsizes : List ℕ) :
    Status × List ℕ :=
  if s.migrated then (.Migrated, vsizes)
  else if vsizes.length < ksizes.length then (.InvalidArg, vsizes)
  else reportWith (fun key => (LevelDB.get s.db key).length) keys ksizes vsizes

/-- The body of the loop of `put` without a batch. -/
def putBody (p : Bytes × Bytes) (db : δ) : Option Status × δ :=
  let r := LevelDBWrites.put db p.1 p.2
  if r.1 ≠ .OK then (some r.1, r.2) else (none, r.2)

def put (_mode : Mode) (s : LevelDBStore δ) (keys : Bytes) (ksizes : List ℕ) (vals : Bytes)
    (vsizes : List ℕ) : Status × LevelDBStore δ :=
  if s.migrated then (.Migrated, s)
  else if ¬ putArguments keys ksizes vals vsizes then (.InvalidArg, s)
  else if s.useWriteBatch then
    let wb := pairsLoop (fun p wb => ((none : Option Status), wb ++ [p])) keys vals
      (ksizes.zip vsizes) 0 0 []
    let r := LevelDBWrites.writePuts s.db wb.2
    (r.1, { s with db := r.2 })
  else
    let r := putLoop putBody s.db keys ksizes vals vsizes
    (r.1, { s with db := r.2 })

def erase (mode : Mode) (s : LevelDBStore δ) (keys : Bytes) (ksizes : List ℕ) :
    Status × LevelDBStore δ :=
  let r := s.toLevelDBDatabase.erase mode keys ksizes
  (r.1, { s with toLevelDBDatabase := r.2 })

def get (mode : Mode) (packed : Bool) (s : LevelDBStore δ) (keys : Bytes) (ksizes : List ℕ)
    (vals : Bytes) (vsizes : List ℕ) : GetResult (LevelDBStore δ) :=
  let r := s.toLevelDBDatabase.get mode packed keys ksizes vals vsizes
  ⟨r.status, { s with toLevelDBDatabase := r.db }, r.out⟩

def fetch (mode : Mode) (s : LevelDBStore δ) (keys : Bytes) (ksizes : List ℕ)
    (func : υ → Bytes → Option Bytes → Status × υ) (u : υ) : Status × LevelDBStore δ × υ :=
  if s.migrated then (.Migrated, s, u)
  else fetchWith (LevelDB.get s.db) erase mode s keys ksizes func u

def supportsMode (mode : Mode) : Bool := engineSupportsMode .default mode

instance : DatabaseInterface (LevelDBStore δ) where
  isSorted := true
  supportsMode := supportsMode
  existsKeys := existsKeys
  length := length
  put := put
  get := get
  fetch := fetch
  erase := erase

end LevelDBStore

/-! ### LMDB -/

/-- The call into LMDB that stores a pair, inside a transaction. -/
class LMDBWrites (δ : Type) extends LMDB δ where
  put : δ → Bytes → Bytes → Status × δ

namespace LMDBDatabase

variable {δ υ : Type} [LMDBWrites δ]

def existsKeys (_mode : Mode) (s : LMDBDatabase δ) (keys : Bytes) (ksizes : List ℕ)
    (flags : List Bool) : Status × List Bool :=
  if s.migrated then (.Migrated, flags)
  else if flags.length < ksizes.length then (.InvalidArg, flags)
  else if LMDB.txnBegin s.db ≠ .OK then (LMDB.txnBegin s.db, flags)
  else reportWith (fun key => (LMDB.get s.db key).flag) keys ksizes flags

def length (_mode : Mode) (s : LMDBDatabase δ) (keys : Bytes) (ksizes vsizes : List ℕ) :
    Status × List ℕ :=
  if s.migrated then (.Migrated, vsizes)
  else if vsizes.length < ksizes.length then (.InvalidArg, vsizes)
  else if LMDB.txnBegin s.db ≠ .OK then (LMDB.txnBegin s.db, vsizes)
  else reportWith (fun key => (LMDB.get s.db key).length) keys ksizes vsizes

/-- The body of the loop of `put`, inside its transaction. -/
def putBody (p : Bytes × Bytes) (txn : δ) : Option Status × δ :=
  let r := LMDBWrites.put txn p.1 p.2
  if r.1 ≠ .OK then (some r.1, r.2) else (none, r.2)

def put (_mode : Mode) (s : LMDBDatabase δ) (keys : Bytes) (ksizes : List ℕ) (vals : Bytes)
    (vsizes : List ℕ) : Status × LMDBDatabase δ :=
  if s.migrated then (.Migrated, s)
  else if ¬ putArguments keys ksizes vals vsizes then (.InvalidArg, s)
  else if LMDB.txnBegin s.db ≠ .OK then (LMDB.txnBegin s.db, s)
  else
    match pairsLoop putBody keys vals (ksizes.zip vsizes) 0 0 s.db with
    | (some status, _) => (status, s) -- the transaction is aborted
    | (none, txn) => let r := LMDB.txnCommit txn; (r.1, { s with db := r.2 })

def fetch (mode : Mode) (s : LMDBDatabase δ) (keys : Bytes) (ksizes : List ℕ)
    (func : υ → Bytes → Option Bytes → Status × υ) (u : υ) : Status × LMDBDatabase δ × υ :=
  if s.migrated then (.Migrated, s, u)
  else if LMDB.txnBegin s.db ≠ .OK then (LMDB.txnBegin s.db, s, u)
  else fetchWith (LMDB.get s.db) erase mode s keys ksizes func u

def supportsMode (mode : Mode) : Bool := engineSupportsMode .default mode

instance : DatabaseInterface (LMDBDatabase δ) where
  isSorted := true
  supportsMode := supportsMode
  existsKeys := existsKeys
  length := length
  put := put
  get := get
  fetch := fetch
  erase := erase

end LMDBDatabase

/-! ### Tkrzw -/

/-- The other calls into Tkrzw: `Get` without a value, `Set`, which is told whether to overwrite,
and `Append`. Whether a database is ordered depends on its class. -/
class TkrzwWrites (δ : Type) extends Tkrzw δ where
  isOrdered : Bool
  get : δ → Bytes → Status
  set : δ → Bytes → Bytes → Bool → StoreResult × δ
  append : δ → Bytes → Bytes → StoreResult × δ

namespace TkrzwDatabase

variable {δ υ : Type} [TkrzwWrites δ]

def existsKeys (_mode : Mode) (s : TkrzwDatabase δ) (keys : Bytes) (ksizes : List ℕ)
    (flags : List Bool) : Status × List Bool :=
  if s.migrated then (.Migrated, flags)
  else if flags.length < ksizes.length then (.InvalidArg, flags)
  else reportWith (fun key => .ok (TkrzwWrites.get s.db key == .OK)) keys ksizes flags

def length (_mode : Mode) (s : TkrzwDatabase δ) (keys : Bytes) (ksizes vsizes : List ℕ) :
    Status × List ℕ :=
  if s.migrated then (.Migrated, vsizes)
  else if ksizes.length ≠ vsizes.length then (.InvalidArg, vsizes)
  else reportWith (fun key => (Tkrzw.process s.db key).length) keys ksizes vsizes

/-- The body of the loop of `put`. -/
def putBody (mode : Mode) (single : Bool) (p : Bytes × Bytes) (db : δ) : Option Status × δ :=
  let r :=
    if mode.has .append then TkrzwWrites.append db p.1 p.2
    else TkrzwWrites.set db p.1 p.2 (!mode.has .newOnly)
  (r.1.next (mode.has .newOnly) single, r.2)

def put (mode : Mode) (s : TkrzwDatabase δ) (keys : Bytes) (ksizes : List ℕ) (vals : Bytes)
    (vsizes : List ℕ) : Status × TkrzwDatabase δ :=
  if s.migrated then (.Migrated, s)
  else if ¬ putArguments keys ksizes vals vsizes then (.InvalidArg, s)
  else
    let r := putLoop (putBody mode (ksizes.length = 1)) s.db keys ksizes vals vsizes
    (r.1, { s with db := r.2 })

def fetch (mode : Mode) (s : TkrzwDatabase δ) (keys : Bytes) (ksizes : List ℕ)
    (func : υ → Bytes → Option Bytes → Status × υ) (u : υ) : Status × TkrzwDatabase δ × υ :=
  if s.migrated then (.Migrated, s, u)
  else fetchWith (Tkrzw.process s.db) erase mode s keys ksizes func u

def supportsMode (mode : Mode) : Bool := engineSupportsMode (.append ||| .newOnly) mode

instance : DatabaseInterface (TkrzwDatabase δ) where
  isSorted := TkrzwWrites.isOrdered δ
  supportsMode := supportsMode
  existsKeys := existsKeys
  length := length
  put := put
  get := get
  fetch := fetch
  erase := erase

end TkrzwDatabase

/-! ### Berkeley DB -/

/-- The calls into Berkeley DB. `get` gives the record of a key: that a value is larger than the
memory it is to be copied to (`DB_BUFFER_SMALL`) is for the backend to find out. `put` is told
whether it may overwrite (no `DB_NOOVERWRITE`). Only B-trees are sorted. -/
class BerkeleyDB (δ : Type) where
  dbType : DbType
  contains : δ → Bytes → Status
  get : δ → Bytes → Lookup
  put : δ → Bytes → Bytes → Bool → StoreResult × δ
  del : δ → Bytes → Status × δ

namespace BerkeleyDBDatabase

variable {δ υ : Type} [BerkeleyDB δ]

/-- What a `Dbt` holds of some bytes, with their size as a `u_int32_t`. -/
def dbt (bytes : Bytes) : Bytes := bytes.take (bytes.length % 2 ^ 32)

/-- Any error counts as presence. -/
def existsKeys (_mode : Mode) (s : BerkeleyDBDatabase δ) (keys : Bytes) (ksizes : List ℕ)
    (flags : List Bool) : Status × List Bool :=
  if flags.length < ksizes.length then (.InvalidArg, flags)
  else
    reportWith (fun key => .ok (BerkeleyDB.contains s.db (dbt key) != .NotFound)) keys ksizes flags

def length (_mode : Mode) (s : BerkeleyDBDatabase δ) (keys : Bytes) (ksizes vsizes : List ℕ) :
    Status × List ℕ :=
  if ksizes.length ≠ vsizes.length then (.InvalidArg, vsizes)
  else reportWith (fun key => (BerkeleyDB.get s.db (dbt key)).length) keys ksizes vsizes

/-- The body of the loop of `put`. -/
def putBody (mode : Mode) (single : Bool) (p : Bytes × Bytes) (db : δ) : Option Status × δ :=
  let r := BerkeleyDB.put db (dbt p.1) (dbt p.2) (!mode.has .newOnly)
  (r.1.next (mode.has .newOnly) single, r.2)

def put (mode : Mode) (s : BerkeleyDBDatabase δ) (keys : Bytes) (ksizes : List ℕ) (vals : Bytes)
    (vsizes : List ℕ) : Status × BerkeleyDBDatabase δ :=
  if ¬ putArguments keys ksizes vals vsizes then (.InvalidArg, s)
  else
    let r := putLoop (putBody mode (ksizes.length = 1)) s.db keys ksizes vals vsizes
    (r.1, { s with db := r.2 })

def erase (_mode : Mode) (s : BerkeleyDBDatabase δ) (keys : Bytes) (ksizes : List ℕ) :
    Status × BerkeleyDBDatabase δ :=
  let r := eraseLoop (removeKeyBody fun db key => BerkeleyDB.del db (dbt key)) s.db keys ksizes
  (r.1, { s with db := r.2 })

def get (mode : Mode) (packed : Bool) (s : BerkeleyDBDatabase δ) (keys : Bytes) (ksizes : List ℕ)
    (vals : Bytes) (vsizes : List ℕ) : GetResult (BerkeleyDBDatabase δ) :=
  if ksizes.length ≠ vsizes.length then ⟨.InvalidArg, s, ⟨vals, vals.length, vsizes⟩⟩
  else
    gatherFrom (getLoopsTold asUInt32 (fun key => BerkeleyDB.get s.db (dbt key)) packed keys ksizes
      vals vsizes) erase mode s keys ksizes

def fetch (mode : Mode) (s : BerkeleyDBDatabase δ) (keys : Bytes) (ksizes : List ℕ)
    (func : υ → Bytes → Option Bytes → Status × υ) (u : υ) : Status × BerkeleyDBDatabase δ × υ :=
  -- the callback is given the key of the `Dbt`
  fetchWith (fun key => BerkeleyDB.get s.db (dbt key)) erase mode s keys ksizes
    (fun u key => func u (dbt key)) u

def supportsMode (mode : Mode) : Bool := engineSupportsMode .newOnly mode

instance : DatabaseInterface (BerkeleyDBDatabase δ) where
  isSorted := BerkeleyDB.dbType δ = .btree
  supportsMode := supportsMode
  existsKeys := existsKeys
  length := length
  put := put
  get := get
  fetch := fetch
  erase := erase

end BerkeleyDBDatabase

/-! ### GDBM -/

/-- The calls into GDBM. `gdbm_store` is told whether to replace (`GDBM_REPLACE`) or not
(`GDBM_INSERT`), and then reports a duplicate with the error `GDBM_CANNOT_REPLACE`. -/
class GDBM (δ : Type) where
  contains : δ → Bytes → Bool
  fetch : δ → Bytes → Option Bytes
  store : δ → Bytes → Bytes → Bool → StoreResult × δ
  delete : δ → Bytes → Status × δ

structure GDBMDatabase (δ : Type) where
  db : δ
  migrated : Bool

namespace GDBMDatabase

variable {δ υ : Type} [GDBM δ]

def existsKeys (_mode : Mode) (s : GDBMDatabase δ) (keys : Bytes) (ksizes : List ℕ)
    (flags : List Bool) : Status × List Bool :=
  if flags.length < ksizes.length then (.InvalidArg, flags)
  else if s.migrated then (.Migrated, flags)
  else reportWith (fun key => .ok (GDBM.contains s.db key)) keys ksizes flags

def length (_mode : Mode) (s : GDBMDatabase δ) (keys : Bytes) (ksizes vsizes : List ℕ) :
    Status × List ℕ :=
  if ksizes.length ≠ vsizes.length then (.InvalidArg, vsizes)
  else if s.migrated then (.Migrated, vsizes)
  else reportWith (fun key => .ok (entrySize (GDBM.fetch s.db key))) keys ksizes vsizes

/-- What the loop of `put` does with an outcome: an error has no status of its own. -/
def next (newOnly single : Bool) : StoreResult → Option Status
  | .stored => none
  | .duplicate => if newOnly ∧ single then some .KeyExists else none
  | .failed _ => some .Other

/-- The body of the loop of `put`. -/
def putBody (mode : Mode) (single : Bool) (p : Bytes × Bytes) (db : δ) : Option Status × δ :=
  if mode.has .existOnly then
    if GDBM.contains db p.1 then
      let r := GDBM.store db p.1 p.2 true
      (next false single r.1, r.2)
    else if single then (some .NotFound, db)
    else (none, db)
  else
    let r := GDBM.store db p.1 p.2 (!mode.has .newOnly)
    (next (mode.has .newOnly) single r.1, r.2)

def put (mode : Mode) (s : GDBMDatabase δ) (keys : Bytes) (ksizes : List ℕ) (vals : Bytes)
    (vsizes : List ℕ) : Status × GDBMDatabase δ :=
  if ¬ putArguments keys ksizes vals vsizes then (.InvalidArg, s)
  else if s.migrated then (.Migrated, s)
  else
    let r := putLoop (putBody mode (ksizes.length = 1)) s.db keys ksizes vals vsizes
    (r.1, { s with db := r.2 })

/-- The result of `gdbm_delete` is not looked at. -/
def erase (_mode : Mode) (s : GDBMDatabase δ) (keys : Bytes) (ksizes : List ℕ) :
    Status × GDBMDatabase δ :=
  if s.migrated then (.Migrated, s)
  else
    let r := eraseLoop (fun key db => (none, (GDBM.delete db key).2)) s.db keys ksizes
    (r.1, { s with db := r.2 })

def get (mode : Mode) (packed : Bool) (s : GDBMDatabase δ) (keys : Bytes) (ksizes : List ℕ)
    (vals : Bytes) (vsizes : List ℕ) : GetResult (GDBMDatabase δ) :=
  if ksizes.length ≠ vsizes.length then ⟨.InvalidArg, s, ⟨vals, vals.length, vsizes⟩⟩
  else if s.migrated then ⟨.Migrated, s, ⟨vals, vals.length, vsizes⟩⟩
  else
    gatherFrom (getLoopsTold asInt (fun key => .ofEntry (GDBM.fetch s.db key)) packed keys ksizes
      vals vsizes) erase mode s keys ksizes

def fetch (mode : Mode) (s : GDBMDatabase δ) (keys : Bytes) (ksizes : List ℕ)
    (func : υ → Bytes → Option Bytes → Status × υ) (u : υ) : Status × GDBMDatabase δ × υ :=
  if s.migrated then (.Migrated, s, u)
  else fetchWith (fun key => .ofEntry (GDBM.fetch s.db key)) erase mode s keys ksizes func u

def supportsMode (mode : Mode) : Bool := engineSupportsMode (.newOnly ||| .existOnly) mode

instance : DatabaseInterface (GDBMDatabase δ) where
  isSorted := false
  supportsMode := supportsMode
  existsKeys := existsKeys
  length := length
  put := put
  get := get
  fetch := fetch
  erase := erase

end GDBMDatabase

end Yokan
