import Yokan.Backend
import Yokan.Library.Counting
import Yokan.Library.LittleEndian

/-!
# Yokan: documents on top of a key/value database

`DocumentStoreMixin` (`include/yokan/doc-mixin.hpp`), which gives every key/value backend
collections of documents. A collection is an entry that holds its metadata under the name of the
collection; document `id` of the collection is the entry under the name, a NUL and the eight
bytes of `id`, most significant first. Metadata read from the database is kept in a cache.

The functions are written for any `DatabaseInterface`. The locks are left out: each operation runs
on its own. An operation whose keys would not fit in the address space has no result.
-/

namespace Yokan

open Buffer Counting LittleEndian

/-- A C string in memory: its bytes up to the NUL that ends it. -/
@[ext] structure CString where
  bytes : Bytes
  noNul : 0 ∉ bytes
  length_lt : bytes.length < 2 ^ 64
  deriving DecidableEq

/-! ### Document keys -/

/-- `_ensureBigEndian`, on a little-endian machine. -/
def ensureBigEndian (id : UInt64) : UInt64 :=
  let x := id
  let x := (x &&& 0x00000000FFFFFFFF) <<< 32 ||| (x &&& 0xFFFFFFFF00000000) >>> 32
  let x := (x &&& 0x0000FFFF0000FFFF) <<< 16 ||| (x &&& 0xFFFF0000FFFF0000) >>> 16
  let x := (x &&& 0x00FF00FF00FF00FF) <<< 8 ||| (x &&& 0xFF00FF00FF00FF00) >>> 8
  x

/-- `_keyFromId`. -/
def keyFromId (name : CString) (id : UInt64) : Bytes :=
  name.bytes ++ [0] ++ encode 8 (ensureBigEndian id).toNat

/-- `_idFromKey`. -/
def idFromKey (collNameLen : ℕ) (key : Bytes) : UInt64 :=
  ensureBigEndian (UInt64.ofNat (decode (slice key (collNameLen + 1) 8)))

/-- The loop of `_keysFromIds`. -/
def keysFromIdsLoop (name : CString) : List UInt64 → ℕ → Bytes → Bytes
  | [], _, buffer => buffer
  | id :: ids, i, buffer =>
    let len := name.bytes.length
    let offset := i * (len + 1 + 8)
    let buffer := blit buffer offset (name.bytes ++ [0])
    let offset := offset + (len + 1)
    let buffer := blit buffer offset (encode 8 (ensureBigEndian id).toNat)
    keysFromIdsLoop name ids (i + 1) buffer

/-- `_keysFromIds`. There is no result when the buffer cannot be allocated. -/
def keysFromIds (name : CString) (ids : List UInt64) : Option Bytes :=
  let size := ids.length * (name.bytes.length + 1 + 8)
  if size < 2 ^ 64 then some (keysFromIdsLoop name ids 0 (List.replicate size 0)) else none

/-- The sizes of the keys of `_keysFromIds`. -/
def idKeySizes (name : CString) (ids : List UInt64) : List ℕ :=
  List.replicate ids.length (name.bytes.length + 1 + 8)

/-! ### Metadata -/

/-- `CollectionMetadata`. -/
structure CollectionMetadata where
  size : UInt64 := 0
  nextId : UInt64 := 0
  deriving DecidableEq

namespace CollectionMetadata

/-- `sizeof(CollectionMetadata)`. -/
def sizeof : ℕ := 16

/-- The memory of a metadata. -/
def bytes (metadata : CollectionMetadata) : Bytes :=
  encode 8 metadata.size.toNat ++ encode 8 metadata.nextId.toNat

/-- The metadata in a region of memory. -/
def ofBytes (memory : Bytes) : CollectionMetadata where
  size := UInt64.ofNat (decode (slice memory 0 8))
  nextId := UInt64.ofNat (decode (slice memory 8 8))

@[simp] theorem length_bytes (metadata : CollectionMetadata) : metadata.bytes.length = sizeof := by
  simp [bytes, sizeof]

@[simp] theorem ofBytes_bytes (metadata : CollectionMetadata) : ofBytes metadata.bytes = metadata := by
  have hword : ∀ n : UInt64, UInt64.ofNat (decode (encode 8 n.toNat)) = n := by
    intro n
    rw [decode_encode_of_lt n.toNat_lt, UInt64.ofNat_toNat]
  have hsize : slice metadata.bytes 0 8 = encode 8 metadata.size.toNat := by
    have h := slice_full (encode 8 metadata.size.toNat) (encode 8 metadata.nextId.toNat)
    rwa [length_encode] at h
  have hnext : slice metadata.bytes 8 8 = encode 8 metadata.nextId.toNat := by
    simp [slice, bytes]
  rw [ofBytes, hsize, hnext, hword, hword]

end CollectionMetadata

/-! ### The mixin -/

/-- A database with documents: the underlying database and `m_cached_metadata`. -/
structure DocumentStoreMixin (σ : Type) where
  db : σ
  cached : Bytes → Option CollectionMetadata

namespace DocumentStoreMixin

variable {σ : Type} [DatabaseInterface σ]

open DatabaseInterface

/-- `_collExists`. -/
def collExistsImpl (s : DocumentStoreMixin σ) (name : CString) : Status × Bool :=
  if name.bytes = [] then (.InvalidArg, false)
  else
    let r := length .default s.db name.bytes [name.bytes.length] [0]
    (r.1, r.1 == .OK && r.2 == [CollectionMetadata.sizeof])

/-- `_collGetMetadata`, reading into `metadata`. -/
def collGetMetadata (s : DocumentStoreMixin σ) (name : CString) (metadata : CollectionMetadata) :
    Status × CollectionMetadata × DocumentStoreMixin σ :=
  if name.bytes = [] then (.InvalidArg, metadata, s)
  else
    match s.cached name.bytes with
    | some metadata => (.OK, metadata, s)
    | none =>
      let r := get .default true s.db name.bytes [name.bytes.length] metadata.bytes
        [CollectionMetadata.sizeof]
      let s := { s with db := r.db }
      let metadata := CollectionMetadata.ofBytes r.out.vals
      if r.status ≠ .OK then (r.status, metadata, s)
      else if r.out.vsizes = [keyNotFound] then (.NotFound, metadata, s)
      else if r.out.vsizes ≠ [CollectionMetadata.sizeof] then (.Corruption, metadata, s)
      else (.OK, metadata, { s with cached := Function.update s.cached name.bytes (some metadata) })

/-- `_collPutMetadata`. -/
def collPutMetadata (s : DocumentStoreMixin σ) (name : CString) (metadata : CollectionMetadata)
    (flushToDisk : Bool) : Status × DocumentStoreMixin σ :=
  if name.bytes = [] then (.InvalidArg, s)
  else
    let r := if flushToDisk then
        put .default s.db name.bytes [name.bytes.length] metadata.bytes [CollectionMetadata.sizeof]
      else (.OK, s.db)
    if r.1 ≠ .OK then (r.1, { s with db := r.2 })
    else (.OK, ⟨r.2, Function.update s.cached name.bytes (some metadata)⟩)

/-- `collCreate`. -/
def collCreate (s : DocumentStoreMixin σ) (name : CString) : Status × DocumentStoreMixin σ :=
  let (status, collExists) := s.collExistsImpl name
  if status ≠ .OK then (status, s)
  else if collExists then (.KeyExists, s)
  else s.collPutMetadata name {} true

/-- `collDrop`: the keys of all the ids below `next_id` and the name are erased. -/
def collDrop (s : DocumentStoreMixin σ) (mode : Mode) (name : CString) :
    Option (Status × DocumentStoreMixin σ) :=
  let (status, _) := s.collExistsImpl name
  if status ≠ .OK then some (status, s)
  else
    let (status, metadata, s) := s.collGetMetadata name {}
    if status ≠ .OK then some (status, s)
    else
      let ids := (List.range metadata.nextId.toNat).map UInt64.ofNat
      match keysFromIds name ids with
      | none => none
      | some keys =>
        if 2 ^ 64 ≤ keys.length + name.bytes.length then none
        else
          let ksizes := idKeySizes name ids ++ [name.bytes.length]
          let r := erase mode s.db (keys ++ name.bytes) ksizes
          some (r.1, ⟨r.2, Function.update s.cached name.bytes none⟩)

/-- `collExists`. -/
def collExists (s : DocumentStoreMixin σ) (name : CString) : Status × Bool :=
  s.collExistsImpl name

/-- `collLastID`. -/
def collLastID (s : DocumentStoreMixin σ) (name : CString) :
    Status × UInt64 × DocumentStoreMixin σ :=
  let (status, metadata, s) := s.collGetMetadata name {}
  (status, metadata.nextId - 1, s)

/-- `collSize`. -/
def collSize (s : DocumentStoreMixin σ) (name : CString) :
    Status × UInt64 × DocumentStoreMixin σ :=
  let (status, metadata, s) := s.collGetMetadata name {}
  (status, metadata.size, s)

/-- `docSize`. -/
def docSize (s : DocumentStoreMixin σ) (name : CString) (mode : Mode) (ids : List UInt64)
    (sizes : List ℕ) : Option (Status × List ℕ) :=
  if name.bytes = [] then some (.InvalidArg, sizes)
  else (keysFromIds name ids).map (fun keys => length mode s.db keys (idKeySizes name ids) sizes)

/-- `docStore`. The ids assigned are written over `ids`, which gives their number. -/
def docStore (s : DocumentStoreMixin σ) (name : CString) (mode : Mode) (documents : Bytes)
    (sizes : List ℕ) (ids : List UInt64) :
    Option (Status × List UInt64 × DocumentStoreMixin σ) :=
  let count := ids.length
  let (status, metadata, s) := s.collGetMetadata name {}
  if status ≠ .OK then some (status, ids, s)
  else
    let ids := (List.range count).map (fun i => metadata.nextId + UInt64.ofNat i)
    let metadata := { metadata with nextId := metadata.nextId + UInt64.ofNat count }
    let (status, s) := s.collPutMetadata name metadata false
    if status ≠ .OK then some (status, ids, s)
    else
      match keysFromIds name ids with
      | none => none
      | some keys =>
        let r := put mode s.db keys (idKeySizes name ids) documents sizes
        let s := { s with db := r.2 }
        if r.1 ≠ .OK then some (r.1, ids, s)
        else
          -- the metadata is read again: the lock was released during the `put`
          let (_, metadata, s) := s.collGetMetadata name metadata
          let metadata := { metadata with size := metadata.size + UInt64.ofNat count }
          let (status, s) := s.collPutMetadata name metadata true
          some (status, ids, s)

/-- The loop of `docUpdate` that counts the ids without document and finds the largest id. -/
def extraKeysAndMaxID (ids : List UInt64) (docsExist : List Bool) : UInt64 × UInt64 :=
  (ids.zip docsExist).foldl
    (fun acc p => (if p.2 then acc.1 else acc.1 + 1, max acc.2 p.1)) (0, 0)

/-- The loop of `docUpdate` that looks for an id that was not assigned, with an `unsigned` counter:
whether there is none. -/
def knownIds (nextId : UInt64) (ids : List UInt64) : Option Bool :=
  countAll 32 ids.length fun i => nextId ≤ ids.getD i 0

/-- `docUpdate`. There is no result when a loop over the ids does not end, either. -/
def docUpdate (s : DocumentStoreMixin σ) (name : CString) (mode : Mode) (ids : List UInt64)
    (documents : Bytes) (sizes : List ℕ) : Option (Status × DocumentStoreMixin σ) :=
  if name.bytes = [] then some (.InvalidArg, s)
  else
    match keysFromIds name ids with
    | none => none
    | some keys =>
      let ksizes := idKeySizes name ids
      let (status, metadata, s) := s.collGetMetadata name {}
      if status ≠ .OK then some (status, s)
      else if mode.has .updateNew then
        let e := existsKeys mode s.db keys ksizes (List.replicate sizes.length false)
        if e.1 ≠ .OK then some (e.1, s)
        else
          (countAll 32 ids.length fun _ => false).map fun _ =>
            let (extraKeys, maxID) := extraKeysAndMaxID ids e.2
            let r := put mode s.db keys ksizes documents sizes
            let s := { s with db := r.2 }
            if r.1 ≠ .OK then (r.1, s)
            else
              let metadata := ⟨metadata.size + extraKeys, maxID + 1⟩
              s.collPutMetadata name metadata true
      else
        (knownIds metadata.nextId ids).map fun known =>
          if !known then (.InvalidID, s)
          else
            let r := put mode s.db keys ksizes documents sizes
            (r.1, { s with db := r.2 })

/-- `docLoad`. -/
def docLoad (s : DocumentStoreMixin σ) (name : CString) (mode : Mode) (packed : Bool)
    (ids : List UInt64) (documents : Bytes) (sizes : List ℕ) :
    Option (Status × GetOutput × DocumentStoreMixin σ) :=
  if name.bytes = [] then some (.InvalidArg, ⟨documents, documents.length, sizes⟩, s)
  else
    let (status, e) := s.collExistsImpl name
    if status ≠ .OK then some (status, ⟨documents, documents.length, sizes⟩, s)
    else if !e then some (.NotFound, ⟨documents, documents.length, sizes⟩, s)
    else
      (keysFromIds name ids).map (fun keys =>
        let r := get mode packed s.db keys (idKeySizes name ids) documents sizes
        (r.status, r.out, { s with db := r.db }))

/-- `docFetch`. -/
def docFetch {υ : Type} (s : DocumentStoreMixin σ) (name : CString) (mode : Mode)
    (ids : List UInt64) (func : υ → UInt64 → Option Bytes → Status × υ) (u : υ) :
    Option (Status × DocumentStoreMixin σ × υ) :=
  if name.bytes = [] then some (.InvalidArg, s, u)
  else
    let (status, _) := s.collExistsImpl name
    if status ≠ .OK then some (status, s, u)
    else
      (keysFromIds name ids).map (fun keys =>
        let r := fetch mode s.db keys (idKeySizes name ids)
          (fun u key val => func u (idFromKey name.bytes.length key) val) u
        (r.1, { s with db := r.2.1 }, r.2.2))

/-- `docErase`. -/
def docErase (s : DocumentStoreMixin σ) (name : CString) (mode : Mode) (ids : List UInt64) :
    Option (Status × DocumentStoreMixin σ) :=
  if name.bytes = [] then some (.InvalidArg, s)
  else
    match keysFromIds name ids with
    | none => none
    | some keys =>
      let ksizes := idKeySizes name ids
      let e := existsKeys mode s.db keys ksizes (List.replicate ids.length false)
      if e.1 ≠ .OK then some (e.1, s)
      else
        let numKeysToErase := UInt64.ofNat (e.2.count true)
        let (status, metadata, s) := s.collGetMetadata name {}
        if status ≠ .OK then some (status, s)
        else
          let r := erase mode s.db keys ksizes
          let s := { s with db := r.2 }
          if r.1 ≠ .OK then some (r.1, s)
          else
            let metadata := { metadata with size := metadata.size - numKeysToErase }
            some (s.collPutMetadata name metadata true)

/-! ### The sections of `docStore`

`docStore` holds the lock while it assigns the ids and again while it counts the documents, and not
while it puts them. -/

/-- The first section of `docStore`: the ids, and the metadata that is left in its variables. -/
def reserveIds (s : DocumentStoreMixin σ) (name : CString) (ids : List UInt64) :
    Status × List UInt64 × CollectionMetadata × DocumentStoreMixin σ :=
  let count := ids.length
  let (status, metadata, s) := s.collGetMetadata name {}
  if status ≠ .OK then (status, ids, metadata, s)
  else
    let ids := (List.range count).map (fun i => metadata.nextId + UInt64.ofNat i)
    let metadata := { metadata with nextId := metadata.nextId + UInt64.ofNat count }
    let (status, s) := s.collPutMetadata name metadata false
    (status, ids, metadata, s)

theorem length_reserveIds (s : DocumentStoreMixin σ) (name : CString) (ids : List UInt64) :
    (s.reserveIds name ids).2.1.length = ids.length := by
  unfold reserveIds
  dsimp only
  split_ifs
  · rfl
  · simp

/-- What `docStore` does between its sections. -/
def putDocuments (s : DocumentStoreMixin σ) (name : CString) (mode : Mode) (documents : Bytes)
    (sizes : List ℕ) (ids : List UInt64) : Option (Status × DocumentStoreMixin σ) :=
  (keysFromIds name ids).map (fun keys =>
    let r := put mode s.db keys (idKeySizes name ids) documents sizes
    (r.1, { s with db := r.2 }))

/-- The last section of `docStore`. The status of `_collGetMetadata` is not looked at. -/
def countDocuments (s : DocumentStoreMixin σ) (name : CString) (metadata : CollectionMetadata)
    (count : ℕ) : Status × DocumentStoreMixin σ :=
  let (_, metadata, s) := s.collGetMetadata name metadata
  s.collPutMetadata name { metadata with size := metadata.size + UInt64.ofNat count } true

/-- `docStore` run on its own is its sections one after the other. -/
theorem docStore_eq (s : DocumentStoreMixin σ) (name : CString) (mode : Mode) (documents : Bytes)
    (sizes : List ℕ) (ids : List UInt64) :
    s.docStore name mode documents sizes ids =
      let (status, assigned, metadata, s) := s.reserveIds name ids
      if status ≠ .OK then some (status, assigned, s)
      else
        (s.putDocuments name mode documents sizes assigned).map (fun r =>
          if r.1 ≠ .OK then (r.1, assigned, r.2)
          else
            let c := r.2.countDocuments name metadata ids.length
            (c.1, assigned, c.2)) := by
  unfold docStore reserveIds putDocuments
  rcases s.collGetMetadata name {} with ⟨status, metadata, t⟩
  by_cases hget : status = .OK
  · simp only [hget, ne_eq, not_true, if_false]
    generalize t.collPutMetadata name _ false = q
    by_cases hput : q.1 = .OK
    · simp only [hput, not_true, if_false]
      cases keysFromIds name _ with
      | none => rfl
      | some keys =>
        simp only [Option.map_some]
        split_ifs <;> rfl
    · simp only [hput, not_false_eq_true, if_true]
  · simp only [hget, ne_eq, not_false_eq_true, if_true]

end DocumentStoreMixin

/-! ### The keys of different documents -/

/-- Bit `i` of the swapped word is bit `i` of the byte at the mirrored position. -/
theorem getLsbD_ensureBigEndian (id : UInt64) {i : ℕ} (hi : i < 64) :
    (ensureBigEndian id).toBitVec.getLsbD i = id.toBitVec.getLsbD (i ^^^ 8 ^^^ 16 ^^^ 32) := by
  have h32 : ∀ (x : BitVec 64) (i : ℕ), i < 64 →
      ((x &&& 0x00000000FFFFFFFF#64) <<< 32 ||| (x &&& 0xFFFFFFFF00000000#64) >>> 32).getLsbD i =
        x.getLsbD (i ^^^ 32) := by
    intro x i hi
    interval_cases i <;> simp
  have h16 : ∀ (x : BitVec 64) (i : ℕ), i < 64 →
      ((x &&& 0x0000FFFF0000FFFF#64) <<< 16 ||| (x &&& 0xFFFF0000FFFF0000#64) >>> 16).getLsbD i =
        x.getLsbD (i ^^^ 16) := by
    intro x i hi
    interval_cases i <;> simp
  have h8 : ∀ (x : BitVec 64) (i : ℕ), i < 64 →
      ((x &&& 0x00FF00FF00FF00FF#64) <<< 8 ||| (x &&& 0xFF00FF00FF00FF00#64) >>> 8).getLsbD i =
        x.getLsbD (i ^^^ 8) := by
    intro x i hi
    interval_cases i <;> simp
  have hlt : ∀ a b : ℕ, a < 64 → b < 64 → a ^^^ b < 64 := fun a b ha hb =>
    Nat.xor_lt_two_pow (n := 6) ha hb
  have h1 := hlt i 8 hi (by decide)
  have h2 := hlt _ 16 h1 (by decide)
  rw [← h32 _ _ h2, ← h16 _ _ h1, ← h8 _ _ hi]
  rfl

/-- Swapping the bytes twice gives the word back. -/
theorem ensureBigEndian_involutive : Function.Involutive ensureBigEndian := by
  intro id
  apply UInt64.toBitVec_inj.1
  apply BitVec.eq_of_getLsbD_eq
  intro i hi
  have hlt : i ^^^ 8 ^^^ 16 ^^^ 32 < 64 := by
    have h : ∀ i < 64, i ^^^ 8 ^^^ 16 ^^^ 32 < 64 := by decide
    exact h i hi
  have hback : ∀ i < 64, i ^^^ 8 ^^^ 16 ^^^ 32 ^^^ 8 ^^^ 16 ^^^ 32 = i := by decide
  rw [getLsbD_ensureBigEndian _ hi, getLsbD_ensureBigEndian _ hlt, hback i hi]

@[simp] theorem ensureBigEndian_ensureBigEndian (id : UInt64) :
    ensureBigEndian (ensureBigEndian id) = id := ensureBigEndian_involutive id

@[simp] theorem length_keyFromId (name : CString) (id : UInt64) :
    (keyFromId name id).length = name.bytes.length + 1 + 8 := by
  simp [keyFromId]

/-- The id is read back from its key. -/
theorem idFromKey_keyFromId (name : CString) (id : UInt64) :
    idFromKey name.bytes.length (keyFromId name id) = id := by
  have hslice : slice (keyFromId name id) (name.bytes.length + 1) 8 =
      encode 8 (ensureBigEndian id).toNat := by
    simp [keyFromId, slice]
  rw [idFromKey, hslice, decode_encode_of_lt (UInt64.toNat_lt _), UInt64.ofNat_toNat,
    ensureBigEndian_ensureBigEndian]

/-- Different documents have different keys, also in different collections: the first NUL of a
key ends the name. -/
theorem keyFromId_inj {name name' : CString} {id id' : UInt64}
    (h : keyFromId name id = keyFromId name' id') : name = name' ∧ id = id' := by
  have hname : ∀ (n : CString) (i : UInt64), (keyFromId n i).takeWhile (· ≠ 0) = n.bytes := by
    intro n i
    have hn : ∀ b ∈ n.bytes, decide (b ≠ 0) = true := by
      intro b hb
      rw [decide_eq_true_eq]
      rintro rfl
      exact n.noNul hb
    rw [keyFromId, List.append_assoc, List.takeWhile_append_of_pos hn]
    simp
  have heq : name = name' := CString.ext (by rw [← hname name id, h, hname])
  subst heq
  refine ⟨rfl, ?_⟩
  rw [← idFromKey_keyFromId name id, h, idFromKey_keyFromId]

theorem keyFromId_injective (name : CString) : Function.Injective (keyFromId name) :=
  fun _ _ h => (keyFromId_inj h).2

/-- The key of a document is not the name of a collection. -/
theorem keyFromId_ne_name (name name' : CString) (id : UInt64) : keyFromId name id ≠ name'.bytes := by
  intro h
  apply name'.noNul
  rw [← h, keyFromId]
  simp

/-! ### The keys of a list of ids -/

theorem keysFromIdsLoop_eq (name : CString) (ids : List UInt64) (i : ℕ) (buffer : Bytes)
    (h : (i + ids.length) * (name.bytes.length + 1 + 8) ≤ buffer.length) :
    keysFromIdsLoop name ids i buffer =
      blit buffer (i * (name.bytes.length + 1 + 8)) (ids.map (keyFromId name)).flatten := by
  induction ids generalizing i buffer with
  | nil => simp [keysFromIdsLoop]
  | cons id ids ih =>
    rw [List.length_cons, ← Nat.add_assoc, Nat.add_right_comm] at h
    have hle : (i + 1) * (name.bytes.length + 1 + 8) ≤ (i + 1 + ids.length) * (name.bytes.length + 1 + 8) :=
      Nat.mul_le_mul_right _ (Nat.le_add_right _ _)
    have hsucc : (i + 1) * (name.bytes.length + 1 + 8) =
        i * (name.bytes.length + 1 + 8) + (name.bytes.length + 1 + 8) := Nat.succ_mul _ _
    have hkey : blit (blit buffer (i * (name.bytes.length + 1 + 8)) (name.bytes ++ [0]))
        (i * (name.bytes.length + 1 + 8) + (name.bytes.length + 1))
        (encode 8 (ensureBigEndian id).toNat) =
          blit buffer (i * (name.bytes.length + 1 + 8)) (keyFromId name id) := by
      have hfit : i * (name.bytes.length + 1 + 8) + (name.bytes ++ [0]).length ≤ buffer.length := by
        rw [List.length_append, List.length_singleton]
        omega
      have h := blit_blit_adjacent (b := encode 8 (ensureBigEndian id).toNat) hfit
      rwa [List.length_append, List.length_singleton] at h
    have hlen : (blit buffer (i * (name.bytes.length + 1 + 8)) (keyFromId name id)).length =
        buffer.length := length_blit (by rw [length_keyFromId]; omega)
    rw [keysFromIdsLoop]
    simp only [hkey]
    rw [ih (i + 1) _ (by rw [hlen]; exact h), hsucc, List.map_cons, List.flatten_cons,
      ← blit_blit_adjacent (by rw [length_keyFromId]; omega), length_keyFromId]

/-- The keys of `ids` fit in the address space. -/
def KeysFit (name : CString) (ids : List UInt64) : Prop :=
  ids.length * (name.bytes.length + 1 + 8) < 2 ^ 64

theorem sum_idKeySizes (name : CString) (ids : List UInt64) :
    (idKeySizes name ids).sum = ids.length * (name.bytes.length + 1 + 8) := by
  simp [idKeySizes]

theorem map_length_keyFromId (name : CString) (ids : List UInt64) :
    (ids.map (keyFromId name)).map List.length = idKeySizes name ids := by
  simp [idKeySizes, Function.comp_def, List.map_const']

theorem keysFromIds_eq {name : CString} {ids : List UInt64} {keys : Bytes}
    (h : keysFromIds name ids = some keys) :
    KeysFit name ids ∧ keys = (ids.map (keyFromId name)).flatten := by
  unfold keysFromIds at h
  simp only at h
  split_ifs at h with hfit
  obtain rfl := Option.some.inj h
  refine ⟨hfit, ?_⟩
  have hlen : (ids.map (keyFromId name)).flatten.length =
      ids.length * (name.bytes.length + 1 + 8) := by
    rw [List.length_flatten, map_length_keyFromId, sum_idKeySizes]
  rw [keysFromIdsLoop_eq _ _ _ _ (by simp), blit, Nat.zero_mul, hlen]
  simp

theorem keysFromIds_of_fit {name : CString} {ids : List UInt64} (h : KeysFit name ids) :
    keysFromIds name ids = some (ids.map (keyFromId name)).flatten := by
  have hfit : ids.length * (name.bytes.length + 1 + 8) < 2 ^ 64 := h
  have hsome : keysFromIds name ids = some (keysFromIdsLoop name ids 0
      (List.replicate (ids.length * (name.bytes.length + 1 + 8)) 0)) := if_pos hfit
  rw [hsome, (keysFromIds_eq hsome).2]

/-- The buffer of the keys holds the keys. -/
theorem packed_keys {name : CString} {ids : List UInt64} (h : KeysFit name ids) :
    Packed (ids.map (keyFromId name)).flatten (idKeySizes name ids) := by
  refine ⟨?_, by rw [sum_idKeySizes]; exact h⟩
  rw [List.length_flatten, map_length_keyFromId]

theorem unpack_keys (name : CString) (ids : List UInt64) :
    unpack (ids.map (keyFromId name)).flatten (idKeySizes name ids) = ids.map (keyFromId name) := by
  rw [← map_length_keyFromId, unpack_flatten]

@[simp] theorem length_idKeySizes (name : CString) (ids : List UInt64) :
    (idKeySizes name ids).length = ids.length := by
  simp [idKeySizes]

end Yokan
