import Yokan.Collections

/-!
# Yokan: the `array` backend

`ArrayDatabase` (`src/backends/array.cpp`). A collection keeps all its documents in one growing
array of bytes, `m_data`, with the offset and the size of document `id` at position `id` of two
vectors; a hole has `YOKAN_KEY_NOT_FOUND` in both. `m_count` counts the documents.

The vectors live in memory: an operation that would make one larger than its `max_size()` throws
and has no result.
-/

namespace Yokan

open Buffer

/-- `ArrayDatabase::Collection`. -/
structure ArrayCollection where
  data : Bytes := []
  count : UInt64 := 0
  offsets : List ℕ := []
  sizes : List ℕ := []

/-- `max_size()` of a vector whose elements have `elementSize` bytes. -/
def vectorMaxSize (elementSize : ℕ) : ℕ := (2 ^ 63 - 1) / elementSize

/-- `push_back` on a vector of `size_t`. -/
def pushBack (v : List ℕ) (x : ℕ) : Option (List ℕ) :=
  if v.length < vectorMaxSize 8 then some (v ++ [x]) else none

namespace ArrayCollection

/-- `m_data.reserve` and `m_data.resize`, for `n` more bytes. -/
def grow (coll : ArrayCollection) (n : ℕ) : Option ArrayCollection :=
  if max (2 * coll.data.length) (coll.data.length + n) ≤ vectorMaxSize 1 then
    some { coll with data := coll.data ++ List.replicate n 0 }
  else none

/-- The loop of `docStore`. -/
def storeLoop (documents : Bytes) : List ℕ → ℕ → ℕ → ℕ → ArrayCollection → List UInt64 →
    Option (ArrayCollection × List UInt64)
  | [], _, _, _, coll, ids => some (coll, ids)
  | docSize :: docSizes, id, docPtr, offset, coll, ids => do
    let data := blit coll.data offset (slice documents docPtr docSize)
    let sizes ← pushBack coll.sizes docSize
    let offsets ← pushBack coll.offsets offset
    storeLoop documents docSizes (id + 1) (docPtr + docSize) (offset + docSize)
      ⟨data, coll.count + 1, offsets, sizes⟩ (ids ++ [UInt64.ofNat id])

/-- The loop of `docUpdate` that creates missing ids. -/
def createMissing : ℕ → ArrayCollection → Option ArrayCollection
  | 0, coll => some coll
  | n + 1, coll => do
    let sizes ← pushBack coll.sizes keyNotFound
    let offsets ← pushBack coll.offsets keyNotFound
    createMissing n { coll with offsets, sizes }

/-- The loop of `docUpdate`. -/
def updateLoop (documents : Bytes) : List (UInt64 × ℕ) → ℕ → ℕ → ArrayCollection →
    Option ArrayCollection
  | [], _, _, coll => some coll
  | (id, docSize) :: docs, docPtr, offset, coll => do
    let coll ← createMissing (id.toNat + 1 - coll.sizes.length) coll
    let count := if coll.sizes[id.toNat]? = some keyNotFound then coll.count + 1 else coll.count
    let data := blit coll.data offset (slice documents docPtr docSize)
    updateLoop documents docs (docPtr + docSize) (offset + docSize)
      ⟨data, count, coll.offsets.set id.toNat offset, coll.sizes.set id.toNat docSize⟩

/-- The loop of `docErase`. -/
def eraseLoop : List UInt64 → ArrayCollection → ArrayCollection
  | [], coll => coll
  | id :: ids, coll =>
    if coll.sizes.length ≤ id.toNat then eraseLoop ids coll
    else
      let count := if coll.sizes[id.toNat]? ≠ some keyNotFound then coll.count - 1 else coll.count
      eraseLoop ids { coll with
        count
        sizes := coll.sizes.set id.toNat keyNotFound
        offsets := coll.offsets.set id.toNat keyNotFound }

/-- The record of a document: its offset and its size, unless there is none under the id. -/
def record (coll : ArrayCollection) (id : UInt64) : Option (ℕ × ℕ) :=
  match coll.offsets[id.toNat]?, coll.sizes[id.toNat]? with
  | some offset, some size => if size = keyNotFound then none else some (offset, size)
  | _, _ => none

/-- The loop of `docLoad` that packs the documents. -/
def loadPackedLoop (coll : ArrayCollection) : List UInt64 → ℕ → ℕ → Bytes → List ℕ →
    Bytes × List ℕ
  | [], _, _, documents, sizes => (documents, sizes)
  | id :: ids, docPtr, remaining, documents, sizes =>
    match coll.record id with
    | none => loadPackedLoop coll ids docPtr remaining documents (sizes ++ [keyNotFound])
    | some (offset, size) =>
      if remaining < size then
        (documents, sizes ++ List.replicate (ids.length + 1) sizeTooSmall)
      else
        loadPackedLoop coll ids (docPtr + size) (remaining - size)
          (blit documents docPtr (slice coll.data offset size)) (sizes ++ [size])

/-- The loop of `docLoad` that gives each document its own slot. A document that is larger than
its slot does not move the pointer to the next slot. -/
def loadSlotsLoop (coll : ArrayCollection) : List (UInt64 × ℕ) → ℕ → Bytes → List ℕ →
    Bytes × List ℕ
  | [], _, documents, sizes => (documents, sizes)
  | (id, bufferSize) :: slots, docPtr, documents, sizes =>
    match coll.record id with
    | none => loadSlotsLoop coll slots (docPtr + bufferSize) documents (sizes ++ [keyNotFound])
    | some (offset, size) =>
      if bufferSize < size then
        loadSlotsLoop coll slots docPtr documents (sizes ++ [sizeTooSmall])
      else
        loadSlotsLoop coll slots (docPtr + bufferSize)
          (blit documents docPtr (slice coll.data offset size)) (sizes ++ [size])

end ArrayCollection

/-- `ArrayDatabase`. -/
structure ArrayDatabase where
  collections : CString → Option ArrayCollection

namespace ArrayDatabase

/-- `supportsMode`. -/
def supportsMode (mode : Mode) : Bool :=
  mode == mode &&& (Mode.inclusive ||| Mode.consume ||| Mode.wait ||| Mode.luaFilter |||
    Mode.ignoreDocs ||| Mode.filterValue ||| Mode.libFilter ||| Mode.noRdma ||| Mode.updateNew)

/-- A database without collections. -/
def empty : ArrayDatabase := ⟨fun _ => none⟩

/-- `collCreate`. -/
def collCreate (s : ArrayDatabase) (name : CString) : Status × ArrayDatabase :=
  match s.collections name with
  | some _ => (.KeyExists, s)
  | none => (.OK, ⟨Function.update s.collections name (some {})⟩)

/-- `collDrop`. -/
def collDrop (s : ArrayDatabase) (name : CString) : Status × ArrayDatabase :=
  match s.collections name with
  | none => (.NotFound, s)
  | some _ => (.OK, ⟨Function.update s.collections name none⟩)

/-- `collExists`. -/
def collExists (s : ArrayDatabase) (name : CString) : Status × Bool :=
  (.OK, (s.collections name).isSome)

/-- `collLastID`, over the caller's `id`. -/
def collLastID (s : ArrayDatabase) (name : CString) (id : UInt64) : Status × UInt64 :=
  match s.collections name with
  | none => (.NotFound, id)
  | some coll => (.OK, UInt64.ofNat coll.sizes.length - 1)

/-- `collSize`, over the caller's `size`. -/
def collSize (s : ArrayDatabase) (name : CString) (size : UInt64) : Status × UInt64 :=
  match s.collections name with
  | none => (.NotFound, size)
  | some coll => (.OK, coll.count)

/-- `docSize`. -/
def docSize (s : ArrayDatabase) (name : CString) (ids : List UInt64) (sizes : List ℕ) :
    Status × List ℕ :=
  match s.collections name with
  | none => (.OK, ids.map (fun _ => keyNotFound) ++ sizes.drop ids.length)
  | some coll =>
    (.OK, ids.map (fun id => coll.sizes.getD id.toNat keyNotFound) ++ sizes.drop ids.length)

/-- `docStore`. -/
def docStore (s : ArrayDatabase) (name : CString) (documents : Bytes) (sizes : List ℕ)
    (ids : List UInt64) : Option (Status × List UInt64 × ArrayDatabase) :=
  match s.collections name with
  | none => some (.NotFound, ids, s)
  | some coll => do
    let id := coll.sizes.length
    let offset := coll.data.length
    let coll ← coll.grow documents.length
    let (coll, assigned) ← coll.storeLoop documents sizes id 0 offset []
    some (.OK, assigned ++ ids.drop assigned.length,
      ⟨Function.update s.collections name (some coll)⟩)

/-- `docUpdate`. -/
def docUpdate (s : ArrayDatabase) (name : CString) (mode : Mode) (ids : List UInt64)
    (documents : Bytes) (sizes : List ℕ) : Option (Status × ArrayDatabase) :=
  match s.collections name with
  | none => some (.NotFound, s)
  | some coll =>
    if mode.has .updateNew = false ∧ ids.any (fun id => coll.sizes.length ≤ id.toNat) then
      some (.InvalidID, s)
    else do
      let offset := coll.data.length
      let coll ← coll.grow documents.length
      let coll ← coll.updateLoop documents (ids.zip sizes) 0 offset
      some (.OK, ⟨Function.update s.collections name (some coll)⟩)

/-- `docLoad`. -/
def docLoad (s : ArrayDatabase) (name : CString) (packed : Bool) (ids : List UInt64)
    (documents : Bytes) (sizes : List ℕ) : Status × Bytes × List ℕ :=
  match s.collections name with
  | none => (.NotFound, documents, sizes)
  | some coll =>
    let r := if packed then coll.loadPackedLoop ids 0 documents.length documents []
      else coll.loadSlotsLoop (ids.zip sizes) 0 documents []
    (.OK, r.1, r.2 ++ sizes.drop r.2.length)

/-- `docFetch`. The status of the callback is not looked at. -/
def docFetch {υ : Type} (s : ArrayDatabase) (name : CString) (ids : List UInt64)
    (func : υ → UInt64 → Option Bytes → Status × υ) (u : υ) : Status × υ :=
  match s.collections name with
  | none => (.NotFound, u)
  | some coll =>
    (.OK, ids.foldl (fun u id =>
      (func u id ((coll.record id).map (fun r => slice coll.data r.1 r.2))).2) u)

/-- `docErase`. -/
def docErase (s : ArrayDatabase) (name : CString) (ids : List UInt64) : Status × ArrayDatabase :=
  match s.collections name with
  | none => (.NotFound, s)
  | some coll => (.OK, ⟨Function.update s.collections name (some (coll.eraseLoop ids))⟩)

/-- An operation as a step: its status and the database it leaves, if it returns. -/
def step (s : ArrayDatabase) : CString × DocOp → Option (Status × ArrayDatabase)
  | (name, .create) => some (s.collCreate name)
  | (name, .drop _) => some (s.collDrop name)
  | (name, .store _ batch ids) =>
    (s.docStore name batch.documents batch.sizes ids).map (fun r => (r.1, r.2.2))
  | (name, .update mode ids batch) => s.docUpdate name mode ids batch.documents batch.sizes
  | (name, .erase _ ids) => some (s.docErase name ids)
  | (name, .load _ packed ids documents sizes) =>
    some ((s.docLoad name packed ids documents sizes).1, s)

end ArrayDatabase

end Yokan
