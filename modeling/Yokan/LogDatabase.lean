import Yokan.Log

/-!
# Yokan: the database of the `log` backend

`LogDatabase` (`src/backends/log.cpp`): the open collections of a directory, and what the directory
holds besides. `collDrop` leaves the files `name.meta`, `name.0` and so on where they are: it
removes `name`, which is none of them.

Names of collections are taken to be names of files, and no collection is called like a file of
another one, so that what `collDrop` removes does not exist.
-/

namespace Yokan

open Buffer

namespace LogCollection

/-- The loop of `docErase`. The statuses are not looked at. -/
def eraseLoop : List UInt64 → LogCollection → Outcome LogCollection
  | [], c => .ok c
  | id :: ids, c => do
    let (_, c) ← c.erase id
    eraseLoop ids c

/-- The loop of `docSize`. -/
def sizeLoop (c : LogCollection) : List (UInt64 × ℕ) → Status × List ℕ
  | [] => (.OK, [])
  | (id, size) :: docs =>
    let (status, size) := c.entrySize id size
    if status = .NotFound then
      let r := sizeLoop c docs
      (r.1, keyNotFound :: r.2)
    else if status ≠ .OK then (status, size :: docs.map Prod.snd)
    else
      let r := sizeLoop c docs
      (r.1, size :: r.2)

/-- The loop of `docLoad` that packs the documents. -/
def loadPackedLoop : List UInt64 → ℕ → ℕ → Bytes → List ℕ → LogCollection →
    Outcome (Status × Bytes × List ℕ × LogCollection)
  | [], _, _, documents, sizes, c => .ok (.OK, documents, sizes, c)
  | id :: ids, docPtr, remaining, documents, sizes, c => do
    let (status, doc, c) ← c.read id remaining
    if status = .SizeError then
      .ok (.OK, documents, sizes ++ List.replicate (ids.length + 1) sizeTooSmall, c)
    else if status = .NotFound ∨ status = .InvalidID then
      loadPackedLoop ids docPtr remaining documents (sizes ++ [keyNotFound]) c
    else if status ≠ .OK then .ok (status, documents, sizes, c)
    else
      loadPackedLoop ids (docPtr + doc.length) (remaining - doc.length) (blit documents docPtr doc)
        (sizes ++ [doc.length]) c

/-- The loop of `docLoad` that gives each document its own slot. -/
def loadSlotsLoop : List (UInt64 × ℕ) → ℕ → Bytes → List ℕ → LogCollection →
    Outcome (Status × Bytes × List ℕ × LogCollection)
  | [], _, documents, sizes, c => .ok (.OK, documents, sizes, c)
  | (id, bufSize) :: slots, docPtr, documents, sizes, c => do
    let (status, doc, c) ← c.read id bufSize
    if status = .OK then
      loadSlotsLoop slots (docPtr + bufSize) (blit documents docPtr doc) (sizes ++ [doc.length]) c
    else if status = .InvalidID ∨ status = .NotFound then
      loadSlotsLoop slots (docPtr + bufSize) documents (sizes ++ [keyNotFound]) c
    else if status = .SizeError then
      loadSlotsLoop slots (docPtr + bufSize) documents (sizes ++ [sizeTooSmall]) c
    else .ok (status, documents, sizes, c)

/-- The loop of `docFetch`. The statuses are not looked at. -/
def fetchLoop {υ : Type} (func : υ → UInt64 → Option Bytes → Status × υ) :
    List UInt64 → υ → LogCollection → Outcome (υ × LogCollection)
  | [], u, c => .ok (u, c)
  | id :: ids, u, c => do
    let (_, u, c) ← c.fetch id func u
    fetchLoop func ids u c

end LogCollection

/-- `LogDatabase`: what its configuration says, its open collections, and the files of the collections
that are not open. -/
structure LogDatabase where
  chunkSize : ℕ
  cacheSize : UInt64
  collections : CString → Option LogCollection
  directory : CString → Option CollectionFiles

namespace LogDatabase

/-- The constructor, over the collections found in the directory. -/
def ofDirectory (chunkSize : ℕ) (cacheSize : UInt64)
    (directory : CString → Option CollectionFiles) : LogDatabase where
  chunkSize := chunkSize
  cacheSize := cacheSize
  collections name := (directory name).map (LogCollection.ofFiles chunkSize cacheSize)
  directory := directory

/-- What the directory holds once the database is closed. -/
def files (s : LogDatabase) (name : CString) : Option CollectionFiles :=
  match s.collections name with
  | some c => some c.toCollectionFiles
  | none => s.directory name

/-- The database closed, and opened again on the same directory. -/
def reopen (s : LogDatabase) : LogDatabase := ofDirectory s.chunkSize s.cacheSize s.files

/-- The collection of a name is replaced. -/
def put (s : LogDatabase) (name : CString) (c : LogCollection) : LogDatabase :=
  { s with collections := Function.update s.collections name (some c) }

/-- `collCreate`. -/
def collCreate (s : LogDatabase) (name : CString) : Status × LogDatabase :=
  match s.collections name with
  | some _ => (.KeyExists, s)
  | none => (.OK, s.put name (.ofFiles s.chunkSize s.cacheSize ((s.directory name).getD {})))

/-- `collDrop`. -/
def collDrop (s : LogDatabase) (name : CString) : Status × LogDatabase :=
  match s.collections name with
  | none => (.NotFound, s)
  | some c => (.OK, { s with
      collections := Function.update s.collections name none
      directory := Function.update s.directory name (some c.toCollectionFiles) })

/-- `collExists`. -/
def collExists (s : LogDatabase) (name : CString) : Status × Bool :=
  (.OK, (s.collections name).isSome)

/-- `collLastID`, over the caller's `id`. -/
def collLastID (s : LogDatabase) (name : CString) (id : UInt64) : Status × UInt64 :=
  match s.collections name with
  | none => (.NotFound, id)
  | some c => (.OK, c.lastId)

/-- `collSize`, over the caller's `size`. -/
def collSize (s : LogDatabase) (name : CString) (size : UInt64) : Status × UInt64 :=
  match s.collections name with
  | none => (.NotFound, size)
  | some c => (.OK, c.size)

/-- `docSize`, for as many sizes as ids. -/
def docSize (s : LogDatabase) (name : CString) (ids : List UInt64) (sizes : List ℕ) :
    Status × List ℕ :=
  match s.collections name with
  | none => (.OK, ids.map fun _ => keyNotFound)
  | some c => c.sizeLoop (ids.zip sizes)

/-- `docStore`. -/
def docStore (s : LogDatabase) (name : CString) (documents : Bytes) (sizes : List ℕ)
    (ids : List UInt64) : Outcome (Status × List UInt64 × LogDatabase) :=
  match s.collections name with
  | none => .ok (.NotFound, ids, s)
  | some c => do
    let (status, ids, c) ← c.append documents sizes ids
    .ok (status, ids, s.put name c)

/-- `docUpdate`. -/
def docUpdate (s : LogDatabase) (name : CString) (mode : Mode) (ids : List UInt64)
    (documents : Bytes) (sizes : List ℕ) : Outcome (Status × LogDatabase) :=
  match s.collections name with
  | none => .ok (.NotFound, s)
  | some c =>
    if mode.has .updateNew = false ∧ ids.any (fun id => c.lastId < id) then .ok (.InvalidID, s)
    else do
      let (status, c) ← c.update ids documents sizes
      .ok (status, s.put name c)

/-- `docLoad`. -/
def docLoad (s : LogDatabase) (name : CString) (packed : Bool) (ids : List UInt64)
    (documents : Bytes) (sizes : List ℕ) : Outcome (Status × Bytes × List ℕ × LogDatabase) :=
  match s.collections name with
  | none => .ok (.NotFound, documents, sizes, s)
  | some c => do
    let (status, documents, loaded, c) ←
      if packed then c.loadPackedLoop ids 0 documents.length documents []
      else c.loadSlotsLoop (ids.zip sizes) 0 documents []
    .ok (status, documents, loaded ++ sizes.drop loaded.length, s.put name c)

/-- `docFetch`. -/
def docFetch {υ : Type} (s : LogDatabase) (name : CString) (ids : List UInt64)
    (func : υ → UInt64 → Option Bytes → Status × υ) (u : υ) : Outcome (Status × υ × LogDatabase) :=
  match s.collections name with
  | none => .ok (.NotFound, u, s)
  | some c => do
    let (u, c) ← c.fetchLoop func ids u
    .ok (.OK, u, s.put name c)

/-- `docErase`. -/
def docErase (s : LogDatabase) (name : CString) (ids : List UInt64) :
    Outcome (Status × LogDatabase) :=
  match s.collections name with
  | none => .ok (.NotFound, s)
  | some c => do
    let c ← c.eraseLoop ids
    .ok (.OK, s.put name c)

/-- An operation as a step: its status and the database it leaves. -/
def step (s : LogDatabase) : CString × DocOp → Outcome (Status × LogDatabase)
  | (name, .create) => .ok (s.collCreate name)
  | (name, .drop _) => .ok (s.collDrop name)
  | (name, .store _ batch ids) => do
    let (status, _, s) ← s.docStore name batch.documents batch.sizes ids
    .ok (status, s)
  | (name, .update mode ids batch) => s.docUpdate name mode ids batch.documents batch.sizes
  | (name, .erase _ ids) => s.docErase name ids
  | (name, .load _ packed ids documents sizes) => do
    let (status, _, _, s) ← s.docLoad name packed ids documents sizes
    .ok (status, s)

end LogDatabase

end Yokan
