import Yokan.ChunkCache
import Yokan.Collections
import Yokan.Library.LittleEndian

/-!
# Yokan: the `log` backend

`LogDatabase` (`src/backends/log.cpp`). A collection is a directory entry `name.meta` and chunk
files `name.0`, `name.1`, and so on. The meta file is a header followed by one entry for each id;
a chunk file starts with the next free offset, eight bytes, and then holds documents. All files
are mapped into memory, so that the files always hold what the mappings hold.

Of the cache of chunks there is its size only: the mapping it keeps of a chunk shows the same file as
a new one would, so that it does not matter which chunks it keeps, but a cache without room fails
(`getChunkFromID_eq_cache`). System calls are taken to succeed, except that no file grows to `2 ^ 63`
bytes. What the code does not survive is a `Failure`.
-/

namespace Yokan

open Buffer LittleEndian

/-- How an operation can end without a status: it dereferences the null chunk of
`getChunkFromID`, it removes an item from an empty cache, it accesses memory that is not its own, or
a file cannot grow. -/
inductive Failure
  | nullChunk
  | emptyCache
  | outOfBounds
  | fileTooLarge
  deriving DecidableEq

abbrev Outcome (α : Type) := Except Failure α

/-- Subtraction on `size_t`. -/
def subSize (a b : ℕ) : ℕ := (2 ^ 64 + a - b) % 2 ^ 64

/-- `EntryMetadata`. -/
structure EntryMetadata where
  chunk : ℕ := 0
  offset : ℕ := 0
  size : ℕ := 0
  allocated : ℕ := 0
  deriving DecidableEq

/-- `MetadataHeader`. -/
structure MetadataHeader where
  collSize : UInt64 := 0
  nextId : ℕ := 0
  lastChunkId : ℕ := 0
  chunkSize : ℕ := 0
  deriving DecidableEq

/-- `sizeof(EntryMetadata)` and `sizeof(MetadataHeader)`. -/
def sizeofEntry : ℕ := 32

/-- The files of a collection. Bytes that were never written are zero. -/
structure CollectionFiles where
  header : MetadataHeader := {}
  entries : ℕ → EntryMetadata := fun _ => {}
  chunks : ℕ → Bytes := fun _ => []

/-- `LogDatabase::Collection`: its files, `m_chunk_size`, the mapped size of the meta file, and the
`cache_size` of the configuration, from which `m_chunk_cache` has its size. -/
structure LogCollection extends CollectionFiles where
  chunkSize : ℕ
  metaSize : ℕ
  cacheSize : UInt64

/-- A file mapped with a size: it is extended with zeros when it is shorter. -/
def mapFile (file : Bytes) (size : ℕ) : Bytes := file ++ List.replicate (size - file.length) 0

namespace LogCollection

/-! ### The meta file -/

/-- `MemoryMappedFile::extend` on the meta file. -/
def extend (c : LogCollection) (newSize : ℕ) : Outcome LogCollection :=
  if newSize ≤ c.metaSize then .ok c
  else if newSize < 2 ^ 63 then .ok { c with metaSize := newSize }
  else .error .fileTooLarge

/-- `writeEntryMetadata`. -/
def writeEntryMetadata (c : LogCollection) (id : ℕ) (entry : EntryMetadata) :
    Outcome (Status × LogCollection) := do
  let offset := sizeofEntry + id * sizeofEntry
  let c ← if c.metaSize < offset + sizeofEntry then c.extend (2 * c.metaSize) else .ok c
  if c.metaSize < offset + sizeofEntry then .ok (.SizeError, c)
  else .ok (.OK, { c with entries := Function.update c.entries id entry })

/-- `readEntryMetadata`. The entry is not touched when it lies outside of the mapping. -/
def readEntryMetadata (c : LogCollection) (id : ℕ) : Status × EntryMetadata :=
  if c.metaSize < sizeofEntry + id * sizeofEntry + sizeofEntry then (.SizeError, {})
  else (.OK, c.entries id)

/-! ### Chunks -/

/-- A chunk file is mapped. -/
def mapChunk (c : LogCollection) (chunkId : ℕ) : LogCollection :=
  { c with chunks := Function.update c.chunks chunkId (mapFile (c.chunks chunkId) c.header.chunkSize) }

/-- The cache has room for a chunk. -/
def HasRoom (c : LogCollection) : Prop := LRUCache.cacheSizeOf c.cacheSize ≠ 0

instance (c : LogCollection) : Decidable c.HasRoom := inferInstanceAs (Decidable (_ ≠ _))

/-- `getChunkFromID`: the chunk is mapped afterwards, unless the result is null. A chunk behind which
there are others is taken from the cache. -/
def getChunkFromID (c : LogCollection) (chunkId : ℕ) : Outcome (Option LogCollection) :=
  if chunkId = c.header.lastChunkId then .ok (some (c.mapChunk chunkId))
  else if chunkId = c.header.lastChunkId + 1 then
    .ok (some (mapChunk { c with header := { c.header with lastChunkId := chunkId } } chunkId))
  else if chunkId < c.header.lastChunkId then
    if c.HasRoom then .ok (some (c.mapChunk chunkId)) else .error .emptyCache
  else .ok none

/-- The result of `getChunkFromID` is dereferenced. -/
def derefChunk (c : LogCollection) (chunkId : ℕ) : Outcome LogCollection := do
  match ← c.getChunkFromID chunkId with
  | none => .error .nullChunk
  | some c => .ok c

/-- The bytes of a chunk from an offset on are overwritten. -/
def blitChunk (c : LogCollection) (chunkId offset : ℕ) (bytes : Bytes) : LogCollection :=
  { c with chunks := Function.update c.chunks chunkId (blit (c.chunks chunkId) offset bytes) }

/-- `chunk->write`. -/
def writeChunk (c : LogCollection) (chunkId offset : ℕ) (bytes : Bytes) :
    Outcome (Status × LogCollection) :=
  if c.header.chunkSize < addSize offset bytes.length then .ok (.SizeError, c)
  else if 2 ^ 64 ≤ offset + bytes.length then .error .outOfBounds
  else .ok (.OK, c.blitChunk chunkId offset bytes)

/-- `chunk->read` and `chunk->fetch`: the bytes they see. -/
def readChunk (c : LogCollection) (chunkId offset size : ℕ) : Outcome (Status × Bytes) :=
  if c.header.chunkSize < addSize offset size then .ok (.SizeError, [])
  else if 2 ^ 64 ≤ offset + size then .error .outOfBounds
  else .ok (.OK, slice (c.chunks chunkId) offset size)

/-- The start of the free space of the last chunk, from its first eight bytes. -/
def nextOffset (c : LogCollection) : Outcome (Status × ℕ) := do
  let (status, bytes) ← c.readChunk c.header.lastChunkId 0 8
  .ok (status, if decode bytes = 0 then 8 else decode bytes)

/-- The part of the loops of `append` and `update` that opens a new chunk when a document does not fit
behind the others. -/
def makeSpace (c : LogCollection) (nextOffset size : ℕ) : Outcome (ℕ × LogCollection) :=
  if subSize c.chunkSize nextOffset < size then do
    let chunk ← c.getChunkFromID (c.header.lastChunkId + 1)
    .ok (8, chunk.getD c)
  else .ok (nextOffset, c)

/-- The part of the loops of `append` and `update` that writes a document behind the documents of
the last chunk, or in a new chunk. It also returns where the document starts. -/
def writeDocument (c : LogCollection) (nextOffset : ℕ) (doc : Bytes) :
    Outcome (Status × ℕ × LogCollection) := do
  let (nextOffset, c) ← c.makeSpace nextOffset doc.length
  let (status, c) ← c.writeChunk c.header.lastChunkId nextOffset doc
  if status ≠ .OK then .ok (status, nextOffset, c)
  else
    let (status, c) ← c.writeChunk c.header.lastChunkId 0 (encode 8 (nextOffset + doc.length))
    .ok (status, nextOffset, c)

/-! ### The operations -/

/-- The constructor, over the files found in the directory. -/
def ofFiles (chunkSize : ℕ) (cacheSize : UInt64) (files : CollectionFiles) : LogCollection :=
  let c : LogCollection :=
    { files with
      header := { files.header with chunkSize }
      chunkSize
      metaSize := 8 * 8 * 4096
      cacheSize }
  match c.getChunkFromID c.header.lastChunkId with
  | .ok chunk => chunk.getD c
  | .error _ => c

/-- `erase`. -/
def erase (c : LogCollection) (id : UInt64) : Outcome (Status × LogCollection) := do
  if c.header.nextId ≤ id.toNat then .ok (.InvalidID, c)
  else
    let (status, entry) := c.readEntryMetadata id.toNat
    if status ≠ .OK then .ok (status, c)
    else if entry.size = keyNotFound then .ok (.OK, c)
    else
      let entry := { entry with chunk := keyNotFound, size := keyNotFound, offset := keyNotFound }
      let (status, c) ← c.writeEntryMetadata id.toNat entry
      if status ≠ .OK then .ok (status, c)
      else .ok (.OK, { c with header := { c.header with collSize := c.header.collSize - 1 } })

/-- The loop of `append`. -/
def appendLoop (data : Bytes) : List ℕ → ℕ → ℕ → LogCollection → List UInt64 →
    Outcome (Status × List UInt64 × LogCollection)
  | [], _, _, c, ids => .ok (.OK, ids, c)
  | size :: sizes, docOffset, nextOffset, c, ids => do
    let id := c.header.nextId
    let ids := ids ++ [UInt64.ofNat id]
    let (status, offset, c) ← c.writeDocument nextOffset (slice data docOffset size)
    if status ≠ .OK then .ok (status, ids, c)
    else
      let (status, c) ← c.writeEntryMetadata id ⟨c.header.lastChunkId, offset, size, size⟩
      if status ≠ .OK then .ok (status, ids, c)
      else
        let header := { c.header with nextId := id + 1, collSize := c.header.collSize + 1 }
        appendLoop data sizes (docOffset + size) (offset + size) { c with header } ids

/-- `append`, for as many sizes as ids. The ids assigned are written over `ids`. -/
def append (c : LogCollection) (data : Bytes) (sizes : List ℕ) (ids : List UInt64) :
    Outcome (Status × List UInt64 × LogCollection) := do
  if sizes.any (fun size => c.chunkSize < size) then .ok (.SizeError, ids, c)
  else
    let (status, next) ← c.nextOffset
    if status ≠ .OK then .ok (status, ids, c)
    else
      let (status, assigned, c) ← appendLoop data sizes 0 next c []
      .ok (status, assigned ++ ids.drop assigned.length, c)

/-- The loop of `update` that creates `n` empty entries from `next_id` on. -/
def createEntries : ℕ → LogCollection → Outcome (Status × LogCollection)
  | 0, c => .ok (.OK, c)
  | n + 1, c => do
    let (status, c) ← c.writeEntryMetadata c.header.nextId
      ⟨c.header.lastChunkId, keyNotFound, keyNotFound, 0⟩
    if status ≠ .OK then .ok (status, c)
    else createEntries n { c with header := { c.header with nextId := c.header.nextId + 1 } }

/-- Add a document to `coll_size`, when `increment` says so. -/
def countDocument (c : LogCollection) (increment : Bool) : LogCollection :=
  if increment then { c with header := { c.header with collSize := c.header.collSize + 1 } } else c

/-- The part of `update` that writes a document in the space of its entry. -/
def overwrite (c : LogCollection) (entry : EntryMetadata) (doc : Bytes) :
    Outcome (Status × LogCollection) :=
  if doc.length ≠ 0 then do
    let c ← c.derefChunk entry.chunk
    c.writeChunk entry.chunk entry.offset doc
  else .ok (.OK, c)

/-- The part of `update` that writes the entry of such a document, if its size has changed. -/
def resizeEntry (c : LogCollection) (id : ℕ) (entry : EntryMetadata) (size : ℕ) :
    Outcome (Status × LogCollection) :=
  if entry.size ≠ size then c.writeEntryMetadata id { entry with size } else .ok (.OK, c)

/-- The first pass of `update`: documents that fit in the space of their entry are written there.
The entries are returned, as the second pass sees them. -/
def inPlacePass (data : Bytes) : List (UInt64 × ℕ) → ℕ → LogCollection → List EntryMetadata →
    Outcome (Status × List EntryMetadata × LogCollection)
  | [], _, c, entries => .ok (.OK, entries, c)
  | (id, size) :: docs, docOffset, c, entries => do
    let (status, entry) := c.readEntryMetadata id.toNat
    if status ≠ .OK then .ok (status, entries, c)
    else if entry.allocated < size then
      inPlacePass data docs (docOffset + size) c (entries ++ [entry])
    else
      let (status, c) ← c.overwrite entry (slice data docOffset size)
      if status ≠ .OK then .ok (status, entries, c)
      else
        let (status, c) ← c.resizeEntry id.toNat entry size
        if status ≠ .OK then .ok (status, entries, c)
        else
          inPlacePass data docs (docOffset + size) (c.countDocument (entry.size = keyNotFound))
            (entries ++ [{ entry with size }])

/-- The second pass of `update`: the other documents are appended. A status is returned only when
an entry cannot be written; other errors end the loop. -/
def appendPass (data : Bytes) : List ((UInt64 × ℕ) × EntryMetadata) → ℕ → ℕ → LogCollection →
    Outcome (Option Status × LogCollection)
  | [], _, _, c => .ok (none, c)
  | ((id, size), entry) :: docs, docOffset, nextOffset, c => do
    if size ≤ entry.allocated then appendPass data docs (docOffset + size) nextOffset c
    else
      let (status, offset, c) ← c.writeDocument nextOffset (slice data docOffset size)
      if status ≠ .OK then .ok (none, c)
      else
        let (status, c) ← c.writeEntryMetadata id.toNat ⟨c.header.lastChunkId, offset, size, size⟩
        if status ≠ .OK then .ok (some status, c)
        else
          appendPass data docs (docOffset + size) (offset + size)
            (c.countDocument (entry.size = keyNotFound))

/-- `flushEntryMetadata` for the entries up to `id`. -/
def flushEntries (c : LogCollection) (id : ℕ) : Status :=
  if c.metaSize < sizeofEntry + (id + 1) * sizeofEntry then .SizeError else .OK

/-- `update`, for as many sizes as ids. It starts with `ids[0]`. -/
def update (c : LogCollection) (ids : List UInt64) (data : Bytes) (sizes : List ℕ) :
    Outcome (Status × LogCollection) := do
  if sizes.any (fun size => c.chunkSize < size) then .ok (.SizeError, c)
  else if ids = [] then .error .outOfBounds
  else
    let maxId := (maxID ids).toNat
    let (status, c) ← c.createEntries (maxId + 1 - c.header.nextId)
    if status ≠ .OK then .ok (status, c)
    else
      let (status, entries, c) ← inPlacePass data (ids.zip sizes) 0 c []
      if status ≠ .OK then .ok (status, c)
      else
        let (status, next) ← c.nextOffset
        if status ≠ .OK then .ok (status, c)
        else
          let (status, c) ← appendPass data ((ids.zip sizes).zip entries) 0 next c
          .ok (status.getD (c.flushEntries maxId), c)

/-- `read`, into a buffer of `bufSize` bytes: the bytes it copies there. -/
def read (c : LogCollection) (id : UInt64) (bufSize : ℕ) :
    Outcome (Status × Bytes × LogCollection) := do
  if c.header.nextId ≤ id.toNat then .ok (.InvalidID, [], c)
  else
    let (status, entry) := c.readEntryMetadata id.toNat
    if status ≠ .OK then .ok (status, [], c)
    else if entry.size = keyNotFound then .ok (.NotFound, [], c)
    else if bufSize < entry.size then .ok (.SizeError, [], c)
    else
      let c ← c.derefChunk entry.chunk
      let (status, bytes) ← c.readChunk entry.chunk entry.offset entry.size
      .ok (status, bytes, c)

/-- `fetch`. -/
def fetch {υ : Type} (c : LogCollection) (id : UInt64)
    (cb : υ → UInt64 → Option Bytes → Status × υ) (u : υ) :
    Outcome (Status × υ × LogCollection) := do
  if c.header.nextId ≤ id.toNat then
    let r := cb u id none
    .ok (r.1, r.2, c)
  else
    let (status, entry) := c.readEntryMetadata id.toNat
    if status = .NotFound ∨ entry.size = keyNotFound then
      let r := cb u id none
      .ok (r.1, r.2, c)
    else
      let c ← c.derefChunk entry.chunk
      let (status, doc) ← c.readChunk entry.chunk entry.offset entry.size
      if status ≠ .OK then .ok (status, u, c)
      else
        let r := cb u id (some doc)
        .ok (r.1, r.2, c)

/-- `entrySize`, over the caller's `size`. -/
def entrySize (c : LogCollection) (id : UInt64) (size : ℕ) : Status × ℕ :=
  if c.header.nextId ≤ id.toNat then (.NotFound, size)
  else
    let (status, entry) := c.readEntryMetadata id.toNat
    if status ≠ .OK then (status, size) else (status, entry.size)

/-- `last_id`. -/
def lastId (c : LogCollection) : UInt64 := UInt64.ofNat c.header.nextId - 1

/-- `size`. -/
def size (c : LogCollection) : UInt64 := c.header.collSize

end LogCollection

end Yokan
