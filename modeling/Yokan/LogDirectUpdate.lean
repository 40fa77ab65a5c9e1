import Mathlib.Data.List.TakeWhile
import Yokan.DirectUpdate
import Yokan.LogIndex

/-!
# Yokan: direct updates of the `log` backend

`Collection::update` (`src/backends/log.cpp`), over the arrays of a request. It checks as many sizes
as there are ids, and takes each document from behind the one before it, modulo `2 ^ 64`. Documents
that fit in the space of their entry are read in a first pass and the others in a second one, so
that an update which ends early reads less than it is asked to write.

* `updateIn`: the update, over the arrays;
* `updateIn_eq`: for a request that covers its documents, it is the update of the model;
* `Spaced`: what any run, direct updates included, keeps of the space of a collection;
* `UpdateSpace.Fits`: which documents the two passes read;
* `updateIn_settles`: when the update stays in bounds;
* `DirectDatabase.updateInBounds_iff`: when `yk_doc_update_direct_ult` does, over both backends.
-/

namespace Yokan

open Buffer Transition LittleEndian

/-- The failures of the model as faults. -/
def Failure.fault : Failure → Fault
  | .nullChunk => .nullChunk
  | .emptyCache => .emptyCache
  | .outOfBounds => .chunk
  | .fileTooLarge => .fileTooLarge

/-- A program of the model. -/
def Outcome.checked {α : Type} (x : Outcome α) : Checked α := x.mapError Failure.fault

namespace LogCollection

/-! ### `update`, over the arrays of a request -/

/-- `chunk->write` of a document, from an offset of `documents` on. -/
def writeChunkIn (c : LogCollection) (chunkId offset : ℕ) (documents : Bytes)
    (docOffset size : ℕ) : Checked (Status × LogCollection) :=
  if c.header.chunkSize < addSize offset size then .ok (.SizeError, c)
  else if documents.length < docOffset + size then .error .documents
  else if 2 ^ 64 ≤ offset + size then .error .chunk
  else .ok (.OK, c.blitChunk chunkId offset (slice documents docOffset size))

/-- `overwrite`, from `documents`. -/
def overwriteIn (c : LogCollection) (entry : EntryMetadata) (documents : Bytes)
    (docOffset size : ℕ) : Checked (Status × LogCollection) :=
  if size ≠ 0 then do
    let c ← (c.derefChunk entry.chunk).checked
    c.writeChunkIn entry.chunk entry.offset documents docOffset size
  else .ok (.OK, c)

/-- `writeDocument`, from `documents`. -/
def writeDocumentIn (c : LogCollection) (nextOffset : ℕ) (documents : Bytes)
    (docOffset size : ℕ) : Checked (Status × ℕ × LogCollection) := do
  let (nextOffset, c) ← (c.makeSpace nextOffset size).checked
  let (status, c) ← c.writeChunkIn c.header.lastChunkId nextOffset documents docOffset size
  if status ≠ .OK then .ok (status, nextOffset, c)
  else
    let (status, c) ←
      (c.writeChunk c.header.lastChunkId 0 (encode 8 (nextOffset + size))).checked
    .ok (status, nextOffset, c)

/-- The loop that checks the first `count` sizes. The update is refused if one of them is larger
than a chunk. -/
def refuses (chunkSize : ℕ) : ℕ → List ℕ → Checked Bool
  | 0, _ => .ok false
  | _ + 1, [] => .error .sizes
  | count + 1, size :: sizes =>
    if chunkSize < size then .ok true else refuses chunkSize count sizes

/-- `inPlacePass`, from `documents`. -/
def inPlacePassIn (documents : Bytes) : List (UInt64 × ℕ) → ℕ → LogCollection →
    List EntryMetadata → Checked (Status × List EntryMetadata × LogCollection)
  | [], _, c, entries => .ok (.OK, entries, c)
  | (id, size) :: docs, docOffset, c, entries => do
    let (status, entry) := c.readEntryMetadata id.toNat
    if status ≠ .OK then .ok (status, entries, c)
    else if entry.allocated < size then
      inPlacePassIn documents docs (addSize docOffset size) c (entries ++ [entry])
    else
      let (status, c) ← c.overwriteIn entry documents docOffset size
      if status ≠ .OK then .ok (status, entries, c)
      else
        let (status, c) ← (c.resizeEntry id.toNat entry size).checked
        if status ≠ .OK then .ok (status, entries, c)
        else
          inPlacePassIn documents docs (addSize docOffset size)
            (c.countDocument (entry.size = keyNotFound)) (entries ++ [{ entry with size }])

/-- `appendPass`, from `documents`. -/
def appendPassIn (documents : Bytes) : List ((UInt64 × ℕ) × EntryMetadata) → ℕ → ℕ →
    LogCollection → Checked (Option Status × LogCollection)
  | [], _, _, c => .ok (none, c)
  | ((id, size), entry) :: docs, docOffset, nextOffset, c => do
    if size ≤ entry.allocated then
      appendPassIn documents docs (addSize docOffset size) nextOffset c
    else
      let (status, offset, c) ← c.writeDocumentIn nextOffset documents docOffset size
      if status ≠ .OK then .ok (none, c)
      else
        let (status, c) ←
          (c.writeEntryMetadata id.toNat ⟨c.header.lastChunkId, offset, size, size⟩).checked
        if status ≠ .OK then .ok (some status, c)
        else
          appendPassIn documents docs (addSize docOffset size) (offset + size)
            (c.countDocument (entry.size = keyNotFound))

/-- `update`. It goes through as many sizes as there are ids, and starts with `ids[0]`. -/
def updateIn (c : LogCollection) (ids : List UInt64) (documents : Bytes) (sizes : List ℕ) :
    Checked (Status × LogCollection) := do
  let refused ← refuses c.chunkSize ids.length sizes
  if refused then .ok (.SizeError, c)
  else if ids = [] then .error .ids
  else
    let maxId := (maxID ids).toNat
    let (status, c) ← (c.createEntries (maxId + 1 - c.header.nextId)).checked
    if status ≠ .OK then .ok (status, c)
    else
      let (status, entries, c) ← inPlacePassIn documents (ids.zip sizes) 0 c []
      if status ≠ .OK then .ok (status, c)
      else
        let (status, next) ← c.nextOffset.checked
        if status ≠ .OK then .ok (status, c)
        else
          let (status, c) ← appendPassIn documents ((ids.zip sizes).zip entries) 0 next c
          .ok (status.getD (c.flushEntries maxId), c)

end LogCollection

namespace LogDatabase

/-- `supportsMode`. -/
def supportsMode (mode : Mode) : Bool :=
  mode == mode &&& (Mode.inclusive ||| Mode.consume ||| Mode.wait ||| Mode.luaFilter |||
    Mode.ignoreDocs ||| Mode.filterValue ||| Mode.libFilter ||| Mode.noRdma ||| Mode.updateNew)

/-- `docUpdate`, over the arrays of a request. -/
def docUpdateIn (s : LogDatabase) (name : CString) (mode : Mode) (ids : List UInt64)
    (documents : Bytes) (sizes : List ℕ) : Checked (Status × LogDatabase) :=
  match s.collections name with
  | none => .ok (.NotFound, s)
  | some c =>
    if mode.has .updateNew = false ∧ ids.any (fun id => c.lastId < id) then .ok (.InvalidID, s)
    else do
      let (status, c) ← c.updateIn ids documents sizes
      .ok (status, s.put name c)

end LogDatabase

/-! ### The update of the model -/

namespace LogCollection

variable {c c' : LogCollection} {documents : Bytes} {docOffset size : ℕ}

theorem writeChunkIn_eq (h : docOffset + size ≤ documents.length) (chunkId offset : ℕ) :
    c.writeChunkIn chunkId offset documents docOffset size =
      (c.writeChunk chunkId offset (slice documents docOffset size)).checked := by
  unfold writeChunkIn writeChunk
  rw [length_slice_of_le h, if_neg (Nat.not_lt.2 h)]
  split_ifs <;> rfl

theorem overwriteIn_eq (h : docOffset + size ≤ documents.length) (e : EntryMetadata) :
    c.overwriteIn e documents docOffset size =
      (c.overwrite e (slice documents docOffset size)).checked := by
  unfold overwriteIn overwrite
  rw [length_slice_of_le h]
  split_ifs
  · cases c.derefChunk e.chunk with
    | error err => rfl
    | ok c₁ => exact writeChunkIn_eq h _ _
  · rfl

theorem writeDocumentIn_eq (h : docOffset + size ≤ documents.length) (nextOffset : ℕ) :
    c.writeDocumentIn nextOffset documents docOffset size =
      (c.writeDocument nextOffset (slice documents docOffset size)).checked := by
  unfold writeDocumentIn writeDocument
  rw [length_slice_of_le h]
  cases c.makeSpace nextOffset size with
  | error err => rfl
  | ok start =>
    -- the two writes, wherever the document starts
    obtain ⟨offset, b⟩ := start
    show (b.writeChunkIn b.header.lastChunkId offset documents docOffset size >>= _) =
      Outcome.checked (b.writeChunk b.header.lastChunkId offset (slice documents docOffset size) >>= _)
    rw [writeChunkIn_eq h]
    cases b.writeChunk b.header.lastChunkId offset (slice documents docOffset size) with
    | error e => rfl
    | ok r =>
      obtain ⟨status, b₁⟩ := r
      simp only [Outcome.checked, Except.mapError, bind, Except.bind]
      split_ifs
      · rfl
      · cases b₁.writeChunk b₁.header.lastChunkId 0 (encode 8 (offset + size)) <;> rfl

theorem refuses_eq (chunkSize : ℕ) (sizes : List ℕ) :
    refuses chunkSize sizes.length sizes =
      .ok (sizes.any fun size => chunkSize < size) := by
  induction sizes with
  | nil => rfl
  | cons size sizes ih =>
    rw [List.length_cons, refuses, List.any_cons, ih]
    split_ifs with hlarge
    · rw [decide_eq_true hlarge, Bool.true_or]
    · rw [decide_eq_false hlarge, Bool.false_or]

theorem inPlacePassIn_eq {docs : List (UInt64 × ℕ)} (es : List EntryMetadata)
    (h : docOffset + (docs.map Prod.snd).sum ≤ documents.length)
    (hlt : documents.length < 2 ^ 64) :
    inPlacePassIn documents docs docOffset c es =
      (inPlacePass documents docs docOffset c es).checked := by
  induction docs generalizing c docOffset es with
  | nil => rfl
  | cons p docs ih =>
    obtain ⟨id, size⟩ := p
    rw [List.map_cons, List.sum_cons] at h
    dsimp only at h
    have hadd : addSize docOffset size = docOffset + size := addSize_eq (by omega)
    have hrest : docOffset + size + (docs.map Prod.snd).sum ≤ documents.length := by omega
    unfold inPlacePassIn inPlacePass
    rcases c.readEntryMetadata id.toNat with ⟨status, entry⟩
    dsimp only
    rw [hadd, overwriteIn_eq (by omega)]
    split_ifs
    · rfl
    · exact ih _ hrest
    · cases c.overwrite entry (slice documents docOffset size) with
      | error e => rfl
      | ok r =>
        obtain ⟨status₁, c₁⟩ := r
        simp only [Outcome.checked, Except.mapError, bind, Except.bind]
        split_ifs
        · rfl
        · cases c₁.resizeEntry id.toNat entry size with
          | error e => rfl
          | ok r =>
            obtain ⟨status₂, c₂⟩ := r
            dsimp only
            split_ifs
            · rfl
            · exact ih _ hrest

theorem appendPassIn_eq {docs : List ((UInt64 × ℕ) × EntryMetadata)} {nextOffset : ℕ}
    (h : docOffset + (docs.map fun p => p.1.2).sum ≤ documents.length)
    (hlt : documents.length < 2 ^ 64) :
    appendPassIn documents docs docOffset nextOffset c =
      (appendPass documents docs docOffset nextOffset c).checked := by
  induction docs generalizing c docOffset nextOffset with
  | nil => rfl
  | cons p docs ih =>
    obtain ⟨⟨id, size⟩, entry⟩ := p
    rw [List.map_cons, List.sum_cons] at h
    dsimp only at h
    have hadd : addSize docOffset size = docOffset + size := addSize_eq (by omega)
    have hrest : docOffset + size + (docs.map fun p => p.1.2).sum ≤ documents.length := by omega
    unfold appendPassIn appendPass
    rw [hadd, writeDocumentIn_eq (by omega)]
    split_ifs
    · exact ih hrest
    · cases c.writeDocument nextOffset (slice documents docOffset size) with
      | error e => rfl
      | ok r =>
        obtain ⟨status, offset, c₁⟩ := r
        simp only [Outcome.checked, Except.mapError, bind, Except.bind]
        split_ifs
        · rfl
        · cases c₁.writeEntryMetadata id.toNat ⟨c₁.header.lastChunkId, offset, size, size⟩ with
          | error e => rfl
          | ok r =>
            obtain ⟨status₁, c₂⟩ := r
            dsimp only
            split_ifs
            · rfl
            · exact ih hrest

theorem sum_zip_le (docs : List (UInt64 × ℕ)) (es : List EntryMetadata) :
    ((docs.zip es).map fun p => p.1.2).sum ≤ (docs.map Prod.snd).sum := by
  induction docs generalizing es with
  | nil => exact Nat.zero_le _
  | cons p docs ih =>
    cases es with
    | nil => exact Nat.zero_le _
    | cons e es =>
      rw [List.zip_cons_cons, List.map_cons, List.sum_cons, List.map_cons, List.sum_cons]
      exact Nat.add_le_add_left (ih es) _

/-- With a size for each id and the documents that the sizes speak of, the update is the one of the
model. -/
theorem updateIn_eq {ids : List UInt64} {sizes : List ℕ} (hids : ids ≠ [])
    (hlen : ids.length = sizes.length) (hsum : sizes.sum ≤ documents.length)
    (hlt : documents.length < 2 ^ 64) :
    c.updateIn ids documents sizes = (c.update ids documents sizes).checked := by
  have hsnd : (ids.zip sizes).map Prod.snd = sizes := List.map_snd_zip hlen.ge
  have hdocs : 0 + ((ids.zip sizes).map Prod.snd).sum ≤ documents.length := by
    rw [hsnd, Nat.zero_add]
    exact hsum
  unfold updateIn update
  rw [hlen, refuses_eq]
  dsimp only [bind, Except.bind]
  split_ifs
  · rfl
  · cases c.createEntries ((maxID ids).toNat + 1 - c.header.nextId) with
    | error e => rfl
    | ok r =>
      obtain ⟨status, c₁⟩ := r
      simp only [Outcome.checked, Except.mapError]
      split_ifs
      · rfl
      · rw [inPlacePassIn_eq [] hdocs hlt]
        cases hpass : inPlacePass documents (ids.zip sizes) 0 c₁ [] with
        | error e => rfl
        | ok r =>
          obtain ⟨status₁, es, c₂⟩ := r
          simp only [Outcome.checked, Except.mapError]
          split_ifs
          · rfl
          · cases c₂.nextOffset with
            | error e => rfl
            | ok r =>
              obtain ⟨status₂, next⟩ := r
              dsimp only
              split_ifs
              · rfl
              · rw [appendPassIn_eq ((Nat.add_le_add_left (sum_zip_le _ es) 0).trans hdocs) hlt]
                cases appendPass documents ((ids.zip sizes).zip es) 0 next c₂ <;> rfl

/-! ### The space of a collection -/

theorem entry_end (id : ℕ) : sizeofEntry + id * sizeofEntry + sizeofEntry = 32 * id + 64 := by
  rw [show sizeofEntry = 32 from rfl]
  omega

/-- The space of an entry has been given up, or it lies in a chunk. -/
def Roomy (c : LogCollection) (e : EntryMetadata) : Prop :=
  e.allocated + 8 ≤ c.chunkSize ∧
    (e.chunk = keyNotFound ∧ e.offset = keyNotFound ∨
      e.chunk ≤ c.header.lastChunkId ∧ 8 ≤ e.offset ∧ e.offset + e.allocated ≤ c.chunkSize)

/-- The files of a collection, and the space of its entries. The entries need not lie in the
mapping: it is a new one when the collection has been opened again. -/
structure Spaced (c : LogCollection) : Prop where
  header_chunkSize : c.header.chunkSize = c.chunkSize
  chunkSize_lt : c.chunkSize < 2 ^ 63
  nextId_lt : c.header.nextId < 2 ^ 57
  metaSize_eq : ∃ k ≤ 62, c.metaSize = 2 ^ k
  chunked : 8 ≤ c.chunkSize → Chunked c
  roomy : ∀ id < c.header.nextId, (c.entries id).allocated ≠ 0 → c.Roomy (c.entries id)

theorem spaced_ofFiles {chunkSize : ℕ} (cacheSize : UInt64) (hlt : chunkSize < 2 ^ 63) :
    Spaced (ofFiles chunkSize cacheSize {}) where
  header_chunkSize := rfl
  chunkSize_lt := hlt
  nextId_lt := show 0 < 2 ^ 57 by decide
  metaSize_eq := ⟨18, by decide, rfl⟩
  chunked hge := (represents_ofFiles cacheSize hge hlt).chunked
  roomy _ hid := absurd hid (Nat.not_lt_zero _)

/-- The space of an entry stays where it is when there are more chunks. -/
theorem Roomy.mono {e : EntryMetadata} (h : c.Roomy e) (hsize : c'.chunkSize = c.chunkSize)
    (hlast : c.header.lastChunkId ≤ c'.header.lastChunkId) : c'.Roomy e := by
  unfold Roomy
  rw [hsize]
  exact ⟨h.1, h.2.imp_right fun hplace => ⟨hplace.1.trans hlast, hplace.2⟩⟩

/-- The chunks do not depend on the entries. -/
theorem Chunked.of_chunks (h : Chunked c) (hchunks : c'.chunks = c.chunks)
    (hlast : c'.header.lastChunkId = c.header.lastChunkId)
    (hheader : c'.header.chunkSize = c.header.chunkSize) (hsize : c'.chunkSize = c.chunkSize) :
    Chunked c' := by
  have hused : c'.used = c.used := by
    unfold used
    rw [hchunks, hlast]
  refine ⟨?_, ?_, ?_, ?_, ?_, ?_, ?_⟩
  · rw [hsize]
    exact h.chunkSize_ge
  · rw [hsize]
    exact h.chunkSize_lt
  · rw [hheader, hsize]
    exact h.header_chunkSize
  · rw [hchunks, hlast, hsize]
    exact h.length_chunk
  · rw [hchunks, hlast]
    exact h.chunk_nil
  · rw [hused]
    exact h.used_ge
  · rw [hused, hsize]
    exact h.used_le

namespace Spaced

theorem withChunk (h : Spaced c) (hge : 8 ≤ c.chunkSize) : Spaced c.withChunk where
  header_chunkSize := h.header_chunkSize
  chunkSize_lt := h.chunkSize_lt
  nextId_lt := h.nextId_lt
  metaSize_eq := h.metaSize_eq
  chunked _ := (chunked_withChunk (h.chunked hge)).1
  roomy id hid hne := (h.roomy id hid hne).mono rfl (Nat.le_succ _)

theorem wrote (h : Spaced c) {offset : ℕ} {doc : Bytes} (hw : Wrote c c' offset doc) :
    Spaced c' where
  header_chunkSize := hw.chunked.header_chunkSize
  chunkSize_lt := hw.chunked.chunkSize_lt
  nextId_lt := by
    rw [hw.nextId_eq]
    exact h.nextId_lt
  metaSize_eq := by
    rw [hw.metaSize_eq]
    exact h.metaSize_eq
  chunked _ := hw.chunked
  roomy id hid hne := by
    rw [hw.nextId_eq] at hid
    rw [hw.entries_eq] at hne ⊢
    exact (h.roomy id hid hne).mono hw.chunkSize_eq hw.lastChunkId_le

/-- A document is written in the space of an entry. -/
theorem blit (h : Spaced c) (hge : 8 ≤ c.chunkSize) {k offset : ℕ} {bytes : Bytes}
    (hk : k ≤ c.header.lastChunkId) (hoffset : 8 ≤ offset)
    (hfit : offset + bytes.length ≤ c.chunkSize) : Spaced (c.blitChunk k offset bytes) where
  header_chunkSize := h.header_chunkSize
  chunkSize_lt := h.chunkSize_lt
  nextId_lt := h.nextId_lt
  metaSize_eq := h.metaSize_eq
  chunked _ := (chunked_blitChunk (h.chunked hge) hk hoffset hfit).1
  roomy id hid hne := (h.roomy id hid hne).mono rfl le_rfl

/-- An entry is written, at most one past the end, in any mapping. -/
theorem withEntry (h : Spaced c) {id metaSize : ℕ} (hid : id ≤ c.header.nextId)
    (hlt : id + 1 < 2 ^ 57) {e : EntryMetadata} (he : e.allocated ≠ 0 → c.Roomy e)
    (hsize : ∃ k ≤ 62, metaSize = 2 ^ k) (collSize : UInt64) :
    Spaced (c.withEntry id e metaSize (max c.header.nextId (id + 1)) collSize) where
  header_chunkSize := h.header_chunkSize
  chunkSize_lt := h.chunkSize_lt
  nextId_lt := max_lt h.nextId_lt hlt
  metaSize_eq := hsize
  chunked hge := (h.chunked hge).of_chunks rfl rfl rfl rfl
  roomy id' hid' hne := by
    have hid' : id' < max c.header.nextId (id + 1) := hid'
    have hne : (Function.update c.entries id e id').allocated ≠ 0 := hne
    show c.Roomy (Function.update c.entries id e id')
    by_cases heq : id' = id
    · rw [heq, Function.update_self] at hne ⊢
      exact he hne
    · rw [Function.update_of_ne heq] at hne ⊢
      exact h.roomy id' (by omega) hne

/-- The entry of an id that exists is replaced. -/
theorem withEntry_of_lt (h : Spaced c) {id : ℕ} (hid : id < c.header.nextId) {e : EntryMetadata}
    (he : e.allocated ≠ 0 → c.Roomy e) (collSize : UInt64) :
    Spaced (c.withEntry id e c.metaSize c.header.nextId collSize) := by
  have hentry := h.withEntry hid.le (lt_of_le_of_lt hid h.nextId_lt) he h.metaSize_eq collSize
  rwa [max_eq_left hid] at hentry

/-- The file of the entries has been mapped anew. -/
theorem withMetaSize (h : Spaced c) {metaSize : ℕ} (hsize : ∃ k ≤ 62, metaSize = 2 ^ k)
    (cacheSize : UInt64) : Spaced { c with metaSize, cacheSize } where
  header_chunkSize := h.header_chunkSize
  chunkSize_lt := h.chunkSize_lt
  nextId_lt := h.nextId_lt
  metaSize_eq := hsize
  chunked hge := (h.chunked hge).of_chunks rfl rfl rfl rfl
  roomy := h.roomy

/-- The last chunk is mapped again. -/
theorem mapChunk (h : Spaced c) : Spaced (c.mapChunk c.header.lastChunkId) where
  header_chunkSize := h.header_chunkSize
  chunkSize_lt := h.chunkSize_lt
  nextId_lt := h.nextId_lt
  metaSize_eq := h.metaSize_eq
  chunked hge := by
    have hc := h.chunked hge
    have hsame : c.mapChunk c.header.lastChunkId = c := by
      unfold LogCollection.mapChunk
      rw [mapFile_of_length (by rw [hc.length_chunk _ le_rfl, hc.header_chunkSize]),
        Function.update_eq_self]
    rw [hsame]
    exact hc
  roomy id hid hne := (h.roomy id hid hne).mono rfl le_rfl

/-- The collection is opened again, maybe with another size of its cache. -/
theorem reopen (h : Spaced c) (cacheSize : UInt64) :
    Spaced (ofFiles c.chunkSize cacheSize c.toCollectionFiles) := by
  have hheader : { c.header with chunkSize := c.chunkSize } = c.header := by
    rw [← h.header_chunkSize]
  have hmap : ofFiles c.chunkSize cacheSize c.toCollectionFiles =
      LogCollection.mapChunk { c with metaSize := 8 * 8 * 4096, cacheSize } c.header.lastChunkId := by
    unfold ofFiles getChunkFromID
    dsimp only
    rw [if_pos rfl, hheader]
    rfl
  rw [hmap]
  exact (h.withMetaSize ⟨18, by decide, rfl⟩ cacheSize).mapChunk

theorem metaSize_le (h : Spaced c) : c.metaSize ≤ 2 ^ 62 := by
  obtain ⟨k, hk, hmeta⟩ := h.metaSize_eq
  rw [hmeta]
  exact Nat.pow_le_pow_right (by decide) hk

/-- The file of the entries can become `2 ^ 62` bytes large. -/
theorem metaSizeFor_eq (h : Spaced c) {id : ℕ}
    (hbound : c.metaSizeFor id = c.metaSize ∨ c.metaSizeFor id < 2 ^ 63) :
    ∃ k ≤ 62, c.metaSizeFor id = 2 ^ k := by
  obtain ⟨k, hk, hmeta⟩ := h.metaSize_eq
  rcases hbound with hsame | hlt
  · exact ⟨k, hk, hsame.trans hmeta⟩
  · unfold metaSizeFor at hlt ⊢
    split_ifs at hlt ⊢
    · rw [hmeta, ← Nat.pow_succ', Nat.pow_lt_pow_iff_right (by decide)] at hlt
      exact ⟨k + 1, Nat.le_of_lt_succ hlt, by rw [hmeta, Nat.pow_succ']⟩
    · exact ⟨k, hk, hmeta⟩

/-- The entries in a mapping are fewer than `2 ^ 57`. -/
theorem lt_of_room (h : Spaced c) {id : ℕ}
    (hbound : c.metaSizeFor id = c.metaSize ∨ c.metaSizeFor id < 2 ^ 63)
    (hroom : sizeofEntry + id * sizeofEntry + sizeofEntry ≤ c.metaSizeFor id) :
    id + 1 < 2 ^ 57 := by
  obtain ⟨k, hk, hmeta⟩ := h.metaSizeFor_eq hbound
  have hpow : (2 : ℕ) ^ k ≤ 2 ^ 62 := Nat.pow_le_pow_right (by decide) hk
  rw [entry_end, hmeta] at hroom
  omega

end Spaced

/-! ### The entries of an update -/

/-- The entry of an id lies in the mapping. -/
def mapped (c : LogCollection) (id : ℕ) : Bool :=
  sizeofEntry + id * sizeofEntry + sizeofEntry ≤ c.metaSize

/-- The entry has the space of a document that has been erased. -/
def vacated (c : LogCollection) (id : ℕ) : Bool :=
  c.allocatedFor id ≠ 0 ∧ (c.entries id).offset = keyNotFound

/-- The entry has space in a chunk that the cache would have to make room for. -/
def unreached (c : LogCollection) (id : ℕ) : Bool :=
  c.allocatedFor id ≠ 0 ∧ (c.entries id).chunk < c.header.lastChunkId ∧ ¬ c.HasRoom

/-- `n` entries can be created: the first one after the mapping has grown once, and the file does
not become too large for the last one. -/
def CanCreate (c : LogCollection) (n : ℕ) : Prop :=
  n = 0 ∨ sizeofEntry + c.header.nextId * sizeofEntry + sizeofEntry ≤ 2 * c.metaSize ∧
    c.header.nextId + n < 2 ^ 57

/-- Two collections whose entries have the same space, in the same files. -/
structure SameSpace (c c' : LogCollection) : Prop where
  chunkSize_eq : c'.chunkSize = c.chunkSize
  lastChunkId_eq : c'.header.lastChunkId = c.header.lastChunkId
  allocatedFor_eq : c'.allocatedFor = c.allocatedFor
  vacated_eq : c'.vacated = c.vacated
  unreached_eq : c'.unreached = c.unreached

theorem SameSpace.rfl : SameSpace c c := ⟨Eq.refl _, Eq.refl _, Eq.refl _, Eq.refl _, Eq.refl _⟩

theorem SameSpace.trans {c₁ c₂ c₃ : LogCollection} (h : SameSpace c₁ c₂) (h' : SameSpace c₂ c₃) :
    SameSpace c₁ c₃ :=
  ⟨h'.chunkSize_eq.trans h.chunkSize_eq, h'.lastChunkId_eq.trans h.lastChunkId_eq,
    h'.allocatedFor_eq.trans h.allocatedFor_eq, h'.vacated_eq.trans h.vacated_eq,
    h'.unreached_eq.trans h.unreached_eq⟩

/-- A new entry has no space. -/
theorem sameSpace_hole {e : EntryMetadata} (he : e.allocated = 0) (metaSize : ℕ)
    (collSize : UInt64) : SameSpace c
      (c.withEntry c.header.nextId e metaSize (c.header.nextId + 1) collSize) := by
  have hnone : c.allocatedFor c.header.nextId = 0 := if_neg (lt_irrefl _)
  have hother : ∀ id ≠ c.header.nextId,
      (c.withEntry c.header.nextId e metaSize (c.header.nextId + 1) collSize).entries id =
        c.entries id := fun id hid => Function.update_of_ne hid _ _
  refine ⟨rfl, rfl, allocatedFor_hole he metaSize collSize, ?_, ?_⟩
  · funext id
    unfold vacated
    rw [allocatedFor_hole he]
    by_cases hid : id = c.header.nextId
    · subst hid
      rw [hnone]
      simp
    · rw [hother id hid]
  · funext id
    unfold unreached
    rw [allocatedFor_hole he]
    by_cases hid : id = c.header.nextId
    · subst hid
      rw [hnone]
      simp
    · rw [hother id hid]
      rfl

/-- An entry with another size has the same space. -/
theorem sameSpace_resize (id size metaSize : ℕ) (collSize : UInt64) :
    SameSpace c
      (c.withEntry id { c.entries id with size } metaSize c.header.nextId collSize) := by
  have hsame : ∀ id', (Function.update c.entries id { c.entries id with size } id').allocated =
      (c.entries id').allocated ∧
        (Function.update c.entries id { c.entries id with size } id').offset =
          (c.entries id').offset ∧
        (Function.update c.entries id { c.entries id with size } id').chunk =
          (c.entries id').chunk := by
    intro id'
    by_cases heq : id' = id
    · subst heq
      rw [Function.update_self]
      exact ⟨rfl, rfl, rfl⟩
    · rw [Function.update_of_ne heq]
      exact ⟨rfl, rfl, rfl⟩
  have halloc : (c.withEntry id { c.entries id with size } metaSize c.header.nextId
      collSize).allocatedFor = c.allocatedFor := by
    funext id'
    exact if_congr Iff.rfl (hsame id').1 rfl
  refine ⟨rfl, rfl, halloc, ?_, ?_⟩
  · funext id'
    unfold vacated
    rw [halloc, show (c.withEntry id { c.entries id with size } metaSize c.header.nextId
      collSize).entries id' = Function.update c.entries id { c.entries id with size } id' from rfl,
      (hsame id').2.1]
  · funext id'
    unfold unreached
    rw [halloc, show (c.withEntry id { c.entries id with size } metaSize c.header.nextId
      collSize).entries id' = Function.update c.entries id { c.entries id with size } id' from rfl,
      (hsame id').2.2]
    rfl

/-- The entries that an update needs are created, or it ends. -/
theorem createEntries_spaced {n : ℕ} (h : Spaced c) :
    Ensures (fun err => err = .fileTooLarge ∧ ¬ c.CanCreate n) (createEntries n c) (fun r =>
      Spaced r.2 ∧ r.2.chunkSize = c.chunkSize ∧ (r.1 = .OK ↔ c.CanCreate n) ∧
        (r.1 = .OK → SameSpace c r.2 ∧ r.2.header.nextId = c.header.nextId + n ∧
          ∀ id < c.header.nextId + n, r.2.mapped id = true ↔ n ≠ 0 ∨ c.mapped id = true)) := by
  induction n generalizing c with
  | zero =>
    exact ⟨h, rfl, iff_of_true rfl (Or.inl rfl), fun _ =>
      ⟨SameSpace.rfl, rfl, fun id _ => (or_iff_right (not_not.2 rfl)).symm⟩⟩
  | succ n ih =>
    have hle := h.metaSize_le
    have hmax : max c.header.nextId (c.header.nextId + 1) = c.header.nextId + 1 :=
      max_eq_right (Nat.le_succ _)
    have hsize : c.metaSizeFor c.header.nextId ≤ 2 * c.metaSize := by
      unfold metaSizeFor
      split_ifs <;> omega
    unfold createEntries
    have hwrite := c.writeEntryMetadata_cases c.header.nextId
      ⟨c.header.lastChunkId, keyNotFound, keyNotFound, 0⟩
    cases hr : c.writeEntryMetadata c.header.nextId
        ⟨c.header.lastChunkId, keyNotFound, keyNotFound, 0⟩ with
    | error err =>
      rw [hr] at hwrite
      obtain ⟨rfl, hlarge⟩ := hwrite
      refine ⟨rfl, ?_⟩
      unfold metaSizeFor at hlarge
      unfold CanCreate
      rw [entry_end] at hlarge ⊢
      split_ifs at hlarge <;> omega
    | ok r =>
      rw [hr] at hwrite
      obtain ⟨hbound, rfl⟩ := hwrite
      have hpow := h.metaSizeFor_eq hbound
      by_cases hshort : c.metaSizeFor c.header.nextId <
          sizeofEntry + c.header.nextId * sizeofEntry + sizeofEntry
      · -- the mapping has grown, but not far enough
        have hnot : ¬ c.CanCreate (n + 1) := by
          unfold metaSizeFor at hshort
          unfold CanCreate
          split_ifs at hshort <;> omega
        rw [if_pos hshort]
        exact ⟨h.withMetaSize hpow c.cacheSize, rfl, iff_of_false (fun hok => by cases hok) hnot,
          fun hok => by cases hok⟩
      · rw [if_neg hshort]
        have hlt := h.lt_of_room hbound (Nat.not_lt.1 hshort)
        rw [entry_end] at hshort
        have hnew := h.withEntry le_rfl hlt
          (e := ⟨c.header.lastChunkId, keyNotFound, keyNotFound, 0⟩) (absurd rfl) hpow
          c.header.collSize
        rw [hmax] at hnew
        have hspace := sameSpace_hole (c := c)
          (e := ⟨c.header.lastChunkId, keyNotFound, keyNotFound, 0⟩) rfl
          (c.metaSizeFor c.header.nextId) c.header.collSize
        -- the rest, in a mapping that holds the entry
        have hcan : CanCreate (c.withEntry c.header.nextId
            ⟨c.header.lastChunkId, keyNotFound, keyNotFound, 0⟩ (c.metaSizeFor c.header.nextId)
            (c.header.nextId + 1) c.header.collSize) n ↔ c.CanCreate (n + 1) := by
          show n = 0 ∨ sizeofEntry + (c.header.nextId + 1) * sizeofEntry + sizeofEntry ≤
            2 * c.metaSizeFor c.header.nextId ∧ c.header.nextId + 1 + n < 2 ^ 57 ↔ _
          unfold CanCreate
          rw [entry_end, entry_end]
          omega
        have hnext : c.header.nextId + 1 + n = c.header.nextId + (n + 1) := by omega
        refine Ensures.mono (Ensures.allow (ih hnew) ?_) ?_
        · rintro err ⟨rfl, hnot⟩
          exact ⟨rfl, fun hcreate => hnot (hcan.2 hcreate)⟩
        · rintro r ⟨hspaced, hchunkSize, hok, hkept⟩
          refine ⟨hspaced, hchunkSize, hok.trans hcan, fun hstatus => ?_⟩
          obtain ⟨hsame, hnextId, hmapped⟩ := hkept hstatus
          refine ⟨hspace.trans hsame, hnextId.trans hnext, fun id hid => ?_⟩
          refine (hmapped id (by rw [← hnext] at hid; exact hid)).trans ?_
          refine iff_of_true ?_ (Or.inl (Nat.succ_ne_zero n))
          refine Classical.or_iff_not_imp_left.2 fun hzero => decide_eq_true ?_
          show sizeofEntry + id * sizeofEntry + sizeofEntry ≤ c.metaSizeFor c.header.nextId
          rw [entry_end]
          omega

/-! ### The documents that an update reads -/

end LogCollection

/-- The documents of an update, with the part of `documents` that each of them is taken from. -/
def placedFrom : ℕ → List (UInt64 × ℕ) → List (UInt64 × Region)
  | _, [] => []
  | docOffset, (id, size) :: docs =>
    (id, ⟨docOffset, size⟩) :: placedFrom (addSize docOffset size) docs

theorem map_placedFrom {α : Type} (f : UInt64 → α) (docOffset : ℕ) (docs : List (UInt64 × ℕ)) :
    (placedFrom docOffset docs).map (fun p => f p.1) = docs.map fun p => f p.1 := by
  induction docs generalizing docOffset with
  | nil => rfl
  | cons p docs ih =>
    rw [placedFrom, List.map_cons, List.map_cons, ih]

/-- What an update finds of the space of the entries. -/
structure UpdateSpace where
  chunkSize : ℕ
  lastChunkId : ℕ
  mapped : ℕ → Bool
  allocated : ℕ → ℕ
  vacated : ℕ → Bool
  unreached : ℕ → Bool

namespace UpdateSpace

/-- The document is written in the space of its entry. -/
def reuses (u : UpdateSpace) (p : UInt64 × Region) : Bool :=
  0 < p.2.size ∧ p.2.size ≤ u.allocated p.1.toNat

/-- The update ends at the document: its entry does not lie in the mapping or has been erased, or
the cache has no room for its chunk. -/
def stops (u : UpdateSpace) (p : UInt64 × Region) : Bool :=
  u.mapped p.1.toNat = false ∨
    u.reuses p = true ∧ (u.vacated p.1.toNat = true ∨ u.unreached p.1.toNat = true)

/-- The documents that are written in the space of their entries. -/
def overwritten (u : UpdateSpace) (docs : List (UInt64 × Region)) : List (UInt64 × Region) :=
  (docs.takeWhile fun p => !u.stops p).filter u.reuses

/-- The document does not fit in the space of its entry. -/
def outgrows (u : UpdateSpace) (p : UInt64 × Region) : Bool := u.allocated p.1.toNat < p.2.size

/-- The documents that are written behind the others. -/
def moved (u : UpdateSpace) (docs : List (UInt64 × Region)) : List (UInt64 × Region) :=
  (docs.filter u.outgrows).takeWhile fun p => p.2.size + 8 ≤ u.chunkSize

/-- The first pass is in bounds of `size` bytes of documents. At an entry that has been erased it
looks for the chunk `YOKAN_KEY_NOT_FOUND`, which must not be there, unless the cache fails. -/
structure Overwrites (u : UpdateSpace) (size : ℕ) (docs : List (UInt64 × Region)) : Prop where
  within : ∀ p ∈ u.overwritten docs, p.2.Within size
  noChunk : ∀ p, docs.find? u.stops = some p → u.mapped p.1.toNat = true →
    u.unreached p.1.toNat = true ∨ u.lastChunkId + 1 < keyNotFound

/-- Both passes are in bounds. There is no second one if the first one ends early. -/
structure Fits (u : UpdateSpace) (size : ℕ) (docs : List (UInt64 × Region)) : Prop where
  overwrites : u.Overwrites size docs
  moves : (∀ p ∈ docs, u.stops p = false) → ∀ p ∈ u.moved docs, p.2.Within size

variable {u : UpdateSpace} {size : ℕ} {p : UInt64 × Region} {docs : List (UInt64 × Region)}

theorem stops_iff (h : u.mapped p.1.toNat = true) :
    u.stops p = true ↔
      u.reuses p = true ∧ (u.vacated p.1.toNat = true ∨ u.unreached p.1.toNat = true) := by
  unfold stops
  rw [decide_eq_true_eq, h]
  simp

theorem stops_of_not_reuses (h : u.mapped p.1.toNat = true) (hreuses : u.reuses p = false) :
    u.stops p = false := by
  rw [Bool.eq_false_iff, ne_eq, stops_iff h, hreuses]
  exact fun hfalse => Bool.false_ne_true hfalse.1

theorem overwrites_nil : u.Overwrites size [] := ⟨nofun, nofun⟩

theorem overwrites_cons_of_stops (h : u.stops p = true) : u.Overwrites size (p :: docs) ↔
    (u.mapped p.1.toNat = true →
      u.unreached p.1.toNat = true ∨ u.lastChunkId + 1 < keyNotFound) := by
  have htake : u.overwritten (p :: docs) = [] := by
    unfold overwritten
    rw [List.takeWhile_cons_of_neg (by rw [h]; decide), List.filter_nil]
  have hfind : (p :: docs).find? u.stops = some p := List.find?_cons_of_pos h
  constructor
  · exact fun hover => hover.noChunk p hfind
  · intro hchunk
    refine ⟨by rw [htake]; exact nofun, fun q hq hmapped => ?_⟩
    obtain rfl := Option.some.inj (hfind.symm.trans hq)
    exact hchunk hmapped

theorem overwrites_cons (h : u.stops p = false) : u.Overwrites size (p :: docs) ↔
    (u.reuses p = true → p.2.Within size) ∧ u.Overwrites size docs := by
  have hfind : (p :: docs).find? u.stops = docs.find? u.stops :=
    List.find?_cons_of_neg (by rw [h]; decide)
  have htake : u.overwritten (p :: docs) =
      if u.reuses p = true then p :: u.overwritten docs else u.overwritten docs := by
    unfold overwritten
    rw [List.takeWhile_cons_of_pos (by rw [h]; rfl), List.filter_cons]
  constructor
  · rintro ⟨hwithin, hchunk⟩
    rw [hfind] at hchunk
    rw [htake] at hwithin
    split_ifs at hwithin with hreuses
    · exact ⟨fun _ => hwithin p List.mem_cons_self,
        fun q hq => hwithin q (List.mem_cons_of_mem _ hq), hchunk⟩
    · exact ⟨fun hp => absurd hp hreuses, hwithin, hchunk⟩
  · rintro ⟨hp, hwithin, hchunk⟩
    refine ⟨?_, by rw [hfind]; exact hchunk⟩
    rw [htake]
    split_ifs with hreuses
    · exact List.forall_mem_cons.2 ⟨hp hreuses, hwithin⟩
    · exact hwithin

theorem moved_cons_of_le (h : p.2.size ≤ u.allocated p.1.toNat) :
    u.moved (p :: docs) = u.moved docs := by
  have hmoved : ¬ u.outgrows p = true := fun hlt => Nat.not_lt.2 h (of_decide_eq_true hlt)
  unfold moved
  rw [List.filter_cons_of_neg hmoved]

theorem moved_cons_of_fits (h : u.allocated p.1.toNat < p.2.size)
    (hfit : p.2.size + 8 ≤ u.chunkSize) : u.moved (p :: docs) = p :: u.moved docs := by
  have hmoved : u.outgrows p = true := decide_eq_true h
  unfold moved
  rw [List.filter_cons_of_pos hmoved]
  exact List.takeWhile_cons_of_pos (decide_eq_true hfit)

theorem moved_cons_of_large (h : u.allocated p.1.toNat < p.2.size)
    (hlarge : u.chunkSize < p.2.size + 8) : u.moved (p :: docs) = [] := by
  have hmoved : u.outgrows p = true := decide_eq_true h
  unfold moved
  rw [List.filter_cons_of_pos hmoved]
  exact List.takeWhile_cons_of_neg (by rw [decide_eq_true_eq]; exact Nat.not_le.2 hlarge)

theorem size_of_moved (h : p ∈ u.moved docs) : p.2.size + 8 ≤ u.chunkSize := by
  unfold moved at h
  simpa using List.mem_takeWhile_imp h

end UpdateSpace

namespace LogCollection

variable {c c' : LogCollection} {documents : Bytes} {docOffset size : ℕ}

/-- The space that an update of ids up to `maxId` finds, once the entries are created. -/
def updateSpace (c : LogCollection) (maxId : ℕ) : UpdateSpace where
  chunkSize := c.chunkSize
  lastChunkId := c.header.lastChunkId
  mapped id := c.header.nextId ≤ maxId ∨ c.mapped id = true
  allocated := c.allocatedFor
  vacated := c.vacated
  unreached := c.unreached

/-- The space is that of the collection. -/
structure HasSpace (c : LogCollection) (u : UpdateSpace) : Prop where
  chunkSize_eq : c.chunkSize = u.chunkSize
  lastChunkId_eq : c.header.lastChunkId = u.lastChunkId
  allocated_eq : c.allocatedFor = u.allocated
  vacated_eq : c.vacated = u.vacated
  unreached_eq : c.unreached = u.unreached

theorem HasSpace.of_same {u : UpdateSpace} (h : c.HasSpace u) (hsame : SameSpace c c') :
    c'.HasSpace u :=
  ⟨hsame.chunkSize_eq.trans h.chunkSize_eq, hsame.lastChunkId_eq.trans h.lastChunkId_eq,
    hsame.allocatedFor_eq.trans h.allocated_eq, hsame.vacated_eq.trans h.vacated_eq,
    hsame.unreached_eq.trans h.unreached_eq⟩

/-! ### The first pass -/

/-- A document is written in a region of a chunk, if there is such a document. -/
theorem writeChunkIn_of_le (h : Spaced c) {chunkId offset : ℕ}
    (hfit : offset + size ≤ c.chunkSize) :
    c.writeChunkIn chunkId offset documents docOffset size =
      if documents.length < docOffset + size then .error .documents
      else .ok (.OK, c.blitChunk chunkId offset (slice documents docOffset size)) := by
  have hlt := h.chunkSize_lt
  have hadd : addSize offset size = offset + size := addSize_eq (by omega)
  unfold writeChunkIn
  rw [h.header_chunkSize, hadd, if_neg (by omega)]
  split_ifs
  · rfl
  · omega
  · rfl

/-- The space of an entry that has not been erased can be written, if its chunk can be got at. -/
theorem overwriteIn_of_placed (h : Spaced c) {id : ℕ} (hid : id < c.header.nextId)
    (hpos : 0 < size) (hfit : size ≤ (c.entries id).allocated) (hplaced : c.vacated id = false)
    (hreached : c.unreached id = false) :
    8 ≤ c.chunkSize ∧ (c.entries id).chunk ≤ c.header.lastChunkId ∧ 8 ≤ (c.entries id).offset ∧
      (c.entries id).offset + size ≤ c.chunkSize ∧
      c.overwriteIn (c.entries id) documents docOffset size =
        if documents.length < docOffset + size then .error .documents
        else .ok (.OK, c.blitChunk (c.entries id).chunk (c.entries id).offset
          (slice documents docOffset size)) := by
  have halloc : (c.entries id).allocated ≠ 0 := by omega
  obtain ⟨hle, hspace⟩ := h.roomy id hid halloc
  have hge : 8 ≤ c.chunkSize := by omega
  obtain ⟨-, hoffset⟩ | ⟨hchunk, hoffset, hend⟩ := hspace
  · have hvacated : c.vacated id = true := by
      unfold vacated allocatedFor
      rw [if_pos hid]
      exact decide_eq_true ⟨halloc, hoffset⟩
    rw [hvacated] at hplaced
    cases hplaced
  · refine ⟨hge, hchunk, hoffset, by omega, ?_⟩
    have hreaches : c.Reaches (c.entries id).chunk := by
      by_contra hnot
      have hnot : ¬ ((c.entries id).chunk = c.header.lastChunkId ∨ c.HasRoom) := hnot
      rw [not_or] at hnot
      have hunreached : c.unreached id = true := by
        unfold unreached allocatedFor
        rw [if_pos hid]
        exact decide_eq_true ⟨halloc, lt_of_le_of_ne hchunk hnot.1, hnot.2⟩
      rw [hunreached] at hreached
      cases hreached
    unfold overwriteIn
    rw [if_pos hpos.ne', derefChunk_of_reaches (h.chunked hge) hchunk hreaches]
    exact writeChunkIn_of_le h (by omega)

/-- The cache fails. -/
theorem overwriteIn_of_unreached {id : ℕ} (hpos : 0 < size) (hunreached : c.unreached id = true) :
    c.overwriteIn (c.entries id) documents docOffset size = .error .emptyCache := by
  obtain ⟨-, hlt, hroom⟩ := of_decide_eq_true hunreached
  unfold overwriteIn derefChunk getChunkFromID
  rw [if_pos hpos.ne', if_neg hlt.ne, if_neg (by omega), if_pos hlt, if_neg hroom]
  rfl

/-- There is no chunk for an entry that has been erased, or the write leaves it. -/
theorem overwriteIn_of_vacated (h : Spaced c) {id : ℕ} (hid : id < c.header.nextId)
    (hpos : 0 < size) (hfit : size ≤ (c.entries id).allocated) (hvacated : c.vacated id = true)
    (hreached : c.unreached id = false) :
    ∃ e, c.overwriteIn (c.entries id) documents docOffset size = .error e ∧
      (e.overruns = false ↔ c.header.lastChunkId + 1 < keyNotFound) := by
  have halloc : (c.entries id).allocated ≠ 0 := by omega
  have hoffset : (c.entries id).offset = keyNotFound := (of_decide_eq_true hvacated).2
  have hmax : keyNotFound = 2 ^ 64 - 1 := rfl
  have hlt := h.chunkSize_lt
  obtain ⟨hle, hspace⟩ := h.roomy id hid halloc
  have hchunk : (c.entries id).chunk = keyNotFound := by
    obtain ⟨hchunk, -⟩ | ⟨-, -, hend⟩ := hspace
    · exact hchunk
    · omega
  unfold overwriteIn
  rw [if_pos hpos.ne', hchunk, hoffset]
  by_cases hnone : c.header.lastChunkId + 1 < keyNotFound
  · have hderef : c.derefChunk keyNotFound = .error .nullChunk := by
      unfold derefChunk getChunkFromID
      rw [if_neg (by omega), if_neg (by omega), if_neg (by omega)]
      rfl
    rw [hderef]
    exact ⟨_, rfl, iff_of_true rfl hnone⟩
  · have hroom : keyNotFound < c.header.lastChunkId → c.HasRoom := by
      intro hbefore
      by_contra hroom
      have hunreached : c.unreached id = true := by
        unfold unreached allocatedFor
        rw [if_pos hid, hchunk]
        exact decide_eq_true ⟨halloc, hbefore, hroom⟩
      rw [hunreached] at hreached
      cases hreached
    obtain ⟨b, hderef⟩ : ∃ b, c.derefChunk keyNotFound = .ok b := by
      unfold derefChunk getChunkFromID
      split_ifs with hlast hnext hbefore hcache
      · exact ⟨_, rfl⟩
      · exact ⟨_, rfl⟩
      · exact ⟨_, rfl⟩
      · exact absurd (hroom hbefore) hcache
      · omega
    have hwrap : addSize keyNotFound size = size - 1 := by
      unfold addSize
      omega
    rw [hderef]
    show ∃ e, b.writeChunkIn keyNotFound keyNotFound documents docOffset size = .error e ∧ _
    unfold writeChunkIn
    rw [chunkSize_derefChunk hderef, h.header_chunkSize, hwrap, if_neg (by omega)]
    split_ifs
    · exact ⟨_, rfl, iff_of_false nofun hnone⟩
    · exact ⟨_, rfl, iff_of_false nofun hnone⟩
    · omega

/-- A step of the first pass that keeps the space of the entries. -/
theorem inPlacePassIn_cons {id : UInt64} {chunks : ℕ → Bytes} (docs : List (UInt64 × ℕ))
    (es : List EntryMetadata) (hb : Spaced { c with chunks }) (hid : id.toNat < c.header.nextId)
    (hmapped : c.mapped id.toNat = true) (hfit : size ≤ (c.entries id.toNat).allocated)
    (hover : c.overwriteIn (c.entries id.toNat) documents docOffset size =
      .ok (.OK, { c with chunks })) :
    ∃ c', inPlacePassIn documents ((id, size) :: docs) docOffset c es =
        inPlacePassIn documents docs (addSize docOffset size) c'
          (es ++ [{ c.entries id.toNat with size }]) ∧
      Spaced c' ∧ SameSpace c c' ∧ c'.header.nextId = c.header.nextId ∧ c'.mapped = c.mapped := by
  have hroom : sizeofEntry + id.toNat * sizeofEntry + sizeofEntry ≤ c.metaSize :=
    of_decide_eq_true hmapped
  have hresize := @resizeEntry_of_room { c with chunks } id.toNat hroom size
  obtain ⟨collSize, hcount⟩ := countDocument_withEntry (c := { c with chunks }) id.toNat
    { c.entries id.toNat with size } ((c.entries id.toNat).size = keyNotFound)
  refine ⟨withEntry { c with chunks } id.toNat { c.entries id.toNat with size } c.metaSize
    c.header.nextId collSize, ?_, ?_, ?_, rfl, rfl⟩
  case refine_2 =>
    refine hb.withEntry_of_lt hid (fun hne => ?_) collSize
    exact hb.roomy id.toNat hid hne
  case refine_3 =>
    have hspace := sameSpace_resize (c := { c with chunks }) id.toNat size c.metaSize collSize
    exact ⟨hspace.chunkSize_eq, hspace.lastChunkId_eq, hspace.allocatedFor_eq, hspace.vacated_eq,
      hspace.unreached_eq⟩
  conv_lhs => unfold inPlacePassIn
  rw [readEntryMetadata_of_room hroom]
  dsimp only
  rw [if_neg (not_not.2 rfl), if_neg (Nat.not_lt.2 hfit), hover]
  dsimp only [bind, Except.bind]
  rw [if_neg (not_not.2 rfl),
    show resizeEntry { c with chunks } id.toNat (c.entries id.toNat) size = _ from hresize]
  simp only [Outcome.checked, Except.mapError]
  rw [if_neg (not_not.2 rfl)]
  exact congrArg (fun b => inPlacePassIn documents docs (addSize docOffset size) b
    (es ++ [{ c.entries id.toNat with size }])) hcount

/-- The first pass ends at an entry that does not lie in the mapping. -/
theorem inPlacePassIn_cons_of_unmapped {id : UInt64} (docs : List (UInt64 × ℕ))
    (es : List EntryMetadata) (hmapped : c.mapped id.toNat = false) :
    inPlacePassIn documents ((id, size) :: docs) docOffset c es = .ok (.SizeError, es, c) := by
  have hread : c.readEntryMetadata id.toNat = (.SizeError, {}) :=
    if_pos (Nat.not_le.1 (of_decide_eq_false hmapped))
  unfold inPlacePassIn
  rw [hread]
  rfl

/-- A document larger than the space of its entry is left to the second pass. -/
theorem inPlacePassIn_cons_of_lt {id : UInt64} (docs : List (UInt64 × ℕ))
    (es : List EntryMetadata) (hmapped : c.mapped id.toNat = true)
    (hlarge : (c.entries id.toNat).allocated < size) :
    inPlacePassIn documents ((id, size) :: docs) docOffset c es =
      inPlacePassIn documents docs (addSize docOffset size) c (es ++ [c.entries id.toNat]) := by
  conv_lhs => unfold inPlacePassIn
  rw [readEntryMetadata_of_room (of_decide_eq_true hmapped)]
  dsimp only
  rw [if_neg (not_not.2 rfl), if_pos hlarge]

/-- The pass fails where the document cannot be written. -/
theorem inPlacePassIn_cons_of_error {id : UInt64} (docs : List (UInt64 × ℕ))
    (es : List EntryMetadata) (hmapped : c.mapped id.toNat = true)
    (hfit : size ≤ (c.entries id.toNat).allocated) {e : Fault}
    (hover : c.overwriteIn (c.entries id.toNat) documents docOffset size = .error e) :
    inPlacePassIn documents ((id, size) :: docs) docOffset c es = .error e := by
  unfold inPlacePassIn
  rw [readEntryMetadata_of_room (of_decide_eq_true hmapped)]
  dsimp only
  rw [if_neg (not_not.2 rfl), if_neg (Nat.not_lt.2 hfit), hover]
  rfl

/-- What is known when the first pass returns. -/
structure InPlaceDone (u : UpdateSpace) (size : ℕ) (c : LogCollection)
    (docs : List (UInt64 × Region)) (es : List EntryMetadata)
    (r : Status × List EntryMetadata × LogCollection) : Prop where
  overwrites : u.Overwrites size docs
  spaced : Spaced r.2.2
  space : r.2.2.HasSpace u
  nextId_eq : r.2.2.header.nextId = c.header.nextId
  mapped_eq : r.2.2.mapped = c.mapped
  status_iff : r.1 = .OK ↔ ∀ p ∈ docs, u.stops p = false
  entries_eq : r.1 = .OK → ∃ es', r.2.1 = es ++ es' ∧
    es'.map EntryMetadata.allocated = docs.map fun p => u.allocated p.1.toNat

/-- What is known of the first pass. It does not return at an entry that has been erased, or whose
chunk the cache has no room for, and it returns with an error at one that does not lie in the
mapping. -/
def InPlaceSettles (u : UpdateSpace) (size : ℕ) (c : LogCollection)
    (docs : List (UInt64 × Region)) (es : List EntryMetadata)
    (x : Checked (Status × List EntryMetadata × LogCollection)) : Prop :=
  Ensures (fun e => (e.overruns = false ↔ u.Overwrites size docs) ∧
    (e.overruns = false → ∃ p ∈ docs, u.stops p = true)) x (InPlaceDone u size c docs es)

/-- The documents after one that keeps the space of the entries. -/
theorem InPlaceSettles.cons {u : UpdateSpace} {p : UInt64 × Region} {docs : List (UInt64 × Region)}
    {es : List EntryMetadata} {e : EntryMetadata}
    {x : Checked (Status × List EntryMetadata × LogCollection)}
    (h : InPlaceSettles u size c' docs (es ++ [e]) x) (hnext : c'.header.nextId = c.header.nextId)
    (hmapped : c'.mapped = c.mapped) (he : e.allocated = u.allocated p.1.toNat)
    (hgo : u.stops p = false) (hwithin : u.reuses p = true → p.2.Within size) :
    InPlaceSettles u size c (p :: docs) es x := by
  have hover : u.Overwrites size (p :: docs) ↔ u.Overwrites size docs :=
    (UpdateSpace.overwrites_cons hgo).trans (and_iff_right hwithin)
  refine Ensures.mono (Ensures.allow h ?_) ?_
  · rintro err ⟨hiff, hstops⟩
    refine ⟨hiff.trans hover.symm, fun herr => ?_⟩
    obtain ⟨q, hq, hstop⟩ := hstops herr
    exact ⟨q, List.mem_cons_of_mem _ hq, hstop⟩
  · rintro r ⟨hoverwrites, hspaced, hspace, hnextId, hmappedEq, hstatus, hentries⟩
    refine ⟨hover.2 hoverwrites, hspaced, hspace, hnextId.trans hnext, hmappedEq.trans hmapped, ?_,
      fun hok => ?_⟩
    · rw [List.forall_mem_cons]
      exact hstatus.trans (and_iff_right hgo).symm
    · obtain ⟨es', hes, hallocated⟩ := hentries hok
      refine ⟨e :: es', by rw [hes, List.append_assoc]; rfl, ?_⟩
      rw [List.map_cons, List.map_cons, hallocated, he]

/-- The first pass, document by document. -/
theorem inPlacePassIn_settles {u : UpdateSpace} {docs : List (UInt64 × ℕ)} (docOffset : ℕ)
    (es : List EntryMetadata) (h : Spaced c) (hu : c.HasSpace u)
    (hids : ∀ p ∈ docs, p.1.toNat < c.header.nextId)
    (hmapped : ∀ p ∈ docs, u.mapped p.1.toNat = c.mapped p.1.toNat) :
    InPlaceSettles u documents.length c (placedFrom docOffset docs) es
      (inPlacePassIn documents docs docOffset c es) := by
  induction docs generalizing c docOffset es with
  | nil =>
    exact ⟨UpdateSpace.overwrites_nil, h, hu, rfl, rfl, iff_of_true rfl nofun,
      fun _ => ⟨[], (List.append_nil es).symm, rfl⟩⟩
  | cons p docs ih =>
    obtain ⟨id, size⟩ := p
    obtain ⟨hid, hids⟩ := List.forall_mem_cons.1 hids
    obtain ⟨hmap, hmapped⟩ := List.forall_mem_cons.1 hmapped
    have hid : id.toNat < c.header.nextId := hid
    have hmap : u.mapped id.toNat = c.mapped id.toNat := hmap
    have halloc : (c.entries id.toNat).allocated = u.allocated id.toNat := by
      rw [← hu.allocated_eq]
      exact (if_pos hid).symm
    have hvacated : u.vacated id.toNat = c.vacated id.toNat := by rw [hu.vacated_eq]
    have hunreached : u.unreached id.toNat = c.unreached id.toNat := by rw [hu.unreached_eq]
    -- a document that does not stop the pass leaves the space of the others as it is
    have hrest : ∀ c' e, Spaced c' → SameSpace c c' → c'.header.nextId = c.header.nextId →
        c'.mapped = c.mapped → InPlaceSettles u documents.length c'
          (placedFrom (addSize docOffset size) docs) (es ++ [e])
          (inPlacePassIn documents docs (addSize docOffset size) c' (es ++ [e])) :=
      fun c' e hspaced hsame hnext hmapped' => ih (addSize docOffset size) (es ++ [e]) hspaced
        (hu.of_same hsame) (by rw [hnext]; exact hids) (by rw [hmapped']; exact hmapped)
    rw [placedFrom]
    cases hm : c.mapped id.toNat with
    | false =>
      -- the entry cannot be read, and the pass returns before the document is
      have hnot : u.mapped id.toNat = false := hmap.trans hm
      have hstops : u.stops (id, ⟨docOffset, size⟩) = true := decide_eq_true (Or.inl hnot)
      rw [inPlacePassIn_cons_of_unmapped docs es hm]
      refine ⟨(UpdateSpace.overwrites_cons_of_stops hstops).2 fun hyes => ?_, h, hu, rfl, rfl,
        iff_of_false nofun fun hall => ?_, nofun⟩
      · rw [hnot] at hyes
        cases hyes
      · rw [hall _ List.mem_cons_self] at hstops
        cases hstops
    | true =>
      have hyes : u.mapped id.toNat = true := hmap.trans hm
      by_cases hfit : size ≤ (c.entries id.toNat).allocated
      case neg =>
        -- left to the second pass
        have hreuses : u.reuses (id, ⟨docOffset, size⟩) = false :=
          decide_eq_false fun hr => hfit (by rw [halloc]; exact hr.2)
        rw [inPlacePassIn_cons_of_lt docs es hm (Nat.not_le.1 hfit)]
        exact (hrest _ _ h SameSpace.rfl rfl rfl).cons rfl rfl halloc
          (UpdateSpace.stops_of_not_reuses hyes hreuses)
          fun hr => absurd hr (by rw [hreuses]; decide)
      by_cases hzero : size = 0
      · -- an empty document is not written
        subst hzero
        have hreuses : u.reuses (id, ⟨docOffset, 0⟩) = false :=
          decide_eq_false fun hpos => absurd hpos.1 (lt_irrefl 0)
        obtain ⟨c', hpass, hspaced, hsame, hnext, hmapped'⟩ :=
          @inPlacePassIn_cons c documents docOffset 0 id c.chunks docs es h hid hm hfit rfl
        rw [hpass]
        exact (hrest _ _ hspaced hsame hnext hmapped').cons hnext hmapped' halloc
          (UpdateSpace.stops_of_not_reuses hyes hreuses)
          fun hr => absurd hr (by rw [hreuses]; decide)
      have hpos : 0 < size := Nat.pos_of_ne_zero hzero
      have hreuses : u.reuses (id, ⟨docOffset, size⟩) = true :=
        decide_eq_true ⟨hpos, by rw [← halloc]; exact hfit⟩
      by_cases hr : c.unreached id.toNat = true
      · -- the cache fails before the document is read
        have hstops : u.stops (id, ⟨docOffset, size⟩) = true :=
          (UpdateSpace.stops_iff hyes).2 ⟨hreuses, Or.inr (hunreached.trans hr)⟩
        rw [inPlacePassIn_cons_of_error docs es hm hfit (overwriteIn_of_unreached hpos hr)]
        refine ⟨iff_of_true rfl ?_, fun _ => ⟨_, List.mem_cons_self, hstops⟩⟩
        exact (UpdateSpace.overwrites_cons_of_stops hstops).2 fun _ => Or.inl (hunreached.trans hr)
      rw [Bool.not_eq_true] at hr
      have hnot : ¬ u.unreached id.toNat = true := by
        rw [hunreached, hr]
        exact Bool.false_ne_true
      cases hv : c.vacated id.toNat with
      | true =>
        -- the entry of an erased document has no offset to write at
        have hstops : u.stops (id, ⟨docOffset, size⟩) = true :=
          (UpdateSpace.stops_iff hyes).2 ⟨hreuses, Or.inl (hvacated.trans hv)⟩
        obtain ⟨e, hover, hruns⟩ := overwriteIn_of_vacated h hid hpos hfit hv hr
        rw [inPlacePassIn_cons_of_error docs es hm hfit hover]
        refine ⟨?_, fun _ => ⟨_, List.mem_cons_self, hstops⟩⟩
        rw [UpdateSpace.overwrites_cons_of_stops hstops, forall_prop_of_true hyes, or_iff_right hnot,
          ← hu.lastChunkId_eq]
        exact hruns
      | false =>
        have hgo : u.stops (id, ⟨docOffset, size⟩) = false := by
          rw [Bool.eq_false_iff, ne_eq, UpdateSpace.stops_iff hyes, hvacated, hv, hunreached, hr]
          exact fun hfalse => hfalse.2.elim Bool.false_ne_true Bool.false_ne_true
        obtain ⟨hge, hchunk, hoffset, hend, hover⟩ :=
          @overwriteIn_of_placed c documents docOffset size h id.toNat hid hpos hfit hv hr
        by_cases hdocuments : documents.length < docOffset + size
        · rw [if_pos hdocuments] at hover
          rw [inPlacePassIn_cons_of_error docs es hm hfit hover]
          refine ⟨iff_of_false nofun fun hwithin => ?_, nofun⟩
          exact Nat.not_lt.2 (((UpdateSpace.overwrites_cons hgo).1 hwithin).1 hreuses) hdocuments
        · rw [if_neg hdocuments] at hover
          have hlen : (slice documents docOffset size).length = size :=
            length_slice_of_le (Nat.not_lt.1 hdocuments)
          obtain ⟨c', hpass, hspaced, hsame, hnext, hmapped'⟩ := inPlacePassIn_cons docs es
            (h.blit hge hchunk hoffset (by rw [hlen]; exact hend)) hid hm hfit hover
          rw [hpass]
          exact (hrest _ _ hspaced hsame hnext hmapped').cons hnext hmapped' halloc hgo fun _ =>
            Nat.not_lt.1 hdocuments

/-! ### The second pass -/

/-- A document is written behind the others, if there is such a document. -/
theorem writeDocumentIn_of_le (h : Spaced c) (hroom : size + 8 ≤ c.chunkSize) :
    documents.length < docOffset + size ∧
        c.writeDocumentIn c.used documents docOffset size = .error .documents ∨
      docOffset + size ≤ documents.length ∧ ∃ c' offset,
        c.writeDocumentIn c.used documents docOffset size = .ok (.OK, offset, c') ∧
          Wrote c c' offset (slice documents docOffset size) := by
  have hch := h.chunked (by omega)
  rcases Nat.lt_or_ge documents.length (docOffset + size) with hdocuments | hdocuments
  · refine Or.inl ⟨hdocuments, ?_⟩
    unfold writeDocumentIn
    by_cases hfull : c.chunkSize - c.used < size
    · rw [makeSpace_of_full (by rw [subSize_used hch]; exact hfull)]
      show (c.withChunk.writeChunkIn (c.header.lastChunkId + 1) 8 documents docOffset size >>= _) =
        _
      rw [writeChunkIn_of_le (h.withChunk hch.chunkSize_ge) (show 8 + size ≤ c.chunkSize by omega),
        if_pos hdocuments]
      rfl
    · rw [makeSpace_of_fits (by rw [subSize_used hch]; exact Nat.not_lt.1 hfull)]
      have hle := hch.used_le
      show (c.writeChunkIn c.header.lastChunkId c.used documents docOffset size >>= _) = _
      rw [writeChunkIn_of_le h (by omega), if_pos hdocuments]
      rfl
  · obtain ⟨c', offset, hwrite, hw⟩ := writeDocument_spec hch (slice documents docOffset size)
      (by rw [length_slice_of_le hdocuments]; exact hroom)
    refine Or.inr ⟨hdocuments, c', offset, ?_, hw⟩
    rw [writeDocumentIn_eq hdocuments, hwrite]
    rfl

/-- A document too large for a chunk is not read. -/
theorem writeDocumentIn_of_large (h : Spaced c) (hge : 8 ≤ c.chunkSize)
    (hlarge : c.chunkSize < size + 8) (hle : size ≤ c.chunkSize) :
    c.writeDocumentIn c.used documents docOffset size = .ok (.SizeError, 8, c.withChunk) := by
  have hch := h.chunked hge
  have hlt := hch.chunkSize_lt
  have hused := hch.used_ge
  have hadd : addSize 8 size = 8 + size := addSize_eq (by omega)
  unfold writeDocumentIn
  rw [makeSpace_of_full (by rw [subSize_used hch]; omega)]
  show (c.withChunk.writeChunkIn (c.header.lastChunkId + 1) 8 documents docOffset size >>= _) = _
  unfold writeChunkIn
  rw [show c.withChunk.header.chunkSize = c.header.chunkSize from rfl, hadd, h.header_chunkSize,
    if_pos (by omega)]
  rfl

/-- A document written behind the others gets its entry. -/
theorem appendPassIn_cons_of_wrote {id : UInt64} {entry : EntryMetadata} {offset nextOffset : ℕ}
    (docs : List ((UInt64 × ℕ) × EntryMetadata)) (h : Spaced c) (hroom : size + 8 ≤ c.chunkSize)
    (hid : id.toNat < c.header.nextId) (hmapped : c.mapped id.toNat = true)
    (hlarge : entry.allocated < size) (hdocuments : docOffset + size ≤ documents.length)
    (hwrite : c.writeDocumentIn nextOffset documents docOffset size = .ok (.OK, offset, c'))
    (hw : Wrote c c' offset (slice documents docOffset size)) :
    ∃ d, appendPassIn documents (((id, size), entry) :: docs) docOffset nextOffset c =
        appendPassIn documents docs (addSize docOffset size) d.used d ∧
      Spaced d ∧ d.chunkSize = c.chunkSize ∧ d.header.nextId = c.header.nextId ∧
        d.mapped = c.mapped := by
  have hlen : (slice documents docOffset size).length = size := length_slice_of_le hdocuments
  have hused : c'.used = offset + size := by rw [hw.used_eq, hlen]
  have hroomy : c'.Roomy ⟨c'.header.lastChunkId, offset, size, size⟩ := by
    refine ⟨hw.chunkSize_eq.symm ▸ hroom, Or.inr ⟨le_rfl, hw.offset_ge, ?_⟩⟩
    show offset + size ≤ c'.chunkSize
    rw [← hused]
    exact hw.chunked.used_le
  have hentry : c'.writeEntryMetadata id.toNat ⟨c'.header.lastChunkId, offset, size, size⟩ = _ :=
    writeEntryMetadata_of_room (by rw [hw.metaSize_eq]; exact of_decide_eq_true hmapped) _
  obtain ⟨collSize, hcount⟩ := countDocument_withEntry (c := c') id.toNat
    ⟨c'.header.lastChunkId, offset, size, size⟩ (entry.size = keyNotFound)
  refine ⟨c'.withEntry id.toNat ⟨c'.header.lastChunkId, offset, size, size⟩ c'.metaSize
    c'.header.nextId collSize, ?_, (h.wrote hw).withEntry_of_lt (by rw [hw.nextId_eq]; exact hid)
      (fun _ => hroomy) collSize, hw.chunkSize_eq, hw.nextId_eq, ?_⟩
  · conv_lhs => unfold appendPassIn
    rw [if_neg (Nat.not_le.2 hlarge), hwrite]
    dsimp only [bind, Except.bind]
    rw [if_neg (not_not.2 rfl), hentry]
    simp only [Outcome.checked, Except.mapError]
    rw [if_neg (not_not.2 rfl), ← hused]
    exact congrArg (fun b => appendPassIn documents docs (addSize docOffset size) c'.used b) hcount
  · funext id'
    show decide (_ ≤ c'.metaSize) = decide (_ ≤ c.metaSize)
    rw [hw.metaSize_eq]

/-- The second pass is in bounds exactly if the documents that it moves are. -/
theorem appendPassIn_settles {u : UpdateSpace} {docs : List (UInt64 × ℕ)} (docOffset : ℕ)
    {es : List EntryMetadata} (h : Spaced c) (hge : 8 ≤ c.chunkSize)
    (hu : c.chunkSize = u.chunkSize)
    (hes : es.map EntryMetadata.allocated = docs.map fun p => u.allocated p.1.toNat)
    (hids : ∀ p ∈ docs, p.1.toNat < c.header.nextId)
    (hmapped : ∀ p ∈ docs, c.mapped p.1.toNat = true) (hsizes : ∀ p ∈ docs, p.2 ≤ c.chunkSize) :
    Settles (∀ p ∈ u.moved (placedFrom docOffset docs), p.2.Within documents.length)
      (appendPassIn documents (docs.zip es) docOffset c.used c)
      (fun r => Spaced r.2 ∧ r.2.chunkSize = c.chunkSize) := by
  induction docs generalizing c docOffset es with
  | nil => exact ⟨nofun, h, rfl⟩
  | cons p docs ih =>
    obtain ⟨id, size⟩ := p
    cases es with
    | nil => cases hes
    | cons e es =>
      rw [List.map_cons, List.map_cons, List.cons.injEq] at hes
      obtain ⟨halloc, hes⟩ := hes
      have halloc : e.allocated = u.allocated id.toNat := halloc
      obtain ⟨hid, hids⟩ := List.forall_mem_cons.1 hids
      obtain ⟨hm, hmapped⟩ := List.forall_mem_cons.1 hmapped
      obtain ⟨hle, hsizes⟩ := List.forall_mem_cons.1 hsizes
      have hle : size ≤ c.chunkSize := hle
      rw [placedFrom, List.zip_cons_cons]
      by_cases hfit : size ≤ e.allocated
      · rw [UpdateSpace.moved_cons_of_le (by rw [← halloc]; exact hfit)]
        unfold appendPassIn
        rw [if_pos hfit]
        exact ih (addSize docOffset size) h hge hu hes hids hmapped hsizes
      have hout : u.allocated id.toNat < size := by
        rw [← halloc]
        exact Nat.not_le.1 hfit
      by_cases hroom : size + 8 ≤ c.chunkSize
      · rw [UpdateSpace.moved_cons_of_fits hout (by rw [← hu]; exact hroom)]
        obtain ⟨hdocuments, hwrite⟩ | ⟨hdocuments, c₁, offset, hwrite, hw⟩ :=
          @writeDocumentIn_of_le c documents docOffset size h hroom
        · unfold appendPassIn
          rw [if_neg hfit, hwrite]
          refine Settles.overrun rfl fun hall => ?_
          exact Nat.not_lt.2 (hall _ List.mem_cons_self) hdocuments
        · obtain ⟨d, hpass, hd, hchunkSize, hnext, hmapped'⟩ := appendPassIn_cons_of_wrote
            (docs.zip es) h hroom hid hm (Nat.not_le.1 hfit) hdocuments hwrite hw
          have hrest := ih (addSize docOffset size) hd (by rw [hchunkSize]; exact hge)
            (hchunkSize.trans hu) hes (by rw [hnext]; exact hids) (by rw [hmapped']; exact hmapped)
            (by rw [hchunkSize]; exact hsizes)
          rw [hchunkSize] at hrest
          rw [hpass]
          refine hrest.congr ?_
          rw [List.forall_mem_cons]
          exact (and_iff_right hdocuments).symm
      · have hlarge : c.chunkSize < size + 8 := Nat.not_le.1 hroom
        rw [UpdateSpace.moved_cons_of_large hout (by rw [← hu]; exact hlarge)]
        unfold appendPassIn
        rw [if_neg hfit, writeDocumentIn_of_large h hge hlarge hle]
        exact ⟨nofun, h.withChunk hge, rfl⟩

/-! ### The update -/

/-- The check of the sizes: one of them is too large, there are enough of them, or it leaves them.
-/
theorem refuses_cases (chunkSize n : ℕ) (sizes : List ℕ) :
    (∃ size ∈ sizes.take n, chunkSize < size) ∧ refuses chunkSize n sizes = .ok true ∨
      (∀ size ∈ sizes.take n, size ≤ chunkSize) ∧
        (n ≤ sizes.length ∧ refuses chunkSize n sizes = .ok false ∨
          sizes.length < n ∧ refuses chunkSize n sizes = .error .sizes) := by
  induction n generalizing sizes with
  | zero => exact Or.inr ⟨nofun, Or.inl ⟨Nat.zero_le _, rfl⟩⟩
  | succ n ih =>
    cases sizes with
    | nil => exact Or.inr ⟨nofun, Or.inr ⟨Nat.succ_pos n, rfl⟩⟩
    | cons size sizes =>
      rw [List.take_succ_cons, refuses, List.length_cons]
      by_cases hlarge : chunkSize < size
      · exact Or.inl ⟨⟨size, List.mem_cons_self, hlarge⟩, if_pos hlarge⟩
      · rw [if_neg hlarge]
        obtain ⟨⟨size', hmem, hlt⟩, hr⟩ | ⟨hall, hr⟩ := ih sizes
        · exact Or.inl ⟨⟨size', List.mem_cons_of_mem _ hmem, hlt⟩, hr⟩
        · refine Or.inr ⟨List.forall_mem_cons.2 ⟨Nat.not_lt.1 hlarge, hall⟩, ?_⟩
          exact hr.imp (And.imp_left Nat.succ_le_succ) (And.imp_left Nat.succ_lt_succ)

/-- A chunk that has no room for its first word. -/
theorem nextOffset_of_lt (h : Spaced c) (hlt : c.chunkSize < 8) :
    c.nextOffset = .ok (.SizeError, 8) := by
  unfold nextOffset readChunk
  rw [h.header_chunkSize, show addSize 0 8 = 8 from rfl, if_pos hlt]
  rfl

/-- A request that gets past the check of its sizes has a size for each id. If its entries can be
created, what the two passes read is in `size` bytes of documents. -/
def UpdateFits (c : LogCollection) (ids : List UInt64) (sizes : List ℕ) (size : ℕ) : Prop :=
  (∀ docSize ∈ sizes.take ids.length, docSize ≤ c.chunkSize) → ids.length ≤ sizes.length ∧
    (ids ≠ [] → c.CanCreate ((maxID ids).toNat + 1 - c.header.nextId) →
      (c.updateSpace (maxID ids).toNat).Fits size (placedFrom 0 (ids.zip sizes)))

/-- The passes of an update, over the entries that it has created. -/
theorem passesIn_settles {u : UpdateSpace} {docs : List (UInt64 × ℕ)} (maxId : ℕ) (h : Spaced c)
    (hu : c.HasSpace u) (hids : ∀ p ∈ docs, p.1.toNat < c.header.nextId)
    (hmapped : ∀ p ∈ docs, u.mapped p.1.toNat = c.mapped p.1.toNat)
    (hsizes : ∀ p ∈ docs, p.2 ≤ c.chunkSize) :
    Settles (u.Fits documents.length (placedFrom 0 docs))
      (do
        let (status, entries, c) ← inPlacePassIn documents docs 0 c []
        if status ≠ .OK then .ok (status, c)
        else
          let (status, next) ← c.nextOffset.checked
          if status ≠ .OK then .ok (status, c)
          else
            let (status, c) ← appendPassIn documents (docs.zip entries) 0 next c
            .ok (status.getD (c.flushEntries maxId), c))
      (fun r => Spaced r.2 ∧ r.2.chunkSize = c.chunkSize) := by
  -- a pass that stops reads none of the documents behind
  have hstopped : u.Overwrites documents.length (placedFrom 0 docs) →
      (∃ p ∈ placedFrom 0 docs, u.stops p = true) →
        u.Fits documents.length (placedFrom 0 docs) := by
    rintro hover ⟨p, hp, hstops⟩
    refine ⟨hover, fun hall => ?_⟩
    rw [hall p hp] at hstops
    cases hstops
  have hpass := @inPlacePassIn_settles c documents u docs 0 [] h hu hids hmapped
  cases hr : inPlacePassIn documents docs 0 c [] with
  | error e =>
    rw [hr] at hpass
    obtain ⟨hover, hstops⟩ := hpass
    refine ⟨fun he => hstopped (hover.1 he) (hstops he), fun hfits => hover.2 hfits.overwrites⟩
  | ok r =>
    rw [hr] at hpass
    obtain ⟨hover, hspaced, hspace, hnext, hmappedEq, hstatus, hentries⟩ := hpass
    obtain ⟨status, es, c₁⟩ := r
    have hchunkSize : c₁.chunkSize = c.chunkSize :=
      hspace.chunkSize_eq.trans hu.chunkSize_eq.symm
    show Settles _ (if status ≠ .OK then _ else _) _
    by_cases hok : status = .OK
    case neg =>
      rw [if_pos hok]
      refine ⟨hstopped hover ?_, hspaced, hchunkSize⟩
      by_contra hnone
      refine hok (hstatus.2 fun p hp => Bool.eq_false_iff.2 fun hstops => hnone ⟨p, hp, hstops⟩)
    have hgo := hstatus.1 hok
    obtain ⟨es', hes, halloc⟩ := hentries hok
    obtain rfl : es = es' := hes
    rw [if_neg (not_not.2 hok)]
    rcases Nat.lt_or_ge c₁.chunkSize 8 with hlt | hge
    · -- no document can be moved
      rw [nextOffset_of_lt hspaced hlt]
      refine ⟨⟨hover, fun _ p hp => ?_⟩, hspaced, hchunkSize⟩
      have hfit : p.2.size + 8 ≤ c₁.chunkSize :=
        (UpdateSpace.size_of_moved hp).trans_eq hspace.chunkSize_eq.symm
      omega
    · -- nothing stopped the first pass, so that every entry is mapped
      have hall : ∀ p ∈ docs, c₁.mapped p.1.toNat = true := by
        intro p hp
        have hmem := List.mem_map_of_mem (f := fun p => u.mapped p.1.toNat) hp
        rw [← map_placedFrom (fun id => u.mapped id.toNat) 0 docs] at hmem
        obtain ⟨q, hq, heq⟩ := List.mem_map.1 hmem
        have hyes : u.mapped q.1.toNat = true := by
          by_contra hno
          have hstops : u.stops q = true := decide_eq_true (Or.inl (Bool.eq_false_iff.2 hno))
          rw [hgo q hq] at hstops
          cases hstops
        rw [show c₁.mapped = c.mapped from hmappedEq, ← hmapped p hp]
        exact heq.symm.trans hyes
      rw [map_placedFrom fun id => u.allocated id.toNat] at halloc
      have happend := @appendPassIn_settles c₁ documents u docs 0 es hspaced hge
        hspace.chunkSize_eq halloc (by rw [show c₁.header.nextId = _ from hnext]; exact hids) hall
        (by rw [hchunkSize]; exact hsizes)
      have hfits : u.Fits documents.length (placedFrom 0 docs) ↔
          ∀ p ∈ u.moved (placedFrom 0 docs), p.2.Within documents.length :=
        ⟨fun hfits => hfits.moves hgo, fun hmoves => ⟨hover, fun _ => hmoves⟩⟩
      rw [nextOffset_eq (hspaced.chunked hge)]
      refine Settles.congr ?_ hfits.symm
      show Settles _ (appendPassIn documents (docs.zip es) 0 c₁.used c₁ >>= _) _
      cases hr : appendPassIn documents (docs.zip es) 0 c₁.used c₁ with
      | error e =>
        rw [hr] at happend
        exact happend
      | ok r =>
        rw [hr] at happend
        exact ⟨happend.1, happend.2.1, happend.2.2.trans hchunkSize⟩

/-- The update is in bounds exactly if the request fits, whatever its arrays. -/
theorem updateIn_settles {ids : List UInt64} {sizes : List ℕ} (h : Spaced c) :
    Settles (c.UpdateFits ids sizes documents.length) (c.updateIn ids documents sizes)
      (fun r => Spaced r.2 ∧ r.2.chunkSize = c.chunkSize) := by
  unfold updateIn UpdateFits
  -- a size is too large, all sizes are read, or the loop runs past their end
  obtain ⟨⟨size, hmem, hlarge⟩, hr⟩ | ⟨hall, ⟨hle, hr⟩ | ⟨hlt, hr⟩⟩ :=
    refuses_cases c.chunkSize ids.length sizes
  · rw [hr]
    exact ⟨fun hall => absurd hlarge (Nat.not_lt.2 (hall size hmem)), h, rfl⟩
  · rw [hr]
    dsimp only [bind, Except.bind]
    rw [if_neg Bool.false_ne_true, forall_prop_of_true hall, and_iff_right hle]
    by_cases hnil : ids = []
    · rw [if_pos hnil]
      exact Settles.stopped rfl fun hne => absurd hnil hne
    rw [if_neg hnil, forall_prop_of_true hnil]
    have hcreate := @createEntries_spaced c ((maxID ids).toNat + 1 - c.header.nextId) h
    cases hc : createEntries ((maxID ids).toNat + 1 - c.header.nextId) c with
    | error e =>
      rw [hc] at hcreate
      obtain ⟨rfl, hnot⟩ := hcreate
      exact Settles.stopped rfl fun hcan => absurd hcan hnot
    | ok r =>
      obtain ⟨status, c₁⟩ := r
      rw [hc] at hcreate
      obtain ⟨hspaced, hchunkSize, hiff, hkept⟩ := hcreate
      show Settles _ (if status ≠ .OK then _ else _) _
      by_cases hok : status = .OK
      case neg =>
        rw [if_pos hok]
        exact ⟨fun hcan => absurd (hiff.2 hcan) hok, hspaced, hchunkSize⟩
      obtain ⟨hsame, hnext, hmapped⟩ := hkept hok
      rw [if_neg (not_not.2 hok), forall_prop_of_true (hiff.1 hok)]
      have hmem : ∀ p ∈ ids.zip sizes, p.1 ∈ ids ∧ p.2 ∈ sizes.take ids.length := by
        intro p hp
        rw [List.zip_eq_zip_take_min, Nat.min_eq_left hle, List.take_length] at hp
        exact List.of_mem_zip hp
      have hids : ∀ p ∈ ids.zip sizes, p.1.toNat ≤ (maxID ids).toNat := fun p hp =>
        UInt64.le_iff_toNat_le.1 (le_maxID (hmem p hp).1)
      have hspace : c₁.HasSpace (c.updateSpace (maxID ids).toNat) :=
        ⟨hsame.chunkSize_eq, hsame.lastChunkId_eq, hsame.allocatedFor_eq, hsame.vacated_eq,
          hsame.unreached_eq⟩
      have hexist : ∀ p ∈ ids.zip sizes, p.1.toNat < c₁.header.nextId := by
        intro p hp
        have hle := hids p hp
        rw [show c₁.header.nextId = _ from hnext]
        omega
      have hsee : ∀ p ∈ ids.zip sizes,
          (c.updateSpace (maxID ids).toNat).mapped p.1.toNat = c₁.mapped p.1.toNat := by
        intro p hp
        have hlt := hexist p hp
        rw [show c₁.header.nextId = _ from hnext] at hlt
        rw [Bool.eq_iff_iff, show c₁.mapped p.1.toNat = true ↔ _ from hmapped p.1.toNat hlt]
        show decide (_ ∨ _) = true ↔ _
        rw [decide_eq_true_eq]
        exact or_congr_left (by omega)
      have hpasses := @passesIn_settles c₁ documents _ _ (maxID ids).toNat hspaced hspace
        hexist hsee fun p hp => by rw [hchunkSize]; exact hall p.2 (hmem p hp).2
      rw [hchunkSize] at hpasses
      exact hpasses
  · rw [hr]
    exact Settles.overrun rfl fun hfits => Nat.not_lt.2 (hfits hall).1 hlt

/-! ### Runs -/

/-- The loop of `append` keeps the space. -/
theorem appendLoop_spaced {data : Bytes} {sizes : List ℕ} (docOffset : ℕ) (ids : List UInt64)
    (h : Spaced c) (hge : 8 ≤ c.chunkSize) (hsizes : ∀ size ∈ sizes, size ≤ c.chunkSize)
    (hdata : docOffset + sizes.sum ≤ data.length) :
    Ensures (fun _ => True) (appendLoop data sizes docOffset c.used c ids)
      (fun r => Spaced r.2.2) := by
  induction sizes generalizing c docOffset ids with
  | nil => exact h
  | cons size sizes ih =>
    rw [List.sum_cons] at hdata
    obtain ⟨hle, hsizes⟩ := List.forall_mem_cons.1 hsizes
    have hlen : (slice data docOffset size).length = size := length_slice_of_le (by omega)
    have hch := h.chunked hge
    unfold appendLoop
    by_cases hroom : size + 8 ≤ c.chunkSize
    · obtain ⟨c₁, offset, hwrite, hw⟩ := writeDocument_spec hch (slice data docOffset size)
        (by rw [hlen]; exact hroom)
      have hspaced := h.wrote hw
      have hused : c₁.used = offset + size := by rw [hw.used_eq, hlen]
      have hroomy : c₁.Roomy ⟨c₁.header.lastChunkId, offset, size, size⟩ := by
        refine ⟨hw.chunkSize_eq.symm ▸ hroom, Or.inr ⟨le_rfl, hw.offset_ge, ?_⟩⟩
        show offset + size ≤ c₁.chunkSize
        rw [← hused]
        exact hw.chunked.used_le
      rw [hwrite]
      show Ensures _ (c₁.writeEntryMetadata c.header.nextId _ >>= _) _
      refine Ensures.bind ((c₁.writeEntryMetadata_cases c.header.nextId _).allow
        fun _ _ => trivial) ?_
      rintro r ⟨hbound, rfl⟩
      split_ifs with hshort
      · exact hspaced.withMetaSize (hspaced.metaSizeFor_eq hbound) c₁.cacheSize
      · have hlt := hspaced.lt_of_room hbound (Nat.not_lt.1 hshort)
        have hentry := hspaced.withEntry hw.nextId_eq.ge hlt (fun _ => hroomy)
          (hspaced.metaSizeFor_eq hbound) (c₁.header.collSize + 1)
        rw [hw.nextId_eq, max_eq_right (Nat.le_succ _)] at hentry
        have hrest := ih (docOffset + size) (ids ++ [UInt64.ofNat c.header.nextId]) hentry
          (hw.chunkSize_eq.symm ▸ hge) (hw.chunkSize_eq.symm ▸ hsizes) (by omega)
        have hused' : ∀ id e metaSize nextId collSize,
            (c₁.withEntry id e metaSize nextId collSize).used = offset + size :=
          fun _ _ _ _ _ => hused
        rw [hused'] at hrest
        exact hrest
    · rw [writeDocument_of_large hch (by rw [hlen]; exact Nat.not_le.1 hroom)
        (by rw [hlen]; exact hle)]
      exact h.withChunk hge

/-- `append` of a batch keeps the space, and so does the loop of `erase`. -/
theorem append_spaced {batch : DocBatch} {ids : List UInt64} (h : Spaced c)
    (hholds : batch.Holds ids.length) :
    Ensures (fun _ => True) (c.append batch.documents batch.sizes ids)
      (fun r => Spaced r.2.2) := by
  obtain ⟨-, hsum⟩ := hholds
  unfold append
  split_ifs with hany
  · exact h
  · have hsizes : ∀ size ∈ batch.sizes, size ≤ c.chunkSize := by
      intro size hsize
      by_contra hlt
      exact hany (List.any_eq_true.2 ⟨size, hsize, decide_eq_true (Nat.not_le.1 hlt)⟩)
    rcases Nat.lt_or_ge c.chunkSize 8 with hlt | hge
    · rw [nextOffset_of_lt h hlt]
      exact h
    · rw [nextOffset_eq (h.chunked hge)]
      show Ensures _ (appendLoop _ _ _ _ _ _ >>= _) _
      refine Ensures.bind (appendLoop_spaced 0 [] h hge hsizes (by rwa [Nat.zero_add])) ?_
      exact fun _ hspaced => hspaced

theorem erase_spaced (h : Spaced c) (id : UInt64) :
    Ensures (fun _ => True) (c.erase id) (fun r => Spaced r.2) := by
  unfold erase
  by_cases hid : c.header.nextId ≤ id.toNat
  · rw [if_pos hid]
    exact h
  rw [if_neg hid]
  cases hm : c.mapped id.toNat with
  | false =>
    have hread : c.readEntryMetadata id.toNat = (.SizeError, {}) :=
      if_pos (Nat.not_le.1 (of_decide_eq_false hm))
    rw [hread]
    exact h
  | true =>
    have hroom : sizeofEntry + id.toNat * sizeofEntry + sizeofEntry ≤ c.metaSize :=
      of_decide_eq_true hm
    rw [readEntryMetadata_of_room hroom]
    dsimp only
    rw [if_neg (not_not.2 rfl)]
    split_ifs
    · exact h
    · rw [writeEntryMetadata_of_room hroom]
      refine h.withEntry_of_lt (Nat.not_le.1 hid) (fun hne => ?_) (c.header.collSize - 1)
      exact ⟨(h.roomy id.toNat (Nat.not_le.1 hid) hne).1, Or.inl ⟨rfl, rfl⟩⟩

theorem eraseLoop_spaced (ids : List UInt64) (h : Spaced c) :
    Ensures (fun _ => True) (eraseLoop ids c) Spaced := by
  induction ids generalizing c with
  | nil => exact h
  | cons id ids ih => exact Ensures.bind (erase_spaced h id) fun r hr => ih hr

/-- What changes a collection: a call for it, or the database is closed and opened again with the
same size of chunks. A dropped collection is opened again when it is created. -/
inductive LogCall
  | call (call : CollectionCall)
  | reopen (cacheSize : UInt64)

/-- A call that returns. The update is a direct one, whatever its request. -/
def Takes (c : LogCollection) : LogCall → LogCollection → Prop
  | .call (.store batch ids), c' => batch.Holds ids.length ∧
    ∃ status ids', c.append batch.documents batch.sizes ids = .ok (status, ids', c')
  | .call (.update ids documents sizes), c' =>
    ∃ status, c.updateIn ids documents sizes = .ok (status, c')
  | .call (.erase ids), c' => eraseLoop ids c = .ok c'
  | .reopen cacheSize, c' => ofFiles c.chunkSize cacheSize c.toCollectionFiles = c'

theorem takes_spaced {call : LogCall} (h : Spaced c) (htakes : Takes c call c') : Spaced c' := by
  match call, htakes with
  | .call (.store batch ids), ⟨hholds, status, ids', hr⟩ =>
    have hspaced := Ensures.of_eq_ok (append_spaced h hholds) hr
    exact hspaced
  | .call (.update ids documents sizes), ⟨status, hr⟩ =>
    have hsettles := @updateIn_settles c documents ids sizes h
    rw [hr] at hsettles
    exact hsettles.2.1
  | .call (.erase ids), hr => exact Ensures.of_eq_ok (eraseLoop_spaced ids h) hr
  | .reopen cacheSize, hr =>
    rw [← show ofFiles c.chunkSize cacheSize c.toCollectionFiles = c' from hr]
    exact h.reopen cacheSize

/-- After any run, the space of a collection is as it should be. -/
theorem run_spaced {chunkSize : ℕ} {cacheSize : UInt64} {calls : List LogCall}
    (hlt : chunkSize < 2 ^ 63) (hrun : Run Takes (ofFiles chunkSize cacheSize {}) calls c) :
    Spaced c :=
  hrun.invariant (fun _ _ _ h htakes => takes_spaced h htakes) (spaced_ofFiles cacheSize hlt)

end LogCollection

namespace LogDatabase

/-- Each collection is one that a run leads to. -/
def Reached (s : LogDatabase) : Prop :=
  s.chunkSize < 2 ^ 63 ∧ ∀ name c, s.collections name = some c →
    ∃ cacheSize calls, Run LogCollection.Takes (.ofFiles s.chunkSize cacheSize {}) calls c

/-- A request that gets as far as the check of its sizes fits. -/
def Validates (s : LogDatabase) (req : UpdateRequest) : Prop :=
  ∀ c, s.collections req.collName = some c → supportsMode req.mode = true →
    (req.mode.has .updateNew = true ∨ ∀ id ∈ req.ids, id ≤ c.lastId) →
    c.UpdateFits req.ids req.docSizes req.docs.length

/-- The handler is in bounds exactly if the request fits where it gets through to. -/
theorem docUpdate_inBounds_iff {s : LogDatabase} (h : s.Reached) (req : UpdateRequest) :
    InBounds (ykDocUpdateDirectUlt supportsMode docUpdateIn s req) ↔ s.Validates req := by
  refine ykDocUpdateDirectUlt_inBounds_iff.trans ?_
  unfold docUpdateIn Validates
  cases hcoll : s.collections req.collName with
  | none => exact iff_of_true (fun _ => trivial) nofun
  | some c =>
    obtain ⟨hlt, hreached⟩ := h
    obtain ⟨cacheSize, calls, hrun⟩ := hreached _ _ hcoll
    have hupdate := (@LogCollection.updateIn_settles c req.docs req.ids req.docSizes
      (LogCollection.run_spaced hlt hrun)).inBounds_iff
    simp only [Option.some.injEq, forall_eq']
    refine imp_congr_right fun _ => ?_
    have hadmitted := @not_refused_iff (req.mode.has .updateNew) (fun id => c.lastId < id) req.ids
    simp only [decide_eq_false_iff_not, UInt64.not_lt] at hadmitted
    rw [← hadmitted]
    split_ifs with hrefused
    · exact iff_of_true trivial fun hnot => absurd hrefused hnot
    · rw [forall_prop_of_true hrefused, ← hupdate]
      exact inBounds_bind_ok

end LogDatabase

/-! ### Both backends -/

/-- A database of one of the backends that take direct updates as they are. -/
inductive DirectDatabase
  | array (s : ArrayDatabase)
  | log (s : LogDatabase)

namespace DirectDatabase

/-- Each collection is one that a run leads to. -/
def Reached : DirectDatabase → Prop
  | array s => s.Reached
  | log s => s.Reached

/-- `yk_doc_update_direct_ult` makes no access that a validated request excludes. -/
def UpdateInBounds : DirectDatabase → UpdateRequest → Prop
  | array s, req =>
    InBounds (ykDocUpdateDirectUlt ArrayDatabase.supportsMode ArrayDatabase.docUpdateIn s req)
  | log s, req =>
    InBounds (ykDocUpdateDirectUlt LogDatabase.supportsMode LogDatabase.docUpdateIn s req)

/-- The arrays of the request fit together, as far as an update of the database reads them. -/
def Validates : DirectDatabase → UpdateRequest → Prop
  | array s, req => s.Validates req
  | log s, req => s.Validates req

/-- Direct updates are in bounds exactly if the request is valid, which nothing checks. -/
theorem updateInBounds_iff {db : DirectDatabase} (h : db.Reached) (req : UpdateRequest) :
    db.UpdateInBounds req ↔ db.Validates req := by
  cases db with
  | array s => exact ArrayDatabase.docUpdate_inBounds_iff h req
  | log s => exact LogDatabase.docUpdate_inBounds_iff h req

/-- Databases with one new collection. -/
def newArray : ArrayDatabase := (ArrayDatabase.empty.collCreate nameC).2

def newLog : LogDatabase := ((LogDatabase.ofDirectory 16 16 fun _ => none).collCreate nameC).2

theorem reached_newArray : (array newArray).Reached := by
  intro name coll hcoll
  by_cases hname : name = nameC
  · subst hname
    obtain rfl : {} = coll := Option.some.inj hcoll
    exact ⟨[], Run.nil _⟩
  · have hnone : newArray.collections name = none := Function.update_of_ne hname _ _
    rw [hnone] at hcoll
    cases hcoll

theorem reached_newLog : (log newLog).Reached := by
  refine ⟨show 16 < 2 ^ 63 by decide, fun name c hc => ?_⟩
  by_cases hname : name = nameC
  · subst hname
    obtain rfl : LogCollection.ofFiles 16 16 {} = c := Option.some.inj hc
    exact ⟨16, [], Run.nil _⟩
  · have hnone : newLog.collections name = none := Function.update_of_ne hname _ _
    rw [hnone] at hc
    cases hc

/-- A request for one document, with its size and its byte. -/
theorem updateInBounds_newLog :
    ((log newLog).UpdateInBounds ⟨.updateNew, nameC, [0], [1], [7]⟩ ∧
        (log newLog).Validates ⟨.updateNew, nameC, [0], [1], [7]⟩) ∧
      ¬ (log newLog).Validates ⟨.updateNew, nameC, [0], [1], []⟩ := by
  have hdone : ∃ r, ykDocUpdateDirectUlt LogDatabase.supportsMode LogDatabase.docUpdateIn newLog
      ⟨.updateNew, nameC, [0], [1], [7]⟩ = .ok r := ⟨_, rfl⟩
  have hdocuments : ykDocUpdateDirectUlt LogDatabase.supportsMode LogDatabase.docUpdateIn newLog
      ⟨.updateNew, nameC, [0], [1], []⟩ = .error .documents := rfl
  have hin : (log newLog).UpdateInBounds ⟨.updateNew, nameC, [0], [1], [7]⟩ := by
    obtain ⟨r, hr⟩ := hdone
    show InBounds _
    rw [hr]
    trivial
  refine ⟨⟨hin, (updateInBounds_iff reached_newLog _).1 hin⟩, fun hvalid => ?_⟩
  have hbounds : InBounds _ := (updateInBounds_iff reached_newLog _).2 hvalid
  rw [hdocuments] at hbounds
  cases hbounds

/-- A request without a size for its id reads past the sizes, and one without the document that its
size speaks of reads past the documents. -/
theorem updateInBounds_not :
    (array newArray).Reached ∧ (log newLog).Reached ∧
      (¬ (array newArray).UpdateInBounds ⟨.updateNew, nameC, [0], [], []⟩ ∧
        ¬ (array newArray).UpdateInBounds ⟨.updateNew, nameC, [0], [1], []⟩) ∧
      ¬ (log newLog).UpdateInBounds ⟨.updateNew, nameC, [0], [], []⟩ ∧
        ¬ (log newLog).UpdateInBounds ⟨.updateNew, nameC, [0], [1], []⟩ := by
  refine ⟨reached_newArray, reached_newLog, ⟨?_, ?_⟩, ?_, ?_⟩
  · have hsizes : ykDocUpdateDirectUlt ArrayDatabase.supportsMode ArrayDatabase.docUpdateIn newArray
        ⟨.updateNew, nameC, [0], [], []⟩ = .error .sizes := rfl
    show ¬ InBounds _
    rw [hsizes]
    exact nofun
  · have hdocuments : ykDocUpdateDirectUlt ArrayDatabase.supportsMode ArrayDatabase.docUpdateIn
        newArray ⟨.updateNew, nameC, [0], [1], []⟩ = .error .documents := rfl
    show ¬ InBounds _
    rw [hdocuments]
    exact nofun
  · have hsizes : ykDocUpdateDirectUlt LogDatabase.supportsMode LogDatabase.docUpdateIn newLog
        ⟨.updateNew, nameC, [0], [], []⟩ = .error .sizes := rfl
    show ¬ InBounds _
    rw [hsizes]
    exact nofun
  · have hdocuments : ykDocUpdateDirectUlt LogDatabase.supportsMode LogDatabase.docUpdateIn newLog
        ⟨.updateNew, nameC, [0], [1], []⟩ = .error .documents := rfl
    show ¬ InBounds _
    rw [hdocuments]
    exact nofun

end DirectDatabase

end Yokan
