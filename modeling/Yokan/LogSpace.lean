import Mathlib.Data.List.TakeWhile
import Yokan.LogIndex

/-!
# Yokan: the space of a `log` collection

What every run of `append`, `update` and `erase` keeps of the chunks and the entries, whatever the
batches, failed calls included. `Stands c m` says that the collection holds the documents of `m`,
each in a region of its chunk that ends before the next offset recorded there.

An update may give an empty document to an entry that has no region, since the entry was created
for the update or has been erased. Such an id is `adrift`: it has a size but no offset.

* `writeDocument_stands`, `Stands.inPlace`, `Stands.hole`: what one entry and its document can
  become;
* `append_stands`, `update_stands`, `erase_stands`: the operations, for all batches;
* `run_stands`: a run;
* `counts_throughout_iff`: `coll_size` is the number of documents throughout a run exactly if no
  update counts an id twice;
* `run_allocated`: without updates of ids that have no document, no id is adrift.
-/

namespace Yokan

open Buffer PartialMap Transition LittleEndian

namespace LogCollection

/-- The next offset recorded in a chunk: its first word, or 8 while that is zero. -/
def recorded (c : LogCollection) (chunkId : ℕ) : ℕ :=
  let next := decode (slice (c.chunks chunkId) 0 8)
  if next = 0 then 8 else next

/-- The ids that hold an empty document without a region. -/
def adrift (c : LogCollection) : Set ℕ :=
  {id | id < c.header.nextId ∧ (c.entries id).size = 0 ∧ (c.entries id).offset = keyNotFound}

/-- The collection holds the documents of `m` in the space recorded in its chunks. -/
structure Stands (c : LogCollection) (m : IdMap Bytes) : Prop where
  represents : Represents c m c.adrift
  recorded_le : ∀ k ≤ c.header.lastChunkId, c.recorded k ≤ c.chunkSize
  allocated_le : ∀ id < c.header.nextId, (c.entries id).allocated + 8 ≤ c.chunkSize
  region : ∀ id doc, m.docs id = some doc →
    (c.entries id).offset + (c.entries id).allocated ≤ c.recorded (c.entries id).chunk
  placed : ∀ id doc, m.docs id = some doc → (c.entries id).offset ≠ keyNotFound
  lost : ∀ id < c.header.nextId, m.docs id = none → (c.entries id).offset = keyNotFound

variable {c c' : LogCollection} {m : IdMap Bytes}

namespace Stands

theorem chunked (h : Stands c m) : Chunked c := h.represents.chunked

theorem covers (h : Stands c m) : sizeofEntry + c.header.nextId * sizeofEntry ≤ c.metaSize :=
  h.represents.covers

theorem next_eq (h : Stands c m) : m.next = c.header.nextId := h.represents.next_eq

theorem not_adrift (h : Stands c m) {id : ℕ} {doc : Bytes} (hdoc : m.docs id = some doc) :
    id ∉ c.adrift := fun hmem => h.placed id doc hdoc hmem.2.2

theorem pointsTo (h : Stands c m) {id : ℕ} {doc : Bytes} (hdoc : m.docs id = some doc) :
    c.PointsTo (c.entries id) doc :=
  h.represents.pointsTo hdoc (h.not_adrift hdoc)

/-- An id without document has a hole, or is adrift. -/
theorem size_of_none (h : Stands c m) {id : ℕ} (hid : id < c.header.nextId)
    (hnone : m.docs id = none) : (c.entries id).size = keyNotFound ∨ id ∈ c.adrift := by
  by_cases hmem : id ∈ c.adrift
  · exact Or.inr hmem
  · exact Or.inl ((h.represents.size_eq_iff hid hmem).2 hnone)

end Stands

theorem recorded_lastChunkId : c.recorded c.header.lastChunkId = c.used := rfl

/-! ### A new chunk, and a document behind the others -/

/-- The recorded offsets have not gone back, and they are in their chunks. -/
structure Grew (c c' : LogCollection) : Prop where
  recorded_ge : ∀ k ≤ c.header.lastChunkId, c.recorded k ≤ c'.recorded k
  recorded_le : ∀ k ≤ c'.header.lastChunkId, c'.recorded k ≤ c'.chunkSize

theorem recorded_withChunk {k : ℕ} (hk : k ≤ c.header.lastChunkId) :
    c.withChunk.recorded k = c.recorded k := by
  have hne : k ≠ c.header.lastChunkId + 1 := Nat.ne_of_lt (Nat.lt_succ_of_le hk)
  simp only [recorded, withChunk, mapChunk, Function.update_of_ne hne]

theorem grew_withChunk (h : Stands c m) : Grew c c.withChunk := by
  obtain ⟨hchunked, hused⟩ := chunked_withChunk h.chunked
  refine ⟨fun k hk => (recorded_withChunk hk).ge, fun k hk => ?_⟩
  obtain hlt | rfl := Nat.lt_or_eq_of_le hk
  · rw [recorded_withChunk (Nat.le_of_lt_succ hlt)]
    exact h.recorded_le k (Nat.le_of_lt_succ hlt)
  · rw [recorded_lastChunkId]
    exact hchunked.used_le

theorem recorded_withDocument {doc : Bytes} {k : ℕ} (hk : k ≠ c.header.lastChunkId) :
    (c.withDocument doc).recorded k = c.recorded k := by
  simp only [recorded, chunks_withDocument, if_neg hk]

theorem grew_withDocument (h : Chunked c) (hle : ∀ k ≤ c.header.lastChunkId,
    c.recorded k ≤ c.chunkSize) {doc : Bytes} (hfit : c.used + doc.length ≤ c.chunkSize) :
    Grew c (c.withDocument doc) := by
  have hw := wrote_withDocument h hfit
  refine ⟨fun k hk => ?_, fun k hk => ?_⟩ <;> by_cases hlast : k = c.header.lastChunkId
  · subst hlast
    show c.used ≤ (c.withDocument doc).used
    rw [hw.used_eq]
    exact Nat.le_add_right _ _
  · exact (recorded_withDocument hlast).ge
  · subst hlast
    exact hw.chunked.used_le
  · rw [recorded_withDocument hlast]
    exact hle k hk

/-- Where a document goes when some bytes of the last chunk are used: its chunk, and its offset. -/
def placeFor (chunkSize chunk used size : ℕ) : ℕ × ℕ :=
  if used + size ≤ chunkSize then (chunk, used) else (chunk + 1, 8)

/-- The chunks of documents that are written one behind another. -/
def chunksFor (chunkSize : ℕ) : ℕ → ℕ → List ℕ → List ℕ
  | _, _, [] => []
  | chunk, used, size :: sizes =>
    let (chunk, offset) := placeFor chunkSize chunk used size
    chunk :: chunksFor chunkSize chunk (offset + size) sizes

/-- `writeDocument` writes the document and records where it ends, unless the document and the
first word are too large for a chunk: then it leaves a new chunk behind. -/
theorem writeDocument_stands (h : Stands c m) {doc : Bytes} (hdoc : doc.length ≤ c.chunkSize) :
    (doc.length + 8 ≤ c.chunkSize ∧ ∃ c' offset,
        c.writeDocument c.used doc = .ok (.OK, offset, c') ∧ Wrote c c' offset doc ∧ Grew c c' ∧
        placeFor c.chunkSize c.header.lastChunkId c.used doc.length =
          (c'.header.lastChunkId, offset) ∧ c'.cacheSize = c.cacheSize) ∨
      c.chunkSize < doc.length + 8 ∧
        c.writeDocument c.used doc = .ok (.SizeError, 8, c.withChunk) := by
  have hch := h.chunked
  by_cases hroom : doc.length + 8 ≤ c.chunkSize
  · refine Or.inl ⟨hroom, ?_⟩
    by_cases hfit : c.used + doc.length ≤ c.chunkSize
    · exact ⟨_, _, writeDocument_of_fits hch hfit, wrote_withDocument hch hfit,
        grew_withDocument hch h.recorded_le hfit, if_pos hfit, rfl⟩
    · obtain ⟨hchunked, hused⟩ := chunked_withChunk hch
      have hnew := grew_withChunk h
      have hdocument : Grew c.withChunk (c.withChunk.withDocument doc) :=
        grew_withDocument hchunked hnew.recorded_le (by
          rw [hused]
          show 8 + doc.length ≤ c.chunkSize
          omega)
      refine ⟨_, _, writeDocument_of_full hch (Nat.not_le.1 hfit) hroom, wrote_withChunk hch hroom,
        ⟨fun k hk => ?_, hdocument.recorded_le⟩, if_neg hfit, rfl⟩
      exact (hnew.recorded_ge k hk).trans (hdocument.recorded_ge k (Nat.le_succ_of_le hk))
  · have hlarge := Nat.not_le.1 hroom
    exact Or.inr ⟨hlarge, writeDocument_of_large hch hlarge hdoc⟩

/-- A chunk more holds no document. -/
theorem stands_withChunk (h : Stands c m) : Stands c.withChunk m := by
  have hgrew := grew_withChunk h
  have hpoints : ∀ id doc, m.docs id = some doc → c.withChunk.PointsTo (c.entries id) doc := by
    intro id doc hdoc
    have hp := h.pointsTo hdoc
    have hne : (c.entries id).chunk ≠ c.header.lastChunkId + 1 :=
      Nat.ne_of_lt (Nat.lt_succ_of_le hp.chunk_le)
    refine ⟨hp.size_eq, Nat.le_succ_of_le hp.chunk_le, hp.offset_ge, hp.size_le, ?_, ?_⟩
    · have hlimit : c.withChunk.limit (c.entries id).chunk = c.chunkSize := if_neg hne
      rw [hlimit]
      exact hp.allocated_le.trans (limit_le h.chunked _)
    · simp only [withChunk, mapChunk, Function.update_of_ne hne]
      exact hp.slice_eq
  refine ⟨⟨(chunked_withChunk h.chunked).1, h.covers, h.next_eq, h.represents.fresh, ?_,
    h.represents.apart⟩, hgrew.recorded_le, h.allocated_le, ?_, h.placed, h.lost⟩
  · intro id hid hnot
    have hentry := h.represents.entry id hid hnot
    cases hdoc : m.docs id with
    | none => rwa [hdoc] at hentry
    | some doc => exact hpoints id doc hdoc
  · intro id doc hdoc
    exact (h.region id doc hdoc).trans (hgrew.recorded_ge _ (h.pointsTo hdoc).chunk_le)

/-! ### One entry -/

theorem ne_keyNotFound_of_le (h : Chunked c) {offset n : ℕ} (hle : offset + n ≤ c.chunkSize) :
    offset ≠ keyNotFound := by
  have hlt := h.chunkSize_lt
  have hmax : (2 : ℕ) ^ 63 < keyNotFound := by decide
  omega

/-- The ids adrift after one entry is written. -/
theorem mem_adrift_withEntry {id id' metaSize nextId : ℕ} {e : EntryMetadata} {collSize : UInt64} :
    id' ∈ (c.withEntry id e metaSize nextId collSize).adrift ↔ id' < nextId ∧
      (Function.update c.entries id e id').size = 0 ∧
        (Function.update c.entries id e id').offset = keyNotFound := Iff.rfl

/-- A document behind the others becomes the document of an id. -/
theorem Stands.put (h : Stands c m) {doc : Bytes} {offset : ℕ} (hw : Wrote c c' offset doc)
    (hgrew : Grew c c') (hdoc : doc.length + 8 ≤ c.chunkSize) {id metaSize : ℕ}
    (hid : id ≤ c.header.nextId) (hmeta : c.metaSize ≤ metaSize)
    (hroom : sizeofEntry + (id + 1) * sizeofEntry ≤ metaSize) (collSize : UInt64) :
    let d := c'.withEntry id ⟨c'.header.lastChunkId, offset, doc.length, doc.length⟩ metaSize
      (max c.header.nextId (id + 1)) collSize
    Stands d (m.put id doc) ∧ d.adrift = c.adrift \ {id} := by
  intro d
  have hrep := represents_put h.represents hw hid hmeta hroom collSize
  have hend : offset + doc.length ≤ c'.chunkSize := by
    rw [← hw.used_eq]
    exact hw.chunked.used_le
  have hoffset : offset ≠ keyNotFound := ne_keyNotFound_of_le hw.chunked hend
  have hentries : d.entries = Function.update c.entries id
      ⟨c'.header.lastChunkId, offset, doc.length, doc.length⟩ := by
    rw [← hw.entries_eq]
    rfl
  have hadrift : d.adrift = c.adrift \ {id} := by
    ext id'
    show id' < max c.header.nextId (id + 1) ∧ (d.entries id').size = 0 ∧
      (d.entries id').offset = keyNotFound ↔ _
    rw [hentries]
    by_cases heq : id' = id
    · subst heq
      rw [Function.update_self]
      exact ⟨fun hmem => absurd hmem.2.2 hoffset, fun hmem => absurd rfl hmem.2⟩
    · rw [Function.update_of_ne heq]
      exact ⟨fun hmem => ⟨⟨by omega, hmem.2⟩, heq⟩, fun hmem => ⟨by have := hmem.1.1; omega, hmem.1.2⟩⟩
  refine ⟨⟨by rw [hadrift]; exact hrep, hgrew.recorded_le, ?_, ?_, ?_, ?_⟩, hadrift⟩
  · intro id' hid'
    have hid' : id' < max c.header.nextId (id + 1) := hid'
    show (d.entries id').allocated + 8 ≤ c'.chunkSize
    rw [hentries, hw.chunkSize_eq]
    by_cases heq : id' = id
    · subst heq
      rw [Function.update_self]
      exact hdoc
    · rw [Function.update_of_ne heq]
      exact h.allocated_le id' (by omega)
  · intro id' doc' hdoc'
    show (d.entries id').offset + (d.entries id').allocated ≤ c'.recorded (d.entries id').chunk
    rw [hentries]
    by_cases heq : id' = id
    · subst heq
      rw [Function.update_self]
      exact hw.used_eq.ge
    · rw [IdMap.docs_put, Function.update_of_ne heq] at hdoc'
      rw [Function.update_of_ne heq]
      exact (h.region id' doc' hdoc').trans (hgrew.recorded_ge _ (h.pointsTo hdoc').chunk_le)
  · intro id' doc' hdoc'
    rw [hentries]
    by_cases heq : id' = id
    · subst heq
      rw [Function.update_self]
      exact hoffset
    · rw [IdMap.docs_put, Function.update_of_ne heq] at hdoc'
      rw [Function.update_of_ne heq]
      exact h.placed id' doc' hdoc'
  · intro id' hid' hnone
    have hid' : id' < max c.header.nextId (id + 1) := hid'
    have hne : id' ≠ id := by
      rintro rfl
      rw [IdMap.docs_put, Function.update_self] at hnone
      cases hnone
    rw [IdMap.docs_put, Function.update_of_ne hne] at hnone
    rw [hentries, Function.update_of_ne hne]
    exact h.lost id' (by omega) hnone

theorem recorded_blitChunk {k offset : ℕ} {bytes : Bytes} (hoffset : 8 ≤ offset)
    (hle : offset ≤ (c.chunks k).length) (j : ℕ) :
    (c.blitChunk k offset bytes).recorded j = c.recorded j := by
  by_cases hj : j = k
  · subst hj
    have hslice : slice (blit (c.chunks j) offset bytes) 0 8 = slice (c.chunks j) 0 8 :=
      slice_blit_before hle hoffset
    simp only [recorded, blitChunk, Function.update_self, hslice]
  · simp only [recorded, blitChunk, Function.update_of_ne hj]

/-- A document written over another one. -/
theorem Stands.inPlace (h : Stands c m) {id : ℕ} {old doc : Bytes} (hold : m.docs id = some old)
    (hfit : doc.length ≤ (c.entries id).allocated) (collSize : UInt64) :
    let d := (c.blitChunk (c.entries id).chunk (c.entries id).offset doc).withEntry id
      { c.entries id with size := doc.length } c.metaSize c.header.nextId collSize
    Stands d (m.put id doc) ∧ d.adrift = c.adrift := by
  intro d
  have hp := h.pointsTo hold
  have hlt : id < c.header.nextId := h.represents.lt_next (by rw [hold]; rfl)
  have hrecorded : ∀ k, d.recorded k = c.recorded k := by
    refine recorded_blitChunk hp.offset_ge ?_
    have hlimit := limit_le h.chunked (c.entries id).chunk
    have hle := hp.allocated_le
    rw [h.chunked.length_chunk _ hp.chunk_le]
    omega
  have hentries : d.entries = Function.update c.entries id
      { c.entries id with size := doc.length } := rfl
  have hsame : ∀ id', (d.entries id').offset = (c.entries id').offset ∧
      (d.entries id').allocated = (c.entries id').allocated ∧
        (d.entries id').chunk = (c.entries id').chunk := by
    intro id'
    rw [hentries]
    by_cases heq : id' = id
    · subst heq
      rw [Function.update_self]
      exact ⟨rfl, rfl, rfl⟩
    · rw [Function.update_of_ne heq]
      exact ⟨rfl, rfl, rfl⟩
  have hadrift : d.adrift = c.adrift := by
    ext id'
    rw [mem_adrift_withEntry]
    by_cases heq : id' = id
    · subst heq
      have hplaced := h.placed id' old hold
      rw [Function.update_self]
      exact ⟨fun hmem => absurd hmem.2.2 hplaced, fun hmem => absurd hmem.2.2 hplaced⟩
    · rw [Function.update_of_ne heq]
      exact Iff.rfl
  have hrep := represents_inPlace h.represents hold (h.not_adrift hold) hfit collSize
  refine ⟨⟨by rw [hadrift]; exact hrep, fun k hk => ?_, fun id' hid' => ?_, fun id' doc' hdoc' => ?_,
    fun id' doc' hdoc' => ?_, fun id' hid' hnone => ?_⟩, hadrift⟩
  · rw [hrecorded]
    exact h.recorded_le k hk
  · rw [(hsame id').2.1]
    exact h.allocated_le id' hid'
  · obtain ⟨hoff, halloc, hchunk⟩ := hsame id'
    rw [hoff, halloc, hchunk, hrecorded]
    by_cases heq : id' = id
    · rw [heq]
      exact h.region id old hold
    · rw [IdMap.docs_put, Function.update_of_ne heq] at hdoc'
      exact h.region id' doc' hdoc'
  · rw [(hsame id').1]
    by_cases heq : id' = id
    · rw [heq]
      exact h.placed id old hold
    · rw [IdMap.docs_put, Function.update_of_ne heq] at hdoc'
      exact h.placed id' doc' hdoc'
  · have hne : id' ≠ id := by
      rintro rfl
      rw [IdMap.docs_put, Function.update_self] at hnone
      cases hnone
    rw [IdMap.docs_put, Function.update_of_ne hne] at hnone
    rw [(hsame id').1]
    exact h.lost id' hid' hnone

/-- An entry without region: a hole, or an id adrift. -/
theorem Stands.hole (h : Stands c m) {n : IdMap Bytes} {id metaSize : ℕ} {e : EntryMetadata}
    (hid : id ≤ c.header.nextId)
    (hmeta : sizeofEntry + max c.header.nextId (id + 1) * sizeofEntry ≤ metaSize)
    (hnext : n.next = max c.header.nextId (id + 1))
    (hdocs : n.docs = Function.update m.docs id none) (hoffset : e.offset = keyNotFound)
    (hsize : e.size = 0 ∨ e.size = keyNotFound) (halloc : e.allocated + 8 ≤ c.chunkSize)
    (collSize : UInt64) :
    let d := c.withEntry id e metaSize (max c.header.nextId (id + 1)) collSize
    Stands d n ∧ d.adrift = c.adrift \ {id} ∪ {id' | id' = id ∧ e.size = 0} := by
  intro d
  have hadrift : d.adrift = c.adrift \ {id} ∪ {id' | id' = id ∧ e.size = 0} := by
    ext id'
    rw [mem_adrift_withEntry]
    by_cases heq : id' = id
    · subst heq
      rw [Function.update_self]
      constructor
      · exact fun hmem => Or.inr ⟨rfl, hmem.2.1⟩
      · rintro (hmem | hmem)
        · exact absurd rfl hmem.2
        · exact ⟨by omega, hmem.2, hoffset⟩
    · rw [Function.update_of_ne heq]
      constructor
      · exact fun hmem => Or.inl ⟨⟨by omega, hmem.2⟩, heq⟩
      · rintro (hmem | hmem)
        · exact ⟨by have := hmem.1.1; omega, hmem.1.2⟩
        · exact absurd hmem.1 heq
  have hkept : ∀ id' doc, n.docs id' = some doc → id' ≠ id ∧ m.docs id' = some doc := by
    intro id' doc hdoc
    rw [hdocs] at hdoc
    have hne : id' ≠ id := by
      rintro rfl
      rw [Function.update_self] at hdoc
      cases hdoc
    rw [Function.update_of_ne hne] at hdoc
    exact ⟨hne, hdoc⟩
  have hrep := represents_hole h.represents n d.adrift e collSize hid hmeta hnext hdocs
    (by rw [hadrift]; exact Set.subset_union_left)
    (by rw [hadrift]; exact hsize.imp_left fun hzero => Or.inr ⟨rfl, hzero⟩)
  refine ⟨⟨hrep, h.recorded_le, fun id' hid' => ?_, fun id' doc hdoc => ?_, fun id' doc hdoc => ?_,
    fun id' hid' hnone => ?_⟩, hadrift⟩
  · have hid' : id' < max c.header.nextId (id + 1) := hid'
    show (Function.update c.entries id e id').allocated + 8 ≤ c.chunkSize
    by_cases heq : id' = id
    · rw [heq, Function.update_self]
      exact halloc
    · rw [Function.update_of_ne heq]
      exact h.allocated_le id' (by omega)
  · obtain ⟨hne, hdoc⟩ := hkept id' doc hdoc
    show (Function.update c.entries id e id').offset + (Function.update c.entries id e id').allocated ≤
      c.recorded (Function.update c.entries id e id').chunk
    rw [Function.update_of_ne hne]
    exact h.region id' doc hdoc
  · obtain ⟨hne, hdoc⟩ := hkept id' doc hdoc
    show (Function.update c.entries id e id').offset ≠ keyNotFound
    rw [Function.update_of_ne hne]
    exact h.placed id' doc hdoc
  · have hid' : id' < max c.header.nextId (id + 1) := hid'
    show (Function.update c.entries id e id').offset = keyNotFound
    by_cases heq : id' = id
    · rw [heq, Function.update_self]
      exact hoffset
    · rw [hdocs, Function.update_of_ne heq] at hnone
      rw [Function.update_of_ne heq]
      exact h.lost id' (by omega) hnone

/-! ### `append` -/

/-- The documents of a batch before the first one that is too large for a chunk. -/
def storable (chunkSize : ℕ) (sizes : List ℕ) : List ℕ :=
  sizes.takeWhile fun size => size + 8 ≤ chunkSize

theorem storable_cons_of_le {chunkSize size : ℕ} (h : size + 8 ≤ chunkSize) (sizes : List ℕ) :
    storable chunkSize (size :: sizes) = size :: storable chunkSize sizes :=
  List.takeWhile_cons_of_pos (decide_eq_true h)

theorem storable_cons_of_lt {chunkSize size : ℕ} (h : chunkSize < size + 8) (sizes : List ℕ) :
    storable chunkSize (size :: sizes) = [] :=
  List.takeWhile_cons_of_neg (by rw [decide_eq_true_eq]; exact Nat.not_le.2 h)

theorem storable_eq_self {chunkSize : ℕ} {sizes : List ℕ} :
    storable chunkSize sizes = sizes ↔ ∀ size ∈ sizes, size + 8 ≤ chunkSize := by
  rw [storable, List.takeWhile_eq_self_iff]
  simp only [decide_eq_true_eq]

/-- The documents of an `append` are where `chunksFor` says, and the entries before are the same. -/
structure Appended (c c' : LogCollection) (sizes : List ℕ) : Prop where
  cacheSize_eq : c'.cacheSize = c.cacheSize
  entries_eq : ∀ id < c.header.nextId, c'.entries id = c.entries id
  chunks_eq : (List.range' c.header.nextId sizes.length).map (fun id => (c'.entries id).chunk) =
    chunksFor c.chunkSize c.header.lastChunkId c.used sizes
  lastChunkId_eq : c'.header.lastChunkId =
    (chunksFor c.chunkSize c.header.lastChunkId c.used sizes).getLastD c.header.lastChunkId

/-- One document more in front of the others. -/
theorem Appended.cons {c₁ : LogCollection} {size offset : ℕ} {sizes : List ℕ}
    (h : Appended c₁ c' sizes) (hcache : c₁.cacheSize = c.cacheSize)
    (hnext : c₁.header.nextId = c.header.nextId + 1) (hchunkSize : c₁.chunkSize = c.chunkSize)
    (hused : c₁.used = offset + size) {e : EntryMetadata}
    (hentries : c₁.entries = Function.update c.entries c.header.nextId e)
    (he : e.chunk = c₁.header.lastChunkId)
    (hplace : placeFor c.chunkSize c.header.lastChunkId c.used size =
      (c₁.header.lastChunkId, offset)) : Appended c c' (size :: sizes) := by
  have hchunks : chunksFor c.chunkSize c.header.lastChunkId c.used (size :: sizes) =
      c₁.header.lastChunkId :: chunksFor c₁.chunkSize c₁.header.lastChunkId c₁.used sizes := by
    rw [chunksFor, hplace, hchunkSize, hused]
  refine ⟨h.cacheSize_eq.trans hcache, fun id hid => ?_, ?_, ?_⟩
  · rw [h.entries_eq id (by omega), hentries, Function.update_of_ne hid.ne]
  · rw [hchunks, List.length_cons, List.range'_succ, List.map_cons, ← h.chunks_eq, hnext,
      h.entries_eq _ (by omega), hentries, Function.update_self, he]
  · rw [hchunks, List.getLastD_cons]
    exact h.lastChunkId_eq

/-- The loop of `append`: the documents before the first one that is too large for a chunk are
stored, and the status tells whether there is one. -/
theorem appendLoop_stands {data : Bytes} {sizes : List ℕ} (docOffset : ℕ) (ids : List UInt64)
    (h : Stands c m) (hsizes : ∀ size ∈ sizes, size ≤ c.chunkSize)
    (hdata : docOffset + sizes.sum ≤ data.length) :
    Ensures (· = .fileTooLarge) (appendLoop data sizes docOffset c.used c ids) (fun r =>
      Stands r.2.2 (m.append (unpack (data.drop docOffset) (storable c.chunkSize sizes))) ∧
        r.2.2.chunkSize = c.chunkSize ∧ r.2.2.adrift = c.adrift ∧
        (r.1 = .OK ↔ ∀ size ∈ sizes, size + 8 ≤ c.chunkSize) ∧
        (r.1 = .OK → r.2.1 =
          ids ++ (List.range' c.header.nextId sizes.length).map UInt64.ofNat ∧
          Appended c r.2.2 sizes)) := by
  induction sizes generalizing c m docOffset ids with
  | nil =>
    exact ⟨h, rfl, rfl, ⟨fun _ => by simp, fun _ => rfl⟩, fun _ => ⟨by simp, rfl, fun _ _ => rfl,
      rfl, rfl⟩⟩
  | cons size sizes ih =>
    rw [List.sum_cons] at hdata
    have hlen : (slice data docOffset size).length = size := length_slice_of_le (by omega)
    have hle : (slice data docOffset size).length ≤ c.chunkSize := by
      rw [hlen]
      exact hsizes size List.mem_cons_self
    have hnext : m.next = c.header.nextId := h.next_eq
    unfold appendLoop
    obtain ⟨hroom, c₁, offset, hwrite, hw, hgrew, hplace, hcache⟩ | ⟨hlarge, hwrite⟩ :=
      writeDocument_stands h hle
    · -- the document is stored, and its id is the next one
      rw [hlen] at hroom hplace
      have hcovers : sizeofEntry + c₁.header.nextId * sizeofEntry ≤ c₁.metaSize := by
        rw [hw.nextId_eq, hw.metaSize_eq]
        exact h.covers
      have hid : c.header.nextId ≤ c₁.header.nextId := hw.nextId_eq.ge
      have hmeta : sizeofEntry + (c.header.nextId + 1) * sizeofEntry ≤
          c₁.metaSizeFor c.header.nextId := room_metaSizeFor hcovers hid
      rw [hwrite]
      show Ensures _ (writeEntryMetadata c₁ _ _ >>= _) _
      refine Ensures.bind (writeEntryMetadata_spec hcovers hid _) ?_
      rintro ⟨status, c₂⟩ hr
      obtain ⟨rfl, rfl⟩ := Prod.mk.inj hr
      obtain ⟨hput, hadrift⟩ := h.put hw hgrew (by rw [hlen]; exact hroom) (le_refl c.header.nextId)
        (hw.metaSize_eq.ge.trans (metaSize_le_metaSizeFor _)) hmeta (c₁.header.collSize + 1)
      rw [hlen, Nat.max_eq_right (Nat.le_succ _)] at hput hadrift
      have hnew : c.header.nextId ∉ c.adrift := fun hmem => lt_irrefl _ hmem.1
      rw [Set.sdiff_singleton_eq_self hnew] at hadrift
      have hused : used (c₁.withEntry c.header.nextId ⟨c₁.header.lastChunkId, offset, size, size⟩
          (c₁.metaSizeFor c.header.nextId) (c.header.nextId + 1) (c₁.header.collSize + 1)) =
          offset + size := by
        rw [← hlen]
        exact hw.used_eq
      have hchunkSize : (c₁.withEntry c.header.nextId ⟨c₁.header.lastChunkId, offset, size, size⟩
          (c₁.metaSizeFor c.header.nextId) (c.header.nextId + 1) (c₁.header.collSize + 1)).chunkSize =
          c.chunkSize := hw.chunkSize_eq
      have hrest := ih (docOffset + size) (ids ++ [UInt64.ofNat c.header.nextId]) hput
        (by rw [hchunkSize]; exact fun size' hsize' => hsizes size' (List.mem_cons_of_mem _ hsize'))
        (by omega)
      rw [hused, hchunkSize] at hrest
      refine hrest.mono ?_
      rintro r ⟨hstands, hchunkSize', hadrift', hstatus, hids⟩
      refine ⟨?_, hchunkSize', hadrift'.trans hadrift, ?_, fun hok => ⟨?_, ?_⟩⟩
      · rw [storable_cons_of_le hroom, unpack_cons, List.drop_drop, IdMap.append,
          List.foldl_cons, hnext]
        exact hstands
      · rw [hstatus, List.forall_mem_cons]
        exact (and_iff_right hroom).symm
      · rw [(hids hok).1, List.append_assoc, List.length_cons, List.range'_succ]
        rfl
      · exact (hids hok).2.cons hcache rfl hchunkSize hused
          (congrArg (Function.update · _ _) hw.entries_eq) rfl hplace
    · -- the loop returns the error, with a chunk that nothing was written to
      rw [hlen] at hlarge
      rw [hwrite, storable_cons_of_lt hlarge]
      have hrefused : Status.SizeError ≠ .OK := fun hok => by cases hok
      refine ⟨stands_withChunk h, rfl, rfl, ⟨fun hok => absurd hok hrefused, fun hall => ?_⟩,
        fun hok => absurd hok hrefused⟩
      exact absurd (hall size List.mem_cons_self) (Nat.not_le.2 hlarge)

/-- `append` of a batch: it is refused, or the documents before the first one that is too large for
a chunk are stored. -/
theorem append_stands {batch : DocBatch} {ids : List UInt64} (h : Stands c m)
    (hholds : batch.Holds ids.length) :
    Ensures (· = .fileTooLarge) (c.append batch.documents batch.sizes ids) (fun r =>
      (r = (.SizeError, ids, c) ∧ ∃ size ∈ batch.sizes, c.chunkSize < size) ∨
        (∀ size ∈ batch.sizes, size ≤ c.chunkSize) ∧
        Stands r.2.2 (m.append (unpack batch.documents (storable c.chunkSize batch.sizes))) ∧
        r.2.2.chunkSize = c.chunkSize ∧ r.2.2.adrift = c.adrift ∧
        (r.1 = .OK ↔ ∀ size ∈ batch.sizes, size + 8 ≤ c.chunkSize) ∧
        (r.1 = .OK →
          r.2.1 = (List.range' c.header.nextId ids.length).map UInt64.ofNat ∧
          Appended c r.2.2 batch.sizes)) := by
  obtain ⟨hcount, hsum⟩ := hholds
  unfold append
  split_ifs with hany
  · rw [List.any_eq_true] at hany
    obtain ⟨size, hsize, hlt⟩ := hany
    exact Or.inl ⟨rfl, size, hsize, of_decide_eq_true hlt⟩
  · have hsizes : ∀ size ∈ batch.sizes, size ≤ c.chunkSize := by
      intro size hsize
      by_contra hlt
      exact hany (List.any_eq_true.2 ⟨size, hsize, decide_eq_true (Nat.not_le.1 hlt)⟩)
    rw [nextOffset_eq h.chunked]
    show Ensures _ (appendLoop _ _ _ _ _ _ >>= _) _
    refine Ensures.bind (appendLoop_stands 0 [] h hsizes (by rwa [Nat.zero_add])) ?_
    rintro ⟨status, assigned, c'⟩ ⟨hstands, hchunkSize, hadrift, hstatus, hids⟩
    refine Or.inr ⟨hsizes, hstands, hchunkSize, hadrift, hstatus, fun hok => ⟨?_, (hids hok).2⟩⟩
    have hassigned : assigned = (List.range' c.header.nextId ids.length).map UInt64.ofNat := by
      rw [hcount]
      exact (hids hok).1
    show assigned ++ ids.drop assigned.length = _
    rw [hassigned, List.length_map, List.length_range', List.drop_length, List.append_nil]

/-! ### `update` -/

/-- The loop that creates entries. -/
theorem createEntries_stands {n : ℕ} (h : Stands c m) :
    Ensures (· = .fileTooLarge) (createEntries n c) (fun r =>
      r.1 = .OK ∧ r.2.chunkSize = c.chunkSize ∧ r.2.header.nextId = c.header.nextId + n ∧
        r.2.allocatedFor = c.allocatedFor ∧ r.2.adrift = c.adrift ∧
        Stands r.2 ⟨m.next + n, m.docs⟩) := by
  induction n generalizing c m with
  | zero => exact ⟨rfl, rfl, rfl, rfl, rfl, h⟩
  | succ n ih =>
    have hnext := h.next_eq
    have hmax : max c.header.nextId (c.header.nextId + 1) = c.header.nextId + 1 :=
      max_eq_right (Nat.le_succ _)
    have hroom : sizeofEntry + max c.header.nextId (c.header.nextId + 1) * sizeofEntry ≤
        c.metaSizeFor c.header.nextId := by
      rw [hmax]
      exact room_metaSizeFor h.covers le_rfl
    have hge := h.chunked.chunkSize_ge
    obtain ⟨hstands, hadrift⟩ := h.hole (n := ⟨m.next + 1, m.docs⟩)
      (e := ⟨c.header.lastChunkId, keyNotFound, keyNotFound, 0⟩) le_rfl hroom (by rw [hmax, hnext])
      (Function.update_eq_self_iff.2 (h.represents.fresh _ hnext.le).symm).symm rfl (Or.inr rfl)
      (by omega) c.header.collSize
    have hnew : c.adrift \ {c.header.nextId} ∪ {id' | id' = c.header.nextId ∧ keyNotFound = 0} =
        c.adrift := by
      have hne : keyNotFound ≠ 0 := by decide
      have hfresh : c.header.nextId ∉ c.adrift := fun hmem => lt_irrefl _ hmem.1
      rw [Set.sdiff_singleton_eq_self hfresh]
      simp [hne]
    rw [hmax] at hstands hadrift
    unfold createEntries
    refine Ensures.bind (writeEntryMetadata_spec h.covers le_rfl _) ?_
    rintro ⟨status, c₁⟩ hr
    obtain ⟨rfl, rfl⟩ := Prod.mk.inj hr
    refine Ensures.mono (ih hstands) fun r hr => ⟨hr.1, hr.2.1, ?_, ?_, ?_, ?_⟩
    · rw [hr.2.2.1, Nat.add_comm n 1, ← Nat.add_assoc]
      rfl
    · have hole := allocatedFor_hole (c := c)
        (e := ⟨c.header.lastChunkId, keyNotFound, keyNotFound, 0⟩) rfl
        (c.metaSizeFor c.header.nextId) c.header.collSize
      exact hr.2.2.2.1.trans hole
    · exact hr.2.2.2.2.1.trans (hadrift.trans hnew)
    · rw [Nat.add_comm n 1, ← Nat.add_assoc]
      exact hr.2.2.2.2.2

/-- A document cannot be written to an entry without region: the chunk is null, or the write leaves
it. -/
theorem overwrite_lost {e : EntryMetadata} {doc : Bytes} (h : Chunked c)
    (hoffset : e.offset = keyNotFound) (halloc : e.allocated ≤ c.chunkSize) (hne : doc ≠ [])
    (hfit : doc.length ≤ e.allocated) :
    Ensures (fun _ => True) (c.overwrite e doc) (fun _ => False) := by
  have hpos := List.length_pos_iff.2 hne
  have hlt := h.chunkSize_lt
  have hmax : keyNotFound = 2 ^ 64 - 1 := rfl
  have hwrap : addSize keyNotFound doc.length = doc.length - 1 := by
    unfold addSize
    omega
  unfold overwrite
  rw [if_pos hpos.ne']
  cases hchunk : c.derefChunk e.chunk with
  | error err => trivial
  | ok c₁ =>
    show Ensures _ (c₁.writeChunk e.chunk e.offset doc) _
    unfold writeChunk
    rw [hoffset, hwrap, chunkSize_derefChunk hchunk, h.header_chunkSize, if_neg (by omega),
      if_pos (by omega)]
    trivial

/-- The documents are in the same chunks, and as much of the last one is used. -/
structure SamePlaces (c c' : LogCollection) : Prop where
  cacheSize_eq : c'.cacheSize = c.cacheSize
  lastChunkId_eq : c'.header.lastChunkId = c.header.lastChunkId
  used_eq : c'.used = c.used
  chunk_eq : ∀ id, (c'.entries id).chunk = (c.entries id).chunk

theorem SamePlaces.rfl : SamePlaces c c := ⟨Eq.refl _, Eq.refl _, Eq.refl _, fun _ => Eq.refl _⟩

theorem SamePlaces.trans {c₁ c₂ c₃ : LogCollection} (h : SamePlaces c₁ c₂)
    (h' : SamePlaces c₂ c₃) : SamePlaces c₁ c₃ where
  cacheSize_eq := h'.cacheSize_eq.trans h.cacheSize_eq
  lastChunkId_eq := h'.lastChunkId_eq.trans h.lastChunkId_eq
  used_eq := h'.used_eq.trans h.used_eq
  chunk_eq id := (h'.chunk_eq id).trans (h.chunk_eq id)

/-- A document in the chunk of the entry it is for. -/
theorem SamePlaces.withEntry (h : SamePlaces c c') (hentries : c'.entries = c.entries) (id : ℕ)
    {e : EntryMetadata} (he : e.chunk = (c.entries id).chunk) (metaSize nextId : ℕ)
    (collSize : UInt64) : SamePlaces c (c'.withEntry id e metaSize nextId collSize) where
  cacheSize_eq := h.cacheSize_eq
  lastChunkId_eq := h.lastChunkId_eq
  used_eq := h.used_eq
  chunk_eq id' := by
    show (Function.update c'.entries id e id').chunk = _
    rw [hentries]
    by_cases heq : id' = id
    · rw [heq, Function.update_self, he]
    · rw [Function.update_of_ne heq]

section Passes

variable {alloc : ℕ → ℕ} {live : ℕ → Bool} {data : Bytes}

/-- A step of the first pass: an error, a document in the region of another one, an id that becomes
adrift, or a document left to the second pass. -/
theorem inPlacePass_stands_step (docs : List (UInt64 × ℕ)) {docOffset size : ℕ}
    (es : List EntryMetadata) {id : UInt64} {doc : Bytes} (h : Stands c m)
    (halloc : ∀ id < c.header.nextId, (c.entries id).allocated = alloc id)
    (hlive : ∀ id, (m.docs id).isSome = live id) (hid : id.toNat < c.header.nextId)
    (hdoc : slice data docOffset size = doc) (hlen : doc.length = size) :
    Ensures (fun _ => True) (inPlacePass data ((id, size) :: docs) docOffset c es)
        (fun _ => False) ∨
      ∃ c' e m', inPlacePass data ((id, size) :: docs) docOffset c es =
          inPlacePass data docs (docOffset + size) c' (es ++ [e]) ∧
        e.allocated = alloc id.toNat ∧ c'.chunkSize = c.chunkSize ∧
        c'.header.nextId = c.header.nextId ∧ SamePlaces c c' ∧
        (∀ id < c.header.nextId, (c'.entries id).allocated = alloc id) ∧
        (∀ id, (m'.docs id).isSome = live id) ∧ Stands c' m' ∧
        m' = m.write ([(id.toNat, doc)].filter fun p => reuses alloc p && live p.1) ∧
        c'.adrift = c.adrift ∪ {id' | live id' = false ∧
          id' = id.toNat ∧ reuses alloc (id.toNat, doc) = true} := by
  have hallocated := halloc id.toNat hid
  have hreuses : reuses alloc (id.toNat, doc) = decide (size ≤ alloc id.toNat) := by
    rw [← hlen]
    rfl
  by_cases hfit : size ≤ alloc id.toNat
  · rw [hreuses, decide_eq_true hfit]
    have hfit' : doc.length ≤ (c.entries id.toNat).allocated := by
      rw [hlen, hallocated]
      exact hfit
    have hsame : ∀ id' < c.header.nextId, (Function.update c.entries id.toNat
        { c.entries id.toNat with size } id').allocated = alloc id' := fun id' hid' =>
      update_allocated (e := { c.entries id.toNat with size }) hid halloc rfl hid'
    cases hold : m.docs id.toNat with
    | some old =>
      -- the document is written over another one, if its chunk can be got at
      have hl : live id.toNat = true := by rw [← hlive, hold]; rfl
      by_cases hfails : doc.length ≠ 0 ∧ ¬ c.Reaches (c.entries id.toNat).chunk
      · left
        rw [inPlacePass_of_not_reaches h.chunked docs es h.covers hid (h.pointsTo hold) hfails.2
          (by rw [hallocated]; exact hfit) (by rw [hdoc]; exact hfails.1)]
        trivial
      have hover : c.overwrite (c.entries id.toNat) doc =
          .ok (.OK, c.blitChunk (c.entries id.toNat).chunk (c.entries id.toNat).offset doc) := by
        rw [not_and_or, not_not, not_not] at hfails
        rcases hfails with hempty | hreaches
        · rw [List.length_eq_zero_iff.1 hempty, overwrite_nil]
        · exact overwrite_of_pointsTo h.chunked (h.pointsTo hold) hreaches hfit'
      obtain ⟨collSize, hpass⟩ := inPlacePass_cons docs es h.covers hid rfl
        (by rw [hallocated]; exact hfit) hdoc hover
      obtain ⟨hstands, hadrift⟩ := h.inPlace hold hfit' collSize
      rw [hlen] at hstands hadrift
      have hone : [(id.toNat, doc)].filter (fun p => reuses alloc p && live p.1) =
          [(id.toNat, doc)] := by
        simp [hreuses, hfit, hl]
      have hnone : c.adrift ∪ {id' | live id' = false ∧ id' = id.toNat ∧ true = true} =
          c.adrift := by
        refine Set.union_eq_left.2 fun id' hmem => ?_
        have hdead := hmem.1
        rw [hmem.2.1, hl] at hdead
        cases hdead
      rw [hone, hnone]
      have hp := h.pointsTo hold
      have hblit : (c.blitChunk (c.entries id.toNat).chunk (c.entries id.toNat).offset doc).used =
          c.used := (chunked_blitChunk h.chunked hp.chunk_le hp.offset_ge
        ((Nat.add_le_add_left hfit' _).trans (hp.allocated_le.trans (limit_le h.chunked _)))).2
      have hplaces : SamePlaces c (c.blitChunk (c.entries id.toNat).chunk
          (c.entries id.toNat).offset doc) := ⟨rfl, rfl, hblit, fun _ => rfl⟩
      refine Or.inr ⟨_, _, _, hpass, hallocated, rfl, rfl, hplaces.withEntry rfl _
        (e := { c.entries id.toNat with size }) rfl _ _ _, hsame, fun id' => ?_, hstands, rfl, hadrift⟩
      show (Function.update m.docs id.toNat (some doc) id').isSome = live id'
      by_cases heq : id' = id.toNat
      · rw [heq, Function.update_self, hl]
        rfl
      · rw [Function.update_of_ne heq, hlive]
    | none =>
      have hl : live id.toNat = false := by rw [← hlive, hold]; rfl
      have hoffset := h.lost id.toNat hid hold
      have hle := h.allocated_le id.toNat hid
      by_cases hempty : doc = []
      · -- an empty document gives the id a size, and no offset
        have hzero : size = 0 := by rw [← hlen, hempty]; rfl
        obtain ⟨collSize, hpass⟩ := inPlacePass_cons docs es h.covers hid rfl
          (by rw [hallocated]; exact hfit) hdoc (by rw [hempty]; exact overwrite_nil _)
        have hnil : c.blitChunk (c.entries id.toNat).chunk (c.entries id.toNat).offset doc = c := by
          simp [blitChunk, hempty]
        rw [hnil] at hpass
        have hmax : max c.header.nextId (id.toNat + 1) = c.header.nextId := max_eq_left hid
        have hcovers : sizeofEntry + max c.header.nextId (id.toNat + 1) * sizeofEntry ≤
            c.metaSize := by
          rw [hmax]
          exact h.covers
        obtain ⟨hstands, hadrift⟩ := h.hole (n := m)
          (e := ⟨(c.entries id.toNat).chunk, (c.entries id.toNat).offset, size,
            (c.entries id.toNat).allocated⟩) hid.le hcovers (by rw [hmax, h.next_eq])
          (Function.update_eq_self_iff.2 hold.symm).symm hoffset (Or.inl hzero) hle collSize
        rw [hmax] at hstands hadrift
        have hno : [(id.toNat, doc)].filter (fun p => reuses alloc p && live p.1) = [] := by
          simp [hl]
        rw [hno]
        refine Or.inr ⟨_, _, _, hpass, hallocated, rfl, rfl, SamePlaces.rfl.withEntry rfl _
          (e := { c.entries id.toNat with size }) rfl _ _ _, hsame, hlive, hstands, rfl, ?_⟩
        rw [hadrift, hzero]
        ext id'
        simp only [Set.mem_union, Set.mem_sdiff, Set.mem_singleton_iff, Set.mem_ofPred_eq, and_true]
        constructor
        · rintro (hmem | rfl)
          · exact Or.inl hmem.1
          · exact Or.inr ⟨hl, rfl⟩
        · rintro (hmem | hmem)
          · by_cases heq : id' = id.toNat
            · exact Or.inr heq
            · exact Or.inl ⟨hmem, heq⟩
          · exact Or.inr hmem.2
      · left
        have hover := overwrite_lost h.chunked hoffset (by omega) hempty hfit'
        unfold inPlacePass
        rw [readEntryMetadata_of_lt h.covers hid]
        dsimp only
        rw [if_neg (not_not.2 rfl), if_neg (by rw [hallocated]; exact Nat.not_lt.2 hfit), hdoc]
        exact Ensures.bind hover fun _ hfalse => hfalse.elim
  · right
    have hskip : inPlacePass data ((id, size) :: docs) docOffset c es =
        inPlacePass data docs (docOffset + size) c (es ++ [c.entries id.toNat]) := by
      have hlt : (c.entries id.toNat).allocated < size := by rw [hallocated]; omega
      conv_lhs => unfold inPlacePass
      rw [readEntryMetadata_of_lt h.covers hid]
      dsimp only
      rw [if_neg (not_not.2 rfl), if_pos hlt]
    have hno : [(id.toNat, doc)].filter (fun p => reuses alloc p && live p.1) = [] := by
      simp [hreuses, hfit]
    have hnone : c.adrift ∪ {id' | live id' = false ∧ id' = id.toNat ∧ false = true} =
        c.adrift := by
      simp
    rw [hno, hreuses, decide_eq_false hfit, hnone]
    exact ⟨c, _, m, hskip, hallocated, rfl, rfl, .rfl, halloc, hlive, h, rfl, rfl⟩

/-- The first pass: the documents that fit in the regions of documents are written there, and the
ids without document that a document fits in the space of are adrift. It stops with an error when
such a document is not empty. -/
theorem inPlacePass_stands {docs : List (UInt64 × ℕ)} (docOffset : ℕ) (es : List EntryMetadata)
    (h : Stands c m) (halloc : ∀ id < c.header.nextId, (c.entries id).allocated = alloc id)
    (hlive : ∀ id, (m.docs id).isSome = live id) (hids : ∀ p ∈ docs, p.1.toNat < c.header.nextId)
    (hdata : docOffset + (docs.map Prod.snd).sum ≤ data.length) :
    Ensures (fun _ => True) (inPlacePass data docs docOffset c es) (fun r =>
      r.1 = .OK ∧ (∃ es', r.2.1 = es ++ es' ∧
        es'.map EntryMetadata.allocated = docs.map (fun p => alloc p.1.toNat)) ∧
      r.2.2.chunkSize = c.chunkSize ∧ r.2.2.header.nextId = c.header.nextId ∧
      SamePlaces c r.2.2 ∧ Stands r.2.2
        (m.write ((docsAt data docOffset docs).filter fun p => reuses alloc p && live p.1)) ∧
      r.2.2.adrift = c.adrift ∪ {id | live id = false ∧
        ∃ p ∈ docsAt data docOffset docs, id = p.1 ∧ reuses alloc p = true}) := by
  induction docs generalizing c m docOffset es with
  | nil =>
    have hnone : c.adrift ∪ {id | live id = false ∧
        ∃ p ∈ docsAt data docOffset [], id = p.1 ∧ reuses alloc p = true} = c.adrift := by
      simp [docsAt]
    rw [hnone]
    exact ⟨rfl, ⟨[], (List.append_nil es).symm, rfl⟩, rfl, rfl, .rfl, h, rfl⟩
  | cons p docs ih =>
    obtain ⟨id, size⟩ := p
    rw [List.map_cons, List.sum_cons] at hdata
    have hid : id.toNat < c.header.nextId := hids (id, size) List.mem_cons_self
    have hids' : ∀ p ∈ docs, p.1.toNat < c.header.nextId :=
      fun p hp => hids p (List.mem_cons_of_mem _ hp)
    have hlen : (slice data docOffset size).length = size := length_slice_of_le (by omega)
    obtain herror | ⟨c₁, e, m₁, hstep, hallocated, hchunkSize, hnext, hplaces, halloc₁, hlive₁, h₁,
      hm₁, hadrift⟩ := inPlacePass_stands_step docs es h halloc hlive hid rfl hlen
    · exact herror.mono fun _ hfalse => hfalse.elim
    · rw [hstep]
      refine (ih (docOffset + size) (es ++ [e]) h₁ (by rw [hnext]; exact halloc₁) hlive₁
        (by rw [hnext]; exact hids') (by omega)).mono ?_
      rintro r ⟨hok, ⟨es', hes, hes'⟩, hchunkSize', hnext', hplaces', hstands, hadrift'⟩
      refine ⟨hok, ⟨e :: es', by rw [hes, List.append_assoc]; rfl, ?_⟩,
        hchunkSize'.trans hchunkSize, hnext'.trans hnext, hplaces.trans hplaces', ?_, ?_⟩
      · rw [List.map_cons, hallocated, hes']
        rfl
      · rw [docsAt_cons]
        rw [hm₁, IdMap.write_write, ← List.filter_append] at hstands
        exact hstands
      · rw [hadrift', hadrift, docsAt_cons]
        ext id'
        simp only [Set.mem_union, Set.mem_ofPred_eq, List.mem_cons, exists_eq_or_imp]
        tauto

/-- The documents that the second pass writes: those that do not fit in the space of their entry,
up to the first one that is also too large for a chunk. -/
def appended (alloc : ℕ → ℕ) (chunkSize : ℕ) (docs : List (ℕ × Bytes)) : List (ℕ × Bytes) :=
  (docs.takeWhile fun p => reuses alloc p || decide (p.2.length + 8 ≤ chunkSize)).filter fun p =>
    !reuses alloc p

theorem appended_cons_reused {chunkSize : ℕ} {p : ℕ × Bytes} (h : reuses alloc p = true)
    (docs : List (ℕ × Bytes)) :
    appended alloc chunkSize (p :: docs) = appended alloc chunkSize docs := by
  rw [appended, List.takeWhile_cons_of_pos (by rw [h, Bool.true_or]), List.filter_cons, h]
  rfl

theorem appended_cons_written {chunkSize : ℕ} {p : ℕ × Bytes} (h : reuses alloc p = false)
    (hroom : p.2.length + 8 ≤ chunkSize) (docs : List (ℕ × Bytes)) :
    appended alloc chunkSize (p :: docs) = p :: appended alloc chunkSize docs := by
  rw [appended, List.takeWhile_cons_of_pos (by rw [h, Bool.false_or, decide_eq_true hroom]),
    List.filter_cons, h]
  rfl

theorem appended_cons_large {chunkSize : ℕ} {p : ℕ × Bytes} (h : reuses alloc p = false)
    (hlarge : chunkSize < p.2.length + 8) (docs : List (ℕ × Bytes)) :
    appended alloc chunkSize (p :: docs) = [] := by
  rw [appended, List.takeWhile_cons_of_neg
    (by rw [h, Bool.false_or, decide_eq_true_eq]; exact Nat.not_le.2 hlarge), List.filter_nil]

/-- The chunks of documents that are written behind those of a collection. -/
def chunksOf (c : LogCollection) (docs : List (ℕ × Bytes)) : List ℕ :=
  chunksFor c.chunkSize c.header.lastChunkId c.used (docs.map fun p => p.2.length)

/-- Documents are behind the others; an entry has the chunk of the last one for its id. -/
structure Behind (c c' : LogCollection) (docs : List (ℕ × Bytes)) : Prop where
  cacheSize_eq : c'.cacheSize = c.cacheSize
  lastChunkId_eq : c'.header.lastChunkId = (c.chunksOf docs).getLastD c.header.lastChunkId
  chunk_eq : ∀ id, (c'.entries id).chunk =
    (IdMap.listed id ((docs.map Prod.fst).zip (c.chunksOf docs))).getLastD (c.entries id).chunk

/-- One document more in front of the others. -/
theorem Behind.cons {c₁ : LogCollection} {p : ℕ × Bytes} {offset : ℕ} {docs : List (ℕ × Bytes)}
    (h : Behind c₁ c' docs) (hcache : c₁.cacheSize = c.cacheSize)
    (hchunkSize : c₁.chunkSize = c.chunkSize) (hused : c₁.used = offset + p.2.length)
    {e : EntryMetadata} (hentries : c₁.entries = Function.update c.entries p.1 e)
    (he : e.chunk = c₁.header.lastChunkId)
    (hplace : placeFor c.chunkSize c.header.lastChunkId c.used p.2.length =
      (c₁.header.lastChunkId, offset)) : Behind c c' (p :: docs) := by
  have hchunks : c.chunksOf (p :: docs) = c₁.header.lastChunkId :: c₁.chunksOf docs := by
    unfold chunksOf
    rw [List.map_cons, chunksFor, hplace, hchunkSize, hused]
  refine ⟨h.cacheSize_eq.trans hcache, ?_, fun id => ?_⟩
  · rw [hchunks, List.getLastD_cons]
    exact h.lastChunkId_eq
  · rw [h.chunk_eq id, hchunks, List.map_cons, List.zip_cons_cons, hentries]
    by_cases heq : p.1 = id
    · have hlisted : IdMap.listed id ((p.1, c₁.header.lastChunkId) ::
          (docs.map Prod.fst).zip (c₁.chunksOf docs)) = c₁.header.lastChunkId ::
            IdMap.listed id ((docs.map Prod.fst).zip (c₁.chunksOf docs)) := by
        simp [IdMap.listed, heq]
      rw [hlisted, List.getLastD_cons, ← heq, Function.update_self, he]
    · have hlisted : IdMap.listed id ((p.1, c₁.header.lastChunkId) ::
          (docs.map Prod.fst).zip (c₁.chunksOf docs)) =
            IdMap.listed id ((docs.map Prod.fst).zip (c₁.chunksOf docs)) := by
        simp [IdMap.listed, heq]
      rw [hlisted, Function.update_of_ne (Ne.symm heq)]

/-- A document that does not fit in the space of its entry leaves room for the first word of a
chunk. -/
def Appendable (alloc : ℕ → ℕ) (chunkSize : ℕ) (docs : List (ℕ × Bytes)) : Prop :=
  ∀ p ∈ docs, reuses alloc p = false → p.2.length + 8 ≤ chunkSize

/-- The second pass writes documents up to the first one that is too large, and reports no error. -/
theorem appendPass_stands {docs : List (UInt64 × ℕ)} (docOffset : ℕ) {es : List EntryMetadata}
    (h : Stands c m) (hes : es.map EntryMetadata.allocated = docs.map (fun p => alloc p.1.toNat))
    (hids : ∀ p ∈ docs, p.1.toNat < c.header.nextId) (hsizes : ∀ p ∈ docs, p.2 ≤ c.chunkSize)
    (hdata : docOffset + (docs.map Prod.snd).sum ≤ data.length) :
    ∃ c', appendPass data (docs.zip es) docOffset c.used c = .ok (none, c') ∧
      c'.chunkSize = c.chunkSize ∧ c'.header.nextId = c.header.nextId ∧
      Stands c' (m.write (appended alloc c.chunkSize (docsAt data docOffset docs))) ∧
      c'.adrift = c.adrift \
        {id | ∃ p ∈ appended alloc c.chunkSize (docsAt data docOffset docs), id = p.1} ∧
      (Appendable alloc c.chunkSize (docsAt data docOffset docs) →
        Behind c c' (appended alloc c.chunkSize (docsAt data docOffset docs))) := by
  induction docs generalizing c m docOffset es with
  | nil =>
    exact ⟨c, rfl, rfl, rfl, h, by simp [docsAt, appended], fun _ => ⟨rfl, rfl, fun _ => rfl⟩⟩
  | cons p docs ih =>
    obtain ⟨id, size⟩ := p
    rw [List.map_cons, List.sum_cons] at hdata
    obtain ⟨e, es, rfl⟩ : ∃ e es', es = e :: es' := List.exists_cons_of_ne_nil (by
      rintro rfl
      cases hes)
    obtain ⟨he, hes⟩ := List.cons.inj hes
    have hid : id.toNat < c.header.nextId := hids (id, size) List.mem_cons_self
    have hids' : ∀ p ∈ docs, p.1.toNat < c.header.nextId :=
      fun p hp => hids p (List.mem_cons_of_mem _ hp)
    have hsizes' : ∀ p ∈ docs, p.2 ≤ c.chunkSize := fun p hp => hsizes p (List.mem_cons_of_mem _ hp)
    have hlen : (slice data docOffset size).length = size := length_slice_of_le (by omega)
    have hreuses : reuses alloc (id.toNat, slice data docOffset size) =
        decide (size ≤ e.allocated) := by
      rw [he]
      show decide ((slice data docOffset size).length ≤ alloc id.toNat) = _
      rw [hlen]
    rw [docsAt_cons]
    by_cases hfit : size ≤ e.allocated
    · rw [decide_eq_true hfit] at hreuses
      -- the first pass has written the document
      have hskip : appendPass data (((id, size), e) :: docs.zip es) docOffset c.used c =
          appendPass data (docs.zip es) (docOffset + size) c.used c := by
        conv_lhs => unfold appendPass
        rw [if_pos hfit]
      obtain ⟨c', hrest, hchunkSize', hnext', hstands, hadrift, hbehind⟩ :=
        ih (docOffset + size) h hes hids' hsizes' (by omega)
      rw [appended_cons_reused hreuses, List.zip_cons_cons, hskip]
      exact ⟨c', hrest, hchunkSize', hnext', hstands, hadrift, fun hall =>
        hbehind fun p hp => hall p (List.mem_cons_of_mem _ hp)⟩
    · rw [decide_eq_false hfit] at hreuses
      rw [List.zip_cons_cons]
      unfold appendPass
      rw [if_neg hfit]
      obtain ⟨hroom, c₁, offset, hwrite, hw, hgrew, hplace, hcache⟩ | ⟨hlarge, hwrite⟩ :=
        writeDocument_stands h (show (slice data docOffset size).length ≤ c.chunkSize by
          rw [hlen]
          exact hsizes (id, size) List.mem_cons_self)
      · -- the document gets a new place, and its entry is no longer adrift
        have hcovers : sizeofEntry + c₁.header.nextId * sizeofEntry ≤ c₁.metaSize := by
          rw [hw.nextId_eq, hw.metaSize_eq]
          exact h.covers
        have hid₁ : id.toNat < c₁.header.nextId := by rw [hw.nextId_eq]; exact hid
        have hmul : (id.toNat + 1) * sizeofEntry ≤ c₁.header.nextId * sizeofEntry :=
          Nat.mul_le_mul_right _ hid₁
        obtain ⟨collSize, hcount⟩ := countDocument_withEntry (c := c₁) id.toNat
          ⟨c₁.header.lastChunkId, offset, size, size⟩ (e.size = keyNotFound)
        obtain ⟨hput, hadrift⟩ := h.put hw hgrew hroom hid.le hw.metaSize_eq.ge
          ((Nat.add_le_add_left hmul _).trans hcovers) collSize
        rw [hlen, max_eq_left (Nat.succ_le_of_lt hid), ← hw.nextId_eq] at hput hadrift
        have hused : used (c₁.withEntry id.toNat ⟨c₁.header.lastChunkId, offset, size, size⟩
            c₁.metaSize c₁.header.nextId collSize) = offset + size := by
          rw [← hlen]
          exact hw.used_eq
        have hchunkSize : (c₁.withEntry id.toNat ⟨c₁.header.lastChunkId, offset, size, size⟩
            c₁.metaSize c₁.header.nextId collSize).chunkSize = c.chunkSize := hw.chunkSize_eq
        have hnext : (c₁.withEntry id.toNat ⟨c₁.header.lastChunkId, offset, size, size⟩
            c₁.metaSize c₁.header.nextId collSize).header.nextId = c.header.nextId := hw.nextId_eq
        obtain ⟨c', hrest, hchunkSize', hnext', hstands, hadrift', hbehind⟩ := ih (docOffset + size)
          hput hes (by rw [hnext]; exact hids') (by rw [hchunkSize]; exact hsizes') (by omega)
        rw [hused] at hrest
        rw [hchunkSize] at hstands hadrift' hchunkSize' hbehind
        rw [hwrite]
        dsimp only [bind, Except.bind]
        rw [if_neg (not_not.2 rfl), writeEntryMetadata_of_lt hcovers hid₁]
        dsimp only
        rw [if_neg (not_not.2 rfl), hcount, appended_cons_written hreuses hroom]
        refine ⟨c', hrest, hchunkSize', hnext'.trans hnext, hstands, ?_, fun hall => ?_⟩
        · rw [hadrift', hadrift, sdiff_sdiff]
          congr 1
          ext id'
          simp only [Set.sup_eq_union, Set.mem_union, Set.mem_singleton_iff, Set.mem_ofPred_eq,
            List.mem_cons, exists_eq_or_imp]
        · refine (hbehind fun p hp => hall p (List.mem_cons_of_mem _ hp)).cons hcache hchunkSize ?_
            (congrArg (Function.update · _ _) hw.entries_eq) rfl hplace
          rw [hlen]
          exact hused
      · -- a new chunk was made for a document that is too large even for that
        rw [hwrite, appended_cons_large hreuses hlarge]
        refine ⟨c.withChunk, rfl, rfl, rfl, stands_withChunk h, ?_, fun hall => ?_⟩
        · simp only [List.not_mem_nil, false_and, exists_false, Set.ofPred_false, Set.sdiff_empty]
          rfl
        · exact absurd (hall _ List.mem_cons_self hreuses) (Nat.not_le.2 hlarge)

end Passes

/-- The two passes of `update`. -/
def passes (c : LogCollection) (ids : List UInt64) (data : Bytes) (sizes : List ℕ) :
    Outcome (Status × LogCollection) := do
  let (status, entries, c) ← inPlacePass data (ids.zip sizes) 0 c []
  if status ≠ .OK then .ok (status, c)
  else
    let (status, next) ← c.nextOffset
    if status ≠ .OK then .ok (status, c)
    else
      let (status, c) ← appendPass data ((ids.zip sizes).zip entries) 0 next c
      .ok (status.getD (c.flushEntries (maxID ids).toNat), c)

theorem not_any_larger {sizes : List ℕ} (hadmitted : ∀ size ∈ sizes, size ≤ c.chunkSize) :
    ¬ sizes.any (fun size => c.chunkSize < size) = true := by
  intro hany
  obtain ⟨size, hsize, hlarge⟩ := List.any_eq_true.1 hany
  exact absurd (hadmitted size hsize) (Nat.not_le.2 (of_decide_eq_true hlarge))

/-- An `update` that is not refused. -/
theorem update_of_admitted {ids : List UInt64} {sizes : List ℕ}
    (hadmitted : ∀ size ∈ sizes, size ≤ c.chunkSize) (hne : ids ≠ []) (data : Bytes) :
    c.update ids data sizes = (do
      let (status, c) ← c.createEntries ((maxID ids).toNat + 1 - c.header.nextId)
      if status ≠ .OK then .ok (status, c) else c.passes ids data sizes) := by
  unfold update
  rw [if_neg (not_any_larger hadmitted), if_neg hne]
  rfl

/-- The documents that the first pass writes. -/
def inPlace (alloc : ℕ → ℕ) (m : IdMap Bytes) (docs : List (ℕ × Bytes)) : List (ℕ × Bytes) :=
  docs.filter fun p => reuses alloc p && (m.docs p.1).isSome

/-- The passes of an update of ids that were assigned. -/
theorem passes_stands {batch : DocBatch} {ids : List UInt64} (h : Stands c m)
    (hholds : batch.Holds ids.length) (hids : ∀ id ∈ ids, id.toNat < c.header.nextId)
    (hne : ids ≠ []) (hsizes : ∀ size ∈ batch.sizes, size ≤ c.chunkSize) :
    Ensures (fun _ => True) (c.passes ids batch.documents batch.sizes) (fun r =>
      r.1 = .OK ∧ r.2.chunkSize = c.chunkSize ∧ r.2.header.nextId = c.header.nextId ∧
        Stands r.2 ((m.write (inPlace c.allocatedFor m (under ids batch))).write
          (appended c.allocatedFor c.chunkSize (under ids batch))) ∧
        r.2.adrift = (c.adrift ∪ {id | (m.docs id).isSome = false ∧
          ∃ p ∈ under ids batch, id = p.1 ∧ reuses c.allocatedFor p = true}) \
            {id | ∃ p ∈ appended c.allocatedFor c.chunkSize (under ids batch), id = p.1} ∧
        (Appendable c.allocatedFor c.chunkSize (under ids batch) →
          Behind c r.2 (appended c.allocatedFor c.chunkSize (under ids batch)))) := by
  obtain ⟨hcount, hsum⟩ := hholds
  have hsnd : (ids.zip batch.sizes).map Prod.snd = batch.sizes := List.map_snd_zip hcount.ge
  have hdata : 0 + ((ids.zip batch.sizes).map Prod.snd).sum ≤ batch.documents.length := by
    rw [hsnd, Nat.zero_add]
    exact hsum
  have hpass : ∀ p ∈ ids.zip batch.sizes, p.1.toNat < c.header.nextId := fun p hp =>
    hids p.1 (List.of_mem_zip hp).1
  have halloc : ∀ id < c.header.nextId, (c.entries id).allocated = c.allocatedFor id :=
    fun id hid => (if_pos hid).symm
  unfold passes
  refine Ensures.bind (inPlacePass_stands 0 [] h halloc (fun _ => rfl) hpass hdata) ?_
  rintro ⟨status, es, c₂⟩ ⟨hok, ⟨es', hes, hes'⟩, hchunkSize, hnext, hplaces, h₂, hadrift⟩
  obtain rfl : status = .OK := hok
  obtain rfl : es = es' := hes
  have hchunkSize : c₂.chunkSize = c.chunkSize := hchunkSize
  have hnext : c₂.header.nextId = c.header.nextId := hnext
  have hplaces : SamePlaces c c₂ := hplaces
  obtain ⟨c₃, happend, hchunkSize₃, hnext₃, h₃, hadrift₃, hbehind⟩ := appendPass_stands 0 h₂ hes'
    (by rw [hnext]; exact hpass)
    (fun p hp => by rw [hchunkSize]; exact hsizes p.2 (List.of_mem_zip hp).2) hdata
  rw [docsAt_zip hcount] at h₂ h₃ hadrift hadrift₃ hbehind
  rw [hchunkSize] at h₃ hadrift₃ hbehind
  -- the entries up to the largest id lie in the mapping
  have hflush : c₃.flushEntries (maxID ids).toNat = .OK := by
    have hlt := hids _ (maxID_mem hne)
    have hmul : ((maxID ids).toNat + 1) * sizeofEntry ≤ c₃.header.nextId * sizeofEntry :=
      Nat.mul_le_mul_right _ (by omega)
    exact if_neg (Nat.not_lt.2 ((Nat.add_le_add_left hmul _).trans h₃.covers))
  dsimp only
  rw [if_neg (not_not.2 rfl), nextOffset_eq h₂.chunked]
  dsimp only [bind, Except.bind]
  rw [if_neg (not_not.2 rfl), happend]
  dsimp only [Option.getD_none]
  rw [hflush]
  refine ⟨rfl, hchunkSize₃.trans hchunkSize, hnext₃.trans hnext, h₃, ?_, fun hall => ?_⟩
  · rw [hadrift₃, hadrift]
  · obtain ⟨hcache, hlast, hchunk⟩ := hbehind hall
    -- the first pass leaves the end of the last chunk, where the second one starts
    have hchunks : ∀ docs, c₂.chunksOf docs = c.chunksOf docs := by
      intro docs
      unfold chunksOf
      rw [hchunkSize, hplaces.lastChunkId_eq, hplaces.used_eq]
    rw [hchunks, hplaces.lastChunkId_eq] at hlast
    refine ⟨hcache.trans hplaces.cacheSize_eq, hlast, fun id => ?_⟩
    rw [← hplaces.chunk_eq id, ← hchunks]
    exact hchunk id

/-- The documents after an update of `ids`, in a collection that holds those of `m`: those that fit
in the regions of documents are written first, and then those that are appended. -/
def updated (c : LogCollection) (m : IdMap Bytes) (ids : List UInt64) (batch : DocBatch) :
    IdMap Bytes :=
  ((m.reach (maxID ids).toNat).write ((under ids batch).filter fun p =>
    reuses c.allocatedFor p && (m.docs p.1).isSome)).write
      (appended c.allocatedFor c.chunkSize (under ids batch))

/-- The ids adrift after the update. -/
def adriftAfter (c : LogCollection) (m : IdMap Bytes) (ids : List UInt64) (batch : DocBatch) :
    Set ℕ :=
  (c.adrift ∪ {id | (m.docs id).isSome = false ∧
    ∃ p ∈ under ids batch, id = p.1 ∧ reuses c.allocatedFor p = true}) \
      {id | ∃ p ∈ appended c.allocatedFor c.chunkSize (under ids batch), id = p.1}

/-- What an update of a batch that is not refused does: it reports success. -/
structure Updates (c : LogCollection) (m : IdMap Bytes) (ids : List UInt64) (batch : DocBatch)
    (r : Status × LogCollection) : Prop where
  ids_ne : ids ≠ []
  sizes_le : ∀ size ∈ batch.sizes, size ≤ c.chunkSize
  status : r.1 = .OK
  chunkSize_eq : r.2.chunkSize = c.chunkSize
  nextId_eq : r.2.header.nextId = max c.header.nextId ((maxID ids).toNat + 1)
  stands : Stands r.2 (c.updated m ids batch)
  adrift_eq : r.2.adrift = c.adriftAfter m ids batch

/-- `update` of a batch: it is refused, it stops with an error, or it reports success. -/
theorem update_stands {batch : DocBatch} {ids : List UInt64} (h : Stands c m)
    (hholds : batch.Holds ids.length) :
    Ensures (fun _ => True) (c.update ids batch.documents batch.sizes) (fun r =>
      (r = (.SizeError, c) ∧ ∃ size ∈ batch.sizes, c.chunkSize < size) ∨
        c.Updates m ids batch r) := by
  by_cases hlarge : ∃ size ∈ batch.sizes, c.chunkSize < size
  · have hany : batch.sizes.any (fun size => c.chunkSize < size) = true := by
      obtain ⟨size, hsize, hlt⟩ := hlarge
      exact List.any_eq_true.2 ⟨size, hsize, decide_eq_true hlt⟩
    unfold update
    rw [if_pos hany]
    exact Or.inl ⟨rfl, hlarge⟩
  have hsizes : ∀ size ∈ batch.sizes, size ≤ c.chunkSize := fun size hsize =>
    Nat.not_lt.1 fun hlt => hlarge ⟨size, hsize, hlt⟩
  by_cases hnil : ids = []
  · have hany : ¬ batch.sizes.any (fun size => c.chunkSize < size) = true := by
      rw [List.length_eq_zero_iff.1 (hholds.1.symm.trans (List.length_eq_zero_iff.2 hnil))]
      exact Bool.false_ne_true
    unfold update
    rw [if_neg hany, if_pos hnil]
    trivial
  rw [update_of_admitted hsizes hnil]
  refine Ensures.bind ((createEntries_stands h).allow fun _ _ => trivial) ?_
  rintro ⟨status, c₁⟩ ⟨hok₁, hchunkSize₁, hnext₁, halloc, hadrift₁, h₁⟩
  obtain rfl : status = .OK := hok₁
  have hchunkSize₁ : c₁.chunkSize = c.chunkSize := hchunkSize₁
  have hnext₁ : c₁.header.nextId = c.header.nextId + ((maxID ids).toNat + 1 - c.header.nextId) :=
    hnext₁
  have hmax : c₁.header.nextId = max c.header.nextId ((maxID ids).toNat + 1) := by omega
  have hreach : (⟨m.next + ((maxID ids).toNat + 1 - c.header.nextId), m.docs⟩ : IdMap Bytes) =
      m.reach (maxID ids).toNat := by
    rw [← h.next_eq]
    unfold IdMap.reach
    congr 1
    omega
  rw [hreach] at h₁
  have hids : ∀ id ∈ ids, id.toNat < c₁.header.nextId := by
    intro id hid
    have hle := UInt64.le_iff_toNat_le.1 (le_maxID hid)
    omega
  have halloc : c₁.allocatedFor = c.allocatedFor := halloc
  dsimp only
  rw [if_neg (not_not.2 rfl)]
  refine (passes_stands h₁ hholds hids hnil (by rw [hchunkSize₁]; exact hsizes)).mono ?_
  rintro r ⟨hok, hchunkSize, hnext, hstands, hadrift, -⟩
  rw [halloc, hchunkSize₁] at hstands hadrift
  refine Or.inr ⟨hnil, hsizes, hok, hchunkSize.trans hchunkSize₁, hnext.trans hmax, hstands, ?_⟩
  rw [hadrift, hadrift₁]
  rfl

/-! ### `erase` -/

/-- `erase`. -/
theorem erase_stands (h : Stands c m) (id : UInt64) :
    ∃ c', c.erase id = .ok (if m.next ≤ id.toNat then .InvalidID else .OK, c') ∧
      c'.chunkSize = c.chunkSize ∧ Stands c' (m.erase [id.toNat]) ∧
      c'.adrift = c.adrift \ {id.toNat} := by
  have herase : (m.erase [id.toNat]).docs = Function.update m.docs id.toNat none := rfl
  have hsame : m.docs id.toNat = none → m.erase [id.toNat] = m := fun hnone =>
    IdMap.ext rfl (herase.trans (Function.update_eq_self_iff.2 hnone.symm))
  unfold erase
  rw [h.next_eq]
  by_cases hid : c.header.nextId ≤ id.toNat
  · rw [if_pos hid, if_pos hid, hsame (h.represents.fresh _ (by rw [h.next_eq]; exact hid))]
    have hnot : id.toNat ∉ c.adrift := fun hmem => absurd hmem.1 (Nat.not_lt.2 hid)
    exact ⟨c, rfl, rfl, h, (Set.sdiff_singleton_eq_self hnot).symm⟩
  · have hlt : id.toNat < c.header.nextId := Nat.not_le.1 hid
    rw [if_neg hid, if_neg hid, readEntryMetadata_of_lt h.covers hlt]
    dsimp only
    rw [if_neg (not_not.2 rfl)]
    have hne : keyNotFound ≠ 0 := by decide
    by_cases hhole : (c.entries id.toNat).size = keyNotFound
    · have hnot : id.toNat ∉ c.adrift := fun hmem => hne (hhole.symm.trans hmem.2.1)
      rw [if_pos hhole, hsame ((h.represents.size_eq_iff hlt hnot).1 hhole)]
      exact ⟨c, rfl, rfl, h, (Set.sdiff_singleton_eq_self hnot).symm⟩
    · have hmax : max c.header.nextId (id.toNat + 1) = c.header.nextId := max_eq_left hlt
      have hcovers : sizeofEntry + max c.header.nextId (id.toNat + 1) * sizeofEntry ≤
          c.metaSize := by
        rw [hmax]
        exact h.covers
      obtain ⟨hstands, hadrift⟩ := h.hole (n := m.erase [id.toNat])
        (e := ⟨keyNotFound, keyNotFound, keyNotFound, (c.entries id.toNat).allocated⟩) hlt.le
        hcovers (by rw [hmax]; exact h.next_eq) herase rfl (Or.inr rfl) (h.allocated_le _ hlt)
        (c.header.collSize - 1)
      rw [hmax] at hstands hadrift
      rw [if_neg hhole, writeEntryMetadata_of_lt h.covers hlt]
      dsimp only [bind, Except.bind]
      rw [if_neg (not_not.2 rfl)]
      refine ⟨_, rfl, rfl, hstands, hadrift.trans ?_⟩
      simp [hne]

/-! ### Runs -/

/-- An id has a size when it has a document or is adrift. -/
theorem Stands.present_iff (h : Stands c m) (id : ℕ) :
    c.Present id ↔ (m.docs id).isSome ∨ id ∈ c.adrift := by
  constructor
  · rintro ⟨hid, hsize⟩
    cases hdoc : m.docs id with
    | none => exact Or.inr ((h.size_of_none hid hdoc).resolve_left hsize)
    | some doc => exact Or.inl rfl
  · rintro (hsome | hmem)
    · obtain ⟨doc, hdoc⟩ := Option.isSome_iff_exists.1 hsome
      exact ⟨h.represents.lt_next hsome, ((h.pointsTo hdoc).size_lt h.chunked).ne⟩
    · refine ⟨hmem.1, ?_⟩
      rw [hmem.2.1]
      decide

theorem stands_ofFiles {chunkSize : ℕ} (cacheSize : UInt64) (hge : 8 ≤ chunkSize)
    (hlt : chunkSize < 2 ^ 63) : Stands (ofFiles chunkSize cacheSize {}) .empty ∧
      (ofFiles chunkSize cacheSize {}).adrift = ∅ := by
  have hrep := represents_ofFiles cacheSize hge hlt
  have hadrift : (ofFiles chunkSize cacheSize {}).adrift = ∅ :=
    Set.eq_empty_of_forall_notMem fun id hmem => Nat.not_lt_zero id hmem.1
  refine ⟨⟨by rwa [hadrift], fun k hk => ?_, fun id hid => absurd hid (Nat.not_lt_zero id),
    fun _ _ hdoc => (by cases hdoc), fun _ _ hdoc => (by cases hdoc),
    fun id hid => absurd hid (Nat.not_lt_zero id)⟩, hadrift⟩
  obtain rfl : k = 0 := Nat.le_zero.1 hk
  exact hrep.chunked.used_le

/-- A call that returns leaves documents behind, and only updates of ids without document leave
more ids adrift. -/
theorem returns_stands (h : Stands c m) {op : LogOp} (hreturns : Returns c op c') :
    (∃ m', Stands c' m') ∧ c'.chunkSize = c.chunkSize ∧
      ∀ id ∈ c'.adrift, id ∈ c.adrift ∨
        ∃ ids batch, op = .update ids batch ∧ id ∈ ids.map UInt64.toNat ∧ (m.docs id).isSome = false := by
  obtain ⟨hholds, status, hr⟩ := hreturns
  cases op with
  | append ids batch =>
    have hstands := append_stands h hholds
    change (c.append batch.documents batch.sizes ids >>= fun r =>
      (.ok (r.1, r.2.2) : Outcome (Status × LogCollection))) = _ at hr
    cases happend : c.append batch.documents batch.sizes ids with
    | error e => rw [happend] at hr; cases hr
    | ok r =>
      rw [happend] at hr
      obtain ⟨-, rfl⟩ := Prod.mk.inj (Except.ok.inj hr)
      obtain ⟨rfl, -⟩ | ⟨-, hm', hchunkSize, hadrift, -⟩ := hstands.of_eq_ok happend
      · exact ⟨⟨m, h⟩, rfl, fun id hid => Or.inl hid⟩
      · exact ⟨⟨_, hm'⟩, hchunkSize, fun id hid => Or.inl (hadrift ▸ hid)⟩
  | update ids batch =>
    obtain ⟨hrefused, -⟩ | hupdates := (update_stands h hholds).of_eq_ok hr
    · obtain ⟨-, rfl⟩ := Prod.mk.inj hrefused
      exact ⟨⟨m, h⟩, rfl, fun id hid => Or.inl hid⟩
    · refine ⟨⟨_, hupdates.stands⟩, hupdates.chunkSize_eq, fun id hid => ?_⟩
      rw [hupdates.adrift_eq] at hid
      refine hid.1.imp_right ?_
      rintro ⟨hnone, p, hp, rfl, -⟩
      exact ⟨ids, batch, rfl, (List.of_mem_zip hp).1, hnone⟩
  | erase id =>
    obtain ⟨c₁, herase, hchunkSize, hstands, hadrift⟩ := erase_stands h id
    change c.erase id = _ at hr
    rw [herase] at hr
    obtain ⟨-, rfl⟩ := Prod.mk.inj (Except.ok.inj hr)
    exact ⟨⟨_, hstands⟩, hchunkSize, fun id' hid' => Or.inl (hadrift ▸ hid').1⟩

/-- After any run, each document stands in space of its own. -/
theorem run_stands {chunkSize : ℕ} {cacheSize : UInt64} {ops : List LogOp} (hge : 8 ≤ chunkSize)
    (hlt : chunkSize < 2 ^ 63) (hrun : Run Returns (ofFiles chunkSize cacheSize {}) ops c) :
    (∃ m, Stands c m) ∧ c.chunkSize = chunkSize := by
  refine hrun.invariant (I := fun c => (∃ m, Stands c m) ∧ c.chunkSize = chunkSize) ?_
    ⟨⟨_, (stands_ofFiles cacheSize hge hlt).1⟩, rfl⟩
  rintro c op c' ⟨⟨m, h⟩, hchunkSize⟩ hreturns
  obtain ⟨hm', hchunkSize', -⟩ := returns_stands h hreturns
  exact ⟨hm', hchunkSize'.trans hchunkSize⟩

/-! ### Counting -/

/-- A chunk with no room for its first word takes no document in the second pass. -/
theorem countsOnce_of_small (hsmall : c.chunkSize < 8) (docs : List (UInt64 × ℕ)) :
    CountsOnce c docs := by
  have hfits : ∀ {docs : List (UInt64 × ℕ)} {p : UInt64 × ℕ},
      p ∈ handled c.allocatedFor c.chunkSize docs → p.2 ≤ c.allocatedFor p.1.toNat := by
    intro docs p hp
    induction docs with
    | nil => cases hp
    | cons q docs ih =>
      unfold handled at hp
      split_ifs at hp with hq
      · rcases List.mem_cons.1 hp with rfl | hp
        · exact hq.resolve_right (by omega)
        · exact ih hp
      · exact of_decide_eq_true (List.mem_filter.1 hp).2
  refine Or.inr fun id _ => ?_
  cases hhead : (c.handledFor docs id).head? with
  | none =>
    rw [List.head?_eq_none_iff.1 hhead]
    exact Or.inl (Nat.zero_le 1)
  | some p =>
    have hmem := List.mem_filter.1 (List.mem_of_mem_head? hhead)
    have hfit := hfits hmem.1
    rw [of_decide_eq_true hmem.2] at hfit
    exact Or.inr ⟨p, rfl, hfit⟩

/-- A call that returns counts the documents exactly if it counts no id twice. -/
theorem returns_counted_iff (h : Sane c) (hstands : 8 ≤ c.chunkSize → ∃ m, Stands c m)
    (hc : Counted c) {op : LogOp} (hreturns : Returns c op c') :
    op.CountsOnce c ↔ Counted c' := by
  obtain ⟨hholds, status, hr⟩ := hreturns
  obtain ⟨-, -, hcounted⟩ := (apply_sane h hholds).of_eq_ok hr
  obtain ⟨honce, hback⟩ := hcounted hc
  cases op with
  | append ids batch => exact iff_of_true trivial (honce trivial)
  | erase id => exact iff_of_true trivial (honce trivial)
  | update ids batch =>
    by_cases hge : 8 ≤ c.chunkSize
    · obtain ⟨m, hm⟩ := hstands hge
      obtain ⟨-, size, hsize, hlarge⟩ | hupdates := (update_stands hm hholds).of_eq_ok hr
      · -- a refused update counts nothing
        have hsnd : (ids.zip batch.sizes).map Prod.snd = batch.sizes :=
          List.map_snd_zip hholds.1.ge
        rw [← hsnd] at hsize
        obtain ⟨p, hp, rfl⟩ := List.mem_map.1 hsize
        have hrefused : LogOp.CountsOnce c (.update ids batch) := Or.inl ⟨p, hp, hlarge⟩
        exact iff_of_true hrefused (honce hrefused)
      · exact ⟨honce, hback hupdates.status⟩
    · have hsmall : LogOp.CountsOnce c (.update ids batch) :=
        countsOnce_of_small (Nat.not_le.1 hge) _
      exact iff_of_true hsmall (honce hsmall)

/-- The calls that return are the steps of a function. -/
theorem returns_eq : Returns = StepOption (fun c op => (c.apply op).toOption.map Prod.snd)
    fun _ op => op.Holds := by
  funext c op c'
  show (op.Holds ∧ ∃ status, c.apply op = .ok (status, c')) =
    (op.Holds ∧ (c.apply op).toOption.map Prod.snd = some c')
  cases c.apply op with
  | error e => simp [Except.toOption]
  | ok r => simp [Except.toOption, Prod.ext_iff]

/-- The runs whose updates count no id twice are those in which `coll_size` is the number of
documents throughout. -/
theorem counts_throughout_iff {chunkSize : ℕ} {cacheSize : UInt64} {ops : List LogOp}
    (hlt : chunkSize < 2 ^ 63) (hrun : Run Returns (ofFiles chunkSize cacheSize {}) ops c) :
    Run CountingCall (ofFiles chunkSize cacheSize {}) ops c ↔
      Throughout Returns (fun c => c.header.collSize.toNat = c.liveCount)
        (ofFiles chunkSize cacheSize {}) ops := by
  have hcounting : CountingCall =
      StepOption (fun c op => (c.apply op).toOption.map Prod.snd) fun c op =>
        op.Holds ∧ op.CountsOnce c := by
    funext c op c'
    unfold CountingCall
    rw [returns_eq]
    unfold StepOption
    exact propext (by tauto)
  rw [returns_eq] at hrun ⊢
  rw [hcounting]
  refine run_guarded_iff (I := fun c => Sane c ∧ (8 ≤ c.chunkSize → ∃ m, Stands c m)) ?_ ?_
    ⟨sane_ofFiles cacheSize hlt, fun hge => ⟨_, (stands_ofFiles cacheSize hge hlt).1⟩⟩ rfl hrun
  · rw [← returns_eq]
    rintro c op c' ⟨h, hstands⟩ hreturns
    obtain ⟨h', hchunkSize, -⟩ := (apply_sane h hreturns.1).of_eq_ok hreturns.2.choose_spec
    refine ⟨h', fun hge => ?_⟩
    obtain ⟨m, hm⟩ := hstands (hchunkSize ▸ hge)
    exact (returns_stands hm hreturns).1
  · rw [← returns_eq]
    rintro c op c' ⟨h, hstands⟩ hcount hreturns
    obtain ⟨h', -⟩ := (apply_sane h hreturns.1).of_eq_ok hreturns.2.choose_spec
    rw [← h'.counted_iff]
    exact returns_counted_iff h hstands (h.counted_iff.2 hcount) hreturns

/-! ### Regions -/

/-- The documents are in the space allocated to them, and share none of it. -/
structure Allocated (c : LogCollection) : Prop where
  chunk_le : ∀ id, c.Present id → (c.entries id).chunk ≤ c.header.lastChunkId
  size_le : ∀ id, c.Present id → (c.entries id).size ≤ (c.entries id).allocated
  offset_ge : ∀ id, c.Present id → 8 ≤ (c.entries id).offset
  region_le : ∀ id, c.Present id →
    (c.entries id).offset + (c.entries id).allocated ≤ c.recorded (c.entries id).chunk
  recorded_le : ∀ id, c.Present id → c.recorded (c.entries id).chunk ≤ c.chunkSize
  apart : ∀ id id', id ≠ id' → c.Present id → c.Present id' → Apart (c.entries id) (c.entries id')

theorem Stands.allocated (h : Stands c m) (hadrift : c.adrift = ∅) : c.Allocated := by
  have hdoc : ∀ id, c.Present id → ∃ doc, m.docs id = some doc := by
    intro id hid
    rw [h.present_iff, hadrift] at hid
    exact Option.isSome_iff_exists.1 (hid.resolve_right (Set.notMem_empty id))
  constructor
  case chunk_le =>
    intro id hid
    obtain ⟨doc, hdoc⟩ := hdoc id hid
    exact (h.pointsTo hdoc).chunk_le
  case size_le =>
    intro id hid
    obtain ⟨doc, hdoc⟩ := hdoc id hid
    rw [(h.pointsTo hdoc).size_eq]
    exact (h.pointsTo hdoc).size_le
  case offset_ge =>
    intro id hid
    obtain ⟨doc, hdoc⟩ := hdoc id hid
    exact (h.pointsTo hdoc).offset_ge
  case region_le =>
    intro id hid
    obtain ⟨doc, hdoc⟩ := hdoc id hid
    exact h.region id doc hdoc
  case recorded_le =>
    intro id hid
    obtain ⟨doc, hdoc⟩ := hdoc id hid
    exact h.recorded_le _ (h.pointsTo hdoc).chunk_le
  case apart =>
    intro id id' hne hid hid'
    obtain ⟨doc, hdoc₁⟩ := hdoc id hid
    obtain ⟨doc', hdoc₂⟩ := hdoc id' hid'
    exact h.represents.apart id id' hne (h.not_adrift hdoc₁) (h.not_adrift hdoc₂)
      (by rw [hdoc₁]; rfl) (by rw [hdoc₂]; rfl)

/-- An update is for ids that have a document. -/
def OnLive (c : LogCollection) : LogOp → Prop
  | .update ids _ => ∀ id ∈ ids, c.Present id.toNat
  | _ => True

/-- A well-formed call that returns, whatever its status, and updates only documents. -/
def LiveCall (c : LogCollection) (op : LogOp) (c' : LogCollection) : Prop :=
  OnLive c op ∧ Returns c op c'

/-- After any run that updates only documents, the documents are in the space allocated to
them. -/
theorem run_allocated {chunkSize : ℕ} {cacheSize : UInt64} {ops : List LogOp} (hge : 8 ≤ chunkSize)
    (hlt : chunkSize < 2 ^ 63) (hrun : Run LiveCall (ofFiles chunkSize cacheSize {}) ops c) :
    c.Allocated := by
  have hinv : ∃ m, Stands c m ∧ c.adrift = ∅ := by
    refine hrun.invariant (I := fun c => ∃ m, Stands c m ∧ c.adrift = ∅) ?_
      ⟨_, stands_ofFiles cacheSize hge hlt⟩
    rintro c op c' ⟨m, h, hadrift⟩ ⟨hlive, hreturns⟩
    obtain ⟨⟨m', h'⟩, -, hnew⟩ := returns_stands h hreturns
    refine ⟨m', h', Set.eq_empty_of_forall_notMem fun id hid => ?_⟩
    obtain hold | ⟨ids, batch, rfl, hmem, hnone⟩ := hnew id hid
    · rw [hadrift] at hold
      exact hold
    · obtain ⟨listed, hlisted, rfl⟩ := List.mem_map.1 hmem
      have hpresent : c.Present listed.toNat := hlive listed hlisted
      rw [h.present_iff, hadrift, hnone] at hpresent
      exact hpresent.elim nofun (Set.notMem_empty _)
  obtain ⟨m, h, hadrift⟩ := hinv
  exact h.allocated hadrift

/-- Seven bytes, which need a chunk of their own when chunks have sixteen bytes. -/
def sevenBytes : DocBatch := ⟨[1, 2, 3, 4, 5, 6, 7], [7], by decide⟩

/-- Nine bytes, which are too many for such a chunk. -/
def nineBytes : DocBatch := ⟨[1, 2, 3, 4, 5, 6, 7, 8, 9], [9], by decide⟩

/-- A run that moves a document to a new chunk, fails to store another one, and erases a third. -/
theorem run_allocated_failing :
    ∃ c, Run LiveCall (ofFiles 16 16 {}) [.append [0, 0] (twoDocs 7 8),
        .update [0] sevenBytes, .append [0] nineBytes, .erase 1] c ∧
      c.Allocated := by
  have hstore : Run LiveCall (ofFiles 16 16 {}) [.append [0, 0] (twoDocs 7 8)] _ :=
    Run.snoc (Run.nil _) ⟨trivial, ⟨rfl, le_refl _⟩, _, rfl⟩
  have hupdate : Run LiveCall (ofFiles 16 16 {}) [.append [0, 0] (twoDocs 7 8),
      .update [0] sevenBytes] _ :=
    Run.snoc hstore ⟨List.forall_mem_singleton.2 (by decide), ⟨rfl, le_refl _⟩, _, rfl⟩
  have hlarge : Run LiveCall (ofFiles 16 16 {}) [.append [0, 0] (twoDocs 7 8),
      .update [0] sevenBytes, .append [0] nineBytes] _ :=
    Run.snoc hupdate ⟨trivial, ⟨rfl, le_refl _⟩, _, rfl⟩
  have herase : Run LiveCall (ofFiles 16 16 {}) [.append [0, 0] (twoDocs 7 8),
      .update [0] sevenBytes, .append [0] nineBytes, .erase 1] _ :=
    Run.snoc hlarge ⟨trivial, trivial, _, rfl⟩
  exact ⟨_, herase, run_allocated (by decide) (by decide) herase⟩

end LogCollection

end Yokan
