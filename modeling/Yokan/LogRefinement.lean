import Yokan.ArrayRefinement
import Yokan.LogCache

/-!
# Yokan: the `log` backend refines maps from ids to documents

`Represents` relates a collection to an `IdMap` of documents: each entry that is not a hole points
to its document, in space that no other entry uses and that ends before the free space of its
chunk. During an update some entries are `torn`: they have lost their old document and will be
given a new one by the second pass.

* `writeDocument_spec`, `writeEntry_spec`, `inPlace_spec`: what one document needs;
* `log_serves_documents`: any run of `append`, `update` and `erase` represents the documents last
  written, and no operation dereferences the null chunk, as long as no update puts a document in
  place of one that is not there or after a larger one of its own batch (`Sound`);
* `update_of_erased`: otherwise it does.
-/

namespace Yokan

open Buffer PartialMap Transition LittleEndian

namespace LogCollection

/-! ### The space of a chunk -/

/-- The start of the free space of the last chunk. -/
def used (c : LogCollection) : ℕ :=
  let next := decode (slice (c.chunks c.header.lastChunkId) 0 8)
  if next = 0 then 8 else next

theorem used_of_slice {c : LogCollection} {n : ℕ}
    (h : slice (c.chunks c.header.lastChunkId) 0 8 = encode 8 n) (hpos : 0 < n) (hlt : n < 2 ^ 64) :
    c.used = n := by
  have hnext : decode (slice (c.chunks c.header.lastChunkId) 0 8) = n := by
    rw [h, decode_encode_of_lt hlt]
  unfold used
  simp only [hnext, Nat.ne_of_gt hpos, if_false]

theorem used_of_zero {c : LogCollection} {n : ℕ}
    (h : slice (c.chunks c.header.lastChunkId) 0 8 = List.replicate n 0) : c.used = 8 := by
  have hzero : ∀ n, decode (List.replicate n 0) = 0 := by
    intro n
    induction n with
    | zero => rfl
    | succ n ih => simp [List.replicate_succ, decode, ih]
  unfold used
  simp only [h, hzero, if_true]

/-- The end of the space of the documents of a chunk. -/
def limit (c : LogCollection) (chunkId : ℕ) : ℕ :=
  if chunkId = c.header.lastChunkId then c.used else c.chunkSize

/-- The files of a collection with chunks of `chunkSize` bytes. -/
structure Chunked (c : LogCollection) : Prop where
  chunkSize_ge : 8 ≤ c.chunkSize
  chunkSize_lt : c.chunkSize < 2 ^ 63
  header_chunkSize : c.header.chunkSize = c.chunkSize
  length_chunk : ∀ k ≤ c.header.lastChunkId, (c.chunks k).length = c.chunkSize
  chunk_nil : ∀ k, c.header.lastChunkId < k → c.chunks k = []
  used_ge : 8 ≤ c.used
  used_le : c.used ≤ c.chunkSize

variable {c c' : LogCollection} {m : IdMap Bytes} {torn : Set ℕ}

theorem mapFile_of_length {file : Bytes} {size : ℕ} (h : file.length = size) :
    mapFile file size = file := by
  simp [mapFile, h]

/-- Mapping a chunk that exists changes nothing. -/
theorem mapChunk_of_le (h : Chunked c) {k : ℕ} (hk : k ≤ c.header.lastChunkId) :
    c.mapChunk k = c := by
  unfold mapChunk
  rw [mapFile_of_length (by rw [h.length_chunk k hk, h.header_chunkSize]),
    Function.update_eq_self]

/-- The collection gets at a chunk: it is the last one, or the cache has room for it. -/
def Reaches (c : LogCollection) (k : ℕ) : Prop := k = c.header.lastChunkId ∨ c.HasRoom

instance (c : LogCollection) (k : ℕ) : Decidable (c.Reaches k) :=
  inferInstanceAs (Decidable (_ ∨ _))

/-- A chunk that exists is found, unless the cache would have to make room for it. -/
theorem derefChunk_of_le (h : Chunked c) {k : ℕ} (hk : k ≤ c.header.lastChunkId) :
    c.derefChunk k = if c.Reaches k then .ok c else .error .emptyCache := by
  have hfound : c.getChunkFromID k = if c.Reaches k then .ok (some c) else .error .emptyCache := by
    unfold getChunkFromID
    rw [mapChunk_of_le h hk]
    by_cases hlast : k = c.header.lastChunkId
    · have hreaches : c.Reaches k := Or.inl hlast
      rw [if_pos hlast, if_pos hreaches]
    · rw [if_neg hlast, if_neg (show k ≠ c.header.lastChunkId + 1 by omega),
        if_pos (show k < c.header.lastChunkId by omega)]
      have hreaches : c.Reaches k ↔ c.HasRoom := or_iff_right hlast
      simp only [hreaches]
  unfold derefChunk
  rw [hfound]
  split_ifs <;> rfl

theorem derefChunk_of_reaches (h : Chunked c) {k : ℕ} (hk : k ≤ c.header.lastChunkId)
    (hreaches : c.Reaches k) : c.derefChunk k = .ok c := by
  rw [derefChunk_of_le h hk, if_pos hreaches]

theorem chunkSize_derefChunk {k : ℕ} (h : c.derefChunk k = .ok c') :
    c'.header.chunkSize = c.header.chunkSize := by
  unfold derefChunk getChunkFromID at h
  split_ifs at h <;> cases h <;> rfl

theorem limit_le (h : Chunked c) (k : ℕ) : c.limit k ≤ c.chunkSize := by
  unfold limit
  split_ifs
  · exact h.used_le
  · exact le_refl _

theorem writeChunk_of_le {k offset : ℕ} {bytes : Bytes} (hlt : c.header.chunkSize < 2 ^ 63)
    (hfit : offset + bytes.length ≤ c.header.chunkSize) :
    c.writeChunk k offset bytes = .ok (.OK, c.blitChunk k offset bytes) := by
  have hadd : addSize offset bytes.length = offset + bytes.length := Nat.mod_eq_of_lt (by omega)
  unfold writeChunk
  rw [hadd, if_neg (by omega), if_neg (by omega)]

theorem readChunk_of_le {k offset size : ℕ} (hlt : c.header.chunkSize < 2 ^ 63)
    (hfit : offset + size ≤ c.header.chunkSize) :
    c.readChunk k offset size = .ok (.OK, slice (c.chunks k) offset size) := by
  have hadd : addSize offset size = offset + size := Nat.mod_eq_of_lt (by omega)
  unfold readChunk
  rw [hadd, if_neg (by omega), if_neg (by omega)]

theorem Chunked.header_lt (h : Chunked c) : c.header.chunkSize < 2 ^ 63 := by
  rw [h.header_chunkSize]
  exact h.chunkSize_lt

theorem nextOffset_eq (h : Chunked c) : c.nextOffset = .ok (.OK, c.used) := by
  have hfit : 0 + 8 ≤ c.header.chunkSize := by
    rw [h.header_chunkSize]
    exact h.chunkSize_ge
  unfold nextOffset
  rw [readChunk_of_le h.header_lt hfit]
  rfl

/-! ### Writing a document -/

/-- The chunks after a document was written from `offset` on in the last chunk: all the space
before it is as it was. -/
structure Wrote (c c' : LogCollection) (offset : ℕ) (doc : Bytes) : Prop where
  chunked : Chunked c'
  entries_eq : c'.entries = c.entries
  metaSize_eq : c'.metaSize = c.metaSize
  chunkSize_eq : c'.chunkSize = c.chunkSize
  nextId_eq : c'.header.nextId = c.header.nextId
  lastChunkId_le : c.header.lastChunkId ≤ c'.header.lastChunkId
  offset_ge : 8 ≤ offset
  used_eq : c'.used = offset + doc.length
  slice_eq : slice (c'.chunks c'.header.lastChunkId) offset doc.length = doc
  limit_le : ∀ k ≤ c.header.lastChunkId, c.limit k ≤ c'.limit k
  free : ∀ k ≤ c.header.lastChunkId, k = c'.header.lastChunkId → c.limit k ≤ offset
  kept : ∀ k ≤ c.header.lastChunkId, ∀ a n, 8 ≤ a → a + n ≤ c.limit k →
    slice (c'.chunks k) a n = slice (c.chunks k) a n

/-- A document written at the end of the last chunk, and the new start of the free space. -/
def withDocument (c : LogCollection) (doc : Bytes) : LogCollection :=
  (c.blitChunk c.header.lastChunkId c.used doc).blitChunk c.header.lastChunkId 0
    (encode 8 (c.used + doc.length))

theorem chunks_withDocument (doc : Bytes) (k : ℕ) :
    (c.withDocument doc).chunks k = if k = c.header.lastChunkId then
      blit (blit (c.chunks k) c.used doc) 0 (encode 8 (c.used + doc.length)) else c.chunks k := by
  by_cases hk : k = c.header.lastChunkId
  · subst hk
    simp [withDocument, blitChunk]
  · simp [withDocument, blitChunk, hk]

theorem wrote_withDocument (h : Chunked c) {doc : Bytes}
    (hfit : c.used + doc.length ≤ c.chunkSize) : Wrote c (c.withDocument doc) c.used doc := by
  have hlt := h.chunkSize_lt
  have hge := h.used_ge
  have hlast := h.length_chunk _ (le_refl _)
  have hdata : (blit (c.chunks c.header.lastChunkId) c.used doc).length = c.chunkSize := by
    rw [length_blit (by rw [hlast]; exact hfit), hlast]
  have hhead : (encode 8 (c.used + doc.length)).length = 8 := length_encode 8 _
  have hroom : 0 + (encode 8 (c.used + doc.length)).length ≤
      (blit (c.chunks c.header.lastChunkId) c.used doc).length := by
    rw [hhead, hdata]
    omega
  -- the first word holds the offset of the next document; it leaves the others alone
  have hafter : ∀ a n, 8 ≤ a →
      slice ((c.withDocument doc).chunks c.header.lastChunkId) a n =
        slice (blit (c.chunks c.header.lastChunkId) c.used doc) a n := by
    intro a n ha
    rw [chunks_withDocument, if_pos rfl]
    exact slice_blit_after hroom (by rw [hhead]; omega)
  have hused : (c.withDocument doc).used = c.used + doc.length := by
    have hslice : slice ((c.withDocument doc).chunks c.header.lastChunkId) 0 8 =
        encode 8 (c.used + doc.length) := by
      have hsame : slice (blit (blit (c.chunks c.header.lastChunkId) c.used doc) 0
          (encode 8 (c.used + doc.length))) 0 (encode 8 (c.used + doc.length)).length = _ :=
        slice_blit_same (Nat.zero_le _)
      rw [hhead] at hsame
      rw [chunks_withDocument, if_pos rfl]
      exact hsame
    exact used_of_slice hslice (by omega) (by omega)
  have hlimit : ∀ k ≤ c.header.lastChunkId, c.limit k ≤ (c.withDocument doc).limit k := by
    intro k hk
    unfold limit
    by_cases hkl : k = c.header.lastChunkId
    · rw [if_pos hkl, if_pos (show k = (c.withDocument doc).header.lastChunkId from hkl), hused]
      exact Nat.le_add_right _ _
    · rw [if_neg hkl, if_neg (show k ≠ (c.withDocument doc).header.lastChunkId from hkl)]
      exact le_refl _
  constructor
  case chunked =>
    refine ⟨h.chunkSize_ge, hlt, h.header_chunkSize, ?_, ?_,
      by rw [hused]; exact hge.trans (Nat.le_add_right _ _), ?_⟩
    · intro k hk
      by_cases hkl : k = c.header.lastChunkId
      · subst hkl
        rw [chunks_withDocument, if_pos rfl, length_blit hroom, hdata]
        rfl
      · rw [chunks_withDocument, if_neg hkl]
        exact h.length_chunk k hk
    · intro k hk
      have hkl : k ≠ c.header.lastChunkId := Nat.ne_of_gt hk
      rw [chunks_withDocument, if_neg hkl]
      exact h.chunk_nil k hk
    · rw [hused]
      exact hfit
  case entries_eq => rfl
  case metaSize_eq => rfl
  case chunkSize_eq => rfl
  case nextId_eq => rfl
  case lastChunkId_le => exact le_refl _
  case offset_ge => exact hge
  case used_eq => exact hused
  case slice_eq =>
    rw [show (c.withDocument doc).header.lastChunkId = c.header.lastChunkId from rfl,
      hafter _ _ hge, slice_blit_same (by rw [hlast]; omega)]
  case limit_le => exact hlimit
  case free =>
    intro k _ hkl
    unfold limit
    rw [if_pos (show k = c.header.lastChunkId from hkl)]
  case kept =>
    intro k hk a n ha hn
    by_cases hkl : k = c.header.lastChunkId
    · subst hkl
      rw [limit, if_pos rfl] at hn
      rw [hafter _ _ ha, slice_blit_before (by rw [hlast]; omega) hn]
    · rw [chunks_withDocument, if_neg hkl]

/-- A new, empty last chunk. -/
def withChunk (c : LogCollection) : LogCollection :=
  mapChunk { c with header := { c.header with lastChunkId := c.header.lastChunkId + 1 } }
    (c.header.lastChunkId + 1)

theorem makeSpace_of_fits {nextOffset size : ℕ} (hfit : size ≤ subSize c.chunkSize nextOffset) :
    c.makeSpace nextOffset size = .ok (nextOffset, c) := if_neg (Nat.not_lt.2 hfit)

theorem makeSpace_of_full {nextOffset size : ℕ} (hfull : subSize c.chunkSize nextOffset < size) :
    c.makeSpace nextOffset size = .ok (8, c.withChunk) := by
  have hnew : c.getChunkFromID (c.header.lastChunkId + 1) = .ok (some c.withChunk) := by
    unfold getChunkFromID
    rw [if_neg (Nat.succ_ne_self _), if_pos rfl]
    rfl
  unfold makeSpace
  rw [if_pos hfull, hnew]
  rfl

theorem chunked_withChunk (h : Chunked c) : Chunked c.withChunk ∧ c.withChunk.used = 8 := by
  have hnew : c.withChunk.chunks (c.header.lastChunkId + 1) = List.replicate c.chunkSize 0 := by
    simp [withChunk, mapChunk, h.chunk_nil _ (Nat.lt_succ_self _), mapFile, h.header_chunkSize]
  have hused : c.withChunk.used = 8 := by
    have hslice : slice (c.withChunk.chunks (c.header.lastChunkId + 1)) 0 8 =
        List.replicate (min 8 c.chunkSize) 0 := by
      rw [hnew]
      simp [slice, List.take_replicate]
    exact used_of_zero hslice
  refine ⟨⟨h.chunkSize_ge, h.chunkSize_lt, h.header_chunkSize, ?_, ?_, by rw [hused], ?_⟩, hused⟩
  · intro k hk
    by_cases hkl : k = c.header.lastChunkId + 1
    · rw [hkl, hnew, List.length_replicate]
      rfl
    · have hle : k ≤ c.header.lastChunkId := Nat.le_of_lt_succ (lt_of_le_of_ne hk hkl)
      simp only [withChunk, mapChunk, Function.update_of_ne hkl]
      exact h.length_chunk k hle
  · intro k hk
    have hlt : c.header.lastChunkId + 1 < k := hk
    simp only [withChunk, mapChunk, Function.update_of_ne (Nat.ne_of_gt hlt)]
    exact h.chunk_nil k (Nat.lt_of_succ_lt hlt)
  · rw [hused]
    exact h.chunkSize_ge

/-- A document written in a new chunk. -/
theorem wrote_withChunk (h : Chunked c) {doc : Bytes} (hdoc : doc.length + 8 ≤ c.chunkSize) :
    Wrote c (c.withChunk.withDocument doc) 8 doc := by
  obtain ⟨hchunked, hused⟩ := chunked_withChunk h
  have hfit : c.withChunk.used + doc.length ≤ c.withChunk.chunkSize := by
    rw [hused]
    show 8 + doc.length ≤ c.chunkSize
    omega
  have hwrote := wrote_withDocument hchunked hfit
  rw [hused] at hwrote
  have hlimit : ∀ k ≤ c.header.lastChunkId, c.limit k ≤ c.withChunk.limit k := by
    intro k hk
    have hne : k ≠ c.withChunk.header.lastChunkId := Nat.ne_of_lt (Nat.lt_succ_of_le hk)
    unfold limit
    rw [if_neg hne]
    exact limit_le h k
  constructor
  case chunked => exact hwrote.chunked
  case entries_eq => exact hwrote.entries_eq
  case metaSize_eq => exact hwrote.metaSize_eq
  case chunkSize_eq => exact hwrote.chunkSize_eq
  case nextId_eq => exact hwrote.nextId_eq
  case lastChunkId_le => exact Nat.le_succ _
  case offset_ge => exact le_refl 8
  case used_eq => exact hwrote.used_eq
  case slice_eq => exact hwrote.slice_eq
  case limit_le =>
    intro k hk
    exact (hlimit k hk).trans (hwrote.limit_le k (Nat.le_succ_of_le hk))
  case free =>
    intro k hk hkl
    exact absurd hkl (Nat.ne_of_lt (Nat.lt_succ_of_le hk))
  case kept =>
    intro k hk a n ha hn
    have hne : k ≠ c.header.lastChunkId + 1 := Nat.ne_of_lt (Nat.lt_succ_of_le hk)
    rw [hwrote.kept k (Nat.le_succ_of_le hk) a n ha (hn.trans (hlimit k hk))]
    simp only [withChunk, mapChunk, Function.update_of_ne hne]

/-- The two writes of `writeDocument`, behind the documents of the last chunk. -/
theorem writes_withDocument (h : Chunked c) {doc : Bytes}
    (hfit : c.used + doc.length ≤ c.chunkSize) :
    (do
      let (status, c') ← c.writeChunk c.header.lastChunkId c.used doc
      if status ≠ .OK then .ok (status, c.used, c')
      else
        let (status, c') ← c'.writeChunk c'.header.lastChunkId 0 (encode 8 (c.used + doc.length))
        .ok (status, c.used, c') : Outcome (Status × ℕ × LogCollection)) =
      .ok (.OK, c.used, c.withDocument doc) := by
  have hhead : 0 + (encode 8 (c.used + doc.length)).length ≤ c.header.chunkSize := by
    rw [length_encode, h.header_chunkSize]
    exact h.chunkSize_ge
  have hfirst : c.writeChunk c.header.lastChunkId c.used doc = _ :=
    writeChunk_of_le h.header_lt (by rw [h.header_chunkSize]; exact hfit)
  have hsecond : (c.blitChunk c.header.lastChunkId c.used doc).writeChunk c.header.lastChunkId 0
      (encode 8 (c.used + doc.length)) = .ok (.OK, c.withDocument doc) :=
    writeChunk_of_le h.header_lt hhead
  rw [hfirst]
  show (do
    let (status, c') ← (c.blitChunk c.header.lastChunkId c.used doc).writeChunk
      c.header.lastChunkId 0 (encode 8 (c.used + doc.length))
    .ok (status, c.used, c') : Outcome (Status × ℕ × LogCollection)) = _
  rw [hsecond]
  rfl

theorem subSize_used (h : Chunked c) : subSize c.chunkSize c.used = c.chunkSize - c.used := by
  have hlt := h.chunkSize_lt
  have hle := h.used_le
  unfold subSize
  omega

/-- A document that fits behind the others of the last chunk. -/
theorem writeDocument_of_fits (h : Chunked c) {doc : Bytes}
    (hfit : c.used + doc.length ≤ c.chunkSize) :
    c.writeDocument c.used doc = .ok (.OK, c.used, c.withDocument doc) := by
  unfold writeDocument
  rw [makeSpace_of_fits (by rw [subSize_used h]; omega)]
  exact writes_withDocument h hfit

/-- A document that needs a new chunk. -/
theorem writeDocument_of_full (h : Chunked c) {doc : Bytes}
    (hfull : c.chunkSize < c.used + doc.length) (hdoc : doc.length + 8 ≤ c.chunkSize) :
    c.writeDocument c.used doc = .ok (.OK, 8, c.withChunk.withDocument doc) := by
  have hle := h.used_le
  obtain ⟨hchunked, hused⟩ := chunked_withChunk h
  have hroom : c.withChunk.used + doc.length ≤ c.withChunk.chunkSize := by
    rw [hused]
    show 8 + doc.length ≤ c.chunkSize
    omega
  have hnew := writes_withDocument hchunked hroom
  rw [hused] at hnew
  unfold writeDocument
  rw [makeSpace_of_full (by rw [subSize_used h]; omega)]
  exact hnew

/-- A document that is too large for a chunk leaves a new chunk behind. -/
theorem writeDocument_of_large (h : Chunked c) {doc : Bytes}
    (hlarge : c.chunkSize < doc.length + 8) (hdoc : doc.length ≤ c.chunkSize) :
    c.writeDocument c.used doc = .ok (.SizeError, 8, c.withChunk) := by
  have hge := h.used_ge
  have hle := h.used_le
  have hlt := h.chunkSize_lt
  have hadd : addSize 8 doc.length = 8 + doc.length := addSize_eq (by omega)
  have hwrite : c.withChunk.writeChunk (c.header.lastChunkId + 1) 8 doc =
      .ok (.SizeError, c.withChunk) := by
    unfold writeChunk
    rw [show c.withChunk.header.chunkSize = c.header.chunkSize from rfl, hadd,
      h.header_chunkSize, if_pos (by omega)]
  unfold writeDocument
  rw [makeSpace_of_full (show subSize c.chunkSize c.used < doc.length by
    rw [subSize_used h]
    omega)]
  show (c.withChunk.writeChunk (c.header.lastChunkId + 1) 8 doc >>= _) = _
  rw [hwrite]
  rfl

/-- The spec of `writeDocument`, on the free space of the last chunk. -/
theorem writeDocument_spec (h : Chunked c) (doc : Bytes) (hdoc : doc.length + 8 ≤ c.chunkSize) :
    ∃ c' offset, c.writeDocument c.used doc = .ok (.OK, offset, c') ∧ Wrote c c' offset doc := by
  by_cases hfit : c.used + doc.length ≤ c.chunkSize
  · exact ⟨_, _, writeDocument_of_fits h hfit, wrote_withDocument h hfit⟩
  · exact ⟨_, _, writeDocument_of_full h (Nat.not_le.1 hfit) hdoc, wrote_withChunk h hdoc⟩

/-! ### Entries -/

/-- The entry points to a document, in space that ends before the free space of the chunk. -/
structure PointsTo (c : LogCollection) (e : EntryMetadata) (doc : Bytes) : Prop where
  size_eq : e.size = doc.length
  chunk_le : e.chunk ≤ c.header.lastChunkId
  offset_ge : 8 ≤ e.offset
  size_le : doc.length ≤ e.allocated
  allocated_le : e.offset + e.allocated ≤ c.limit e.chunk
  slice_eq : slice (c.chunks e.chunk) e.offset doc.length = doc

/-- The entry is a hole, or points to its document. -/
def HoldsEntry (c : LogCollection) (e : EntryMetadata) : Option Bytes → Prop
  | none => e.size = keyNotFound
  | some doc => c.PointsTo e doc

/-- The spaces of two entries do not overlap. -/
def Apart (e e' : EntryMetadata) : Prop :=
  e.chunk = e'.chunk → e.offset + e.allocated ≤ e'.offset ∨ e'.offset + e'.allocated ≤ e.offset

theorem Apart.symm {e e' : EntryMetadata} (h : Apart e e') : Apart e' e := fun he =>
  (h he.symm).symm

/-- The collection holds the documents of `m`, except for the entries that are torn. -/
structure Represents (c : LogCollection) (m : IdMap Bytes) (torn : Set ℕ) : Prop where
  chunked : Chunked c
  covers : sizeofEntry + c.header.nextId * sizeofEntry ≤ c.metaSize
  next_eq : m.next = c.header.nextId
  fresh : m.Fresh
  entry : ∀ id < c.header.nextId, id ∉ torn → c.HoldsEntry (c.entries id) (m.docs id)
  apart : ∀ id id', id ≠ id' → id ∉ torn → id' ∉ torn → (m.docs id).isSome → (m.docs id').isSome →
    Apart (c.entries id) (c.entries id')

/-- The collection with another entry, and other numbers in the header and the mapping. -/
def withEntry (c : LogCollection) (id : ℕ) (e : EntryMetadata) (metaSize nextId : ℕ)
    (collSize : UInt64) : LogCollection :=
  { c with
    entries := Function.update c.entries id e
    metaSize := metaSize
    header := { c.header with nextId := nextId, collSize := collSize } }

theorem Represents.lt_next (h : Represents c m torn) {id : ℕ} (hid : (m.docs id).isSome) :
    id < c.header.nextId := by
  by_contra hge
  rw [h.fresh id (by rw [h.next_eq]; omega)] at hid
  cases hid

theorem Represents.pointsTo (h : Represents c m torn) {id : ℕ} {doc : Bytes}
    (hdoc : m.docs id = some doc) (htorn : id ∉ torn) : c.PointsTo (c.entries id) doc := by
  have hentry := h.entry id (h.lt_next (by rw [hdoc]; rfl)) htorn
  rwa [hdoc] at hentry

theorem PointsTo.size_lt (h : Chunked c) {e : EntryMetadata} {doc : Bytes}
    (hp : c.PointsTo e doc) : e.size < keyNotFound := by
  have hlimit := limit_le h e.chunk
  have hlt := h.chunkSize_lt
  have hmax : (2 : ℕ) ^ 63 < keyNotFound := by decide
  rw [hp.size_eq]
  have := hp.size_le
  have := hp.allocated_le
  omega

/-- An entry is a hole exactly when there is no document. -/
theorem Represents.size_eq_iff (h : Represents c m torn) {id : ℕ} (hid : id < c.header.nextId)
    (htorn : id ∉ torn) : (c.entries id).size = keyNotFound ↔ m.docs id = none := by
  have hentry := h.entry id hid htorn
  cases hdoc : m.docs id with
  | none =>
    rw [hdoc] at hentry
    exact ⟨fun _ => rfl, fun _ => hentry⟩
  | some doc =>
    rw [hdoc] at hentry
    have hlt := PointsTo.size_lt h.chunked hentry
    refine ⟨fun he => absurd he (Nat.ne_of_lt hlt), fun he => by cases he⟩

theorem PointsTo.of_wrote {e : EntryMetadata} {doc doc' : Bytes} {offset : ℕ}
    (hp : c.PointsTo e doc) (hw : Wrote c c' offset doc') : c'.PointsTo e doc where
  size_eq := hp.size_eq
  chunk_le := hp.chunk_le.trans hw.lastChunkId_le
  offset_ge := hp.offset_ge
  size_le := hp.size_le
  allocated_le := hp.allocated_le.trans (hw.limit_le e.chunk hp.chunk_le)
  slice_eq := by
    have hle := hp.allocated_le
    have hsize := hp.size_le
    rw [hw.kept e.chunk hp.chunk_le e.offset doc.length hp.offset_ge (by omega), hp.slice_eq]

/-- A new document in its entry. -/
theorem represents_put (h : Represents c m torn) {doc : Bytes} {offset : ℕ}
    (hw : Wrote c c' offset doc) {id metaSize : ℕ} (hid : id ≤ c.header.nextId)
    (hmeta : c.metaSize ≤ metaSize) (hroom : sizeofEntry + (id + 1) * sizeofEntry ≤ metaSize)
    (collSize : UInt64) :
    Represents (c'.withEntry id ⟨c'.header.lastChunkId, offset, doc.length, doc.length⟩ metaSize
      (max c.header.nextId (id + 1)) collSize) (m.put id doc) (torn \ {id}) := by
  have hcovers := h.covers
  refine ⟨?_, ?_, ?_, IdMap.fresh_put h.fresh id doc, ?_, ?_⟩
  · exact ⟨hw.chunked.chunkSize_ge, hw.chunked.chunkSize_lt, hw.chunked.header_chunkSize,
      hw.chunked.length_chunk, hw.chunked.chunk_nil, hw.chunked.used_ge, hw.chunked.used_le⟩
  · show sizeofEntry + max c.header.nextId (id + 1) * sizeofEntry ≤ metaSize
    rcases le_total c.header.nextId (id + 1) with hle | hle
    · rw [max_eq_right hle]
      exact hroom
    · rw [max_eq_left hle]
      exact hcovers.trans hmeta
  · rw [IdMap.next_put, h.next_eq]
    rfl
  · intro id' hid' htorn
    have hid' : id' < max c.header.nextId (id + 1) := hid'
    show HoldsEntry _ (Function.update c'.entries id _ id') _
    -- the entry points to the new document; the others have lost nothing
    by_cases he : id' = id
    · subst he
      rw [Function.update_self, IdMap.docs_put, Function.update_self]
      refine ⟨rfl, le_refl _, hw.offset_ge, le_refl _, ?_, hw.slice_eq⟩
      show offset + doc.length ≤ limit c' c'.header.lastChunkId
      rw [limit, if_pos rfl, hw.used_eq]
    · rw [Function.update_of_ne he, IdMap.docs_put, Function.update_of_ne he, hw.entries_eq]
      have hlt : id' < c.header.nextId := by omega
      have hentry := h.entry id' hlt fun hmem => htorn ⟨hmem, he⟩
      cases hdoc : m.docs id' with
      | none =>
        rw [hdoc] at hentry
        exact hentry
      | some doc' =>
        rw [hdoc] at hentry
        have hp := PointsTo.of_wrote hentry hw
        exact ⟨hp.size_eq, hp.chunk_le, hp.offset_ge, hp.size_le, hp.allocated_le, hp.slice_eq⟩
  · -- an old entry of the last chunk ends before the new document
    have hold : ∀ id', id' ≠ id → id' ∉ torn → (m.docs id').isSome →
        Apart (c.entries id') ⟨c'.header.lastChunkId, offset, doc.length, doc.length⟩ := by
      intro id' _ htorn hsome hchunk
      obtain ⟨doc', hdoc'⟩ := Option.isSome_iff_exists.1 hsome
      have hp := h.pointsTo hdoc' htorn
      exact Or.inl (hp.allocated_le.trans (hw.free _ hp.chunk_le hchunk))
    have hkept : ∀ id', id' ≠ id → id' ∉ torn \ {id} → ((m.put id doc).docs id').isSome →
        id' ∉ torn ∧ (m.docs id').isSome := by
      intro id' hne htorn hsome
      rw [IdMap.docs_put, Function.update_of_ne hne] at hsome
      exact ⟨fun hmem => htorn ⟨hmem, hne⟩, hsome⟩
    intro id₁ id₂ hne htorn₁ htorn₂ hsome₁ hsome₂
    show Apart (Function.update c'.entries id _ id₁) (Function.update c'.entries id _ id₂)
    rw [hw.entries_eq]
    by_cases h₁ : id₁ = id
    · have h₂ : id₂ ≠ id := fun he => hne (h₁.trans he.symm)
      obtain ⟨ht, hs⟩ := hkept id₂ h₂ htorn₂ hsome₂
      rw [h₁, Function.update_self, Function.update_of_ne h₂]
      exact (hold id₂ h₂ ht hs).symm
    · obtain ⟨ht₁, hs₁⟩ := hkept id₁ h₁ htorn₁ hsome₁
      rw [Function.update_of_ne h₁]
      by_cases h₂ : id₂ = id
      · rw [h₂, Function.update_self]
        exact hold id₁ h₁ ht₁ hs₁
      · obtain ⟨ht₂, hs₂⟩ := hkept id₂ h₂ htorn₂ hsome₂
        rw [Function.update_of_ne h₂]
        exact h.apart id₁ id₂ hne ht₁ ht₂ hs₁ hs₂

/-- An entry without document: a hole, or torn. -/
theorem represents_hole (h : Represents c m torn) (m' : IdMap Bytes) (torn' : Set ℕ)
    {id metaSize : ℕ} (e : EntryMetadata) (collSize : UInt64) (hid : id ≤ c.header.nextId)
    (hmeta : sizeofEntry + max c.header.nextId (id + 1) * sizeofEntry ≤ metaSize)
    (hnext : m'.next = max c.header.nextId (id + 1))
    (hdocs : m'.docs = Function.update m.docs id none) (htorn : torn \ {id} ⊆ torn')
    (he : id ∈ torn' ∨ e.size = keyNotFound) :
    Represents (c.withEntry id e metaSize (max c.header.nextId (id + 1)) collSize) m' torn' := by
  have hch := h.chunked
  -- a document of the result is one that was there, under another id
  have hkept : ∀ id', (m'.docs id').isSome → id' ≠ id ∧ m.docs id' = m'.docs id' := by
    intro id' hsome
    have hne : id' ≠ id := by
      rintro rfl
      rw [hdocs, Function.update_self] at hsome
      cases hsome
    rw [hdocs, Function.update_of_ne hne]
    exact ⟨hne, rfl⟩
  refine ⟨⟨hch.chunkSize_ge, hch.chunkSize_lt, hch.header_chunkSize, hch.length_chunk,
    hch.chunk_nil, hch.used_ge, hch.used_le⟩, hmeta, hnext, ?_, ?_, ?_⟩
  · intro id' hid'
    rw [hnext] at hid'
    rw [hdocs, Function.update_of_ne (by omega)]
    exact h.fresh id' (by rw [h.next_eq]; omega)
  · intro id' hid' hnot
    have hid' : id' < max c.header.nextId (id + 1) := hid'
    show HoldsEntry _ (Function.update c.entries id e id') (m'.docs id')
    by_cases heq : id' = id
    · subst heq
      rw [Function.update_self, hdocs, Function.update_self]
      exact he.resolve_left hnot
    · have hentry := h.entry id' (by omega) fun hmem => hnot (htorn ⟨hmem, heq⟩)
      rw [Function.update_of_ne heq, hdocs, Function.update_of_ne heq]
      cases hdoc : m.docs id' with
      | none =>
        rw [hdoc] at hentry
        exact hentry
      | some doc =>
        rw [hdoc] at hentry
        exact ⟨hentry.size_eq, hentry.chunk_le, hentry.offset_ge, hentry.size_le,
          hentry.allocated_le, hentry.slice_eq⟩
  · intro id₁ id₂ hne hnot₁ hnot₂ hsome₁ hsome₂
    obtain ⟨h₁, hdoc₁⟩ := hkept id₁ hsome₁
    obtain ⟨h₂, hdoc₂⟩ := hkept id₂ hsome₂
    show Apart (Function.update c.entries id e id₁) (Function.update c.entries id e id₂)
    rw [Function.update_of_ne h₁, Function.update_of_ne h₂]
    exact h.apart id₁ id₂ hne (fun hmem => hnot₁ (htorn ⟨hmem, h₁⟩))
      (fun hmem => hnot₂ (htorn ⟨hmem, h₂⟩)) (by rwa [hdoc₁]) (by rwa [hdoc₂])

/-- Bytes written in a chunk, behind its first word. -/
theorem chunked_blitChunk (h : Chunked c) {k offset : ℕ} {bytes : Bytes}
    (hk : k ≤ c.header.lastChunkId) (hoffset : 8 ≤ offset)
    (hfit : offset + bytes.length ≤ c.chunkSize) :
    Chunked (c.blitChunk k offset bytes) ∧ (c.blitChunk k offset bytes).used = c.used := by
  have hroom : offset + bytes.length ≤ (c.chunks k).length := by
    rw [h.length_chunk k hk]
    exact hfit
  have hchunks : ∀ j, (c.blitChunk k offset bytes).chunks j =
      if j = k then blit (c.chunks j) offset bytes else c.chunks j := by
    intro j
    by_cases hj : j = k
    · subst hj
      simp [blitChunk]
    · simp [blitChunk, hj]
  have hused : (c.blitChunk k offset bytes).used = c.used := by
    have hhead : slice ((c.blitChunk k offset bytes).chunks c.header.lastChunkId) 0 8 =
        slice (c.chunks c.header.lastChunkId) 0 8 := by
      rw [hchunks]
      split_ifs with hlast
      · subst hlast
        exact slice_blit_before (by omega) hoffset
      · rfl
    unfold used
    rw [show (c.blitChunk k offset bytes).header = c.header from rfl, hhead]
  refine ⟨⟨h.chunkSize_ge, h.chunkSize_lt, h.header_chunkSize, fun j hj => ?_, fun j hj => ?_,
    hused.symm ▸ h.used_ge, hused.symm ▸ h.used_le⟩, hused⟩
  · show ((c.blitChunk k offset bytes).chunks j).length = c.chunkSize
    rw [hchunks]
    split_ifs with hjk
    · subst hjk
      rw [length_blit hroom, h.length_chunk j hj]
    · exact h.length_chunk j hj
  · have hj : c.header.lastChunkId < j := hj
    rw [hchunks, if_neg (by omega)]
    exact h.chunk_nil j hj

/-- A document written in place of another. -/
theorem represents_inPlace (h : Represents c m torn) {id : ℕ} {old doc : Bytes}
    (hold : m.docs id = some old) (htorn : id ∉ torn)
    (hfit : doc.length ≤ (c.entries id).allocated) (collSize : UInt64) :
    Represents ((c.blitChunk (c.entries id).chunk (c.entries id).offset doc).withEntry id
      { c.entries id with size := doc.length } c.metaSize c.header.nextId collSize)
      (m.put id doc) torn := by
  have hch := h.chunked
  have hlt : id < c.header.nextId := h.lt_next (by rw [hold]; rfl)
  have hp := h.pointsTo hold htorn
  generalize he : c.entries id = e at hfit hp ⊢
  have hlimit := limit_le hch e.chunk
  have hle := hp.allocated_le
  have hge := hp.offset_ge
  have hlen := hch.length_chunk e.chunk hp.chunk_le
  have hroom : e.offset + doc.length ≤ (c.chunks e.chunk).length := by omega
  have hchunks : ∀ k, ((c.blitChunk e.chunk e.offset doc).chunks k) =
      if k = e.chunk then blit (c.chunks k) e.offset doc else c.chunks k := by
    intro k
    by_cases hk : k = e.chunk
    · subst hk
      simp [blitChunk]
    · simp [blitChunk, hk]
  -- what lies outside of the space of the entry is as it was
  have hother : ∀ k a n, (k = e.chunk → a + n ≤ e.offset ∨ e.offset + e.allocated ≤ a) →
      slice ((c.blitChunk e.chunk e.offset doc).chunks k) a n = slice (c.chunks k) a n := by
    intro k a n hapart
    rw [hchunks]
    split_ifs with hk
    · subst hk
      refine slice_blit_disjoint hroom ?_
      rcases hapart rfl with hlo | hhi
      · exact Or.inl hlo
      · exact Or.inr (by omega)
    · rfl
  obtain ⟨hchunked, hused⟩ := @chunked_blitChunk c hch e.chunk e.offset doc hp.chunk_le hge
    (by omega)
  have hlimits : ∀ k, (c.blitChunk e.chunk e.offset doc).limit k = c.limit k := by
    intro k
    unfold limit
    rw [hused]
    rfl
  have hsome : ∀ id', ((m.put id doc).docs id').isSome → (m.docs id').isSome := by
    intro id' hs
    by_cases hid' : id' = id
    · rw [hid', hold]
      rfl
    · rwa [IdMap.docs_put, Function.update_of_ne hid'] at hs
  constructor
  case chunked =>
    exact ⟨hchunked.chunkSize_ge, hchunked.chunkSize_lt, hchunked.header_chunkSize,
      hchunked.length_chunk, hchunked.chunk_nil, hchunked.used_ge, hchunked.used_le⟩
  case covers => exact h.covers
  case next_eq =>
    show max m.next (id + 1) = c.header.nextId
    rw [h.next_eq]
    omega
  case fresh => exact IdMap.fresh_put h.fresh id doc
  case entry =>
    intro id' hid' hnot
    show HoldsEntry _ (Function.update c.entries id { e with size := doc.length } id') _
    by_cases heq : id' = id
    · rw [heq, Function.update_self, IdMap.docs_put, Function.update_self]
      refine ⟨rfl, hp.chunk_le, hp.offset_ge, hfit, ?_, ?_⟩
      · exact hle.trans_eq (hlimits e.chunk).symm
      · show slice ((c.blitChunk e.chunk e.offset doc).chunks e.chunk) e.offset doc.length = doc
        rw [hchunks, if_pos rfl, slice_blit_same (by omega)]
    · rw [Function.update_of_ne heq, IdMap.docs_put, Function.update_of_ne heq]
      have hentry := h.entry id' hid' hnot
      cases hdoc : m.docs id' with
      | none =>
        rw [hdoc] at hentry
        exact hentry
      | some doc' =>
        rw [hdoc] at hentry
        have hapart := h.apart id' id heq hnot htorn (by rw [hdoc]; rfl) (by rw [hold]; rfl)
        rw [he] at hapart
        refine ⟨hentry.size_eq, hentry.chunk_le, hentry.offset_ge, hentry.size_le, ?_, ?_⟩
        · exact hentry.allocated_le.trans_eq (hlimits _).symm
        · show slice ((c.blitChunk e.chunk e.offset doc).chunks _) _ _ = doc'
          rw [hother, hentry.slice_eq]
          intro hk
          have hsize := hentry.size_le
          rcases hapart hk with hlo | hhi
          · exact Or.inl (by omega)
          · exact Or.inr hhi
  case apart =>
    intro id₁ id₂ hne hnot₁ hnot₂ hsome₁ hsome₂
    have hapart := h.apart id₁ id₂ hne hnot₁ hnot₂ (hsome _ hsome₁) (hsome _ hsome₂)
    -- only the size of the entry has changed
    show Apart (Function.update c.entries id _ id₁) (Function.update c.entries id _ id₂)
    by_cases h₁ : id₁ = id
    · have h₂ : id₂ ≠ id := fun he => hne (h₁.trans he.symm)
      rw [h₁, he] at hapart
      rw [h₁, Function.update_self, Function.update_of_ne h₂]
      exact hapart
    · rw [Function.update_of_ne h₁]
      by_cases h₂ : id₂ = id
      · rw [h₂, he] at hapart
        rw [h₂, Function.update_self]
        exact hapart
      · rw [Function.update_of_ne h₂]
        exact hapart

/-! ### The meta file -/

/-- The size of the mapping after the entry of `id` is written. -/
def metaSizeFor (c : LogCollection) (id : ℕ) : ℕ :=
  if c.metaSize < sizeofEntry + id * sizeofEntry + sizeofEntry then 2 * c.metaSize else c.metaSize

theorem metaSize_le_metaSizeFor (id : ℕ) : c.metaSize ≤ c.metaSizeFor id := by
  unfold metaSizeFor
  split_ifs <;> omega

theorem room_metaSizeFor (h : sizeofEntry + c.header.nextId * sizeofEntry ≤ c.metaSize) {id : ℕ}
    (hid : id ≤ c.header.nextId) : sizeofEntry + (id + 1) * sizeofEntry ≤ c.metaSizeFor id := by
  have hmul : id * sizeofEntry ≤ c.header.nextId * sizeofEntry := Nat.mul_le_mul_right _ hid
  have hpos : sizeofEntry = 32 := rfl
  unfold metaSizeFor
  rw [Nat.succ_mul]
  split_ifs <;> omega

/-- Writing an entry: the file grows, unless it would become too large, and the entry is written if
it lies in the mapping then. -/
theorem writeEntryMetadata_cases (c : LogCollection) (id : ℕ) (e : EntryMetadata) :
    Ensures (fun err => err = .fileTooLarge ∧ 2 ^ 63 ≤ c.metaSizeFor id)
      (c.writeEntryMetadata id e) (fun r =>
        (c.metaSizeFor id = c.metaSize ∨ c.metaSizeFor id < 2 ^ 63) ∧
          r = if c.metaSizeFor id < sizeofEntry + id * sizeofEntry + sizeofEntry then
            (.SizeError, { c with metaSize := c.metaSizeFor id })
          else (.OK, c.withEntry id e (c.metaSizeFor id) c.header.nextId c.header.collSize)) := by
  unfold writeEntryMetadata
  by_cases hgrow : c.metaSize < sizeofEntry + id * sizeofEntry + sizeofEntry
  · have hsize : c.metaSizeFor id = 2 * c.metaSize := if_pos hgrow
    have hextend : c.extend (2 * c.metaSize) =
        if c.metaSizeFor id = c.metaSize ∨ c.metaSizeFor id < 2 ^ 63 then
          .ok { c with metaSize := c.metaSizeFor id } else .error .fileTooLarge := by
      unfold extend
      rw [hsize]
      by_cases hmore : 2 * c.metaSize ≤ c.metaSize
      · have hsame : 2 * c.metaSize = c.metaSize := by omega
        rw [if_pos hmore, if_pos (Or.inl hsame), hsame]
      · have hne : 2 * c.metaSize ≠ c.metaSize := by omega
        simp only [if_neg hmore, hne, false_or]
    rw [if_pos hgrow, hextend]
    by_cases hbound : c.metaSizeFor id = c.metaSize ∨ c.metaSizeFor id < 2 ^ 63
    · rw [if_pos hbound]
      show Ensures _ (if c.metaSizeFor id < _ then _ else _) _
      split_ifs
      · exact ⟨hbound, rfl⟩
      · exact ⟨hbound, rfl⟩
    · rw [if_neg hbound]
      exact ⟨rfl, Nat.not_lt.1 fun hlt => hbound (Or.inr hlt)⟩
  · have hsize : c.metaSizeFor id = c.metaSize := if_neg hgrow
    rw [hsize, if_neg hgrow]
    show Ensures _ (if c.metaSize < _ then _ else _) _
    rw [if_neg hgrow, if_neg hgrow]
    exact ⟨Or.inl rfl, rfl⟩

/-- Writing an entry, at most one past the end. -/
theorem writeEntryMetadata_limit (h : sizeofEntry + c.header.nextId * sizeofEntry ≤ c.metaSize)
    {id : ℕ} (hid : id ≤ c.header.nextId) (e : EntryMetadata) :
    Ensures (· = .fileTooLarge) (c.writeEntryMetadata id e) (fun r =>
      (c.metaSizeFor id = c.metaSize ∨ c.metaSizeFor id < 2 ^ 63) ∧
        r = (.OK, c.withEntry id e (c.metaSizeFor id) c.header.nextId c.header.collSize)) := by
  have hroom := room_metaSizeFor h hid
  rw [Nat.succ_mul, ← Nat.add_assoc] at hroom
  refine ((c.writeEntryMetadata_cases id e).allow fun _ herr => herr.1).mono fun r hr => ?_
  rwa [if_neg (Nat.not_lt.2 hroom)] at hr

theorem writeEntryMetadata_spec (h : sizeofEntry + c.header.nextId * sizeofEntry ≤ c.metaSize)
    {id : ℕ} (hid : id ≤ c.header.nextId) (e : EntryMetadata) :
    Ensures (· = .fileTooLarge) (c.writeEntryMetadata id e) (fun r =>
      r = (.OK, c.withEntry id e (c.metaSizeFor id) c.header.nextId c.header.collSize)) :=
  (writeEntryMetadata_limit h hid e).mono fun _ hr => hr.2

/-- Writing an entry in the mapping. -/
theorem writeEntryMetadata_of_room {id : ℕ}
    (hroom : sizeofEntry + id * sizeofEntry + sizeofEntry ≤ c.metaSize) (e : EntryMetadata) :
    c.writeEntryMetadata id e =
      .ok (.OK, c.withEntry id e c.metaSize c.header.nextId c.header.collSize) := by
  have hno : ¬ c.metaSize < sizeofEntry + id * sizeofEntry + sizeofEntry := Nat.not_lt.2 hroom
  unfold writeEntryMetadata
  rw [if_neg hno]
  show (if c.metaSize < _ then _ else _) = _
  rw [if_neg hno]
  rfl

theorem readEntryMetadata_of_room {id : ℕ}
    (hroom : sizeofEntry + id * sizeofEntry + sizeofEntry ≤ c.metaSize) :
    c.readEntryMetadata id = (.OK, c.entries id) := if_neg (Nat.not_lt.2 hroom)

/-- The entry of an id that exists lies in the mapping. -/
theorem room_of_lt (h : sizeofEntry + c.header.nextId * sizeofEntry ≤ c.metaSize) {id : ℕ}
    (hid : id < c.header.nextId) :
    sizeofEntry + id * sizeofEntry + sizeofEntry ≤ c.metaSize := by
  have hmul : (id + 1) * sizeofEntry ≤ c.header.nextId * sizeofEntry := Nat.mul_le_mul_right _ hid
  rw [Nat.succ_mul] at hmul
  omega

/-- Writing the entry of an id that exists. -/
theorem writeEntryMetadata_of_lt (h : sizeofEntry + c.header.nextId * sizeofEntry ≤ c.metaSize)
    {id : ℕ} (hid : id < c.header.nextId) (e : EntryMetadata) :
    c.writeEntryMetadata id e =
      .ok (.OK, c.withEntry id e c.metaSize c.header.nextId c.header.collSize) :=
  writeEntryMetadata_of_room (room_of_lt h hid) e

theorem readEntryMetadata_of_lt (h : sizeofEntry + c.header.nextId * sizeofEntry ≤ c.metaSize)
    {id : ℕ} (hid : id < c.header.nextId) : c.readEntryMetadata id = (.OK, c.entries id) :=
  readEntryMetadata_of_room (room_of_lt h hid)

/-! ### Loops -/

/-- The documents of a request, with their ids, from an offset of the data on. -/
def docsAt (data : Bytes) (docOffset : ℕ) (docs : List (UInt64 × ℕ)) : List (ℕ × Bytes) :=
  (docs.map (fun p => p.1.toNat)).zip (unpack (data.drop docOffset) (docs.map Prod.snd))

theorem docsAt_cons (data : Bytes) (docOffset : ℕ) (id : UInt64) (size : ℕ)
    (docs : List (UInt64 × ℕ)) :
    docsAt data docOffset ((id, size) :: docs) =
      (id.toNat, slice data docOffset size) :: docsAt data (docOffset + size) docs := by
  simp only [docsAt, List.map_cons, unpack_cons, List.zip_cons_cons, List.drop_drop]
  rfl

/-- The spec of the loop of `append`. -/
theorem appendLoop_spec {data : Bytes} {sizes : List ℕ} (docOffset : ℕ) (ids : List UInt64)
    (h : Represents c m ∅) (hsizes : ∀ size ∈ sizes, size + 8 ≤ c.chunkSize)
    (hdata : docOffset + sizes.sum ≤ data.length) :
    Ensures (· = .fileTooLarge) (appendLoop data sizes docOffset c.used c ids) (fun r =>
      r.1 = .OK ∧
        r.2.1 = ids ++ (List.range' c.header.nextId sizes.length).map UInt64.ofNat ∧
        r.2.2.chunkSize = c.chunkSize ∧
        Represents r.2.2 (m.append (unpack (data.drop docOffset) sizes)) ∅) := by
  induction sizes generalizing c m docOffset ids with
  | nil => exact ⟨rfl, by simp, rfl, h⟩
  | cons size sizes ih =>
    rw [List.sum_cons] at hdata
    have hlen : (slice data docOffset size).length = size := length_slice_of_le (by omega)
    have hroom : (slice data docOffset size).length + 8 ≤ c.chunkSize := by
      rw [hlen]
      exact hsizes size List.mem_cons_self
    obtain ⟨c₁, offset, hwrite, hw⟩ := writeDocument_spec h.chunked _ hroom
    have hcovers : sizeofEntry + c₁.header.nextId * sizeofEntry ≤ c₁.metaSize := by
      rw [hw.nextId_eq, hw.metaSize_eq]
      exact h.covers
    have hid : c.header.nextId ≤ c₁.header.nextId := hw.nextId_eq.ge
    have hmeta : sizeofEntry + (c.header.nextId + 1) * sizeofEntry ≤
        c₁.metaSizeFor c.header.nextId := room_metaSizeFor hcovers hid
    unfold appendLoop
    rw [hwrite]
    show Ensures _ (writeEntryMetadata c₁ _ _ >>= _) _
    refine Ensures.bind (writeEntryMetadata_spec hcovers hid _) ?_
    rintro ⟨status, c₂⟩ hr
    obtain ⟨rfl, rfl⟩ := Prod.mk.inj hr
    have hput := represents_put h hw (le_refl c.header.nextId)
      (hw.metaSize_eq.ge.trans (metaSize_le_metaSizeFor _)) hmeta (c₁.header.collSize + 1)
    rw [hlen, Nat.max_eq_right (Nat.le_succ _), Set.empty_sdiff] at hput
    have hused : used (c₁.withEntry c.header.nextId ⟨c₁.header.lastChunkId, offset, size, size⟩
        (c₁.metaSizeFor c.header.nextId) (c.header.nextId + 1) (c₁.header.collSize + 1)) =
        offset + size := by
      rw [← hlen]
      exact hw.used_eq
    have hrest := ih (docOffset + size) (ids ++ [UInt64.ofNat c.header.nextId]) hput ?_ (by omega)
    · rw [hused] at hrest
      refine hrest.mono fun r hr => ⟨hr.1, ?_, hr.2.2.1.trans hw.chunkSize_eq, ?_⟩
      · rw [hr.2.1, List.append_assoc, List.length_cons, List.range'_succ]
        rfl
      · have happend := hr.2.2.2
        rw [← List.drop_drop, ← h.next_eq] at happend
        rw [unpack_cons]
        exact happend
    · intro size' hsize'
      show size' + 8 ≤ c₁.chunkSize
      rw [hw.chunkSize_eq]
      exact hsizes size' (List.mem_cons_of_mem _ hsize')

/-- The space an entry has, and no space where there is no entry. -/
def allocatedFor (c : LogCollection) (id : ℕ) : ℕ :=
  if id < c.header.nextId then (c.entries id).allocated else 0

/-- A new entry without space changes no space. -/
theorem allocatedFor_hole {e : EntryMetadata} (he : e.allocated = 0) (metaSize : ℕ)
    (collSize : UInt64) : (c.withEntry c.header.nextId e metaSize (c.header.nextId + 1)
      collSize).allocatedFor = c.allocatedFor := by
  funext id
  unfold allocatedFor
  show (if id < c.header.nextId + 1 then
    (Function.update c.entries c.header.nextId e id).allocated else 0) = _
  by_cases hid : id = c.header.nextId
  · subst hid
    rw [if_pos (Nat.lt_succ_self _), if_neg (lt_irrefl _), Function.update_self, he]
  · rw [Function.update_of_ne hid]
    by_cases hlt : id < c.header.nextId
    · rw [if_pos hlt, if_pos (by omega)]
    · rw [if_neg hlt, if_neg (by omega)]

/-- The spec of the loop that creates entries. -/
theorem createEntries_spec {n : ℕ} (h : Represents c m ∅) :
    Ensures (· = .fileTooLarge) (createEntries n c) (fun r =>
      r.1 = .OK ∧ r.2.chunkSize = c.chunkSize ∧ r.2.header.nextId = c.header.nextId + n ∧
        r.2.allocatedFor = c.allocatedFor ∧ Represents r.2 ⟨m.next + n, m.docs⟩ ∅) := by
  induction n generalizing c m with
  | zero => exact ⟨rfl, rfl, rfl, rfl, h⟩
  | succ n ih =>
    have hnext := h.next_eq
    have hmax : max c.header.nextId (c.header.nextId + 1) = c.header.nextId + 1 :=
      max_eq_right (Nat.le_succ _)
    have hroom : sizeofEntry + max c.header.nextId (c.header.nextId + 1) * sizeofEntry ≤
        c.metaSizeFor c.header.nextId := by
      rw [hmax]
      exact room_metaSizeFor h.covers le_rfl
    have hrep := represents_hole h ⟨m.next + 1, m.docs⟩ ∅
      ⟨c.header.lastChunkId, keyNotFound, keyNotFound, 0⟩ c.header.collSize le_rfl hroom
      (by rw [hmax, hnext]) (Function.update_eq_self_iff.2 (h.fresh _ hnext.le).symm).symm
      Set.sdiff_subset (Or.inr rfl)
    rw [hmax] at hrep
    unfold createEntries
    refine Ensures.bind (writeEntryMetadata_spec h.covers le_rfl _) ?_
    rintro ⟨status, c₁⟩ hr
    obtain ⟨rfl, rfl⟩ := Prod.mk.inj hr
    refine Ensures.mono (ih hrep) fun r hr => ⟨hr.1, hr.2.1, ?_, ?_, ?_⟩
    · rw [hr.2.2.1, Nat.add_comm n 1, ← Nat.add_assoc]
      rfl
    · have hole := allocatedFor_hole (c := c)
        (e := ⟨c.header.lastChunkId, keyNotFound, keyNotFound, 0⟩) rfl
        (c.metaSizeFor c.header.nextId) c.header.collSize
      exact hr.2.2.2.1.trans hole
    · rw [Nat.add_comm n 1, ← Nat.add_assoc]
      exact hr.2.2.2.2

/-! ### The first pass of `update` -/

theorem countDocument_withEntry (id : ℕ) (e : EntryMetadata) (increment : Bool) :
    ∃ collSize, (c.withEntry id e c.metaSize c.header.nextId c.header.collSize).countDocument
      increment = c.withEntry id e c.metaSize c.header.nextId collSize := by
  cases increment
  · exact ⟨c.header.collSize, rfl⟩
  · exact ⟨c.header.collSize + 1, rfl⟩

/-- An entry in the mapping, with the size of another document. -/
theorem resizeEntry_of_room {id : ℕ}
    (hroom : sizeofEntry + id * sizeofEntry + sizeofEntry ≤ c.metaSize) (size : ℕ) :
    c.resizeEntry id (c.entries id) size = .ok (.OK,
      c.withEntry id { c.entries id with size } c.metaSize c.header.nextId c.header.collSize) := by
  unfold resizeEntry
  split_ifs with hsize
  · exact writeEntryMetadata_of_room hroom _
  · have hsame : Function.update c.entries id { c.entries id with size } = c.entries := by
      rw [Function.update_eq_self_iff, ← not_not.1 hsize]
    unfold withEntry
    rw [hsame]

/-- The first pass on a document that fits in the space of its entry. -/
theorem inPlacePass_cons {data : Bytes} {id : UInt64} {size docOffset : ℕ}
    (docs : List (UInt64 × ℕ)) (es : List EntryMetadata) {e : EntryMetadata} {doc : Bytes}
    (hcovers : sizeofEntry + c.header.nextId * sizeofEntry ≤ c.metaSize)
    (hid : id.toNat < c.header.nextId) (he : c.entries id.toNat = e) (hfit : size ≤ e.allocated)
    (hdoc : slice data docOffset size = doc)
    (hwrite : c.overwrite e doc = .ok (.OK, c.blitChunk e.chunk e.offset doc)) :
    ∃ collSize, inPlacePass data ((id, size) :: docs) docOffset c es =
      inPlacePass data docs (docOffset + size)
        ((c.blitChunk e.chunk e.offset doc).withEntry id.toNat { e with size } c.metaSize
          c.header.nextId collSize) (es ++ [{ e with size }]) := by
  have hresize : (c.blitChunk e.chunk e.offset doc).resizeEntry id.toNat e size =
      .ok (.OK, (c.blitChunk e.chunk e.offset doc).withEntry id.toNat { e with size } c.metaSize
        c.header.nextId c.header.collSize) := by
    subst he
    exact @resizeEntry_of_room (c.blitChunk _ _ doc) id.toNat (room_of_lt hcovers hid) size
  obtain ⟨collSize, hcount⟩ := countDocument_withEntry (c := c.blitChunk e.chunk e.offset doc)
    id.toNat { e with size } (e.size = keyNotFound)
  refine ⟨collSize, ?_⟩
  have hno : ¬ e.allocated < size := Nat.not_lt.2 hfit
  conv_lhs => unfold inPlacePass
  rw [readEntryMetadata_of_lt hcovers hid, he]
  dsimp only
  rw [if_neg (not_not.2 rfl), if_neg hno, hdoc, hwrite]
  dsimp only [bind, Except.bind]
  rw [if_neg (not_not.2 rfl), hresize]
  dsimp only
  rw [if_neg (not_not.2 rfl)]
  exact congrArg (fun c => inPlacePass data docs (docOffset + size) c (es ++ [{ e with size }]))
    hcount

/-- An empty document is not written. -/
theorem overwrite_nil (e : EntryMetadata) :
    c.overwrite e [] = .ok (.OK, c.blitChunk e.chunk e.offset []) := by
  have hnil : c.blitChunk e.chunk e.offset [] = c := by simp [blitChunk]
  rw [hnil]
  rfl

/-- The space of a document that is present can be written, if the collection gets at its chunk. -/
theorem overwrite_of_pointsTo (h : Chunked c) {e : EntryMetadata} {old doc : Bytes}
    (hp : c.PointsTo e old) (hreaches : c.Reaches e.chunk) (hfit : doc.length ≤ e.allocated) :
    c.overwrite e doc = .ok (.OK, c.blitChunk e.chunk e.offset doc) := by
  by_cases hlen : doc.length = 0
  · rw [List.length_eq_zero_iff.1 hlen, overwrite_nil]
  · have hle := hp.allocated_le
    have hlimit := limit_le h e.chunk
    unfold overwrite
    rw [if_pos hlen, derefChunk_of_reaches h hp.chunk_le hreaches]
    exact writeChunk_of_le h.header_lt (by rw [h.header_chunkSize]; omega)

/-- The first pass stops at a document whose chunk cannot be got at. -/
theorem inPlacePass_of_not_reaches (h : Chunked c) {data : Bytes} {id : UInt64}
    {size docOffset : ℕ} (docs : List (UInt64 × ℕ)) (es : List EntryMetadata) {old : Bytes}
    (hcovers : sizeofEntry + c.header.nextId * sizeofEntry ≤ c.metaSize)
    (hid : id.toNat < c.header.nextId) (hp : c.PointsTo (c.entries id.toNat) old)
    (hreaches : ¬ c.Reaches (c.entries id.toNat).chunk)
    (hfit : size ≤ (c.entries id.toNat).allocated) (hne : (slice data docOffset size).length ≠ 0) :
    inPlacePass data ((id, size) :: docs) docOffset c es = .error .emptyCache := by
  have hover : c.overwrite (c.entries id.toNat) (slice data docOffset size) =
      .error .emptyCache := by
    unfold overwrite
    rw [if_pos hne, derefChunk_of_le h hp.chunk_le, if_neg hreaches]
    rfl
  unfold inPlacePass
  rw [readEntryMetadata_of_lt hcovers hid]
  dsimp only
  rw [if_neg (not_not.2 rfl), if_neg (Nat.not_lt.2 hfit), hover]
  rfl

/-- The document fits in the space of its entry. -/
def reuses (alloc : ℕ → ℕ) (p : ℕ × Bytes) : Bool := p.2.length ≤ alloc p.1

theorem Represents.mono {torn' : Set ℕ} (h : Represents c m torn) (hsub : torn ⊆ torn') :
    Represents c m torn' where
  chunked := h.chunked
  covers := h.covers
  next_eq := h.next_eq
  fresh := h.fresh
  entry id hid hnot := h.entry id hid fun hmem => hnot (hsub hmem)
  apart id id' hne h₁ h₂ := h.apart id id' hne (fun hmem => h₁ (hsub hmem)) fun hmem =>
    h₂ (hsub hmem)

/-- What holds during the first pass, with the space that the entries have and the ids present
before it. -/
structure InPlace (c : LogCollection) (m : IdMap Bytes) (torn : Set ℕ) (alloc : ℕ → ℕ)
    (live : ℕ → Bool) : Prop where
  represents : Represents c m torn
  alloc_eq : ∀ id < c.header.nextId, (c.entries id).allocated = alloc id
  live_eq : ∀ id, (m.docs id).isSome = live id
  torn_dead : ∀ id ∈ torn, live id = false

variable {alloc : ℕ → ℕ} {live : ℕ → Bool} {allowed : Failure → Prop}

theorem update_allocated {id : ℕ} {e : EntryMetadata} (hid : id < c.header.nextId)
    (halloc : ∀ id < c.header.nextId, (c.entries id).allocated = alloc id)
    (he : e.allocated = (c.entries id).allocated) {id' : ℕ} (hid' : id' < c.header.nextId) :
    (Function.update c.entries id e id').allocated = alloc id' := by
  by_cases h : id' = id
  · rw [h, Function.update_self, he, halloc id hid]
  · rw [Function.update_of_ne h, halloc id' hid']

/-- A step of the first pass: the document is written over another one, it empties the entry of an
id without document, or it is left to the second pass. It fails if the cache has no room for the chunk
of the other one. -/
theorem inPlacePass_step {data : Bytes} (docs : List (UInt64 × ℕ)) {docOffset size : ℕ}
    (es : List EntryMetadata) {id : UInt64} {doc : Bytes} (h : InPlace c m torn alloc live)
    (hid : id.toNat < c.header.nextId) (hdoc : slice data docOffset size = doc)
    (hlen : doc.length = size) (hreuse : size ≤ alloc id.toNat → size ≠ 0 → live id.toNat = true) :
    (¬ c.HasRoom ∧
        inPlacePass data ((id, size) :: docs) docOffset c es = .error .emptyCache) ∨
    ∃ c' e, inPlacePass data ((id, size) :: docs) docOffset c es =
        inPlacePass data docs (docOffset + size) c' (es ++ [e]) ∧
      e.allocated = alloc id.toNat ∧ c'.cacheSize = c.cacheSize ∧ c'.chunkSize = c.chunkSize ∧
      c'.header.nextId = c.header.nextId ∧
      InPlace c' (m.write ([(id.toNat, doc)].filter fun p => reuses alloc p && live p.1))
        (torn ∪ {id' | live id' = false ∧ id' = id.toNat ∧ reuses alloc (id.toNat, doc) = true})
        alloc live := by
  have hr := h.represents
  have hallocated := h.alloc_eq id.toNat hid
  have hreuses : reuses alloc (id.toNat, doc) = decide (size ≤ alloc id.toNat) := by
    rw [← hlen]
    rfl
  by_cases hfit : size ≤ alloc id.toNat
  · rw [hreuses, decide_eq_true hfit]
    have hfit' : doc.length ≤ (c.entries id.toNat).allocated := by rw [hlen, hallocated]; exact hfit
    cases hl : live id.toNat with
    | true =>
      -- the entry holds another document
      obtain ⟨old, hold⟩ := Option.isSome_iff_exists.1 ((h.live_eq id.toNat).trans hl)
      have hnot : id.toNat ∉ torn := fun hmem => by rw [h.torn_dead _ hmem] at hl; cases hl
      -- a chunk is looked up only to write bytes into it
      by_cases hzero : size ≠ 0 ∧ ¬ c.Reaches (c.entries id.toNat).chunk
      · refine Or.inl ⟨fun hroom => hzero.2 (Or.inr hroom), ?_⟩
        exact inPlacePass_of_not_reaches hr.chunked docs es hr.covers hid (hr.pointsTo hold hnot)
          hzero.2 (by rw [hallocated]; exact hfit) (by rw [hdoc, hlen]; exact hzero.1)
      have hover : c.overwrite (c.entries id.toNat) doc =
          .ok (.OK, c.blitChunk (c.entries id.toNat).chunk (c.entries id.toNat).offset doc) := by
        rw [not_and_or, not_not, not_not] at hzero
        rcases hzero with hempty | hreaches
        · rw [List.length_eq_zero_iff.1 (hlen.trans hempty), overwrite_nil]
        · exact overwrite_of_pointsTo hr.chunked (hr.pointsTo hold hnot) hreaches hfit'
      obtain ⟨collSize, hpass⟩ := inPlacePass_cons docs es hr.covers hid rfl
        (by rw [hallocated]; exact hfit) hdoc hover
      have hput := represents_inPlace hr hold hnot hfit' collSize
      rw [hlen] at hput
      have hone : [(id.toNat, doc)].filter (fun p => reuses alloc p && live p.1) =
          [(id.toNat, doc)] := by
        simp [hreuses, hfit, hl]
      have hnone : torn ∪ {id' | live id' = false ∧ id' = id.toNat ∧ true = true} = torn := by
        ext id'
        simp only [Set.mem_union, Set.mem_ofPred_eq, and_true]
        refine ⟨fun hmem => hmem.elim (fun h => h) fun hdead => ?_, Or.inl⟩
        rw [hdead.2, hl] at hdead
        cases hdead.1
      rw [hone, hnone]
      refine Or.inr ⟨_, _, hpass, hallocated, rfl, rfl, rfl, hput, ?_, ?_, h.torn_dead⟩
      · intro id' hid'
        exact update_allocated (e := { c.entries id.toNat with size }) hid h.alloc_eq rfl hid'
      · intro id'
        show (Function.update m.docs id.toNat (some doc) id').isSome = live id'
        by_cases heq : id' = id.toNat
        · rw [heq, Function.update_self, hl]
          rfl
        · rw [Function.update_of_ne heq, h.live_eq]
    | false =>
      -- an id without document: an empty one changes its entry, and no bytes
      have hzero : size = 0 := by
        by_contra hne
        rw [hreuse hfit hne] at hl
        cases hl
      have hempty : doc = [] := List.length_eq_zero_iff.1 (hlen.trans hzero)
      obtain ⟨collSize, hpass⟩ := inPlacePass_cons docs es hr.covers hid rfl
        (by rw [hallocated]; exact hfit) hdoc (by rw [hempty]; exact overwrite_nil _)
      have hnil : c.blitChunk (c.entries id.toNat).chunk (c.entries id.toNat).offset doc = c := by
        simp [blitChunk, hempty]
      rw [hnil] at hpass
      have hdead : m.docs id.toNat = none := Option.not_isSome_iff_eq_none.1 (by
        rw [h.live_eq, hl]
        exact Bool.false_ne_true)
      have hmax : max c.header.nextId (id.toNat + 1) = c.header.nextId := max_eq_left hid
      have hcovers : sizeofEntry + max c.header.nextId (id.toNat + 1) * sizeofEntry ≤
          c.metaSize := by
        rw [hmax]
        exact hr.covers
      have hole := represents_hole hr m (torn ∪ {id' | live id' = false ∧ id' = id.toNat ∧
        true = true}) { c.entries id.toNat with size } collSize
        (Nat.le_of_lt hid) hcovers (by rw [hmax, hr.next_eq])
        (Function.update_eq_self_iff.2 hdead.symm).symm
        (Set.sdiff_subset.trans Set.subset_union_left) (Or.inl (Or.inr ⟨hl, rfl, rfl⟩))
      rw [hmax] at hole
      have hno : [(id.toNat, doc)].filter (fun p => reuses alloc p && live p.1) = [] := by
        simp [hl]
      rw [hno]
      refine Or.inr ⟨_, _, hpass, hallocated, rfl, rfl, rfl, hole, ?_, h.live_eq, ?_⟩
      · intro id' hid'
        exact update_allocated (e := { c.entries id.toNat with size }) hid h.alloc_eq rfl hid'
      · rintro id' (hmem | hmem)
        · exact h.torn_dead id' hmem
        · exact hmem.1
  · -- the second pass will move the document
    have hskip : inPlacePass data ((id, size) :: docs) docOffset c es =
        inPlacePass data docs (docOffset + size) c (es ++ [c.entries id.toNat]) := by
      have hlt : (c.entries id.toNat).allocated < size := by rw [hallocated]; omega
      conv_lhs => unfold inPlacePass
      rw [readEntryMetadata_of_lt hr.covers hid]
      dsimp only
      rw [if_neg (not_not.2 rfl), if_pos hlt]
    have hno : [(id.toNat, doc)].filter (fun p => reuses alloc p && live p.1) = [] := by
      simp [hreuses, hfit]
    rw [hno, hreuses, decide_eq_false hfit]
    have hnone : torn ∪ {id' | live id' = false ∧ id' = id.toNat ∧ false = true} = torn := by
      simp
    rw [hnone]
    exact Or.inr ⟨c, _, hskip, hallocated, rfl, rfl, rfl, h⟩

/-- The spec of the first pass: the documents that fit in the space of their entry are written over
the documents present, and the entries of the other ids they are for are torn. -/
theorem inPlacePass_spec {data : Bytes} {docs : List (UInt64 × ℕ)} (docOffset : ℕ)
    (es : List EntryMetadata) (h : InPlace c m torn alloc live)
    (hroom : c.HasRoom ∨ allowed .emptyCache) (hids : ∀ p ∈ docs, p.1.toNat < c.header.nextId)
    (hreuse : ∀ p ∈ docs, p.2 ≤ alloc p.1.toNat → p.2 ≠ 0 → live p.1.toNat = true)
    (hdata : docOffset + (docs.map Prod.snd).sum ≤ data.length) :
    Ensures allowed (inPlacePass data docs docOffset c es) (fun r => ∃ es',
      r.1 = .OK ∧ r.2.1 = es ++ es' ∧
      es'.map EntryMetadata.allocated = docs.map (fun p => alloc p.1.toNat) ∧
      r.2.2.chunkSize = c.chunkSize ∧ r.2.2.header.nextId = c.header.nextId ∧
      InPlace r.2.2
        (m.write ((docsAt data docOffset docs).filter fun p => reuses alloc p && live p.1))
        (torn ∪ {id | live id = false ∧
          ∃ p ∈ docsAt data docOffset docs, id = p.1 ∧ reuses alloc p = true}) alloc live) := by
  induction docs generalizing c m torn docOffset es with
  | nil =>
    have hnone : torn ∪ {id | live id = false ∧
        ∃ p ∈ docsAt data docOffset [], id = p.1 ∧ reuses alloc p = true} = torn := by
      simp [docsAt]
    rw [hnone]
    exact ⟨[], rfl, by rw [List.append_nil], rfl, rfl, rfl, h⟩
  | cons doc docs ih =>
    obtain ⟨id, size⟩ := doc
    rw [List.map_cons, List.sum_cons] at hdata
    have hlen : (slice data docOffset size).length = size := length_slice_of_le (by omega)
    obtain ⟨hno, hfails⟩ | ⟨c₁, e, hstep, hallocated, hcache, hchunkSize, hnextId, hone⟩ :=
      inPlacePass_step docs es h (hids (id, size) List.mem_cons_self) rfl hlen
        (hreuse (id, size) List.mem_cons_self)
    · rw [hfails]
      exact hroom.resolve_left hno
    have hroom₁ : c₁.HasRoom ∨ allowed .emptyCache := by
      unfold HasRoom
      rwa [hcache]
    rw [hstep]
    refine Ensures.mono (ih (docOffset + size) (es ++ [e]) hone hroom₁
      (fun p hp => by rw [hnextId]; exact hids p (List.mem_cons_of_mem _ hp))
      (fun p hp => hreuse p (List.mem_cons_of_mem _ hp)) (by omega)) ?_
    rintro r ⟨es', hOK, hentries, hes, hchunkSize', hnextId', hall⟩
    refine ⟨e :: es', hOK, ?_, ?_, hchunkSize'.trans hchunkSize, hnextId'.trans hnextId, ?_⟩
    · rw [hentries, List.append_assoc]
      rfl
    · rw [List.map_cons, hallocated, hes]
      rfl
    · rw [docsAt_cons]
      have hwrite : (m.write ([(id.toNat, slice data docOffset size)].filter fun p =>
          reuses alloc p && live p.1)).write ((docsAt data (docOffset + size) docs).filter fun p =>
            reuses alloc p && live p.1) =
          m.write (((id.toNat, slice data docOffset size) ::
            docsAt data (docOffset + size) docs).filter fun p => reuses alloc p && live p.1) := by
        rw [IdMap.write_write, ← List.filter_append]
        rfl
      have htorn : torn ∪ {id' | live id' = false ∧ id' = id.toNat ∧
          reuses alloc (id.toNat, slice data docOffset size) = true} ∪ {id' | live id' = false ∧
            ∃ p ∈ docsAt data (docOffset + size) docs, id' = p.1 ∧ reuses alloc p = true} =
          torn ∪ {id' | live id' = false ∧ ∃ p ∈ (id.toNat, slice data docOffset size) ::
            docsAt data (docOffset + size) docs, id' = p.1 ∧ reuses alloc p = true} := by
        ext id'
        simp only [Set.mem_union, Set.mem_ofPred_eq, List.mem_cons, exists_eq_or_imp]
        tauto
      rw [hwrite, htorn] at hall
      exact hall

/-! ### The second pass of `update` -/

/-- A step of the second pass: the document is appended, or it was already written. -/
theorem appendPass_step {data : Bytes} (docs : List ((UInt64 × ℕ) × EntryMetadata))
    {docOffset size : ℕ} {e : EntryMetadata} {id : UInt64} {doc : Bytes} (h : Represents c m torn)
    (hid : id.toNat < c.header.nextId) (hdoc : slice data docOffset size = doc)
    (hlen : doc.length = size) (he : e.allocated = alloc id.toNat)
    (hsize : size + 8 ≤ c.chunkSize) :
    ∃ c', appendPass data (((id, size), e) :: docs) docOffset c.used c =
        appendPass data docs (docOffset + size) c'.used c' ∧
      c'.chunkSize = c.chunkSize ∧ c'.header.nextId = c.header.nextId ∧
      Represents c' (m.write ([(id.toNat, doc)].filter fun p => !reuses alloc p))
        (torn \ {id' | id' = id.toNat ∧ reuses alloc (id.toNat, doc) = false}) := by
  have hreuses : reuses alloc (id.toNat, doc) = decide (size ≤ e.allocated) := by
    rw [← hlen, he]
    rfl
  by_cases hfit : size ≤ e.allocated
  · have hskip : appendPass data (((id, size), e) :: docs) docOffset c.used c =
        appendPass data docs (docOffset + size) c.used c := by
      conv_lhs => unfold appendPass
      rw [if_pos hfit]
    have hno : [(id.toNat, doc)].filter (fun p => !reuses alloc p) = [] := by
      simp [hreuses, hfit]
    have hnone : torn \ {id' | id' = id.toNat ∧ true = false} = torn := by simp
    rw [hno, hreuses, decide_eq_true hfit, hnone]
    exact ⟨c, hskip, rfl, rfl, h⟩
  · obtain ⟨c₁, offset, hwrite, hw⟩ := writeDocument_spec h.chunked doc
      (by rw [hlen]; exact hsize)
    have hcovers : sizeofEntry + c₁.header.nextId * sizeofEntry ≤ c₁.metaSize := by
      rw [hw.nextId_eq, hw.metaSize_eq]
      exact h.covers
    have hid₁ : id.toNat < c₁.header.nextId := by rw [hw.nextId_eq]; exact hid
    obtain ⟨collSize, hcount⟩ := countDocument_withEntry (c := c₁) id.toNat
      ⟨c₁.header.lastChunkId, offset, size, size⟩ (e.size = keyNotFound)
    have happend : appendPass data (((id, size), e) :: docs) docOffset c.used c =
        appendPass data docs (docOffset + size) (offset + size) (c₁.withEntry id.toNat
          ⟨c₁.header.lastChunkId, offset, size, size⟩ c₁.metaSize c₁.header.nextId collSize) := by
      conv_lhs => unfold appendPass
      rw [if_neg hfit, hdoc, hwrite]
      dsimp only [bind, Except.bind]
      rw [if_neg (not_not.2 rfl), writeEntryMetadata_of_lt hcovers hid₁]
      dsimp only
      rw [if_neg (not_not.2 rfl), hcount]
    have hmul : (id.toNat + 1) * sizeofEntry ≤ c₁.header.nextId * sizeofEntry :=
      Nat.mul_le_mul_right _ hid₁
    have hput := represents_put h hw (Nat.le_of_lt hid) hw.metaSize_eq.ge
      ((Nat.add_le_add_left hmul _).trans hcovers) collSize
    rw [hlen, max_eq_left (Nat.succ_le_of_lt hid), ← hw.nextId_eq] at hput
    have hone : [(id.toNat, doc)].filter (fun p => !reuses alloc p) = [(id.toNat, doc)] := by
      simp [hreuses, hfit]
    have hmend : torn \ {id' | id' = id.toNat ∧ false = false} = torn \ {id.toNat} := by
      ext id'
      simp
    rw [hone, hreuses, decide_eq_false hfit, hmend]
    refine ⟨c₁.withEntry id.toNat ⟨c₁.header.lastChunkId, offset, size, size⟩ c₁.metaSize
      c₁.header.nextId collSize, ?_, hw.chunkSize_eq, hw.nextId_eq, hput⟩
    have hused : used (c₁.withEntry id.toNat ⟨c₁.header.lastChunkId, offset, size, size⟩ c₁.metaSize
        c₁.header.nextId collSize) = offset + size := by
      rw [← hlen]
      exact hw.used_eq
    rw [happend, hused]

/-- The spec of the second pass: the other documents are written, and mend the entries. -/
theorem appendPass_spec {data : Bytes} {docs : List (UInt64 × ℕ)} (docOffset : ℕ)
    {es : List EntryMetadata} (h : Represents c m torn)
    (hes : es.map EntryMetadata.allocated = docs.map (fun p => alloc p.1.toNat))
    (hids : ∀ p ∈ docs, p.1.toNat < c.header.nextId) (hsizes : ∀ p ∈ docs, p.2 + 8 ≤ c.chunkSize)
    (hdata : docOffset + (docs.map Prod.snd).sum ≤ data.length) :
    ∃ c', appendPass data (docs.zip es) docOffset c.used c = .ok (none, c') ∧
      c'.chunkSize = c.chunkSize ∧ c'.header.nextId = c.header.nextId ∧
      Represents c' (m.write ((docsAt data docOffset docs).filter fun p => !reuses alloc p))
        (torn \ {id | ∃ p ∈ docsAt data docOffset docs, id = p.1 ∧ reuses alloc p = false}) := by
  induction docs generalizing c m torn docOffset es with
  | nil =>
    have hnone : torn \ {id | ∃ p ∈ docsAt data docOffset [], id = p.1 ∧
        reuses alloc p = false} = torn := by
      simp [docsAt]
    rw [hnone]
    exact ⟨c, rfl, rfl, rfl, h⟩
  | cons doc docs ih =>
    obtain ⟨id, size⟩ := doc
    rw [List.map_cons, List.sum_cons] at hdata
    obtain ⟨e, es, rfl⟩ : ∃ e es', es = e :: es' := List.exists_cons_of_ne_nil (by
      rintro rfl
      cases hes)
    obtain ⟨he, hes⟩ := List.cons.inj hes
    have hlen : (slice data docOffset size).length = size := length_slice_of_le (by omega)
    obtain ⟨c₁, hstep, hchunkSize, hnextId, hone⟩ := appendPass_step (docs.zip es) h
      (hids (id, size) List.mem_cons_self) rfl hlen he (hsizes (id, size) List.mem_cons_self)
    obtain ⟨c', hrest, hchunkSize', hnextId', hall⟩ := ih (docOffset + size) hone hes
      (fun p hp => by rw [hnextId]; exact hids p (List.mem_cons_of_mem _ hp))
      (fun p hp => by rw [hchunkSize]; exact hsizes p (List.mem_cons_of_mem _ hp)) (by omega)
    refine ⟨c', hstep.trans hrest, hchunkSize'.trans hchunkSize, hnextId'.trans hnextId, ?_⟩
    rw [docsAt_cons]
    have hmend : (torn \ {id' | id' = id.toNat ∧
        reuses alloc (id.toNat, slice data docOffset size) = false}) \ {id' |
          ∃ p ∈ docsAt data (docOffset + size) docs, id' = p.1 ∧ reuses alloc p = false} =
        torn \ {id' | ∃ p ∈ (id.toNat, slice data docOffset size) ::
          docsAt data (docOffset + size) docs, id' = p.1 ∧ reuses alloc p = false} := by
      rw [sdiff_sdiff]
      congr 1
      ext id'
      show (_ ∨ _) ↔ _
      simp only [Set.mem_ofPred_eq, List.mem_cons, exists_eq_or_imp]
    rw [IdMap.write_write, ← List.filter_append, hmend] at hall
    exact hall

/-! ### Operations -/

/-- The id holds a document. -/
def Present (c : LogCollection) (id : ℕ) : Prop :=
  id < c.header.nextId ∧ (c.entries id).size ≠ keyNotFound

instance (c : LogCollection) (id : ℕ) : Decidable (c.Present id) :=
  inferInstanceAs (Decidable (_ ∧ _))

/-- The documents of a batch under their ids. -/
def under (ids : List UInt64) (batch : DocBatch) : List (ℕ × Bytes) :=
  (ids.map UInt64.toNat).zip batch.docs

/-- An update that the two passes carry out as if documents were written one by one: a document is
put in the space of an entry only when the entry has one, unless the document is empty and not the
last one of the batch for its id; and when the last one is put there, so are those before it. -/
structure Sound (c : LogCollection) (ids : List UInt64) (batch : DocBatch) : Prop where
  ids_ne : ids ≠ []
  present : ∀ id, ∀ doc ∈ IdMap.listed id (under ids batch), doc.length ≤ c.allocatedFor id →
    doc ≠ [] → c.Present id
  last : ∀ id doc, (IdMap.listed id (under ids batch)).getLast? = some doc →
    doc.length ≤ c.allocatedFor id → c.Present id ∧
      ∀ doc' ∈ IdMap.listed id (under ids batch), doc'.length ≤ c.allocatedFor id

theorem Represents.present_iff (h : Represents c m ∅) (id : ℕ) :
    c.Present id ↔ (m.docs id).isSome = true := by
  constructor
  · rintro ⟨hid, hsize⟩
    by_contra hnone
    exact hsize ((h.size_eq_iff hid (Set.notMem_empty id)).2
      (Option.not_isSome_iff_eq_none.1 hnone))
  · intro hsome
    have hid := h.lt_next hsome
    refine ⟨hid, fun hsize => ?_⟩
    rw [(h.size_eq_iff hid (Set.notMem_empty id)).1 hsize] at hsome
    cases hsome

/-- The spec of `append`. -/
theorem append_spec {batch : DocBatch} {ids : List UInt64} (h : Represents c m ∅)
    (hexact : batch.Exact ids.length) (hsizes : ∀ size ∈ batch.sizes, size + 8 ≤ c.chunkSize) :
    Ensures (· = .fileTooLarge) (c.append batch.documents batch.sizes ids) (fun r =>
      r.1 = .OK ∧
        r.2.1 = (List.range' c.header.nextId ids.length).map UInt64.ofNat ∧
        r.2.2.chunkSize = c.chunkSize ∧ Represents r.2.2 (m.append batch.docs) ∅) := by
  obtain ⟨hcount, hsum⟩ := hexact
  have hany : ¬ batch.sizes.any (fun size => c.chunkSize < size) = true := by
    simp only [List.any_eq_true, decide_eq_true_eq, not_exists, not_and, Nat.not_lt]
    intro size hsize
    have := hsizes size hsize
    omega
  unfold append
  rw [if_neg hany, nextOffset_eq h.chunked]
  show Ensures _ (appendLoop _ _ _ _ _ _ >>= _) _
  refine Ensures.bind (appendLoop_spec 0 [] h hsizes (by rw [hsum, Nat.zero_add])) ?_
  rintro ⟨status, assigned, c'⟩ ⟨hstatus, hassigned, hchunkSize, hrep⟩
  have hassigned : assigned = (List.range' c.header.nextId ids.length).map UInt64.ofNat := by
    rw [hcount]
    exact hassigned
  have hlen : assigned.length = ids.length := by
    rw [hassigned, List.length_map, List.length_range']
  refine ⟨hstatus, ?_, hchunkSize, hrep⟩
  show assigned ++ ids.drop assigned.length = _
  rw [hlen, List.drop_length, List.append_nil, hassigned]

/-- The sizes that `update` reads are those of the documents. -/
theorem exists_under {batch : DocBatch} {ids : List UInt64} (hexact : batch.Exact ids.length)
    {p : UInt64 × ℕ} (hp : p ∈ ids.zip batch.sizes) :
    ∃ doc, (p.1.toNat, doc) ∈ under ids batch ∧ doc.length = p.2 := by
  have hmap : (under ids batch).map (Prod.map id List.length) =
      (ids.zip batch.sizes).map (Prod.map UInt64.toNat id) := by
    unfold under DocBatch.docs
    rw [← List.zip_map, List.map_id, map_length_unpack hexact.2.le, ← List.zip_map, List.map_id]
  have hmem : (p.1.toNat, p.2) ∈ (under ids batch).map (Prod.map id List.length) := by
    rw [hmap]
    exact List.mem_map.2 ⟨p, hp, rfl⟩
  obtain ⟨⟨id, doc⟩, hdoc, heq⟩ := List.mem_map.1 hmem
  obtain ⟨rfl, hlen⟩ := Prod.mk.inj heq
  exact ⟨doc, hdoc, hlen⟩

/-- The passes of `update` read the documents of the batch. -/
theorem docsAt_zip {batch : DocBatch} {ids : List UInt64} (hcount : ids.length = batch.sizes.length) :
    docsAt batch.documents 0 (ids.zip batch.sizes) = under ids batch := by
  have hfst : (ids.zip batch.sizes).map Prod.fst = ids := List.map_fst_zip hcount.le
  have hsnd : (ids.zip batch.sizes).map Prod.snd = batch.sizes := List.map_snd_zip hcount.ge
  have hcomp : (fun p : UInt64 × ℕ => p.1.toNat) = UInt64.toNat ∘ Prod.fst := rfl
  unfold docsAt under DocBatch.docs
  rw [hsnd, hcomp, ← List.map_map, hfst, List.drop_zero]

/-- The two passes of a sound update write what writing one by one would. -/
theorem Sound.passes_eq {batch : DocBatch} {ids : List UInt64} (h : Represents c m ∅)
    (hs : Sound c ids batch) {m' : IdMap Bytes} (hlt : ∀ p ∈ under ids batch, p.1 < m'.next) :
    (m'.write ((under ids batch).filter fun p =>
      reuses c.allocatedFor p && (m.docs p.1).isSome)).write
        ((under ids batch).filter fun p => !reuses c.allocatedFor p) =
      m'.write (under ids batch) := by
  refine IdMap.write_partition (fun p => reuses c.allocatedFor p && (m.docs p.1).isSome)
    (fun p => !reuses c.allocatedFor p) hlt ?_
  intro id doc hlast
  by_cases hfit : doc.length ≤ c.allocatedFor id
  · obtain ⟨hpresent, hall⟩ := hs.last id doc hlast hfit
    refine Or.inr fun doc' hdoc' => ?_
    have hreuses : reuses c.allocatedFor (id, doc') = true := decide_eq_true (hall doc' hdoc')
    exact ⟨by rw [hreuses, (h.present_iff id).1 hpresent]; rfl, by rw [hreuses]; rfl⟩
  · exact Or.inl (by rw [reuses, decide_eq_false hfit]; rfl)

/-- After the two passes of a sound update no entry is torn. -/
theorem Sound.torn_eq {batch : DocBatch} {ids : List UInt64} (h : Represents c m ∅)
    (hs : Sound c ids batch) :
    (∅ ∪ {id | (m.docs id).isSome = false ∧
      ∃ p ∈ under ids batch, id = p.1 ∧ reuses c.allocatedFor p = true}) \
        {id | ∃ p ∈ under ids batch, id = p.1 ∧ reuses c.allocatedFor p = false} = ∅ := by
  ext id
  simp only [Set.mem_sdiff, Set.mem_union, Set.mem_ofPred_eq, Set.mem_empty_iff_false, false_or,
    iff_false, not_and, not_not]
  rintro ⟨hdead, ⟨id', doc⟩, hmem, rfl, -⟩
  have hne : IdMap.listed id (under ids batch) ≠ [] :=
    List.ne_nil_of_mem (IdMap.mem_listed.2 hmem)
  obtain ⟨last, hlast⟩ := Option.isSome_iff_exists.1 (List.getLast?_isSome.2 hne)
  refine ⟨(id, last), IdMap.mem_listed.1 (List.mem_of_getLast? hlast), rfl,
    decide_eq_false fun hfit => ?_⟩
  rw [(h.present_iff id).1 (hs.last id last hlast hfit).1] at hdead
  cases hdead

/-- The spec of `update`, which stops with an error only where the missing entries are created, or
where its cache has no room. -/
theorem update_spec_of_create {batch : DocBatch} {ids : List UInt64} (h : Represents c m ∅)
    (hroom : c.HasRoom ∨ allowed .emptyCache) (hexact : batch.Exact ids.length)
    (hsizes : ∀ size ∈ batch.sizes, size + 8 ≤ c.chunkSize) (hs : Sound c ids batch)
    (hcreate : Ensures allowed (createEntries ((maxID ids).toNat + 1 - c.header.nextId) c) (fun r =>
      r.1 = .OK ∧ r.2.chunkSize = c.chunkSize ∧
        r.2.header.nextId = c.header.nextId + ((maxID ids).toNat + 1 - c.header.nextId) ∧
        r.2.allocatedFor = c.allocatedFor ∧
        Represents r.2 ⟨m.next + ((maxID ids).toNat + 1 - c.header.nextId), m.docs⟩ ∅)) :
    Ensures allowed (c.update ids batch.documents batch.sizes) (fun r =>
      r.1 = .OK ∧ r.2.chunkSize = c.chunkSize ∧ Represents r.2 (m.write (under ids batch)) ∅) := by
  obtain ⟨hcount, hsum⟩ := id hexact
  have hany : ¬ batch.sizes.any (fun size => c.chunkSize < size) = true := by
    simp only [List.any_eq_true, decide_eq_true_eq, not_exists, not_and, Nat.not_lt]
    intro size hsize
    have := hsizes size hsize
    omega
  have hsnd : (ids.zip batch.sizes).map Prod.snd = batch.sizes :=
    List.map_snd_zip (le_of_eq hcount.symm)
  have hdocs : docsAt batch.documents 0 (ids.zip batch.sizes) = under ids batch := docsAt_zip hcount
  have hdata : 0 + ((ids.zip batch.sizes).map Prod.snd).sum ≤ batch.documents.length := by
    rw [hsnd, hsum, Nat.zero_add]
  have hmax : ∀ id ∈ ids, id.toNat < (m.reach (maxID ids).toNat).next := by
    intro id hid
    have hle := UInt64.le_iff_toNat_le.1 (le_maxID hid)
    rw [IdMap.next_reach]
    omega
  unfold update
  rw [if_neg hany, if_neg hs.ids_ne]
  refine Ensures.bind (hcreate.and (cacheSize_createEntries _)) ?_
  rintro ⟨status, c₁⟩ ⟨⟨hstatus, hchunkSize₁, -, halloc, hrep₁⟩, hcache₁⟩
  have hstatus : status = .OK := hstatus
  subst hstatus
  -- the missing entries are those up to the largest id
  have hreach : (⟨m.next + ((maxID ids).toNat + 1 - c.header.nextId), m.docs⟩ : IdMap Bytes) =
      m.reach (maxID ids).toNat := by
    rw [← h.next_eq]
    unfold IdMap.reach
    congr 1
    omega
  rw [hreach] at hrep₁
  have hnext₁ := hrep₁.next_eq
  have hids : ∀ p ∈ ids.zip batch.sizes, p.1.toNat < c₁.header.nextId := by
    intro p hp
    rw [← hnext₁]
    exact hmax p.1 (List.of_mem_zip hp).1
  have hin : InPlace c₁ (m.reach (maxID ids).toNat) ∅ c.allocatedFor
      (fun id => (m.docs id).isSome) := by
    refine ⟨hrep₁, fun id hid => ?_, fun id => rfl, fun id hmem => absurd hmem (Set.notMem_empty id)⟩
    rw [← congrFun halloc id]
    exact (if_pos hid).symm
  have hreuse : ∀ p ∈ ids.zip batch.sizes, p.2 ≤ c.allocatedFor p.1.toNat → p.2 ≠ 0 →
      (m.docs p.1.toNat).isSome = true := by
    intro p hp hfit hne
    obtain ⟨doc, hdoc, hlen⟩ := exists_under hexact hp
    refine (h.present_iff _).1 (hs.present _ doc (IdMap.mem_listed.2 hdoc) (by rw [hlen]; exact hfit) ?_)
    rintro rfl
    exact hne hlen.symm
  have hroom₁ : c₁.HasRoom ∨ allowed .emptyCache := by
    unfold HasRoom
    rwa [hcache₁]
  dsimp only
  rw [if_neg (not_not.2 rfl)]
  refine Ensures.bind (inPlacePass_spec 0 [] hin hroom₁ hids hreuse hdata) ?_
  rintro ⟨status, entries, c₂⟩ ⟨es, hstatus₂, hentries, hes, hchunkSize₂, hnextId₂, hin₂⟩
  obtain rfl : status = .OK := hstatus₂
  obtain rfl : entries = es := hentries
  obtain ⟨c₃, hsecond, hchunkSize₃, hnextId₃, hrep₃⟩ := appendPass_spec 0 hin₂.represents hes
    (fun p hp => by rw [hnextId₂]; exact hids p hp)
    (fun p hp => by
      rw [hchunkSize₂, hchunkSize₁]
      exact hsizes p.2 (List.of_mem_zip hp).2)
    hdata
  have hlt : ∀ p ∈ under ids batch, p.1 < (m.reach (maxID ids).toNat).next := by
    intro p hp
    obtain ⟨id, hid, heq⟩ := List.mem_map.1 (List.of_mem_zip hp).1
    rw [← heq]
    exact hmax id hid
  -- the largest id is written, so that reaching it first makes no difference
  have hmem : (maxID ids).toNat ∈ (under ids batch).map Prod.fst := by
    unfold under
    rw [List.map_fst_zip (by rw [List.length_map, DocBatch.length_docs, hcount])]
    exact List.mem_map_of_mem (maxID_mem hs.ids_ne)
  rw [hdocs, hs.passes_eq h hlt, hs.torn_eq h, IdMap.write_reach hmem] at hrep₃
  -- `flushEntries` stays in the mapping, which covers the entries created
  have hflush : c₃.flushEntries (maxID ids).toNat = .OK := by
    have hlast : (maxID ids).toNat < c₃.header.nextId := by
      rw [hnextId₃, hnextId₂, ← hnext₁]
      exact hmax _ (maxID_mem hs.ids_ne)
    have hmul : ((maxID ids).toNat + 1) * sizeofEntry ≤ c₃.header.nextId * sizeofEntry :=
      Nat.mul_le_mul_right _ hlast
    exact if_neg (Nat.not_lt.2 ((Nat.add_le_add_left hmul _).trans hrep₃.covers))
  dsimp only
  rw [if_neg (not_not.2 rfl), nextOffset_eq hin₂.represents.chunked]
  dsimp only [bind, Except.bind]
  rw [if_neg (not_not.2 rfl), hsecond]
  dsimp only [Option.getD_none]
  rw [hflush]
  exact ⟨rfl, hchunkSize₃.trans (hchunkSize₂.trans hchunkSize₁), hrep₃⟩

/-- The spec of `update`. -/
theorem update_spec {batch : DocBatch} {ids : List UInt64} (h : Represents c m ∅)
    (hroom : c.HasRoom ∨ allowed .emptyCache) (hlarge : allowed .fileTooLarge)
    (hexact : batch.Exact ids.length) (hsizes : ∀ size ∈ batch.sizes, size + 8 ≤ c.chunkSize)
    (hs : Sound c ids batch) :
    Ensures allowed (c.update ids batch.documents batch.sizes) (fun r =>
      r.1 = .OK ∧ r.2.chunkSize = c.chunkSize ∧ Represents r.2 (m.write (under ids batch)) ∅) :=
  update_spec_of_create h hroom hexact hsizes hs
    ((createEntries_spec h).allow fun _ he => he ▸ hlarge)

end LogCollection

end Yokan
