import Yokan.LogIteration
import Yokan.LogPersistence

/-!
# Yokan: a `log` collection that was opened again

The constructor maps 262144 bytes of the metadata file, whatever `next_id` is. The entries behind
them cannot be read, and writing one has the mapping doubled, once.

* `inPlacePass_mapping`, `appendPass_mapping`: on mapped entries, the passes of `update` do the same
  whatever else is mapped;
* `Kept`: what holds of a collection over runs in which it is opened again (`run_kept`);
* `append_kept`, `update_kept`, `erase_kept`: the operations on such collections.
-/

namespace Yokan

open Buffer LittleEndian Transition

namespace LogCollection

/-- The collection with another mapping of its metadata file. -/
def mapping (c : LogCollection) (metaSize : ℕ) : LogCollection := { c with metaSize }

/-- The entry of an id is mapped. -/
def Maps (c : LogCollection) (id : ℕ) : Prop :=
  sizeofEntry + id * sizeofEntry + sizeofEntry ≤ c.metaSize

instance (c : LogCollection) (id : ℕ) : Decidable (c.Maps id) := inferInstanceAs (Decidable (_ ≤ _))

/-- What a function leaves, with another mapping. -/
abbrev remap {α : Type} (metaSize : ℕ) (r : α × LogCollection) : α × LogCollection :=
  (r.1, r.2.mapping metaSize)

variable {c c' : LogCollection} {m : IdMap Bytes} {n : ℕ}

theorem mapping_self (c : LogCollection) : c.mapping c.metaSize = c := rfl

theorem Maps.mono (h : c.Maps n) {id : ℕ} (hle : id ≤ n) : c.Maps id := by
  have hmul := Nat.mul_le_mul_right sizeofEntry hle
  unfold Maps at h ⊢
  omega

/-! ### What does not touch the metadata file -/

section Outcomes

variable {α β γ : Type}

theorem map_bind (x : Outcome α) (g : α → Outcome β) (f : β → γ) :
    (x >>= g).map f = x >>= fun a => (g a).map f := by
  cases x <;> rfl

theorem bind_map (x : Outcome α) (f : α → β) (g : β → Outcome γ) :
    x.map f >>= g = x >>= fun a => g (f a) := by
  cases x <;> rfl

theorem bind_congr_of {x : Outcome α} {g g' : α → Outcome β}
    (h : ∀ a, x = .ok a → g a = g' a) : x >>= g = x >>= g' := by
  cases x with
  | error e => rfl
  | ok a => exact h a rfl

end Outcomes

theorem getChunkFromID_mapping (k : ℕ) :
    (c.mapping n).getChunkFromID k = (c.getChunkFromID k).map (Option.map (mapping · n)) := by
  unfold getChunkFromID
  have hheader : (c.mapping n).header = c.header := rfl
  have hroom : (c.mapping n).HasRoom ↔ c.HasRoom := Iff.rfl
  rw [hheader]
  simp only [hroom]
  split_ifs <;> rfl

theorem derefChunk_mapping (k : ℕ) :
    (c.mapping n).derefChunk k = (c.derefChunk k).map (mapping · n) := by
  unfold derefChunk
  rw [getChunkFromID_mapping]
  cases c.getChunkFromID k with
  | error e => rfl
  | ok chunk => cases chunk <;> rfl

theorem writeChunk_mapping (k offset : ℕ) (bytes : Bytes) :
    (c.mapping n).writeChunk k offset bytes = (c.writeChunk k offset bytes).map (remap n) := by
  unfold writeChunk
  have hheader : (c.mapping n).header = c.header := rfl
  rw [hheader]
  split_ifs <;> rfl

theorem makeSpace_mapping (nextOffset size : ℕ) :
    (c.mapping n).makeSpace nextOffset size = (c.makeSpace nextOffset size).map (remap n) := by
  unfold makeSpace
  have hheader : (c.mapping n).header = c.header := rfl
  have hsize : (c.mapping n).chunkSize = c.chunkSize := rfl
  rw [hheader, hsize, getChunkFromID_mapping]
  split_ifs
  · cases c.getChunkFromID (c.header.lastChunkId + 1) with
    | error e => rfl
    | ok chunk => cases chunk <;> rfl
  · rfl

theorem writeDocument_mapping (nextOffset : ℕ) (doc : Bytes) :
    (c.mapping n).writeDocument nextOffset doc =
      (c.writeDocument nextOffset doc).map fun r => (r.1, remap n r.2) := by
  unfold writeDocument
  rw [makeSpace_mapping, bind_map, map_bind]
  refine bind_congr_of fun r _ => ?_
  obtain ⟨offset, c₁⟩ := r
  dsimp only [remap]
  rw [writeChunk_mapping, bind_map, map_bind]
  refine bind_congr_of fun r _ => ?_
  obtain ⟨status, c₂⟩ := r
  dsimp only [remap]
  by_cases hok : status ≠ .OK
  · rw [if_pos hok, if_pos hok]
    rfl
  · rw [if_neg hok, if_neg hok, writeChunk_mapping, bind_map, map_bind]
    exact bind_congr_of fun r _ => rfl

theorem overwrite_mapping (e : EntryMetadata) (doc : Bytes) :
    (c.mapping n).overwrite e doc = (c.overwrite e doc).map (remap n) := by
  unfold overwrite
  split_ifs
  · rw [derefChunk_mapping]
    cases c.derefChunk e.chunk with
    | error e => rfl
    | ok c₁ => exact writeChunk_mapping ..
  · rfl

/-- Then the mapping is the same afterwards. -/
theorem metaSize_of_map {α : Type} {x : Outcome (α × LogCollection)}
    (h : x = x.map (remap n)) {r : α × LogCollection} (hr : x = .ok r) : r.2.metaSize = n := by
  rw [hr] at h
  exact congrArg (fun r => r.2.metaSize) (Except.ok.inj h)

/-! ### What touches mapped entries -/

theorem readEntryMetadata_of_maps {id : ℕ} (h : c.Maps id) :
    c.readEntryMetadata id = (.OK, c.entries id) := readEntryMetadata_of_room h

theorem writeEntryMetadata_mapping {id : ℕ} (h : c.Maps id) (h' : (c.mapping n).Maps id)
    (e : EntryMetadata) :
    (c.mapping n).writeEntryMetadata id e = (c.writeEntryMetadata id e).map (remap n) := by
  rw [writeEntryMetadata_of_room h, writeEntryMetadata_of_room h']
  rfl

theorem resizeEntry_mapping {id : ℕ} (h : c.Maps id) (h' : (c.mapping n).Maps id)
    (e : EntryMetadata) (size : ℕ) :
    (c.mapping n).resizeEntry id e size = (c.resizeEntry id e size).map (remap n) := by
  unfold resizeEntry
  split_ifs
  · exact writeEntryMetadata_mapping h h' _
  · rfl

theorem countDocument_mapping (increment : Bool) :
    (c.mapping n).countDocument increment = (c.countDocument increment).mapping n := by
  unfold countDocument
  split_ifs <;> rfl

theorem metaSize_countDocument (increment : Bool) :
    (c.countDocument increment).metaSize = c.metaSize := by
  unfold countDocument
  split_ifs <;> rfl

/-- The first pass of `update`, on mapped entries. -/
theorem inPlacePass_mapping {data : Bytes} {docs : List (UInt64 × ℕ)} (docOffset : ℕ)
    (es : List EntryMetadata) (hmaps : ∀ p ∈ docs, c.Maps p.1.toNat)
    (hmaps' : ∀ p ∈ docs, (c.mapping n).Maps p.1.toNat) :
    inPlacePass data docs docOffset (c.mapping n) es =
      (inPlacePass data docs docOffset c es).map fun r => (r.1, remap n r.2) := by
  induction docs generalizing c docOffset es with
  | nil => rfl
  | cons p docs ih =>
    obtain ⟨id, size⟩ := p
    obtain ⟨hid, hrest⟩ := List.forall_mem_cons.1 hmaps
    obtain ⟨hid', hrest'⟩ := List.forall_mem_cons.1 hmaps'
    unfold inPlacePass
    rw [readEntryMetadata_of_maps hid, readEntryMetadata_of_maps hid']
    have hentries : (c.mapping n).entries = c.entries := rfl
    rw [hentries]
    dsimp only
    rw [if_neg (not_not.2 rfl), if_neg (not_not.2 rfl)]
    split_ifs
    · exact ih _ _ hrest hrest'
    · rw [overwrite_mapping, bind_map, map_bind]
      refine bind_congr_of fun r hr => ?_
      obtain ⟨status, c₁⟩ := r
      have hsize : c₁.metaSize = c.metaSize := metaSize_of_map (overwrite_mapping ..) hr
      dsimp only [remap]
      by_cases hok : status ≠ .OK
      · rw [if_pos hok, if_pos hok]
        rfl
      · rw [if_neg hok, if_neg hok]
        have hid₁ : c₁.Maps id.toNat := by
          unfold Maps
          rw [hsize]
          exact hid
        rw [resizeEntry_mapping hid₁ hid', bind_map, map_bind]
        refine bind_congr_of fun r hr => ?_
        obtain ⟨status, c₂⟩ := r
        have hsize₂ : c₂.metaSize = c.metaSize :=
          (metaSize_of_map (resizeEntry_mapping hid₁ hid₁ ..) hr).trans hsize
        dsimp only [remap]
        by_cases hok₂ : status ≠ .OK
        · rw [if_pos hok₂, if_pos hok₂]
          rfl
        · rw [if_neg hok₂, if_neg hok₂, countDocument_mapping]
          refine ih _ _ (fun p hp => ?_) hrest'
          unfold Maps
          rw [metaSize_countDocument, hsize₂]
          exact hrest p hp

/-- The second pass of `update`, on mapped entries. -/
theorem appendPass_mapping {data : Bytes} {docs : List ((UInt64 × ℕ) × EntryMetadata)}
    (docOffset nextOffset : ℕ) (hmaps : ∀ d ∈ docs, c.Maps d.1.1.toNat)
    (hmaps' : ∀ d ∈ docs, (c.mapping n).Maps d.1.1.toNat) :
    appendPass data docs docOffset nextOffset (c.mapping n) =
      (appendPass data docs docOffset nextOffset c).map (remap n) := by
  induction docs generalizing c docOffset nextOffset with
  | nil => rfl
  | cons d docs ih =>
    obtain ⟨⟨id, size⟩, e⟩ := d
    obtain ⟨hid, hrest⟩ := List.forall_mem_cons.1 hmaps
    obtain ⟨hid', hrest'⟩ := List.forall_mem_cons.1 hmaps'
    unfold appendPass
    split_ifs
    · exact ih _ _ hrest hrest'
    · rw [writeDocument_mapping, bind_map, map_bind]
      refine bind_congr_of fun r hr => ?_
      obtain ⟨status, offset, c₁⟩ := r
      have hsize : c₁.metaSize = c.metaSize := by
        have hsame := writeDocument_mapping (c := c) (n := c.metaSize) nextOffset
          (slice data docOffset size)
        rw [mapping_self, hr] at hsame
        exact congrArg (fun r => r.2.2.metaSize) (Except.ok.inj hsame)
      have hmaps₁ : ∀ d ∈ ((id, size), e) :: docs, c₁.Maps d.1.1.toNat := by
        intro d hd
        unfold Maps
        rw [hsize]
        exact hmaps d hd
      obtain ⟨hid₁, -⟩ := List.forall_mem_cons.1 hmaps₁
      dsimp only [remap]
      by_cases hok : status ≠ .OK
      · rw [if_pos hok, if_pos hok]
        rfl
      · rw [if_neg hok, if_neg hok, writeEntryMetadata_mapping hid₁ hid', bind_map, map_bind]
        refine bind_congr_of fun r hr => ?_
        obtain ⟨status, c₂⟩ := r
        have hsize₂ : c₂.metaSize = c₁.metaSize :=
          metaSize_of_map (writeEntryMetadata_mapping hid₁ hid₁ _) hr
        dsimp only [remap]
        by_cases hok₂ : status ≠ .OK
        · rw [if_pos hok₂, if_pos hok₂]
          rfl
        · rw [if_neg hok₂, if_neg hok₂, countDocument_mapping]
          refine ih _ _ (fun d hd => ?_) hrest'
          unfold Maps
          rw [metaSize_countDocument, hsize₂]
          exact hmaps₁ d (List.mem_cons_of_mem _ hd)

theorem nextOffset_mapping (n : ℕ) : (c.mapping n).nextOffset = c.nextOffset := rfl

theorem flushEntries_of_maps {id : ℕ} (h : c.Maps id) : c.flushEntries id = .OK := by
  unfold flushEntries
  rw [if_neg]
  unfold Maps at h
  rw [Nat.succ_mul, ← Nat.add_assoc]
  exact Nat.not_lt.2 h

/-- The passes, on mapped entries. -/
theorem passes_mapping {ids : List UInt64} (hne : ids ≠ []) (hmaps : ∀ id ∈ ids, c.Maps id.toNat)
    (hmaps' : ∀ id ∈ ids, (c.mapping n).Maps id.toNat) (data : Bytes) (sizes : List ℕ) :
    (c.mapping n).passes ids data sizes = (c.passes ids data sizes).map (remap n) := by
  have hpass : ∀ p ∈ ids.zip sizes, c.Maps p.1.toNat := fun p hp =>
    hmaps p.1 (List.of_mem_zip hp).1
  have hpass' : ∀ p ∈ ids.zip sizes, (c.mapping n).Maps p.1.toNat := fun p hp =>
    hmaps' p.1 (List.of_mem_zip hp).1
  unfold passes
  rw [inPlacePass_mapping 0 [] hpass hpass', bind_map, map_bind]
  refine bind_congr_of fun r hr => ?_
  obtain ⟨status, es, c₁⟩ := r
  have hsize : c₁.metaSize = c.metaSize := by
    have hsame := @inPlacePass_mapping c c.metaSize data (ids.zip sizes) 0 [] hpass hpass
    rw [mapping_self, hr] at hsame
    exact congrArg (fun r => r.2.2.metaSize) (Except.ok.inj hsame)
  have hmaps₁ : ∀ id ∈ ids, c₁.Maps id.toNat := by
    intro id hid
    unfold Maps
    rw [hsize]
    exact hmaps id hid
  dsimp only [remap]
  by_cases hok : status ≠ .OK
  · rw [if_pos hok, if_pos hok]
    rfl
  rw [if_neg hok, if_neg hok, nextOffset_mapping, map_bind]
  refine bind_congr_of fun r _ => ?_
  obtain ⟨status, next⟩ := r
  dsimp only
  by_cases hok₂ : status ≠ .OK
  · rw [if_pos hok₂, if_pos hok₂]
    rfl
  have hdocs : ∀ d ∈ (ids.zip sizes).zip es, d.1.1 ∈ ids := fun d hd =>
    (List.of_mem_zip (List.of_mem_zip hd).1).1
  have hpass₂ : ∀ d ∈ (ids.zip sizes).zip es, c₁.Maps d.1.1.toNat := fun d hd =>
    hmaps₁ _ (hdocs d hd)
  rw [if_neg hok₂, if_neg hok₂, appendPass_mapping 0 next hpass₂ fun d hd => hmaps' _ (hdocs d hd),
    bind_map, map_bind]
  refine bind_congr_of fun r hr => ?_
  obtain ⟨status, c₂⟩ := r
  have hsize₂ : c₂.metaSize = c₁.metaSize :=
    metaSize_of_map (appendPass_mapping 0 next hpass₂ hpass₂) hr
  have hflush : c₂.flushEntries (maxID ids).toNat = .OK := by
    refine flushEntries_of_maps ?_
    unfold Maps
    rw [hsize₂]
    exact hmaps₁ _ (maxID_mem hne)
  have hflush' : (c₂.mapping n).flushEntries (maxID ids).toNat = .OK :=
    flushEntries_of_maps (hmaps' _ (maxID_mem hne))
  dsimp only [remap]
  rw [hflush, hflush']
  rfl

/-! ### The mapping that grows -/

/-- The mapping has been doubled, as it is when an entry behind it is written. -/
def doubled (c : LogCollection) : LogCollection := c.mapping (2 * c.metaSize)

/-- An entry that is not mapped is written once the mapping is doubled, if that is enough. -/
theorem writeEntryMetadata_doubled {id : ℕ} (hnot : ¬ c.Maps id) (e : EntryMetadata) :
    Ensures (fun _ => True) (c.writeEntryMetadata id e) (fun r => c.doubled.metaSize < 2 ^ 63 ∧
      if c.doubled.Maps id then c.doubled.writeEntryMetadata id e = .ok r
      else r = (.SizeError, c.doubled)) := by
  unfold Maps at hnot
  have hgrow : c.metaSizeFor id = 2 * c.metaSize := if_pos (Nat.lt_of_not_le hnot)
  refine ((writeEntryMetadata_cases c id e).allow fun _ _ => trivial).mono fun r hr => ?_
  obtain ⟨hbound, rfl⟩ := hr
  rw [hgrow] at hbound ⊢
  refine ⟨?_, ?_⟩
  · show 2 * c.metaSize < 2 ^ 63
    omega
  · by_cases hmaps : c.doubled.Maps id
    · have hroom : ¬ 2 * c.metaSize < sizeofEntry + id * sizeofEntry + sizeofEntry :=
        Nat.not_lt.2 hmaps
      rw [if_pos hmaps, if_neg hroom, writeEntryMetadata_of_room hmaps]
      rfl
    · have hroom : 2 * c.metaSize < sizeofEntry + id * sizeofEntry + sizeofEntry :=
        Nat.lt_of_not_le hmaps
      rw [if_neg hmaps, if_pos hroom]
      rfl

/-- All entries are mapped. -/
def covered (c : LogCollection) : LogCollection :=
  c.mapping (max c.metaSize (sizeofEntry + c.header.nextId * sizeofEntry))

theorem covered_maps {id : ℕ} (hid : id < c.header.nextId) : c.covered.Maps id := by
  have hmul := Nat.mul_le_mul_right sizeofEntry (Nat.succ_le_of_lt hid)
  refine le_trans ?_ (le_max_right c.metaSize (sizeofEntry + c.header.nextId * sizeofEntry))
  rw [Nat.succ_mul] at hmul
  omega

theorem Chunked.mapping (h : Chunked c) (n : ℕ) : Chunked (c.mapping n) :=
  ⟨h.chunkSize_ge, h.chunkSize_lt, h.header_chunkSize, h.length_chunk, h.chunk_nil, h.used_ge,
    h.used_le⟩

theorem PointsTo.mapping {e : EntryMetadata} {doc : Bytes} (h : c.PointsTo e doc) (n : ℕ) :
    (c.mapping n).PointsTo e doc :=
  ⟨h.size_eq, h.chunk_le, h.offset_ge, h.size_le, h.allocated_le, h.slice_eq⟩

theorem HoldsEntry.mapping {e : EntryMetadata} {doc : Option Bytes} (h : c.HoldsEntry e doc)
    (n : ℕ) : (c.mapping n).HoldsEntry e doc := by
  cases doc with
  | none => exact h
  | some doc => exact PointsTo.mapping h n

theorem Stands.mapping (h : Stands c m)
    (hcovers : sizeofEntry + c.header.nextId * sizeofEntry ≤ n) : Stands (c.mapping n) m :=
  ⟨⟨h.chunked.mapping n, hcovers, h.next_eq, h.represents.fresh,
    fun id hid hnot => (h.represents.entry id hid hnot).mapping n, h.represents.apart⟩,
    h.recorded_le, h.allocated_le, h.region, h.placed, h.lost⟩

/-- What holds of a collection with documents, however much of its metadata file is mapped. -/
structure Kept (c : LogCollection) (m : IdMap Bytes) : Prop where
  stands : Stands c.covered m
  metaSize_ge : 8 * 8 * 4096 ≤ c.metaSize
  metaSize_small : c.header.nextId ≤ 8191 → c.metaSize = 8 * 8 * 4096
  covered_lt : c.covered.metaSize < 2 ^ 63

/-- A collection that stands is sane. -/
theorem Stands.sane (h : Stands c m) (hlt : c.metaSize < 2 ^ 63)
    (hsmall : c.header.nextId ≤ 8191 → c.metaSize = 8 * 8 * 4096) : Sane c := by
  refine ⟨h.chunked.header_chunkSize, h.chunked.chunkSize_lt, h.covers, hlt, hsmall,
    (h.chunked.length_chunk _ le_rfl).ge, h.chunked.chunk_nil, fun _ => h.chunked.used_ge,
    fun _ => h.chunked.used_le, fun id hid _ => ?_⟩
  cases hdoc : m.docs id with
  | none =>
    rw [h.lost id hid hdoc]
    decide
  | some doc => exact (h.pointsTo hdoc).offset_ge

namespace Kept

theorem metaSize_lt (h : Kept c m) : c.metaSize < 2 ^ 63 :=
  (le_max_left _ _).trans_lt h.covered_lt

theorem nextId_lt (h : Kept c m) : sizeofEntry + c.header.nextId * sizeofEntry < 2 ^ 63 :=
  (le_max_right _ _).trans_lt h.covered_lt

theorem next_eq (h : Kept c m) : m.next = c.header.nextId := h.stands.next_eq

theorem of_sane (h : Stands c m) (hsane : Sane c) : Kept c m := by
  have hcovers := hsane.covers
  have hcovered : c.covered = c := by
    unfold covered
    rw [max_eq_left hcovers]
    rfl
  refine ⟨by rwa [hcovered], ?_, hsane.metaSize_small, by rw [hcovered]; exact hsane.metaSize_lt⟩
  by_cases hsmall : c.header.nextId ≤ 8191
  · exact (hsane.metaSize_small hsmall).ge
  · unfold sizeofEntry at hcovers
    omega

/-- The mapping covers the entries that there are, or it does not, and these are many. -/
theorem cases (h : Kept c m) :
    Stands c m ∧ Sane c ∨ ¬ c.Maps c.header.nextId ∧ 8191 < c.header.nextId := by
  by_cases hcovers : sizeofEntry + c.header.nextId * sizeofEntry ≤ c.metaSize
  · have hstands : Stands (c.covered.mapping c.metaSize) m := h.stands.mapping hcovers
    exact Or.inl ⟨hstands, hstands.sane h.metaSize_lt h.metaSize_small⟩
  · refine Or.inr ⟨fun hmaps => hcovers ((Nat.le_add_right _ _).trans hmaps), ?_⟩
    by_contra hsmall
    have hsize := h.metaSize_small (Nat.not_lt.1 hsmall)
    unfold sizeofEntry at hcovers
    omega

/-- With a mapping that covers all entries, it stands. -/
theorem mapping_stands (h : Kept c m) (hcovers : sizeofEntry + c.header.nextId * sizeofEntry ≤ n) :
    Stands (c.mapping n) m := h.stands.mapping hcovers

/-- Another mapping of the same entries. -/
theorem remapped (h : Kept c m) (hmany : 8191 < c.header.nextId) (hge : 8 * 8 * 4096 ≤ n)
    (hlt : n < 2 ^ 63) : Kept (c.mapping n) m where
  stands := h.stands.mapping (le_max_right _ _)
  metaSize_ge := hge
  metaSize_small hsmall := absurd hmany (Nat.not_lt.2 hsmall)
  covered_lt := max_lt hlt h.nextId_lt

/-- A mapping that covers the entries covers another one when it is doubled. -/
theorem doubled_maps (h : Kept c m)
    (hcovers : sizeofEntry + c.header.nextId * sizeofEntry ≤ c.metaSize) :
    c.doubled.Maps c.header.nextId := by
  have hge := h.metaSize_ge
  show sizeofEntry + c.header.nextId * sizeofEntry + sizeofEntry ≤ 2 * c.metaSize
  unfold sizeofEntry at hcovers ⊢
  omega

/-- The mapping is doubled, and covers the entries. -/
theorem doubled (h : Kept c m) (hmany : 8191 < c.header.nextId)
    (hmaps : c.doubled.Maps c.header.nextId) (hlt : c.doubled.metaSize < 2 ^ 63) :
    Stands c.doubled m ∧ Sane c.doubled := by
  have hstands : Stands c.doubled m := h.mapping_stands ((Nat.le_add_right _ _).trans hmaps)
  exact ⟨hstands, hstands.sane hlt fun hsmall => absurd hmany (Nat.not_lt.2 hsmall)⟩

end Kept

/-! ### `append` -/

/-- A document without an entry is behind those that are there. -/
theorem Stands.wrote (h : Stands c m) {doc : Bytes} {offset : ℕ} (hw : Wrote c c' offset doc)
    (hgrew : Grew c c') : Stands c' m := by
  have hadrift : c'.adrift = c.adrift := by
    unfold adrift
    rw [hw.entries_eq, hw.nextId_eq]
  refine ⟨⟨hw.chunked, ?_, h.next_eq.trans hw.nextId_eq.symm, h.represents.fresh, ?_, ?_⟩,
    hgrew.recorded_le, ?_, ?_, ?_, ?_⟩
  · rw [hw.nextId_eq, hw.metaSize_eq]
    exact h.covers
  · rw [hw.nextId_eq, hw.entries_eq, hadrift]
    intro id hid hnot
    have hentry := h.represents.entry id hid hnot
    cases hdoc : m.docs id with
    | none => rwa [hdoc] at hentry
    | some old =>
      rw [hdoc] at hentry
      exact PointsTo.of_wrote hentry hw
  · rw [hw.entries_eq, hadrift]
    exact h.represents.apart
  · rw [hw.nextId_eq, hw.entries_eq, hw.chunkSize_eq]
    exact h.allocated_le
  · intro id old hold
    rw [hw.entries_eq]
    exact (h.region id old hold).trans (hgrew.recorded_ge _ (h.pointsTo hold).chunk_le)
  · rw [hw.entries_eq]
    exact h.placed
  · rw [hw.nextId_eq, hw.entries_eq]
    exact h.lost

/-- Other documents in a collection with as many entries, of which as many are mapped. -/
theorem Kept.of_stands (h : Kept c m) (hnext : c'.header.nextId = c.header.nextId)
    (hsize : c'.metaSize = c.metaSize) {m' : IdMap Bytes} (hstands : Stands c'.covered m') :
    Kept c' m' where
  stands := hstands
  metaSize_ge := hsize ▸ h.metaSize_ge
  metaSize_small := by
    rw [hnext, hsize]
    exact h.metaSize_small
  covered_lt := by
    have hlt := h.covered_lt
    unfold covered mapping at hlt ⊢
    rwa [hnext, hsize]

/-- The first document that is not stored because of its entry: the mapping does not become large
enough, or it is doubled and all goes on as if it always had been. -/
theorem appendLoop_behind (h : Kept c m) (hnot : ¬ c.Maps c.header.nextId)
    (hmany : 8191 < c.header.nextId) (data : Bytes) {size : ℕ} (sizes : List ℕ) (docOffset : ℕ)
    (ids : List UInt64) (hsize : size ≤ c.chunkSize) :
    Ensures (fun _ => True) (appendLoop data (size :: sizes) docOffset c.used c ids) (fun r =>
      (r.1 ≠ .OK ∧ r.2.2.chunkSize = c.chunkSize ∧ Kept r.2.2 m ∧
        (c.chunkSize < size + 8 ∨ ¬ c.doubled.Maps c.header.nextId)) ∨
      (Stands c.doubled m ∧ Sane c.doubled) ∧ c.doubled.Maps c.header.nextId ∧
        appendLoop data (size :: sizes) docOffset c.used c.doubled ids = .ok r) := by
  have hlen : (slice data docOffset size).length ≤ size := by
    rw [length_slice]
    omega
  -- the document is written as if all entries were mapped
  have hwrite : ∀ n, (c.mapping n).writeDocument c.used (slice data docOffset size) =
      (c.covered.writeDocument c.covered.used (slice data docOffset size)).map fun r =>
        (r.1, remap n r.2) := fun n => writeDocument_mapping (c := c.covered) ..
  obtain ⟨hroom, c₁, offset, hcovered, hw, hgrew, -⟩ | ⟨hlarge, hcovered⟩ :=
    writeDocument_stands h.stands (hlen.trans hsize)
  · have hnext : c₁.header.nextId = c.header.nextId := hw.nextId_eq
    have hstands : Stands (c₁.mapping c.metaSize).covered m :=
      (h.stands.wrote hw hgrew).mapping (le_max_right _ _)
    have hkept : Kept (c₁.mapping c.metaSize) m :=
      @Kept.of_stands c (c₁.mapping c.metaSize) m h hnext rfl m hstands
    let e : EntryMetadata := ⟨c₁.header.lastChunkId, offset, size, size⟩
    have hentry := @writeEntryMetadata_doubled (c₁.mapping c.metaSize) c.header.nextId hnot e
    rw [hcovered] at hwrite
    have hloop : ∀ n, appendLoop data (size :: sizes) docOffset c.used (c.mapping n) ids =
        (c₁.mapping n).writeEntryMetadata c.header.nextId e >>= fun r =>
          if r.1 ≠ .OK then .ok (r.1, ids ++ [UInt64.ofNat c.header.nextId], r.2)
          else appendLoop data sizes (docOffset + size) (offset + size) { r.2 with
            header := { r.2.header with
              nextId := c.header.nextId + 1
              collSize := r.2.header.collSize + 1 } } (ids ++ [UInt64.ofNat c.header.nextId]) := by
      intro n
      conv_lhs => unfold appendLoop
      dsimp only
      rw [hwrite n]
      rfl
    have hself := hloop c.metaSize
    rw [mapping_self] at hself
    rw [hself]
    refine Ensures.bind hentry fun r hr => ?_
    obtain ⟨hlt, hr⟩ := hr
    by_cases hmaps : c.doubled.Maps c.header.nextId
    · rw [if_pos (show (c₁.mapping c.metaSize).doubled.Maps c.header.nextId from hmaps)] at hr
      have hgoes := hloop (2 * c.metaSize)
      rw [show (c₁.mapping (2 * c.metaSize)).writeEntryMetadata c.header.nextId e = .ok r from hr]
        at hgoes
      have hsame := h.doubled hmany hmaps hlt
      generalize hrest : (if r.1 ≠ .OK then _ else _ :
        Outcome (Status × List UInt64 × LogCollection)) = rest
      cases rest with
      | error e => trivial
      | ok r' => exact Or.inr ⟨hsame, hmaps, hgoes.trans hrest⟩
    · rw [if_neg (show ¬ (c₁.mapping c.metaSize).doubled.Maps c.header.nextId from hmaps)] at hr
      subst hr
      refine Or.inl ⟨fun hok => (by cases hok), hw.chunkSize_eq, ?_, Or.inr hmaps⟩
      refine hkept.remapped (hnext ▸ hmany) ?_ hlt
      have hge := h.metaSize_ge
      show _ ≤ 2 * c.metaSize
      omega
  · rw [hcovered] at hwrite
    have hlarge : c.chunkSize < size + 8 := hlarge.trans_le (Nat.add_le_add_right hlen 8)
    have hself := hwrite c.metaSize
    rw [mapping_self] at hself
    unfold appendLoop
    rw [hself]
    refine Or.inl ⟨fun hok => (by cases hok), rfl, ?_, Or.inl hlarge⟩
    exact @Kept.of_stands c c.withChunk m h rfl rfl m
      ((stands_withChunk h.stands).mapping (le_max_right _ _))

theorem append_refused {data : Bytes} {sizes : List ℕ} (hlarge : ∃ size ∈ sizes, c.chunkSize < size)
    (ids : List UInt64) : c.append data sizes ids = .ok (.SizeError, ids, c) := by
  obtain ⟨size, hsize, hlt⟩ := hlarge
  unfold append
  rw [if_pos (List.any_eq_true.2 ⟨size, hsize, decide_eq_true hlt⟩)]

theorem append_of_admitted (h : Chunked c) {sizes : List ℕ}
    (hadmitted : ∀ size ∈ sizes, size ≤ c.chunkSize) (data : Bytes) (ids : List UInt64) :
    c.append data sizes ids = (appendLoop data sizes 0 c.used c []).map fun r =>
      (r.1, r.2.1 ++ ids.drop r.2.1.length, r.2.2) := by
  unfold append
  rw [if_neg (not_any_larger hadmitted), nextOffset_eq h]
  dsimp only [bind, Except.bind]
  rw [if_neg (not_not.2 rfl)]
  cases appendLoop data sizes 0 c.used c [] <;> rfl

theorem Kept.chunked (h : Kept c m) : Chunked c := h.stands.chunked.mapping c.metaSize

/-- `append` of documents, none of them larger than a chunk: the first of them is not stored, or
they are stored as in a collection with enough entries mapped. -/
theorem append_kept (h : Kept c m) {sizes : List ℕ} (hne : sizes ≠ [])
    (hadmitted : ∀ size ∈ sizes, size ≤ c.chunkSize) (data : Bytes) (ids : List UInt64) :
    Ensures (fun _ => True) (c.append data sizes ids) (fun r =>
      (r.1 ≠ .OK ∧ r.2.2.chunkSize = c.chunkSize ∧ Kept r.2.2 m ∧
        ((∃ size ∈ sizes, c.chunkSize < size + 8) ∨ ¬ c.doubled.Maps c.header.nextId)) ∨
      c.doubled.Maps c.header.nextId ∧ ∃ n, (Stands (c.mapping n) m ∧ Sane (c.mapping n)) ∧
        (c.mapping n).append data sizes ids = .ok r) := by
  rcases h.cases with hcovered | ⟨hnot, hmany⟩
  · have hmaps := h.doubled_maps hcovered.1.covers
    cases hr : c.append data sizes ids with
    | error e => trivial
    | ok r => exact Or.inr ⟨hmaps, c.metaSize, hcovered, hr⟩
  · obtain ⟨size, sizes, rfl⟩ := List.exists_cons_of_ne_nil hne
    have hloop := appendLoop_behind h hnot hmany data sizes 0 [] (hadmitted size List.mem_cons_self)
    rw [append_of_admitted h.chunked hadmitted]
    cases hr : appendLoop data (size :: sizes) 0 c.used c [] with
    | error e => trivial
    | ok r =>
      obtain ⟨hfails, hchunkSize, hkept, hwhy⟩ | ⟨hdoubled, hmaps, hsame⟩ := hloop.of_eq_ok hr
      · refine Or.inl ⟨hfails, hchunkSize, hkept, hwhy.imp_left fun hlarge => ?_⟩
        exact ⟨size, List.mem_cons_self, hlarge⟩
      · have happend : c.doubled.append data (size :: sizes) ids = _ :=
          append_of_admitted hdoubled.1.chunked hadmitted data ids
        exact Or.inr ⟨hmaps, _, hdoubled, happend.trans (congrArg (Except.map _) hsame)⟩

/-! ### `update` -/

/-- Entries without a document have been created. -/
structure Created (c c' : LogCollection) (k : ℕ) : Prop where
  chunkSize_eq : c'.chunkSize = c.chunkSize
  cacheSize_eq : c'.cacheSize = c.cacheSize
  chunks_eq : c'.chunks = c.chunks
  header_eq : c'.header = { c.header with nextId := c.header.nextId + k }
  entries_eq : ∀ id < c.header.nextId, c'.entries id = c.entries id
  entries_new : ∀ id < c.header.nextId + k, c.header.nextId ≤ id →
    c'.entries id = ⟨c.header.lastChunkId, keyNotFound, keyNotFound, 0⟩
  maps_new : ∀ id < c.header.nextId + k, c.header.nextId ≤ id → c'.Maps id
  metaSize_ge : c.metaSize ≤ c'.metaSize

theorem Created.lt_next {id : UInt64} {last : ℕ} (h : Created c c' (last + 1 - c.header.nextId))
    (hle : id.toNat ≤ last) : id.toNat < c'.header.nextId := by
  rw [h.header_eq]
  show id.toNat < c.header.nextId + (last + 1 - c.header.nextId)
  omega

theorem createEntries_created (k : ℕ) (c : LogCollection) :
    Ensures (fun _ => True) (createEntries k c) (fun r => r.1 = .OK → Created c r.2 k) := by
  induction k generalizing c with
  | zero => exact fun _ => ⟨rfl, rfl, rfl, rfl, fun _ _ => rfl, fun id hid hge =>
      absurd hge (Nat.not_le.2 hid), fun id hid hge => absurd hge (Nat.not_le.2 hid), le_rfl⟩
  | succ k ih =>
    unfold createEntries
    refine Ensures.bind ((writeEntryMetadata_cases c _ _).allow fun _ _ => trivial) ?_
    rintro r ⟨-, rfl⟩
    split_ifs with hroom
    · exact fun hok => (by cases hok)
    · refine (ih _).mono fun r hr hok => ?_
      obtain ⟨hchunkSize, hcacheSize, hchunks, hheader, hold, hnew, hmaps, hge⟩ := hr hok
      have hadd : c.header.nextId + 1 + k = c.header.nextId + (k + 1) := by omega
      dsimp only [LogCollection.withEntry] at hheader hold hnew hmaps
      rw [hadd] at hheader hnew hmaps
      have hgrown : c.metaSizeFor c.header.nextId ≤ r.2.metaSize := hge
      refine ⟨hchunkSize, hcacheSize, hchunks, hheader, fun id hid => ?_, fun id hid hge => ?_,
        fun id hid hge => ?_, (metaSize_le_metaSizeFor _).trans hgrown⟩
      · rw [hold id (hid.trans (Nat.lt_succ_self _)), Function.update_of_ne hid.ne]
      · obtain rfl | hgt := hge.eq_or_lt
        · rw [hold _ (Nat.lt_succ_self _), Function.update_self]
        · exact hnew id hid hgt
      · obtain rfl | hgt := hge.eq_or_lt
        · exact (Nat.not_lt.1 hroom).trans hgrown
        · exact hmaps id hid hgt

/-- `createEntries`: the first entry cannot be written, or all of them are. -/
theorem createEntries_kept (h : Kept c m) (k : ℕ) :
    Ensures (fun _ => True) (createEntries (k + 1) c) (fun r =>
      (r.1 ≠ .OK ∧ r.2.chunkSize = c.chunkSize ∧ Kept r.2 m ∧
        ¬ c.doubled.Maps c.header.nextId) ∨
      c.doubled.Maps c.header.nextId ∧ r.1 = .OK ∧ Created c r.2 (k + 1) ∧
        Stands r.2 ⟨m.next + (k + 1), m.docs⟩ ∧ Sane r.2 ∧ r.2.adrift = c.adrift) := by
  -- with a mapping of all entries
  have hcovered : ∀ n, Stands (c.mapping n) m → Sane (c.mapping n) →
      Ensures (fun _ => True) (createEntries (k + 1) (c.mapping n)) (fun r =>
        r.1 = .OK ∧ Stands r.2 ⟨m.next + (k + 1), m.docs⟩ ∧ Sane r.2 ∧ r.2.adrift = c.adrift) := by
    intro n hstands hsane
    refine (((createEntries_stands hstands).allow fun _ _ => trivial).and
      (createEntries_sane hsane)).mono ?_
    rintro r ⟨⟨hok, -, -, -, hadrift, hstands'⟩, hsane', -⟩
    exact ⟨hok, hstands', hsane', hadrift⟩
  have hcreated := createEntries_created (k + 1) c
  rcases h.cases with ⟨hstands, hsane⟩ | ⟨hnot, hmany⟩
  · refine ((hcovered c.metaSize hstands hsane).and hcreated).mono ?_
    rintro r ⟨⟨hok, hstands', hsane', hadrift⟩, hr⟩
    exact Or.inr ⟨h.doubled_maps hstands.covers, hok, hr hok, hstands', hsane', hadrift⟩
  · have hwrite := writeEntryMetadata_doubled hnot
      ⟨c.header.lastChunkId, keyNotFound, keyNotFound, 0⟩
    have hcreate : ∀ n, createEntries (k + 1) (c.mapping n) = (c.mapping n).writeEntryMetadata
        c.header.nextId ⟨c.header.lastChunkId, keyNotFound, keyNotFound, 0⟩ >>= fun r =>
          if r.1 ≠ .OK then .ok r
          else createEntries k
            { r.2 with header := { r.2.header with nextId := r.2.header.nextId + 1 } } :=
      fun _ => rfl
    have hself := hcreate c.metaSize
    have hdoubled := hcreate (2 * c.metaSize)
    rw [mapping_self] at hself
    cases hr : createEntries (k + 1) c with
    | error e => trivial
    | ok r =>
      rw [hr] at hself
      cases hentry : c.writeEntryMetadata c.header.nextId
          ⟨c.header.lastChunkId, keyNotFound, keyNotFound, 0⟩ with
      | error e => rw [hentry] at hself; cases hself
      | ok r₁ =>
        obtain ⟨hlt, hr₁⟩ := hwrite.of_eq_ok hentry
        rw [hentry] at hself
        by_cases hmaps : c.doubled.Maps c.header.nextId
        · rw [if_pos hmaps] at hr₁
          rw [show (c.mapping (2 * c.metaSize)).writeEntryMetadata _ _ = _ from hr₁] at hdoubled
          obtain ⟨hstands, hsane⟩ := h.doubled hmany hmaps hlt
          obtain ⟨hok, hstands', hsane', hadrift⟩ :=
            (hcovered _ hstands hsane).of_eq_ok (hdoubled.trans hself.symm)
          exact Or.inr ⟨hmaps, hok, hcreated.of_eq_ok hr hok, hstands', hsane', hadrift⟩
        · rw [if_neg hmaps] at hr₁
          subst hr₁
          obtain rfl : (Status.SizeError, c.doubled) = r := (Except.ok.inj hself).symm
          refine Or.inl ⟨fun hok => (by cases hok), rfl, h.remapped hmany ?_ hlt, hmaps⟩
          have hge := h.metaSize_ge
          omega

/-- The first pass goes through the documents in their order. -/
theorem inPlacePass_append (data : Bytes) (docs docs' : List (UInt64 × ℕ)) (docOffset : ℕ)
    (c : LogCollection) (es : List EntryMetadata) :
    inPlacePass data (docs ++ docs') docOffset c es =
      inPlacePass data docs docOffset c es >>= fun r =>
        if r.1 ≠ .OK then .ok r
        else inPlacePass data docs' (docOffset + (docs.map Prod.snd).sum) r.2.2 r.2.1 := by
  induction docs generalizing docOffset c es with
  | nil => rfl
  | cons p docs ih =>
    obtain ⟨id, size⟩ := p
    rw [List.cons_append, List.map_cons, List.sum_cons, ← Nat.add_assoc]
    generalize inPlacePass data docs' = rest at ih ⊢
    unfold inPlacePass
    obtain ⟨status, e⟩ := c.readEntryMetadata id.toNat
    dsimp only
    by_cases hok : status ≠ .OK
    · rw [if_pos hok, if_pos hok]
      exact (if_pos hok).symm
    rw [if_neg hok, if_neg hok]
    by_cases hfit : e.allocated < size
    · rw [if_pos hfit, if_pos hfit]
      exact ih ..
    rw [if_neg hfit, if_neg hfit, bind_assoc]
    refine bind_congr_of fun r _ => ?_
    obtain ⟨status, c₁⟩ := r
    dsimp only
    by_cases hok₁ : status ≠ .OK
    · rw [if_pos hok₁, if_pos hok₁]
      exact (if_pos hok₁).symm
    rw [if_neg hok₁, if_neg hok₁, bind_assoc]
    refine bind_congr_of fun r _ => ?_
    obtain ⟨status, c₂⟩ := r
    dsimp only
    by_cases hok₂ : status ≠ .OK
    · rw [if_pos hok₂, if_pos hok₂]
      exact (if_pos hok₂).symm
    rw [if_neg hok₂, if_neg hok₂]
    exact ih ..

/-- Documents of a collection of which all entries are mapped. -/
theorem Kept.of_covered (h : Kept c m) {m' : IdMap Bytes} (hstands : Stands c' m')
    (hnext : c'.header.nextId = c.header.nextId) : Kept (c'.mapping c.metaSize) m' :=
  @Kept.of_stands c (c'.mapping c.metaSize) m h hnext rfl m' (hstands.mapping (le_max_right _ _))

/-- The first pass, as far as the entries are mapped. -/
theorem inPlacePass_kept (h : Kept c m) {data : Bytes} {docs : List (UInt64 × ℕ)}
    (hids : ∀ p ∈ docs, p.1.toNat < c.header.nextId) (hmaps : ∀ p ∈ docs, c.Maps p.1.toNat)
    (hdata : (docs.map Prod.snd).sum ≤ data.length) :
    Ensures (fun _ => True) (inPlacePass data docs 0 c []) (fun r =>
      r.1 = .OK ∧
        r.2.1.map EntryMetadata.allocated = docs.map (fun p => c.allocatedFor p.1.toNat) ∧
        r.2.2.metaSize = c.metaSize ∧ r.2.2.chunkSize = c.chunkSize ∧
        r.2.2.header.nextId = c.header.nextId ∧
        Kept r.2.2 (m.write (inPlace c.allocatedFor m (docsAt data 0 docs)))) := by
  have hcovered : ∀ p ∈ docs, c.covered.Maps p.1.toNat := fun p hp => covered_maps (hids p hp)
  have hsame : inPlacePass data docs 0 c [] =
      (inPlacePass data docs 0 c.covered []).map fun r => (r.1, remap c.metaSize r.2) :=
    inPlacePass_mapping (c := c.covered) (n := c.metaSize) 0 [] hcovered hmaps
  have hpass := @inPlacePass_stands c.covered m c.allocatedFor _ data docs 0 [] h.stands
    (fun id hid => (if_pos hid).symm : ∀ id < _, _ = c.allocatedFor id) (fun _ => rfl) hids
    (by rwa [Nat.zero_add])
  rw [hsame]
  cases hr : inPlacePass data docs 0 c.covered [] with
  | error e => trivial
  | ok r =>
    obtain ⟨hok, ⟨es, hes, hlen⟩, hchunkSize, hnext, -, hstands, -⟩ := hpass.of_eq_ok hr
    refine ⟨hok, ?_, rfl, hchunkSize, hnext, h.of_covered hstands hnext⟩
    show r.2.1.map EntryMetadata.allocated = _
    rw [hes, List.nil_append]
    exact hlen

/-- The passes stop at the first entry that is not mapped. -/
theorem passes_unmapped (h : Kept c m) {batch : DocBatch} {ids : List UInt64}
    (hholds : batch.Holds ids.length) (hids : ∀ id ∈ ids, id.toNat < c.header.nextId)
    (hnot : ∃ id ∈ ids, ¬ c.Maps id.toNat) :
    Ensures (fun _ => True) (c.passes ids batch.documents batch.sizes) (fun r =>
      r.1 ≠ .OK ∧ r.2.chunkSize = c.chunkSize ∧ r.2.header.nextId = c.header.nextId ∧
        ∃ m', Kept r.2 m') := by
  obtain ⟨hcount, hsum⟩ := hholds
  have hfst : (ids.zip batch.sizes).map Prod.fst = ids := List.map_fst_zip hcount.le
  have hsnd : (ids.zip batch.sizes).map Prod.snd = batch.sizes := List.map_snd_zip hcount.ge
  have hpass : ∀ p ∈ ids.zip batch.sizes, p.1.toNat < c.header.nextId := fun p hp =>
    hids p.1 (List.of_mem_zip hp).1
  -- the first of these entries
  obtain ⟨p, hfind⟩ : ∃ p, (ids.zip batch.sizes).find? (fun p => ¬ c.Maps p.1.toNat) = some p := by
    obtain ⟨id, hid, hunmapped⟩ := hnot
    rw [← hfst] at hid
    obtain ⟨p, hp, rfl⟩ := List.mem_map.1 hid
    exact Option.isSome_iff_exists.1 (List.find?_isSome.2 ⟨p, hp, decide_eq_true hunmapped⟩)
  obtain ⟨hunmapped, docs, rest, hdocs, hmaps⟩ := List.find?_eq_some_iff_append.1 hfind
  have hunmapped : ¬ c.Maps p.1.toNat := of_decide_eq_true hunmapped
  have hmaps : ∀ p ∈ docs, c.Maps p.1.toNat := by
    intro p hp
    have hall := hmaps p hp
    simpa using hall
  have hdata : (docs.map Prod.snd).sum ≤ batch.documents.length := by
    refine le_trans ?_ (hsnd ▸ hsum)
    rw [hdocs, List.map_append, List.sum_append]
    exact Nat.le_add_right _ _
  unfold passes
  rw [hdocs] at hpass ⊢
  rw [inPlacePass_append, bind_assoc]
  refine Ensures.bind (inPlacePass_kept h (fun p hp => hpass p (List.mem_append_left _ hp)) hmaps
    hdata) ?_
  rintro ⟨status, es, c₁⟩ ⟨hok, -, hsize, hchunkSize, hnext, hkept⟩
  have hread : (c₁.readEntryMetadata p.1.toNat) = (.SizeError, {}) := by
    refine if_pos (Nat.lt_of_not_le fun hle => hunmapped ?_)
    rwa [show c₁.metaSize = c.metaSize from hsize] at hle
  obtain rfl : status = .OK := hok
  obtain ⟨id, size⟩ := p
  dsimp only
  rw [if_neg (not_not.2 rfl)]
  unfold inPlacePass
  rw [hread]
  exact ⟨fun hok => (by cases hok), hchunkSize, hnext, _, hkept⟩

/-- The passes, when the entries of the batch are mapped: they are those of a collection of which
all entries are. -/
theorem passes_kept (h : Kept c m) {batch : DocBatch} {ids : List UInt64}
    (hholds : batch.Holds ids.length) (hids : ∀ id ∈ ids, id.toNat < c.header.nextId)
    (hne : ids ≠ []) (hsizes : ∀ size ∈ batch.sizes, size ≤ c.chunkSize)
    (hmaps : ∀ id ∈ ids, c.Maps id.toNat) :
    Ensures (fun _ => True) (c.passes ids batch.documents batch.sizes) (fun r =>
      r.1 = .OK ∧ r.2.chunkSize = c.chunkSize ∧ r.2.header.nextId = c.header.nextId ∧
        r.2.metaSize = c.metaSize ∧
        Kept r.2 ((m.write (inPlace c.allocatedFor m (under ids batch))).write
          (appended c.allocatedFor c.chunkSize (under ids batch))) ∧
        (Appendable c.allocatedFor c.chunkSize (under ids batch) →
          Behind c r.2 (appended c.allocatedFor c.chunkSize (under ids batch)))) := by
  have hcovered : ∀ id ∈ ids, c.covered.Maps id.toNat := fun id hid => covered_maps (hids id hid)
  have hsame : c.passes ids batch.documents batch.sizes =
      (c.covered.passes ids batch.documents batch.sizes).map (remap c.metaSize) :=
    passes_mapping (c := c.covered) hne hcovered hmaps _ _
  rw [hsame]
  cases hr : c.covered.passes ids batch.documents batch.sizes with
  | error e => trivial
  | ok r =>
    obtain ⟨hok, hchunkSize, hnext, hstands, -, hbehind⟩ :=
      (passes_stands h.stands hholds hids hne hsizes).of_eq_ok hr
    refine ⟨hok, hchunkSize, hnext, rfl, h.of_covered hstands hnext, fun hall => ?_⟩
    obtain ⟨hcache, hlast, hchunk⟩ := hbehind hall
    exact ⟨hcache, hlast, hchunk⟩

/-- The entries of a batch can be mapped: that of the first new id by doubling the mapping once, or
those that there are. -/
def CanMap (c : LogCollection) (ids : List UInt64) : Prop :=
  if c.header.nextId ≤ (maxID ids).toNat then c.doubled.Maps c.header.nextId
  else c.Maps (maxID ids).toNat

instance (c : LogCollection) (ids : List UInt64) : Decidable (c.CanMap ids) := by
  unfold CanMap
  infer_instance

theorem update_refused {sizes : List ℕ} (hlarge : ∃ size ∈ sizes, c.chunkSize < size)
    (ids : List UInt64) (data : Bytes) : c.update ids data sizes = .ok (.SizeError, c) := by
  obtain ⟨size, hsize, hlt⟩ := hlarge
  unfold update
  rw [if_pos (List.any_eq_true.2 ⟨size, hsize, decide_eq_true hlt⟩)]

/-- An update of no ids does not return. -/
theorem update_nil {sizes : List ℕ} (hadmitted : ∀ size ∈ sizes, size ≤ c.chunkSize)
    (data : Bytes) : c.update [] data sizes = .error .outOfBounds := by
  unfold update
  rw [if_neg (not_any_larger hadmitted), if_pos rfl]

/-- What an update of a batch that is not refused does in a collection that may have been opened
again: the entries of the batch are mapped, and the passes follow, or there is an error. -/
theorem update_kept (h : Kept c m) {batch : DocBatch} {ids : List UInt64}
    (hholds : batch.Holds ids.length) (hne : ids ≠ [])
    (hsizes : ∀ size ∈ batch.sizes, size ≤ c.chunkSize) :
    Ensures (fun _ => True) (c.update ids batch.documents batch.sizes) (fun r =>
      (¬ c.CanMap ids ∧ r.1 ≠ .OK ∧ r.2.chunkSize = c.chunkSize ∧
        ((maxID ids).toNat < c.header.nextId → r.2.header.nextId = c.header.nextId) ∧
        ∃ m', Kept r.2 m') ∨
      c.CanMap ids ∧ ∃ c₁,
        createEntries ((maxID ids).toNat + 1 - c.header.nextId) c = .ok (.OK, c₁) ∧
        Created c c₁ ((maxID ids).toNat + 1 - c.header.nextId) ∧
        Kept c₁ (m.reach (maxID ids).toNat) ∧ (∀ id ∈ ids, c₁.Maps id.toNat) ∧
        c₁.passes ids batch.documents batch.sizes = .ok r) := by
  have hle : ∀ id ∈ ids, id.toNat ≤ (maxID ids).toNat := fun id hid =>
    UInt64.le_iff_toNat_le.1 (le_maxID hid)
  rw [update_of_admitted hsizes hne]
  -- some entry is missing, or all of them exist
  by_cases hnew : c.header.nextId ≤ (maxID ids).toNat
  · have hcan : c.CanMap ids ↔ c.doubled.Maps c.header.nextId := by
      unfold CanMap
      rw [if_pos hnew]
    -- the first entry decides: once it is mapped, the mapping grows with the others
    obtain ⟨k, hk⟩ : ∃ k, (maxID ids).toNat + 1 - c.header.nextId = k + 1 :=
      ⟨(maxID ids).toNat - c.header.nextId, by omega⟩
    have hreach : (⟨m.next + (k + 1), m.docs⟩ : IdMap Bytes) = m.reach (maxID ids).toNat := by
      rw [h.next_eq]
      unfold IdMap.reach
      congr 1
      rw [h.next_eq]
      omega
    rw [hk]
    cases hr : createEntries (k + 1) c with
    | error e => trivial
    | ok r =>
      obtain ⟨hfails, hchunkSize, hkept, hnot⟩ | ⟨hmaps, hok, hcreated, hstands, hsane, -⟩ :=
        (createEntries_kept h k).of_eq_ok hr
      · obtain ⟨status, c₁⟩ := r
        dsimp only [bind, Except.bind]
        rw [if_pos hfails]
        refine Or.inl ⟨fun hcan' => hnot (hcan.1 hcan'), hfails, hchunkSize, fun hlt => ?_, m,
          hkept⟩
        exact absurd hlt (Nat.not_lt.2 hnew)
      · obtain ⟨status, c₁⟩ := r
        obtain rfl : status = .OK := hok
        dsimp only [bind, Except.bind]
        rw [if_neg (not_not.2 rfl)]
        rw [hreach] at hstands
        have hmapped : ∀ id ∈ ids, c₁.Maps id.toNat := fun id hid =>
          (hcreated.maps_new _ (by omega) hnew).mono (hle id hid)
        cases hpasses : c₁.passes ids batch.documents batch.sizes with
        | error e => trivial
        | ok r =>
          exact Or.inr ⟨hcan.2 hmaps, c₁, rfl, hcreated, .of_sane hstands hsane, hmapped, hpasses⟩
  · -- nothing is created; the passes fail at an entry that is not mapped
    have hcan : c.CanMap ids ↔ c.Maps (maxID ids).toNat := by
      unfold CanMap
      rw [if_neg hnew]
    have hids : ∀ id ∈ ids, id.toNat < c.header.nextId := fun id hid => by
      have := hle id hid
      omega
    have hzero : (maxID ids).toNat + 1 - c.header.nextId = 0 := by omega
    rw [hzero]
    dsimp only [createEntries, bind, Except.bind]
    rw [if_neg (not_not.2 rfl)]
    cases hr : c.passes ids batch.documents batch.sizes with
    | error e => trivial
    | ok r =>
      by_cases hmaps : c.Maps (maxID ids).toNat
      · have hreach : m.reach (maxID ids).toNat = m := by
          unfold IdMap.reach
          rw [h.next_eq, max_eq_left (by omega)]
          exact IdMap.ext h.next_eq.symm rfl
        refine Or.inr ⟨hcan.2 hmaps, c, rfl, ⟨rfl, rfl, rfl, rfl, fun _ _ => rfl,
          fun id hid hge => absurd hge (Nat.not_le.2 hid),
          fun id hid hge => absurd hge (Nat.not_le.2 hid), le_rfl⟩, ?_,
          fun id hid => hmaps.mono (hle id hid), hr⟩
        rw [hreach]
        exact h
      · obtain ⟨hfails, hchunkSize, hnext, hkept⟩ :=
          (passes_unmapped h hholds hids ⟨_, maxID_mem hne, hmaps⟩).of_eq_ok hr
        exact Or.inl ⟨fun hcan' => hmaps (hcan.1 hcan'), hfails, hchunkSize, fun _ => hnext, hkept⟩

/-! ### `erase`, and opening the files -/

/-- `erase` of an id whose entry is mapped. -/
theorem erase_mapping {id : UInt64} (h : c.Maps id.toNat) (h' : (c.mapping n).Maps id.toNat) :
    (c.mapping n).erase id = (c.erase id).map (remap n) := by
  unfold erase
  rw [readEntryMetadata_of_maps h, readEntryMetadata_of_maps h']
  have hheader : (c.mapping n).header = c.header := rfl
  have hentries : (c.mapping n).entries = c.entries := rfl
  rw [hheader, hentries]
  dsimp only
  rw [if_neg (not_not.2 rfl), if_neg (not_not.2 rfl)]
  split_ifs
  · rfl
  · rfl
  · rw [writeEntryMetadata_mapping h h', bind_map, map_bind]
    refine bind_congr_of fun r _ => ?_
    obtain ⟨status, c₁⟩ := r
    dsimp only [remap]
    by_cases hok : status ≠ .OK
    · rw [if_pos hok, if_pos hok]
      rfl
    · rw [if_neg hok, if_neg hok]
      rfl

theorem erase_kept (h : Kept c m) (id : UInt64) :
    Ensures (fun _ => True) (c.erase id) (fun r =>
      r.2.chunkSize = c.chunkSize ∧ r.2.header.nextId = c.header.nextId ∧ ∃ m', Kept r.2 m') := by
  by_cases hid : c.header.nextId ≤ id.toNat
  · unfold erase
    rw [if_pos hid]
    exact ⟨rfl, rfl, m, h⟩
  by_cases hmaps : c.Maps id.toNat
  · have hsame : c.erase id = (c.covered.erase id).map (remap c.metaSize) :=
      erase_mapping (c := c.covered) (covered_maps (Nat.not_le.1 hid)) hmaps
    obtain ⟨c', herase, hchunkSize, hstands, -⟩ := erase_stands h.stands id
    have hnext : c'.header.nextId = c.header.nextId := hstands.next_eq.symm.trans h.next_eq
    rw [hsame, herase]
    exact ⟨hchunkSize, hnext, _, h.of_covered hstands hnext⟩
  · have hread : c.readEntryMetadata id.toNat = (.SizeError, {}) := if_pos (Nat.lt_of_not_le hmaps)
    unfold erase
    rw [if_neg hid, hread]
    exact ⟨rfl, rfl, m, h⟩

/-- The collection is opened again. -/
theorem Kept.reopen (h : Kept c m) (cacheSize : UInt64) :
    Kept (ofFiles c.chunkSize cacheSize c.toCollectionFiles) m := by
  rw [ofFiles_toCollectionFiles h.chunked.header_chunkSize (h.chunked.length_chunk _ le_rfl).ge]
  have hstands : Stands { c.covered with cacheSize } m :=
    ⟨⟨⟨h.chunked.chunkSize_ge, h.chunked.chunkSize_lt, h.chunked.header_chunkSize,
        h.chunked.length_chunk, h.chunked.chunk_nil, h.chunked.used_ge, h.chunked.used_le⟩,
      h.stands.represents.covers, h.stands.represents.next_eq, h.stands.represents.fresh,
      fun id hid hnot => ?_, h.stands.represents.apart⟩, h.stands.recorded_le,
      h.stands.allocated_le, h.stands.region, h.stands.placed, h.stands.lost⟩
  · have hmax : max (8 * 8 * 4096) (sizeofEntry + c.header.nextId * sizeofEntry) < 2 ^ 63 :=
      max_lt (by decide) h.nextId_lt
    exact ⟨hstands.mapping (le_max_right _ _), le_rfl, fun _ => rfl, hmax⟩
  · have hentry := h.stands.represents.entry id hid hnot
    cases hdoc : m.docs id with
    | none =>
      rw [hdoc] at hentry
      exact hentry
    | some doc =>
      rw [hdoc] at hentry
      exact ⟨hentry.size_eq, hentry.chunk_le, hentry.offset_ge, hentry.size_le, hentry.allocated_le,
        hentry.slice_eq⟩

/-! ### Runs -/

/-- What happens to a collection: a call, or the database is closed and opened again with the same
size of chunks. -/
inductive LogEvent
  | op (op : LogOp)
  | reopen (cacheSize : UInt64)

/-- A well-formed call that returns, or the files opened again. -/
def Happens (c : LogCollection) : LogEvent → LogCollection → Prop
  | .op op, c' => Returns c op c'
  | .reopen cacheSize, c' => ofFiles c.chunkSize cacheSize c.toCollectionFiles = c'

theorem returns_kept (h : Kept c m) {op : LogOp} (hreturns : Returns c op c') :
    c'.chunkSize = c.chunkSize ∧ ∃ m', Kept c' m' := by
  obtain ⟨hholds, status, hr⟩ := hreturns
  cases op with
  | append ids batch =>
    -- refused, empty, stopped by the mapping, or as if all entries were mapped
    change (c.append batch.documents batch.sizes ids >>= fun r =>
      (.ok (r.1, r.2.2) : Outcome (Status × LogCollection))) = _ at hr
    cases happend : c.append batch.documents batch.sizes ids with
    | error e => rw [happend] at hr; cases hr
    | ok r =>
      rw [happend] at hr
      obtain ⟨-, rfl⟩ := Prod.mk.inj (Except.ok.inj hr)
      by_cases hlarge : ∃ size ∈ batch.sizes, c.chunkSize < size
      · rw [append_refused hlarge] at happend
        obtain rfl := Except.ok.inj happend
        exact ⟨rfl, m, h⟩
      have hadmitted : ∀ size ∈ batch.sizes, size ≤ c.chunkSize := fun size hsize =>
        Nat.not_lt.1 fun hlt => hlarge ⟨size, hsize, hlt⟩
      by_cases hnil : batch.sizes = []
      · rw [hnil, append_of_admitted h.chunked (fun size hsize => (by cases hsize))] at happend
        obtain rfl := Except.ok.inj happend
        exact ⟨rfl, m, h⟩
      obtain ⟨-, hchunkSize, hkept, -⟩ | ⟨-, n, ⟨hstands, hsane⟩, hsame⟩ :=
        (append_kept h hnil hadmitted batch.documents ids).of_eq_ok happend
      · exact ⟨hchunkSize, m, hkept⟩
      · obtain ⟨hsane', hchunkSize, -⟩ := (append_sane hsane hholds).of_eq_ok hsame
        obtain ⟨rfl, -⟩ | ⟨-, hstands', -⟩ := (append_stands hstands hholds).of_eq_ok hsame
        · exact ⟨rfl, m, .of_sane hstands hsane⟩
        · exact ⟨hchunkSize, _, .of_sane hstands' hsane'⟩
  | update ids batch =>
    -- refused, out of bounds, stopped by the mapping, or as if all entries were mapped
    by_cases hlarge : ∃ size ∈ batch.sizes, c.chunkSize < size
    · obtain rfl : c = c' := (Prod.mk.inj (Except.ok.inj
        ((update_refused hlarge ids batch.documents).symm.trans hr))).2
      exact ⟨rfl, m, h⟩
    have hadmitted : ∀ size ∈ batch.sizes, size ≤ c.chunkSize := fun size hsize =>
      Nat.not_lt.1 fun hlt => hlarge ⟨size, hsize, hlt⟩
    have hne : ids ≠ [] := by
      rintro rfl
      have hfails : c.update [] batch.documents batch.sizes = .error .outOfBounds :=
        update_nil hadmitted batch.documents
      rw [show c.update [] batch.documents batch.sizes = _ from hr] at hfails
      cases hfails
    obtain ⟨-, -, hchunkSize, -, hkept⟩ | ⟨-, c₁, -, hcreated, h₁, hmaps, hpasses⟩ :=
      (update_kept h hholds hne hadmitted).of_eq_ok hr
    · exact ⟨hchunkSize, hkept⟩
    · have hids : ∀ id ∈ ids, id.toNat < c₁.header.nextId := fun id hid =>
        hcreated.lt_next (UInt64.le_iff_toNat_le.1 (le_maxID hid))
      obtain ⟨-, hchunkSize, -, -, hkept, -⟩ := (passes_kept h₁ hholds hids hne
        (by rw [hcreated.chunkSize_eq]; exact hadmitted) hmaps).of_eq_ok hpasses
      exact ⟨hchunkSize.trans hcreated.chunkSize_eq, _, hkept⟩
  | erase id =>
    obtain ⟨hchunkSize, -, hkept⟩ := (erase_kept h id).of_eq_ok hr
    exact ⟨hchunkSize, hkept⟩

/-- After any run in which the collection may be opened again, with chunks that have room for their
first word. -/
theorem run_kept {chunkSize : ℕ} {cacheSize : UInt64} {events : List LogEvent} (hge : 8 ≤ chunkSize)
    (hlt : chunkSize < 2 ^ 63) (hrun : Run Happens (ofFiles chunkSize cacheSize {}) events c) :
    c.chunkSize = chunkSize ∧ ∃ m, Kept c m := by
  refine hrun.invariant (I := fun c => c.chunkSize = chunkSize ∧ ∃ m, Kept c m) ?_
    ⟨rfl, .empty, .of_sane (stands_ofFiles cacheSize hge hlt).1 (sane_ofFiles cacheSize hlt)⟩
  rintro c event c' ⟨hchunkSize, m, h⟩ hhappens
  cases event with
  | op op =>
    obtain ⟨hsame, hkept⟩ := returns_kept h hhappens
    exact ⟨hsame.trans hchunkSize, hkept⟩
  | reopen cacheSize =>
    obtain rfl : ofFiles c.chunkSize cacheSize c.toCollectionFiles = c' := hhappens
    have hkept := h.reopen cacheSize
    refine ⟨?_, m, hkept⟩
    rw [ofFiles_toCollectionFiles h.chunked.header_chunkSize (h.chunked.length_chunk _ le_rfl).ge]
    exact hchunkSize

/-! ### Small chunks -/

/-- The sizes of the chunks are as they were given. -/
def Sized (chunkSize : ℕ) (c : LogCollection) : Prop :=
  c.chunkSize = chunkSize ∧ c.header.chunkSize = chunkSize

section Sized

variable {chunkSize : ℕ}

theorem writeEntryMetadata_sized (h : Sized chunkSize c) (id : ℕ) (e : EntryMetadata) :
    Ensures (fun _ => True) (c.writeEntryMetadata id e) (fun r => Sized chunkSize r.2) := by
  refine ((writeEntryMetadata_cases c id e).allow fun _ _ => trivial).mono ?_
  rintro r ⟨-, rfl⟩
  split_ifs
  · exact h
  · exact h

theorem createEntries_sized (k : ℕ) (h : Sized chunkSize c) :
    Ensures (fun _ => True) (createEntries k c) (fun r => Sized chunkSize r.2) := by
  induction k generalizing c with
  | zero => exact h
  | succ k ih =>
    unfold createEntries
    refine Ensures.bind (writeEntryMetadata_sized h _ _) ?_
    rintro ⟨status, c₁⟩ h₁
    dsimp only
    split_ifs
    · exact h₁
    · exact ih h₁

theorem derefChunk_sized (h : Sized chunkSize c) (k : ℕ) :
    Ensures (fun _ => True) (c.derefChunk k) (Sized chunkSize) := by
  unfold derefChunk getChunkFromID
  split_ifs
  · exact h
  · exact h
  · exact h
  · trivial
  · exact True.intro

theorem overwrite_sized (h : Sized chunkSize c) (e : EntryMetadata) (doc : Bytes) :
    Ensures (fun _ => True) (c.overwrite e doc) (fun r => Sized chunkSize r.2) := by
  unfold overwrite
  split_ifs
  · refine Ensures.bind (derefChunk_sized h e.chunk) fun c₁ h₁ => ?_
    unfold writeChunk
    split_ifs
    · exact h₁
    · trivial
    · exact h₁
  · exact h

theorem inPlacePass_sized {data : Bytes} (docs : List (UInt64 × ℕ)) (docOffset : ℕ)
    (es : List EntryMetadata) (h : Sized chunkSize c) :
    Ensures (fun _ => True) (inPlacePass data docs docOffset c es)
      (fun r => Sized chunkSize r.2.2) := by
  induction docs generalizing c docOffset es with
  | nil => exact h
  | cons p docs ih =>
    obtain ⟨id, size⟩ := p
    unfold inPlacePass
    obtain ⟨status, e⟩ := c.readEntryMetadata id.toNat
    dsimp only
    split_ifs
    · exact h
    · exact ih _ _ h
    · refine Ensures.bind (overwrite_sized h _ _) ?_
      rintro ⟨status, c₁⟩ h₁
      dsimp only
      split_ifs
      · exact h₁
      · have hresize : Ensures (fun _ => True) (c₁.resizeEntry id.toNat e size)
            (fun r => Sized chunkSize r.2) := by
          unfold resizeEntry
          split_ifs
          · exact writeEntryMetadata_sized h₁ _ _
          · exact h₁
        refine Ensures.bind hresize ?_
        rintro ⟨status, c₂⟩ h₂
        dsimp only
        split_ifs
        · exact h₂
        · refine ih _ _ ?_
          unfold countDocument
          split_ifs
          · exact h₂
          · exact h₂

/-- In small chunks, an update that returns fails. -/
theorem update_sized (hsmall : chunkSize < 8) (h : Sized chunkSize c) (ids : List UInt64)
    (data : Bytes) (sizes : List ℕ) :
    Ensures (fun _ => True) (c.update ids data sizes) (fun r =>
      Sized chunkSize r.2 ∧ r.1 ≠ .OK) := by
  unfold update
  split_ifs
  · exact ⟨h, fun hok => (by cases hok)⟩
  · trivial
  · refine Ensures.bind (createEntries_sized _ h) ?_
    rintro ⟨status, c₁⟩ h₁
    dsimp only
    split_ifs with hok
    · exact ⟨h₁, hok⟩
    · refine Ensures.bind (inPlacePass_sized _ 0 [] h₁) ?_
      rintro ⟨status, es, c₂⟩ h₂
      have h₂ : Sized chunkSize c₂ := h₂
      dsimp only
      split_ifs with hok₂
      · exact ⟨h₂, hok₂⟩
      · obtain ⟨next, hnext⟩ := nextOffset_of_small (c := c₂) (by rw [h₂.2]; exact hsmall)
        rw [hnext]
        exact ⟨h₂, fun hok => (by cases hok)⟩

/-- After any run, with small chunks. -/
theorem run_sized {cacheSize : UInt64} {events : List LogEvent} (hsmall : chunkSize < 8)
    (hrun : Run Happens (ofFiles chunkSize cacheSize {}) events c) : Sized chunkSize c := by
  refine hrun.invariant (I := Sized chunkSize) ?_ ⟨rfl, rfl⟩
  rintro c event c' h hhappens
  cases event with
  | op op =>
    obtain ⟨-, status, hr⟩ := hhappens
    have hensures : Ensures (fun _ => True) (c.apply op) (fun r => Sized chunkSize r.2) := ?_
    · exact hensures.of_eq_ok hr
    cases op with
    | append ids batch =>
      obtain ⟨next, hnext⟩ := nextOffset_of_small (c := c) (by rw [h.2]; exact hsmall)
      have hsame : Ensures (fun _ => True) (c.append batch.documents batch.sizes ids)
          (fun r => r.2.2 = c) := by
        unfold append
        split_ifs
        · rfl
        · rw [hnext]
          exact Eq.refl c
      refine Ensures.bind hsame ?_
      rintro ⟨status, ids, c₁⟩ hsame
      obtain rfl : c₁ = c := hsame
      exact h
    | update ids batch =>
      exact (update_sized hsmall h ids batch.documents batch.sizes).mono fun _ hr => hr.1
    | erase id =>
      show Ensures _ (c.erase id) _
      unfold erase
      split_ifs
      · exact h
      · obtain ⟨status, e⟩ := c.readEntryMetadata id.toNat
        dsimp only
        split_ifs
        · exact h
        · exact h
        · refine Ensures.bind (writeEntryMetadata_sized h _ _) ?_
          rintro ⟨status, c₁⟩ h₁
          dsimp only
          split_ifs
          · exact h₁
          · exact h₁
  | reopen cacheSize =>
    obtain rfl : ofFiles c.chunkSize cacheSize c.toCollectionFiles = c' := hhappens
    unfold ofFiles getChunkFromID
    dsimp only
    rw [if_pos rfl]
    exact ⟨h.1, h.1⟩

end Sized

end LogCollection

end Yokan
