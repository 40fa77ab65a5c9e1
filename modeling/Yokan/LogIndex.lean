import Yokan.LogDocuments
import Mathlib.Order.Interval.Finset.Nat
import Mathlib.Data.Nat.Count

/-!
# Yokan: the index of a `log` collection

What every run of `append`, `update` and `erase` keeps, whatever the batches: `Sane` speaks of the
files and their mappings, `Counted` of `coll_size` and the entries.

* `append_sane`, `update_sane`, `erase_sane`: each operation keeps `Sane`;
* `recounts`, `countsOnce_iff`: what the second pass of an update counts again;
* `size_counts_documents`: `coll_size` counts the entries with a document, as long as no update
  counts an id twice (`CountsOnce`);
* `size_after_repeated_id`: otherwise it does not.
-/

namespace Yokan

open Buffer Transition LittleEndian

namespace LogCollection

/-! ### The files -/

/-- The files and mappings of a collection, after any run. -/
structure Sane (c : LogCollection) : Prop where
  header_chunkSize : c.header.chunkSize = c.chunkSize
  chunkSize_lt : c.chunkSize < 2 ^ 63
  covers : sizeofEntry + c.header.nextId * sizeofEntry ≤ c.metaSize
  metaSize_lt : c.metaSize < 2 ^ 63
  metaSize_small : c.header.nextId ≤ 8191 → c.metaSize = 8 * 8 * 4096
  length_last : c.chunkSize ≤ (c.chunks c.header.lastChunkId).length
  chunk_nil : ∀ k, c.header.lastChunkId < k → c.chunks k = []
  used_ge : 8 ≤ c.chunkSize → 8 ≤ c.used
  used_le : 8 ≤ c.chunkSize → c.used ≤ c.chunkSize
  offset_ge : ∀ id < c.header.nextId, (c.entries id).allocated ≠ 0 → 8 ≤ (c.entries id).offset

/-- The operation has only touched chunks. -/
structure SameIndex (c c' : LogCollection) : Prop where
  entries_eq : c'.entries = c.entries
  metaSize_eq : c'.metaSize = c.metaSize
  chunkSize_eq : c'.chunkSize = c.chunkSize
  nextId_eq : c'.header.nextId = c.header.nextId
  collSize_eq : c'.header.collSize = c.header.collSize

variable {c c' c'' : LogCollection}

theorem SameIndex.rfl : SameIndex c c := ⟨Eq.refl _, Eq.refl _, Eq.refl _, Eq.refl _, Eq.refl _⟩

theorem SameIndex.trans (h : SameIndex c c') (h' : SameIndex c' c'') : SameIndex c c'' where
  entries_eq := h'.entries_eq.trans h.entries_eq
  metaSize_eq := h'.metaSize_eq.trans h.metaSize_eq
  chunkSize_eq := h'.chunkSize_eq.trans h.chunkSize_eq
  nextId_eq := h'.nextId_eq.trans h.nextId_eq
  collSize_eq := h'.collSize_eq.trans h.collSize_eq

theorem mapFile_of_le {file : Bytes} {size : ℕ} (h : size ≤ file.length) :
    mapFile file size = file := by
  simp [mapFile, Nat.sub_eq_zero_of_le h]

/-- An empty chunk has all its space free. -/
theorem used_of_replicate {n : ℕ} (h : c.chunks c.header.lastChunkId = List.replicate n 0) :
    c.used = 8 := by
  have hslice : slice (c.chunks c.header.lastChunkId) 0 8 = List.replicate (min 8 n) 0 := by
    rw [h]
    simp [slice, List.take_replicate]
  exact used_of_zero hslice

theorem getChunkFromID_sane (h : Sane c) {k : ℕ} (hk : c.getChunkFromID k = .ok (some c')) :
    Sane c' ∧ SameIndex c c' ∧ k ≤ c'.header.lastChunkId := by
  have hmap : ∀ k, (mapChunk c k).chunks = Function.update c.chunks k
      (mapFile (c.chunks k) c.chunkSize) := by
    intro k
    rw [← h.header_chunkSize]
    rfl
  unfold getChunkFromID at hk
  split_ifs at hk with hlast hnext hlt <;> cases hk
  · -- the last chunk is mapped already
    have hsame : c.mapChunk k = c := by
      unfold mapChunk
      rw [mapFile_of_le (by rw [h.header_chunkSize, hlast]; exact h.length_last),
        Function.update_eq_self]
    rw [hsame]
    exact ⟨h, SameIndex.rfl, hlast.le⟩
  · have hnew : (mapChunk { c with header := { c.header with lastChunkId := k } } k).chunks k =
        List.replicate c.chunkSize 0 := by
      simp [mapChunk, h.chunk_nil k (by omega), mapFile, h.header_chunkSize]
    refine ⟨⟨h.header_chunkSize, h.chunkSize_lt, h.covers, h.metaSize_lt, h.metaSize_small, ?_, ?_,
      ?_, ?_, h.offset_ge⟩, ⟨rfl, rfl, rfl, rfl, rfl⟩, le_refl k⟩
    · show c.chunkSize ≤ ((mapChunk _ k).chunks k).length
      rw [hnew, List.length_replicate]
    · intro j hj
      have hj : k < j := hj
      simp only [mapChunk, Function.update_of_ne (Nat.ne_of_gt hj)]
      exact h.chunk_nil j (by omega)
    · intro _
      rw [used_of_replicate hnew]
    · intro hge
      rw [used_of_replicate hnew]
      exact hge
  · have hother : ∀ j, k ≠ j → (c.mapChunk k).chunks j = c.chunks j := by
      intro j hj
      rw [hmap, Function.update_of_ne hj.symm]
    have hused : (c.mapChunk k).used = c.used := by
      unfold used
      rw [show (c.mapChunk k).header = c.header from rfl, hother _ hlast]
    refine ⟨⟨h.header_chunkSize, h.chunkSize_lt, h.covers, h.metaSize_lt, h.metaSize_small, ?_, ?_,
      fun hge => hused ▸ h.used_ge hge, fun hge => hused ▸ h.used_le hge, h.offset_ge⟩,
      ⟨rfl, rfl, rfl, rfl, rfl⟩, hlt.le⟩
    · show c.chunkSize ≤ ((c.mapChunk k).chunks c.header.lastChunkId).length
      rw [hother _ hlast]
      exact h.length_last
    · intro j hj
      have hj : c.header.lastChunkId < j := hj
      rw [hother j (by omega)]
      exact h.chunk_nil j hj

theorem derefChunk_sane (h : Sane c) {k : ℕ} (hk : c.derefChunk k = .ok c') :
    Sane c' ∧ SameIndex c c' ∧ k ≤ c'.header.lastChunkId := by
  unfold derefChunk at hk
  cases hget : c.getChunkFromID k with
  | error e =>
    rw [hget] at hk
    cases hk
  | ok r =>
    rw [hget] at hk
    cases r with
    | none => cases hk
    | some c₁ =>
      cases hk
      exact getChunkFromID_sane h hget

theorem makeSpace_sane (h : Sane c) {nextOffset : ℕ} (hn : 8 ≤ nextOffset)
    (hle : nextOffset ≤ c.chunkSize) (size : ℕ) :
    Ensures (fun _ => True) (c.makeSpace nextOffset size) (fun r =>
      Sane r.2 ∧ SameIndex c r.2 ∧ 8 ≤ r.1 ∧
        (size + 8 ≤ c.chunkSize → r.1 + size ≤ c.chunkSize)) := by
  have hlt := h.chunkSize_lt
  unfold makeSpace
  split_ifs with hfull
  · have hnew : size + 8 ≤ c.chunkSize → 8 + size ≤ c.chunkSize := fun hroom => by omega
    cases hget : c.getChunkFromID (c.header.lastChunkId + 1) with
    | error e => exact trivial
    | ok r =>
      cases r with
      | none => exact ⟨h, SameIndex.rfl, le_refl 8, hnew⟩
      | some c₁ =>
        obtain ⟨h₁, hsame, -⟩ := getChunkFromID_sane h hget
        exact ⟨h₁, hsame, le_refl 8, hnew⟩
  · refine ⟨h, SameIndex.rfl, hn, fun _ => ?_⟩
    unfold subSize at hfull
    show nextOffset + size ≤ c.chunkSize
    omega

/-- Bytes written inside of a chunk, behind its first eight bytes or over them. -/
theorem blitChunk_sane (h : Sane c) {k offset : ℕ} {bytes : Bytes}
    (hle : k ≤ c.header.lastChunkId) (hfit : offset + bytes.length ≤ c.chunkSize)
    (hhead : 8 ≤ offset ∨ bytes = [] ∨
      ∃ n, 8 ≤ n ∧ n ≤ c.chunkSize ∧ offset = 0 ∧ bytes = encode 8 n) :
    Sane (c.blitChunk k offset bytes) ∧ SameIndex c (c.blitChunk k offset bytes) := by
  have hlt := h.chunkSize_lt
  have hother : ∀ j, j ≠ k → (c.blitChunk k offset bytes).chunks j = c.chunks j :=
    fun j hj => Function.update_of_ne hj _ _
  have hsame : (c.blitChunk k offset bytes).chunks k = blit (c.chunks k) offset bytes :=
    Function.update_self _ _ _
  -- the next offset of the last chunk is the old one, or `n`
  have hused : 8 ≤ c.chunkSize → (c.blitChunk k offset bytes).used = c.used ∨
      8 ≤ (c.blitChunk k offset bytes).used ∧ (c.blitChunk k offset bytes).used ≤ c.chunkSize := by
    intro hge
    by_cases hk : c.header.lastChunkId = k
    · subst hk
      have hlen := h.length_last
      rcases hhead with hoff | rfl | ⟨n, hn, hle, rfl, rfl⟩
      · left
        unfold used
        rw [show (c.blitChunk c.header.lastChunkId offset bytes).header = c.header from rfl, hsame,
          slice_blit_before (by omega) (by omega)]
      · left
        unfold used
        rw [show (c.blitChunk c.header.lastChunkId offset []).header = c.header from rfl, hsame,
          blit_nil]
      · have hslice : slice (blit (c.chunks c.header.lastChunkId) 0 (encode 8 n)) 0
            (encode 8 n).length = encode 8 n := slice_blit_same (Nat.zero_le _)
        rw [length_encode] at hslice
        have hn' : (c.blitChunk c.header.lastChunkId 0 (encode 8 n)).used = n :=
          used_of_slice (by rw [show (c.blitChunk c.header.lastChunkId 0 (encode 8 n)).header =
            c.header from rfl, hsame]; exact hslice) (by omega) (by omega)
        rw [hn']
        exact Or.inr ⟨hn, hle⟩
    · left
      unfold used
      rw [show (c.blitChunk k offset bytes).header = c.header from rfl, hother _ hk]
  refine ⟨⟨h.header_chunkSize, h.chunkSize_lt, h.covers, h.metaSize_lt, h.metaSize_small, ?_, ?_,
    ?_, ?_, h.offset_ge⟩, ⟨rfl, rfl, rfl, rfl, rfl⟩⟩
  · show c.chunkSize ≤ ((c.blitChunk k offset bytes).chunks c.header.lastChunkId).length
    by_cases hk : c.header.lastChunkId = k
    · subst hk
      rw [hsame, length_blit (hfit.trans h.length_last)]
      exact h.length_last
    · rw [hother _ hk]
      exact h.length_last
  · intro j hj
    have hj : c.header.lastChunkId < j := hj
    rw [hother j (by omega)]
    exact h.chunk_nil j hj
  · intro hge
    exact (hused hge).elim (fun heq => heq ▸ h.used_ge hge) fun hnew => hnew.1
  · intro hge
    exact (hused hge).elim (fun heq => heq ▸ h.used_le hge) fun hnew => hnew.2

/-- A write to a chunk stays inside of it. -/
theorem writeChunk_cases (h : Sane c) {k offset : ℕ} {bytes : Bytes} :
    Ensures (fun _ => True) (c.writeChunk k offset bytes) (fun r =>
      c.chunkSize < offset + bytes.length ∧ r = (.SizeError, c) ∨
        offset + bytes.length ≤ c.chunkSize ∧ r = (.OK, c.blitChunk k offset bytes)) := by
  unfold writeChunk
  rw [h.header_chunkSize]
  split_ifs with hsize hbound
  · exact Or.inl ⟨hsize.trans_le (Nat.mod_le _ _), rfl⟩
  · trivial
  · have hadd : addSize offset bytes.length = offset + bytes.length :=
      Nat.mod_eq_of_lt (Nat.not_le.1 hbound)
    rw [hadd] at hsize
    exact Or.inr ⟨Nat.not_lt.1 hsize, rfl⟩

theorem nextOffset_bounds (h : Sane c) :
    Ensures (fun _ => True) c.nextOffset (fun r => r.1 = .OK → 8 ≤ r.2 ∧ r.2 ≤ c.chunkSize) := by
  unfold nextOffset readChunk
  rw [h.header_chunkSize]
  split_ifs with hsize
  · rintro ⟨⟩
  · trivial
  · intro _
    have hge : 8 ≤ c.chunkSize := Nat.not_lt.1 hsize
    exact ⟨h.used_ge hge, h.used_le hge⟩

/-- A document is written behind the first eight bytes of a chunk, if it leaves them room. -/
theorem writeDocument_sane (h : Sane c) {nextOffset : ℕ} (hn : 8 ≤ nextOffset)
    (hle : nextOffset ≤ c.chunkSize) (doc : Bytes) :
    Ensures (fun _ => True) (c.writeDocument nextOffset doc) (fun r =>
      Sane r.2.2 ∧ SameIndex c r.2.2 ∧ 8 ≤ r.2.1 ∧
        (r.1 = .OK → r.2.1 + doc.length ≤ c.chunkSize) ∧
        (r.1 = .OK ↔ doc.length + 8 ≤ c.chunkSize)) := by
  have hlt := h.chunkSize_lt
  -- the two writes, in the last chunk of `b`
  have hwrites : ∀ (b : LogCollection) (offset : ℕ), Sane b → SameIndex c b → 8 ≤ offset →
      (doc.length + 8 ≤ c.chunkSize → offset + doc.length ≤ c.chunkSize) →
      Ensures (fun _ => True)
        (b.writeChunk b.header.lastChunkId offset doc >>= fun r =>
          if r.1 ≠ .OK then .ok (r.1, offset, r.2)
          else r.2.writeChunk r.2.header.lastChunkId 0 (encode 8 (offset + doc.length)) >>= fun r =>
            (.ok (r.1, offset, r.2) : Outcome (Status × ℕ × LogCollection))) (fun r =>
        Sane r.2.2 ∧ SameIndex c r.2.2 ∧ 8 ≤ r.2.1 ∧
          (r.1 = .OK → r.2.1 + doc.length ≤ c.chunkSize) ∧
          (r.1 = .OK ↔ doc.length + 8 ≤ c.chunkSize)) := by
    intro b offset hb hsame hoff hfits
    have hsize := hsame.chunkSize_eq
    refine Ensures.bind (writeChunk_cases hb) ?_
    rintro ⟨status, b₁⟩ (⟨hlarge, hr⟩ | ⟨hfit, hr⟩)
    · obtain ⟨rfl, rfl⟩ := Prod.mk.inj hr
      refine ⟨hb, hsame, hoff, (fun hok => by cases hok), (fun hok => by cases hok),
        fun hroom => ?_⟩
      have hend := hfits hroom
      omega
    · obtain ⟨rfl, rfl⟩ := Prod.mk.inj hr
      rw [hsize] at hfit
      obtain ⟨hb₁, hsame₁⟩ := blitChunk_sane hb (le_refl b.header.lastChunkId)
        (by rw [hsize]; exact hfit) (Or.inl hoff)
      have hsize₁ := hsame₁.chunkSize_eq.trans hsize
      refine Ensures.bind (writeChunk_cases hb₁) ?_
      rintro ⟨status, b₂⟩ (⟨hlarge, hr⟩ | ⟨hfit₂, hr⟩)
      · rw [length_encode, hsize₁] at hlarge
        omega
      · obtain ⟨rfl, rfl⟩ := Prod.mk.inj hr
        obtain ⟨hb₂, hsame₂⟩ := blitChunk_sane hb₁ (le_refl _) hfit₂
          (Or.inr (Or.inr ⟨offset + doc.length, by omega, by rw [hsize₁]; exact hfit, rfl, rfl⟩))
        exact ⟨hb₂, (hsame.trans hsame₁).trans hsame₂, hoff, fun _ => hfit,
          iff_of_true rfl (by omega)⟩
  unfold writeDocument
  refine Ensures.bind (makeSpace_sane h hn hle _) ?_
  rintro ⟨offset, b⟩ ⟨hb, hsame, hoff, hfits⟩
  exact hwrites b offset hb hsame hoff hfits

/-- A document is written in the space of its entry, or not at all. -/
theorem overwrite_sane (h : Sane c) {id : ℕ} (hid : id < c.header.nextId) {doc : Bytes}
    (hfit : doc.length ≤ (c.entries id).allocated) :
    Ensures (fun _ => True) (c.overwrite (c.entries id) doc) (fun r =>
      Sane r.2 ∧ SameIndex c r.2) := by
  unfold overwrite
  split_ifs with hlen
  · have hoff : 8 ≤ (c.entries id).offset := h.offset_ge id hid (by omega)
    cases hk : c.derefChunk (c.entries id).chunk with
    | error e => trivial
    | ok c₁ =>
      obtain ⟨hc₁, hsame, hle⟩ := derefChunk_sane h hk
      refine Ensures.mono (writeChunk_cases hc₁) ?_
      rintro r (⟨-, rfl⟩ | ⟨hfit, rfl⟩)
      · exact ⟨hc₁, hsame⟩
      · obtain ⟨hc₂, hsame₂⟩ := blitChunk_sane hc₁ hle hfit (Or.inl hoff)
        exact ⟨hc₂, hsame.trans hsame₂⟩
  · exact ⟨h, SameIndex.rfl⟩

/-! ### The entries -/

/-- Writing an entry, at most one past the end. -/
theorem writeEntryMetadata_sane (h : Sane c) {id : ℕ} (hid : id ≤ c.header.nextId)
    (e : EntryMetadata) :
    Ensures (fun _ => True) (c.writeEntryMetadata id e) (fun r => c.metaSizeFor id < 2 ^ 63 ∧
      r = (.OK, c.withEntry id e (c.metaSizeFor id) c.header.nextId c.header.collSize)) :=
  ((writeEntryMetadata_limit h.covers hid e).allow fun _ _ => trivial).mono fun _ hr =>
    ⟨hr.1.elim (fun hsame => hsame ▸ h.metaSize_lt) fun hlt => hlt, hr.2⟩

/-- A collection with another entry. -/
theorem withEntry_sane (h : Sane c) {id : ℕ} (hid : id ≤ c.header.nextId) {e : EntryMetadata}
    (hms : c.metaSizeFor id < 2 ^ 63) (he : e.allocated ≠ 0 → 8 ≤ e.offset) (collSize : UInt64) :
    Sane (c.withEntry id e (c.metaSizeFor id) (max c.header.nextId (id + 1)) collSize) := by
  have hroom := room_metaSizeFor h.covers hid
  have hge := metaSize_le_metaSizeFor (c := c) id
  refine ⟨h.header_chunkSize, h.chunkSize_lt, ?_, hms, ?_, h.length_last, h.chunk_nil, h.used_ge,
    h.used_le, ?_⟩
  · show sizeofEntry + max c.header.nextId (id + 1) * sizeofEntry ≤ c.metaSizeFor id
    rcases le_total c.header.nextId (id + 1) with hle | hle
    · rw [max_eq_right hle]
      exact hroom
    · rw [max_eq_left hle]
      exact h.covers.trans hge
  · intro hsmall
    have hsmall : max c.header.nextId (id + 1) ≤ 8191 := hsmall
    have hsame : c.metaSizeFor id = c.metaSize := by
      have hmeta := h.metaSize_small (by omega)
      unfold metaSizeFor
      rw [if_neg]
      rw [hmeta]
      show ¬ 8 * 8 * 4096 < 32 + id * 32 + 32
      omega
    exact hsame.trans (h.metaSize_small (by omega))
  · intro id' hid' hne
    have hid' : id' < max c.header.nextId (id + 1) := hid'
    have hne : (Function.update c.entries id e id').allocated ≠ 0 := hne
    show 8 ≤ (Function.update c.entries id e id').offset
    by_cases heq : id' = id
    · subst heq
      rw [Function.update_self] at hne ⊢
      exact he hne
    · rw [Function.update_of_ne heq] at hne ⊢
      exact h.offset_ge id' (by omega) hne

/-! ### The documents counted -/

/-- The number of ids whose entry has a document. -/
def liveCount (c : LogCollection) : ℕ :=
  Nat.count (fun id => (c.entries id).size ≠ keyNotFound) c.header.nextId

/-- `coll_size` is the number of documents, modulo `2 ^ 64`. -/
def Counted (c : LogCollection) : Prop := c.header.collSize = UInt64.ofNat c.liveCount

/-- `coll_size` is larger than the number of documents by `k`, modulo `2 ^ 64`. -/
def CountedBeyond (c : LogCollection) (k : ℕ) : Prop :=
  c.header.collSize = UInt64.ofNat (c.liveCount + k)

theorem CountedBeyond.counted_iff {k : ℕ} (h : CountedBeyond c k) (hk : k < 2 ^ 64) :
    Counted c ↔ k = 0 := by
  unfold Counted
  rw [h, ← UInt64.toNat_inj, UInt64.toNat_ofNat', UInt64.toNat_ofNat']
  omega

theorem SameIndex.countedBeyond (h : SameIndex c c') {k : ℕ} (hc : CountedBeyond c k) :
    CountedBeyond c' k := by
  unfold CountedBeyond liveCount at *
  rw [h.entries_eq, h.nextId_eq, h.collSize_eq]
  exact hc

theorem SameIndex.counted (h : SameIndex c c') (hc : Counted c) : Counted c' :=
  h.countedBeyond (k := 0) hc

/-- A counter after one entry is written. -/
theorem count_update (entries : ℕ → EntryMetadata) {n id : ℕ} (hid : id < n) (e : EntryMetadata) :
    Nat.count (fun i => (Function.update entries id e i).size ≠ keyNotFound) n +
        (if (entries id).size ≠ keyNotFound then 1 else 0) =
      Nat.count (fun i => (entries i).size ≠ keyNotFound) n +
        (if e.size ≠ keyNotFound then 1 else 0) := by
  have hbelow : ∀ n ≤ id, Nat.count (fun i => (Function.update entries id e i).size ≠ keyNotFound) n =
      Nat.count (fun i => (entries i).size ≠ keyNotFound) n := by
    intro n hn
    induction n with
    | zero => rfl
    | succ n ih =>
      rw [Nat.count_succ, Nat.count_succ, ih (by omega), Function.update_of_ne (by omega)]
  induction n, hid using Nat.le_induction with
  | base =>
    rw [Nat.count_succ, Nat.count_succ, hbelow id le_rfl, Function.update_self]
    omega
  | succ n hn ih =>
    rw [Nat.count_succ, Nat.count_succ, Function.update_of_ne (by omega)]
    omega

/-- A new entry at the end. -/
theorem counted_new (hc : Counted c) (e : EntryMetadata) (metaSize : ℕ) :
    Counted (c.withEntry c.header.nextId e metaSize (c.header.nextId + 1)
      (if e.size = keyNotFound then c.header.collSize else c.header.collSize + 1)) := by
  have hcount : liveCount (c.withEntry c.header.nextId e metaSize (c.header.nextId + 1)
      (if e.size = keyNotFound then c.header.collSize else c.header.collSize + 1)) =
      c.liveCount + if e.size = keyNotFound then 0 else 1 := by
    unfold liveCount
    show Nat.count (fun i => (Function.update c.entries c.header.nextId e i).size ≠ keyNotFound)
      (c.header.nextId + 1) = _
    have hsame : ∀ n ≤ c.header.nextId,
        Nat.count (fun i => (Function.update c.entries c.header.nextId e i).size ≠ keyNotFound) n =
          Nat.count (fun i => (c.entries i).size ≠ keyNotFound) n := by
      intro n hn
      induction n with
      | zero => rfl
      | succ n ih =>
        rw [Nat.count_succ, Nat.count_succ, ih (by omega), Function.update_of_ne (by omega)]
    rw [Nat.count_succ, hsame _ le_rfl, Function.update_self]
    simp only [ne_eq, ite_not]
  unfold Counted at hc ⊢
  rw [hcount]
  show (if e.size = keyNotFound then c.header.collSize else c.header.collSize + 1) = _
  split_ifs
  · exact hc
  · rw [hc, UInt64.ofNat_add]
    rfl

/-- A document in an entry that exists, counted or not. It is counted once too often if the entry
has a document already. -/
theorem countedBeyond_live {k : ℕ} (hc : CountedBeyond c k) {id : ℕ} (hid : id < c.header.nextId)
    {e : EntryMetadata} (he : e.size ≠ keyNotFound) (metaSize : ℕ) {counts : Prop}
    [Decidable counts] (hlive : ¬ counts → (c.entries id).size ≠ keyNotFound) :
    CountedBeyond (c.withEntry id e metaSize c.header.nextId
      (if counts then c.header.collSize + 1 else c.header.collSize))
        (k + if counts ∧ (c.entries id).size ≠ keyNotFound then 1 else 0) := by
  have hcount := count_update c.entries hid e
  rw [if_pos he] at hcount
  unfold CountedBeyond liveCount at hc ⊢
  show (if counts then c.header.collSize + 1 else c.header.collSize) =
    UInt64.ofNat (Nat.count (fun i => (Function.update c.entries id e i).size ≠ keyNotFound)
      c.header.nextId + _)
  have hone : ∀ n : ℕ, UInt64.ofNat n + 1 = UInt64.ofNat (n + 1) := fun n =>
    (UInt64.ofNat_add n 1).symm
  by_cases hcounts : counts
  · rw [if_pos hcounts, hc, hone]
    congr 1
    by_cases hdead : (c.entries id).size ≠ keyNotFound
    · rw [if_pos hdead] at hcount
      rw [if_pos ⟨hcounts, hdead⟩]
      omega
    · rw [if_neg hdead] at hcount
      rw [if_neg fun h => hdead h.2]
      omega
  · rw [if_pos (hlive hcounts)] at hcount
    rw [if_neg hcounts, if_neg fun h => hcounts h.1, hc]
    congr 1
    omega

/-- A document in an entry that exists, counted if the entry has none. -/
theorem counted_live (hc : Counted c) {id : ℕ} (hid : id < c.header.nextId) {e : EntryMetadata}
    (he : e.size ≠ keyNotFound) (metaSize : ℕ) :
    Counted (c.withEntry id e metaSize c.header.nextId
      (if (c.entries id).size = keyNotFound then c.header.collSize + 1 else c.header.collSize)) := by
  have h := countedBeyond_live (k := 0) hc hid he metaSize
    (show ¬ (c.entries id).size = keyNotFound → _ from fun hsome => hsome)
  rwa [show (if (c.entries id).size = keyNotFound ∧ (c.entries id).size ≠ keyNotFound then 1
    else 0) = 0 from if_neg fun hboth => hboth.2 hboth.1] at h

/-- An entry that loses its document. -/
theorem counted_dead (hc : Counted c) {id : ℕ} (hid : id < c.header.nextId) {e : EntryMetadata}
    (hlive : (c.entries id).size ≠ keyNotFound) (he : e.size = keyNotFound) (metaSize : ℕ) :
    Counted (c.withEntry id e metaSize c.header.nextId (c.header.collSize - 1)) := by
  have hcount := count_update c.entries hid e
  rw [if_pos hlive, if_neg (not_not.2 he)] at hcount
  have hone : Nat.count (fun i => (c.entries i).size ≠ keyNotFound) c.header.nextId = _ + 1 :=
    hcount.symm
  unfold Counted liveCount at hc ⊢
  show c.header.collSize - 1 = UInt64.ofNat (Nat.count (fun i =>
    (Function.update c.entries id e i).size ≠ keyNotFound) c.header.nextId)
  rw [hc, hone, UInt64.ofNat_add]
  exact UInt64.add_sub_cancel _ _

/-! ### The operations -/

/-- The loop of `append`. -/
theorem appendLoop_sane {data : Bytes} {sizes : List ℕ} (docOffset : ℕ) (ids : List UInt64)
    (h : Sane c) {nextOffset : ℕ} (hn : 8 ≤ nextOffset) (hle : nextOffset ≤ c.chunkSize)
    (hdata : docOffset + sizes.sum ≤ data.length) (hsizes : ∀ size ∈ sizes, size < keyNotFound) :
    Ensures (fun _ => True) (appendLoop data sizes docOffset nextOffset c ids) (fun r =>
      Sane r.2.2 ∧ r.2.2.chunkSize = c.chunkSize ∧ (Counted c → Counted r.2.2)) := by
  induction sizes generalizing c docOffset nextOffset ids with
  | nil => exact ⟨h, rfl, fun hc => hc⟩
  | cons size sizes ih =>
    have hsize : size < keyNotFound := hsizes size List.mem_cons_self
    rw [List.sum_cons] at hdata
    have hlen : (slice data docOffset size).length = size := length_slice_of_le (by omega)
    refine Ensures.bind (writeDocument_sane h hn hle (slice data docOffset size)) ?_
    rintro ⟨status, offset, c₁⟩ ⟨hc₁, hsame, hoff, hend, -⟩
    have hoff : 8 ≤ offset := hoff
    rw [hlen] at hend
    by_cases hstatus : status = .OK
    · have hid : c.header.nextId ≤ c₁.header.nextId := hsame.nextId_eq.ge
      dsimp only
      rw [if_neg (not_not.2 hstatus)]
      refine Ensures.bind (writeEntryMetadata_sane hc₁ hid _) ?_
      rintro ⟨status', c₂⟩ ⟨hms, hr⟩
      obtain ⟨rfl, rfl⟩ := Prod.mk.inj hr
      have hsane := withEntry_sane hc₁ hid hms
        (e := ⟨c₁.header.lastChunkId, offset, size, size⟩) (fun _ => hoff) (c₁.header.collSize + 1)
      have hmax : max c₁.header.nextId (c.header.nextId + 1) = c.header.nextId + 1 := by
        rw [hsame.nextId_eq]
        exact max_eq_right (Nat.le_succ _)
      rw [hmax] at hsane
      have hend : offset + size ≤ c₁.chunkSize := (hend hstatus).trans_eq hsame.chunkSize_eq.symm
      refine Ensures.mono (ih (docOffset + size) (ids ++ [UInt64.ofNat c.header.nextId]) hsane
        (by omega) hend (by omega)
        fun size' hsize' => hsizes size' (List.mem_cons_of_mem _ hsize')) ?_
      rintro r ⟨hr, hchunkSize, hcounted⟩
      refine ⟨hr, hchunkSize.trans hsame.chunkSize_eq, fun hc => hcounted ?_⟩
      have hnew := counted_new (hsame.counted hc) ⟨c₁.header.lastChunkId, offset, size, size⟩
        (c₁.metaSizeFor c.header.nextId)
      rw [if_neg (Nat.ne_of_lt hsize), hsame.nextId_eq] at hnew
      exact hnew
    · dsimp only
      rw [if_pos hstatus]
      exact ⟨hc₁, hsame.chunkSize_eq, hsame.counted⟩

theorem size_lt_keyNotFound {batch : DocBatch} {size : ℕ} (h : size ∈ batch.sizes) :
    size < keyNotFound := by
  have hle := List.single_le_sum (fun _ _ => Nat.zero_le _) size h
  have hsum := batch.sum_le
  have hlt : lastValidSize < keyNotFound := by decide
  omega

/-- `append` keeps the files, and counts what it adds. -/
theorem append_sane (h : Sane c) {batch : DocBatch} {ids : List UInt64}
    (hholds : batch.Holds ids.length) :
    Ensures (fun _ => True) (c.append batch.documents batch.sizes ids) (fun r =>
      Sane r.2.2 ∧ r.2.2.chunkSize = c.chunkSize ∧ (Counted c → Counted r.2.2)) := by
  unfold append
  split_ifs
  · exact ⟨h, rfl, fun hc => hc⟩
  · refine Ensures.bind (nextOffset_bounds h) ?_
    rintro ⟨status, next⟩ hn
    dsimp only
    split_ifs with hstatus
    · exact ⟨h, rfl, fun hc => hc⟩
    · obtain ⟨hge, hle⟩ := hn (not_not.1 hstatus)
      refine Ensures.bind (appendLoop_sane 0 [] h hge hle (by rw [Nat.zero_add]; exact hholds.2)
        fun size hsize => size_lt_keyNotFound hsize) ?_
      rintro ⟨status, assigned, c'⟩ hr
      exact hr

/-- `erase` keeps the files, and counts what it removes. -/
theorem erase_sane (h : Sane c) (id : UInt64) :
    Ensures (fun _ => True) (c.erase id) (fun r =>
      Sane r.2 ∧ r.2.chunkSize = c.chunkSize ∧ (Counted c → Counted r.2)) := by
  unfold erase
  split_ifs with hid
  · exact ⟨h, rfl, fun hc => hc⟩
  · have hlt : id.toNat < c.header.nextId := Nat.not_le.1 hid
    rw [readEntryMetadata_of_lt h.covers hlt]
    dsimp only
    rw [if_neg (not_not.2 rfl)]
    split_ifs with hdead
    · exact ⟨h, rfl, fun hc => hc⟩
    · refine Ensures.bind (writeEntryMetadata_sane h hlt.le _) ?_
      rintro ⟨status, c'⟩ ⟨hms, hr⟩
      obtain ⟨rfl, rfl⟩ := Prod.mk.inj hr
      have hsane := withEntry_sane h hlt.le hms (e := { c.entries id.toNat with
        chunk := keyNotFound
        size := keyNotFound
        offset := keyNotFound }) (fun _ => show 8 ≤ keyNotFound by decide)
        (c.header.collSize - 1)
      rw [max_eq_left hlt] at hsane
      exact ⟨hsane, rfl, fun hc => counted_dead hc hlt hdead rfl _⟩

/-! ### `update` -/

/-- The documents of an update that one of the passes writes: those that fit in the space of their
entry, and the others up to the first that leaves no room for the header of a chunk. -/
def handled (alloc : ℕ → ℕ) (chunkSize : ℕ) : List (UInt64 × ℕ) → List (UInt64 × ℕ)
  | [] => []
  | p :: docs =>
    if p.2 ≤ alloc p.1.toNat ∨ p.2 + 8 ≤ chunkSize then p :: handled alloc chunkSize docs
    else docs.filter fun p => p.2 ≤ alloc p.1.toNat

/-- The documents of an update for one id, as far as a pass writes them. -/
def handledFor (c : LogCollection) (docs : List (UInt64 × ℕ)) (id : UInt64) : List (UInt64 × ℕ) :=
  (handled c.allocatedFor c.chunkSize docs).filter fun p => p.1 = id

/-- An update that counts no id twice: it is refused, or an id without document is listed once, or the
first document for it fits in the space of its entry. -/
def CountsOnce (c : LogCollection) (docs : List (UInt64 × ℕ)) : Prop :=
  (∃ p ∈ docs, c.chunkSize < p.2) ∨
    ∀ id, ¬ c.Present id.toNat → (c.handledFor docs id).length ≤ 1 ∨
      ∃ p, (c.handledFor docs id).head? = some p ∧ p.2 ≤ c.allocatedFor id.toNat

/-- The ids that the second pass counts, when the first pass sees the entries of `dead` without
document. -/
def countedIds (alloc : ℕ → ℕ) (chunkSize : ℕ) : (ℕ → Bool) → List (UInt64 × ℕ) → List ℕ
  | _, [] => []
  | dead, p :: docs =>
    if p.2 ≤ alloc p.1.toNat then
      countedIds alloc chunkSize (Function.update dead p.1.toNat false) docs
    else if p.2 + 8 ≤ chunkSize then
      (if dead p.1.toNat then [p.1.toNat] else []) ++ countedIds alloc chunkSize dead docs
    else []

variable {alloc : ℕ → ℕ} {chunkSize : ℕ} {dead : ℕ → Bool}

theorem dead_of_mem_counted {docs : List (UInt64 × ℕ)} {id : ℕ}
    (h : id ∈ countedIds alloc chunkSize dead docs) : dead id = true := by
  induction docs generalizing dead with
  | nil => cases h
  | cons p docs ih =>
    unfold countedIds at h
    split_ifs at h with hfit hroom hdead
    · have hrest := ih h
      by_cases hid : id = p.1.toNat
      · rw [hid, Function.update_self] at hrest
        cases hrest
      · rwa [Function.update_of_ne hid] at hrest
    · rcases List.mem_cons.1 h with rfl | h
      · exact hdead
      · exact ih h
    · exact ih h
    · cases h

theorem exists_of_mem_countedIds {docs : List (UInt64 × ℕ)} {id : ℕ}
    (h : id ∈ countedIds alloc chunkSize dead docs) : ∃ p ∈ docs, p.1.toNat = id := by
  induction docs generalizing dead with
  | nil => cases h
  | cons p docs ih =>
    have hrest : ∀ {dead'}, id ∈ countedIds alloc chunkSize dead' docs →
        ∃ q ∈ p :: docs, q.1.toNat = id := by
      intro dead' hmem
      obtain ⟨q, hq, heq⟩ := ih hmem
      exact ⟨q, List.mem_cons_of_mem _ hq, heq⟩
    unfold countedIds at h
    split_ifs at h
    · exact hrest h
    · rcases List.mem_cons.1 h with rfl | h
      · exact ⟨p, List.mem_cons_self, rfl⟩
      · exact hrest h
    · exact hrest h
    · cases h

theorem mem_handled_of_fits {docs : List (UInt64 × ℕ)} {p : UInt64 × ℕ} (hp : p ∈ docs)
    (hfit : p.2 ≤ alloc p.1.toNat) : p ∈ handled alloc chunkSize docs := by
  induction docs with
  | nil => cases hp
  | cons q docs ih =>
    unfold handled
    rcases List.mem_cons.1 hp with rfl | hp
    · rw [if_pos (Or.inl hfit)]
      exact List.mem_cons_self
    · split_ifs
      · exact List.mem_cons_of_mem _ (ih hp)
      · exact List.mem_filter.2 ⟨hp, decide_eq_true hfit⟩

/-- An id that the second pass counts is handled first by a document that does not fit; it is never
written in place when only one document for it is handled. -/
theorem counted_spec {docs : List (UInt64 × ℕ)} {id : UInt64}
    (h : id.toNat ∈ countedIds alloc chunkSize dead docs) :
    (∃ p, ((handled alloc chunkSize docs).filter fun p => p.1 = id).head? = some p ∧
      alloc id.toNat < p.2) ∧
    (((handled alloc chunkSize docs).filter fun p => p.1 = id).length ≤ 1 →
      ∀ p ∈ docs, p.1 = id → alloc id.toNat < p.2) := by
  induction docs generalizing dead with
  | nil => cases h
  | cons p docs ih =>
    -- a document for another id
    have hother : ∀ {dead'}, p.1 ≠ id → id.toNat ∈ countedIds alloc chunkSize dead' docs →
        (∃ q, ((p :: handled alloc chunkSize docs).filter fun p => p.1 = id).head? = some q ∧
          alloc id.toNat < q.2) ∧
        (((p :: handled alloc chunkSize docs).filter fun p => p.1 = id).length ≤ 1 →
          ∀ q ∈ p :: docs, q.1 = id → alloc id.toNat < q.2) := by
      intro dead' hne hmem
      obtain ⟨hhead, hone⟩ := ih hmem
      rw [List.filter_cons_of_neg (by simpa using hne)]
      refine ⟨hhead, fun hlen q hq heq => ?_⟩
      rcases List.mem_cons.1 hq with rfl | hq
      · exact absurd heq hne
      · exact hone hlen q hq heq
    unfold countedIds at h
    unfold handled
    by_cases hfit : p.2 ≤ alloc p.1.toNat
    · rw [if_pos hfit] at h
      rw [if_pos (Or.inl hfit)]
      refine hother ?_ h
      rintro rfl
      have hrest := dead_of_mem_counted h
      rw [Function.update_self] at hrest
      cases hrest
    · rw [if_neg hfit] at h
      by_cases hroom : p.2 + 8 ≤ chunkSize
      · rw [if_pos hroom] at h
        rw [if_pos (Or.inr hroom)]
        by_cases heq : p.1 = id
        · subst heq
          rw [List.filter_cons_of_pos (by simp)]
          refine ⟨⟨p, rfl, Nat.not_le.1 hfit⟩, fun hlen q hq heq => ?_⟩
          have hnil : (handled alloc chunkSize docs).filter (fun q => q.1 = p.1) = [] := by
            rw [List.length_cons] at hlen
            exact List.length_eq_zero_iff.1 (by omega)
          rcases List.mem_cons.1 hq with rfl | hq
          · exact Nat.not_le.1 hfit
          · by_contra hle
            have hmem : q ∈ (handled alloc chunkSize docs).filter (fun q => q.1 = p.1) :=
              List.mem_filter.2 ⟨mem_handled_of_fits hq (by rw [heq]; exact Nat.not_lt.1 hle),
                decide_eq_true heq⟩
            rw [hnil] at hmem
            cases hmem
        · have hne : id.toNat ≠ p.1.toNat := fun he => heq (UInt64.toNat_inj.1 he.symm)
          split_ifs at h
          · exact hother heq ((List.mem_cons.1 h).resolve_left hne)
          · exact hother heq h
      · rw [if_neg hroom] at h
        cases h

/-- An id without document is counted if the first document handled for it does not fit. -/
theorem mem_countedIds_of_head {docs : List (UInt64 × ℕ)} {id : UInt64} {p : UInt64 × ℕ}
    (hdead : dead id.toNat = true)
    (hhead : ((handled alloc chunkSize docs).filter fun p => p.1 = id).head? = some p)
    (hlarge : alloc id.toNat < p.2) : id.toNat ∈ countedIds alloc chunkSize dead docs := by
  induction docs generalizing dead with
  | nil => cases hhead
  | cons q docs ih =>
    unfold handled at hhead
    unfold countedIds
    by_cases hfit : q.2 ≤ alloc q.1.toNat
    · rw [if_pos (Or.inl hfit)] at hhead
      rw [if_pos hfit]
      by_cases heq : q.1 = id
      · rw [List.filter_cons_of_pos (by simpa using heq), List.head?_cons] at hhead
        obtain rfl := Option.some.inj hhead
        rw [heq] at hfit
        omega
      · rw [List.filter_cons_of_neg (by simpa using heq)] at hhead
        have hne : id.toNat ≠ q.1.toNat := fun he => heq (UInt64.toNat_inj.1 he.symm)
        exact ih (by rwa [Function.update_of_ne hne]) hhead
    · rw [if_neg hfit]
      by_cases hroom : q.2 + 8 ≤ chunkSize
      · rw [if_pos (Or.inr hroom)] at hhead
        rw [if_pos hroom]
        by_cases heq : q.1 = id
        · rw [heq, if_pos hdead]
          exact List.mem_cons_self
        · rw [List.filter_cons_of_neg (by simpa using heq)] at hhead
          exact List.mem_append_right _ (ih hdead hhead)
      · -- only documents that fit are handled from here on
        rw [if_neg (not_or.2 ⟨hfit, hroom⟩)] at hhead
        have hmem := List.mem_filter.1 (List.mem_of_mem_head? hhead)
        have hp := of_decide_eq_true (List.mem_filter.1 hmem.1).2
        rw [of_decide_eq_true hmem.2] at hp
        omega

/-- An id without document, for which no document fits, is counted for each document handled. -/
theorem count_countedIds {docs : List (UInt64 × ℕ)} {id : UInt64} (hdead : dead id.toNat = true)
    (hlarge : ∀ p ∈ docs, p.1 = id → alloc id.toNat < p.2) :
    (countedIds alloc chunkSize dead docs).count id.toNat =
      ((handled alloc chunkSize docs).filter fun p => p.1 = id).length := by
  induction docs generalizing dead with
  | nil => rfl
  | cons q docs ih =>
    obtain ⟨hq, hrest⟩ := List.forall_mem_cons.1 hlarge
    have hne : q.1 ≠ id → id.toNat ≠ q.1.toNat := fun hother he =>
      hother (UInt64.toNat_inj.1 he.symm)
    unfold countedIds handled
    by_cases hfit : q.2 ≤ alloc q.1.toNat
    · have hother : q.1 ≠ id := fun heq => Nat.not_lt.2 (heq ▸ hfit) (hq heq)
      rw [if_pos hfit, if_pos (Or.inl hfit), List.filter_cons_of_neg (by simpa using hother)]
      exact ih (by rwa [Function.update_of_ne (hne hother)]) hrest
    · rw [if_neg hfit]
      by_cases hroom : q.2 + 8 ≤ chunkSize
      · rw [if_pos hroom, if_pos (Or.inr hroom), List.count_append, ih hdead hrest]
        by_cases heq : q.1 = id
        · rw [heq, if_pos hdead, List.filter_cons_of_pos (by simpa using heq), List.length_cons,
            List.count_singleton_self, Nat.add_comm]
        · have hnot : id.toNat ∉ if dead q.1.toNat then [q.1.toNat] else [] := by
            split_ifs
            · exact fun hmem => hne heq (List.mem_singleton.1 hmem)
            · exact List.not_mem_nil
          rw [List.count_eq_zero_of_not_mem hnot, Nat.zero_add,
            List.filter_cons_of_neg (by simpa using heq)]
      · rw [if_neg hroom, if_neg (not_or.2 ⟨hfit, hroom⟩), List.count_nil, eq_comm,
          List.length_eq_zero_iff, List.filter_eq_nil_iff]
        intro p hp heq
        have hmem := List.mem_filter.1 hp
        have heq : p.1 = id := of_decide_eq_true heq
        have hle := of_decide_eq_true hmem.2
        rw [heq] at hle
        exact Nat.not_lt.2 hle (hrest p hmem.1 heq)

/-- What `CountsOnce` says about the ids that the second pass counts. -/
theorem countsOnce_iff {docs : List (UInt64 × ℕ)} (hadmitted : ∀ p ∈ docs, p.2 ≤ c.chunkSize)
    (hdead : ∀ id, dead id = true ↔ ¬ c.Present id) :
    CountsOnce c docs ↔ (countedIds c.allocatedFor c.chunkSize dead docs).Nodup ∧
      ∀ p ∈ docs, p.1.toNat ∈ countedIds c.allocatedFor c.chunkSize dead docs →
        c.allocatedFor p.1.toNat < p.2 := by
  constructor
  · intro hcounts
    have h := hcounts.resolve_left fun ⟨p, hp, hlarge⟩ =>
      absurd hlarge (Nat.not_lt.2 (hadmitted p hp))
    have hone : ∀ id : UInt64, id.toNat ∈ countedIds c.allocatedFor c.chunkSize dead docs →
        (c.handledFor docs id).length ≤ 1 := by
      intro id hmem
      rcases h id ((hdead _).1 (dead_of_mem_counted hmem)) with hlen | ⟨p, hp, hfit⟩
      · exact hlen
      · obtain ⟨q, hq, hlt⟩ := (counted_spec hmem).1
        have hpq : some p = some q := hp.symm.trans hq
        obtain rfl := Option.some.inj hpq
        omega
    have hlarge : ∀ id : UInt64, id.toNat ∈ countedIds c.allocatedFor c.chunkSize dead docs →
        ∀ p ∈ docs, p.1 = id → c.allocatedFor id.toNat < p.2 :=
      fun id hmem => (counted_spec hmem).2 (hone id hmem)
    constructor
    · rw [List.nodup_iff_count_le_one]
      intro n
      by_cases hn : n ∈ countedIds c.allocatedFor c.chunkSize dead docs
      · obtain ⟨p, -, rfl⟩ := exists_of_mem_countedIds hn
        rw [count_countedIds (dead_of_mem_counted hn) (hlarge p.1 hn)]
        exact hone p.1 hn
      · rw [List.count_eq_zero_of_not_mem hn]
        exact Nat.zero_le 1
    · exact fun p hp hmem => hlarge p.1 hmem p hp rfl
  · rintro ⟨hnodup, hlarge⟩
    refine Or.inr fun id hid => ?_
    have hid := (hdead _).2 hid
    cases hhead : (c.handledFor docs id).head? with
    | none =>
      rw [List.head?_eq_none_iff.1 hhead]
      exact Or.inl (Nat.zero_le 1)
    | some p =>
      by_cases hfit : p.2 ≤ c.allocatedFor id.toNat
      · exact Or.inr ⟨p, rfl, hfit⟩
      · -- the id is counted as often as a document is handled for it
        have hmem := mem_countedIds_of_head hid hhead (Nat.not_le.1 hfit)
        have hnone : ∀ q ∈ docs, q.1 = id → c.allocatedFor id.toNat < q.2 := by
          intro q hq heq
          have hq' := hlarge q hq
          rw [heq] at hq'
          exact hq' hmem
        left
        exact (count_countedIds hid hnone).ge.trans (List.nodup_iff_count_le_one.1 hnodup _)

/-- A new entry without document adds no id. -/
theorem present_hole {e : EntryMetadata} (he : e.size = keyNotFound) (metaSize : ℕ)
    (collSize : UInt64) (id : ℕ) : (c.withEntry c.header.nextId e metaSize (c.header.nextId + 1)
      collSize).Present id ↔ c.Present id := by
  show id < c.header.nextId + 1 ∧ (Function.update c.entries c.header.nextId e id).size ≠
    keyNotFound ↔ _
  by_cases hid : id = c.header.nextId
  · subst hid
    rw [Function.update_self]
    exact ⟨fun h => absurd he h.2, fun h => absurd h.1 (lt_irrefl _)⟩
  · rw [Function.update_of_ne hid]
    exact ⟨fun h => ⟨by omega, h.2⟩, fun h => ⟨Nat.lt_succ_of_lt h.1, h.2⟩⟩

/-- The loop that creates entries. -/
theorem createEntries_sane {n : ℕ} (h : Sane c) :
    Ensures (fun _ => True) (createEntries n c) (fun r =>
      Sane r.2 ∧ r.2.chunkSize = c.chunkSize ∧ (Counted c → Counted r.2) ∧
        (r.1 = .OK → r.2.header.nextId = c.header.nextId + n ∧
          r.2.allocatedFor = c.allocatedFor ∧ ∀ id, r.2.Present id ↔ c.Present id)) := by
  induction n generalizing c with
  | zero => exact ⟨h, rfl, fun hc => hc, fun _ => ⟨rfl, rfl, fun _ => Iff.rfl⟩⟩
  | succ n ih =>
    refine Ensures.bind (writeEntryMetadata_sane h le_rfl _) ?_
    rintro ⟨status, c₁⟩ ⟨hms, hr⟩
    obtain ⟨rfl, rfl⟩ := Prod.mk.inj hr
    have hmax : max c.header.nextId (c.header.nextId + 1) = c.header.nextId + 1 :=
      max_eq_right (Nat.le_succ _)
    have hsane := withEntry_sane h le_rfl hms
      (e := ⟨c.header.lastChunkId, keyNotFound, keyNotFound, 0⟩) (fun hne => absurd rfl hne)
      c.header.collSize
    rw [hmax] at hsane
    refine Ensures.mono (ih hsane) ?_
    rintro r ⟨hr, hchunkSize, hcounted, hok⟩
    refine ⟨hr, hchunkSize, fun hc => hcounted ?_, fun hstatus => ?_⟩
    · have hnew := counted_new hc ⟨c.header.lastChunkId, keyNotFound, keyNotFound, 0⟩
        (c.metaSizeFor c.header.nextId)
      rw [if_pos rfl] at hnew
      exact hnew
    · obtain ⟨hnext, halloc, hpresent⟩ := hok hstatus
      refine ⟨?_, halloc.trans ?_, fun id => (hpresent id).trans ?_⟩
      · rw [hnext, Nat.add_comm n 1, ← Nat.add_assoc]
        rfl
      · exact allocatedFor_hole (c := c)
          (e := ⟨c.header.lastChunkId, keyNotFound, keyNotFound, 0⟩) rfl
          (c.metaSizeFor c.header.nextId) c.header.collSize
      · exact present_hole (c := c)
          (e := ⟨c.header.lastChunkId, keyNotFound, keyNotFound, 0⟩) rfl
          (c.metaSizeFor c.header.nextId) c.header.collSize id

/-- The entry of a document that the first pass has written. -/
theorem resizeEntry_sane (h : Sane c) {id size : ℕ} (hid : id < c.header.nextId)
    (hsize : size ≠ keyNotFound) :
    Ensures (fun _ => True) (c.resizeEntry id (c.entries id) size) (fun r => r.1 = .OK ∧
      ∃ c', r.2.countDocument ((c.entries id).size = keyNotFound) = c' ∧ Sane c' ∧
        c'.chunkSize = c.chunkSize ∧ c'.header.nextId = c.header.nextId ∧
        c'.entries = Function.update c.entries id { c.entries id with size } ∧
        (Counted c → Counted c')) := by
  unfold resizeEntry
  split_ifs with hne
  · refine Ensures.mono (writeEntryMetadata_sane h hid.le _) ?_
    rintro ⟨status, c₁⟩ ⟨hms, hr⟩
    obtain ⟨rfl, rfl⟩ := Prod.mk.inj hr
    have hsane := withEntry_sane h hid.le hms (e := { c.entries id with size })
      (fun hne => h.offset_ge id hid hne)
    rw [max_eq_left hid] at hsane
    have hlive := fun hc : Counted c => counted_live hc hid (e := { c.entries id with size }) hsize
      (c.metaSizeFor id)
    by_cases hdead : (c.entries id).size = keyNotFound
    · rw [if_pos hdead] at hlive
      rw [decide_eq_true hdead]
      exact ⟨rfl, _, rfl, hsane _, rfl, rfl, rfl, hlive⟩
    · rw [if_neg hdead] at hlive
      rw [decide_eq_false hdead]
      exact ⟨rfl, _, rfl, hsane _, rfl, rfl, rfl, hlive⟩
  · have hsame : (c.entries id).size = size := not_not.1 hne
    have hlive : ¬ (c.entries id).size = keyNotFound := hsame ▸ hsize
    rw [decide_eq_false hlive]
    refine ⟨rfl, c, rfl, h, rfl, rfl, ?_, fun hc => hc⟩
    rw [eq_comm, Function.update_eq_self_iff, ← hsame]

/-- The ids that the second pass counts, from the entries that it was given. -/
def pending (chunkSize : ℕ) : List ((UInt64 × ℕ) × EntryMetadata) → List ℕ
  | [] => []
  | (p, e) :: docs =>
    if p.2 ≤ e.allocated then pending chunkSize docs
    else if p.2 + 8 ≤ chunkSize then
      (if e.size = keyNotFound then [p.1.toNat] else []) ++ pending chunkSize docs
    else []

/-- What the first pass hands to the second one. -/
structure Handed (c : LogCollection) (alloc : ℕ → ℕ) (dead : ℕ → Bool)
    (docs : List (UInt64 × ℕ)) (es : List EntryMetadata) : Prop where
  length_eq : es.length = docs.length
  pending_eq : pending c.chunkSize (docs.zip es) = countedIds alloc c.chunkSize dead docs
  dead_iff : ∀ id < c.header.nextId, (c.entries id).size = keyNotFound ↔
    dead id = true ∧ ∀ p ∈ docs, p.1.toNat = id → alloc id < p.2
  live : ∀ d ∈ docs.zip es, d.2.size ≠ keyNotFound → (c.entries d.1.1.toNat).size ≠ keyNotFound

/-- The first pass keeps the files, and counts what it adds. -/
theorem inPlacePass_sane {data : Bytes} {docs : List (UInt64 × ℕ)} (docOffset : ℕ)
    (es : List EntryMetadata) (h : Sane c)
    (halloc : ∀ id < c.header.nextId, (c.entries id).allocated = alloc id)
    (hdead : ∀ id < c.header.nextId, (c.entries id).size = keyNotFound ↔ dead id = true)
    (hids : ∀ p ∈ docs, p.1.toNat < c.header.nextId) (hsizes : ∀ p ∈ docs, p.2 < keyNotFound) :
    Ensures (fun _ => True) (inPlacePass data docs docOffset c es) (fun r =>
      Sane r.2.2 ∧ r.2.2.chunkSize = c.chunkSize ∧ r.2.2.header.nextId = c.header.nextId ∧
        (Counted c → Counted r.2.2) ∧
        (r.1 = .OK → ∃ es', r.2.1 = es ++ es' ∧ Handed r.2.2 alloc dead docs es')) := by
  -- an id is no longer dead behind a document written for it, so `dead` varies along the pass
  induction docs generalizing c dead docOffset es with
  | nil =>
    refine ⟨h, rfl, rfl, fun hc => hc, fun _ => ⟨[], (List.append_nil _).symm, rfl, rfl, ?_, nofun⟩⟩
    intro id hid
    rw [hdead id hid]
    exact ⟨fun hd => ⟨hd, nofun⟩, fun hd => hd.1⟩
  | cons p docs ih =>
    obtain ⟨id, size⟩ := p
    have hid : id.toNat < c.header.nextId := hids (id, size) List.mem_cons_self
    have hsize : size ≠ keyNotFound := Nat.ne_of_lt (hsizes (id, size) List.mem_cons_self)
    have hids' : ∀ p ∈ docs, p.1.toNat < c.header.nextId :=
      fun p hp => hids p (List.mem_cons_of_mem _ hp)
    have hsizes' : ∀ p ∈ docs, p.2 < keyNotFound := fun p hp => hsizes p (List.mem_cons_of_mem _ hp)
    unfold inPlacePass
    rw [readEntryMetadata_of_lt h.covers hid]
    dsimp only
    rw [if_neg (not_not.2 rfl)]
    have hallocated := halloc id.toNat hid
    split_ifs with hno
    · -- the document is left to the second pass
      have hlt : alloc id.toNat < size := by rw [← hallocated]; exact hno
      refine Ensures.mono (ih (docOffset + size) _ h halloc hdead hids' hsizes') ?_
      rintro r ⟨hr, hchunkSize, hnext, hcounted, hok⟩
      refine ⟨hr, hchunkSize, hnext, hcounted, fun hstatus => ?_⟩
      obtain ⟨es', hes, hhanded⟩ := hok hstatus
      refine ⟨c.entries id.toNat :: es', by rw [hes, List.append_assoc]; rfl,
        congrArg Nat.succ hhanded.length_eq, ?_, ?_, ?_⟩
      · have hread := hdead id.toNat hid
        show (if size ≤ (c.entries id.toNat).allocated then _ else _) =
          (if size ≤ alloc id.toNat then _ else _)
        rw [if_neg (Nat.not_le.2 hno), if_neg (Nat.not_le.2 hlt)]
        simp only [hread]
        rw [show List.zipWith Prod.mk docs es' = docs.zip es' from rfl, hhanded.pending_eq]
      · intro id' hid'
        rw [hhanded.dead_iff id' hid', List.forall_mem_cons]
        refine and_congr_right fun _ => ⟨fun hall => ⟨?_, hall⟩, fun hall => hall.2⟩
        rintro rfl
        exact hlt
      · intro d hd hsome
        rcases List.mem_cons.1 hd with rfl | hd
        · intro hnone
          have hgone := ((hhanded.dead_iff id.toNat (by rw [hnext]; exact hid)).1 hnone).1
          exact hsome ((hdead id.toNat hid).2 hgone)
        · exact hhanded.live d hd hsome
    · -- the document goes into the space of its entry, and counts if the id had none
      have hfit : size ≤ alloc id.toNat := by rw [← hallocated]; exact Nat.not_lt.1 hno
      have hlen : (slice data docOffset size).length ≤ (c.entries id.toNat).allocated := by
        rw [length_slice]
        omega
      refine Ensures.bind (overwrite_sane h hid hlen) ?_
      rintro ⟨status, c₁⟩ ⟨hc₁, hsame⟩
      dsimp only
      split_ifs with hstatus
      · exact ⟨hc₁, hsame.chunkSize_eq, hsame.nextId_eq, hsame.counted,
          fun hok => absurd hok hstatus⟩
      · have hid₁ : id.toNat < c₁.header.nextId := hsame.nextId_eq.symm ▸ hid
        rw [← hsame.entries_eq]
        refine Ensures.bind (resizeEntry_sane hc₁ hid₁ hsize) ?_
        rintro ⟨status', c₂⟩ ⟨hok', c₃, hcount, hc₃, hchunkSize₃, hnext₃, hentries, hcounted₃⟩
        have hok' : status' = .OK := hok'
        have hcount : c₂.countDocument ((c₁.entries id.toNat).size = keyNotFound) = c₃ := hcount
        subst hok'
        dsimp only
        rw [if_neg (not_not.2 rfl), hcount]
        have hnext : c₃.header.nextId = c.header.nextId := hnext₃.trans hsame.nextId_eq
        rw [hsame.entries_eq] at hentries
        have halloc₃ : ∀ id' < c₃.header.nextId, (c₃.entries id').allocated = alloc id' := by
          intro id' hid'
          rw [hentries]
          exact update_allocated (e := { c.entries id.toNat with size }) hid halloc rfl
            (hnext ▸ hid')
        have hdead₃ : ∀ id' < c₃.header.nextId, (c₃.entries id').size = keyNotFound ↔
            Function.update dead id.toNat false id' = true := by
          intro id' hid'
          rw [hentries]
          by_cases heq : id' = id.toNat
          · rw [heq, Function.update_self, Function.update_self]
            exact ⟨fun hnone => absurd hnone hsize, fun hd => by cases hd⟩
          · rw [Function.update_of_ne heq, Function.update_of_ne heq]
            exact hdead id' (hnext ▸ hid')
        refine Ensures.mono (ih (docOffset + size) _ hc₃ halloc₃ hdead₃
          (by rw [hnext]; exact hids') hsizes') ?_
        · rintro r ⟨hr, hchunkSize, hnext', hcounted, hok⟩
          refine ⟨hr, (hchunkSize.trans hchunkSize₃).trans hsame.chunkSize_eq, hnext'.trans hnext,
            fun hc => hcounted (hcounted₃ (hsame.counted hc)), fun hstatus => ?_⟩
          obtain ⟨es', hes, hhanded⟩ := hok hstatus
          refine ⟨{ c₁.entries id.toNat with size } :: es',
            by rw [hes, List.append_assoc]; rfl, congrArg Nat.succ hhanded.length_eq, ?_, ?_, ?_⟩
          · show (if size ≤ (c₁.entries id.toNat).allocated then _ else _) =
              (if size ≤ alloc id.toNat then _ else _)
            rw [if_pos (by rw [hsame.entries_eq]; exact Nat.not_lt.1 hno), if_pos hfit]
            exact hhanded.pending_eq
          · intro id' hid'
            rw [hhanded.dead_iff id' hid', List.forall_mem_cons]
            by_cases heq : id' = id.toNat
            · subst heq
              rw [Function.update_self]
              exact ⟨fun hd => absurd hd.1 Bool.false_ne_true,
                fun hd => absurd (hd.2.1 rfl) (Nat.not_lt.2 hfit)⟩
            · rw [Function.update_of_ne heq]
              exact and_congr_right fun _ =>
                ⟨fun hall => ⟨fun he => absurd he.symm heq, hall⟩, fun hall => hall.2⟩
          · intro d hd hsome
            rcases List.mem_cons.1 hd with rfl | hd
            · intro hnone
              have hgone := ((hhanded.dead_iff id.toNat (by rw [hnext', hnext]; exact hid)).1
                hnone).1
              rw [Function.update_self] at hgone
              cases hgone
            · exact hhanded.live d hd hsome

/-- How many documents the second pass counts again: the entry that it was given has no document,
but the id has one by then. -/
def recounts (chunkSize : ℕ) : (ℕ → Bool) → List ((UInt64 × ℕ) × EntryMetadata) → ℕ
  | _, [] => 0
  | live, (p, e) :: docs =>
    if p.2 ≤ e.allocated then recounts chunkSize live docs
    else if p.2 + 8 ≤ chunkSize then
      (if e.size = keyNotFound ∧ live p.1.toNat then 1 else 0) +
        recounts chunkSize (Function.update live p.1.toNat true) docs
    else 0

/-- No document is counted again exactly if the ids that the second pass counts are distinct and
have no document. -/
theorem recounts_eq_zero_iff {live : ℕ → Bool} {docs : List ((UInt64 × ℕ) × EntryMetadata)}
    (hdocs : ∀ d ∈ docs, d.2.size ≠ keyNotFound → live d.1.1.toNat = true) :
    recounts chunkSize live docs = 0 ↔
      (pending chunkSize docs).Nodup ∧ ∀ id ∈ pending chunkSize docs, live id = false := by
  induction docs generalizing live with
  | nil => simp [recounts, pending]
  | cons d docs ih =>
    obtain ⟨p, e⟩ := d
    obtain ⟨hentry, hrest⟩ := List.forall_mem_cons.1 hdocs
    have hentry : e.size ≠ keyNotFound → live p.1.toNat = true := hentry
    unfold recounts pending
    split_ifs with hfit hroom hboth hnone hnone
    · exact ih hrest
    · -- the id is counted again
      refine iff_of_false (by omega) fun hall => ?_
      have hdead := hall.2 p.1.toNat (by simp)
      rw [hboth.2] at hdead
      cases hdead
    · exact absurd hboth.1 hnone
    · -- the id has a document from here on
      have hdead : live p.1.toNat = false := Bool.eq_false_iff.2 fun hlive => hboth ⟨hnone, hlive⟩
      have hlater : ∀ d ∈ docs, d.2.size ≠ keyNotFound →
          Function.update live p.1.toNat true d.1.1.toNat = true := by
        intro d hd hsome
        by_cases heq : d.1.1.toNat = p.1.toNat
        · rw [heq, Function.update_self]
        · rw [Function.update_of_ne heq]
          exact hrest d hd hsome
      rw [Nat.zero_add, ih hlater, List.singleton_append, List.nodup_cons, List.forall_mem_cons]
      constructor
      · rintro ⟨hnodup, hall⟩
        refine ⟨⟨fun hmem => ?_, hnodup⟩, hdead, fun id hid => ?_⟩
        · have hself := hall _ hmem
          rw [Function.update_self] at hself
          cases hself
        · have hid' := hall id hid
          by_cases heq : id = p.1.toNat
          · rw [heq, hdead]
          · rwa [Function.update_of_ne heq] at hid'
      · rintro ⟨⟨hnot, hnodup⟩, -, hall⟩
        refine ⟨hnodup, fun id hid => ?_⟩
        have hne : id ≠ p.1.toNat := by
          rintro rfl
          exact hnot hid
        rw [Function.update_of_ne hne]
        exact hall id hid
    · have hlive : Function.update live p.1.toNat true = live :=
        Function.update_eq_self_iff.2 (hentry hnone).symm
      rw [Nat.zero_add, hlive, List.nil_append]
      exact ih hrest
    · simp

theorem recounts_le_sum {live : ℕ → Bool} {docs : List ((UInt64 × ℕ) × EntryMetadata)} :
    recounts chunkSize live docs ≤ (docs.map fun d => d.1.2).sum := by
  induction docs generalizing live with
  | nil => exact le_refl 0
  | cons d docs ih =>
    obtain ⟨p, e⟩ := d
    rw [List.map_cons, List.sum_cons]
    unfold recounts
    have hrest := @ih live
    have hupdated := @ih (Function.update live p.1.toNat true)
    dsimp only at hrest hupdated ⊢
    split_ifs <;> omega

/-- The second pass counts nothing again exactly if no id is counted twice, or counted although the
first pass has written a document for it. -/
theorem Handed.recounts_iff {docs : List (UInt64 × ℕ)} {es : List EntryMetadata}
    (h : Handed c alloc dead docs es) (hids : ∀ p ∈ docs, p.1.toNat < c.header.nextId) :
    recounts c.chunkSize (fun id => decide ((c.entries id).size ≠ keyNotFound)) (docs.zip es) = 0 ↔
      (countedIds alloc c.chunkSize dead docs).Nodup ∧
        ∀ p ∈ docs, p.1.toNat ∈ countedIds alloc c.chunkSize dead docs → alloc p.1.toNat < p.2 := by
  rw [recounts_eq_zero_iff fun d hd hsome => decide_eq_true (h.live d hd hsome), h.pending_eq]
  refine and_congr_right fun _ => ⟨fun hall p hp hmem => ?_, fun hall id hid => ?_⟩
  · have hnone := not_not.1 (of_decide_eq_false (hall _ hmem))
    exact ((h.dead_iff _ (hids p hp)).1 hnone).2 p hp rfl
  · obtain ⟨p, hp, rfl⟩ := exists_of_mem_countedIds hid
    have hnone := (h.dead_iff _ (hids p hp)).2 ⟨dead_of_mem_counted hid, fun q hq heq => by
      rw [← heq] at hid ⊢
      exact hall q hq hid⟩
    exact decide_eq_false (not_not.2 hnone)

/-- The second pass keeps the files. It counts what it adds, and some documents again. -/
theorem appendPass_sane {data : Bytes} {docs : List ((UInt64 × ℕ) × EntryMetadata)}
    (docOffset : ℕ) (h : Sane c) {nextOffset : ℕ} (hn : 8 ≤ nextOffset)
    (hle : nextOffset ≤ c.chunkSize) (hids : ∀ d ∈ docs, d.1.1.toNat < c.header.nextId)
    (hsizes : ∀ d ∈ docs, d.1.2 < keyNotFound)
    (hdata : docOffset + (docs.map fun d => d.1.2).sum ≤ data.length) :
    Ensures (fun _ => True) (appendPass data docs docOffset nextOffset c) (fun r =>
      Sane r.2 ∧ r.2.chunkSize = c.chunkSize ∧
        ∀ (live : ℕ → Bool) (k : ℕ),
          (∀ id < c.header.nextId, live id = true ↔ (c.entries id).size ≠ keyNotFound) →
          (∀ d ∈ docs, d.2.size ≠ keyNotFound → live d.1.1.toNat = true) → CountedBeyond c k →
          CountedBeyond r.2 (k + recounts c.chunkSize live docs)) := by
  induction docs generalizing c docOffset nextOffset with
  | nil => exact ⟨h, rfl, fun live k _ _ hc => hc⟩
  | cons d docs ih =>
    obtain ⟨⟨id, size⟩, e⟩ := d
    rw [List.map_cons, List.sum_cons] at hdata
    have hid : id.toNat < c.header.nextId := hids _ List.mem_cons_self
    have hsize : size ≠ keyNotFound := Nat.ne_of_lt (hsizes _ List.mem_cons_self)
    have hids' : ∀ d ∈ docs, d.1.1.toNat < c.header.nextId :=
      fun d hd => hids d (List.mem_cons_of_mem _ hd)
    have hsizes' : ∀ d ∈ docs, d.1.2 < keyNotFound := fun d hd => hsizes d (List.mem_cons_of_mem _ hd)
    have hdata : docOffset + (size + (docs.map fun d => d.1.2).sum) ≤ data.length := hdata
    have hdata' : docOffset + size + (docs.map fun d => d.1.2).sum ≤ data.length := by omega
    have hlen : (slice data docOffset size).length = size := length_slice_of_le (by omega)
    unfold appendPass
    dsimp only
    by_cases hfit : size ≤ e.allocated
    · have hrecounts : ∀ live, recounts c.chunkSize live (((id, size), e) :: docs) =
          recounts c.chunkSize live docs := fun live => if_pos hfit
      rw [if_pos hfit]
      refine Ensures.mono (ih (docOffset + size) h hn hle hids' hsizes' hdata') ?_
      rintro r ⟨hr, hchunkSize, hcounted⟩
      refine ⟨hr, hchunkSize, fun live k hlive hdocs hc => ?_⟩
      rw [hrecounts]
      exact hcounted live k hlive (fun d hd => hdocs d (List.mem_cons_of_mem _ hd)) hc
    · rw [if_neg hfit]
      refine Ensures.bind (writeDocument_sane h hn hle (slice data docOffset size)) ?_
      rintro ⟨status, offset, c₁⟩ ⟨hc₁, hsame, hoff, hend, hok⟩
      have hoff : 8 ≤ offset := hoff
      rw [hlen] at hend hok
      dsimp only
      split_ifs with hstatus
      · -- the document is too large
        refine ⟨hc₁, hsame.chunkSize_eq, fun live k _ _ hc => ?_⟩
        have hnone : recounts c.chunkSize live (((id, size), e) :: docs) = 0 :=
          (if_neg hfit).trans (if_neg fun hroom => hstatus (hok.2 hroom))
        rw [hnone]
        exact hsame.countedBeyond hc
      · have hroom : size + 8 ≤ c.chunkSize := hok.1 (not_not.1 hstatus)
        have hend : offset + size ≤ c.chunkSize := hend (not_not.1 hstatus)
        have hid₁ : id.toNat < c₁.header.nextId := hsame.nextId_eq.symm ▸ hid
        refine Ensures.bind (writeEntryMetadata_sane hc₁ hid₁.le _) ?_
        rintro ⟨status', c₂⟩ ⟨hms, hr⟩
        obtain ⟨rfl, rfl⟩ := Prod.mk.inj hr
        dsimp only
        rw [if_neg (not_not.2 rfl)]
        generalize hnew : (⟨c₁.header.lastChunkId, offset, size, size⟩ : EntryMetadata) = new
        -- the collection after the document is counted
        obtain ⟨c₃, hcount, hsane, hindex⟩ : ∃ c₃, (c₁.withEntry id.toNat new
            (c₁.metaSizeFor id.toNat) c₁.header.nextId c₁.header.collSize).countDocument
              (e.size = keyNotFound) = c₃ ∧ Sane c₃ ∧ c₃ = c₁.withEntry id.toNat new
                (c₁.metaSizeFor id.toNat) c₁.header.nextId
                (if e.size = keyNotFound then c₁.header.collSize + 1 else c₁.header.collSize) := by
          have hwith := withEntry_sane hc₁ hid₁.le hms (e := new) (by rw [← hnew]; exact fun _ => hoff)
          rw [max_eq_left hid₁] at hwith
          by_cases hgone : e.size = keyNotFound
          · rw [decide_eq_true hgone, if_pos hgone]
            exact ⟨_, rfl, hwith _, rfl⟩
          · rw [decide_eq_false hgone, if_neg hgone]
            exact ⟨_, rfl, hwith _, rfl⟩
        rw [hcount]
        have hnext : c₃.header.nextId = c.header.nextId := by
          rw [hindex]
          exact hsame.nextId_eq
        have hsize₃ : c₃.chunkSize = c.chunkSize := by
          rw [hindex]
          exact hsame.chunkSize_eq
        have hnewSize : new.size ≠ keyNotFound := by
          rw [← hnew]
          exact hsize
        have hentries : c₃.entries = Function.update c.entries id.toNat new := by
          rw [hindex, ← hsame.entries_eq]
          rfl
        refine Ensures.mono (ih (docOffset + size) hsane (by omega) (by rw [hsize₃]; exact hend)
          (by rw [hnext]; exact hids') hsizes' hdata') ?_
        rintro r ⟨hr, hchunkSize, hcounted⟩
        refine ⟨hr, hchunkSize.trans hsize₃, fun live k hlive hdocs hc => ?_⟩
        have hrecounts : recounts c.chunkSize live (((id, size), e) :: docs) =
            (if e.size = keyNotFound ∧ live id.toNat = true then 1 else 0) +
              recounts c.chunkSize (Function.update live id.toNat true) docs :=
          (if_neg hfit).trans (if_pos hroom)
        have hlive' : ∀ id' < c₃.header.nextId, Function.update live id.toNat true id' = true ↔
            (c₃.entries id').size ≠ keyNotFound := by
          intro id' hid'
          rw [hentries]
          by_cases heq : id' = id.toNat
          · rw [heq, Function.update_self, Function.update_self]
            exact iff_of_true rfl hnewSize
          · rw [Function.update_of_ne heq, Function.update_of_ne heq]
            exact hlive id' (hnext ▸ hid')
        have hdocs' : ∀ d ∈ docs, d.2.size ≠ keyNotFound →
            Function.update live id.toNat true d.1.1.toNat = true := by
          intro d hd hsome
          by_cases heq : d.1.1.toNat = id.toNat
          · rw [heq, Function.update_self]
          · rw [Function.update_of_ne heq]
            exact hdocs d (List.mem_cons_of_mem _ hd) hsome
        have hid' := hlive id.toNat hid
        have hbeyond := countedBeyond_live (hsame.countedBeyond hc) hid₁ hnewSize
          (c₁.metaSizeFor id.toNat) (show ¬ e.size = keyNotFound → _ from fun hsome => by
            rw [hsame.entries_eq]
            exact hid'.1 (hdocs _ List.mem_cons_self hsome))
        rw [← hindex, hsame.entries_eq] at hbeyond
        simp only [← hid'] at hbeyond
        have hrest := hcounted _ _ hlive' hdocs' hbeyond
        rw [hsize₃] at hrest
        rw [hrecounts, ← Nat.add_assoc]
        exact hrest

/-- `update` keeps the files, and counts what it adds if it counts no id twice, and only then when
it reports success. -/
theorem update_sane (h : Sane c) {batch : DocBatch} {ids : List UInt64}
    (hholds : batch.Holds ids.length) :
    Ensures (fun _ => True) (c.update ids batch.documents batch.sizes) (fun r =>
      Sane r.2 ∧ r.2.chunkSize = c.chunkSize ∧
        (Counted c → (CountsOnce c (ids.zip batch.sizes) → Counted r.2) ∧
          (r.1 = .OK → Counted r.2 → CountsOnce c (ids.zip batch.sizes)))) := by
  obtain ⟨hcount, hsum⟩ := hholds
  have hsnd : (ids.zip batch.sizes).map Prod.snd = batch.sizes :=
    List.map_snd_zip (le_of_eq hcount.symm)
  have hsizes : ∀ p ∈ ids.zip batch.sizes, p.2 < keyNotFound :=
    fun p hp => size_lt_keyNotFound (List.of_mem_zip hp).2
  unfold update
  split_ifs with hany hnil
  · exact ⟨h, rfl, fun hc => ⟨fun _ => hc, fun hok => by cases hok⟩⟩
  · trivial
  · refine Ensures.bind (createEntries_sane h) ?_
    rintro ⟨status, c₁⟩ ⟨hc₁, hchunkSize₁, hcounted₁, hok₁⟩
    dsimp only
    split_ifs with hstatus
    · exact ⟨hc₁, hchunkSize₁, fun hc => ⟨fun _ => hcounted₁ hc, fun hok => absurd hok hstatus⟩⟩
    · obtain ⟨hnext₁, halloc, hpresent⟩ := hok₁ (not_not.1 hstatus)
      have hnext₁ : c₁.header.nextId =
        c.header.nextId + ((maxID ids).toNat + 1 - c.header.nextId) := hnext₁
      have hids : ∀ p ∈ ids.zip batch.sizes, p.1.toNat < c₁.header.nextId := by
        intro p hp
        have hle := UInt64.le_iff_toNat_le.1 (le_maxID (List.of_mem_zip hp).1)
        omega
      have halloc₁ : ∀ id < c₁.header.nextId, (c₁.entries id).allocated = c.allocatedFor id := by
        intro id hid
        rw [← congrFun halloc id]
        exact (if_pos hid).symm
      have hdead : ∀ id < c₁.header.nextId, (c₁.entries id).size = keyNotFound ↔
          (!decide (c.Present id)) = true := by
        intro id hid
        have hiff := hpresent id
        rw [Bool.not_eq_true', decide_eq_false_iff_not, ← hiff]
        exact ⟨fun hnone hp => hp.2 hnone, fun hp => by_contra fun hsome => hp ⟨hid, hsome⟩⟩
      -- the pass starts with the ids that have no document
      refine Ensures.bind (inPlacePass_sane 0 [] hc₁ halloc₁ hdead hids hsizes) ?_
      rintro ⟨status₂, es, c₂⟩ ⟨hc₂, hchunkSize₂, hnext₂, hcounted₂, hok₂⟩
      have hchunkSize₂ : c₂.chunkSize = c.chunkSize := hchunkSize₂.trans hchunkSize₁
      dsimp only
      split_ifs with hstatus₂
      · exact ⟨hc₂, hchunkSize₂, fun hc => ⟨fun _ => hcounted₂ (hcounted₁ hc),
          fun hok => absurd hok hstatus₂⟩⟩
      · obtain ⟨es', hes, hhanded⟩ := hok₂ (not_not.1 hstatus₂)
        obtain rfl : es = es' := hes
        refine Ensures.bind (nextOffset_bounds hc₂) ?_
        rintro ⟨status₃, next⟩ hn
        dsimp only
        split_ifs with hstatus₃
        · exact ⟨hc₂, hchunkSize₂, fun hc => ⟨fun _ => hcounted₂ (hcounted₁ hc),
            fun hok => absurd hok hstatus₃⟩⟩
        · obtain ⟨hge, hle⟩ := hn (not_not.1 hstatus₃)
          have hnext₂ : c₂.header.nextId = c₁.header.nextId := hnext₂
          have hfst : ∀ d ∈ (ids.zip batch.sizes).zip es, d.1 ∈ ids.zip batch.sizes :=
            fun d hd => (List.of_mem_zip hd).1
          have hadds : (((ids.zip batch.sizes).zip es).map fun d => d.1.2).sum =
              batch.sizes.sum := by
            have hcomp : (fun d : (UInt64 × ℕ) × EntryMetadata => d.1.2) = Prod.snd ∘ Prod.fst :=
              rfl
            rw [hcomp, ← List.map_map, List.map_fst_zip hhanded.length_eq.ge, hsnd]
          have hids₂ : ∀ p ∈ ids.zip batch.sizes, p.1.toNat < c₂.header.nextId :=
            fun p hp => hnext₂ ▸ hids p hp
          refine Ensures.bind (appendPass_sane 0 hc₂ hge hle (fun d hd => hids₂ d.1 (hfst d hd))
            (fun d hd => hsizes d.1 (hfst d hd)) (by rw [hadds, Nat.zero_add]; exact hsum)) ?_
          rintro ⟨status₄, c₃⟩ ⟨hc₃, hchunkSize₃, hcounted₃⟩
          refine ⟨hc₃, hchunkSize₃.trans hchunkSize₂, fun hc => ?_⟩
          -- no size was refused up front, so the ids that are counted are those of `CountsOnce`
          have hadmitted : ∀ p ∈ ids.zip batch.sizes, p.2 ≤ c.chunkSize := fun p hp => by
            by_contra hlarge
            exact hany (List.any_eq_true.2 ⟨p.2, (List.of_mem_zip hp).2,
              decide_eq_true (Nat.not_le.1 hlarge)⟩)
          have hagain := hhanded.recounts_iff hids₂
          rw [hchunkSize₂, ← countsOnce_iff hadmitted fun id => by simp] at hagain
          have hbeyond := hcounted₃ (fun id => decide ((c₂.entries id).size ≠ keyNotFound)) 0
            (fun id _ => decide_eq_true_iff)
            (fun d hd hsome => decide_eq_true (hhanded.live d hd hsome)) (hcounted₂ (hcounted₁ hc))
          rw [Nat.zero_add, hchunkSize₂] at hbeyond
          have hiff := (hbeyond.counted_iff ((recounts_le_sum.trans
            (hadds.trans_le batch.sum_le)).trans_lt (by decide))).trans hagain
          exact ⟨hiff.2, fun _ => hiff.1⟩

/-! ### Runs -/

end LogCollection

namespace LogOp

/-- The batch of the call is well formed. -/
def Holds : LogOp → Prop
  | append ids batch => batch.Holds ids.length
  | update ids batch => batch.Holds ids.length
  | erase _ => True

/-- The call counts no id twice. -/
def CountsOnce (c : LogCollection) : LogOp → Prop
  | update ids batch => LogCollection.CountsOnce c (ids.zip batch.sizes)
  | _ => True

end LogOp

namespace LogCollection

variable {c c' : LogCollection}

/-- A well-formed call that returns. -/
def Returns (c : LogCollection) (op : LogOp) (c' : LogCollection) : Prop :=
  op.Holds ∧ ∃ status, c.apply op = .ok (status, c')

/-- A well-formed call that returns, and counts no id twice. -/
def CountingCall (c : LogCollection) (op : LogOp) (c' : LogCollection) : Prop :=
  op.CountsOnce c ∧ c.Returns op c'

theorem sane_ofFiles {chunkSize : ℕ} (cacheSize : UInt64) (hlt : chunkSize < 2 ^ 63) :
    Sane (ofFiles chunkSize cacheSize {}) := by
  have hchunk : (ofFiles chunkSize cacheSize {}).chunks 0 = List.replicate chunkSize 0 := by
    simp [ofFiles, getChunkFromID, mapChunk, mapFile]
  constructor
  case header_chunkSize => rfl
  case chunkSize_lt => exact hlt
  case covers =>
    show 32 + 0 * 32 ≤ 8 * 8 * 4096
    decide
  case metaSize_lt =>
    show 8 * 8 * 4096 < 2 ^ 63
    decide
  case metaSize_small => exact fun _ => rfl
  case length_last =>
    show chunkSize ≤ ((ofFiles chunkSize cacheSize {}).chunks 0).length
    rw [hchunk, List.length_replicate]
  case chunk_nil =>
    intro k hk
    have hk : k ≠ 0 := Nat.ne_of_gt hk
    simp [ofFiles, getChunkFromID, mapChunk, hk]
  case used_ge =>
    intro _
    rw [used_of_replicate (c := ofFiles chunkSize cacheSize {}) hchunk]
  case used_le =>
    intro hge
    rw [used_of_replicate (c := ofFiles chunkSize cacheSize {}) hchunk]
    exact hge
  case offset_ge => exact fun id hid => absurd hid (Nat.not_lt_zero id)

/-- A call keeps the files, and counts what it adds and removes: an update if it counts no id twice,
and only then when it reports success. -/
theorem apply_sane (h : Sane c) {op : LogOp} (hholds : op.Holds) :
    Ensures (fun _ => True) (c.apply op) (fun r =>
      Sane r.2 ∧ r.2.chunkSize = c.chunkSize ∧ (Counted c →
        (op.CountsOnce c → Counted r.2) ∧ (r.1 = .OK → Counted r.2 → op.CountsOnce c))) := by
  cases op with
  | append ids batch =>
    refine Ensures.bind (append_sane h hholds) ?_
    rintro ⟨status, ids, c'⟩ ⟨hc', hchunkSize, hcounted⟩
    exact ⟨hc', hchunkSize, fun hc => ⟨fun _ => hcounted hc, fun _ _ => trivial⟩⟩
  | update ids batch => exact update_sane h hholds
  | erase id =>
    refine Ensures.mono (erase_sane h id) ?_
    rintro ⟨status, c'⟩ ⟨hc', hchunkSize, hcounted⟩
    exact ⟨hc', hchunkSize, fun hc => ⟨fun _ => hcounted hc, fun _ _ => trivial⟩⟩

theorem run_sane {chunkSize : ℕ} {cacheSize : UInt64} {ops : List LogOp}
    (hlt : chunkSize < 2 ^ 63) (hrun : Run Returns (ofFiles chunkSize cacheSize {}) ops c) :
    Sane c ∧ c.chunkSize = chunkSize := by
  have hstep : ∀ c op c', Sane c ∧ c.chunkSize = chunkSize → Returns c op c' →
      Sane c' ∧ c'.chunkSize = chunkSize := by
    rintro c op c' ⟨hc, hchunkSize⟩ ⟨hholds, status, hr⟩
    obtain ⟨hc', hchunkSize', -⟩ := Ensures.of_eq_ok (apply_sane hc hholds) hr
    exact ⟨hc', hchunkSize'.trans hchunkSize⟩
  exact hrun.invariant hstep ⟨sane_ofFiles cacheSize hlt, rfl⟩

theorem Sane.liveCount_lt (h : Sane c) : c.liveCount < 2 ^ 64 := by
  have hcovers := h.covers
  have hlt := h.metaSize_lt
  rw [show sizeofEntry = 32 from rfl] at hcovers
  have hle : c.liveCount ≤ c.header.nextId := Nat.count_le _
  omega

/-- The counter is the number of documents. -/
theorem Sane.counted_iff (h : Sane c) : Counted c ↔ c.header.collSize.toNat = c.liveCount := by
  unfold Counted
  rw [← UInt64.toNat_inj, UInt64.toNat_ofNat', Nat.mod_eq_of_lt h.liveCount_lt]

/-- After any run of calls that count no id twice, `coll_size` is the number of ids below
`next_id` that have a document. -/
theorem size_counts_documents {chunkSize : ℕ} {cacheSize : UInt64} {ops : List LogOp}
    (hlt : chunkSize < 2 ^ 63)
    (hrun : Run CountingCall (ofFiles chunkSize cacheSize {}) ops c) :
    c.header.collSize.toNat = c.liveCount := by
  have hstep : ∀ c op c', Sane c ∧ Counted c → CountingCall c op c' → Sane c' ∧ Counted c' := by
    rintro c op c' ⟨hc, hcounted⟩ ⟨honce, hholds, status, hr⟩
    obtain ⟨hc', -, hcounted'⟩ := Ensures.of_eq_ok (apply_sane hc hholds) hr
    exact ⟨hc', (hcounted' hcounted).1 honce⟩
  have hinv : Sane c ∧ Counted c := hrun.invariant hstep ⟨sane_ofFiles cacheSize hlt, rfl⟩
  exact hinv.1.counted_iff.1 hinv.2

theorem twoDocs_sum_le : [1, 1].sum ≤ lastValidSize := by decide

/-- Two documents for the ids of a request. -/
def twoDocs (a b : UInt8) : DocBatch := ⟨[a, b], [1, 1], twoDocs_sum_le⟩

/-- A run that stores two documents, creates a third one by an update, and erases one. -/
theorem size_counts_documents_erased :
    ∃ c, Run CountingCall (ofFiles 16 16 {})
        [.append [0, 0] (twoDocs 7 8), .update [2] (oneDoc 9), .erase 0] c ∧
      c.header.collSize.toNat = c.liveCount ∧ c.liveCount = 2 := by
  have honce : ∀ c : LogCollection, CountsOnce c [(2, 1)] := by
    refine fun c => Or.inr fun id _ => Or.inl ((List.length_filter_le _ _).trans ?_)
    unfold handled
    split_ifs
    · exact le_refl 1
    · exact Nat.zero_le 1
  have hstore : Run CountingCall (ofFiles 16 16 {}) [.append [0, 0] (twoDocs 7 8)] _ :=
    Run.snoc (Run.nil _) ⟨trivial, ⟨rfl, le_refl _⟩, _, rfl⟩
  have hupdate : Run CountingCall (ofFiles 16 16 {})
      [.append [0, 0] (twoDocs 7 8), .update [2] (oneDoc 9)] _ :=
    Run.snoc hstore ⟨honce _, ⟨rfl, le_refl _⟩, _, rfl⟩
  have herase : Run CountingCall (ofFiles 16 16 {})
      [.append [0, 0] (twoDocs 7 8), .update [2] (oneDoc 9), .erase 0] _ :=
    Run.snoc hupdate ⟨trivial, trivial, _, rfl⟩
  exact ⟨_, herase, size_counts_documents (by decide) herase, rfl⟩

/-- An update that lists a new id twice counts it twice. -/
theorem size_after_repeated_id :
    ∃ c, Run Returns (ofFiles 16 16 {}) [.update [0, 0] (twoDocs 7 8)] c ∧
      c.header.collSize = 2 ∧ c.liveCount = 1 :=
  ⟨_, Run.snoc (Run.nil _) ⟨⟨rfl, le_refl _⟩, _, rfl⟩, rfl, rfl⟩

end LogCollection

end Yokan
