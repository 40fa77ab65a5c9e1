import Yokan.ArrayMigration
import Yokan.LogSpace

/-!
# Yokan: listing the documents of the `log` backend

`docIter` and `docList` of `LogDatabase` (`src/backends/log.cpp`). The loop of `docIter` fetches one
id after the other, and it is the callback of the fetch that goes on to the next id: the loop is
modelled with a number of fetches it may make.

* `fetch_answers`: what a fetch does in any collection that calls lead to, unless the id is adrift or
  its chunk is one that the cache has no room for;
* `docIter_ends_iff`: the loop makes at most one fetch for each id exactly if there is no such id that
  it can reach and some id was assigned;
* `iterLoop_empty`, `iterLoop_unanswered`: otherwise it can go on forever, or crash.
-/

namespace Yokan

open Buffer Transition

/-- The local variables of `LogDatabase::docIter`, and the state of its callback. -/
structure LogIteration (υ : Type) where
  id : UInt64
  i : ℕ
  docBuffer : Bytes
  status : Status
  user : υ

/-- `fetch_cb` of `docIter`. It leaves no state when the buffer cannot be resized: the exception
ends the loop. -/
def LogIteration.fetchCallback {υ : Type} (name : CString) (max : ℕ) (filter : SizedDocFilter)
    (func : υ → UInt64 → Bytes → Status × υ) :
    Option (LogIteration υ) → UInt64 → Option Bytes → Status × Option (LogIteration υ)
  | none, _, _ => (.OK, none)
  | some st, _, none => (.OK, some { st with id := st.id + 1 })
  | some st, _, some doc =>
    if !filter.check name st.id doc then
      if filter.shouldStop name doc then (.OK, some { st with i := max })
      else (.OK, some { st with id := st.id + 1 })
    else
      match resize (filter.docSizeFrom name doc) st.docBuffer with
      | none => (.OK, none)
      | some docBuffer =>
        let (filteredSize, docBuffer) :=
          filter.docCopy name docBuffer 0 (filter.docSizeFrom name doc) doc
        let (status, user) := func st.user st.id (slice docBuffer 0 filteredSize)
        if status ≠ .OK then (.OK, some { st with i := max, docBuffer, status, user })
        else (.OK, some ⟨st.id + 1, st.i + 1, docBuffer, status, user⟩)

namespace LogCollection

/-- The loop of `docIter`, with a number of fetches. It has no result when it needs another one. -/
def iterLoop {υ : Type} (name : CString) (max : ℕ) (filter : SizedDocFilter)
    (func : υ → UInt64 → Bytes → Status × υ) :
    ℕ → LogIteration υ → LogCollection → Option (Outcome (Option (LogIteration υ) × LogCollection))
  | 0, st, c => if st.i < max ∧ st.id ≤ c.lastId then none else some (.ok (some st, c))
  | fetches + 1, st, c =>
    if st.i < max ∧ st.id ≤ c.lastId then
      match c.fetch st.id (LogIteration.fetchCallback name max filter func) (some st) with
      | .error e => some (.error e)
      | .ok (_, none, c) => some (.ok (none, c))
      | .ok (_, some st, c) =>
        if st.status ≠ .OK then some (.ok (some st, c))
        else iterLoop name max filter func fetches st c
    else some (.ok (some st, c))

end LogCollection

namespace LogDatabase

/-- `docIter`, with a number of fetches. There is no status when an exception leaves it. -/
def docIter {υ : Type} (s : LogDatabase) (name : CString) (max : ℕ) (fromId : UInt64)
    (filter : SizedDocFilter) (func : υ → UInt64 → Bytes → Status × υ) (fetches : ℕ) (u : υ) :
    Option (Outcome (Option (Status × υ) × LogDatabase)) :=
  match s.collections name with
  | none => some (.ok (some (.NotFound, u), s))
  | some c =>
    (LogCollection.iterLoop name max filter func fetches ⟨fromId, 0, [], .OK, u⟩ c).map fun r => do
      let (st, c) ← r
      .ok (st.map fun st => (st.status, st.user), s.put name c)

/-- `docList`. Its callback is the one of `ArrayDatabase::docList`. -/
def docList (s : LogDatabase) (name : CString) (packed : Bool) (fromId : UInt64)
    (filter : SizedDocFilter) (ids : List UInt64) (documents : Bytes) (docSizes : List ℕ)
    (fetches : ℕ) :
    Option (Outcome (Option (Status × List UInt64 × Bytes × List ℕ) × LogDatabase)) :=
  (s.docIter name ids.length fromId filter (ArrayListing.callback packed) fetches
    ⟨0, 0, ids, documents, docSizes⟩).map fun r => do
      let (answer, s) ← r
      .ok (answer.map fun (status, st) =>
        let left := ids.length - st.i
        (status, st.ids.take st.i ++ List.replicate left noMoreDocs, st.documents,
          st.docSizes.take st.i ++ List.replicate left noMoreKeys), s)

end LogDatabase

namespace LogCollection

variable {c c' : LogCollection} {m : IdMap Bytes} {υ : Type}

/-! ### Chunks without room for their first word -/

/-- An entry that was never given space. -/
def Hollow (e : EntryMetadata) : Prop :=
  e.allocated = 0 ∧ e.offset = keyNotFound ∧ (e.size = 0 ∨ e.size = keyNotFound)

/-- A collection whose chunks are too small for any document. -/
structure Bare (c : LogCollection) : Prop where
  header_chunkSize : c.header.chunkSize = c.chunkSize
  chunkSize_lt : c.chunkSize < 8
  covers : sizeofEntry + c.header.nextId * sizeofEntry ≤ c.metaSize
  hollow : ∀ id < c.header.nextId, Hollow (c.entries id)

theorem Bare.withEntry (h : Bare c) {id : ℕ} {e : EntryMetadata} (metaSize : ℕ)
    (hroom : sizeofEntry + max c.header.nextId (id + 1) * sizeofEntry ≤ metaSize)
    (hid : id ≤ c.header.nextId) (he : Hollow e) (collSize : UInt64) :
    Bare (c.withEntry id e metaSize (max c.header.nextId (id + 1)) collSize) := by
  refine ⟨h.header_chunkSize, h.chunkSize_lt, hroom, fun id' hid' => ?_⟩
  have hid' : id' < max c.header.nextId (id + 1) := hid'
  show Hollow (Function.update c.entries id e id')
  by_cases heq : id' = id
  · rw [heq, Function.update_self]
    exact he
  · rw [Function.update_of_ne heq]
    exact h.hollow id' (by omega)

/-- Chunks without room for their first word are no place for a document. -/
theorem nextOffset_of_small (hsmall : c.header.chunkSize < 8) :
    ∃ n, c.nextOffset = .ok (.SizeError, n) := by
  have hadd : addSize 0 8 = 8 := rfl
  have hread : c.readChunk c.header.lastChunkId 0 8 = .ok (.SizeError, []) := by
    unfold readChunk
    rw [hadd, if_pos hsmall]
  unfold nextOffset
  rw [hread]
  exact ⟨_, rfl⟩

theorem Bare.nextOffset_eq (h : Bare c) : ∃ n, c.nextOffset = .ok (.SizeError, n) :=
  nextOffset_of_small (by rw [h.header_chunkSize]; exact h.chunkSize_lt)

theorem createEntries_bare {n : ℕ} (h : Bare c) :
    Ensures (fun _ => True) (createEntries n c) (fun r => Bare r.2 ∧ (r.1 = .OK →
      r.2.header.nextId = c.header.nextId + n)) := by
  induction n generalizing c with
  | zero => exact ⟨h, fun _ => rfl⟩
  | succ n ih =>
    have hmax : max c.header.nextId (c.header.nextId + 1) = c.header.nextId + 1 :=
      max_eq_right (Nat.le_succ _)
    have hbare := h.withEntry (e := ⟨c.header.lastChunkId, keyNotFound, keyNotFound, 0⟩)
      (c.metaSizeFor c.header.nextId) (by rw [hmax]; exact room_metaSizeFor h.covers le_rfl) le_rfl ⟨rfl, rfl, Or.inr rfl⟩
      c.header.collSize
    rw [hmax] at hbare
    unfold createEntries
    refine Ensures.bind ((writeEntryMetadata_spec h.covers le_rfl _).allow fun _ _ => trivial) ?_
    rintro ⟨status, c₁⟩ hr
    obtain ⟨rfl, rfl⟩ := Prod.mk.inj hr
    refine (ih hbare).mono fun r hr => ⟨hr.1, fun hok => ?_⟩
    rw [hr.2 hok, Nat.add_comm n 1, ← Nat.add_assoc]
    rfl

theorem inPlacePass_bare {data : Bytes} {docs : List (UInt64 × ℕ)} (docOffset : ℕ)
    (es : List EntryMetadata) (h : Bare c) (hids : ∀ p ∈ docs, p.1.toNat < c.header.nextId) :
    Ensures (fun _ => True) (inPlacePass data docs docOffset c es) (fun r => Bare r.2.2) := by
  induction docs generalizing c docOffset es with
  | nil => exact h
  | cons p docs ih =>
    obtain ⟨id, size⟩ := p
    have hid : id.toNat < c.header.nextId := hids (id, size) List.mem_cons_self
    have hids' : ∀ p ∈ docs, p.1.toNat < c.header.nextId :=
      fun p hp => hids p (List.mem_cons_of_mem _ hp)
    obtain ⟨halloc, hoffset, -⟩ := h.hollow id.toNat hid
    by_cases hzero : size = 0
    · subst hzero
      have hnil : slice data docOffset 0 = [] := by simp [slice]
      obtain ⟨collSize, hpass⟩ := inPlacePass_cons docs es h.covers hid rfl (Nat.zero_le _) hnil
        (overwrite_nil _)
      have hmax : max c.header.nextId (id.toNat + 1) = c.header.nextId := max_eq_left hid
      have hbare := h.withEntry (e := { c.entries id.toNat with size := 0 }) c.metaSize
        (by rw [hmax]; exact h.covers) hid.le ⟨halloc, hoffset, Or.inl rfl⟩ collSize
      have hsame : c.blitChunk (c.entries id.toNat).chunk (c.entries id.toNat).offset [] = c := by
        simp [blitChunk]
      rw [hmax] at hbare
      rw [hpass, hsame]
      exact ih _ _ hbare hids'
    · unfold inPlacePass
      rw [readEntryMetadata_of_lt h.covers hid]
      dsimp only
      rw [if_neg (not_not.2 rfl), if_pos (by omega)]
      exact ih _ _ h hids'

/-- An update that returns fails. -/
theorem update_bare (h : Bare c) (ids : List UInt64) (batch : DocBatch) :
    Ensures (fun _ => True) (c.update ids batch.documents batch.sizes) (fun r =>
      Bare r.2 ∧ r.1 ≠ .OK) := by
  unfold update
  split_ifs
  · exact ⟨h, nofun⟩
  · trivial
  · refine Ensures.bind (createEntries_bare h) ?_
    rintro ⟨status, c₁⟩ ⟨h₁, hnext⟩
    dsimp only
    split_ifs with hok
    · exact ⟨h₁, hok⟩
    · have hnext : c₁.header.nextId = _ := hnext (not_not.1 hok)
      have hids : ∀ p ∈ ids.zip batch.sizes, p.1.toNat < c₁.header.nextId := by
        intro p hp
        have hle := UInt64.le_iff_toNat_le.1 (le_maxID (List.of_mem_zip hp).1)
        omega
      refine Ensures.bind (inPlacePass_bare 0 [] h₁ hids) ?_
      rintro ⟨status, es, c₂⟩ h₂
      dsimp only
      split_ifs with hok₂
      · exact ⟨h₂, hok₂⟩
      · obtain ⟨n, hn⟩ := Bare.nextOffset_eq h₂
        rw [hn]
        exact ⟨h₂, nofun⟩

theorem append_bare (h : Bare c) (ids : List UInt64) (batch : DocBatch) :
    Ensures (fun _ => True) (c.append batch.documents batch.sizes ids) (fun r => r.2.2 = c) := by
  obtain ⟨n, hn⟩ := h.nextOffset_eq
  unfold append
  split_ifs
  · rfl
  · rw [hn]
    exact Eq.refl c

theorem erase_bare (h : Bare c) (id : UInt64) :
    Ensures (fun _ => True) (c.erase id) (fun r => Bare r.2) := by
  unfold erase
  split_ifs with hid
  · exact h
  · have hlt : id.toNat < c.header.nextId := Nat.not_le.1 hid
    have hmax : max c.header.nextId (id.toNat + 1) = c.header.nextId := max_eq_left hlt
    have hbare := h.withEntry (e := ⟨keyNotFound, keyNotFound, keyNotFound,
      (c.entries id.toNat).allocated⟩) c.metaSize (by rw [hmax]; exact h.covers) hlt.le
      ⟨(h.hollow _ hlt).1, rfl, Or.inr rfl⟩ (c.header.collSize - 1)
    rw [hmax] at hbare
    rw [readEntryMetadata_of_lt h.covers hlt]
    dsimp only
    rw [if_neg (not_not.2 rfl)]
    split_ifs
    · exact h
    · rw [writeEntryMetadata_of_lt h.covers hlt]
      exact hbare

theorem returns_bare (h : Bare c) {op : LogOp} (hreturns : Returns c op c') : Bare c' := by
  obtain ⟨-, status, hr⟩ := hreturns
  have hensures : Ensures (fun _ => True) (c.apply op) (fun r => Bare r.2) := by
    cases op with
    | append ids batch =>
      refine Ensures.bind (append_bare h ids batch) ?_
      rintro ⟨status, ids, c₁⟩ hsame
      obtain rfl : c₁ = c := hsame
      exact h
    | update ids batch => exact (update_bare h ids batch).mono fun _ hr => hr.1
    | erase id => exact erase_bare h id
  exact hensures.of_eq_ok hr

theorem run_bare {chunkSize : ℕ} {cacheSize : UInt64} {ops : List LogOp} (hsmall : chunkSize < 8)
    (hrun : Run Returns (ofFiles chunkSize cacheSize {}) ops c) : Bare c := by
  refine hrun.invariant (fun _ _ _ h hr => returns_bare h hr) ⟨rfl, hsmall, ?_, fun id hid =>
    absurd hid (Nat.not_lt_zero id)⟩
  show 32 + 0 * 32 ≤ 8 * 8 * 4096
  decide

/-! ### One fetch -/

/-- The ids whose document is in a chunk that the cache would have to make room for. -/
def uncached (c : LogCollection) : Set ℕ :=
  {id | id < c.header.nextId ∧ (c.entries id).size ≠ keyNotFound ∧
    (c.entries id).chunk < c.header.lastChunkId ∧ ¬ c.HasRoom}

/-- A fetch calls back once, with the document or the absence of one, and changes nothing. -/
def Answers (c : LogCollection) (id : UInt64) : Prop :=
  ∃ doc : Option Bytes, ∀ (υ : Type) (cb : υ → UInt64 → Option Bytes → Status × υ) (u : υ),
    c.fetch id cb u = .ok ((cb u id doc).1, (cb u id doc).2, c)

/-- The chunk of a document that is not `uncached` can be got at. -/
theorem Stands.reaches (h : Stands c m) {id : ℕ} {doc : Bytes} (hdoc : m.docs id = some doc)
    (hid : id ∉ c.uncached) : c.Reaches (c.entries id).chunk := by
  obtain ⟨hlt, hpresent, hp⟩ := h.represents.entry_of_some (h.not_adrift hdoc) hdoc
  by_contra hnot
  have hreaches : ¬ ((c.entries id).chunk = c.header.lastChunkId ∨ c.HasRoom) := hnot
  rw [not_or] at hreaches
  exact hid ⟨hlt, hpresent, lt_of_le_of_ne hp.chunk_le hreaches.1, hreaches.2⟩

theorem Stands.answers (h : Stands c m) {id : UInt64} (hid : id.toNat ∉ c.adrift)
    (hcached : id.toNat ∉ c.uncached) : Answers c id := by
  refine ⟨m.docs id.toNat, fun _ cb u => fetch_eq h.represents hid (fun hsome => ?_) cb u⟩
  obtain ⟨doc, hdoc⟩ := Option.isSome_iff_exists.1 hsome
  exact h.reaches hdoc hcached

theorem Bare.answers (h : Bare c) {id : UInt64} (hid : id.toNat ∉ c.adrift) : Answers c id := by
  refine ⟨none, fun υ cb u => ?_⟩
  unfold LogCollection.fetch
  split_ifs with hge
  · rfl
  · have hlt : id.toNat < c.header.nextId := Nat.not_le.1 hge
    obtain ⟨-, hoffset, hsize⟩ := h.hollow id.toNat hlt
    have hhole : (c.entries id.toNat).size = keyNotFound :=
      hsize.resolve_left fun hzero => hid ⟨hlt, hzero, hoffset⟩
    rw [readEntryMetadata_of_lt h.covers hlt]
    dsimp only
    rw [if_pos (Or.inr hhole)]

/-- In the collections that calls lead to, only the ids adrift and those of `uncached` documents are
not answered. -/
theorem fetch_answers {chunkSize : ℕ} {cacheSize : UInt64} {ops : List LogOp}
    (hlt : chunkSize < 2 ^ 63) (hrun : Run Returns (ofFiles chunkSize cacheSize {}) ops c)
    {id : UInt64} (hid : id.toNat ∉ c.adrift) (hcached : id.toNat ∉ c.uncached) :
    Answers c id := by
  obtain hsmall | hge := Nat.lt_or_ge chunkSize 8
  · exact (run_bare hsmall hrun).answers hid
  · obtain ⟨⟨m, h⟩, -⟩ := run_stands hge hlt hrun
    exact h.answers hid hcached

/-- A collection after a chunk was asked for: its index is the same, and no chunk is gone. -/
structure Follows (c c' : LogCollection) : Prop extends SameIndex c c' where
  lastChunkId_le : c.header.lastChunkId ≤ c'.header.lastChunkId
  cacheSize_eq : c'.cacheSize = c.cacheSize

theorem Follows.rfl : Follows c c := ⟨SameIndex.rfl, le_refl _, Eq.refl _⟩

theorem Follows.adrift_eq (h : Follows c c') : c'.adrift = c.adrift := by
  unfold adrift
  rw [h.entries_eq, h.nextId_eq]

theorem Follows.uncached_subset (h : Follows c c') : c.uncached ⊆ c'.uncached := by
  rintro id ⟨hid, hsize, hchunk, hroom⟩
  refine ⟨by rw [h.nextId_eq]; exact hid, by rw [h.entries_eq]; exact hsize, ?_, ?_⟩
  · rw [h.entries_eq]
    exact hchunk.trans_le h.lastChunkId_le
  · unfold HasRoom
    rwa [h.cacheSize_eq]

theorem derefChunk_follows (h : Sane c) {k : ℕ} (hchunk : c.derefChunk k = .ok c') :
    Sane c' ∧ Follows c c' := by
  obtain ⟨h', hsame, -⟩ := derefChunk_sane h hchunk
  refine ⟨h', hsame, ?_, (cacheSize_derefChunk k).of_eq_ok hchunk⟩
  unfold derefChunk getChunkFromID at hchunk
  split_ifs at hchunk with hlast hnext hlt hroom <;> cases hchunk
  · exact le_refl _
  · exact hnext.ge.trans' (Nat.le_succ _)
  · exact le_refl _

/-- A fetch calls back at most once, and keeps the index. -/
theorem fetch_cases (h : Sane c) (id : UInt64) (cb : υ → UInt64 → Option Bytes → Status × υ)
    (u : υ) : Ensures (fun _ => True) (c.fetch id cb u) (fun r =>
      Sane r.2.2 ∧ Follows c r.2.2 ∧ (r.2.1 = u ∨ ∃ doc, r.2.1 = (cb u id doc).2)) := by
  unfold LogCollection.fetch
  split_ifs with hge
  · exact ⟨h, Follows.rfl, Or.inr ⟨none, rfl⟩⟩
  · rw [readEntryMetadata_of_lt h.covers (Nat.not_le.1 hge)]
    dsimp only
    by_cases hhole : Status.OK = Status.NotFound ∨ (c.entries id.toNat).size = keyNotFound
    · rw [if_pos hhole]
      exact ⟨h, Follows.rfl, Or.inr ⟨none, rfl⟩⟩
    · rw [if_neg hhole]
      cases hchunk : c.derefChunk (c.entries id.toNat).chunk with
      | error e => trivial
      | ok c' =>
        obtain ⟨h', hfollows⟩ := derefChunk_follows h hchunk
        dsimp only [bind, Except.bind]
        cases c'.readChunk (c.entries id.toNat).chunk (c.entries id.toNat).offset
            (c.entries id.toNat).size with
        | error e => trivial
        | ok r =>
          dsimp only
          split_ifs
          · exact ⟨h', hfollows, Or.inl rfl⟩
          · exact ⟨h', hfollows, Or.inr ⟨some r.2, rfl⟩⟩

/-- An id adrift points behind its chunk. -/
theorem readChunk_adrift (hlt : c.header.chunkSize < 2 ^ 63) {id k : ℕ} (hid : id ∈ c.adrift)
    (hchunk : c.derefChunk k = .ok c') :
    c'.readChunk k (c.entries id).offset (c.entries id).size = .ok (.SizeError, []) := by
  have hsize : c'.header.chunkSize < addSize keyNotFound 0 := by
    rw [chunkSize_derefChunk hchunk]
    exact hlt.trans (by decide)
  unfold readChunk
  rw [hid.2.1, hid.2.2, if_pos hsize]

/-- A fetch of an id adrift does not call back, and one of an `uncached` document does not return. -/
theorem fetch_unanswered (h : Sane c) {id : UInt64}
    (hid : id.toNat ∈ c.adrift ∨ id.toNat ∈ c.uncached)
    (cb : υ → UInt64 → Option Bytes → Status × υ) (u : υ) :
    Ensures (fun _ => True) (c.fetch id cb u) (fun r =>
      Sane r.2.2 ∧ Follows c r.2.2 ∧ r.2.1 = u) := by
  have hlt : id.toNat < c.header.nextId := hid.elim (fun h => h.1) (fun h => h.1)
  have hpresent : ¬ (Status.OK = Status.NotFound ∨ (c.entries id.toNat).size = keyNotFound) := by
    rintro (he | he)
    · cases he
    · rcases hid with hid | hid
      · rw [hid.2.1] at he
        exact absurd he (by decide)
      · exact hid.2.1 he
  unfold LogCollection.fetch
  rw [if_neg (Nat.not_le.2 hlt), readEntryMetadata_of_lt h.covers hlt]
  dsimp only
  rw [if_neg hpresent]
  cases hchunk : c.derefChunk (c.entries id.toNat).chunk with
  | error e => trivial
  | ok c' =>
    obtain ⟨h', hfollows⟩ := derefChunk_follows h hchunk
    rcases hid with hid | ⟨-, -, hbefore, hroom⟩
    · have hsize : c.header.chunkSize < 2 ^ 63 := by
        rw [h.header_chunkSize]
        exact h.chunkSize_lt
      dsimp only [bind, Except.bind]
      rw [readChunk_adrift hsize hid hchunk]
      exact ⟨h', hfollows, rfl⟩
    · -- the cache fails
      have hfails : c.derefChunk (c.entries id.toNat).chunk = .error .emptyCache := by
        unfold derefChunk getChunkFromID
        rw [if_neg hbefore.ne, if_neg (by omega), if_pos hbefore, if_neg hroom]
        rfl
      rw [hfails] at hchunk
      cases hchunk

/-! ### The loop of `docIter` -/

theorem le_lastId_iff (hpos : 0 < c.header.nextId) (hlt : c.header.nextId < 2 ^ 64) (id : UInt64) :
    id ≤ c.lastId ↔ id.toNat < c.header.nextId := by
  have hlast : c.lastId.toNat = c.header.nextId - 1 := by
    unfold lastId
    rw [UInt64.toNat_sub_of_le _ _ (by
      rw [UInt64.le_iff_toNat_le, UInt64.toNat_ofNat', Nat.mod_eq_of_lt hlt]
      exact hpos), UInt64.toNat_ofNat', Nat.mod_eq_of_lt hlt]
    rfl
  rw [UInt64.le_iff_toNat_le, hlast]
  omega

/-- Without documents, `last_id` is the greatest id. -/
theorem le_lastId_of_empty (h : c.header.nextId = 0) (id : UInt64) : id ≤ c.lastId := by
  have hlast : c.lastId.toNat = 2 ^ 64 - 1 := by
    unfold lastId
    rw [h]
    rfl
  have hid := id.toNat_lt
  rw [UInt64.le_iff_toNat_le, hlast]
  omega

theorem Sane.nextId_lt (h : Sane c) : c.header.nextId < 2 ^ 64 := by
  have hcovers := h.covers
  have hlt := h.metaSize_lt
  rw [show sizeofEntry = 32 from rfl] at hcovers
  omega

section Loop

variable {name : CString} {max : ℕ} {filter : SizedDocFilter}
  {func : υ → UInt64 → Bytes → Status × υ}

/-- A call back throws, ends the loop, or goes on to the next id. -/
theorem fetchCallback_cases (name : CString) (max : ℕ) (filter : SizedDocFilter)
    (func : υ → UInt64 → Bytes → Status × υ) (st : LogIteration υ) (id : UInt64)
    (doc : Option Bytes) :
    (LogIteration.fetchCallback name max filter func (some st) id doc).2 = none ∨
      ∃ st', (LogIteration.fetchCallback name max filter func (some st) id doc).2 = some st' ∧
        (max ≤ st'.i ∨ st'.id = st.id + 1) := by
  cases doc with
  | none => exact Or.inr ⟨_, rfl, Or.inr rfl⟩
  | some doc =>
    dsimp only [LogIteration.fetchCallback]
    split_ifs with hcheck hstop
    · exact Or.inr ⟨_, rfl, Or.inl le_rfl⟩
    · exact Or.inr ⟨_, rfl, Or.inr rfl⟩
    · cases resize (filter.docSizeFrom name doc) st.docBuffer with
      | none => exact Or.inl rfl
      | some docBuffer =>
        dsimp only
        split_ifs
        · exact Or.inr ⟨_, rfl, Or.inl le_rfl⟩
        · exact Or.inr ⟨_, rfl, Or.inr rfl⟩

theorem iterLoop_done {fetches : ℕ} {st : LogIteration υ} (h : ¬ (st.i < max ∧ st.id ≤ c.lastId)) :
    iterLoop name max filter func fetches st c = some (.ok (some st, c)) := by
  cases fetches <;> exact if_neg h

/-- The loop makes at most one fetch for each id that is left. -/
theorem iterLoop_ends (hpos : 0 < c.header.nextId) (hlt : c.header.nextId < 2 ^ 64)
    {fetches : ℕ} {st : LogIteration υ} (hfetches : c.header.nextId - st.id.toNat ≤ fetches)
    (hans : ∀ id : UInt64, st.id ≤ id → Answers c id) :
    ∃ r, iterLoop name max filter func fetches st c = some (.ok r) := by
  induction fetches generalizing st with
  | zero =>
    refine ⟨_, iterLoop_done fun hgo => ?_⟩
    have hid := (le_lastId_iff hpos hlt st.id).1 hgo.2
    omega
  | succ fetches ih =>
    by_cases hgo : st.i < max ∧ st.id ≤ c.lastId
    · have hid := (le_lastId_iff hpos hlt st.id).1 hgo.2
      obtain ⟨doc, hdoc⟩ := hans st.id (UInt64.le_refl _)
      unfold iterLoop
      rw [if_pos hgo, hdoc]
      obtain hnone | ⟨st', hst', hnext⟩ := fetchCallback_cases name max filter func st st.id doc
      · rw [hnone]
        exact ⟨_, rfl⟩
      · rw [hst']
        dsimp only
        split_ifs
        · exact ⟨_, rfl⟩
        · obtain hmax | hsucc := hnext
          · exact ⟨_, iterLoop_done fun hgo' => absurd hgo'.1 (Nat.not_lt.2 hmax)⟩
          · have hadd : st'.id.toNat = st.id.toNat + 1 := by
              rw [hsucc, UInt64.toNat_add]
              exact Nat.mod_eq_of_lt (by show st.id.toNat + 1 < 2 ^ 64; omega)
            refine ih (by omega) fun id hle => hans id ?_
            rw [UInt64.le_iff_toNat_le] at hle ⊢
            omega
    · exact ⟨_, iterLoop_done hgo⟩

/-- Without documents, the loop never ends. -/
theorem iterLoop_empty (hempty : c.header.nextId = 0) (fetches : ℕ) {st : LogIteration υ}
    (hi : st.i < max) (hstatus : st.status = .OK) :
    iterLoop name max filter func fetches st c = none := by
  have hgo : st.i < max ∧ st.id ≤ c.lastId := ⟨hi, le_lastId_of_empty hempty _⟩
  induction fetches generalizing st with
  | zero => exact if_pos hgo
  | succ fetches ih =>
    have hfetch : c.fetch st.id (LogIteration.fetchCallback name max filter func) (some st) =
        .ok (.OK, some { st with id := st.id + 1 }, c) := by
      unfold LogCollection.fetch
      rw [if_pos (by rw [hempty]; exact Nat.zero_le _)]
      rfl
    unfold iterLoop
    rw [if_pos hgo, hfetch]
    dsimp only
    rw [if_neg (not_not.2 hstatus)]
    exact ih hi hstatus ⟨hi, le_lastId_of_empty hempty _⟩

/-- The loop does not get past an id that is not answered, when the filter rejects what comes
before. -/
theorem iterLoop_unanswered (h : Sane c) {id : ℕ} (hid : id ∈ c.adrift ∨ id ∈ c.uncached)
    (hcheck : ∀ id doc, filter.check name id doc = false)
    (hstop : ∀ doc, filter.shouldStop name doc = false) (fetches : ℕ) {st : LogIteration υ}
    (hle : st.id.toNat ≤ id) (hi : st.i < max) (hstatus : st.status = .OK)
    (r : Option (LogIteration υ) × LogCollection) :
    iterLoop name max filter func fetches st c ≠ some (.ok r) := by
  have hgo : ∀ {c : LogCollection} {st : LogIteration υ}, Sane c → id < c.header.nextId →
      st.id.toNat ≤ id → st.i < max → st.i < max ∧ st.id ≤ c.lastId := fun h hid hle hi =>
    ⟨hi, (le_lastId_iff (Nat.zero_lt_of_lt hid) h.nextId_lt _).2 (hle.trans_lt hid)⟩
  induction fetches generalizing c st with
  | zero =>
    have hmem : id < c.header.nextId := hid.elim (fun h => h.1) (fun h => h.1)
    have hnone : iterLoop name max filter func 0 st c = none := if_pos (hgo h hmem hle hi)
    rw [hnone]
    exact nofun
  | succ fetches ih =>
    have hmem : id < c.header.nextId := hid.elim (fun h => h.1) (fun h => h.1)
    unfold iterLoop
    rw [if_pos (hgo h hmem hle hi)]
    -- the next state has the same id, or the next one, which is not past `id`
    have hstep : Ensures (fun _ => True) (c.fetch st.id
        (LogIteration.fetchCallback name max filter func) (some st)) (fun r => Sane r.2.2 ∧
          Follows c r.2.2 ∧ ∃ id', id'.toNat ≤ id ∧ r.2.1 = some { st with id := id' }) := by
      obtain hlt | heq := Nat.lt_or_eq_of_le hle
      · refine (fetch_cases h st.id _ _).mono fun r hr => ⟨hr.1, hr.2.1, ?_⟩
        obtain hsame | ⟨doc, hdoc⟩ := hr.2.2
        · exact ⟨st.id, hle, hsame⟩
        · have hnext := h.nextId_lt
          have hadd : (st.id + 1).toNat ≤ id := by
            rw [UInt64.toNat_add, show (1 : UInt64).toNat = 1 from rfl,
              Nat.mod_eq_of_lt (by omega)]
            exact hlt
          refine ⟨st.id + 1, hadd, hdoc.trans ?_⟩
          cases doc with
          | none => rfl
          | some doc => simp [LogIteration.fetchCallback, hcheck, hstop]
      · exact (fetch_unanswered h (heq ▸ hid) _ _).mono fun r hr => ⟨hr.1, hr.2.1, st.id, hle, hr.2.2⟩
    cases hfetch : c.fetch st.id (LogIteration.fetchCallback name max filter func) (some st) with
    | error e => exact nofun
    | ok p =>
      obtain ⟨status, next, c'⟩ := p
      obtain ⟨h', hsame, id', hle', hnext⟩ := hstep.of_eq_ok hfetch
      obtain rfl : next = some { st with id := id' } := hnext
      dsimp only
      rw [if_neg (not_not.2 hstatus)]
      exact ih h' (hid.imp (fun hid => hsame.adrift_eq ▸ hid) fun hid => hsame.uncached_subset hid)
        hle' hi hstatus

end Loop

end LogCollection

namespace LogDatabase

variable {s : LogDatabase} {c : LogCollection} {name : CString}

/-- `docIter` for at most `max` documents, and `docList`, end after a number of fetches. -/
structure EndsWithin (s : LogDatabase) (name : CString) (fromId : UInt64) (max fetches : ℕ) :
    Prop where
  docIter : ∀ {υ : Type} (filter : SizedDocFilter) (func : υ → UInt64 → Bytes → Status × υ) (u : υ),
    ∃ r, s.docIter name max fromId filter func fetches u = some (.ok r)
  docList : ∀ filter packed (ids : List UInt64) documents docSizes, ids.length = max →
    ∃ r, s.docList name packed fromId filter ids documents docSizes fetches = some (.ok r)

/-- `docIter` ends when its loop does. -/
theorem docIter_of_iterLoop {υ : Type} (hcoll : s.collections name = some c) {max fetches : ℕ}
    {fromId : UInt64} {filter : SizedDocFilter} {func : υ → UInt64 → Bytes → Status × υ} {u : υ} :
    (∃ r, s.docIter name max fromId filter func fetches u = some (.ok r)) ↔
      ∃ r, LogCollection.iterLoop name max filter func fetches ⟨fromId, 0, [], .OK, u⟩ c =
        some (.ok r) := by
  unfold docIter
  rw [hcoll]
  dsimp only
  cases LogCollection.iterLoop name max filter func fetches ⟨fromId, 0, [], .OK, u⟩ c with
  | none => exact ⟨nofun, nofun⟩
  | some r =>
    cases r with
    | error e => exact ⟨nofun, nofun⟩
    | ok r => exact ⟨fun _ => ⟨_, rfl⟩, fun _ => ⟨_, rfl⟩⟩

theorem collections_put (s : LogDatabase) (name : CString) (c : LogCollection) :
    (s.put name c).collections name = some c := by
  unfold put
  exact Function.update_self ..

/-- A filter that rejects every document, and never stops. -/
def rejectAll : SizedDocFilter where
  check _ _ _ := false
  docCopy _ := copyOut
  docSizeFrom _ := List.length

/-- In a collection that calls lead to, `docIter` and `docList` make at most one fetch for each id
from `fromId` on, when they are asked for nothing, or when some id was assigned and none of those
ids is adrift or has a document in a chunk that the cache has no room for. Otherwise they need not
end. -/
theorem docIter_ends_iff {chunkSize : ℕ} {cacheSize : UInt64} {ops : List LogOp}
    (hlt : chunkSize < 2 ^ 63)
    (hrun : Run LogCollection.Returns (.ofFiles chunkSize cacheSize {}) ops c)
    (hcoll : s.collections name = some c) (fromId : UInt64) (max : ℕ) :
    EndsWithin s name fromId max (c.header.nextId - fromId.toNat) ↔
      max = 0 ∨ 0 < c.header.nextId ∧ ∀ id ∈ c.adrift ∪ c.uncached, id < fromId.toNat := by
  obtain ⟨hsane, -⟩ := LogCollection.run_sane hlt hrun
  constructor
  · intro h
    by_contra hnot
    rw [not_or] at hnot
    have hmax : 0 < max := Nat.pos_of_ne_zero hnot.1
    obtain ⟨r, hr⟩ := (docIter_of_iterLoop hcoll).1 (h.docIter rejectAll (fun u _ _ => (.OK, u)) ())
    obtain hempty | hpos := Nat.eq_zero_or_pos c.header.nextId
    · rw [LogCollection.iterLoop_empty hempty _ hmax rfl] at hr
      cases hr
    · have hfar : ¬ ∀ id ∈ c.adrift ∪ c.uncached, id < fromId.toNat := fun hall =>
        hnot.2 ⟨hpos, hall⟩
      push Not at hfar
      obtain ⟨id, hid, hle⟩ := hfar
      exact LogCollection.iterLoop_unanswered hsane hid (fun _ _ => rfl) (fun _ => rfl) _ hle hmax rfl r
        hr
  · intro h
    have hends : ∀ {υ : Type} (filter : SizedDocFilter) (func : υ → UInt64 → Bytes → Status × υ)
        (u : υ), ∃ r, s.docIter name max fromId filter func (c.header.nextId - fromId.toNat) u =
          some (.ok r) := by
      intro υ filter func u
      rw [docIter_of_iterLoop hcoll]
      obtain rfl | ⟨hpos, hadrift⟩ := h
      · exact ⟨_, LogCollection.iterLoop_done fun hgo => absurd hgo.1 (Nat.not_lt_zero _)⟩
      · refine LogCollection.iterLoop_ends hpos hsane.nextId_lt le_rfl fun id hle => ?_
        have hle := UInt64.le_iff_toNat_le.1 hle
        exact LogCollection.fetch_answers hlt hrun
          (fun hmem => absurd (hadrift _ (Or.inl hmem)) (Nat.not_lt.2 hle))
          fun hmem => absurd (hadrift _ (Or.inr hmem)) (Nat.not_lt.2 hle)
    refine ⟨hends, fun filter packed ids documents docSizes hlen => ?_⟩
    obtain ⟨r, hr⟩ := hends filter (ArrayListing.callback packed) ⟨0, 0, ids, documents, docSizes⟩
    unfold docList
    rw [hlen, hr]
    exact ⟨_, rfl⟩

/-- An empty document. -/
def noBytes : DocBatch := ⟨[], [0], by decide⟩

/-- Two documents are stored and the first one is erased: two fetches list what is left. -/
theorem docIter_ends_erased :
    ∃ c, Run LogCollection.Returns (.ofFiles 16 16 {})
        [.append [0, 0] (LogCollection.twoDocs 7 8), .erase 0] c ∧
      EndsWithin ((ofDirectory 16 16 fun _ => none).put nameC c) nameC 0 3 2 := by
  have hstore : Run LogCollection.Returns (.ofFiles 16 16 {})
      [.append [0, 0] (LogCollection.twoDocs 7 8)] _ :=
    Run.snoc (Run.nil _) ⟨⟨rfl, le_refl _⟩, _, rfl⟩
  have herase : Run LogCollection.Returns (.ofFiles 16 16 {})
      [.append [0, 0] (LogCollection.twoDocs 7 8), .erase 0] _ :=
    Run.snoc hstore ⟨trivial, _, rfl⟩
  refine ⟨_, herase, (docIter_ends_iff (by decide) herase (collections_put _ _ _) 0 3).2
    (Or.inr ⟨by decide, ?_⟩)⟩
  rintro id (⟨hid, hzero, -⟩ | ⟨-, -, hchunk, -⟩)
  · have hid : id < 2 := hid
    interval_cases id <;> exact absurd hzero (by decide)
  · exact absurd hchunk (Nat.not_lt_zero _)

/-- In an empty collection, `docIter` of one document does not end; nor does it after an empty
document was given to a new id. -/
theorem docIter_runs_forever :
    (∀ fetches, ((ofDirectory 16 16 fun _ => none).collCreate nameC).2.docIter nameC 1 0 rejectAll
        (fun u _ _ => (.OK, u)) fetches () = none) ∧
      ∃ c, Run LogCollection.Returns (.ofFiles 16 16 {}) [.update [0] noBytes] c ∧
        ∀ fetches r, ((ofDirectory 16 16 fun _ => none).put nameC c).docIter nameC 1 0 rejectAll
          (fun u _ _ => (.OK, u)) fetches () ≠ some (.ok r) := by
  constructor
  · intro fetches
    have hcoll : ((ofDirectory 16 16 fun _ => none).collCreate nameC).2.collections nameC =
        some (.ofFiles 16 16 {}) := collections_put _ _ _
    unfold docIter
    rw [hcoll]
    dsimp only
    rw [LogCollection.iterLoop_empty rfl fetches Nat.one_pos rfl]
    rfl
  · have hrun : Run LogCollection.Returns (.ofFiles 16 16 {}) [.update [0] noBytes] _ :=
      Run.snoc (Run.nil _) ⟨⟨rfl, le_refl _⟩, _, rfl⟩
    refine ⟨_, hrun, fun fetches r hr => ?_⟩
    obtain ⟨r', hr'⟩ := (docIter_of_iterLoop (collections_put _ _ _)).1 ⟨r, hr⟩
    exact LogCollection.iterLoop_unanswered (LogCollection.run_sane (by decide) hrun).1
      (Or.inl (show 0 ∈ LogCollection.adrift _ from ⟨by decide, by decide, by decide⟩)) (fun _ _ => rfl)
      (fun _ => rfl) _ le_rfl Nat.one_pos rfl r' hr'

end LogDatabase

end Yokan
