import Yokan.LogReopened

/-!
# Yokan: what the `log` backend reports

The statuses of `append` and `docUpdate` (`src/backends/log.cpp`) against what a later
`read` finds, in the collections that calls lead to, opened again or not. `Reads c id doc` says that
a `read` of `id` returns `doc` whenever the buffer is large enough.

* `append_allOrNothing_iff`: `append` checks sizes against `m_chunk_size`, and writes fail eight
  bytes earlier;
* `docUpdate_neverCreates_iff`: the check of `docUpdate` needs a last id.
-/

namespace Yokan

open Buffer Transition

namespace LogCollection

variable {c c' : LogCollection} {m : IdMap Bytes}

/-- `read` returns the document, when the buffer is large enough. -/
def Reads (c : LogCollection) (id : UInt64) (doc : Bytes) : Prop :=
  ∀ bufSize, doc.length ≤ bufSize → ∃ c', c.read id bufSize = .ok (.OK, doc, c')

/-- An id adrift cannot be read. -/
theorem read_adrift (h : Stands c m) {id : UInt64} (hid : id.toNat ∈ c.adrift) (bufSize : ℕ) :
    Ensures (fun _ => True) (c.read id bufSize) (fun r => r.1 ≠ .OK) := by
  have hlt : c.header.chunkSize < 2 ^ 63 := by
    rw [h.chunked.header_chunkSize]
    exact h.chunked.chunkSize_lt
  have hpresent : (c.entries id.toNat).size ≠ keyNotFound := by
    rw [hid.2.1]
    decide
  unfold LogCollection.read
  rw [if_neg (Nat.not_le.2 hid.1), readEntryMetadata_of_lt h.covers hid.1]
  dsimp only
  rw [if_neg (not_not.2 rfl), if_neg hpresent,
    if_neg (by rw [hid.2.1]; exact Nat.not_lt_zero bufSize)]
  cases hchunk : c.derefChunk (c.entries id.toNat).chunk with
  | error e => trivial
  | ok c' =>
    dsimp only [bind, Except.bind]
    rw [readChunk_adrift hlt hid hchunk]
    exact fun hok => (by cases hok)

/-- A document in a chunk that the cache would have to make room for cannot be read. -/
theorem read_unreached (h : Stands c m) {id : UInt64} {doc : Bytes}
    (hdoc : m.docs id.toNat = some doc) (hnot : ¬ c.Reaches (c.entries id.toNat).chunk)
    {bufSize : ℕ} (hle : doc.length ≤ bufSize) :
    c.read id bufSize = .error .emptyCache := by
  obtain ⟨hlt, hpresent, hp⟩ := h.represents.entry_of_some (h.not_adrift hdoc) hdoc
  unfold LogCollection.read
  rw [if_neg (Nat.not_le.2 hlt), readEntryMetadata_of_lt h.covers hlt]
  dsimp only
  rw [if_neg (not_not.2 rfl), if_neg hpresent, hp.size_eq, if_neg (Nat.not_lt.2 hle),
    derefChunk_of_le h.chunked hp.chunk_le, if_neg hnot]
  rfl

/-- With all entries mapped, documents are read in the chunks that can be got at. -/
theorem Stands.reads_iff (h : Stands c m) {id : UInt64} {doc : Bytes} :
    c.Reads id doc ↔
      m.docs id.toNat = some doc ∧ c.Reaches (c.entries id.toNat).chunk := by
  constructor
  · intro hreads
    by_cases hid : id.toNat ∈ c.adrift
    · obtain ⟨c', hread⟩ := hreads doc.length le_rfl
      exact absurd rfl ((read_adrift h hid doc.length).of_eq_ok hread)
    cases hdoc : m.docs id.toNat with
    | none =>
      obtain ⟨c', hread⟩ := hreads doc.length le_rfl
      rw [read_eq h.represents hid fun old hold => (by rw [hdoc] at hold; cases hold)] at hread
      have hanswer := Except.ok.inj hread
      unfold readAnswer at hanswer
      rw [hdoc] at hanswer
      split_ifs at hanswer <;> cases hanswer
    | some old =>
      obtain ⟨c', hread⟩ := hreads (max doc.length old.length) (le_max_left _ _)
      have hlt : id.toNat < m.next := by
        rw [h.next_eq]
        exact h.represents.lt_next (by rw [hdoc]; rfl)
      have hreaches : c.Reaches (c.entries id.toNat).chunk := by
        by_contra hnot
        rw [read_unreached h hdoc hnot (le_max_right _ _)] at hread
        cases hread
      rw [read_eq h.represents hid fun _ _ _ => hreaches] at hread
      have hanswer := Except.ok.inj hread
      unfold readAnswer at hanswer
      rw [if_neg (Nat.not_le.2 hlt), hdoc] at hanswer
      dsimp only at hanswer
      rw [if_neg (Nat.not_lt.2 (le_max_right _ _))] at hanswer
      exact ⟨congrArg some (Prod.mk.inj (Prod.mk.inj hanswer).2).1, hreaches⟩
  · rintro ⟨hdoc, hreaches⟩ bufSize hle
    have hlt : id.toNat < m.next := by
      rw [h.next_eq]
      exact h.represents.lt_next (by rw [hdoc]; rfl)
    refine ⟨c, ?_⟩
    rw [read_eq h.represents (h.not_adrift hdoc) fun _ _ _ => hreaches]
    unfold readAnswer
    rw [if_neg (Nat.not_le.2 hlt), hdoc]
    dsimp only
    rw [if_neg (Nat.not_lt.2 hle)]

/-- A mapped entry is read alike whatever else is mapped. -/
theorem read_mapping {n : ℕ} {id : UInt64} (h : c.Maps id.toNat) (h' : (c.mapping n).Maps id.toNat)
    (bufSize : ℕ) : (c.mapping n).read id bufSize =
      (c.read id bufSize).map fun r => (r.1, remap n r.2) := by
  unfold LogCollection.read
  rw [readEntryMetadata_of_maps h, readEntryMetadata_of_maps h']
  have hheader : (c.mapping n).header = c.header := rfl
  have hentries : (c.mapping n).entries = c.entries := rfl
  rw [hheader, hentries]
  dsimp only
  rw [if_neg (not_not.2 rfl), if_neg (not_not.2 rfl)]
  split_ifs
  · rfl
  · rfl
  · rfl
  · rw [derefChunk_mapping, bind_map, map_bind]
    refine bind_congr_of fun c₁ _ => ?_
    have hread : (c₁.mapping n).readChunk = c₁.readChunk := rfl
    rw [hread]
    cases c₁.readChunk (c.entries id.toNat).chunk (c.entries id.toNat).offset
      (c.entries id.toNat).size <;> rfl

theorem Kept.reads_iff (h : Kept c m) {id : UInt64} {doc : Bytes} :
    c.Reads id doc ↔ m.docs id.toNat = some doc ∧ c.Maps id.toNat ∧
      c.Reaches (c.entries id.toNat).chunk := by
  by_cases hid : id.toNat < c.header.nextId
  · by_cases hmaps : c.Maps id.toNat
    · have hsame : ∀ bufSize, c.read id bufSize =
          (c.covered.read id bufSize).map fun r => (r.1, remap c.metaSize r.2) := fun bufSize =>
        read_mapping (c := c.covered) (covered_maps hid) hmaps bufSize
      have hreads : c.Reads id doc ↔ c.covered.Reads id doc := by
        refine forall₂_congr fun bufSize _ => ?_
        rw [hsame]
        cases c.covered.read id bufSize with
        | error e => exact ⟨fun ⟨_, h⟩ => (by cases h), fun ⟨_, h⟩ => (by cases h)⟩
        | ok r =>
          obtain ⟨status, bytes, c₁⟩ := r
          constructor
          · rintro ⟨c', hread⟩
            obtain ⟨rfl, hbytes⟩ := Prod.mk.inj (Except.ok.inj hread)
            obtain ⟨rfl, -⟩ := Prod.mk.inj hbytes
            exact ⟨c₁, rfl⟩
          · rintro ⟨c', hread⟩
            obtain ⟨rfl, hbytes⟩ := Prod.mk.inj (Except.ok.inj hread)
            obtain ⟨rfl, -⟩ := Prod.mk.inj hbytes
            exact ⟨_, rfl⟩
      rw [hreads, h.stands.reads_iff, and_iff_right hmaps]
      rfl
    · refine iff_of_false (fun hreads => ?_) fun hall => hmaps hall.2.1
      obtain ⟨c', hread⟩ := hreads doc.length le_rfl
      have hentry : c.readEntryMetadata id.toNat = (.SizeError, {}) :=
        if_pos (Nat.lt_of_not_le hmaps)
      unfold LogCollection.read at hread
      rw [if_neg (Nat.not_le.2 hid), hentry] at hread
      cases hread
  · refine iff_of_false (fun hreads => ?_) fun hall => hid ?_
    · obtain ⟨c', hread⟩ := hreads doc.length le_rfl
      unfold LogCollection.read at hread
      rw [if_pos (Nat.not_lt.1 hid)] at hread
      cases hread
    · exact h.stands.represents.lt_next (by rw [hall.1]; rfl)

/-! ### The chunks of documents -/

/-- Documents stay in a chunk as long as there is room for all of them. -/
theorem chunksFor_all_iff {chunkSize : ℕ} {sizes : List ℕ} {k used : ℕ} (hused : used ≤ chunkSize) :
    (∀ x ∈ chunksFor chunkSize k used sizes, x = k) ↔ used + sizes.sum ≤ chunkSize := by
  induction sizes generalizing used with
  | nil => exact iff_of_true (fun x hx => (by cases hx)) hused
  | cons size sizes ih =>
    unfold chunksFor placeFor
    rw [List.sum_cons, ← Nat.add_assoc]
    by_cases hfits : used + size ≤ chunkSize
    · rw [if_pos hfits]
      dsimp only
      rw [List.forall_mem_cons, and_iff_right rfl, ih hfits]
    · rw [if_neg hfits]
      dsimp only
      rw [List.forall_mem_cons]
      exact iff_of_false (fun hall => absurd hall.1 (Nat.succ_ne_self k)) (by omega)

/-- The documents of a batch fit in one chunk: behind those of the last chunk, or in a new one that
the first of them is too large for the last one for. -/
def InOneChunk (c : LogCollection) (sizes : List ℕ) : Prop :=
  c.used + sizes.sum ≤ c.chunkSize ∨
    c.chunkSize < c.used + sizes.headD 0 ∧ 8 + sizes.sum ≤ c.chunkSize

instance (c : LogCollection) (sizes : List ℕ) : Decidable (c.InOneChunk sizes) :=
  inferInstanceAs (Decidable (_ ∨ _))

theorem forall_eq_getLastD_iff {a d : ℕ} {l : List ℕ} :
    (∀ x ∈ a :: l, x = (a :: l).getLastD d) ↔ ∀ x ∈ l, x = a := by
  rw [List.getLastD_cons]
  constructor
  · intro hall x hx
    exact (hall x (List.mem_cons_of_mem _ hx)).trans (hall a List.mem_cons_self).symm
  · intro hall
    have hlast : l.getLastD a = a := by
      rw [List.getLastD_eq_getLast?]
      cases hget : l.getLast? with
      | none => rfl
      | some x => exact hall x (List.mem_of_getLast? hget)
    rw [hlast]
    exact List.forall_mem_cons.2 ⟨rfl, hall⟩

theorem inOneChunk_iff (h : Chunked c) {sizes : List ℕ}
    (hroom : ∀ size ∈ sizes, size + 8 ≤ c.chunkSize) :
    (∀ k ∈ chunksFor c.chunkSize c.header.lastChunkId c.used sizes,
      k = (chunksFor c.chunkSize c.header.lastChunkId c.used sizes).getLastD
        c.header.lastChunkId) ↔ c.InOneChunk sizes := by
  have hused := h.used_le
  unfold InOneChunk
  cases sizes with
  | nil => exact iff_of_true (fun k hk => (by cases hk)) (Or.inl hused)
  | cons size sizes =>
    have hsize := hroom size List.mem_cons_self
    rw [List.sum_cons, List.headD_cons]
    unfold chunksFor placeFor
    by_cases hfits : c.used + size ≤ c.chunkSize
    · rw [if_pos hfits]
      dsimp only
      rw [forall_eq_getLastD_iff, chunksFor_all_iff hfits]
      omega
    · rw [if_neg hfits]
      dsimp only
      rw [forall_eq_getLastD_iff, chunksFor_all_iff (by omega)]
      omega

/-! ### `append` -/

/-- What the result of an `append` should be: a status other than OK, and nothing has changed, or
the status OK, and all documents can be read under the ids assigned. A batch that passes the check
of the sizes is stored. -/
structure AllOrNothing (c : LogCollection) (batch : DocBatch)
    (r : Status × List UInt64 × LogCollection) : Prop where
  nothing : r.1 ≠ .OK → r.2.2.header.nextId = c.header.nextId ∧
    r.2.2.header.collSize = c.header.collSize ∧ ∀ id doc, r.2.2.Reads id doc ↔ c.Reads id doc
  all : r.1 = .OK →
    r.2.1 = (List.range' c.header.nextId batch.docs.length).map UInt64.ofNat ∧
      ∀ (i : ℕ) id doc, r.2.1[i]? = some id → batch.docs[i]? = some doc → r.2.2.Reads id doc
  admitted : (∀ size ∈ batch.sizes, size ≤ c.chunkSize) → r.1 = .OK

/-- The documents stored are read exactly if their chunks can be got at. -/
theorem append_all_iff {batch : DocBatch} {ids : List UInt64} (h : Stands c m) (hsane : Sane c)
    (hholds : batch.Holds ids.length) (hroom : ∀ size ∈ batch.sizes, size + 8 ≤ c.chunkSize)
    {r : Status × List UInt64 × LogCollection}
    (hr : c.append batch.documents batch.sizes ids = .ok r) :
    r.1 = .OK ∧ r.2.1 = (List.range' c.header.nextId batch.docs.length).map UInt64.ofNat ∧
      ((∀ (i : ℕ) id doc, r.2.1[i]? = some id → batch.docs[i]? = some doc → r.2.2.Reads id doc) ↔
        c.HasRoom ∨ c.InOneChunk batch.sizes) := by
  have hlen : batch.docs.length = ids.length := by
    rw [DocBatch.docs, length_unpack, hholds.1]
  obtain ⟨-, size, hsize, hlarge⟩ | ⟨-, hstands, -, -, hstatus, hids⟩ :=
    (append_stands h hholds).of_eq_ok hr
  · have hle := hroom size hsize
    omega
  have hok : r.1 = .OK := hstatus.2 hroom
  obtain ⟨hassigned, happended⟩ := hids hok
  rw [storable_eq_self.2 hroom] at hstands
  have hstands : Stands r.2.2 (m.append batch.docs) := hstands
  refine ⟨hok, by rw [hassigned, hlen], ?_⟩
  -- no id is cut off
  have hnext : c.header.nextId + ids.length < 2 ^ 64 := by
    obtain ⟨hsane', -⟩ := (append_sane hsane hholds).of_eq_ok hr
    have hbound := hsane'.nextId_lt
    rwa [← hstands.next_eq, IdMap.next_append, h.next_eq, hlen] at hbound
  have hreads : ∀ i (hi : i < batch.docs.length),
      r.2.2.Reads (UInt64.ofNat (c.header.nextId + i)) batch.docs[i] ↔
        r.2.2.Reaches (r.2.2.entries (c.header.nextId + i)).chunk := by
    intro i hi
    rw [hstands.reads_iff, UInt64.toNat_ofNat', Nat.mod_eq_of_lt (by omega), ← h.next_eq,
      and_iff_right (IdMap.docs_append_next (List.getElem?_eq_getElem hi) m)]
  have hchunks := happended.chunks_eq
  have hcount : batch.sizes.length = batch.docs.length := hholds.1.symm.trans hlen.symm
  rw [hcount] at hchunks
  have hreaches : ∀ k, r.2.2.Reaches k ↔ c.HasRoom ∨ k = (chunksFor c.chunkSize
      c.header.lastChunkId c.used batch.sizes).getLastD c.header.lastChunkId := by
    intro k
    have hroomy : r.2.2.HasRoom ↔ c.HasRoom := by
      unfold HasRoom
      rw [happended.cacheSize_eq]
    unfold Reaches
    rw [happended.lastChunkId_eq, hroomy, or_comm]
  rw [← inOneChunk_iff h.chunked hroom, ← hchunks]
  constructor
  · intro hall
    refine or_iff_not_imp_left.2 fun hnot k hk => ?_
    obtain ⟨id, hid, rfl⟩ := List.mem_map.1 hk
    obtain ⟨i, hi, rfl⟩ := List.mem_range'.1 hid
    rw [Nat.one_mul]
    have hread := hall i (UInt64.ofNat (c.header.nextId + i)) batch.docs[i]
      (by rw [hassigned, List.getElem?_map, List.getElem?_range' (hlen ▸ hi), Nat.one_mul]; rfl)
      (List.getElem?_eq_getElem hi)
    rw [hreads i hi, hreaches, hchunks.symm] at hread
    exact hread.resolve_left hnot
  · intro hall i id doc hid hdoc
    obtain ⟨hi, rfl⟩ := List.getElem?_eq_some_iff.1 hdoc
    rw [hassigned, List.getElem?_map, List.getElem?_range' (hlen ▸ hi), Nat.one_mul] at hid
    obtain rfl := Option.some.inj hid
    rw [hreads i hi, hreaches, ← hchunks]
    refine hall.imp_right fun hlast => hlast _ (List.mem_map.2 ⟨_, ?_, rfl⟩)
    exact List.mem_range'.2 ⟨i, hi, by rw [Nat.one_mul]⟩

/-- An `append` that returns is all or nothing exactly if some document is larger than a chunk, or
all of them leave room for the first word of a chunk, the first of their entries can be mapped, and
they can be got at afterwards. -/
theorem append_allOrNothing_iff {chunkSize : ℕ} {cacheSize : UInt64} {events : List LogEvent}
    (hge : 8 ≤ chunkSize) (hlt : chunkSize < 2 ^ 63)
    (hrun : Run Happens (ofFiles chunkSize cacheSize {}) events c)
    {batch : DocBatch} {ids : List UInt64} (hholds : batch.Holds ids.length)
    {r : Status × List UInt64 × LogCollection}
    (hr : c.append batch.documents batch.sizes ids = .ok r) :
    AllOrNothing c batch r ↔
      (∃ size ∈ batch.sizes, chunkSize < size) ∨
        (∀ size ∈ batch.sizes, size + 8 ≤ chunkSize) ∧
          (batch.sizes = [] ∨ c.doubled.Maps c.header.nextId) ∧
          (c.HasRoom ∨ c.InOneChunk batch.sizes) := by
  obtain ⟨rfl, m, h⟩ := run_kept hge hlt hrun
  by_cases hlarge : ∃ size ∈ batch.sizes, c.chunkSize < size
  · rw [append_refused hlarge] at hr
    obtain rfl := Except.ok.inj hr
    refine iff_of_true ⟨fun _ => ⟨rfl, rfl, fun _ _ => Iff.rfl⟩, fun hok => (by cases hok),
      fun hall => ?_⟩ (Or.inl hlarge)
    obtain ⟨size, hsize, hlarge⟩ := hlarge
    exact absurd (hall size hsize) (Nat.not_le.2 hlarge)
  rw [or_iff_right hlarge]
  have hadmitted : ∀ size ∈ batch.sizes, size ≤ c.chunkSize := fun size hsize =>
    Nat.not_lt.1 fun hlt => hlarge ⟨size, hsize, hlt⟩
  -- an empty batch changes nothing, and needs no room
  by_cases hnil : batch.sizes = []
  · have hids : ids = [] := by
      rw [← List.length_eq_zero_iff, hholds.1, hnil]
      rfl
    have hdocs : batch.docs = [] := by
      rw [← List.length_eq_zero_iff, DocBatch.docs, length_unpack, hnil]
      rfl
    rw [hnil, append_of_admitted h.chunked (fun size hsize => (by cases hsize))] at hr
    obtain rfl := Except.ok.inj hr
    refine iff_of_true ⟨fun hne => absurd rfl hne, fun _ => ⟨?_, fun i id doc _ hdoc => ?_⟩,
      fun _ => rfl⟩ ⟨?_, Or.inl hnil, Or.inr (Or.inl ?_)⟩
    · rw [hdocs, hids]
      rfl
    · rw [hdocs] at hdoc
      cases hdoc
    · rw [hnil]
      exact fun size hsize => (by cases hsize)
    · rw [hnil]
      exact h.chunked.used_le
  rw [or_iff_right hnil]
  obtain ⟨hfails, -, -, hwhy⟩ | ⟨hmaps, n, ⟨hstands, hsane⟩, hsame⟩ :=
    (append_kept h hnil hadmitted batch.documents ids).of_eq_ok hr
  · refine iff_of_false (fun hall => hfails (hall.admitted hadmitted)) fun hall => ?_
    obtain ⟨size, hsize, hlarge⟩ | hnot := hwhy
    · exact absurd (hall.1 size hsize) (Nat.not_le.2 hlarge)
    · exact hnot hall.2.1
  · -- the first entry is mapped: only the sizes can stop the loop now
    by_cases hroom : ∀ size ∈ batch.sizes, size + 8 ≤ c.chunkSize
    · obtain ⟨hok, hassigned, hreads⟩ := append_all_iff hstands hsane hholds hroom hsame
      rw [and_iff_right hroom, and_iff_right hmaps]
      refine Iff.trans ⟨fun hall => (hall.all hok).2, fun hall => ?_⟩ hreads
      exact ⟨fun hne => absurd hok hne, fun _ => ⟨hassigned, hall⟩, fun _ => hok⟩
    · refine iff_of_false (fun hall => hroom ?_) fun hall => hroom hall.1
      obtain ⟨-, size, hsize, hlt⟩ | ⟨-, -, -, -, hstatus, -⟩ :=
        (append_stands hstands hholds).of_eq_ok hsame
      · exact absurd (hadmitted size hsize) (Nat.not_le.2 hlt)
      · exact hstatus.1 (hall.admitted hadmitted)

/-- Two documents stored behind another one in a chunk of sixteen bytes, in a collection that was
opened again. -/
theorem append_allOrNothing_two :
    ∃ c r, Run Happens (ofFiles 16 16 {}) [.op (.append [0] (oneDoc 7)), .reopen 0] c ∧
      c.append (twoDocs 7 8).documents (twoDocs 7 8).sizes [0, 0] = .ok r ∧
        AllOrNothing c (twoDocs 7 8) r := by
  have hstore : Run Happens (ofFiles 16 16 {}) [.op (.append [0] (oneDoc 7))] _ :=
    Run.snoc (Run.nil _) ⟨⟨rfl, le_refl _⟩, _, rfl⟩
  have hreopen : Run Happens (ofFiles 16 16 {}) [.op (.append [0] (oneDoc 7)), .reopen 0] _ :=
    Run.snoc hstore rfl
  exact ⟨_, _, hreopen, rfl, (append_allOrNothing_iff (by decide) (by decide) hreopen
    ⟨rfl, le_refl _⟩ rfl).2 (Or.inr (by decide))⟩

/-- A document of one byte, and one of nine bytes. -/
def oneAndNine : DocBatch := ⟨[0, 1, 2, 3, 4, 5, 6, 7, 8, 9], [1, 9], by decide⟩

/-- In chunks of sixteen bytes, the first of them is stored, and the status is an error. -/
theorem append_stores_part :
    ∃ r, (ofFiles 16 16 {}).append oneAndNine.documents oneAndNine.sizes [0, 0] = .ok r ∧
      r.1 = .SizeError ∧ r.2.2.header.nextId = 1 ∧ r.2.2.header.collSize = 1 ∧
      ¬ AllOrNothing (ofFiles 16 16 {}) oneAndNine r :=
  ⟨_, rfl, rfl, rfl, rfl, fun h => absurd (h.nothing (by decide)).1 (by decide)⟩

end LogCollection

/-! ### `docUpdate` -/

namespace LogDatabase

open LogCollection

variable {s : LogDatabase} {c : LogCollection} {m : IdMap Bytes} {name : CString}

/-- What `docUpdate` without `YOKAN_MODE_UPDATE_NEW` should do: it fails and changes nothing if some
id was not assigned, and leaves `next_id` where it is otherwise. -/
structure NeverCreates (s : LogDatabase) (name : CString) (c : LogCollection) (mode : Mode)
    (ids : List UInt64) (batch : DocBatch) : Prop where
  invalid : (∃ id ∈ ids, c.header.nextId ≤ id.toNat) →
    s.docUpdate name mode ids batch.documents batch.sizes = .ok (.InvalidID, s)
  valid : (∀ id ∈ ids, id.toNat < c.header.nextId) → ∀ r,
    s.docUpdate name mode ids batch.documents batch.sizes = .ok r →
      ∃ c', r.2.collections name = some c' ∧ c'.header.nextId = c.header.nextId

/-- What passes the check goes to `update`. -/
theorem docUpdate_of_le (hcoll : s.collections name = some c) (mode : Mode) {ids : List UInt64}
    (hall : ∀ id ∈ ids, id ≤ c.lastId) (documents : Bytes) (sizes : List ℕ) :
    s.docUpdate name mode ids documents sizes =
      (c.update ids documents sizes).map fun r => (r.1, s.put name r.2) := by
  have hno : ¬ (mode.has .updateNew = false ∧ ids.any (fun id => c.lastId < id) = true) := by
    rintro ⟨-, hany⟩
    obtain ⟨id, hid, hgt⟩ := List.any_eq_true.1 hany
    exact absurd (hall id hid) (UInt64.not_le.2 (of_decide_eq_true hgt))
  unfold docUpdate
  rw [hcoll]
  dsimp only
  rw [if_neg hno]
  cases c.update ids documents sizes <;> rfl

/-- An update of a collection without ids does not report an invalid id. -/
theorem update_of_empty (h : Kept c m) (hzero : c.header.nextId = 0) {batch : DocBatch}
    {ids : List UInt64} (hholds : batch.Holds ids.length)
    (hsizes : ∀ size ∈ batch.sizes, size + 8 ≤ c.chunkSize) :
    Ensures (fun _ => True) (c.update ids batch.documents batch.sizes) (fun r => r.1 = .OK) := by
  obtain ⟨hstands, -⟩ | ⟨-, hmany⟩ := h.cases
  · refine (update_stands hstands hholds).mono fun r hr => ?_
    obtain ⟨-, size, hsize, hlarge⟩ | hupdates := hr
    · have hle := hsizes size hsize
      omega
    · exact hupdates.status
  · omega

/-- An update of ids that were assigned assigns none. -/
theorem update_of_assigned (h : Kept c m) {batch : DocBatch} {ids : List UInt64}
    (hholds : batch.Holds ids.length) (hids : ids ≠ [])
    (hsizes : ∀ size ∈ batch.sizes, size ≤ c.chunkSize)
    (hall : ∀ id ∈ ids, id.toNat < c.header.nextId) :
    Ensures (fun _ => True) (c.update ids batch.documents batch.sizes) (fun r =>
      r.2.header.nextId = c.header.nextId) := by
  have hmax := hall _ (maxID_mem hids)
  refine (update_kept h hholds hids hsizes).mono fun r hr => ?_
  obtain ⟨-, -, -, hsame, -⟩ | ⟨-, c₁, -, hcreated, h₁, hmaps, hpasses⟩ := hr
  · exact hsame hmax
  · have hnext : c₁.header.nextId = c.header.nextId := by
      rw [hcreated.header_eq]
      show c.header.nextId + ((maxID ids).toNat + 1 - c.header.nextId) = _
      omega
    obtain ⟨-, -, hsame, -⟩ := (passes_kept h₁ hholds (by rw [hnext]; exact hall) hids
      (by rw [hcreated.chunkSize_eq]; exact hsizes) hmaps).of_eq_ok hpasses
    exact hsame.trans hnext

/-- `docUpdate` without `YOKAN_MODE_UPDATE_NEW` never creates documents exactly if some id was
assigned before. -/
theorem docUpdate_neverCreates_iff {chunkSize : ℕ} {cacheSize : UInt64} {events : List LogEvent}
    (hlt : chunkSize < 2 ^ 63) (hrun : Run Happens (ofFiles chunkSize cacheSize {}) events c)
    (hcoll : s.collections name = some c) {mode : Mode} (hmode : mode.has .updateNew = false)
    {batch : DocBatch} {ids : List UInt64} (hholds : batch.Holds ids.length) (hids : ids ≠ [])
    (hsizes : ∀ size ∈ batch.sizes, size + 8 ≤ chunkSize) :
    NeverCreates s name c mode ids batch ↔ 0 < c.header.nextId := by
  have hge : 8 ≤ chunkSize := by
    obtain ⟨size, hsize⟩ : ∃ size, size ∈ batch.sizes := List.exists_mem_of_ne_nil _ fun hnil => by
      have hcount := hholds.1
      rw [hnil] at hcount
      exact hids (List.length_eq_zero_iff.1 hcount)
    have hle := hsizes size hsize
    omega
  obtain ⟨rfl, m, h⟩ := run_kept hge hlt hrun
  have hadmitted : ∀ size ∈ batch.sizes, size ≤ c.chunkSize := fun size hsize =>
    (Nat.le_add_right _ _).trans (hsizes size hsize)
  have hnext : c.header.nextId < 2 ^ 64 := by
    have hbound := h.nextId_lt
    unfold sizeofEntry at hbound
    omega
  constructor
  · intro hnever
    by_contra hzero
    -- the last id wraps, so that no id is refused, and the update creates entries
    have hzero : c.header.nextId = 0 := Nat.eq_zero_of_not_pos hzero
    obtain ⟨id, hid⟩ := List.exists_mem_of_ne_nil ids hids
    have hinvalid := hnever.invalid ⟨id, hid, by rw [hzero]; exact Nat.zero_le _⟩
    rw [docUpdate_of_le hcoll mode fun id _ => le_lastId_of_empty hzero id] at hinvalid
    cases hr : c.update ids batch.documents batch.sizes with
    | error e => rw [hr] at hinvalid; cases hinvalid
    | ok r =>
      rw [hr] at hinvalid
      have hok := (update_of_empty h hzero hholds hsizes).of_eq_ok hr
      rw [(Prod.mk.inj (Except.ok.inj hinvalid)).1] at hok
      cases hok
  · intro hpos
    -- some id is assigned, and the last id is the one before `next_id`
    have hiff := le_lastId_iff hpos hnext
    constructor
    case invalid =>
      rintro ⟨id, hid, hle⟩
      have hany : ids.any (fun id => c.lastId < id) = true := by
        refine List.any_eq_true.2 ⟨id, hid, decide_eq_true (UInt64.not_le.1 fun hle' => ?_)⟩
        exact absurd ((hiff id).1 hle') (Nat.not_lt.2 hle)
      unfold docUpdate
      rw [hcoll]
      dsimp only
      rw [if_pos ⟨hmode, hany⟩]
    case valid =>
      intro hall r hr
      rw [docUpdate_of_le hcoll mode fun id hid => (hiff id).2 (hall id hid)] at hr
      cases hupd : c.update ids batch.documents batch.sizes with
      | error e => rw [hupd] at hr; cases hr
      | ok r' =>
        rw [hupd] at hr
        obtain rfl := Except.ok.inj hr
        exact ⟨r'.2, collections_put ..,
          (update_of_assigned h hholds hids hadmitted hall).of_eq_ok hupd⟩

/-- With one document stored, and the collection opened again, an update of another id is refused,
and one of its own id creates nothing. -/
theorem docUpdate_neverCreates_one :
    ∃ c, Run Happens (.ofFiles 16 16 {}) [.op (.append [0] (oneDoc 7)), .reopen 16] c ∧
      NeverCreates ((ofDirectory 16 16 fun _ => none).put nameC c) nameC c .default [0, 1]
        (twoDocs 8 9) ∧
      NeverCreates ((ofDirectory 16 16 fun _ => none).put nameC c) nameC c .default [0]
        (oneDoc 8) := by
  have hstore : Run Happens (.ofFiles 16 16 {}) [.op (.append [0] (oneDoc 7))] _ :=
    Run.snoc (Run.nil _) ⟨⟨rfl, le_refl _⟩, _, rfl⟩
  have hreopen : Run Happens (.ofFiles 16 16 {}) [.op (.append [0] (oneDoc 7)), .reopen 16] _ :=
    Run.snoc hstore rfl
  refine ⟨_, hreopen, ?_, ?_⟩
  · exact (docUpdate_neverCreates_iff (by decide) hreopen (collections_put ..) (by decide)
      ⟨rfl, le_refl _⟩ (by decide) (by decide)).2 (by decide)
  · exact (docUpdate_neverCreates_iff (by decide) hreopen (collections_put ..) (by decide)
      ⟨rfl, le_refl _⟩ (by decide) (by decide)).2 (by decide)

/-- In an empty collection, an update creates a document. -/
theorem docUpdate_creates :
    ∃ s, ((ofDirectory 16 16 fun _ => none).collCreate nameC).2.docUpdate nameC .default [0]
        (oneDoc 7).documents (oneDoc 7).sizes = .ok (.OK, s) ∧ s.collSize nameC 0 = (.OK, 1) ∧
      ¬ NeverCreates ((ofDirectory 16 16 fun _ => none).collCreate nameC).2 nameC
        (.ofFiles 16 16 {}) .default [0] (oneDoc 7) := by
  refine ⟨_, rfl, rfl, fun h => ?_⟩
  have hinvalid := h.invalid ⟨0, List.mem_cons_self, le_rfl⟩
  have hstatus := congrArg (Except.map fun r : Status × LogDatabase => r.1) hinvalid
  exact absurd (show Status.OK = .InvalidID from Except.ok.inj hstatus) (by decide)

end LogDatabase

end Yokan
