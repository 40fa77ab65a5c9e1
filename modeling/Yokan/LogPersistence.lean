import Yokan.LogIndex

/-!
# Yokan: a `log` database closed and opened again

The files of a database hold what its mappings hold, so that closing it loses nothing. The
constructor maps 262144 bytes of the metadata file of each collection, which are the entries of the
ids up to 8190; it does not look at `next_id`.

* `reopen_eq`: a collection opened again is the old one with that mapping;
* `log_persists`: it behaves as the old one exactly when `next_id` is at most 8191;
* `log_persists_not`: a collection with one more id;
* `drop_forgets_nothing`: a dropped collection is there when it is created again, and when the
  database is opened again.
-/

namespace Yokan

open Buffer Transition

namespace LogCollection

variable {c c' : LogCollection}

/-- The files of a collection opened again, maybe with another size of its cache: the metadata file
is mapped anew. -/
theorem ofFiles_toCollectionFiles (hheader : c.header.chunkSize = c.chunkSize)
    (hlast : c.chunkSize ≤ (c.chunks c.header.lastChunkId).length) (cacheSize : UInt64) :
    ofFiles c.chunkSize cacheSize c.toCollectionFiles =
      { c with metaSize := 8 * 8 * 4096, cacheSize } := by
  have hsame : { c.header with chunkSize := c.chunkSize } = c.header := by
    rw [← hheader]
  have hmap : mapChunk { c with metaSize := 8 * 8 * 4096, cacheSize } c.header.lastChunkId =
      { c with metaSize := 8 * 8 * 4096, cacheSize } := by
    unfold mapChunk
    dsimp only
    rw [mapFile_of_le (by rw [hheader]; exact hlast), Function.update_eq_self]
  have hchunk : getChunkFromID { c with metaSize := 8 * 8 * 4096, cacheSize }
      c.header.lastChunkId = .ok (some { c with metaSize := 8 * 8 * 4096, cacheSize }) := by
    unfold getChunkFromID
    rw [if_pos rfl, hmap]
  unfold ofFiles
  dsimp only
  rw [hsame, hchunk]
  rfl

/-- With the same cache. -/
theorem reopen_eq (h : Sane c) :
    ofFiles c.chunkSize c.cacheSize c.toCollectionFiles =
      { c with metaSize := 8 * 8 * 4096 } :=
  ofFiles_toCollectionFiles h.header_chunkSize h.length_last c.cacheSize

/-- What `docLoad` answers, without the collection that it leaves. -/
def loaded : Outcome (Status × Bytes × List ℕ × LogCollection) → Outcome (Status × Bytes × List ℕ) :=
  Except.map fun r => (r.1, r.2.1, r.2.2.1)

/-- Two collections that answer alike. -/
structure SameAnswers (c c' : LogCollection) : Prop where
  collSize : c'.size = c.size
  collLastID : c'.lastId = c.lastId
  docSize : ∀ docs, c'.sizeLoop docs = c.sizeLoop docs
  docLoadPacked : ∀ ids documents,
    loaded (c'.loadPackedLoop ids 0 documents.length documents []) =
      loaded (c.loadPackedLoop ids 0 documents.length documents [])
  docLoadSlots : ∀ slots documents,
    loaded (c'.loadSlotsLoop slots 0 documents []) = loaded (c.loadSlotsLoop slots 0 documents [])

theorem SameAnswers.rfl : SameAnswers c c :=
  ⟨Eq.refl _, Eq.refl _, fun _ => Eq.refl _, fun _ _ => Eq.refl _, fun _ _ => Eq.refl _⟩

/-- What the calls of a list answer: their statuses, and the ids that `append` assigns. -/
def answers : List LogOp → LogCollection → Outcome (List (Status × List UInt64) × LogCollection)
  | [], c => .ok ([], c)
  | .append ids batch :: ops, c => do
    let (status, ids, c) ← c.append batch.documents batch.sizes ids
    let (rest, c) ← answers ops c
    .ok ((status, ids) :: rest, c)
  | op :: ops, c => do
    let (status, c) ← c.apply op
    let (rest, c) ← answers ops c
    .ok ((status, []) :: rest, c)

/-- Two outcomes with the same answers, or the same failure. -/
inductive Alike {α : Type} : Outcome (α × LogCollection) → Outcome (α × LogCollection) → Prop
  | ok {a : α} {c c' : LogCollection} (h : SameAnswers c c') : Alike (.ok (a, c)) (.ok (a, c'))
  | error (e : Failure) : Alike (.error e) (.error e)

/-- The second collection behaves as the first one: it answers alike, and does so after any later
calls of `append` and `erase`, which also answer alike. -/
def Persists (c c' : LogCollection) : Prop :=
  ∀ ops, (∀ op ∈ ops, ∀ ids batch, op ≠ LogOp.update ids batch) →
    Alike (answers ops c) (answers ops c')

theorem Persists.rfl : Persists c c := by
  intro ops _
  rcases answers ops c with e | ⟨a, c'⟩
  · exact Alike.error e
  · exact Alike.ok SameAnswers.rfl

/-- An id past the new mapping is answered with an error. -/
theorem not_persists (h : Sane c) (hnext : 8192 ≤ c.header.nextId) :
    ¬ Persists c { c with metaSize := 8 * 8 * 4096 } := by
  intro hp
  have hnil := hp [] nofun
  have hsame : SameAnswers c { c with metaSize := 8 * 8 * 4096 } := by
    cases hnil with
    | ok h => exact h
  have hid : (8191 : UInt64).toNat < c.header.nextId := hnext
  have hold : c.sizeLoop [(8191, 0)] = (.OK, [(c.entries 8191).size]) := by
    unfold sizeLoop entrySize
    rw [if_neg (Nat.not_le.2 hid), readEntryMetadata_of_lt h.covers hid]
    rfl
  have hnew : sizeLoop { c with metaSize := 8 * 8 * 4096 } [(8191, 0)] = (.SizeError, [0]) := by
    unfold sizeLoop entrySize
    rw [if_neg (Nat.not_le.2 hid)]
    rfl
  have hdocs := hsame.docSize [(8191, 0)]
  rw [hold, hnew] at hdocs
  cases hdocs

end LogCollection

namespace LogDatabase

open LogCollection

variable {s t : LogDatabase} {name : CString} {c : LogCollection}

/-- The collections of a database that is closed and opened again. -/
theorem reopen_collections (hcoll : s.collections name = some c) :
    s.reopen.collections name = some (ofFiles s.chunkSize s.cacheSize c.toCollectionFiles) := by
  show (s.files name).map _ = _
  unfold files
  rw [hcoll]
  rfl

/-- After any run on a collection, the collection opened again behaves as before exactly when it
has at most 8191 ids. -/
theorem log_persists {ops : List LogOp} {n : CString} (hlt : s.chunkSize < 2 ^ 63)
    (hrun : Run Returns (ofFiles s.chunkSize s.cacheSize {}) ops c)
    (hcoll : s.collections n = some c) :
    ∃ c', s.reopen.collections n = some c' ∧ (Persists c c' ↔ c.header.nextId ≤ 8191) := by
  obtain ⟨hc, hchunkSize⟩ := run_sane hlt hrun
  have hcacheSize : c.cacheSize = s.cacheSize := run_cacheSize (fun _ _ _ hcall => hcall.2) hrun
  refine ⟨_, reopen_collections hcoll, ?_⟩
  rw [← hchunkSize, ← hcacheSize, reopen_eq hc]
  constructor
  · intro hp
    by_contra hnext
    exact not_persists hc (by omega) hp
  · intro hnext
    rw [← hc.metaSize_small hnext]
    exact Persists.rfl

/-- A run that stores a document, with a database around it. -/
theorem log_persists_stored :
    ∃ c c', Run Returns (ofFiles 16 16 {}) [.append [0] (oneDoc 7)] c ∧
      (reopen ⟨16, 16, fun _ => some c, fun _ => none⟩).collections nameC = some c' ∧
        (Persists c c' ↔ c.header.nextId ≤ 8191) := by
  have hstore : Run Returns (ofFiles 16 16 {}) [.append [0] (oneDoc 7)] _ :=
    Run.snoc (Run.nil _) ⟨⟨rfl, le_refl _⟩, _, rfl⟩
  obtain ⟨c', hc', hiff⟩ := log_persists (s := ⟨16, 16, fun _ => some _, fun _ => none⟩) (n := nameC)
    (show 16 < 2 ^ 63 by decide) hstore rfl
  exact ⟨_, c', hstore, hc', hiff⟩

/-! ### Past the mapping -/

/-- The metadata file grows once without a failure. -/
theorem writeEntryMetadata_isOk (h : Sane c) (hn : c.header.nextId ≤ 8191) (e : EntryMetadata) :
    ∃ r, c.writeEntryMetadata c.header.nextId e = .ok r := by
  have hmeta := h.metaSize_small hn
  unfold writeEntryMetadata extend
  rw [hmeta]
  by_cases hgrow : 8 * 8 * 4096 < sizeofEntry + c.header.nextId * sizeofEntry + sizeofEntry
  · have hmore : ¬ 2 * (8 * 8 * 4096) ≤ 8 * 8 * 4096 := by decide
    have hlt : 2 * (8 * 8 * 4096) < 2 ^ 63 := by decide
    rw [if_pos hgrow, if_neg hmore, if_pos hlt]
    dsimp only [bind, Except.bind]
    split_ifs
    · exact ⟨_, rfl⟩
    · exact ⟨_, rfl⟩
  · rw [if_neg hgrow]
    dsimp only [bind, Except.bind]
    split_ifs
    · exact ⟨_, rfl⟩
    · exact ⟨_, rfl⟩

theorem createEntries_isOk {n : ℕ} (h : Sane c) (hn : c.header.nextId + n ≤ 8192) :
    ∃ r, createEntries n c = .ok r := by
  induction n generalizing c with
  | zero => exact ⟨_, rfl⟩
  | succ n ih =>
    obtain ⟨r, hr⟩ := writeEntryMetadata_isOk h (by omega)
      ⟨c.header.lastChunkId, keyNotFound, keyNotFound, 0⟩
    obtain ⟨hms, rfl⟩ := Ensures.of_eq_ok (writeEntryMetadata_sane h le_rfl _) hr
    have hsane := withEntry_sane h le_rfl hms
      (e := ⟨c.header.lastChunkId, keyNotFound, keyNotFound, 0⟩) (fun hne => absurd rfl hne)
      c.header.collSize
    rw [max_eq_right (Nat.le_succ _)] at hsane
    have hn' : c.header.nextId + 1 + n ≤ 8192 := by omega
    unfold createEntries
    rw [hr]
    exact ih hsane hn'

/-- The entries of the ids up to 8191 are created without a failure. -/
theorem createEntries_total {m : IdMap Bytes} {n : ℕ} (hrep : Represents c m ∅) (h : Sane c)
    (hn : c.header.nextId + n ≤ 8192) :
    Ensures (fun _ => False) (createEntries n c) (fun r =>
      r.1 = .OK ∧ r.2.chunkSize = c.chunkSize ∧ r.2.header.nextId = c.header.nextId + n ∧
        r.2.allocatedFor = c.allocatedFor ∧ Represents r.2 ⟨m.next + n, m.docs⟩ ∅) := by
  obtain ⟨r, hr⟩ := createEntries_isOk h hn
  have hspec := Ensures.of_eq_ok (createEntries_spec hrep) hr
  rw [hr]
  exact hspec

/-- An update of ids up to 8191 returns. -/
theorem update_total {m : IdMap Bytes} {batch : DocBatch} {ids : List UInt64}
    (hrep : Represents c m ∅) (h : Sane c) (hroom : c.HasRoom) (hexact : batch.Exact ids.length)
    (hsizes : ∀ size ∈ batch.sizes, size + 8 ≤ c.chunkSize) (hs : Sound c ids batch)
    (hmax : (maxID ids).toNat ≤ 8191) (hnext : c.header.nextId ≤ 8192) :
    ∃ r, c.update ids batch.documents batch.sizes = .ok r ∧
      Represents r.2 (m.write (under ids batch)) ∅ := by
  have hspec := update_spec_of_create hrep (Or.inl hroom) hexact hsizes hs
    (createEntries_total hrep h (by omega))
  cases hupdate : c.update ids batch.documents batch.sizes with
  | error err =>
    rw [hupdate] at hspec
    exact absurd hspec not_false
  | ok r =>
    rw [hupdate] at hspec
    exact ⟨r, rfl, hspec.2.2⟩

/-- One document whose id is past the mapping of the constructor. -/
theorem log_persists_not :
    ∃ c c', Run Returns (ofFiles 16 16 {}) [.update [8191] (oneDoc 7)] c ∧
      (reopen ⟨16, 16, fun _ => some c, fun _ => none⟩).collections nameC = some c' ∧
        ¬ Persists c c' := by
  have hrep : Represents (ofFiles 16 16 {}) .empty ∅ := represents_ofFiles 16 (by decide) (by decide)
  have hlisted : ∀ id doc, doc ∈ IdMap.listed id (under [8191] (oneDoc 7)) → doc.length = 1 := by
    intro id doc hdoc
    have hmem := IdMap.mem_listed.1 hdoc
    obtain ⟨-, rfl⟩ := Prod.mk.inj (List.mem_singleton.1 hmem)
    rfl
  have halloc : ∀ id, (ofFiles 16 16 {}).allocatedFor id = 0 := fun id => if_neg (Nat.not_lt_zero id)
  have hsound : Sound (ofFiles 16 16 {}) [8191] (oneDoc 7) := by
    refine ⟨List.cons_ne_nil _ _, fun id doc hdoc hfit => ?_, fun id doc hdoc hfit => ?_⟩
    · rw [halloc, hlisted id doc hdoc] at hfit
      exact absurd hfit (by decide)
    · rw [halloc, hlisted id doc (List.mem_of_getLast? hdoc)] at hfit
      exact absurd hfit (by decide)
  have hmax : (maxID [8191]).toNat = 8191 := rfl
  have hsizes : ∀ size ∈ (oneDoc 7).sizes, size + 8 ≤ 16 := by simp [oneDoc]
  obtain ⟨r, hupdate, hrep'⟩ := update_total hrep (sane_ofFiles 16 (by decide)) (by decide) ⟨rfl, rfl⟩ hsizes
    hsound hmax.le (Nat.zero_le _)
  have hrun : Run Returns (ofFiles 16 16 {}) [.update [8191] (oneDoc 7)] r.2 :=
    Run.snoc (Run.nil _) ⟨⟨rfl, le_refl _⟩, r.1, hupdate⟩
  have hnext : 8192 = r.2.header.nextId := hrep'.next_eq
  obtain ⟨c', hc', hiff⟩ := log_persists (s := ⟨16, 16, fun _ => some r.2, fun _ => none⟩) (n := nameC)
    (show 16 < 2 ^ 63 by decide) hrun rfl
  exact ⟨r.2, c', hrun, hc', fun hp => absurd (hiff.1 hp) (by omega)⟩

/-! ### Dropped collections -/

/-- What a drop of `name` from `s` is to leave behind: a new collection of that name is empty, a
database opened again has no such collection, and the others are as they were. -/
structure Drops (s t : LogDatabase) (name : CString) : Prop where
  created : ∃ c, (t.collCreate name).2.collections name = some c ∧ c.size = 0 ∧
    (∀ id bufSize r, c.read id bufSize = .ok r → r.1 = .InvalidID ∨ r.1 = .NotFound) ∧
    ∀ (batch : DocBatch) ids r, batch.Holds ids.length →
      c.append batch.documents batch.sizes ids = .ok r → r.1 = .OK →
        r.2.1 = (List.range ids.length).map UInt64.ofNat
  reopened : t.reopen.collections name = none
  others : ∀ other, other ≠ name → t.collections other = s.collections other

/-- The constructor keeps the header. -/
theorem header_ofFiles (chunkSize : ℕ) (cacheSize : UInt64) (files : CollectionFiles) :
    (ofFiles chunkSize cacheSize files).header = { files.header with chunkSize } := by
  unfold ofFiles getChunkFromID
  dsimp only
  rw [if_pos rfl]
  rfl

/-- A drop only takes the collection off the list of open ones: its files are found by
`collCreate`, and by the constructor. -/
theorem drop_forgets_nothing (hdrop : s.collDrop name = (.OK, t)) :
    ∃ c, s.collections name = some c ∧
      (t.collCreate name).2.collections name = some (ofFiles s.chunkSize s.cacheSize c.toCollectionFiles) ∧
      t.reopen.collections name = some (ofFiles s.chunkSize s.cacheSize c.toCollectionFiles) ∧
      (ofFiles s.chunkSize s.cacheSize c.toCollectionFiles).size = c.size ∧
      (ofFiles s.chunkSize s.cacheSize c.toCollectionFiles).lastId = c.lastId ∧
      (∀ other, other ≠ name → t.collections other = s.collections other) ∧
      ¬ Drops s t name := by
  unfold collDrop at hdrop
  cases hcoll : s.collections name with
  | none =>
    rw [hcoll] at hdrop
    cases hdrop
  | some c =>
    rw [hcoll] at hdrop
    obtain ⟨-, rfl⟩ := Prod.mk.inj hdrop
    have hgone : Function.update s.collections name none name = none := Function.update_self _ _ _
    have hfiles : Function.update s.directory name (some c.toCollectionFiles) name =
        some c.toCollectionFiles := Function.update_self _ _ _
    have hcreate : (collCreate { s with
        collections := Function.update s.collections name none
        directory := Function.update s.directory name (some c.toCollectionFiles) } name).2.collections
          name = some (ofFiles s.chunkSize s.cacheSize c.toCollectionFiles) := by
      unfold collCreate
      simp only [hgone, hfiles, Option.getD_some]
      exact Function.update_self _ _ _
    have hreopen : (reopen { s with
        collections := Function.update s.collections name none
        directory := Function.update s.directory name (some c.toCollectionFiles) }).collections name =
          some (ofFiles s.chunkSize s.cacheSize c.toCollectionFiles) := by
      unfold reopen ofDirectory files
      simp only [hgone, hfiles, Option.map_some]
    refine ⟨c, rfl, hcreate, hreopen, ?_, ?_, fun other hne => Function.update_of_ne hne _ _, ?_⟩
    · unfold LogCollection.size
      rw [header_ofFiles]
    · unfold LogCollection.lastId
      rw [header_ofFiles]
    · intro hdrops
      rw [hdrops.reopened] at hreopen
      cases hreopen

/-- A step of the database. -/
def Step (s : LogDatabase) (op : CString × DocOp) (t : LogDatabase) : Prop :=
  ∃ status, s.step op = .ok (status, t)

/-- A collection that is dropped with a document: the document is there when it is created again. -/
theorem drop_forgets_nothing_created :
    ∃ s t c, Run Step (ofDirectory 16 16 fun _ => none)
        [(nameC, .create), (nameC, .store .default (oneDoc 7) [0])] s ∧
      s.collDrop nameC = (.OK, t) ∧ (t.collCreate nameC).2.collections nameC = some c ∧
        c.size = 1 ∧ c.lastId = 0 ∧ ¬ Drops s t nameC := by
  have hcreate : Run Step (ofDirectory 16 16 fun _ => none) [(nameC, .create)] _ :=
    Run.snoc (Run.nil _) ⟨_, rfl⟩
  have hstore : Run Step (ofDirectory 16 16 fun _ => none)
      [(nameC, .create), (nameC, .store .default (oneDoc 7) [0])] _ := Run.snoc hcreate ⟨_, rfl⟩
  obtain ⟨s, c, hrun, hcoll, hsize, hlast⟩ : ∃ s c, Run Step (ofDirectory 16 16 fun _ => none)
      [(nameC, .create), (nameC, .store .default (oneDoc 7) [0])] s ∧
        s.collections nameC = some c ∧ c.size = 1 ∧ c.lastId = 0 :=
    ⟨_, _, hstore, rfl, rfl, rfl⟩
  have hdrop : s.collDrop nameC = (.OK, (s.collDrop nameC).2) := by
    unfold collDrop
    rw [hcoll]
  obtain ⟨c', hcoll', hcreated, -, hsize', hlast', -, hnot⟩ := drop_forgets_nothing hdrop
  obtain rfl : c = c' := Option.some.inj (hcoll.symm.trans hcoll')
  exact ⟨s, _, _, hrun, hdrop, hcreated, hsize'.trans hsize, hlast'.trans hlast, hnot⟩

/-- A collection with one document, which is dropped: created again it has one document. -/
theorem created_after_drop :
    ∃ s t : LogDatabase, Run Step (ofDirectory 16 16 fun _ => none)
        [(nameC, .create), (nameC, .store .default (oneDoc 7) [0])] s ∧
      s.collDrop nameC = (.OK, t) ∧ (t.collCreate nameC).2.collSize nameC 0 = (.OK, 1) ∧
        ¬ Drops s t nameC := by
  have hcreate : Run Step (ofDirectory 16 16 fun _ => none) [(nameC, .create)] _ :=
    Run.snoc (Run.nil _) ⟨_, rfl⟩
  have hstore : Run Step (ofDirectory 16 16 fun _ => none)
      [(nameC, .create), (nameC, .store .default (oneDoc 7) [0])] _ := Run.snoc hcreate ⟨_, rfl⟩
  refine ⟨_, _, hstore, rfl, rfl, fun hdrops => ?_⟩
  exact Option.some_ne_none _ hdrops.reopened

end LogDatabase

end Yokan
