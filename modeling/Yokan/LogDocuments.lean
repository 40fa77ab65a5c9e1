import Yokan.LogDatabase
import Yokan.LogRefinement
import Yokan.Library.Transition

/-!
# Yokan: the documents of the `log` backend

Runs of `append`, `update` and `erase` on a collection, and the map from ids to documents that they
maintain.

* `erase_spec`, `read_eq`, `fetchLoop_eq`: the operations on one id;
* `log_serves_documents`: after any run the collection serves the documents last written, and no
  operation dereferences the null chunk, as long as the updates are `Sound` and the cache has room;
* `update_of_erased`: an update that is not can dereference it.
-/

namespace Yokan

open Buffer PartialMap Transition LittleEndian

namespace LogCollection

variable {c c' : LogCollection} {m : IdMap Bytes}

/-! ### One id -/

/-- A new collection. -/
theorem represents_ofFiles {chunkSize : ℕ} (cacheSize : UInt64) (hge : 8 ≤ chunkSize)
    (hlt : chunkSize < 2 ^ 63) : Represents (ofFiles chunkSize cacheSize {}) .empty ∅ := by
  have hchunk : (ofFiles chunkSize cacheSize {}).chunks 0 = List.replicate chunkSize 0 := by
    simp [ofFiles, getChunkFromID, mapChunk, mapFile]
  have hused : (ofFiles chunkSize cacheSize {}).used = 8 := by
    have hslice : slice ((ofFiles chunkSize cacheSize {}).chunks 0) 0 8 =
        List.replicate (min 8 chunkSize) 0 := by
      rw [hchunk]
      simp [slice, List.take_replicate]
    exact used_of_zero hslice
  refine ⟨⟨hge, hlt, rfl, ?_, ?_, hused.ge, hused.le.trans hge⟩, ?_, rfl, fun _ _ => rfl, ?_, ?_⟩
  · intro k hk
    have hk : k = 0 := Nat.le_zero.1 hk
    rw [hk, hchunk, List.length_replicate]
    rfl
  · intro k hk
    have hk : k ≠ 0 := Nat.ne_of_gt hk
    simp [ofFiles, getChunkFromID, mapChunk, hk]
  · show 32 + 0 * 32 ≤ 8 * 8 * 4096
    decide
  · intro id hid
    exact absurd hid (Nat.not_lt_zero id)
  · intro id id' _ _ _ hsome
    cases hsome

/-- The spec of `erase`. -/
theorem erase_spec (h : Represents c m ∅) (id : UInt64) :
    ∃ c', c.erase id = .ok (if m.next ≤ id.toNat then .InvalidID else .OK, c') ∧
      c'.chunkSize = c.chunkSize ∧ Represents c' (m.erase [id.toNat]) ∅ := by
  have herase : (m.erase [id.toNat]).docs = Function.update m.docs id.toNat none := rfl
  have hsame : m.docs id.toNat = none → m.erase [id.toNat] = m := fun hnone =>
    IdMap.ext rfl (herase.trans (Function.update_eq_self_iff.2 hnone.symm))
  unfold erase
  rw [h.next_eq]
  by_cases hid : c.header.nextId ≤ id.toNat
  · rw [if_pos hid, if_pos hid, hsame (h.fresh _ (by rw [h.next_eq]; exact hid))]
    exact ⟨c, rfl, rfl, h⟩
  · have hlt : id.toNat < c.header.nextId := Nat.not_le.1 hid
    rw [if_neg hid, if_neg hid, readEntryMetadata_of_lt h.covers hlt]
    dsimp only
    rw [if_neg (not_not.2 rfl)]
    by_cases hhole : (c.entries id.toNat).size = keyNotFound
    · rw [if_pos hhole, hsame ((h.size_eq_iff hlt (Set.notMem_empty _)).1 hhole)]
      exact ⟨c, rfl, rfl, h⟩
    · have hmax : max c.header.nextId (id.toNat + 1) = c.header.nextId := max_eq_left hlt
      have hcovers : sizeofEntry + max c.header.nextId (id.toNat + 1) * sizeofEntry ≤
          c.metaSize := by
        rw [hmax]
        exact h.covers
      have hole := represents_hole h (m.erase [id.toNat]) ∅
        { c.entries id.toNat with
          chunk := keyNotFound
          size := keyNotFound
          offset := keyNotFound } (c.header.collSize - 1) (Nat.le_of_lt hlt) hcovers
        (by rw [hmax]; exact h.next_eq) herase Set.sdiff_subset (Or.inr rfl)
      rw [hmax] at hole
      rw [if_neg hhole, writeEntryMetadata_of_lt h.covers hlt]
      dsimp only [bind, Except.bind]
      rw [if_neg (not_not.2 rfl)]
      exact ⟨_, rfl, rfl, hole⟩

/-- What `read` answers, when the documents of `m` are stored. -/
def readAnswer (c : LogCollection) (m : IdMap Bytes) (id : UInt64) (bufSize : ℕ) :
    Status × Bytes × LogCollection :=
  if m.next ≤ id.toNat then (.InvalidID, [], c)
  else
    match m.docs id.toNat with
    | none => (.NotFound, [], c)
    | some doc => if bufSize < doc.length then (.SizeError, [], c) else (.OK, doc, c)

/-- The bytes of an entry that points to a document. -/
theorem readChunk_of_pointsTo (h : Chunked c) {e : EntryMetadata} {doc : Bytes}
    (hp : c.PointsTo e doc) : c.readChunk e.chunk e.offset e.size = .ok (.OK, doc) := by
  have hlimit := limit_le h e.chunk
  have hle := hp.allocated_le
  have hsize := hp.size_le
  rw [hp.size_eq, readChunk_of_le h.header_lt (by rw [h.header_chunkSize]; omega), hp.slice_eq]

/-- The entry of a document that is present. -/
theorem Represents.entry_of_some {torn : Set ℕ} (h : Represents c m torn) {id : ℕ} {doc : Bytes}
    (htorn : id ∉ torn) (hdoc : m.docs id = some doc) :
    id < c.header.nextId ∧ (c.entries id).size ≠ keyNotFound ∧ c.PointsTo (c.entries id) doc := by
  have hlt : id < c.header.nextId := h.lt_next (by rw [hdoc]; rfl)
  refine ⟨hlt, fun he => ?_, h.pointsTo hdoc htorn⟩
  rw [(h.size_eq_iff hlt htorn).1 he] at hdoc
  cases hdoc

/-- `read` goes to the chunk of a document that fits in the buffer. -/
theorem read_of_some {torn : Set ℕ} (h : Represents c m torn) {id : UInt64}
    (htorn : id.toNat ∉ torn) {bufSize : ℕ} {doc : Bytes} (hdoc : m.docs id.toNat = some doc)
    (hfit : doc.length ≤ bufSize) :
    c.read id bufSize =
      if c.Reaches (c.entries id.toNat).chunk then .ok (.OK, doc, c) else .error .emptyCache := by
  obtain ⟨hlt, hpresent, hp⟩ := h.entry_of_some htorn hdoc
  unfold LogCollection.read
  rw [if_neg (Nat.not_le.2 hlt), readEntryMetadata_of_lt h.covers hlt]
  dsimp only
  rw [if_neg (not_not.2 rfl), if_neg hpresent, if_neg (by rw [hp.size_eq]; exact Nat.not_lt.2 hfit),
    derefChunk_of_le h.chunked hp.chunk_le]
  split_ifs
  · dsimp only [bind, Except.bind]
    rw [readChunk_of_pointsTo h.chunked hp]
  · rfl

theorem read_eq {torn : Set ℕ} (h : Represents c m torn) {id : UInt64} (htorn : id.toNat ∉ torn)
    {bufSize : ℕ} (hreaches : ∀ doc, m.docs id.toNat = some doc → doc.length ≤ bufSize →
      c.Reaches (c.entries id.toNat).chunk) :
    c.read id bufSize = .ok (readAnswer c m id bufSize) := by
  unfold readAnswer
  rw [h.next_eq]
  by_cases hid : c.header.nextId ≤ id.toNat
  · rw [if_pos hid, LogCollection.read, if_pos hid]
  · have hlt : id.toNat < c.header.nextId := Nat.not_le.1 hid
    rw [if_neg hid]
    cases hdoc : m.docs id.toNat with
    | none =>
      unfold LogCollection.read
      rw [if_neg hid, readEntryMetadata_of_lt h.covers hlt]
      dsimp only
      rw [if_neg (not_not.2 rfl), if_pos ((h.size_eq_iff hlt htorn).2 hdoc)]
    | some doc =>
      dsimp only
      by_cases hfit : bufSize < doc.length
      · obtain ⟨-, hpresent, hp⟩ := h.entry_of_some htorn hdoc
        unfold LogCollection.read
        rw [if_neg hid, readEntryMetadata_of_lt h.covers hlt]
        dsimp only
        rw [if_neg (not_not.2 rfl), if_neg hpresent, if_pos (by rw [hp.size_eq]; exact hfit),
          if_pos hfit]
      · rw [if_neg hfit, read_of_some h htorn hdoc (Nat.not_lt.1 hfit),
          if_pos (hreaches doc hdoc (Nat.not_lt.1 hfit))]

/-- `fetch` goes to the chunk of every document. -/
theorem fetch_of_some {υ : Type} {torn : Set ℕ} (h : Represents c m torn) {id : UInt64}
    (htorn : id.toNat ∉ torn) {doc : Bytes} (hdoc : m.docs id.toNat = some doc)
    (cb : υ → UInt64 → Option Bytes → Status × υ) (u : υ) :
    c.fetch id cb u =
      if c.Reaches (c.entries id.toNat).chunk then
        .ok ((cb u id (some doc)).1, (cb u id (some doc)).2, c)
      else .error .emptyCache := by
  obtain ⟨hlt, hsize, hp⟩ := h.entry_of_some htorn hdoc
  have hpresent : ¬ (Status.OK = Status.NotFound ∨ (c.entries id.toNat).size = keyNotFound) := by
    rintro (he | he)
    · cases he
    · exact hsize he
  unfold LogCollection.fetch
  rw [if_neg (Nat.not_le.2 hlt), readEntryMetadata_of_lt h.covers hlt]
  dsimp only
  rw [if_neg hpresent, derefChunk_of_le h.chunked hp.chunk_le]
  split_ifs
  · dsimp only [bind, Except.bind]
    rw [readChunk_of_pointsTo h.chunked hp]
    rfl
  · rfl

theorem fetch_eq {υ : Type} {torn : Set ℕ} (h : Represents c m torn) {id : UInt64}
    (htorn : id.toNat ∉ torn)
    (hreaches : (m.docs id.toNat).isSome → c.Reaches (c.entries id.toNat).chunk)
    (cb : υ → UInt64 → Option Bytes → Status × υ) (u : υ) :
    c.fetch id cb u =
      .ok ((cb u id (m.docs id.toNat)).1, (cb u id (m.docs id.toNat)).2, c) := by
  cases hdoc : m.docs id.toNat with
  | some doc => rw [fetch_of_some h htorn hdoc, if_pos (hreaches (by rw [hdoc]; rfl))]
  | none =>
    unfold LogCollection.fetch
    by_cases hid : c.header.nextId ≤ id.toNat
    · rw [if_pos hid]
    · have hlt : id.toNat < c.header.nextId := Nat.not_le.1 hid
      rw [if_neg hid, readEntryMetadata_of_lt h.covers hlt]
      dsimp only
      rw [if_pos (Or.inr ((h.size_eq_iff hlt htorn).2 hdoc))]

/-- `docFetch` calls the callback once for each id, in order. -/
theorem fetchLoop_eq {υ : Type} (h : Represents c m ∅) (hroom : c.HasRoom)
    (func : υ → UInt64 → Option Bytes → Status × υ) (ids : List UInt64) (u : υ) :
    c.fetchLoop func ids u =
      .ok (ids.foldl (fun u id => (func u id (m.docs id.toNat)).2) u, c) := by
  induction ids generalizing u with
  | nil => rfl
  | cons id ids ih =>
    unfold fetchLoop
    rw [fetch_eq h (Set.notMem_empty _) fun _ => Or.inr hroom]
    exact ih _

/-! ### Runs -/

end LogCollection

/-- A call on a collection. -/
inductive LogOp
  | append (ids : List UInt64) (batch : DocBatch)
  | update (ids : List UInt64) (batch : DocBatch)
  | erase (id : UInt64)

namespace LogOp

/-- The batch passes exactly its documents, and each leaves room for the header of a chunk. -/
def Fits (chunkSize : ℕ) : LogOp → Prop
  | append ids batch => batch.Exact ids.length ∧ ∀ size ∈ batch.sizes, size + 8 ≤ chunkSize
  | update ids batch => batch.Exact ids.length ∧ ∀ size ∈ batch.sizes, size + 8 ≤ chunkSize
  | erase _ => True

/-- The condition of `update`. -/
def Sound (c : LogCollection) : LogOp → Prop
  | update ids batch => LogCollection.Sound c ids batch
  | _ => True

/-- What a call means for the documents. -/
def denote (m : IdMap Bytes) : LogOp → IdMap Bytes
  | append _ batch => m.append batch.docs
  | update ids batch => m.write (LogCollection.under ids batch)
  | erase id => m.erase [id.toNat]

end LogOp

namespace LogCollection

variable {c c' : LogCollection} {m : IdMap Bytes}

/-- The status of a call and the collection it leaves. -/
def apply (c : LogCollection) : LogOp → Outcome (Status × LogCollection)
  | .append ids batch => do
    let (status, _, c) ← c.append batch.documents batch.sizes ids
    .ok (status, c)
  | .update ids batch => c.update ids batch.documents batch.sizes
  | .erase id => c.erase id

/-- A call that returns. -/
def Call (c : LogCollection) (op : LogOp) (c' : LogCollection) : Prop :=
  op.Fits c.chunkSize ∧ ∃ status, c.apply op = .ok (status, c')

/-- A call that returns, and is sound. -/
def SoundCall (c : LogCollection) (op : LogOp) (c' : LogCollection) : Prop :=
  op.Sound c ∧ c.Call op c'

/-- A sound call acts on the documents, unless a file cannot grow or the cache has no room. -/
theorem apply_spec {allowed : Failure → Prop} {op : LogOp} (h : Represents c m ∅)
    (hroom : c.HasRoom ∨ allowed .emptyCache) (hlarge : allowed .fileTooLarge)
    (hfits : op.Fits c.chunkSize) (hs : op.Sound c) :
    Ensures allowed (c.apply op) (fun r =>
      r.2.chunkSize = c.chunkSize ∧ Represents r.2 (op.denote m) ∅) := by
  cases op with
  | append ids batch =>
    refine Ensures.bind ((append_spec h hfits.1 hfits.2).allow fun _ he => he ▸ hlarge) ?_
    rintro ⟨status, ids, c'⟩ ⟨-, -, hchunkSize, hrep⟩
    exact ⟨hchunkSize, hrep⟩
  | update ids batch =>
    refine Ensures.mono (update_spec h hroom hlarge hfits.1 hfits.2 hs) ?_
    rintro ⟨status, c'⟩ ⟨-, hchunkSize, hrep⟩
    exact ⟨hchunkSize, hrep⟩
  | erase id =>
    obtain ⟨c', herase, hchunkSize, hrep⟩ := erase_spec h id
    show Ensures _ (c.erase id) _
    rw [herase]
    exact ⟨hchunkSize, hrep⟩

theorem cacheSize_apply (op : LogOp) :
    Ensures (fun _ => True) (c.apply op) (fun r => r.2.cacheSize = c.cacheSize) := by
  cases op with
  | append ids batch =>
    refine Ensures.bind (cacheSize_append _ _ _) ?_
    rintro ⟨status, assigned, c₁⟩ h₁
    exact h₁
  | update ids batch => exact cacheSize_update _ _ _
  | erase id => exact cacheSize_erase id

/-- No run changes the size of the cache. -/
theorem run_cacheSize {ops : List LogOp} {c₀ : LogCollection}
    {R : LogCollection → LogOp → LogCollection → Prop}
    (hR : ∀ c op c', R c op c' → ∃ status, c.apply op = .ok (status, c'))
    (hrun : Run R c₀ ops c) : c.cacheSize = c₀.cacheSize := by
  have hstep : ∀ c op c', c.cacheSize = c₀.cacheSize → R c op c' →
      c'.cacheSize = c₀.cacheSize := by
    intro c op c' h hcall
    obtain ⟨status, hr⟩ := hR _ _ _ hcall
    exact (Ensures.of_eq_ok (cacheSize_apply op) hr).trans h
  exact hrun.invariant hstep rfl

theorem run_represents {chunkSize : ℕ} {cacheSize : UInt64} {ops : List LogOp}
    (hge : 8 ≤ chunkSize) (hlt : chunkSize < 2 ^ 63)
    (hrun : Run SoundCall (ofFiles chunkSize cacheSize {}) ops c) :
    Represents c (ops.foldl LogOp.denote .empty) ∅ := by
  have hstep : ∀ c op c' m, Represents c m ∅ → SoundCall c op c' →
      Represents c' (op.denote m) ∅ := by
    rintro c op c' m h ⟨hs, hfits, status, hr⟩
    have hspec := @apply_spec c m (fun _ => True) op h (Or.inr trivial) trivial hfits hs
    exact (Ensures.of_eq_ok hspec hr).2
  exact hrun.simulation hstep (represents_ofFiles cacheSize hge hlt)

/-- The operations on the collection answer what the documents say, and no sound call ends in a
failure of the collection, other than a file that cannot grow. -/
structure Serves (c : LogCollection) (m : IdMap Bytes) : Prop where
  read : ∀ id bufSize, c.read id bufSize = .ok (readAnswer c m id bufSize)
  docFetch : ∀ {υ : Type} (s : LogDatabase) name ids
    (func : υ → UInt64 → Option Bytes → Status × υ) (u : υ), s.collections name = some c →
      s.docFetch name ids func u =
        .ok (.OK, ids.foldl (fun u id => (func u id (m.docs id.toNat)).2) u, s)
  safe : ∀ op : LogOp, op.Fits c.chunkSize → op.Sound c →
    Ensures (· = .fileTooLarge) (c.apply op) (fun _ => True)

/-- After any run of sound calls, a collection whose cache has room serves the documents last
written. -/
theorem log_serves_documents {chunkSize : ℕ} {cacheSize : UInt64} {ops : List LogOp}
    (hge : 8 ≤ chunkSize) (hlt : chunkSize < 2 ^ 63) (hcache : cacheSize.toNat % 2 ^ 32 ≠ 0)
    (hrun : Run SoundCall (ofFiles chunkSize cacheSize {}) ops c) :
    Serves c (ops.foldl LogOp.denote .empty) := by
  have h := run_represents hge hlt hrun
  have hroom : c.HasRoom := by
    rw [hasRoom_iff, run_cacheSize (fun _ _ _ hcall => hcall.2.2) hrun]
    exact hcache
  constructor
  case read =>
    exact fun id bufSize => read_eq h (Set.notMem_empty _) fun _ _ _ => Or.inr hroom
  case docFetch =>
    intro υ s name ids func u hcoll
    have hput : s.put name c = s := by
      unfold LogDatabase.put
      rw [Function.update_eq_self_iff.2 hcoll.symm]
    unfold LogDatabase.docFetch
    rw [hcoll]
    dsimp only
    rw [fetchLoop_eq h hroom]
    dsimp only [bind, Except.bind]
    rw [hput]
  case safe =>
    intro op hfits hs
    exact Ensures.mono (apply_spec h (Or.inl hroom) rfl hfits hs) fun _ _ => trivial

/-- A run over two chunks that updates one of two documents and erases the other. -/
theorem log_serves_documents_erased :
    ∃ c, Run SoundCall (ofFiles 9 16 {}) [.append [0] (oneDoc 7), .append [0] (oneDoc 8),
        .update [0] (oneDoc 9), .erase 1] c ∧
      Serves c ([LogOp.append [0] (oneDoc 7), .append [0] (oneDoc 8), .update [0] (oneDoc 9),
        .erase 1].foldl LogOp.denote .empty) ∧ c.header.lastChunkId = 1 := by
  have hfits : (LogOp.append [0] (oneDoc 7)).Fits 9 := ⟨⟨rfl, rfl⟩, by simp [oneDoc]⟩
  have hfirst : Run SoundCall (ofFiles 9 16 {}) [.append [0] (oneDoc 7)] _ :=
    Run.snoc (Run.nil _) ⟨trivial, hfits, _, rfl⟩
  have hsecond : Run SoundCall (ofFiles 9 16 {}) [.append [0] (oneDoc 7), .append [0] (oneDoc 8)] _ :=
    Run.snoc hfirst ⟨trivial, hfits, _, rfl⟩
  have hlisted : ∀ id doc, doc ∈ IdMap.listed id (under [0] (oneDoc 9)) → id = 0 ∧ doc = [9] := by
    intro id doc hdoc
    exact Prod.mk.inj (List.mem_singleton.1 (IdMap.mem_listed.1 hdoc))
  have hsound : ∀ c : LogCollection, c.Present 0 → Sound c [0] (oneDoc 9) := by
    refine fun c hpresent => ⟨List.cons_ne_nil _ _, fun id doc hdoc _ _ => ?_, fun id doc hdoc hfit => ?_⟩
    · obtain ⟨rfl, -⟩ := hlisted id doc hdoc
      exact hpresent
    · obtain ⟨rfl, rfl⟩ := hlisted id doc (List.mem_of_getLast? hdoc)
      refine ⟨hpresent, fun doc' hdoc' => ?_⟩
      obtain ⟨-, rfl⟩ := hlisted 0 doc' hdoc'
      exact hfit
  have hthird : Run SoundCall (ofFiles 9 16 {})
      [.append [0] (oneDoc 7), .append [0] (oneDoc 8), .update [0] (oneDoc 9)] _ :=
    Run.snoc hsecond ⟨hsound _ (by decide), hfits, _, rfl⟩
  have hfourth : Run SoundCall (ofFiles 9 16 {}) [.append [0] (oneDoc 7), .append [0] (oneDoc 8),
      .update [0] (oneDoc 9), .erase 1] _ :=
    Run.snoc hthird ⟨trivial, trivial, _, rfl⟩
  exact ⟨_, hfourth, log_serves_documents (by decide) (by decide) (by decide) hfourth, rfl⟩

/-- After one document was stored and erased, an update of its id that would fit in its space
dereferences the null chunk. -/
theorem update_of_erased :
    ∃ c, Run Call (ofFiles 16 16 {}) [.append [0] (oneDoc 7), .erase 0] c ∧
      (LogOp.update [0] (oneDoc 8)).Fits c.chunkSize ∧
        c.apply (.update [0] (oneDoc 8)) = .error .nullChunk := by
  have hfits : (LogOp.append [0] (oneDoc 7)).Fits 16 := ⟨⟨rfl, rfl⟩, by simp [oneDoc]⟩
  have hstore : Run Call (ofFiles 16 16 {}) [.append [0] (oneDoc 7)] _ :=
    Run.snoc (Run.nil _) ⟨hfits, _, rfl⟩
  have herase : Run Call (ofFiles 16 16 {}) [.append [0] (oneDoc 7), .erase 0] _ :=
    Run.snoc hstore ⟨trivial, _, rfl⟩
  exact ⟨_, herase, hfits, rfl⟩

end LogCollection

end Yokan
