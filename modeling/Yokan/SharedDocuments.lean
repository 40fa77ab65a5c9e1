import Yokan.ArrayRefinement
import Yokan.LogPersistence
import Yokan.DocMixinInvariants
import Yokan.DocMixinDocuments
import Yokan.DocMixinListing

/-!
# Yokan: the same documents on three backends

`ArrayDatabase`, `LogDatabase` and the document mixin over a `MapDatabase` store a collection in
three ways. `SameDocuments` says that a collection has the same ids and documents in all three, and
`sameDocuments_of_runs` that it is so after any run of `docStore` and `docErase`.
-/

namespace Yokan

open Buffer PartialMap Transition ArrayCollection

/-- A collection in three databases, with the ids and the documents of `m`. -/
structure SameDocuments (array : ArrayDatabase) (log : LogDatabase)
    (mixin : DocumentStoreMixin (MapDatabase .default)) (name : CString) (m : IdMap Bytes) :
    Prop where
  nonempty : name.bytes ≠ []
  array : ∃ coll, array.collections name = some coll ∧ coll.Holds m
  log : ∃ c, log.collections name = some c ∧ c.Represents m ∅
  coherent : mixin.Coherent
  exists_metadata : ∃ metadata, (mixin.view name).metadata = some metadata
  docs_eq : (mixin.view name).docs = docOf m

/-! ### Runs of stores and erasures -/

/-- An operation that stores or erases documents. -/
inductive DocWrite
  | store (batch : DocBatch) (ids : List UInt64)
  | erase (ids : List UInt64)

namespace DocWrite

def op : DocWrite → DocOp
  | store batch ids => .store .default batch ids
  | erase ids => .erase .default ids

/-- What the operation means for the documents. -/
def denote (m : IdMap Bytes) : DocWrite → IdMap Bytes
  | store batch _ => m.append batch.docs
  | erase ids => m.erase (ids.map UInt64.toNat)

/-- The batch passes exactly its documents, and each leaves room for the header of a chunk. -/
def Fits (chunkSize : ℕ) : DocWrite → Prop
  | store batch ids => batch.Exact ids.length ∧ ∀ size ∈ batch.sizes, size + 8 ≤ chunkSize
  | erase _ => True

/-- The documents after a run, from an empty collection. -/
def stored (ops : List DocWrite) : IdMap Bytes := ops.foldl denote .empty

/-- The run on a database: the collection is created, and written to. -/
def run (name : CString) (ops : List DocWrite) : List (CString × DocOp) :=
  (name, .create) :: ops.map fun w => (name, w.op)

theorem next_le_denote (m : IdMap Bytes) (w : DocWrite) : m.next ≤ (w.denote m).next := by
  cases w with
  | store batch ids => simp [denote, IdMap.next_append]
  | erase ids => simp [denote]

theorem next_le_foldl (ops : List DocWrite) (m : IdMap Bytes) :
    m.next ≤ (ops.foldl denote m).next := by
  induction ops generalizing m with
  | nil => exact le_refl _
  | cons w ops ih => exact (next_le_denote m w).trans (ih _)

end DocWrite

open DocWrite

/-! ### The array -/

theorem foldl_docFamilyStep {name : CString} (ops : List DocWrite)
    {f : CString → Option (IdMap Bytes)} {m : IdMap Bytes} (hf : f name = some m) :
    (ops.map fun w => (name, w.op)).foldl docFamilyStep f name = some (ops.foldl denote m) := by
  induction ops generalizing f m with
  | nil => exact hf
  | cons w ops ih =>
    refine ih ?_
    unfold docFamilyStep
    rw [Function.update_self, hf]
    cases w <;> rfl

theorem array_holds {name : CString} {ops : List DocWrite} {array : ArrayDatabase}
    (hrun : Run ArrayDatabase.Step .empty (run name ops) array) :
    ∃ coll, array.collections name = some coll ∧ coll.Holds (stored ops) := by
  have hrel := ArrayDatabase.run_refines hrun name
  have hdocs : (run name ops).foldl docFamilyStep (fun _ => none) name = some (stored ops) :=
    foldl_docFamilyStep ops (Function.update_self _ _ _)
  rw [hdocs] at hrel
  generalize hcoll : array.collections name = coll at hrel
  cases hrel with
  | some hholds => exact ⟨_, rfl, hholds⟩

theorem ArrayCollection.Holds.next_lt {coll : ArrayCollection} {m : IdMap Bytes}
    (h : coll.Holds m) : m.next < 2 ^ 64 := by
  have hmax : vectorMaxSize 8 < 2 ^ 64 := by decide
  rw [h.represents.next_eq]
  exact lt_of_le_of_lt h.represents.length_le hmax

/-! ### The log -/

namespace LogDatabase

variable {s t : LogDatabase} {name : CString} {c : LogCollection} {m : IdMap Bytes}

theorem eraseLoop_spec (h : c.Represents m ∅) (ids : List UInt64) :
    ∃ c', c.eraseLoop ids = .ok c' ∧ c'.chunkSize = c.chunkSize ∧
      c'.Represents (m.erase (ids.map UInt64.toNat)) ∅ := by
  induction ids generalizing c m with
  | nil => exact ⟨c, rfl, rfl, h⟩
  | cons id ids ih =>
    obtain ⟨c₁, herase, hsize, hrep⟩ := LogCollection.erase_spec h id
    obtain ⟨c₂, hloop, hsize', hrep'⟩ := ih hrep
    refine ⟨c₂, ?_, hsize'.trans hsize, hrep'⟩
    rw [LogCollection.eraseLoop, herase]
    exact hloop

/-- A store or an erasure acts on the documents of the collection. -/
theorem step_represents (hcoll : s.collections name = some c) (h : c.Represents m ∅) {w : DocWrite}
    (hfits : w.Fits c.chunkSize) (hstep : Step s (name, w.op) t) :
    ∃ c', t.collections name = some c' ∧ c'.chunkSize = c.chunkSize ∧
      c'.Represents (w.denote m) ∅ := by
  obtain ⟨status, hstep⟩ := hstep
  cases w with
  | store batch ids =>
    have hspec := LogCollection.append_spec h hfits.1 hfits.2
    simp only [DocWrite.op, step, docStore, hcoll] at hstep
    cases happend : c.append batch.documents batch.sizes ids with
    | error e => rw [happend] at hstep; cases hstep
    | ok r =>
      obtain ⟨-, -, hsize, hrep⟩ := hspec.of_eq_ok happend
      rw [happend] at hstep
      obtain ⟨-, rfl⟩ := Prod.mk.inj (Except.ok.inj hstep)
      exact ⟨_, Function.update_self _ _ _, hsize, hrep⟩
  | erase ids =>
    obtain ⟨c', hloop, hsize, hrep⟩ := eraseLoop_spec h ids
    simp only [DocWrite.op, step, docErase, hcoll, hloop] at hstep
    obtain ⟨-, rfl⟩ := Prod.mk.inj (Except.ok.inj hstep)
    exact ⟨_, Function.update_self _ _ _, hsize, hrep⟩

theorem log_represents {chunkSize : ℕ} {cacheSize : UInt64} {ops : List DocWrite}
    (hge : 8 ≤ chunkSize) (hlt : chunkSize < 2 ^ 63) (hfits : ∀ w ∈ ops, w.Fits chunkSize)
    (hrun : Run Step (ofDirectory chunkSize cacheSize fun _ => none) (run name ops) t) :
    ∃ c, t.collections name = some c ∧ c.chunkSize = chunkSize ∧
      c.Represents (stored ops) ∅ := by
  induction ops using List.reverseRecOn generalizing t with
  | nil =>
    have hrun : Run Step (ofDirectory chunkSize cacheSize fun _ => none) ([] ++ [(name, .create)]) t :=
      hrun
    obtain ⟨s, hnil, status, hcreate⟩ := hrun.last
    obtain rfl := hnil.eq_of_nil
    obtain ⟨-, rfl⟩ := Prod.mk.inj (Except.ok.inj hcreate)
    exact ⟨_, Function.update_self _ _ _, rfl, LogCollection.represents_ofFiles cacheSize hge hlt⟩
  | append_singleton ops w ih =>
    have hsnoc : run name (ops ++ [w]) = run name ops ++ [(name, w.op)] := by simp [run]
    rw [hsnoc] at hrun
    obtain ⟨s, hfirst, hstep⟩ := hrun.last
    obtain ⟨c, hcoll, hsize, hrep⟩ := ih (fun w hw => hfits w (List.mem_append_left _ hw)) hfirst
    obtain ⟨c', hcoll', hsize', hrep'⟩ := step_represents hcoll hrep
      (by rw [hsize]; exact hfits w (by simp)) hstep
    refine ⟨c', hcoll', hsize'.trans hsize, ?_⟩
    rw [stored, List.foldl_append]
    exact hrep'

/-- The chunk of the document of an id can be got at. -/
def Reaches (s : LogDatabase) (name : CString) (id : UInt64) : Prop :=
  ∀ c, s.collections name = some c → c.Reaches (c.entries id.toNat).chunk

theorem reaches_iff (hcoll : s.collections name = some c) (id : UInt64) :
    s.Reaches name id ↔ c.Reaches (c.entries id.toNat).chunk := by
  unfold Reaches
  simp only [hcoll, Option.some.injEq, forall_eq']

end LogDatabase

/-! ### The mixin -/

/-- Appending documents, seen from the 64-bit ids. -/
theorem docOf_append (m : IdMap Bytes) {docs : List Bytes} (hlt : m.next + docs.length ≤ 2 ^ 64) :
    docOf (m.append docs) = writeAll (fun _ doc => some doc) (docOf m)
      (((List.range docs.length).map fun i => UInt64.ofNat (m.next + i)).zip docs) := by
  have hzip : (List.range' m.next docs.length).zip docs =
      ((((List.range docs.length).map fun i => UInt64.ofNat (m.next + i)).zip docs)).map
        (Prod.map UInt64.toNat id) := by
    rw [← List.zip_map_left, List.map_map, List.range'_eq_map_range]
    congr 1
    refine List.map_congr_left fun i hi => ?_
    rw [List.mem_range] at hi
    rw [Function.comp_apply, UInt64.toNat_ofNat_of_lt' (show m.next + i < 2 ^ 64 by omega)]
  rw [IdMap.append_eq_write]
  funext id
  show (m.write _).docs id.toNat = _
  rw [IdMap.docs_write, hzip]
  exact congrFun (writeAll_comap (fun _ _ => UInt64.toNat_inj.1) _ m.docs _) id

theorem docOf_erase (m : IdMap Bytes) (ids : List UInt64) :
    docOf (m.erase (ids.map UInt64.toNat)) = eraseAll (docOf m) ids :=
  eraseAll_comap (fun _ _ => UInt64.toNat_inj.1) m.docs ids

/-- Without a wrap of the ids, a document map follows the documents. -/
theorem foldl_familyStep {name : CString} (hname : name.bytes ≠ []) {ops : List DocWrite}
    (hexact : ∀ w ∈ ops, w.op.Exact) {f : CString → Option DocumentMap} {d : DocumentMap}
    {m : IdMap Bytes} (hf : f name = some d) (hnext : d.nextId = m.next)
    (hdocs : d.docs = docOf m) (hlt : (ops.foldl denote m).next < 2 ^ 64) :
    ∃ d', (ops.map fun w => (name, w.op)).foldl DocumentMap.familyStep f name = some d' ∧
      d'.docs = docOf (ops.foldl denote m) := by
  induction ops generalizing f d m with
  | nil => exact ⟨d, hf, hdocs⟩
  | cons w ops ih =>
    have hstep : DocumentMap.familyStep f (name, w.op) name = DocumentMap.step (some d) w.op := by
      rw [DocumentMap.familyStep_apply, if_pos ⟨hname, rfl⟩, hf]
    have hrest : ∀ w ∈ ops, w.op.Exact := fun w hw => hexact w (List.mem_cons_of_mem _ hw)
    have hle := next_le_foldl ops (w.denote m)
    cases w with
    | store batch ids =>
      have hbatch : batch.Exact ids.length := hexact _ List.mem_cons_self
      have hholds : batch.Holds ids.length := ⟨hbatch.1, hbatch.2.le⟩
      have hlen : ids.length = batch.docs.length := by rw [batch.length_docs, hbatch.1]
      have hroom : m.next + batch.docs.length < 2 ^ 64 := by
        rw [denote, IdMap.next_append] at hle
        exact lt_of_le_of_lt hle hlt
      refine ih hrest (d := d.store batch ids.length) hstep ?_ ?_ hlt
      · simp only [DocumentMap.store, denote, IdMap.next_append, hnext, hlen]
      · have hstored : (d.store batch ids.length).docs = writeAll (fun _ doc => some doc) d.docs
            ((d.fresh ids.length).zip batch.docs) := if_pos hholds
        rw [hstored, hdocs, DocumentMap.fresh, hnext, hlen, denote, docOf_append m hroom.le]
    | erase ids =>
      refine ih hrest (d := d.erase ids) hstep hnext ?_ hlt
      rw [DocumentMap.erase, hdocs]
      exact (docOf_erase m ids).symm

/-- After the same stores and erasures, the three databases hold the same documents. -/
theorem sameDocuments_of_runs {name : CString} (hname : name.bytes ≠ []) {chunkSize : ℕ}
    {cacheSize : UInt64} (hge : 8 ≤ chunkSize) (hlt : chunkSize < 2 ^ 63) {ops : List DocWrite}
    (hfits : ∀ w ∈ ops, w.Fits chunkSize) {array : ArrayDatabase} {log : LogDatabase}
    {fresh mixin : DocumentStoreMixin (MapDatabase .default)} (hfresh : fresh.Fresh)
    (harray : Run ArrayDatabase.Step .empty (run name ops) array)
    (hlog : Run LogDatabase.Step (.ofDirectory chunkSize cacheSize fun _ => none) (run name ops) log)
    (hmixin : Run (DocumentStoreMixin.StepWhen fun c op => op.Basic ∧ c.KeepsNextId op) fresh
      (run name ops) mixin) :
    SameDocuments array log mixin name (stored ops) := by
  obtain ⟨coll, hcoll, hholds⟩ := array_holds harray
  obtain ⟨c, hc, -, hrep⟩ := LogDatabase.log_represents hge hlt hfits hlog
  obtain ⟨hcoherent, hall⟩ := DocumentStoreMixin.run_represents hfresh hmixin
  have hexact : ∀ w ∈ ops, w.op.Exact := by
    intro w hw
    have hw := hfits w hw
    cases w with
    | store batch ids => exact hw.1
    | erase ids => trivial
  have hcreate : DocumentMap.familyStep (fun _ => none) (name, .create) name = some .empty := by
    rw [DocumentMap.familyStep_apply, if_pos ⟨hname, rfl⟩]
    rfl
  obtain ⟨d, hd, hdocs⟩ := foldl_familyStep hname hexact hcreate rfl rfl hholds.next_lt
  have hview := (hall name).2
  rw [run, List.foldl_cons, hd] at hview
  obtain ⟨metadata, hmetadata, -, -, hdocs'⟩ := hview
  exact ⟨hname, ⟨coll, hcoll, hholds⟩, ⟨c, hc, hrep⟩, hcoherent, ⟨metadata, hmetadata⟩,
    hdocs'.trans hdocs⟩

/-! ### Three documents, one of them erased -/

/-- Store documents of two, one and one bytes, and erase the second. -/
def DocWrite.storeThree : List DocWrite :=
  [.store ⟨[1, 2, 3, 4], [2, 1, 1], by decide⟩ [0, 0, 0], .erase [1]]

theorem fits_storeThree : ∀ w ∈ storeThree, w.Fits 16 := by
  have hstore : ∀ size ∈ ([2, 1, 1] : List ℕ), size + 8 ≤ 16 := by decide
  rw [storeThree, List.forall_mem_cons, List.forall_mem_singleton]
  exact ⟨⟨⟨rfl, rfl⟩, hstore⟩, trivial⟩

/-- The run on the three backends. The cache of the log has room. -/
theorem exists_storeThree :
    ∃ array log mixin, SameDocuments array log mixin nameC (stored storeThree) ∧
      ∀ id, log.Reaches nameC id := by
  have harray : ∃ array, Run ArrayDatabase.Step .empty (run nameC storeThree) array :=
    ⟨_, Run.cons ⟨trivial, _, rfl⟩
      (Run.cons ⟨⟨rfl, rfl⟩, _, rfl⟩ (Run.cons ⟨trivial, _, rfl⟩ (Run.nil _)))⟩
  have hlog : ∃ log, Run LogDatabase.Step (.ofDirectory 16 16 fun _ => none) (run nameC storeThree)
      log ∧ ∀ id, log.Reaches nameC id := by
    refine ⟨_, Run.cons ⟨_, rfl⟩ (Run.cons ⟨_, rfl⟩ (Run.cons ⟨_, rfl⟩ (Run.nil _))),
      fun id c hc => Or.inr ?_⟩
    obtain rfl := Option.some.inj hc
    decide
  have hmixin : DocumentStoreMixin.Permits (fun c op => op.Basic ∧ c.KeepsNextId op)
      DocumentStoreMixin.emptyMap.view (run nameC storeThree) := by
    have hkeys : ∀ n < 4, n * (nameC.bytes.length + 1 + 8) < 2 ^ 64 := by decide
    have hroom : ∀ metadata : CollectionMetadata, some ⟨0, 0⟩ = some metadata →
        metadata.nextId.toNat + 3 < 2 ^ 64 := by
      intro metadata hmetadata
      obtain rfl := Option.some.inj hmetadata
      decide
    rw [DocumentStoreMixin.fresh_emptyMap.view_eq]
    exact ⟨⟨rfl, ⟨trivial, trivial⟩, trivial⟩, ⟨rfl, ⟨rfl, hroom⟩, hkeys 3 (by decide)⟩,
      ⟨rfl, ⟨trivial, trivial⟩, hkeys 1 (by decide)⟩, trivial⟩
  obtain ⟨array, harray⟩ := harray
  obtain ⟨log, hlog, hreaches⟩ := hlog
  obtain ⟨mixin, hmixin, -⟩ := DocumentStoreMixin.exists_run
    DocumentStoreMixin.fresh_emptyMap.coherent hmixin
  exact ⟨array, log, mixin, sameDocuments_of_runs (by decide) (by decide) (by decide)
    fits_storeThree DocumentStoreMixin.fresh_emptyMap harray hlog hmixin, hreaches⟩

end Yokan
