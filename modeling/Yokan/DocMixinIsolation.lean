import Yokan.DocMixinInvariants
import Yokan.DocMixinListing

/-!
# Yokan: one collection does not see another

All collections of a `DocumentStoreMixin` live in one key space. The keys of different documents
differ, also across collections, and the filter of the listings accepts the keys of one collection
only, so that a collection is all that an operation on it reads and writes.

* `collections_isolated`: an operation on one collection changes no answer about another, and
  listing a collection shows its own documents only;
* `drop_leaves_nothing`: `collDrop` forgets a collection whose documents are all below `next_id`,
  which holds in runs that never lower `next_id` (`document_survives_drop` is a run that does).
-/

namespace Yokan

open Buffer PartialMap Transition DatabaseInterface FiniteMapStore ListingStore

namespace DocumentStoreMixin

variable {σ : Type} [ListingStore σ] {s t : DocumentStoreMixin σ}

/-! ### Isolation -/

/-- Two states give the same answers about a collection: its metadata, its documents, and what
`docLoad`, `docList` and `docIter` return. -/
structure SameAnswers (s t : DocumentStoreMixin σ) (name : CString) : Prop where
  exists_eq : t.collExists name = s.collExists name
  metadata_status : (t.collGetMetadata name {}).1 = (s.collGetMetadata name {}).1
  metadata_eq : (s.collGetMetadata name {}).1 = .OK →
    (t.collGetMetadata name {}).2.1 = (s.collGetMetadata name {}).2.1
  docs_eq : ∀ id, contents t.db (keyFromId name id) = contents s.db (keyFromId name id)
  docLoad_eq : ∀ (mode : Mode) (packed : Bool) (ids : List UInt64) (documents : Bytes)
    (sizes : List ℕ), mode.has .wait = false →
    (t.docLoad name mode packed ids documents sizes).map (fun r => (r.1, r.2.1)) =
      (s.docLoad name mode packed ids documents sizes).map (fun r => (r.1, r.2.1))
  docList_eq : ∀ (mode : Mode) (packed : Bool) (fromId : UInt64) (slots : DocSlots)
    (documents : Bytes),
    let listOf := fun s : DocumentStoreMixin σ => s.docList name mode packed fromId
      defaultDocFilter slots.ids documents slots.docSizes
    ((listOf t).1, (listOf t).2.1) = ((listOf s).1, (listOf s).2.1)
  docIter_eq : ∀ (υ : Type) (mode : Mode) (max : ℕ) (fromId : UInt64)
    (func : υ → UInt64 → Bytes → Status × υ) (u : υ),
    let iterOf := fun s : DocumentStoreMixin σ => s.docIter name mode max fromId defaultDocFilter
      func u
    ((iterOf t).1, (iterOf t).2.2) = ((iterOf s).1, (iterOf s).2.2)

/-- Listing a collection shows documents of that collection only. -/
structure ListsOwn (s : DocumentStoreMixin σ) (name : CString) : Prop where
  docList_own : ∀ (mode : Mode) (packed : Bool) (fromId : UInt64) (slots : DocSlots)
    (documents : Bytes) (out : DocListOutput) (t : DocumentStoreMixin σ),
    s.docList name mode packed fromId defaultDocFilter slots.ids documents slots.docSizes =
      (.OK, out, t) →
    ∃ page : List (UInt64 × Bytes), out = listing packed slots documents page ∧
      ∀ p ∈ page, fromId ≤ p.1 ∧ contents s.db (keyFromId name p.1) = some p.2
  docIter_own : ∀ (υ : Type) (mode : Mode) (max : ℕ) (fromId : UInt64)
    (func : υ → UInt64 → Bytes → Status × υ) (u : υ),
    ∃ docs : List (UInt64 × Bytes),
      (∀ p ∈ docs, fromId ≤ p.1 ∧ contents s.db (keyFromId name p.1) = some p.2) ∧
      ∃ t status u', s.docIter name mode max fromId defaultDocFilter func u = (status, t, u') ∧
        ((status, u') = (.NotFound, u) ∨ (status, u') = deliver max func docs 0 u)

/-- States with the same view of a collection give the same answers about it. -/
theorem sameAnswers_of_view (hsorted : isSorted σ = true) (hs : Coherent s) (ht : Coherent t)
    {name : CString} (hname : name.bytes ≠ []) (hview : t.view name = s.view name) :
    SameAnswers s t name where
  exists_eq := by
    rw [collExists, collExists, collExistsImpl_spec hs hname, collExistsImpl_spec ht hname, hview]
  metadata_status := by
    rw [(collGetMetadata_spec hs hname {}).2.2.1, (collGetMetadata_spec ht hname {}).2.2.1, hview]
  metadata_eq _ := by
    rw [(collGetMetadata_spec hs hname {}).2.2.2, (collGetMetadata_spec ht hname {}).2.2.2, hview]
  docs_eq id := congrFun (congrArg Collection.docs hview) id
  docLoad_eq mode packed ids documents sizes hwait :=
    docLoad_congr ht hs hview hname hwait packed ids documents sizes
  docList_eq mode packed fromId slots documents := by
    cases hsupports : supportsMode σ .noPrefix with
    | false => simp [docList, hname, hsupports]
    | true =>
      obtain ⟨s', hlist, -⟩ := docList_sorted hsorted hsupports hs hname mode packed fromId slots
        documents
      obtain ⟨t', hlist', -⟩ := docList_sorted hsorted hsupports ht hname mode packed fromId slots
        documents
      simp only [hlist, hlist', hview]
  docIter_eq υ mode max fromId func u := by
    obtain ⟨s', hiter, -⟩ := docIter_sorted hsorted hs hname mode max fromId func u
    obtain ⟨t', hiter', -⟩ := docIter_sorted hsorted ht hname mode max fromId func u
    simp only [hiter, hiter', hview]

theorem listsOwn (hsorted : isSorted σ = true) (hs : Coherent s) {name : CString}
    (hname : name.bytes ≠ []) : ListsOwn s name where
  docList_own mode packed fromId slots documents out t hlist := by
    have hsupports : supportsMode σ .noPrefix = true := by
      by_contra hno
      rw [Bool.not_eq_true] at hno
      simp [docList, hname, hno] at hlist
    obtain ⟨t', hlist', -⟩ := docList_sorted hsorted hsupports hs hname mode packed fromId slots
      documents
    rw [hlist', Collection.list] at hlist
    cases hm : (s.view name).metadata with
    | none => simp [hm] at hlist
    | some m =>
      simp only [hm, Prod.mk.injEq, true_and] at hlist
      exact ⟨_, hlist.1.symm, fun p hp => mem_documentsFrom.1 (List.mem_of_mem_take hp)⟩
  docIter_own υ mode max fromId func u := by
    obtain ⟨t, hiter, -⟩ := docIter_sorted hsorted hs hname mode max fromId func u
    refine ⟨documentsFrom (s.view name).docs fromId, fun p hp => mem_documentsFrom.1 hp,
      t, _, _, hiter, ?_⟩
    unfold Collection.iter
    cases (s.view name).metadata with
    | none => exact Or.inl rfl
    | some m => exact Or.inr rfl

/-- Isolation of the collections of a mixin over a sorted database: in every reachable state, an
operation on the collection `a` changes no answer about the collection `b`, listing `a` shows its
own documents only, and no key of `a` is a key of `b`. -/
theorem collections_isolated (hsorted : isSorted σ = true) (hs : Fresh s)
    {ops : List (CString × DocOp)} (hrun : Run (StepWhen fun _ _ => True) s ops t)
    {a b : CString} (hne : a ≠ b) (ha : a.bytes ≠ []) (hb : b.bytes ≠ []) :
    (∀ (op : DocOp) (status : Status) (u : DocumentStoreMixin σ), op.waits = false →
      t.step (a, op) = some (status, u) → SameAnswers t u b) ∧
    ListsOwn t a ∧
    ∀ id id', keyFromId a id ≠ keyFromId b id' ∧ keyFromId a id ≠ b.bytes := by
  obtain ⟨ht, -⟩ := run_view hrun hs.coherent
  refine ⟨?_, listsOwn hsorted ht ha, ?_⟩
  · intro op status u hwaits hr
    obtain ⟨hu, hview⟩ := step_spec ht hwaits hr
    refine sameAnswers_of_view hsorted ht hu hb ?_
    rw [show u.view = (t.view.step (a, op)).2 from congrArg Prod.snd hview, Family.step_apply,
      if_neg fun h => hne h.2.symm]
  · intro id id'
    exact ⟨fun h => hne (keyFromId_inj h).1, keyFromId_ne_name a b id⟩

/-- The name `cd`, which begins with the name `c`. -/
def nameCD : CString := ⟨[99, 100], by decide, by decide⟩

/-- A run that creates two collections, one named by a prefix of the other's name, and stores a
document in each. -/
theorem collections_isolated_prefix :
    ∃ t, Run (StepWhen fun _ _ => True) emptyMap
        [(nameC, .create), (nameCD, .create), (nameCD, .store .default (oneDoc 1) [0]),
          (nameC, .store .default (oneDoc 2) [0])] t ∧
      (∀ status u, t.step (nameC, .drop .default) = some (status, u) → SameAnswers t u nameCD) ∧
      ListsOwn t nameC := by
  have hpermits : Permits (fun _ _ => True) emptyMap.view
      [(nameC, .create), (nameCD, .create), (nameCD, .store .default (oneDoc 1) [0]),
        (nameC, .store .default (oneDoc 2) [0])] := by
    rw [fresh_emptyMap.view_eq]
    refine ⟨⟨rfl, trivial, trivial⟩, ⟨rfl, trivial, trivial⟩, ⟨rfl, trivial, ?_⟩,
      ⟨rfl, trivial, ?_⟩, trivial⟩ <;>
    · show _ < _
      decide
  obtain ⟨t, hrun, -⟩ := exists_run fresh_emptyMap.coherent hpermits
  obtain ⟨hsame, hown, -⟩ := collections_isolated rfl fresh_emptyMap hrun (a := nameC) (b := nameCD)
    (by decide) (by decide) (by decide)
  exact ⟨t, hrun, fun status u hr => hsame _ status u rfl hr, hown⟩

/-! ### Dropping a collection -/

/-- Nothing of the collection `name` is left in `s`: no key of it, and when it is created again,
`docLoad` finds no document and `docList` lists none. -/
structure Forgotten (s : DocumentStoreMixin σ) (name : CString) : Prop where
  metadata_gone : contents s.db name.bytes = none
  docs_gone : ∀ id, contents s.db (keyFromId name id) = none
  load_none : ∀ t, s.collCreate name = (.OK, t) → ∀ (mode : Mode) (packed : Bool)
    (ids : List UInt64) (documents : Bytes) (sizes : List ℕ) (status : Status) (out : GetOutput)
    (u : DocumentStoreMixin σ), mode.has .wait = false → documents.length ≤ lastValidSize →
    ids.length = sizes.length →
    t.docLoad name mode packed ids documents sizes = some (status, out, u) →
      status = .OK ∧ out.vsizes = List.replicate ids.length keyNotFound
  list_empty : ∀ t, s.collCreate name = (.OK, t) → supportsMode σ .noPrefix = true →
    ∀ (mode : Mode) (packed : Bool) (slots : DocSlots) (documents : Bytes), ∃ out u,
      t.docList name mode packed 0 defaultDocFilter slots.ids documents slots.docSizes =
          (.OK, out, u) ∧
        out.ids = List.replicate slots.ids.length noMoreDocs ∧
        out.docSizes = List.replicate slots.ids.length noMoreKeys

section Empty

variable {name : CString} {m : CollectionMetadata}

/-- In a collection without documents, `docLoad` finds none. -/
theorem docLoad_of_empty (ht : Coherent t) (hname : name.bytes ≠ [])
    (hm : (t.view name).metadata = some m) (hdocs : (t.view name).docs = fun _ => none) {mode : Mode}
    {packed : Bool} {ids : List UInt64} {documents : Bytes} {sizes : List ℕ} {status : Status}
    {out : GetOutput} {u : DocumentStoreMixin σ} (hwait : mode.has .wait = false)
    (hroom : documents.length ≤ lastValidSize) (hlen : ids.length = sizes.length)
    (hload : t.docLoad name mode packed ids documents sizes = some (status, out, u)) :
    status = .OK ∧ out.vsizes = List.replicate ids.length keyNotFound := by
  unfold docLoad at hload
  rw [if_neg hname, collExistsImpl_spec ht hname, hm] at hload
  cases hkeys : keysFromIds name ids with
  | none => simp [hkeys] at hload
  | some keys =>
    obtain ⟨hfit, rfl⟩ := keysFromIds_eq hkeys
    have hksizes : (idKeySizes name ids).length = sizes.length := by rw [length_idKeySizes, hlen]
    have hnone : ∀ k ∈ ids.map (keyFromId name), contents t.db k = none := by
      intro k hk
      obtain ⟨id, -, rfl⟩ := List.mem_map.1 hk
      exact congrFun hdocs id
    simp only [hkeys, ne_eq, not_true, if_false, Option.isSome_some, Bool.not_true,
      Bool.false_eq_true, Option.map_some, Option.some.injEq, Prod.mk.injEq] at hload
    obtain ⟨rfl, rfl, -⟩ := hload
    refine ⟨(get_contents ht.serving hwait (packed_keys hfit) hksizes).1, ?_⟩
    cases packed with
    | true =>
      -- an absent key is marked as such, whether or not a value before it fitted
      have hvalues : ∀ (ks : List Bytes) (room : ℕ) (full : Bool),
          (∀ k ∈ ks, contents t.db k = none) →
          (packedValues (contents t.db) ks room full).1 = List.replicate ks.length keyNotFound := by
        intro ks room full hks
        induction ks with
        | nil => rfl
        | cons k ks ih =>
          unfold packedValues
          rw [hks k List.mem_cons_self]
          dsimp only
          rw [ih fun k' hk' => hks k' (List.mem_cons_of_mem k hk'), List.length_cons,
            List.replicate_succ]
      rw [get_packed ht.serving hwait (packed_keys hfit) hksizes hroom, unpack_keys]
      dsimp only
      rw [hvalues _ _ _ hnone, List.length_map]
    | false =>
      rw [get_slots ht.serving hwait (packed_keys hfit) hksizes, unpack_keys]
      have hzip : ∀ (ks : List Bytes) (slots : List ℕ), ks.length = slots.length →
          (∀ k ∈ ks, contents t.db k = none) →
          List.zipWith (fun k slot => slotSize slot (contents t.db k)) ks slots =
            List.replicate ks.length keyNotFound := by
        intro ks
        induction ks with
        | nil => exact fun _ _ _ => rfl
        | cons k ks ih =>
          intro slots hslots hks
          cases slots with
          | nil => simp at hslots
          | cons slot slots =>
            rw [List.zipWith_cons_cons, ih slots (by simpa using hslots)
              fun k' hk' => hks k' (List.mem_cons_of_mem k hk'), hks k List.mem_cons_self,
              List.length_cons, List.replicate_succ]
            rfl
      rw [hzip _ _ (by rw [List.length_map, hlen]) hnone, List.length_map]

/-- In a new collection without documents, `docList` lists none. -/
theorem docList_of_empty (ht : Coherent t) (hname : name.bytes ≠ [])
    (hm : (t.view name).metadata = some {}) (hdocs : (t.view name).docs = fun _ => none)
    (hsupports : supportsMode σ .noPrefix = true) (mode : Mode) (packed : Bool) (slots : DocSlots)
    (documents : Bytes) :
    ∃ out u, t.docList name mode packed 0 defaultDocFilter slots.ids documents slots.docSizes =
        (.OK, out, u) ∧
      out.ids = List.replicate slots.ids.length noMoreDocs ∧
      out.docSizes = List.replicate slots.ids.length noMoreKeys := by
  cases hsorted : isSorted σ with
  | true =>
    obtain ⟨u, hlist, -⟩ := docList_sorted hsorted hsupports ht hname mode packed 0 slots documents
    simp only [Collection.list, hm, hdocs, documentsFrom_none, List.take_nil] at hlist
    refine ⟨_, u, hlist, ?_, ?_⟩
    · simp [listing]
    · simp [listing, Column.pushAll, Column.start, Column.finish]
  | false =>
    obtain ⟨u, hget, -⟩ := collGetMetadata_of_some ht hname hm {}
    refine ⟨_, _, by
      simp only [docList, hname, hsupports, hget, hsorted, if_false, Bool.not_true,
        Bool.false_eq_true, ne_eq, not_true]
      rfl, ?_, ?_⟩
    · simp [idsFrom, docListLoop]
    · simp [idsFrom, docListLoop]

end Empty

/-- `collDrop` forgets a collection exactly when its documents are below `next_id`. -/
theorem forgotten_iff (ht : Coherent t) {name : CString} (hname : name.bytes ≠ []) {mode : Mode}
    (hwait : mode.has .wait = false) {u : DocumentStoreMixin σ}
    (hdrop : t.collDrop mode name = some (.OK, u)) :
    Forgotten u name ↔ t.DocumentsBelow name := by
  have hspec := collDrop_spec ht hname hwait hdrop
  have hstatus := hspec.status_eq
  cases hm : (t.view name).metadata with
  | none => rw [Collection.drop, hm] at hstatus; cases hstatus
  | some m =>
    have hview : u.view name = ⟨none, eraseAll (t.view name).docs m.idsBelow⟩ := by
      rw [hspec.view_eq, Function.update_self, Collection.drop, hm]
    obtain ⟨w, hget, -⟩ := collGetMetadata_of_some ht hname hm {}
    have hdocs : ∀ id, contents u.db (keyFromId name id) =
        eraseAll (t.view name).docs m.idsBelow id := fun id =>
      congrFun (congrArg Collection.docs hview) id
    constructor
    · intro hforgotten id hid
      refine ⟨m, w, hget, ?_⟩
      have hgone := hforgotten.docs_gone id
      rw [hdocs, eraseAll_apply] at hgone
      -- a document that is gone was erased, and only the ids below `next_id` are
      by_contra hlt
      rw [if_neg fun hmem => hlt (Collection.mem_idsBelow.1 hmem)] at hgone
      have hid : ((t.view name).docs id).isSome := hid
      rw [hgone] at hid
      cases hid
    · intro hbelow
      have hgone : ∀ id, contents u.db (keyFromId name id) = none := by
        intro id
        rw [hdocs, eraseAll_apply]
        split_ifs with hmem
        · rfl
        · by_contra hne
          obtain ⟨m', w', hget', hlt⟩ := hbelow id (Option.isSome_iff_ne_none.2 hne)
          rw [hget] at hget'
          obtain ⟨-, rfl, -⟩ := Prod.mk.inj hget'
          exact hmem (Collection.mem_idsBelow.2 hlt)
      -- the collection that is created again has the documents that the drop left: none
      have hcreate : ∀ v, u.collCreate name = (.OK, v) → Coherent v ∧
          (v.view name).metadata = some {} ∧ (v.view name).docs = fun _ => none := by
        intro v hv
        have hspec' := collCreate_spec hspec.coherent hname
        rw [hv] at hspec'
        have hnew := congrFun hspec'.view_eq name
        rw [Function.update_self, Collection.create, hview] at hnew
        refine ⟨hspec'.coherent, congrArg Collection.metadata hnew, ?_⟩
        rw [congrArg Collection.docs hnew]
        funext id
        exact (hdocs id).symm.trans (hgone id)
      refine ⟨?_, hgone, ?_, ?_⟩
      · have hsome := hspec.coherent.isSome_metadata name
        rw [hview] at hsome
        exact Option.isNone_iff_eq_none.1 (by simpa using hsome.symm)
      · intro v hv mode packed ids documents sizes status out w hwait hroom hlen hload
        obtain ⟨hcoherent, hmeta, hnone⟩ := hcreate v hv
        exact docLoad_of_empty hcoherent hname hmeta hnone hwait hroom hlen hload
      · intro v hv hsupports mode packed slots documents
        obtain ⟨hcoherent, hmeta, hnone⟩ := hcreate v hv
        exact docList_of_empty hcoherent hname hmeta hnone hsupports mode packed slots documents

/-- A collection that exists, with few ids, can be dropped. -/
theorem exists_drop (ht : Coherent t) {name : CString} (hname : name.bytes ≠ [])
    {m : CollectionMetadata} (hm : (t.view name).metadata = some m)
    (hroom : m.nextId.toNat * (name.bytes.length + 1 + 8) + name.bytes.length < 2 ^ 64) :
    ∃ u, t.collDrop .default name = some (.OK, u) := by
  have hfits : Fits name (t.view name) (.drop .default) := by
    intro m' hm'
    obtain rfl := Option.some.inj (hm.symm.trans hm')
    exact hroom
  obtain ⟨⟨status, u⟩, hdrop⟩ := Option.isSome_iff_exists.1 (collDrop_isSome ht .default hfits)
  have hstatus := (collDrop_spec ht hname (Mode.has_default _) hdrop).status_eq
  rw [Collection.drop, hm] at hstatus
  exact ⟨u, by rw [hdrop, hstatus]⟩

/-- In runs that keep `next_id` above the documents, `collDrop` leaves nothing of a collection. -/
theorem drop_leaves_nothing (hs : Fresh s) {ops : List (CString × DocOp)}
    (hrun : Run (StepWhen Collection.KeepsNextId) s ops t) {name : CString}
    (hname : name.bytes ≠ []) {mode : Mode} (hwait : mode.has .wait = false)
    {u : DocumentStoreMixin σ} (hdrop : t.collDrop mode name = some (.OK, u)) :
    Forgotten u name := by
  have hstart : ∀ n, Collection.BelowNextId (s.view n) := by
    intro n id hid
    rw [hs.view_eq] at hid
    cases hid
  obtain ⟨ht, hbelow⟩ := run_invariant Collection.step_belowNextId hrun hs.coherent hstart
  refine (forgotten_iff ht hname hwait hdrop).2 fun id hid => ?_
  obtain ⟨m, hm, hlt⟩ := hbelow name id hid
  obtain ⟨w, hget, -⟩ := collGetMetadata_of_some ht hname hm {}
  exact ⟨m, w, hget, hlt⟩

/-- A collection with two documents, one of them updated, is dropped. -/
theorem drop_leaves_nothing_stored :
    ∃ t u, Run (StepWhen Collection.KeepsNextId) emptyMap
        [(nameC, .create), (nameC, .store .default (twoDocs 1 2) [0, 0]),
          (nameC, .update .updateNew [1] (oneDoc 3))] t ∧
      (contents t.db (keyFromId nameC 1)).isSome ∧
      t.collDrop .default nameC = some (.OK, u) ∧ Forgotten u nameC := by
  obtain ⟨t, hrun, ht, hm, hdoc⟩ := exists_run_updating
  obtain ⟨u, hdrop⟩ := exists_drop ht (by decide) hm (by decide)
  exact ⟨t, u, hrun, congrArg Option.isSome hdoc, hdrop,
    drop_leaves_nothing fresh_emptyMap hrun (by decide) (Mode.has_default _) hdrop⟩

/-- After `YOKAN_MODE_UPDATE_NEW` has lowered `next_id`, a document survives the drop of its
collection. -/
theorem document_survives_drop :
    ∃ t u, Run (StepWhen fun _ _ => True) emptyMap
        [(nameC, .create), (nameC, .store .default (twoDocs 1 2) [0, 0]),
          (nameC, .update .updateNew [0] (oneDoc 3))] t ∧
      t.collDrop .default nameC = some (.OK, u) ∧ ¬ Forgotten u nameC := by
  obtain ⟨t, hrun, ht, hm, hdoc⟩ := exists_run_lowering
  obtain ⟨u, hdrop⟩ := exists_drop ht (by decide) hm (by decide)
  refine ⟨t, u, hrun, hdrop, ?_⟩
  rw [forgotten_iff ht (by decide) (Mode.has_default _) hdrop]
  intro hbelow
  obtain ⟨m, w, hget, hlt⟩ := hbelow 1 (by
    rw [show contents t.db (keyFromId nameC 1) = some [2] from hdoc]
    rfl)
  obtain ⟨w', hget', -⟩ := collGetMetadata_of_some ht (by decide) hm {}
  rw [hget] at hget'
  obtain ⟨-, rfl, -⟩ := Prod.mk.inj hget'
  exact absurd hlt (by decide)

end DocumentStoreMixin

end Yokan
