import Mathlib.Data.FinEnum
import Yokan.DocMixinInvariants

/-!
# Yokan: the mixin serves documents

What the mixin is for, in its basic modes: every collection is a map from ids to documents, with
the ids handed out one after the other. `DocumentMap` states it with no metadata, no size and no
status; `mixin_serves_documents` says that after any run of the basic operations each operation
answers what the document map of its collection says, as long as no collection has handed out
`2 ^ 64` ids. Then the ids start again from zero (`next_id_wraps`).
-/

namespace Yokan

open Buffer PartialMap Transition DatabaseInterface FiniteMapStore

/-! ### Document maps -/

/-- The documents of a collection, and the ids handed out since it was created: how many, and
which. -/
structure DocumentMap where
  nextId : ℕ
  assigned : Set UInt64
  docs : UInt64 → Option Bytes

namespace DocumentMap

/-- A collection without documents. -/
def empty : DocumentMap := ⟨0, ∅, fun _ => none⟩

/-- The `count` ids from `next_id` on. -/
def fresh (d : DocumentMap) (count : ℕ) : List UInt64 :=
  (List.range count).map (fun i => UInt64.ofNat (d.nextId + i))

/-- Storing documents: ids are handed out, and a well-formed request fills them. -/
def store (d : DocumentMap) (batch : DocBatch) (count : ℕ) : DocumentMap where
  nextId := d.nextId + count
  assigned := d.assigned ∪ {id | id ∈ d.fresh count}
  docs := if batch.Holds count then
      writeAll (fun _ doc => some doc) d.docs ((d.fresh count).zip batch.docs)
    else d.docs

open Classical in
/-- Updating documents, by the rule of the mode, when all the ids have been handed out. -/
noncomputable def update (d : DocumentMap) (mode : Mode) (ids : List UInt64) (batch : DocBatch) :
    DocumentMap :=
  if (∀ id ∈ ids, id ∈ d.assigned) ∧ batch.Holds ids.length then
    { d with docs := writeAll (putRule mode) d.docs (ids.zip batch.docs) }
  else d

/-- Erasing documents. -/
def erase (d : DocumentMap) (ids : List UInt64) : DocumentMap :=
  { d with docs := eraseAll d.docs ids }

/-- The operations on a collection that may not exist. -/
noncomputable def step : Option DocumentMap → DocOp → Option DocumentMap
  | none, .create => some empty
  | none, _ => none
  | some d, .create => some d
  | some _, .drop _ => none
  | some d, .store _ batch ids => some (d.store batch ids.length)
  | some d, .update mode ids batch => some (d.update mode ids batch)
  | some d, .erase _ ids => some (d.erase ids)
  | some d, .load _ _ _ _ _ => some d

/-- The operations on a family of collections. The empty name is refused. -/
noncomputable def familyStep (f : CString → Option DocumentMap) (op : CString × DocOp) :
    CString → Option DocumentMap :=
  if op.1.bytes = [] then f else Function.update f op.1 (step (f op.1) op.2)

theorem familyStep_apply (f : CString → Option DocumentMap) (name n : CString) (op : DocOp) :
    familyStep f (name, op) n =
      if name.bytes ≠ [] ∧ n = name then step (f name) op else f n := by
  unfold familyStep
  by_cases hname : name.bytes = []
  · simp [hname]
  · by_cases hn : n = name
    · subst hn
      simp [hname]
    · simp [hname, hn]

end DocumentMap

/-- The basic modes: `docStore` in the default mode, `docUpdate` without `YOKAN_MODE_UPDATE_NEW`,
and no reader that removes what it reads. -/
def DocOp.Basic : DocOp → Prop
  | .create => True
  | .drop _ => True
  | .store mode _ _ => mode = .default
  | .update mode _ _ => mode.has .updateNew = false
  | .erase _ _ => True
  | .load mode _ _ _ _ => mode.has .consume = false

/-! ### Collections represent document maps -/

namespace Collection

/-- The collection holds the documents of a document map, whose ids are those below `next_id`. -/
def Represents (c : Collection) : Option DocumentMap → Prop
  | none => c.metadata = none
  | some d => ∃ m, c.metadata = some m ∧ m.nextId.toNat = d.nextId ∧
      (∀ id : UInt64, id ∈ d.assigned ↔ id.toNat < d.nextId) ∧ c.docs = d.docs

variable {c : Collection} {d : DocumentMap} {m : CollectionMetadata}

theorem assigned_eq_fresh (hm : m.nextId.toNat = d.nextId) (n : ℕ) : m.assigned n = d.fresh n := by
  unfold CollectionMetadata.assigned DocumentMap.fresh
  refine List.map_congr_left fun i _ => ?_
  rw [← hm, UInt64.ofNat_add, UInt64.ofNat_toNat]

theorem mem_fresh (hm : m.nextId.toNat = d.nextId) {n : ℕ} (hn : d.nextId + n < 2 ^ 64)
    {id : UInt64} : id ∈ d.fresh n ↔ d.nextId ≤ id.toNat ∧ id.toNat < d.nextId + n := by
  rw [← assigned_eq_fresh hm, mem_assigned (by rwa [hm]), hm]

theorem putRule_default : putRule .default = fun _ doc => some doc := by
  funext old val
  simp [putRule]

theorem write_ne_invalidID {mode : Mode} {ids : List UInt64} {batch : DocBatch}
    {docs : UInt64 → Option Bytes} : (write mode ids batch docs).1 ≠ .InvalidID := by
  have hput : ∀ ps, putStatus mode docs ps ≠ .InvalidID := by
    intro ps
    unfold putStatus
    split
    · split_ifs <;> simp
    · simp
  unfold write
  split_ifs
  · exact hput _
  · simp

theorem store_represents {batch : DocBatch} {ids : List UInt64} (hc : c.Represents (some d))
    (hroom : d.nextId + ids.length < 2 ^ 64) :
    (c.store .default batch ids).2.2.Represents (some (d.store batch ids.length)) := by
  obtain ⟨m, hm, hnext, hassigned, hdocs⟩ := hc
  have hids := assigned_eq_fresh hnext ids.length
  simp only [store, hm]
  refine ⟨_, rfl, ?_, ?_, ?_⟩
  · show (m.nextId + UInt64.ofNat ids.length).toNat = d.nextId + ids.length
    rw [← hnext] at hroom ⊢
    exact toNat_add_ofNat hroom
  · intro id
    rw [DocumentMap.store, Set.mem_union, hassigned, Set.mem_ofPred_eq, mem_fresh hnext hroom]
    dsimp only
    omega
  · rw [hids, hdocs, DocumentMap.store, write, putRule_default]
    have hlen : (d.fresh ids.length).length = ids.length := by simp [DocumentMap.fresh]
    rw [hlen]
    split_ifs <;> rfl

theorem update_represents {mode : Mode} {ids : List UInt64} {batch : DocBatch}
    (hc : c.Represents (some d)) (hmode : mode.has .updateNew = false) :
    (c.update mode ids batch).2.Represents (some (d.update mode ids batch)) := by
  obtain ⟨m, hm, hnext, hassigned, hdocs⟩ := hc
  have hids : (∀ id ∈ ids, id ∈ d.assigned) ↔ ∀ id ∈ ids, id < m.nextId := by
    refine forall₂_congr fun id _ => ?_
    rw [hassigned, UInt64.lt_iff_toNat_lt, hnext]
  have hwrite : (write mode ids batch c.docs).2 =
      if batch.Holds ids.length then writeAll (putRule mode) d.docs (ids.zip batch.docs)
      else d.docs := by
    rw [write, hdocs]
    split_ifs <;> rfl
  simp only [update, hm, hmode, Bool.false_eq_true, if_false]
  unfold DocumentMap.update
  by_cases hany : ids.any (fun id => m.nextId ≤ id) = true
  · have hno : ¬ ((∀ id ∈ ids, id ∈ d.assigned) ∧ batch.Holds ids.length) := fun h =>
      not_any_le.2 (hids.1 h.1) hany
    rw [if_pos hany, if_neg hno]
    exact ⟨m, hm, hnext, hassigned, hdocs⟩
  · have hall := hids.2 (not_any_le.1 hany)
    rw [if_neg hany]
    by_cases hholds : batch.Holds ids.length
    · rw [if_pos ⟨hall, hholds⟩]
      exact ⟨m, rfl, hnext, hassigned, by rw [hwrite, if_pos hholds]⟩
    · rw [if_neg fun h => hholds h.2]
      exact ⟨m, rfl, hnext, hassigned, by rw [hwrite, if_neg hholds]⟩

/-- Each basic operation acts on the document map. -/
theorem step_represents {c : Collection} {d : Option DocumentMap} {op : DocOp}
    (hc : c.Represents d) (hbelow : c.BelowNextId) (hbasic : op.Basic) (hkeeps : c.KeepsNextId op) :
    (c.step op).2.Represents (DocumentMap.step d op) := by
  cases d with
  | none =>
    have hm : c.metadata = none := hc
    cases op with
    | create =>
      have hdocs : c.docs = fun _ => none := by
        funext id
        by_contra hne
        obtain ⟨m, hm', -⟩ := hbelow id (Option.isSome_iff_ne_none.2 hne)
        rw [hm] at hm'
        cases hm'
      simp [step, create, hm, hdocs, DocumentMap.step, Represents, DocumentMap.empty]
    | _ => simp [step, drop, store, update, erase, load, hm, DocumentMap.step, Represents]
  | some d =>
    obtain ⟨m, hm, hnext, hassigned, hdocs⟩ := id hc
    cases op with
    | create => simpa [step, create, hm, DocumentMap.step] using hc
    | drop mode => simp [step, drop, hm, DocumentMap.step, Represents]
    | store mode batch ids =>
      obtain rfl : mode = .default := hbasic
      exact store_represents hc (by rw [← hnext]; exact hkeeps m hm)
    | update mode ids batch => exact update_represents hc hbasic
    | erase mode ids =>
      simp only [step, erase, hm, hdocs]
      exact ⟨_, rfl, hnext, hassigned, rfl⟩
    | load mode packed ids documents sizes =>
      have hconsume : mode.has .consume = false := hbasic
      simp only [step, load, hm, hconsume, Bool.false_eq_true, if_false]
      split_ifs
      · exact hc
      · exact ⟨m, rfl, hnext, hassigned, hdocs⟩

end Collection

namespace DocumentStoreMixin

variable {σ : Type} [FiniteMapStore σ] {s t : DocumentStoreMixin σ} {name : CString}
  {mode : Mode} {ids : List UInt64}

/-! ### Runs -/

/-- A run of basic operations is a run of document maps. -/
theorem run_represents (hs : Fresh s) {ops : List (CString × DocOp)}
    (hrun : Run (StepWhen fun c op => op.Basic ∧ c.KeepsNextId op) s ops t) :
    Coherent t ∧ ∀ n, (t.view n).BelowNextId ∧
      (t.view n).Represents (ops.foldl DocumentMap.familyStep (fun _ => none) n) := by
  have hrel : ∀ (s : DocumentStoreMixin σ) op t f,
      (Coherent s ∧ ∀ n, (s.view n).BelowNextId ∧ (s.view n).Represents (f n)) →
      StepWhen (fun c op => op.Basic ∧ c.KeepsNextId op) s op t →
      Coherent t ∧ ∀ n, (t.view n).BelowNextId ∧
        (t.view n).Represents (DocumentMap.familyStep f op n) := by
    rintro s ⟨name, op⟩ t f ⟨hs, hf⟩ ⟨hwaits, ⟨hbasic, hkeeps⟩, status, hr⟩
    obtain ⟨ht, hview⟩ := step_spec hs hwaits hr
    have hview : t.view = (s.view.step (name, op)).2 := congrArg Prod.snd hview
    refine ⟨ht, fun n => ?_⟩
    rw [hview, Family.step_apply, DocumentMap.familyStep_apply]
    obtain ⟨hbelow, hrep⟩ := hf name
    split_ifs
    · exact ⟨Collection.step_belowNextId _ _ hbelow hkeeps,
        Collection.step_represents hrep hbelow hbasic hkeeps⟩
    · exact hf n
  refine hrun.simulation hrel ⟨hs.coherent, fun n => ?_⟩
  rw [hs.view_eq]
  exact ⟨fun id hid => absurd hid Bool.false_ne_true, rfl⟩

/-! ### What the operations answer -/

/-- The operations on a collection answer what a document map says. The reads do not wait and do
not consume, the buffer of `docLoad` is large enough, and `docUpdate` can count its ids. -/
structure ServesAs (s : DocumentStoreMixin σ) (name : CString) (d : Option DocumentMap) : Prop where
  collExists : s.collExists name = (.OK, d.isSome)
  docs_of_notMem : ∀ m, d = some m → ∀ id ∉ m.assigned, m.docs id = none
  docStore : ∀ m, d = some m → ∀ (batch : DocBatch) ids, KeysFit name ids → m.nextId + ids.length < 2 ^ 64 →
    (∀ id ∈ m.fresh ids.length, id ∉ m.assigned) ∧
      ∃ status t, s.docStore name .default batch.documents batch.sizes ids =
        some (status, m.fresh ids.length, t)
  docUpdate : ∀ (mode : Mode) ids (batch : DocBatch), mode.has .updateNew = false →
    KeysFit name ids → ids.length < 2 ^ 32 →
    ∃ status t, s.docUpdate name mode ids batch.documents batch.sizes = some (status, t) ∧
      (status = .InvalidID ↔ ∃ m, d = some m ∧ ∃ id ∈ ids, id ∉ m.assigned) ∧
      (status = .InvalidID → t.view = s.view)
  docSize : ∀ m, d = some m → ∀ (mode : Mode) ids sizes, mode.has .wait = false → KeysFit name ids →
    ids.length = sizes.length →
    s.docSize name mode ids sizes = some (.OK, ids.map (fun id => entrySize (m.docs id)))
  docLoad : ∀ m, d = some m → ∀ (mode : Mode) ids documents sizes, mode.has .wait = false →
    mode.has .consume = false → KeysFit name ids → ids.length = sizes.length →
    documents.length ≤ lastValidSize → (ids.filterMap m.docs).flatten.length ≤ documents.length →
    ∃ t, t.view = s.view ∧ s.docLoad name mode true ids documents sizes =
      some (.OK, ⟨blit documents 0 (ids.filterMap m.docs).flatten,
        (ids.filterMap m.docs).flatten.length, ids.map (fun id => entrySize (m.docs id))⟩, t)
  docFetch : ∀ m, d = some m → ∀ (mode : Mode) ids, mode.has .wait = false →
    mode.has .consume = false → KeysFit name ids →
    ∀ {υ : Type} (func : υ → UInt64 → Option Bytes → Status × υ) (u : υ),
      (∀ u id doc, (func u id doc).1 = .OK) →
      s.docFetch name mode ids func u =
        some (.OK, s, ids.foldl (fun u id => (func u id (m.docs id)).2) u)

theorem docStore_serves (h : Coherent s) (hname : name.bytes ≠ []) {d : DocumentMap}
    (hd : (s.view name).Represents (some d)) (batch : DocBatch) (hfit : KeysFit name ids) :
    ∃ status t, s.docStore name .default batch.documents batch.sizes ids =
      some (status, d.fresh ids.length, t) := by
  obtain ⟨⟨status, assigned, t⟩, hstore⟩ := Option.isSome_iff_exists.1
    (docStore_isSome h .default batch.documents batch.sizes hfit)
  obtain ⟨-, rfl⟩ := docStore_spec h hname hstore
  obtain ⟨m, hm, hnext, -⟩ := hd
  have hids : ((s.view name).store .default batch ids).2.1 = d.fresh ids.length := by
    simp only [Collection.store, hm]
    exact Collection.assigned_eq_fresh hnext ids.length
  rw [hids] at hstore
  exact ⟨status, t, hstore⟩

theorem docUpdate_serves (h : Coherent s) (hname : name.bytes ≠ []) {d : Option DocumentMap}
    (hd : (s.view name).Represents d) (hmode : mode.has .updateNew = false) (batch : DocBatch)
    (hfit : KeysFit name ids) (hcount : ids.length < 2 ^ 32) :
    ∃ status t, s.docUpdate name mode ids batch.documents batch.sizes = some (status, t) ∧
      (status = .InvalidID ↔ ∃ m, d = some m ∧ ∃ id ∈ ids, id ∉ m.assigned) ∧
      (status = .InvalidID → t.view = s.view) := by
  obtain ⟨⟨status, t⟩, hupdate⟩ := Option.isSome_iff_exists.1
    (docUpdate_isSome (s := s) mode batch.documents batch.sizes hfit hcount)
  have hnew : mode.has .updateNew = true → mode.has .wait = false := fun hnew => by
    rw [hmode] at hnew
    cases hnew
  obtain ⟨-, hstatus, hview⟩ := docUpdate_spec h hname hnew hupdate
  refine ⟨status, t, hupdate, ?_⟩
  rw [hstatus, hview]
  cases d with
  | none =>
    have hm : (s.view name).metadata = none := hd
    simp [Collection.update, hm]
  | some d =>
    obtain ⟨m, hm, hnext, hassigned, -⟩ := hd
    have hids : ids.any (fun id => m.nextId ≤ id) = true ↔ ∃ id ∈ ids, id ∉ d.assigned := by
      rw [← not_not (a := ids.any _ = true), Collection.not_any_le]
      push Not
      refine exists_congr fun id => and_congr_right fun _ => ?_
      rw [hassigned, ← hnext, UInt64.lt_iff_toNat_lt]
    simp only [Collection.update, hm, hmode, Bool.false_eq_true, if_false, Option.some.injEq,
      exists_eq_left', ← hids]
    split_ifs with hany
    · simp [hany]
    · simp [hany, Collection.write_ne_invalidID]

theorem docSize_serves (h : Coherent s) (hname : name.bytes ≠ []) {d : DocumentMap}
    (hd : (s.view name).Represents (some d)) (hwait : mode.has .wait = false)
    (hfit : KeysFit name ids) {sizes : List ℕ} (hsizes : ids.length = sizes.length) :
    s.docSize name mode ids sizes = some (.OK, ids.map (fun id => entrySize (d.docs id))) := by
  obtain ⟨m, hm, -, -, hdocs⟩ := hd
  have hlen : (idKeySizes name ids).length = sizes.length := by
    rw [length_idKeySizes, hsizes]
  have hlength := length_eq h.serving hwait (packed_keys hfit) hlen
  rw [unpack_keys, List.map_map] at hlength
  rw [docSize, if_neg hname, keysFromIds_of_fit hfit, Option.map_some, hlength, ← hdocs]
  rfl

theorem docLoad_serves (h : Coherent s) (hname : name.bytes ≠ []) {d : DocumentMap}
    (hd : (s.view name).Represents (some d)) (hwait : mode.has .wait = false)
    (hconsume : mode.has .consume = false) (hfit : KeysFit name ids) {documents : Bytes}
    {sizes : List ℕ} (hsizes : ids.length = sizes.length)
    (hdocuments : documents.length ≤ lastValidSize)
    (hroom : (ids.filterMap d.docs).flatten.length ≤ documents.length) :
    ∃ t, t.view = s.view ∧ s.docLoad name mode true ids documents sizes =
      some (.OK, ⟨blit documents 0 (ids.filterMap d.docs).flatten,
        (ids.filterMap d.docs).flatten.length, ids.map (fun id => entrySize (d.docs id))⟩, t) := by
  obtain ⟨m, hm, -, -, hdocs⟩ := hd
  have hlen : (idKeySizes name ids).length = sizes.length := by
    rw [length_idKeySizes, hsizes]
  have hvalues : (ids.map (keyFromId name)).filterMap (contents s.db) = ids.filterMap d.docs := by
    rw [List.filterMap_map, ← hdocs]
    rfl
  have hreported : (ids.map (keyFromId name)).map (fun k => entrySize (contents s.db k)) =
      ids.map (fun id => entrySize (d.docs id)) := by
    rw [List.map_map, ← hdocs]
    rfl
  obtain ⟨hok, -, hcontents⟩ : (get mode true s.db (ids.map (keyFromId name)).flatten
      (idKeySizes name ids) documents sizes).status = .OK ∧ _ :=
    get_contents h.serving hwait (packed_keys hfit) hlen
  have hout := get_packed h.serving hwait (packed_keys hfit) hlen hdocuments
  rw [hconsume, if_neg Bool.false_ne_true] at hcontents
  simp only [unpack_keys] at hout
  rw [packedValues_of_le _ _ (by rwa [hvalues]), hvalues, hreported] at hout
  refine ⟨_, view_eq_of_contents (t := ⟨_, s.cached⟩) hcontents fun n => ?_, ?_⟩
  · simp only [view, hcontents]
  · rw [docLoad, if_neg hname, collExistsImpl_spec h hname, hm]
    simp only [ne_eq, not_true, if_false, Option.isSome_some, Bool.not_true, Bool.false_eq_true,
      keysFromIds_of_fit hfit, Option.map_some, hok, hout]

theorem docFetch_serves (h : Coherent s) (hname : name.bytes ≠ []) {d : DocumentMap}
    (hd : (s.view name).Represents (some d)) (hwait : mode.has .wait = false)
    (hconsume : mode.has .consume = false) (hfit : KeysFit name ids) {υ : Type}
    (func : υ → UInt64 → Option Bytes → Status × υ) (u : υ)
    (hfunc : ∀ u id doc, (func u id doc).1 = .OK) :
    s.docFetch name mode ids func u =
      some (.OK, s, ids.foldl (fun u id => (func u id (d.docs id)).2) u) := by
  obtain ⟨m, hm, -, -, hdocs⟩ := hd
  have hfetch : fetch mode s.db (ids.map (keyFromId name)).flatten (idKeySizes name ids)
      (fun u key val => func u (idFromKey name.bytes.length key) val) u = _ :=
    fetch_eq h.serving hwait hconsume (packed_keys hfit) fun u key val => hfunc u _ val
  rw [unpack_keys, List.foldl_map] at hfetch
  simp only [idFromKey_keyFromId] at hfetch
  rw [docFetch, if_neg hname, collExistsImpl_spec h hname, hm]
  simp only [ne_eq, not_true, if_false, keysFromIds_of_fit hfit, Option.map_some, hfetch, ← hdocs]
  rfl

/-- After any run of basic operations in which no collection hands out `2 ^ 64` ids, every
operation answers what the document map of its collection says. -/
theorem mixin_serves_documents (hs : Fresh s) {ops : List (CString × DocOp)}
    (hrun : Run (StepWhen fun c op => op.Basic ∧ c.KeepsNextId op) s ops t)
    (hname : name.bytes ≠ []) :
    t.ServesAs name (ops.foldl DocumentMap.familyStep (fun _ => none) name) := by
  obtain ⟨ht, hall⟩ := run_represents hs hrun
  obtain ⟨hbelow, hrep⟩ := hall name
  generalize ops.foldl DocumentMap.familyStep (fun _ => none) name = d at hrep ⊢
  constructor
  case collExists =>
    rw [collExists, collExistsImpl_spec ht hname]
    cases d with
    | none =>
      have hm : (t.view name).metadata = none := hrep
      rw [hm]
      rfl
    | some d =>
      obtain ⟨m, hm, -⟩ := hrep
      rw [hm]
      rfl
  case docs_of_notMem =>
    rintro d rfl id hid
    obtain ⟨m, hm, hnext, hassigned, hdocs⟩ := hrep
    by_contra hne
    obtain ⟨m', hm', hlt⟩ := hbelow id (by rwa [hdocs, Option.isSome_iff_ne_none])
    obtain rfl := Option.some.inj (hm.symm.trans hm')
    rw [UInt64.lt_iff_toNat_lt, hnext] at hlt
    exact hid ((hassigned id).2 hlt)
  case docStore =>
    rintro d rfl batch ids hfit hroom
    refine ⟨fun id hid hold => ?_, docStore_serves ht hname hrep batch hfit⟩
    obtain ⟨m, -, hnext, hassigned, -⟩ := hrep
    have hge := ((Collection.mem_fresh hnext hroom).1 hid).1
    have hlt := (hassigned id).1 hold
    omega
  case docUpdate =>
    intro mode ids batch hmode hfit hcount
    exact docUpdate_serves ht hname hrep hmode batch hfit hcount
  case docSize =>
    rintro d rfl mode ids sizes hwait hfit hsizes
    exact docSize_serves ht hname hrep hwait hfit hsizes
  case docLoad =>
    rintro d rfl mode ids documents sizes hwait hconsume hfit hsizes hdocuments hroom
    exact docLoad_serves ht hname hrep hwait hconsume hfit hsizes hdocuments hroom
  case docFetch =>
    rintro d rfl mode ids hwait hconsume hfit υ func u hfunc
    exact docFetch_serves ht hname hrep hwait hconsume hfit func u hfunc

/-- A run that stores two documents, updates one of them and erases the other. -/
theorem mixin_serves_documents_erased :
    ∃ t, Run (StepWhen fun c op => op.Basic ∧ c.KeepsNextId op) emptyMap
        [(nameC, .create), (nameC, .store .default (twoDocs 1 2) [0, 0]),
          (nameC, .update .default [1] (oneDoc 3)), (nameC, .erase .default [0])] t ∧
      (t.view nameC).docs 1 = some [3] ∧
      t.ServesAs nameC
        ([(nameC, .create), (nameC, .store .default (twoDocs 1 2) [0, 0]),
          (nameC, .update .default [1] (oneDoc 3)),
          (nameC, .erase .default [0])].foldl DocumentMap.familyStep (fun _ => none) nameC) := by
  have hpermits : Permits (fun c op => op.Basic ∧ c.KeepsNextId op) emptyMap.view
      [(nameC, .create), (nameC, .store .default (twoDocs 1 2) [0, 0]),
        (nameC, .update .default [1] (oneDoc 3)), (nameC, .erase .default [0])] := by
    rw [fresh_emptyMap.view_eq]
    refine ⟨⟨rfl, ⟨trivial, trivial⟩, trivial⟩, ⟨rfl, ⟨rfl, ?_⟩, ?_⟩, ⟨rfl, ⟨rfl, ?_⟩, ?_, ?_⟩,
      ⟨rfl, ⟨trivial, trivial⟩, ?_⟩, trivial⟩
    · intro m hm
      obtain rfl : ⟨0, 0⟩ = m := Option.some.inj hm
      decide
    · show _ < _
      decide
    · exact fun _ hnew => absurd hnew (by decide)
    · show _ < _
      decide
    · decide
    · show _ < _
      decide
  obtain ⟨t, hrun, -, hview⟩ := exists_run fresh_emptyMap.coherent hpermits
  refine ⟨t, hrun, ?_, mixin_serves_documents fresh_emptyMap hrun (by decide)⟩
  rw [hview, fresh_emptyMap.view_eq]
  rfl

/-! ### Handing out all the ids -/

/-- `n` empty documents. -/
def emptyDocs (n : ℕ) : DocBatch := ⟨[], List.replicate n 0, by simp⟩

/-- Create a collection, and `k` times store `n` empty documents and erase them. -/
def storeAndErase (n : ℕ) : ℕ → List (CString × DocOp)
  | 0 => [(nameC, .create)]
  | k + 1 => storeAndErase n k ++
      [(nameC, .store .default (emptyDocs n) (List.replicate n 0)),
        (nameC, .erase .default ((CollectionMetadata.mk 0 (UInt64.ofNat (k * n))).assigned n))]

/-- Storing empty documents puts one under every id assigned, and nothing else. -/
theorem store_emptyDocs (n : ℕ) (next : UInt64) :
    let c : Collection := ⟨some ⟨0, next⟩, fun _ => none⟩
    let c' := (c.store .default (emptyDocs n) (List.replicate n 0)).2.2
    c'.metadata = some ⟨UInt64.ofNat n, next + UInt64.ofNat n⟩ ∧
      support c'.docs = {id | id ∈ (CollectionMetadata.mk 0 next).assigned n} := by
  have hlen : ((CollectionMetadata.mk 0 next).assigned n).length = n := by
    simp [CollectionMetadata.assigned]
  have haccepts : Collection.Accepts .default ((CollectionMetadata.mk 0 next).assigned n)
      (emptyDocs n) (fun _ => none) := by
    refine ⟨?_, by simp [putStatus]; split <;> rfl⟩
    rw [hlen]
    simp [DocBatch.Holds, emptyDocs]
  have hok := Collection.write_status.2 haccepts
  simp only [Collection.store, List.length_replicate, hok, if_true]
  refine ⟨by simp, ?_⟩
  rw [Collection.write, if_pos haccepts.1, support_writeAll_filling (putRule_filling rfl),
    Collection.map_fst_zip haccepts.1]
  have hempty : support (fun _ : UInt64 => (none : Option Bytes)) = ∅ := by
    ext id
    simp [support]
  rw [hempty, Set.empty_union]

theorem store_then_erase (n : ℕ) (next : UInt64) :
    let c : Collection := ⟨some ⟨0, next⟩, fun _ => none⟩
    ((c.store .default (emptyDocs n) (List.replicate n 0)).2.2.erase
      ((CollectionMetadata.mk 0 next).assigned n)).2 =
        ⟨some ⟨0, next + UInt64.ofNat n⟩, fun _ => none⟩ := by
  obtain ⟨hmetadata, hsupport⟩ := store_emptyDocs n next
  have hlen : ((CollectionMetadata.mk 0 next).assigned n).length = n := by
    simp [CollectionMetadata.assigned]
  intro c
  generalize (c.store .default (emptyDocs n) (List.replicate n 0)).2.2 = c' at hmetadata hsupport ⊢
  generalize (CollectionMetadata.mk 0 next).assigned n = ids at hsupport hlen ⊢
  have hpresent : presentIn c'.docs ids = ids :=
    List.filter_eq_self.2 fun id hid => by
      have hmem : id ∈ support c'.docs := by rw [hsupport]; exact hid
      exact hmem
  have hdocs : eraseAll c'.docs ids = fun _ => none := by
    funext id
    rw [eraseAll_apply]
    split_ifs with hid
    · rfl
    · have hnot : id ∉ support c'.docs := by rw [hsupport]; exact hid
      exact Option.not_isSome_iff_eq_none.1 hnot
  simp only [Collection.erase, hmetadata, hpresent, hdocs, hlen, UInt64.sub_self]

theorem storeAndErase_run (hs : Fresh s) {n : ℕ} (hn : n * 10 < 2 ^ 64) (k : ℕ) :
    ∃ t, Run (StepWhen fun _ op => op.Basic) s (storeAndErase n k) t ∧ Coherent t ∧
      t.view nameC = ⟨some ⟨0, UInt64.ofNat (k * n)⟩, fun _ => none⟩ := by
  have hlen : nameC.bytes.length + 1 + 8 = 10 := rfl
  induction k with
  | zero =>
    have hpermits : Permits (fun _ op => op.Basic) s.view [(nameC, .create)] :=
      ⟨⟨rfl, trivial, trivial⟩, trivial⟩
    obtain ⟨t, hrun, ht, hview⟩ := exists_run hs.coherent hpermits
    refine ⟨t, hrun, ht, ?_⟩
    rw [hview, hs.view_eq, Nat.zero_mul]
    rfl
  | succ k ih =>
    obtain ⟨t, hrun, ht, hview⟩ := ih
    have hpermits : Permits (fun _ op => op.Basic) t.view
        [(nameC, .store .default (emptyDocs n) (List.replicate n 0)),
        (nameC, .erase .default ((CollectionMetadata.mk 0 (UInt64.ofNat (k * n))).assigned n))] := by
      refine ⟨⟨rfl, rfl, ?_⟩, ⟨rfl, trivial, ?_⟩, trivial⟩
      · show List.length _ * _ < _
        rw [List.length_replicate, hlen]
        exact hn
      · show List.length _ * _ < _
        rw [CollectionMetadata.assigned, List.length_map, List.length_range, hlen]
        exact hn
    obtain ⟨u, hrun', hu, hview'⟩ := exists_run ht hpermits
    refine ⟨u, hrun.append hrun', hu, ?_⟩
    rw [hview']
    simp only [List.foldl_cons, List.foldl_nil, Family.step_apply]
    have hne : nameC.bytes ≠ [] := by decide
    have hcycle := store_then_erase n (UInt64.ofNat (k * n))
    simp only [hne, ne_eq, not_false_eq_true, and_self, if_true, Collection.step, hview]
    rw [hcycle, ← UInt64.ofNat_add, Nat.succ_mul]

theorem zero_mem_assigned {n : ℕ} (hn : 0 < n) (k : ℕ) :
    ∃ d, (storeAndErase n k).foldl DocumentMap.familyStep (fun _ => none) nameC = some d ∧
      d.nextId = k * n ∧ (0 < k → 0 ∈ d.assigned) := by
  have hne : nameC.bytes ≠ [] := by decide
  induction k with
  | zero =>
    refine ⟨.empty, ?_, (Nat.zero_mul n).symm, fun h => absurd h (lt_irrefl 0)⟩
    simp [storeAndErase, DocumentMap.familyStep_apply, hne, DocumentMap.step]
  | succ k ih =>
    obtain ⟨d, hd, hnext, hzero⟩ := ih
    refine ⟨(d.store (emptyDocs n) n).erase
      ((CollectionMetadata.mk 0 (UInt64.ofNat (k * n))).assigned n), ?_, ?_, fun _ => ?_⟩
    · rw [storeAndErase, List.foldl_append]
      simp [DocumentMap.familyStep_apply, hne, hd, DocumentMap.step]
    · show d.nextId + n = _
      rw [hnext, Nat.succ_mul]
    · rcases Nat.eq_zero_or_pos k with rfl | hk
      · refine Or.inr (List.mem_map.2 ⟨0, List.mem_range.2 hn, ?_⟩)
        rw [hnext, Nat.zero_mul]
        rfl
      · exact Or.inl (hzero hk)

/-- After `2 ^ 64` ids `next_id` is zero, and an id that was handed out is refused. -/
theorem next_id_wraps :
    ∃ t, Run (StepWhen fun _ op => op.Basic) emptyMap (storeAndErase (2 ^ 32) (2 ^ 32)) t ∧
      ¬ t.ServesAs nameC ((storeAndErase (2 ^ 32) (2 ^ 32)).foldl DocumentMap.familyStep
        (fun _ => none) nameC) := by
  obtain ⟨t, hrun, ht, hview⟩ := storeAndErase_run fresh_emptyMap (n := 2 ^ 32) (by decide) (2 ^ 32)
  refine ⟨t, hrun, fun hserves => ?_⟩
  obtain ⟨d, hd, -, hzero⟩ := zero_mem_assigned (n := 2 ^ 32) (by decide) (2 ^ 32)
  rw [hd] at hserves
  have hfit : KeysFit nameC [0] := by
    show _ < _
    decide
  obtain ⟨status, u, hupdate, hinvalid, -⟩ := hserves.docUpdate .default [0] (oneDoc 1) rfl hfit
    (by decide)
  obtain ⟨-, hstatus, -⟩ := docUpdate_spec ht (by decide) (fun _ => rfl) hupdate
  have hwrap : UInt64.ofNat (2 ^ 32 * 2 ^ 32) = 0 := rfl
  rw [hview, hwrap] at hstatus
  obtain ⟨m, hm, id, hid, hnot⟩ := hinvalid.1 hstatus
  obtain rfl := Option.some.inj hm
  rw [List.mem_singleton.1 hid] at hnot
  exact hnot (hzero (by decide))

end DocumentStoreMixin

end Yokan
