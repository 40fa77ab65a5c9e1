import Yokan.DocMixinDocuments
import Yokan.DocMixinListing

/-!
# Yokan: the documents of a database that is not sorted

On a database that is not sorted, `DocumentStoreMixin::docIter` and `docList`
(`include/yokan/doc-mixin.hpp`) do not walk the entries: they look up one id after the other, from
the first one asked for to the `next_id` of the collection.

* `documentsFrom_below`: the two walks meet the same documents when these are below `next_id`;
* `docIterLoop_eq`: the lookups hand the accepted documents to the callback, and skip the rest;
* `docIter_agree`: `docIter` over `UnorderedMapDatabase` and over `MapDatabase` make the same calls
  and return the same status, after the same operations.
-/

namespace Yokan

open Buffer PartialMap Transition

/-! ### The ids below `next_id` -/

/-- The ids below `next_id` hold all the documents. -/
theorem documentsFrom_below {docs : UInt64 → Option Bytes} {fromId nextId : UInt64}
    (hbelow : ∀ id, (docs id).isSome → id < nextId) :
    documentsFrom docs fromId =
      (DocumentStoreMixin.idsFrom fromId nextId).filterMap
        (fun id => (docs id).map (fun doc => (id, doc))) := by
  have hnext := nextId.toNat_lt
  have hfrom := fromId.toNat_lt
  have hsplit : List.range' fromId.toNat (2 ^ 64 - fromId.toNat) =
      List.range' fromId.toNat (nextId.toNat - fromId.toNat) ++
        List.range' (fromId.toNat + (nextId.toNat - fromId.toNat))
          (2 ^ 64 - fromId.toNat - (nextId.toNat - fromId.toNat)) := by
    rw [List.range'_append_1]
    congr 1
    omega
  have habove : (List.range' (fromId.toNat + (nextId.toNat - fromId.toNat))
      (2 ^ 64 - fromId.toNat - (nextId.toNat - fromId.toNat))).filterMap
        (fun i => (docs (UInt64.ofNat i)).map (fun doc => (UInt64.ofNat i, doc))) = [] := by
    refine List.filterMap_eq_nil_iff.2 fun i hi => ?_
    rw [List.mem_range'_1] at hi
    rw [Option.map_eq_none_iff]
    by_contra hsome
    have hlt := hbelow _ (Option.isSome_iff_ne_none.2 hsome)
    rw [UInt64.lt_iff_toNat_lt, UInt64.toNat_ofNat_of_lt' (show i < 2 ^ 64 by omega)] at hlt
    omega
  rw [documentsFrom, hsplit, List.filterMap_append, habove, List.append_nil,
    DocumentStoreMixin.idsFrom, List.filterMap_map]
  rfl

/-! ### One key -/

/-- The loop over one key. -/
theorem keysLoop_single {σ : Type} (checked : Bool) (body : Bytes → σ → Option Status × σ)
    (key : Bytes) (s : σ) : keysLoop checked body key [key.length] 0 s = body key s := by
  have hslice : slice key 0 key.length = key := by simp [slice]
  have hinside : ¬ (checked = true ∧ key.length < addSize 0 key.length) := by
    rintro ⟨-, hlt⟩
    have hle : addSize 0 key.length ≤ key.length := by
      rw [addSize, Nat.zero_add]
      exact Nat.mod_le _ _
    omega
  rw [keysLoop, if_neg hinside, hslice]
  rcases body key s with ⟨_ | status, s'⟩ <;> rfl

/-- `fetch` of one key returns what the callback returns. -/
theorem UnorderedMapDatabase.fetch_single {υ : Type} {mode : Mode} {s : UnorderedMapDatabase}
    (hs : s.migrated = false) (hwait : mode.has .wait = false)
    (hconsume : mode.has .consume = false) (key : Bytes)
    (func : υ → Bytes → Option Bytes → Status × υ) (u : υ) :
    fetch mode s key [key.length] func u =
      ((func u key (s.find key)).1, s, (func u key (s.find key)).2) := by
  simp only [fetch, hs, Bool.false_eq_true, if_false, false_and, hwait, hconsume, keysLoop_single,
    fetchBody]
  rcases func u key (s.find key) with ⟨status, u'⟩
  cases status <;> rfl

/-! ### `docIter` -/

/-- The collection as a document filter shows it. -/
def Collection.shown (c : Collection) (filter : DocFilter) (name : CString) : Collection :=
  { c with docs := filter.select name c.docs }

/-- A callback that records the documents that it is called with. -/
def recording {υ : Type} (func : υ → UInt64 → Bytes → Status × υ)
    (acc : List (UInt64 × Bytes) × υ) (id : UInt64) (doc : Bytes) :
    Status × List (UInt64 × Bytes) × υ :=
  let r := func acc.2 id doc
  (r.1, acc.1 ++ [(id, doc)], r.2)

namespace DocumentStoreMixin

open DatabaseInterface FiniteMapStore ListingStore

section Iterate

variable {υ : Type} {name : CString} {mode : Mode} (filter : DocFilter)

/-- The lookups hand the documents that the filter accepts to the callback. -/
theorem docIterLoop_eq {s : DocumentStoreMixin UnorderedMapDatabase} (hs : Serving s.db)
    (hwait : mode.has .wait = false) (hconsume : mode.has .consume = false) (max : ℕ)
    (func : υ → UInt64 → Bytes → Status × υ) (ids : List UInt64) (i : ℕ) (u : υ) :
    let r := deliver max func (ids.filterMap fun id =>
      (filter.select name (s.view name).docs id).map fun doc => (id, doc)) i u
    docIterLoop name mode max filter func ids s.db i u = (r.1, s.db, r.2) := by
  have hfetch {υ : Type} (key : Bytes) (f : υ → Bytes → Option Bytes → Status × υ) (u : υ) :
      fetch mode s.db key [key.length] f u = _ :=
    UnorderedMapDatabase.fetch_single hs hwait hconsume key f u
  induction ids generalizing i u with
  | nil => rfl
  | cons id rest ih =>
    have hdoc : (s.view name).docs id = s.db.find (keyFromId name id) := rfl
    have hout : ∀ docs, ¬ (max = 0 ∨ i < max) → deliver max func docs i u = (Status.OK, u) := by
      rintro (_ | ⟨⟨id, doc⟩, docs⟩) hmax
      · rfl
      · rw [deliver, if_neg hmax]
    rw [docIterLoop]
    by_cases hmax : max = 0 ∨ i < max
    · rw [if_pos hmax]
      simp only [hfetch, idFromKey_keyFromId, List.filterMap_cons, DocFilter.select, hdoc]
      cases hfind : s.db.find (keyFromId name id) with
      | none => exact ih i u
      | some doc =>
        by_cases hcheck : filter.check name id doc = true
        · simp only [hcheck, Bool.not_true, Bool.false_eq_true, if_false, Option.filter_some, if_true,
            Option.map_some, deliver, hmax]
          rcases func u id doc with ⟨status, u'⟩
          cases status <;> first | rfl | exact ih (i + 1) u'
        · simp only [hcheck, Bool.not_false, if_true, Option.filter_some, Bool.false_eq_true, if_false,
            Option.map_none, ne_eq, not_true]
          exact ih i u
    · rw [if_neg hmax, hout _ hmax]

/-- `docIter` on a sorted database, with a document filter that does not stop. -/
theorem docIter_walk {σ : Type} [ListingStore σ] {s : DocumentStoreMixin σ}
    (hsorted : isSorted σ = true) (h : Coherent s) (hname : name.bytes ≠ [])
    (hstop : ∀ n val, filter.shouldStop n val = false) (mode : Mode) (max : ℕ) (fromId : UInt64)
    (func : υ → UInt64 → Bytes → Status × υ) (u : υ) :
    let r := ((s.view name).shown filter name).iter max fromId func u
    (s.docIter name mode max fromId filter func u).1 = r.1 ∧
      (s.docIter name mode max fromId filter func u).2.2 = r.2 := by
  unfold docIter Collection.iter
  cases hm : (s.view name).metadata with
  | none =>
    obtain ⟨t, hget, -⟩ := collGetMetadata_of_none h hname hm {}
    simp [hname, hget, Collection.shown, hm]
  | some m =>
    obtain ⟨t, hget, ht, hview⟩ := collGetMetadata_of_some h hname hm {}
    have hiter := iter_walk name filter hsorted ht.serving hstop max fromId func u
    rw [hview] at hiter
    simp [hname, hget, hsorted, hiter, Collection.shown, hm]

/-- `docIter` over `UnorderedMapDatabase`, on a collection with all its documents below
`next_id`. -/
theorem docIter_lookups {s : DocumentStoreMixin UnorderedMapDatabase} (h : Coherent s)
    (hbelow : (s.view name).BelowNextId) (hname : name.bytes ≠ []) (hwait : mode.has .wait = false)
    (hconsume : mode.has .consume = false) (max : ℕ) (fromId : UInt64)
    (func : υ → UInt64 → Bytes → Status × υ) (u : υ) :
    let r := ((s.view name).shown filter name).iter max fromId func u
    (s.docIter name mode max fromId filter func u).1 = r.1 ∧
      (s.docIter name mode max fromId filter func u).2.2 = r.2 := by
  have hunsorted : isSorted UnorderedMapDatabase = false := rfl
  unfold docIter Collection.iter
  cases hm : (s.view name).metadata with
  | none =>
    obtain ⟨t, hget, -⟩ := collGetMetadata_of_none h hname hm {}
    simp [hname, hget, Collection.shown, hm]
  | some m =>
    obtain ⟨t, hget, ht, hview⟩ := collGetMetadata_of_some h hname hm {}
    have hshown : ∀ id, (filter.select name (s.view name).docs id).isSome → id < m.nextId := by
      intro id hid
      obtain ⟨doc, hdoc⟩ := Option.isSome_iff_exists.1 hid
      obtain ⟨m', hm', hlt⟩ := hbelow id (by rw [(DocFilter.select_eq_some.1 hdoc).1]; rfl)
      rwa [Option.some.inj (hm.symm.trans hm')]
    have hloop : docIterLoop name mode max filter func (idsFrom fromId m.nextId) t.db 0 u = _ :=
      docIterLoop_eq filter ht.serving hwait hconsume max func (idsFrom fromId m.nextId) 0 u
    rw [hview, ← documentsFrom_below hshown] at hloop
    simp [hname, hget, hunsorted, hloop, Collection.shown, hm]

/-- `docIter` refuses the empty name before it calls anything. -/
theorem docIter_of_empty_name {σ : Type} [ListingStore σ] (s : DocumentStoreMixin σ)
    (hname : name.bytes = []) (mode : Mode) (max : ℕ) (fromId : UInt64)
    (func : υ → UInt64 → Bytes → Status × υ) (u : υ) :
    s.docIter name mode max fromId filter func u = (.InvalidArg, s, u) := by
  rw [docIter, if_pos hname]

end Iterate

/-- After the same operations, none of which takes `next_id` past the largest id, `docIter` in the
default mode makes the same calls over `UnorderedMapDatabase` as over `MapDatabase`, and returns the
same status, for every callback and every document filter that does not stop. -/
theorem docIter_agree {m₀ m : DocumentStoreMixin (MapDatabase .default)}
    {u₀ u : DocumentStoreMixin UnorderedMapDatabase} (hm₀ : Fresh m₀) (hu₀ : Fresh u₀)
    {ops : List (CString × DocOp)} (hm : Run (StepWhen Collection.KeepsNextId) m₀ ops m)
    (hu : Run (StepWhen Collection.KeepsNextId) u₀ ops u) {filter : DocFilter}
    (hstop : ∀ n val, filter.shouldStop n val = false) (name : CString) (max : ℕ) (fromId : UInt64)
    {υ : Type} (func : υ → UInt64 → Bytes → Status × υ) (acc : υ) :
    let ofMap := m.docIter name .default max fromId filter (recording func) ([], acc)
    let ofUnordered := u.docIter name .default max fromId filter (recording func) ([], acc)
    ofUnordered.1 = ofMap.1 ∧ ofUnordered.2.2 = ofMap.2.2 := by
  by_cases hname : name.bytes = []
  · simp only [docIter_of_empty_name filter _ hname, and_self]
  · obtain ⟨hcoherent, hview⟩ := run_view hm hm₀.coherent
    obtain ⟨hcoherent', hview'⟩ := run_view hu hu₀.coherent
    obtain ⟨-, hbelow⟩ := hu₀.run_belowNextId hu
    have hsame : u.view = m.view := by rw [hview, hview', hm₀.view_eq, hu₀.view_eq]
    obtain ⟨hstatus, hcalls⟩ := docIter_walk filter rfl hcoherent hname hstop .default max fromId
      (recording func) ([], acc)
    obtain ⟨hstatus', hcalls'⟩ := docIter_lookups filter hcoherent' (hbelow name) hname
      (rfl : Mode.default.has .wait = false) rfl max fromId (recording func) ([], acc)
    rw [hsame] at hstatus' hcalls'
    exact ⟨hstatus'.trans hstatus.symm, hcalls'.trans hcalls.symm⟩

/-- An empty `unordered_map` database. -/
def emptyUnorderedMap : DocumentStoreMixin UnorderedMapDatabase :=
  ⟨UnorderedMapDatabase.empty, fun _ => none⟩

theorem fresh_emptyUnorderedMap : Fresh emptyUnorderedMap where
  serving := rfl
  contents_eq := rfl
  cached_eq := rfl

/-- Store three documents and erase one. -/
def storeThreeErase (id : UInt64) : List (CString × DocOp) :=
  [(nameC, .create), (nameC, .store .default (twoDocs 1 2) [0, 0]),
    (nameC, .store .default (oneDoc 3) [0]), (nameC, .erase .default [id])]

/-- Store three documents and erase the second. -/
def storeAroundHole : List (CString × DocOp) :=
  [(nameC, .create), (nameC, .store .default (twoDocs 1 2) [0, 0]),
    (nameC, .store .default (oneDoc 3) [0]), (nameC, .erase .default [1])]

theorem permits_storeThreeErase (id : UInt64) :
    Permits Collection.KeepsNextId (fun _ => ⟨none, fun _ => none⟩) (storeThreeErase id) := by
  refine ⟨⟨rfl, trivial, trivial⟩, ⟨rfl, ?_, ?_⟩, ⟨rfl, ?_, ?_⟩, ⟨rfl, trivial, ?_⟩, trivial⟩
  · intro m hm
    obtain rfl : ⟨0, 0⟩ = m := Option.some.inj hm
    decide
  · show _ < _
    decide
  · intro m hm
    obtain rfl : ⟨2, 2⟩ = m := Option.some.inj hm
    decide
  · show _ < _
    decide
  · show 1 * (List.length nameC.bytes + 1 + 8) < _
    decide

/-- The runs of the two mixins. -/
theorem exists_storeThreeErase (id : UInt64) :
    ∃ m u, Run (StepWhen Collection.KeepsNextId) emptyMap (storeThreeErase id) m ∧
      Run (StepWhen Collection.KeepsNextId) emptyUnorderedMap (storeThreeErase id) u ∧
      Coherent m ∧ Coherent u ∧
      m.view = (storeThreeErase id).foldl (fun v op => (v.step op).2) emptyMap.view ∧
      u.view = (storeThreeErase id).foldl (fun v op => (v.step op).2) emptyUnorderedMap.view := by
  have hpermits : Permits Collection.KeepsNextId emptyMap.view (storeThreeErase id) := by
    rw [fresh_emptyMap.view_eq]
    exact permits_storeThreeErase id
  have hpermits' : Permits Collection.KeepsNextId emptyUnorderedMap.view (storeThreeErase id) := by
    rw [fresh_emptyUnorderedMap.view_eq]
    exact permits_storeThreeErase id
  obtain ⟨m, hm, hcoherent, hview⟩ := exists_run fresh_emptyMap.coherent hpermits
  obtain ⟨u, hu, hcoherent', hview'⟩ := exists_run fresh_emptyUnorderedMap.coherent hpermits'
  exact ⟨m, u, hm, hu, hcoherent, hcoherent', hview, hview'⟩

theorem exists_storeAroundHole :
    ∃ m u, Run (StepWhen Collection.KeepsNextId) emptyMap storeAroundHole m ∧
      Run (StepWhen Collection.KeepsNextId) emptyUnorderedMap storeAroundHole u ∧
      Coherent m ∧ Coherent u ∧
      m.view = storeAroundHole.foldl (fun v op => (v.step op).2) emptyMap.view ∧
      u.view = storeAroundHole.foldl (fun v op => (v.step op).2) emptyUnorderedMap.view :=
  exists_storeThreeErase 1

/-- A callback that fails on the document behind the hole. -/
theorem docIter_agree_hole :
    ∃ m u, Run (StepWhen Collection.KeepsNextId) emptyMap storeAroundHole m ∧
      Run (StepWhen Collection.KeepsNextId) emptyUnorderedMap storeAroundHole u ∧
      let func := fun (n : ℕ) (id : UInt64) (_ : Bytes) =>
        (if id = 2 then Status.IOError else Status.OK, n + 1)
      let ofMap := m.docIter nameC .default 0 0 defaultDocFilter (recording func) ([], 0)
      let ofUnordered := u.docIter nameC .default 0 0 defaultDocFilter (recording func) ([], 0)
      ofUnordered.1 = ofMap.1 ∧ ofUnordered.2.2 = ofMap.2.2 := by
  obtain ⟨m, u, hm, hu, -⟩ := exists_storeAroundHole
  exact ⟨m, u, hm, hu,
    docIter_agree fresh_emptyMap fresh_emptyUnorderedMap hm hu (fun _ _ => rfl) nameC 0 0 _ 0⟩

/-- Store and erase `n` empty documents `k` times, and store them once more. -/
def storeAndEraseAndStore (n k : ℕ) : List (CString × DocOp) :=
  storeAndErase n k ++ [(nameC, .store .default (emptyDocs n) (List.replicate n 0))]

theorem storeAndEraseAndStore_run {σ : Type} [FiniteMapStore σ] {s : DocumentStoreMixin σ}
    (hs : Fresh s) {n : ℕ} (hpos : 0 < n) (hn : n * 10 < 2 ^ 64) (k : ℕ) :
    ∃ t size id, Run (StepWhen fun _ op => op.Basic) s (storeAndEraseAndStore n k) t ∧ Coherent t ∧
      (t.view nameC).metadata = some ⟨size, UInt64.ofNat (k * n) + UInt64.ofNat n⟩ ∧
      ((t.view nameC).docs id).isSome := by
  obtain ⟨t, hrun, ht, hview⟩ := storeAndErase_run hs hn k
  have hpermits : Permits (fun _ op => op.Basic) t.view
      [(nameC, .store .default (emptyDocs n) (List.replicate n 0))] := by
    refine ⟨⟨rfl, rfl, ?_⟩, trivial⟩
    show List.length _ * _ < _
    rwa [List.length_replicate]
  obtain ⟨u, hrun', hu, hview'⟩ := exists_run ht hpermits
  have hu' : u.view nameC =
      ((t.view nameC).store .default (emptyDocs n) (List.replicate n 0)).2.2 := by
    have hne : nameC.bytes ≠ [] := by decide
    rw [hview', List.foldl_cons, List.foldl_nil, Family.step_apply, if_pos ⟨hne, rfl⟩]
    rfl
  obtain ⟨hmetadata, hsupport⟩ := store_emptyDocs n (UInt64.ofNat (k * n))
  rw [← hview, ← hu'] at hmetadata hsupport
  have hfirst : UInt64.ofNat (k * n) ∈ support (u.view nameC).docs := by
    rw [hsupport]
    refine List.mem_map.2 ⟨0, List.mem_range.2 hpos, ?_⟩
    simp
  exact ⟨u, _, _, hrun.append hrun', hu, hmetadata, hfirst⟩

/-- When `next_id` has passed the largest id, `docIter` over `UnorderedMapDatabase` no longer meets
the documents. -/
theorem docIter_disagree_wrapped :
    ∃ m u,
      Run (StepWhen fun _ op => op.Basic) emptyMap (storeAndEraseAndStore (2 ^ 32) (2 ^ 32 - 1)) m ∧
      Run (StepWhen fun _ op => op.Basic) emptyUnorderedMap
        (storeAndEraseAndStore (2 ^ 32) (2 ^ 32 - 1)) u ∧
      let func := fun (acc : Unit) (_ : UInt64) (_ : Bytes) => (Status.OK, acc)
      let ofMap := m.docIter nameC .default 1 0 defaultDocFilter (recording func) ([], ())
      let ofUnordered := u.docIter nameC .default 1 0 defaultDocFilter (recording func) ([], ())
      ofMap.2.2.1 ≠ [] ∧ ofUnordered.2.2.1 = [] := by
  obtain ⟨m, size, id, hm, hcoherent, hmetadata, hdoc⟩ := storeAndEraseAndStore_run fresh_emptyMap
    (n := 2 ^ 32) (by decide) (by decide) (2 ^ 32 - 1)
  obtain ⟨u, size', -, hu, hcoherent', hmetadata', -⟩ :=
    storeAndEraseAndStore_run fresh_emptyUnorderedMap (n := 2 ^ 32) (by decide) (by decide)
      (2 ^ 32 - 1)
  have hwrap : UInt64.ofNat ((2 ^ 32 - 1) * 2 ^ 32) + UInt64.ofNat (2 ^ 32) = 0 := rfl
  rw [hwrap] at hmetadata hmetadata'
  have hname : nameC.bytes ≠ [] := by decide
  refine ⟨m, u, hm, hu, ?_, ?_⟩
  · obtain ⟨-, hcalls⟩ := docIter_walk defaultDocFilter rfl hcoherent hname (fun _ _ => rfl) .default
      1 0 (recording fun (acc : Unit) _ _ => (Status.OK, acc)) ([], ())
    obtain ⟨doc, hdoc⟩ := Option.isSome_iff_exists.1 hdoc
    have hmem : (id, doc) ∈ documentsFrom (m.view nameC).docs 0 :=
      mem_documentsFrom.2 ⟨UInt64.zero_le, hdoc⟩
    rw [hcalls]
    simp only [Collection.iter, Collection.shown, hmetadata, select_defaultDocFilter]
    cases hdocs : documentsFrom (m.view nameC).docs 0 with
    | nil => rw [hdocs] at hmem; cases hmem
    | cons p docs =>
      obtain ⟨id', doc'⟩ := p
      cases docs <;> simp [deliver, recording]
  · obtain ⟨t, hget, -⟩ := collGetMetadata_of_some hcoherent' hname hmetadata' {}
    have hunsorted : isSorted UnorderedMapDatabase = false := rfl
    simp [docIter, hname, hget, hunsorted, idsFrom, docIterLoop]

end DocumentStoreMixin

end Yokan
