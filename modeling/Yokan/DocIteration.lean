import Yokan.DocWrites
import Yokan.LogIteration
import Yokan.SharedDocuments
import Yokan.UnsortedListing

/-!
# Yokan: `docIter` on three backends

`ArrayDatabase::docIter`, `LogDatabase::docIter` and `DocumentStoreMixin::docIter` over a
`MapDatabase`. The first two have the same loop over their documents, one over a vector and one
around `fetch`.

* `handCopies`: what the two loops do with the documents that the filter accepts;
* `handFetched`: what the loop of the log does on the way to them, which can be to fail;
* `ArrayCollection.iterLoop_eq`, `LogCollection.iterLoop_eq`: they do it;
* `docIter_honours_max_iff`: when the three backends hand over the first `max` documents.
-/

namespace Yokan

open Buffer ArrayCollection

/-! ### The documents of a walk -/

/-- The documents under some ids that a filter accepts. -/
def acceptedDocs (filter : DocFilter) (name : CString) (docs : UInt64 → Option Bytes)
    (ids : List UInt64) : List (UInt64 × Bytes) :=
  ids.filterMap fun id => (filter.select name docs id).map fun doc => (id, doc)

/-- Copies of documents are handed to a callback, until it fails or `max` of them have been handed
over; `i` counts them. There is no result when the buffer of the copies cannot be resized. -/
def handCopies {υ : Type} (name : CString) (max : ℕ) (filter : SizedDocFilter)
    (func : υ → UInt64 → Bytes → Status × υ) :
    List (UInt64 × Bytes) → ℕ → Bytes → υ → Option (Status × υ)
  | [], _, _, u => some (.OK, u)
  | (id, doc) :: rest, i, docBuffer, u =>
    if i < max then
      match resize (filter.docSizeFrom name doc) docBuffer with
      | none => none
      | some docBuffer =>
        let (filteredSize, docBuffer) :=
          filter.docCopy name docBuffer 0 (filter.docSizeFrom name doc) doc
        let (status, u) := func u id (slice docBuffer 0 filteredSize)
        if status ≠ .OK then some (status, u)
        else handCopies name max filter func rest (i + 1) docBuffer u
    else some (.OK, u)

/-- The documents that are stored under some ids. -/
def storedDocs (docs : UInt64 → Option Bytes) (ids : List UInt64) : List (UInt64 × Bytes) :=
  ids.filterMap fun id => (docs id).map fun doc => (id, doc)

/-- The documents that are fetched until the filter has accepted `max` of them. -/
def fetchedDocs (filter : DocFilter) (name : CString) :
    ℕ → List (UInt64 × Bytes) → List (UInt64 × Bytes)
  | 0, _ => []
  | _ + 1, [] => []
  | max + 1, p :: docs =>
    p :: fetchedDocs filter name (if filter.check name p.1 p.2 then max else max + 1) docs

/-- Documents are fetched, if they can be got at, and the copies of those that the filter accepts are
handed to a callback. -/
def handFetched {υ : Type} (name : CString) (max : ℕ) (filter : SizedDocFilter)
    (func : υ → UInt64 → Bytes → Status × υ) (reaches : UInt64 → Prop) [DecidablePred reaches] :
    List (UInt64 × Bytes) → ℕ → Bytes → υ → Outcome (Option (Status × υ))
  | [], _, _, u => .ok (some (.OK, u))
  | (id, doc) :: rest, i, docBuffer, u =>
    if i < max then
      if reaches id then
        if filter.check name id doc then
          match resize (filter.docSizeFrom name doc) docBuffer with
          | none => .ok none
          | some docBuffer =>
            let (filteredSize, docBuffer) :=
              filter.docCopy name docBuffer 0 (filter.docSizeFrom name doc) doc
            let (status, u) := func u id (slice docBuffer 0 filteredSize)
            if status ≠ .OK then .ok (some (status, u))
            else handFetched name max filter func reaches rest (i + 1) docBuffer u
        else handFetched name max filter func reaches rest i docBuffer u
      else .error .emptyCache
    else .ok (some (.OK, u))

section Walk

variable {υ : Type} {name : CString} {max : ℕ} {filter : SizedDocFilter}
  {func : υ → UInt64 → Bytes → Status × υ} {m : IdMap Bytes}

theorem acceptedDocs_cons_of_none {docs : UInt64 → Option Bytes} {id : UInt64}
    (h : docs id = none) (filter : DocFilter) (name : CString) (ids : List UInt64) :
    acceptedDocs filter name docs (id :: ids) = acceptedDocs filter name docs ids := by
  simp [acceptedDocs, DocFilter.select, h]

theorem acceptedDocs_cons_of_reject {filter : DocFilter} {docs : UInt64 → Option Bytes}
    {id : UInt64} {doc : Bytes} (h : docs id = some doc) (hcheck : filter.check name id doc = false)
    (ids : List UInt64) :
    acceptedDocs filter name docs (id :: ids) = acceptedDocs filter name docs ids := by
  simp [acceptedDocs, DocFilter.select, h, hcheck]

theorem acceptedDocs_cons_of_accept {filter : DocFilter} {docs : UInt64 → Option Bytes}
    {id : UInt64} {doc : Bytes} (h : docs id = some doc) (hcheck : filter.check name id doc = true)
    (ids : List UInt64) :
    acceptedDocs filter name docs (id :: ids) = (id, doc) :: acceptedDocs filter name docs ids := by
  simp [acceptedDocs, DocFilter.select, h, hcheck]

theorem handCopies_of_max_le {i : ℕ} (h : max ≤ i) (docs : List (UInt64 × Bytes))
    (docBuffer : Bytes) (u : υ) :
    handCopies name max filter func docs i docBuffer u = some (.OK, u) := by
  cases docs with
  | nil => rfl
  | cons p docs =>
    rw [handCopies, if_neg (Nat.not_lt.2 h)]

/-! ### The documents that are fetched -/

theorem storedDocs_cons_of_none {docs : UInt64 → Option Bytes} {id : UInt64} (h : docs id = none)
    (ids : List UInt64) : storedDocs docs (id :: ids) = storedDocs docs ids := by
  simp [storedDocs, h]

theorem storedDocs_cons_of_some {docs : UInt64 → Option Bytes} {id : UInt64} {doc : Bytes}
    (h : docs id = some doc) (ids : List UInt64) :
    storedDocs docs (id :: ids) = (id, doc) :: storedDocs docs ids := by
  simp [storedDocs, h]

/-- A filter that accepts every document. -/
theorem fetchedDocs_of_accepts {filter : DocFilter} (h : ∀ n id doc, filter.check n id doc = true)
    (max : ℕ) (docs : List (UInt64 × Bytes)) : fetchedDocs filter name max docs = docs.take max := by
  induction docs generalizing max with
  | nil => cases max <;> simp [fetchedDocs]
  | cons p docs ih =>
    cases max with
    | zero => rfl
    | succ max => rw [fetchedDocs, h, if_pos rfl, ih, List.take_succ_cons]

section Fetched

variable {reaches : UInt64 → Prop} [DecidablePred reaches]

/-- When it gets at what it fetches, the log hands over the documents that the filter accepts. -/
theorem handFetched_eq {docs : List (UInt64 × Bytes)} {i : ℕ}
    (h : ∀ p ∈ fetchedDocs filter.toDocFilter name (max - i) docs, reaches p.1) (docBuffer : Bytes)
    (u : υ) :
    handFetched name max filter func reaches docs i docBuffer u =
      .ok (handCopies name max filter func (docs.filter fun p => filter.check name p.1 p.2) i
        docBuffer u) := by
  induction docs generalizing i docBuffer u with
  | nil => rfl
  | cons p docs ih =>
    obtain ⟨id, doc⟩ := p
    unfold handFetched
    by_cases hmax : i < max
    · rw [show max - i = max - (i + 1) + 1 by omega, fetchedDocs, List.forall_mem_cons] at h
      obtain ⟨hfirst, hrest⟩ := h
      have hfirst : reaches id := hfirst
      rw [if_pos hmax, if_pos hfirst]
      cases hcheck : filter.check name id doc with
      | false =>
        have hdrop : ((id, doc) :: docs).filter (fun p => filter.check name p.1 p.2) =
            docs.filter fun p => filter.check name p.1 p.2 :=
          List.filter_cons_of_neg (by rw [hcheck]; exact Bool.false_ne_true)
        rw [if_neg (by rw [hcheck]; exact Bool.false_ne_true),
          show max - (i + 1) + 1 = max - i by omega] at hrest
        rw [if_neg Bool.false_ne_true, hdrop]
        exact ih hrest docBuffer u
      | true =>
        have hkeep : ((id, doc) :: docs).filter (fun p => filter.check name p.1 p.2) =
            (id, doc) :: docs.filter fun p => filter.check name p.1 p.2 :=
          List.filter_cons_of_pos hcheck
        rw [if_pos hcheck] at hrest
        rw [if_pos rfl, hkeep, handCopies, if_pos hmax]
        cases resize (filter.docSizeFrom name doc) docBuffer with
        | none => rfl
        | some docBuffer =>
          dsimp only
          split_ifs
          · rfl
          · exact ih hrest _ _
    · rw [if_neg hmax, handCopies_of_max_le (Nat.le_of_not_lt hmax)]

/-- It fails at a document that it cannot get at, unless something else ends the walk before. -/
theorem handFetched_eq_error {docs : List (UInt64 × Bytes)} {i : ℕ}
    (h : ¬ ∀ p ∈ fetchedDocs filter.toDocFilter name (max - i) docs, reaches p.1) {docBuffer : Bytes}
    {u u' : υ}
    (hall : handCopies name max filter func (docs.filter fun p => filter.check name p.1 p.2) i
      docBuffer u = some (.OK, u')) :
    handFetched name max filter func reaches docs i docBuffer u = .error .emptyCache := by
  induction docs generalizing i docBuffer u with
  | nil =>
    refine absurd (fun p hp => ?_) h
    cases hmax : max - i with
    | zero => rw [hmax, fetchedDocs] at hp; cases hp
    | succ n => rw [hmax, fetchedDocs] at hp; cases hp
  | cons p docs ih =>
    obtain ⟨id, doc⟩ := p
    have hmax : i < max := by
      by_contra hmax
      rw [show max - i = 0 by omega, fetchedDocs] at h
      exact h fun p hp => absurd hp List.not_mem_nil
    rw [show max - i = max - (i + 1) + 1 by omega, fetchedDocs, List.forall_mem_cons] at h
    unfold handFetched
    rw [if_pos hmax]
    by_cases hfirst : reaches id
    case neg => rw [if_neg hfirst]
    have hrest := fun hrest => h ⟨hfirst, hrest⟩
    rw [if_pos hfirst]
    cases hcheck : filter.check name id doc with
    | false =>
      have hdrop : ((id, doc) :: docs).filter (fun p => filter.check name p.1 p.2) =
          docs.filter fun p => filter.check name p.1 p.2 :=
        List.filter_cons_of_neg (by rw [hcheck]; exact Bool.false_ne_true)
      rw [if_neg (by rw [hcheck]; exact Bool.false_ne_true),
        show max - (i + 1) + 1 = max - i by omega] at hrest
      rw [hdrop] at hall
      rw [if_neg Bool.false_ne_true]
      exact ih hrest hall
    | true =>
      have hkeep : ((id, doc) :: docs).filter (fun p => filter.check name p.1 p.2) =
          (id, doc) :: docs.filter fun p => filter.check name p.1 p.2 :=
        List.filter_cons_of_pos hcheck
      rw [if_pos hcheck] at hrest
      rw [hkeep, handCopies, if_pos hmax] at hall
      rw [if_pos rfl]
      cases hresize : resize (filter.docSizeFrom name doc) docBuffer with
      | none => rw [hresize] at hall; cases hall
      | some docBuffer =>
        rw [hresize] at hall
        dsimp only at hall ⊢
        split_ifs at hall ⊢ with hstatus
        · exact absurd (Prod.mk.inj (Option.some.inj hall)).1 hstatus
        · exact ih hrest hall

end Fetched

/-- The documents that a filter accepts, of those that are stored. -/
theorem documentsFrom_select (filter : DocFilter) (name : CString) (docs : UInt64 → Option Bytes)
    (fromId : UInt64) :
    documentsFrom (filter.select name docs) fromId =
      (documentsFrom docs fromId).filter fun p => filter.check name p.1 p.2 := by
  unfold documentsFrom
  rw [List.filter_filterMap]
  refine List.filterMap_congr fun i _ => ?_
  rw [DocFilter.select]
  cases hdoc : docs (UInt64.ofNat i) with
  | none => rfl
  | some doc =>
    rw [Option.filter_some, Option.map_some, Option.filter_some]
    cases filter.check name (UInt64.ofNat i) doc <;> rfl

/-- The documents that are stored are those under the ids that were assigned. -/
theorem documentsFrom_stored (hfresh : m.Fresh) (hlt : m.next < 2 ^ 64) (fromId : UInt64) :
    documentsFrom (docOf m) fromId =
      storedDocs (docOf m) (DocumentStoreMixin.idsFrom fromId (UInt64.ofNat m.next)) := by
  refine documentsFrom_below fun id hid => ?_
  obtain ⟨doc, hdoc⟩ := Option.isSome_iff_exists.1 hid
  have hdoc : m.docs id.toNat = some doc := hdoc
  rw [UInt64.lt_iff_toNat_lt, UInt64.toNat_ofNat_of_lt' hlt]
  by_contra hge
  rw [hfresh _ (Nat.not_lt.1 hge)] at hdoc
  cases hdoc

/-- The documents that a filter accepts are those under the ids that were assigned. -/
theorem documentsFrom_assigned (hfresh : m.Fresh) (hlt : m.next < 2 ^ 64) (filter : DocFilter)
    (name : CString) (fromId : UInt64) :
    documentsFrom (filter.select name (docOf m)) fromId =
      acceptedDocs filter name (docOf m)
        (DocumentStoreMixin.idsFrom fromId (UInt64.ofNat m.next)) := by
  refine documentsFrom_below fun id hid => ?_
  obtain ⟨doc, hdoc⟩ := Option.isSome_iff_exists.1 hid
  have hdoc : m.docs id.toNat = some doc := (DocFilter.select_eq_some.1 hdoc).1
  rw [UInt64.lt_iff_toNat_lt, UInt64.toNat_ofNat_of_lt' hlt]
  by_contra hge
  rw [hfresh _ (Nat.not_lt.1 hge)] at hdoc
  cases hdoc

/-! ### The array -/

/-- The loop of the array hands over the documents that the filter accepts. -/
theorem ArrayCollection.iterLoop_eq {coll : ArrayCollection} {used : ℕ} (h : Represents coll used m)
    (hstop : ∀ n val, filter.shouldStop n val = false) (ids : List UInt64) (i : ℕ)
    (docBuffer : Bytes) (u : υ) :
    coll.iterLoop name max filter func ids i docBuffer u =
      handCopies name max filter func (acceptedDocs filter.toDocFilter name (docOf m) ids) i
        docBuffer u := by
  induction ids generalizing i docBuffer u with
  | nil => rfl
  | cons id ids ih =>
    unfold iterLoop
    by_cases hmax : i < max
    · rw [if_pos hmax]
      rcases h.record_eq id with ⟨hrecord, hdoc⟩ | ⟨offset, doc, hrecord, hdoc, hslice⟩
      · rw [hrecord, acceptedDocs_cons_of_none hdoc]
        exact ih i docBuffer u
      · rw [hrecord]
        dsimp only
        rw [hslice]
        cases hcheck : filter.check name id doc with
        | false =>
          rw [acceptedDocs_cons_of_reject hdoc hcheck, hstop]
          exact ih i docBuffer u
        | true =>
          rw [acceptedDocs_cons_of_accept hdoc hcheck, handCopies, if_pos hmax,
            if_neg (by decide)]
          cases resize (filter.docSizeFrom name doc) docBuffer with
          | none => rfl
          | some docBuffer => exact if_congr Iff.rfl rfl (ih (i + 1) _ _)
    · rw [if_neg hmax, handCopies_of_max_le (Nat.le_of_not_lt hmax)]

/-! ### The log -/

theorem idsFrom_of_le {id nextId : UInt64} (h : nextId ≤ id) :
    DocumentStoreMixin.idsFrom id nextId = [] := by
  rw [DocumentStoreMixin.idsFrom, Nat.sub_eq_zero_of_le (UInt64.le_iff_toNat_le.1 h)]
  rfl

theorem idsFrom_of_lt {id nextId : UInt64} (h : id < nextId) :
    DocumentStoreMixin.idsFrom id nextId = id :: DocumentStoreMixin.idsFrom (id + 1) nextId := by
  have hlt := UInt64.lt_iff_toNat_lt.1 h
  have hnext := nextId.toNat_lt
  have hsucc : (id + 1).toNat = id.toNat + 1 := by
    rw [UInt64.toNat_add]
    exact Nat.mod_eq_of_lt (by show id.toNat + 1 < 2 ^ 64; omega)
  rw [DocumentStoreMixin.idsFrom, DocumentStoreMixin.idsFrom, hsucc,
    show nextId.toNat - id.toNat = nextId.toNat - (id.toNat + 1) + 1 by omega, List.range'_succ,
    List.map_cons, UInt64.ofNat_toNat]

/-- There is nothing to fetch when the loop of the log ends. -/
theorem handFetched_done {reaches : UInt64 → Prop} [DecidablePred reaches] {c : LogCollection}
    (hlast : ∀ id : UInt64, id ≤ c.lastId ↔ id < UInt64.ofNat m.next) {st : LogIteration υ}
    (hstatus : st.status = .OK) (hout : ¬ (st.i < max ∧ st.id ≤ c.lastId)) :
    Except.map (Option.map fun st => (st.status, st.user))
        (.ok (some st) : Outcome (Option (LogIteration υ))) =
      handFetched name max filter func reaches
        (storedDocs (docOf m) (DocumentStoreMixin.idsFrom st.id (UInt64.ofNat m.next))) st.i
          st.docBuffer st.user := by
  show (.ok (some (st.status, st.user)) : Outcome (Option (Status × υ))) = _
  rw [hstatus]
  by_cases hmax : st.i < max
  · have hge : UInt64.ofNat m.next ≤ st.id :=
      UInt64.not_lt.1 fun hid => hout ⟨hmax, (hlast _).2 hid⟩
    rw [idsFrom_of_le hge]
    rfl
  · cases storedDocs (docOf m) (DocumentStoreMixin.idsFrom st.id (UInt64.ofNat m.next)) with
    | nil => rfl
    | cons p docs => rw [handFetched, if_neg hmax]

/-- The loop of the log hands over the documents that it fetches, with one fetch for each id that is
left. With fewer it does not get to an end, or to the same one. -/
theorem LogCollection.iterLoop_eq {c : LogCollection} (h : c.Represents m ∅) (hpos : 0 < m.next)
    (hlt : m.next < 2 ^ 64) (hstop : ∀ n val, filter.shouldStop n val = false) {fetches : ℕ}
    {st : LogIteration υ} (hstatus : st.status = .OK) :
    LogCollection.iterLoop name max filter func fetches st c = none ∧
        fetches < m.next - st.id.toNat ∨
      ∃ r : Outcome (Option (LogIteration υ)),
        LogCollection.iterLoop name max filter func fetches st c = some (r.map fun st => (st, c)) ∧
          r.map (Option.map fun st => (st.status, st.user)) =
            handFetched name max filter func (fun id => c.Reaches (c.entries id.toNat).chunk)
              (storedDocs (docOf m) (DocumentStoreMixin.idsFrom st.id (UInt64.ofNat m.next))) st.i
                st.docBuffer st.user := by
  have hnext : (UInt64.ofNat m.next).toNat = m.next := UInt64.toNat_ofNat_of_lt' hlt
  have hlast : ∀ id : UInt64, id ≤ c.lastId ↔ id < UInt64.ofNat m.next := by
    intro id
    rw [le_lastId_iff (h.next_eq ▸ hpos) (h.next_eq ▸ hlt), UInt64.lt_iff_toNat_lt, hnext,
      h.next_eq]
  -- each fetch takes one id, so that the ids that are left bound the fetches
  induction fetches generalizing st with
  | zero =>
    by_cases hgo : st.i < max ∧ st.id ≤ c.lastId
    · have hid := UInt64.lt_iff_toNat_lt.1 ((hlast _).1 hgo.2)
      exact Or.inl ⟨if_pos hgo, by omega⟩
    · exact Or.inr ⟨.ok (some st), iterLoop_done hgo, handFetched_done hlast hstatus hgo⟩
  | succ fetches ih =>
    by_cases hgo : st.i < max ∧ st.id ≤ c.lastId
    case neg => exact Or.inr ⟨.ok (some st), iterLoop_done hgo, handFetched_done hlast hstatus hgo⟩
    have hid := (hlast _).1 hgo.2
    have hidNat := UInt64.lt_iff_toNat_lt.1 hid
    have hadd : (st.id + 1).toNat = st.id.toNat + 1 := by
      rw [UInt64.toNat_add]
      exact Nat.mod_eq_of_lt (by show st.id.toNat + 1 < 2 ^ 64; omega)
    have hleft : fetches < m.next - (st.id + 1).toNat ↔ fetches + 1 < m.next - st.id.toNat := by
      omega
    unfold LogCollection.iterLoop
    rw [if_pos hgo, idsFrom_of_lt hid]
    -- a hole is skipped, a document in a chunk that the cache refuses is the end
    cases hdoc : m.docs st.id.toNat with
    | none =>
      have hno : (m.docs st.id.toNat).isSome → c.Reaches (c.entries st.id.toNat).chunk :=
        fun hsome => by rw [hdoc] at hsome; cases hsome
      rw [fetch_eq h (Set.notMem_empty _) hno, hdoc, storedDocs_cons_of_none hdoc]
      dsimp only [LogIteration.fetchCallback]
      rw [if_neg (not_not.2 hstatus), ← hleft]
      exact ih hstatus
    | some doc =>
      rw [fetch_of_some h (Set.notMem_empty _) hdoc, storedDocs_cons_of_some hdoc, handFetched,
        if_pos hgo.1]
      by_cases hreaches : c.Reaches (c.entries st.id.toNat).chunk
      case neg =>
        rw [if_neg hreaches, if_neg hreaches]
        exact Or.inr ⟨.error .emptyCache, rfl, rfl⟩
      rw [if_pos hreaches, if_pos hreaches]
      cases hcheck : filter.check name st.id doc with
      | false =>
        simp only [LogIteration.fetchCallback, hcheck, hstop, Bool.not_false, if_true,
          Bool.false_eq_true, if_false]
        rw [if_neg (not_not.2 hstatus), ← hleft]
        exact ih hstatus
      | true =>
        unfold LogIteration.fetchCallback
        generalize filter.docCopy name = docCopy
        simp only [hcheck, Bool.not_true, Bool.false_eq_true, if_false, if_true]
        cases resize (filter.docSizeFrom name doc) st.docBuffer with
        | none => exact Or.inr ⟨.ok none, rfl, rfl⟩
        | some docBuffer =>
          dsimp only
          generalize docCopy docBuffer 0 (filter.docSizeFrom name doc) doc = copied
          generalize func st.user st.id (slice copied.2 0 copied.1) = answer
          by_cases hanswer : answer.1 = .OK
          · rw [if_neg (not_not.2 hanswer), if_neg (not_not.2 hanswer)]
            dsimp only
            rw [if_neg (not_not.2 hanswer), ← hleft]
            exact ih hanswer
          · rw [if_pos hanswer, if_pos hanswer]
            dsimp only
            rw [if_pos hanswer]
            exact Or.inr ⟨.ok _, rfl, rfl⟩

end Walk

/-! ### What a callback is called with -/

/-- The first `max` documents, and all of them when `max` is `0`. -/
def firstDocs (max : ℕ) (docs : List (UInt64 × Bytes)) : List (UInt64 × Bytes) :=
  if max = 0 then docs else docs.take max

/-- A call for a document, with what `docCopy` leaves in a buffer that has the room it asked for. -/
def CopyOf (filter : SizedDocFilter) (name : CString) (stored call : UInt64 × Bytes) : Prop :=
  call.1 = stored.1 ∧ ∃ buffer : Bytes, buffer.length = filter.docSizeFrom name stored.2 ∧
    call.2 = slice (filter.docCopy name buffer 0 buffer.length stored.2).2 0
      (filter.docCopy name buffer 0 buffer.length stored.2).1

/-- A vector has room for the copy of a document. -/
def CopyFits (filter : SizedDocFilter) (name : CString) (stored : UInt64 × Bytes) : Prop :=
  filter.docSizeFrom name stored.2 ≤ vectorMaxSize 1

section Calls

variable {υ : Type} {name : CString} {max : ℕ} {filter : SizedDocFilter}
  {func : υ → UInt64 → Bytes → Status × υ}

theorem resize_of_le {n : ℕ} (h : n ≤ vectorMaxSize 1) (v : Bytes) :
    resize n v = some (v.take n ++ List.replicate (n - v.length) 0) := if_neg (Nat.not_lt.2 h)

/-- A callback that succeeds is called on the copies of the first `max` documents. -/
theorem handCopies_recording (hfunc : ∀ u id doc, (func u id doc).1 = .OK)
    (docs : List (UInt64 × Bytes)) {i : ℕ}
    (hfits : ∀ p ∈ docs.take (max - i), CopyFits filter name p) (docBuffer : Bytes)
    (calls : List (UInt64 × Bytes)) (u : υ) :
    ∃ copies u', handCopies name max filter (recording func) docs i docBuffer (calls, u) =
        some (.OK, calls ++ copies, u') ∧
      List.Forall₂ (CopyOf filter name) (docs.take (max - i)) copies := by
  induction docs generalizing i docBuffer calls u with
  | nil => exact ⟨[], u, by rw [handCopies, List.append_nil], by simp⟩
  | cons p docs ih =>
    obtain ⟨id, doc⟩ := p
    by_cases hmax : i < max
    · have hsucc : max - i = max - (i + 1) + 1 := by omega
      rw [hsucc, List.take_succ_cons] at hfits ⊢
      obtain ⟨hfit, hfits⟩ := List.forall_mem_cons.1 hfits
      have hresize := resize_of_le hfit docBuffer
      have hlen := (length_resize hresize).1
      generalize docBuffer.take (filter.docSizeFrom name doc) ++ _ = buffer at hresize hlen
      generalize hcopy : filter.docCopy name buffer 0 (filter.docSizeFrom name doc) doc = copied
      have hcall : CopyOf filter name (id, doc) (id, slice copied.2 0 copied.1) :=
        ⟨rfl, buffer, hlen, by rw [hlen, hcopy]⟩
      obtain ⟨copies, u', hrest, hcopies⟩ := ih hfits copied.2
        (calls ++ [(id, slice copied.2 0 copied.1)]) (func u id (slice copied.2 0 copied.1)).2
      refine ⟨(id, slice copied.2 0 copied.1) :: copies, u', ?_, .cons hcall hcopies⟩
      rw [handCopies, if_pos hmax, hresize]
      simp only [hcopy, recording, hfunc, ne_eq, not_true_eq_false, if_false]
      rw [hrest, List.append_assoc]
      rfl
    · rw [handCopies_of_max_le (Nat.le_of_not_lt hmax),
        Nat.sub_eq_zero_of_le (Nat.le_of_not_lt hmax)]
      exact ⟨[], u, by rw [List.append_nil], .nil⟩

/-- The walk fails exactly if the buffer cannot be resized for one of the first `max` documents. -/
theorem handCopies_isSome_iff (hfunc : ∀ u id doc, (func u id doc).1 = .OK)
    (docs : List (UInt64 × Bytes)) (i : ℕ) (docBuffer : Bytes) (u : υ) :
    (handCopies name max filter func docs i docBuffer u).isSome ↔
      ∀ p ∈ docs.take (max - i), CopyFits filter name p := by
  induction docs generalizing i docBuffer u with
  | nil => simp [handCopies]
  | cons p docs ih =>
    obtain ⟨id, doc⟩ := p
    by_cases hmax : i < max
    · have hsucc : max - i = max - (i + 1) + 1 := by omega
      rw [hsucc, List.take_succ_cons, List.forall_mem_cons, handCopies, if_pos hmax]
      by_cases hfit : filter.docSizeFrom name doc ≤ vectorMaxSize 1
      · rw [resize_of_le hfit]
        simp only [hfunc, ne_eq, not_true_eq_false, if_false]
        rw [ih, and_iff_right (show CopyFits filter name (id, doc) from hfit)]
      · rw [show resize (filter.docSizeFrom name doc) docBuffer = none from
          if_pos (Nat.lt_of_not_le hfit)]
        exact iff_of_false Bool.false_ne_true fun h => hfit h.1
    · rw [handCopies_of_max_le (Nat.le_of_not_lt hmax),
        Nat.sub_eq_zero_of_le (Nat.le_of_not_lt hmax)]
      simp

/-- A callback that succeeds is called on the first `max` documents. -/
theorem deliver_recording (max : ℕ) (hfunc : ∀ u id doc, (func u id doc).1 = .OK)
    (docs : List (UInt64 × Bytes)) (i : ℕ) (calls : List (UInt64 × Bytes)) (u : υ) :
    ∃ u', deliver max (recording func) docs i (calls, u) =
      (.OK, calls ++ (if max = 0 then docs else docs.take (max - i)), u') := by
  induction docs generalizing i calls u with
  | nil => exact ⟨u, by simp [deliver]⟩
  | cons p docs ih =>
    obtain ⟨id, doc⟩ := p
    obtain ⟨u', hrest⟩ := ih (i + 1) (calls ++ [(id, doc)]) (func u id doc).2
    by_cases hgo : max = 0 ∨ i < max
    · refine ⟨u', ?_⟩
      rw [deliver, if_pos hgo]
      simp only [recording, hfunc]
      rw [hrest, List.append_assoc]
      obtain rfl | hlt := hgo
      · rfl
      · rw [if_neg (by omega), if_neg (by omega), show max - i = max - (i + 1) + 1 by omega]
        rfl
    · refine ⟨u, ?_⟩
      rw [deliver, if_neg hgo, if_neg (by omega), Nat.sub_eq_zero_of_le (by omega),
        List.take_zero, List.append_nil]

end Calls

/-! ### The three backends -/

/-- `docIter` of the three backends, with a callback that succeeds, hands over the first `max` of
the documents that the filter accepts: their copies, and the mixin what is stored. -/
def HandsOverFirst (array : ArrayDatabase) (log : LogDatabase)
    (mixin : DocumentStoreMixin (MapDatabase .default)) (name : CString)
    (docs : UInt64 → Option Bytes) (mode : Mode) (max : ℕ) (fromId : UInt64)
    (filter : SizedDocFilter) : Prop :=
  ∀ (υ : Type) (func : υ → UInt64 → Bytes → Status × υ) (u : υ),
    (∀ u id doc, (func u id doc).1 = .OK) →
      let page := firstDocs max (documentsFrom (filter.select name docs) fromId)
      (∃ calls u', array.docIter name max fromId filter (recording func) ([], u) =
          some (.OK, calls, u') ∧ List.Forall₂ (CopyOf filter name) page calls) ∧
        (∃ fetches calls u' log', log.docIter name max fromId filter (recording func) fetches
            ([], u) = some (.ok (some (.OK, calls, u'), log')) ∧
          List.Forall₂ (CopyOf filter name) page calls) ∧
        ∃ u' mixin', mixin.docIter name mode max fromId filter.toDocFilter (recording func)
          ([], u) = (.OK, mixin', page, u')

namespace SameDocuments

variable {array : ArrayDatabase} {log : LogDatabase}
  {mixin : DocumentStoreMixin (MapDatabase .default)} {name : CString} {m : IdMap Bytes}
  {filter : SizedDocFilter} {υ : Type}

theorem next_lt (h : SameDocuments array log mixin name m) : m.next < 2 ^ 64 := by
  obtain ⟨coll, -, hholds⟩ := h.array
  exact hholds.next_lt

/-- A document is no longer than the data of its collection in the array. -/
theorem length_le (h : SameDocuments array log mixin name m) {id : UInt64} {doc : Bytes}
    (hdoc : docOf m id = some doc) : doc.length ≤ vectorMaxSize 1 := by
  obtain ⟨coll, -, hholds⟩ := h.array
  rcases hholds.represents.record_eq id with ⟨-, hnone⟩ | ⟨offset, doc', -, hsome, hslice⟩
  · rw [hnone] at hdoc
    cases hdoc
  · obtain rfl := Option.some.inj (hsome.symm.trans hdoc)
    rw [← hslice, length_slice]
    exact (by omega : _ ≤ coll.data.length).trans hholds.length_le

theorem array_docIter (h : SameDocuments array log mixin name m)
    (hstop : ∀ n val, filter.shouldStop n val = false) (max : ℕ) (fromId : UInt64)
    (func : υ → UInt64 → Bytes → Status × υ) (u : υ) :
    array.docIter name max fromId filter func u =
      handCopies name max filter func
        (documentsFrom (filter.select name (docOf m)) fromId) 0 [] u := by
  obtain ⟨coll, hcoll, hholds⟩ := h.array
  have hrep := hholds.represents
  unfold ArrayDatabase.docIter
  rw [hcoll, documentsFrom_assigned hrep.fresh h.next_lt, hrep.next_eq]
  exact ArrayCollection.iterLoop_eq hrep hstop _ 0 [] u

/-- With an assigned id, `docIter` of the log ends or fails. -/
theorem log_docIter_cases (h : SameDocuments array log mixin name m) (hpos : 0 < m.next)
    (hstop : ∀ n val, filter.shouldStop n val = false) (max : ℕ) (fromId : UInt64)
    (func : υ → UInt64 → Bytes → Status × υ) (u : υ) (fetches : ℕ) :
    ∃ c log', log.collections name = some c ∧
      (log.docIter name max fromId filter func fetches u = none ∧
          fetches < m.next - fromId.toNat ∨
        log.docIter name max fromId filter func fetches u =
          some ((handFetched name max filter func (fun id => c.Reaches (c.entries id.toNat).chunk)
            (documentsFrom (docOf m) fromId) 0 [] u).map fun answer => (answer, log'))) := by
  obtain ⟨c, hc, hrep⟩ := h.log
  refine ⟨c, log.put name c, hc, ?_⟩
  have hloop : LogCollection.iterLoop name max filter func fetches ⟨fromId, 0, [], .OK, u⟩ c = none ∧
      fetches < m.next - fromId.toNat ∨ _ :=
    LogCollection.iterLoop_eq hrep hpos h.next_lt hstop rfl
  unfold LogDatabase.docIter
  rw [hc, documentsFrom_stored hrep.fresh h.next_lt]
  dsimp only
  obtain ⟨hnone, hfew⟩ | ⟨r, hloop, hr⟩ := hloop
  · rw [hnone]
    exact Or.inl ⟨rfl, hfew⟩
  · rw [hloop, ← hr]
    right
    cases r <;> rfl

/-- When it gets at what it fetches, `docIter` of the log ends, and hands over what the filter
accepts. -/
theorem log_docIter (h : SameDocuments array log mixin name m) (hpos : 0 < m.next)
    (hstop : ∀ n val, filter.shouldStop n val = false) {max : ℕ} {fromId : UInt64}
    (hreaches : ∀ p ∈ fetchedDocs filter.toDocFilter name max (documentsFrom (docOf m) fromId),
      log.Reaches name p.1)
    (func : υ → UInt64 → Bytes → Status × υ) (u : υ) {fetches : ℕ} (hfetches : m.next ≤ fetches) :
    ∃ log', log.docIter name max fromId filter func fetches u =
      some (.ok (handCopies name max filter func
        (documentsFrom (filter.select name (docOf m)) fromId) 0 [] u, log')) := by
  obtain ⟨c, log', hc, ⟨-, hfew⟩ | hr⟩ := h.log_docIter_cases hpos hstop max fromId func u fetches
  · omega
  · have hcached : ∀ p ∈ fetchedDocs filter.toDocFilter name (max - 0)
        (documentsFrom (docOf m) fromId), c.Reaches (c.entries p.1.toNat).chunk := fun p hp =>
      (LogDatabase.reaches_iff hc p.1).1 (hreaches p hp)
    refine ⟨log', ?_⟩
    rw [hr, handFetched_eq hcached, ← documentsFrom_select]
    rfl

/-- When it does not, it has no result, unless something else ends the walk before. -/
theorem log_docIter_unreached (h : SameDocuments array log mixin name m) (hpos : 0 < m.next)
    (hstop : ∀ n val, filter.shouldStop n val = false) {max : ℕ} {fromId : UInt64}
    (hreaches : ¬ ∀ p ∈ fetchedDocs filter.toDocFilter name max (documentsFrom (docOf m) fromId),
      log.Reaches name p.1)
    {func : υ → UInt64 → Bytes → Status × υ} {u u' : υ}
    (hall : handCopies name max filter func (documentsFrom (filter.select name (docOf m)) fromId) 0
      [] u = some (.OK, u')) (fetches : ℕ) (r : Option (Status × υ) × LogDatabase) :
    log.docIter name max fromId filter func fetches u ≠ some (.ok r) := by
  obtain ⟨c, log', hc, ⟨hnone, -⟩ | hr⟩ := h.log_docIter_cases hpos hstop max fromId func u fetches
  · rw [hnone]
    exact fun hfalse => by cases hfalse
  · have hcached : ¬ ∀ p ∈ fetchedDocs filter.toDocFilter name (max - 0)
        (documentsFrom (docOf m) fromId), c.Reaches (c.entries p.1.toNat).chunk := fun hyes =>
      hreaches fun p hp => (LogDatabase.reaches_iff hc p.1).2 (hyes p hp)
    rw [documentsFrom_select] at hall
    rw [hr, handFetched_eq_error hcached hall]
    exact fun hfalse => by cases hfalse

/-- Without an assigned id, `docIter` of the log does not end. -/
theorem log_docIter_empty (h : SameDocuments array log mixin name m) (hempty : m.next = 0)
    {max : ℕ} (hmax : 0 < max) (fromId : UInt64) (filter : SizedDocFilter)
    (func : υ → UInt64 → Bytes → Status × υ) (u : υ) (fetches : ℕ) :
    log.docIter name max fromId filter func fetches u = none := by
  obtain ⟨c, hc, hrep⟩ := h.log
  unfold LogDatabase.docIter
  rw [hc]
  dsimp only
  rw [LogCollection.iterLoop_empty (hrep.next_eq ▸ hempty) fetches hmax rfl]
  rfl

/-- Asked for no document, `docIter` of the log calls nothing. -/
theorem log_docIter_zero (h : SameDocuments array log mixin name m) (fromId : UInt64)
    (filter : SizedDocFilter) (func : υ → UInt64 → Bytes → Status × υ) (u : υ) :
    ∃ log', log.docIter name 0 fromId filter func 0 u = some (.ok (some (.OK, u), log')) := by
  obtain ⟨c, hc, hrep⟩ := h.log
  refine ⟨log.put name c, ?_⟩
  unfold LogDatabase.docIter
  rw [hc]
  rfl

theorem mixin_docIter (h : SameDocuments array log mixin name m)
    (hstop : ∀ n val, filter.shouldStop n val = false) (mode : Mode) (max : ℕ) (fromId : UInt64)
    (func : υ → UInt64 → Bytes → Status × υ) (u : υ) :
    let r := deliver max func (documentsFrom (filter.select name (docOf m)) fromId) 0 u
    ∃ mixin', mixin.docIter name mode max fromId filter.toDocFilter func u =
      (r.1, mixin', r.2) := by
  obtain ⟨metadata, hmetadata⟩ := h.exists_metadata
  obtain ⟨hstatus, huser⟩ := DocumentStoreMixin.docIter_walk filter.toDocFilter rfl h.coherent
    h.nonempty hstop mode max fromId func u
  simp only [Collection.iter, Collection.shown, hmetadata, h.docs_eq] at hstatus huser
  exact ⟨_, Prod.ext hstatus (Prod.ext rfl huser)⟩

end SameDocuments

/-- The three backends hand over the first `max` accepted documents in two cases. Without a limit,
when there is no such document: the array and the log call nothing then. With one, when the log
has assigned an id and gets at the documents that it fetches for them, and the copies of the
documents fit in a vector. -/
theorem docIter_honours_max_iff {array : ArrayDatabase} {log : LogDatabase}
    {mixin : DocumentStoreMixin (MapDatabase .default)} {name : CString} {m : IdMap Bytes}
    (h : SameDocuments array log mixin name m) {filter : SizedDocFilter}
    (hstop : ∀ n val, filter.shouldStop n val = false) (mode : Mode) (max : ℕ) (fromId : UInt64) :
    HandsOverFirst array log mixin name (docOf m) mode max fromId filter ↔
      if max = 0 then documentsFrom (filter.select name (docOf m)) fromId = []
      else 0 < m.next ∧
        (∀ p ∈ fetchedDocs filter.toDocFilter name max (documentsFrom (docOf m) fromId),
          log.Reaches name p.1) ∧
        ∀ p ∈ (documentsFrom (filter.select name (docOf m)) fromId).take max,
          CopyFits filter name p := by
  have hmixin : ∀ (υ : Type) (func : υ → UInt64 → Bytes → Status × υ) (u : υ),
      (∀ u id doc, (func u id doc).1 = .OK) → ∃ u' mixin',
        mixin.docIter name mode max fromId filter.toDocFilter (recording func) ([], u) =
          (.OK, mixin', firstDocs max (documentsFrom (filter.select name (docOf m)) fromId),
            u') := by
    intro υ func u hfunc
    obtain ⟨mixin', hr⟩ := h.mixin_docIter hstop mode max fromId (recording func) ([], u)
    obtain ⟨u', hdeliver⟩ := deliver_recording max hfunc
      (documentsFrom (filter.select name (docOf m)) fromId) 0 [] u
    rw [hdeliver] at hr
    exact ⟨u', mixin', hr⟩
  by_cases hmax : max = 0
  · -- a maximum of 0 is no limit for the mixin, and lists nothing in the other two
    subst hmax
    rw [if_pos rfl]
    constructor
    · intro hall
      obtain ⟨⟨calls, u', hcalls, hcopies⟩, -⟩ := hall Unit (fun u _ _ => (.OK, u)) ()
        fun _ _ _ => rfl
      rw [h.array_docIter hstop, handCopies_of_max_le le_rfl] at hcalls
      obtain rfl : [] = calls := (Prod.mk.inj (Prod.mk.inj (Option.some.inj hcalls)).2).1
      exact List.forall₂_nil_right_iff.1 hcopies
    · intro hnil υ func u hfunc
      obtain ⟨log', hlog⟩ := h.log_docIter_zero fromId filter (recording func) ([], u)
      refine ⟨⟨[], u, ?_, ?_⟩, ⟨0, [], u, log', hlog, ?_⟩, hmixin υ func u hfunc⟩
      · rw [h.array_docIter hstop, handCopies_of_max_le le_rfl]
      · rw [hnil]
        exact .nil
      · rw [hnil]
        exact .nil
  · rw [if_neg hmax]
    constructor
    · intro hall
      obtain ⟨⟨calls, u', hcalls, -⟩, ⟨fetches, calls', u'', log', hcalls', -⟩, -⟩ :=
        hall Unit (fun u _ _ => (.OK, u)) () fun _ _ _ => rfl
      rw [h.array_docIter hstop] at hcalls
      -- without an id the last one of the log wraps, and its loop does not end
      have hpos : 0 < m.next := by
        by_contra hempty
        have hzero := Nat.eq_zero_of_not_pos hempty
        rw [h.log_docIter_empty hzero (Nat.pos_of_ne_zero hmax)] at hcalls'
        cases hcalls'
      refine ⟨hpos, ?_, (handCopies_isSome_iff (fun _ _ _ => rfl) _ 0 _ _).1 (by rw [hcalls]; rfl)⟩
      by_contra hreaches
      exact h.log_docIter_unreached hpos hstop hreaches hcalls fetches _ hcalls'
    · rintro ⟨hpos, hreaches, hfits⟩ υ func u hfunc
      obtain ⟨copies, u', hcopies, hall⟩ := handCopies_recording hfunc
        (documentsFrom (filter.select name (docOf m)) fromId) (i := 0) hfits [] [] u
      obtain ⟨log', hlog⟩ := h.log_docIter hpos hstop hreaches (recording func) ([], u)
        (le_refl m.next)
      have hpage : firstDocs max (documentsFrom (filter.select name (docOf m)) fromId) =
          (documentsFrom (filter.select name (docOf m)) fromId).take (max - 0) := if_neg hmax
      rw [hcopies] at hlog
      refine ⟨⟨copies, u', ?_, ?_⟩, ⟨m.next, copies, u', log', hlog, ?_⟩, hmixin υ func u hfunc⟩
      · rw [h.array_docIter hstop, hcopies]
        rfl
      · rwa [hpage]
      · rwa [hpage]

/-- The first two of the documents with the ids `0` and `2`. -/
theorem docIter_honours_max_iff_two :
    ∃ array log mixin, HandsOverFirst array log mixin nameC (docOf (DocWrite.stored
      DocWrite.storeThree)) .default 2 0 makeDocFilter := by
  obtain ⟨array, log, mixin, h, hreaches⟩ := exists_storeThree
  refine ⟨array, log, mixin, (docIter_honours_max_iff h (fun _ _ => rfl) .default 2 0).2 ?_⟩
  rw [if_neg (by decide)]
  refine ⟨by decide, fun p _ => hreaches p.1, fun p hp => ?_⟩
  have hdoc := (mem_documentsFrom.1 (List.mem_of_mem_take hp)).2
  exact h.length_le (DocFilter.select_eq_some.1 hdoc).1

/-- Asked for everything, the array calls nothing. -/
theorem docIter_ignores_zero :
    ¬ ∀ (array : ArrayDatabase) (log : LogDatabase)
      (mixin : DocumentStoreMixin (MapDatabase .default)) (name : CString) (m : IdMap Bytes),
      SameDocuments array log mixin name m → ∀ filter : SizedDocFilter,
        (∀ n val, filter.shouldStop n val = false) → ∀ (mode : Mode) (max : ℕ) (fromId : UInt64),
          HandsOverFirst array log mixin name (docOf m) mode max fromId filter := by
  intro hall
  obtain ⟨array, log, mixin, h, -⟩ := exists_storeThree
  obtain ⟨⟨calls, u', hcalls, hcopies⟩, -⟩ := hall array log mixin nameC _ h makeDocFilter
    (fun _ _ => rfl) .default 0 0 Unit (fun u _ _ => (.OK, u)) () fun _ _ _ => rfl
  rw [h.array_docIter fun _ _ => rfl, handCopies_of_max_le le_rfl] at hcalls
  obtain rfl : [] = calls := (Prod.mk.inj (Prod.mk.inj (Option.some.inj hcalls)).2).1
  have hnil : documentsFrom (makeDocFilter.select nameC
      (docOf (DocWrite.stored DocWrite.storeThree))) 0 = [] := List.forall₂_nil_right_iff.1 hcopies
  have hmem : ((0 : UInt64), ([1, 2] : Bytes)) ∈ documentsFrom (makeDocFilter.select nameC
      (docOf (DocWrite.stored DocWrite.storeThree))) 0 :=
    mem_documentsFrom.2 ⟨UInt64.le_refl 0, DocFilter.select_eq_some.2 ⟨rfl, rfl⟩⟩
  rw [hnil] at hmem
  cases hmem

end Yokan
