import Yokan.UnsortedListing

/-!
# Yokan: a page of documents of a database that is not sorted

`DocumentStoreMixin::docList` (`include/yokan/doc-mixin.hpp`) on a database that is not sorted gets
one document after the other into the place where the next document of the page would go, and keeps
it there if the filter accepts it. The loop ends at the first id without document, at the first
document that does not fit in that place, and when the offset reaches the end of the buffer.

* `lookups`: the documents that the loop lists;
* `lookups_eq_iff`: they are the whole page exactly if every id up to the last one of the page is
  `Reached`;
* `docList_agree_iff`: for which collections the page is the one of a sorted database.
-/

namespace Yokan

open Buffer PartialMap Transition

/-! ### The documents that the loop lists -/

/-- The offset behind some documents of a page, packed or in slots. -/
def offsetBehind (packed : Bool) (slots : List ℕ) (docs : List (UInt64 × Bytes)) : ℕ :=
  if packed then (docs.map (fun p => p.2.length)).sum else (slots.take docs.length).sum

/-- The room for the document behind some documents of a page, in a buffer of `size` bytes. -/
def roomBehind (packed : Bool) (slots : List ℕ) (size : ℕ) (docs : List (UInt64 × Bytes)) : ℕ :=
  if packed then size - offsetBehind packed slots docs else slots.getD docs.length 0

/-- Look up the ids one after the other, and list what the filter accepts. -/
def lookups (docs : UInt64 → Option Bytes) (filter : DocFilter) (name : CString) (packed : Bool)
    (slots : List ℕ) (size : ℕ) : List UInt64 → List (UInt64 × Bytes) → List (UInt64 × Bytes)
  | [], met => met
  | id :: rest, met =>
    if met.length = slots.length ∨ size ≤ offsetBehind packed slots met then met
    else
      match docs id with
      | none => met
      | some doc =>
        if roomBehind packed slots size met < doc.length then met
        else
          lookups docs filter name packed slots size rest
            (if filter.check name id doc then met ++ [(id, doc)] else met)

/-- The documents with ids from `fromId` on and below `id`. -/
def documentsBetween (docs : UInt64 → Option Bytes) (fromId id : UInt64) : List (UInt64 × Bytes) :=
  (documentsFrom docs fromId).filter (fun p => p.1 < id)

/-- An id below `nextId` has a document that fits in the place behind the documents that come before
it in the page, and that place is inside the buffer. -/
def Reached (docs : UInt64 → Option Bytes) (filter : DocFilter) (name : CString) (packed : Bool)
    (slots : List ℕ) (size : ℕ) (fromId nextId id : UInt64) : Prop :=
  let before := documentsBetween (filter.select name docs) fromId id
  id < nextId ∧ offsetBehind packed slots before < size ∧
    ∃ doc, docs id = some doc ∧ doc.length ≤ roomBehind packed slots size before

section Ranges

variable {docs : UInt64 → Option Bytes} {fromId : UInt64}

/-- The documents with ids in a range of numbers. -/
def documentsIn (docs : UInt64 → Option Bytes) (start n : ℕ) : List (UInt64 × Bytes) :=
  (List.range' start n).filterMap
    (fun i => (docs (UInt64.ofNat i)).map (fun doc => (UInt64.ofNat i, doc)))

theorem documentsIn_append (start n k : ℕ) :
    documentsIn docs start (n + k) = documentsIn docs start n ++ documentsIn docs (start + n) k := by
  rw [documentsIn, ← List.range'_append_1, List.filterMap_append]
  rfl

theorem documentsIn_one (i : ℕ) :
    documentsIn docs i 1 =
      ((docs (UInt64.ofNat i)).map (fun doc => (UInt64.ofNat i, doc))).toList := by
  rw [documentsIn, List.range'_one, List.filterMap_cons]
  cases docs (UInt64.ofNat i) <;> rfl

theorem bounds_of_mem_documentsIn {start n : ℕ} (hle : start + n ≤ 2 ^ 64) {p : UInt64 × Bytes}
    (hp : p ∈ documentsIn docs start n) : start ≤ p.1.toNat ∧ p.1.toNat < start + n := by
  obtain ⟨i, hi, he⟩ := List.mem_filterMap.1 hp
  rw [List.mem_range'_1] at hi
  obtain ⟨doc, -, rfl⟩ := Option.map_eq_some_iff.1 he
  rw [UInt64.toNat_ofNat_of_lt' (show i < 2 ^ 64 by omega)]
  exact hi

/-- The documents before an id, and the documents behind it. -/
theorem documentsFrom_split {k : ℕ} (hle : fromId.toNat + k ≤ 2 ^ 64) :
    documentsFrom docs fromId = documentsIn docs fromId.toNat k ++
      documentsIn docs (fromId.toNat + k) (2 ^ 64 - fromId.toNat - k) := by
  rw [← documentsIn_append, Nat.add_sub_cancel' (by omega)]
  rfl

theorem documentsBetween_eq {id : UInt64} (hle : fromId ≤ id) :
    documentsBetween docs fromId id =
      documentsIn docs fromId.toNat (id.toNat - fromId.toNat) := by
  have hlt := id.toNat_lt
  rw [UInt64.le_iff_toNat_le] at hle
  have hend : fromId.toNat + (id.toNat - fromId.toNat) = id.toNat := by omega
  rw [documentsBetween, documentsFrom_split (k := id.toNat - fromId.toNat) (by omega), hend,
    List.filter_append]
  have hbelow : (documentsIn docs fromId.toNat (id.toNat - fromId.toNat)).filter
      (fun p => p.1 < id) = documentsIn docs fromId.toNat (id.toNat - fromId.toNat) := by
    refine List.filter_eq_self.2 fun p hp => ?_
    have := bounds_of_mem_documentsIn (by omega) hp
    rw [decide_eq_true_eq, UInt64.lt_iff_toNat_lt]
    omega
  have habove : (documentsIn docs id.toNat (2 ^ 64 - fromId.toNat - (id.toNat - fromId.toNat))).filter
      (fun p => p.1 < id) = [] := by
    refine List.filter_eq_nil_iff.2 fun p hp => ?_
    have := bounds_of_mem_documentsIn (by omega) hp
    rw [decide_eq_true_eq, UInt64.lt_iff_toNat_lt]
    omega
  rw [hbelow, habove, List.append_nil]

end Ranges

section Lookups

variable {docs : UInt64 → Option Bytes} {filter : DocFilter} {name : CString}
  {packed : Bool} {slots : List ℕ} {size : ℕ} {fromId nextId : UInt64}

/-- Some first documents of the listing are the page exactly if the page has no document behind
them. -/
theorem documentsIn_eq_take_iff {k count : ℕ} (hle : fromId.toNat + k ≤ 2 ^ 64)
    (hcount : (documentsIn docs fromId.toNat k).length ≤ count) :
    documentsIn docs fromId.toNat k = (documentsFrom docs fromId).take count ↔
      ∀ p ∈ (documentsFrom docs fromId).take count, p.1.toNat < fromId.toNat + k := by
  have hpage : (documentsFrom docs fromId).take count = documentsIn docs fromId.toNat k ++
      (documentsIn docs (fromId.toNat + k) (2 ^ 64 - fromId.toNat - k)).take
        (count - (documentsIn docs fromId.toNat k).length) := by
    rw [documentsFrom_split hle, List.take_append, List.take_of_length_le hcount]
  constructor
  · intro heq p hp
    rw [← heq] at hp
    exact (bounds_of_mem_documentsIn hle hp).2
  · intro hbelow
    rw [hpage] at hbelow ⊢
    suffices hnil : (documentsIn docs (fromId.toNat + k) (2 ^ 64 - fromId.toNat - k)).take
        (count - (documentsIn docs fromId.toNat k).length) = [] by
      rw [hnil, List.append_nil]
    refine List.eq_nil_iff_forall_not_mem.2 fun p hp => ?_
    have h1 := hbelow p (List.mem_append_right _ hp)
    have h2 := bounds_of_mem_documentsIn (by omega) (List.mem_of_mem_take hp)
    omega

variable (docs filter name packed slots size fromId nextId) in
/-- Every id up to the last document of the page, from a number on, is reached. -/
def AllReached (start : ℕ) : Prop :=
  ∀ id : UInt64, start ≤ id.toNat →
    (∃ p ∈ (documentsFrom (filter.select name docs) fromId).take slots.length, id ≤ p.1) →
      Reached docs filter name packed slots size fromId nextId id

/-- Where an id is not reached, the page is over or not all of it is reached. -/
theorem documentsIn_eq_take_iff_of_not_reached {k : ℕ} (hle : fromId.toNat + k ≤ 2 ^ 64)
    (hcount : (documentsIn (filter.select name docs) fromId.toNat k).length ≤
      slots.length)
    (hnot : ∀ id : UInt64, id.toNat = fromId.toNat + k →
      ¬ Reached docs filter name packed slots size fromId nextId id) :
    documentsIn (filter.select name docs) fromId.toNat k =
        (documentsFrom (filter.select name docs) fromId).take slots.length ↔
      AllReached docs filter name packed slots size fromId nextId (fromId.toNat + k) := by
  rw [documentsIn_eq_take_iff hle hcount]
  constructor
  · rintro hbelow id hid ⟨p, hp, hle⟩
    have := hbelow p hp
    rw [UInt64.le_iff_toNat_le] at hle
    omega
  · intro hall p hp
    by_contra hge
    have hp' := p.1.toNat_lt
    have hid : (UInt64.ofNat (fromId.toNat + k)).toNat = fromId.toNat + k :=
      UInt64.toNat_ofNat_of_lt' (show fromId.toNat + k < 2 ^ 64 by omega)
    refine hnot _ hid (hall _ (by omega) ⟨p, hp, ?_⟩)
    rw [UInt64.le_iff_toNat_le]
    omega

/-- Where an id is reached, all is reached from there on if all is reached behind it. -/
theorem allReached_iff_succ {start : ℕ}
    (hreached : Reached docs filter name packed slots size fromId nextId (UInt64.ofNat start)) :
    AllReached docs filter name packed slots size fromId nextId start ↔
      AllReached docs filter name packed slots size fromId nextId (start + 1) := by
  constructor
  · exact fun hall id hid => hall id (by omega)
  · intro hall id hid hpage
    by_cases heq : id.toNat = start
    · rwa [← heq, UInt64.ofNat_toNat] at hreached
    · exact hall id (by omega) hpage

/-- The lookups list the page exactly if every id up to its last document is reached. -/
theorem lookups_eq_iff_of_walked (n : ℕ) {k : ℕ} (hn : n = nextId.toNat - (fromId.toNat + k))
    (hle : fromId.toNat + k ≤ 2 ^ 64)
    (hcount : (documentsIn (filter.select name docs) fromId.toNat k).length ≤ slots.length) :
    lookups docs filter name packed slots size ((List.range' (fromId.toNat + k) n).map UInt64.ofNat)
        (documentsIn (filter.select name docs) fromId.toNat k) =
        (documentsFrom (filter.select name docs) fromId).take slots.length ↔
      AllReached docs filter name packed slots size fromId nextId (fromId.toNat + k) := by
  -- the loop has walked `k` ids and listed all documents among them
  induction n generalizing k with
  | zero =>
    refine documentsIn_eq_take_iff_of_not_reached hle hcount fun id hid hreached => ?_
    have := UInt64.lt_iff_toNat_lt.1 hreached.1
    omega
  | succ n ih =>
    have hnext := nextId.toNat_lt
    have hlt : fromId.toNat + k < 2 ^ 64 := by omega
    have hcur : (UInt64.ofNat (fromId.toNat + k)).toNat = fromId.toNat + k :=
      UInt64.toNat_ofNat_of_lt' hlt
    have hbefore : documentsBetween (filter.select name docs) fromId
        (UInt64.ofNat (fromId.toNat + k)) =
          documentsIn (filter.select name docs) fromId.toNat k := by
      rw [documentsBetween_eq (UInt64.le_iff_toNat_le.2 (by omega)), hcur, Nat.add_sub_cancel_left]
    have hstuck := fun hnot : ¬ Reached docs filter name packed slots size fromId nextId
        (UInt64.ofNat (fromId.toNat + k)) =>
      documentsIn_eq_take_iff_of_not_reached hle hcount fun id hid => by
        rwa [← UInt64.ofNat_toNat (x := id), hid]
    rw [List.range'_succ, List.map_cons, lookups]
    by_cases hstop : (documentsIn (filter.select name docs) fromId.toNat k).length = slots.length ∨
        size ≤ offsetBehind packed slots (documentsIn (filter.select name docs) fromId.toNat k)
    · rw [if_pos hstop]
      -- a full page is all that was asked for; behind a full buffer no id is reached
      rcases hstop with hfull | hend
      · have heq : documentsIn (filter.select name docs) fromId.toNat k =
            (documentsFrom (filter.select name docs) fromId).take slots.length := by
          rw [documentsFrom_split hle, ← hfull, List.take_left]
        refine ⟨fun _ id hid hpage => ?_, fun _ => heq⟩
        obtain ⟨p, hp, hidp⟩ := hpage
        have := (documentsIn_eq_take_iff hle hcount).1 heq p hp
        rw [UInt64.le_iff_toNat_le] at hidp
        omega
      · refine hstuck fun hreached => ?_
        have := hreached.2.1
        rw [hbefore] at this
        omega
    · rw [if_neg hstop]
      cases hdoc : docs (UInt64.ofNat (fromId.toNat + k)) with
      | none =>
        refine hstuck fun hreached => ?_
        obtain ⟨-, -, doc, hsome, -⟩ := hreached
        rw [hdoc] at hsome
        cases hsome
      | some doc =>
        by_cases hroom : roomBehind packed slots size
            (documentsIn (filter.select name docs) fromId.toNat k) < doc.length
        · simp only [hroom, if_true]
          refine hstuck fun hreached => ?_
          obtain ⟨-, -, doc', hsome, hfit⟩ := hreached
          obtain rfl := Option.some.inj (hdoc.symm.trans hsome)
          rw [hbefore] at hfit
          omega
        · have hreached : Reached docs filter name packed slots size fromId nextId
              (UInt64.ofNat (fromId.toNat + k)) := by
            refine ⟨UInt64.lt_iff_toNat_lt.2 (by omega), ?_, doc, hdoc, ?_⟩
            · rw [hbefore]
              exact Nat.lt_of_not_le fun h => hstop (Or.inr h)
            · rw [hbefore]
              exact Nat.le_of_not_lt hroom
          have hmet : (if filter.check name (UInt64.ofNat (fromId.toNat + k)) doc then
              documentsIn (filter.select name docs) fromId.toNat k ++
                [(UInt64.ofNat (fromId.toNat + k), doc)]
              else documentsIn (filter.select name docs) fromId.toNat k) =
                documentsIn (filter.select name docs) fromId.toNat (k + 1) := by
            rw [documentsIn_append, documentsIn_one, DocFilter.select, hdoc, Option.filter_some]
            split_ifs <;> simp
          have hcount' : (documentsIn (filter.select name docs) fromId.toNat (k + 1)).length ≤
              slots.length := by
            have hlt' := lt_of_le_of_ne hcount fun h => hstop (Or.inl h)
            rw [← hmet]
            split_ifs
            · rw [List.length_append, List.length_singleton]
              exact hlt'
            · exact hcount
          simp only [hroom, if_false, hmet]
          rw [allReached_iff_succ hreached]
          exact ih (by omega) (by omega) hcount'

theorem length_lookups_le {ids : List UInt64} {met : List (UInt64 × Bytes)}
    (h : met.length ≤ slots.length) :
    (lookups docs filter name packed slots size ids met).length ≤ slots.length := by
  induction ids generalizing met with
  | nil => exact h
  | cons id rest ih =>
    rw [lookups]
    split_ifs with hstop
    · exact h
    · have hlt : met.length < slots.length := lt_of_le_of_ne h fun heq => hstop (Or.inl heq)
      cases docs id with
      | none => exact h
      | some doc =>
        dsimp only
        split_ifs
        · exact h
        · refine ih ?_
          rw [List.length_append]
          exact hlt
        · exact ih h

theorem lookups_eq_iff :
    lookups docs filter name packed slots size (DocumentStoreMixin.idsFrom fromId nextId) [] =
        (documentsFrom (filter.select name docs) fromId).take slots.length ↔
      AllReached docs filter name packed slots size fromId nextId fromId.toNat :=
  lookups_eq_iff_of_walked _ (k := 0) rfl fromId.toNat_lt.le (Nat.zero_le _)

end Lookups

/-! ### The loop -/

/-- What a packed `get` writes for one entry. -/
def placed (vals : Bytes) : Option Bytes → Bytes × ℕ
  | none => (vals, keyNotFound)
  | some v => if vals.length < v.length then (vals, sizeTooSmall) else (blit vals 0 v, v.length)

theorem getWith_single {mode : Mode} (find : Bytes → Option Bytes) (hwait : mode.has .wait = false)
    (key vals : Bytes) (vsize : ℕ) :
    ∃ size, getWith find mode true key [key.length] vals [vsize] =
      (none, ⟨(placed vals (find key)).1, size, [(placed vals (find key)).2]⟩) := by
  simp only [getWith, keysLoop_single, hwait, if_true]
  unfold getPackedBody placed
  cases find key with
  | none => exact ⟨_, rfl⟩
  | some v =>
    by_cases hroom : vals.length < v.length
    · exact ⟨vals.length - vals.length, by simp [valCopy, copyOut, hroom]⟩
    · simp only [valCopy, copyOut, hroom, Bool.false_eq_true, if_false]
      split_ifs <;> exact ⟨_, rfl⟩

namespace UnorderedMapDatabase

theorem erase_single {mode : Mode} {s : UnorderedMapDatabase} (hs : s.migrated = false)
    (hwait : mode.has .wait = false) (key : Bytes) :
    erase mode s key [key.length] = (.OK, (eraseBody false key s).2) := by
  simp only [erase, eraseWith, hs, Bool.false_eq_true, if_false, keysLoop_single, hwait,
    eraseBody_none, Option.getD_none]

/-- A packed `get` of one key. In the mode `YOKAN_MODE_CONSUME` it leaves the other keys alone. -/
theorem get_single {mode : Mode} {s : UnorderedMapDatabase} (hs : s.migrated = false)
    (hwait : mode.has .wait = false) (key vals : Bytes) (vsize : ℕ) :
    ∃ db size, get mode true s key [key.length] vals [vsize] =
        ⟨.OK, db, (placed vals (s.find key)).1, size, [(placed vals (s.find key)).2]⟩ ∧
      db.migrated = false ∧ ∀ k, k ≠ key → db.find k = s.find k := by
  obtain ⟨size, hread⟩ := getWith_single s.find hwait key vals vsize
  simp only [get, getOrConsume, hread, hs, List.length_singleton, ne_eq, not_true,
    Bool.false_eq_true, if_false]
  by_cases hconsume : mode.has .consume = true
  · simp only [hconsume, if_true, erase_single hs hwait]
    refine ⟨_, size, rfl, by rw [migrated_eraseBody, hs], fun k hk => ?_⟩
    rw [find_eraseBody, Function.update_of_ne hk]
  · simp only [hconsume, Bool.false_eq_true, if_false]
    exact ⟨s, size, rfl, hs, fun k _ => rfl⟩

end UnorderedMapDatabase

namespace DocumentStoreMixin

/-- What the loop has written: the documents met so far are listed, one behind the other. -/
structure Listed (packed : Bool) (slots : List ℕ) (size : ℕ) (met : List (UInt64 × Bytes))
    (st : DocListLoop UnorderedMapDatabase) : Prop where
  ids_eq : st.ids = met.map Prod.fst
  length_documents : st.documents.length = size
  docsOffset_eq : st.docsOffset = offsetBehind packed slots met
  docSizes_eq : st.docSizes.take met.length = met.map (fun p => p.2.length)
  found : ∀ (i : ℕ) p, met[i]? = some p →
    offsetBehind packed slots (met.take i) + p.2.length ≤ offsetBehind packed slots met ∧
      slice st.documents (offsetBehind packed slots (met.take i)) p.2.length = p.2

section Listing

variable {packed : Bool} {slots : List ℕ} {size : ℕ} {met : List (UInt64 × Bytes)}
  {st : DocListLoop UnorderedMapDatabase}

theorem offsetBehind_snoc (packed : Bool) (slots : List ℕ) (met : List (UInt64 × Bytes))
    (p : UInt64 × Bytes) :
    offsetBehind packed slots (met ++ [p]) =
      offsetBehind packed slots met + (if packed then p.2.length else slots.getD met.length 0) := by
  unfold offsetBehind
  cases packed with
  | true => simp
  | false =>
    simp only [Bool.false_eq_true, if_false, List.length_append, List.length_singleton,
      List.take_add_one, List.sum_append, List.getD_eq_getElem?_getD]
    cases slots[met.length]? <;> simp

/-- The place for the next document is inside the buffer. -/
theorem behind_add_room_le (hslots : packed = false → slots.sum ≤ size)
    (hlt : offsetBehind packed slots met < size) :
    offsetBehind packed slots met + roomBehind packed slots size met ≤ size := by
  cases packed with
  | true =>
    simp only [roomBehind, if_true]
    omega
  | false =>
    have hstep := offsetBehind_snoc false slots met (0, [])
    have hle : (slots.take (met ++ [((0 : UInt64), ([] : Bytes))]).length).sum ≤ slots.sum :=
      List.Sublist.sum_le_sum (List.take_sublist _ _) (by simp)
    have hsum := hslots rfl
    simp only [offsetBehind, Bool.false_eq_true, if_false] at hstep hle ⊢
    simp only [roomBehind, Bool.false_eq_true, if_false]
    omega

/-- Writing to the place behind the documents leaves them alone. -/
theorem Listed.scratch (h : Listed packed slots size met st) {vals : Bytes}
    (hvals : offsetBehind packed slots met + vals.length ≤ size) (db : UnorderedMapDatabase)
    {docSizes : List ℕ} (htake : docSizes.take met.length = st.docSizes.take met.length) :
    Listed packed slots size met
      { db
        ids := st.ids
        documents := blit st.documents (offsetBehind packed slots met) vals
        docsOffset := offsetBehind packed slots met
        docSizes } where
  ids_eq := h.ids_eq
  length_documents := by
    rw [length_blit (by rw [h.length_documents]; exact hvals)]
    exact h.length_documents
  docsOffset_eq := rfl
  docSizes_eq := htake.trans h.docSizes_eq
  found i p hp := by
    obtain ⟨hend, hslice⟩ := h.found i p hp
    refine ⟨hend, ?_⟩
    rw [slice_blit_before (by rw [h.length_documents]; omega) hend]
    exact hslice

/-- A document that is written to the place behind the others is listed behind them. -/
theorem Listed.list (h : Listed packed slots size met st) {vals doc : Bytes} (id : UInt64)
    (hvals : offsetBehind packed slots met + vals.length ≤ size) (hdoc : doc <+: vals)
    (hend : offsetBehind packed slots met + doc.length ≤
      offsetBehind packed slots (met ++ [(id, doc)])) (db : UnorderedMapDatabase)
    {docSizes : List ℕ}
    (htake : docSizes.take (met.length + 1) = st.docSizes.take met.length ++ [doc.length]) :
    Listed packed slots size (met ++ [(id, doc)])
      { db
        ids := st.ids ++ [id]
        documents := blit st.documents (offsetBehind packed slots met) vals
        docsOffset := offsetBehind packed slots (met ++ [(id, doc)])
        docSizes } := by
  have hscratch := h.scratch hvals db rfl
  constructor
  · show st.ids ++ [id] = _
    rw [h.ids_eq, List.map_append]
    rfl
  · exact hscratch.length_documents
  · rfl
  · show docSizes.take _ = _
    rw [List.length_append, List.length_singleton, htake, h.docSizes_eq, List.map_append]
    rfl
  · intro i p hp
    rcases Nat.lt_trichotomy i met.length with hi | rfl | hi
    · rw [List.getElem?_append_left hi] at hp
      rw [List.take_append_of_le_length hi.le]
      obtain ⟨hle, hslice⟩ := hscratch.found i p hp
      exact ⟨by omega, hslice⟩
    · obtain rfl : (id, doc) = p := by simpa using hp
      rw [List.take_left]
      refine ⟨hend, ?_⟩
      exact slice_blit_prefix (by rw [h.length_documents]; omega) hdoc
    · rw [List.getElem?_eq_none (by simp; omega)] at hp
      cases hp

theorem set_getD_self (l : List ℕ) (i d : ℕ) : l.set i (l.getD i d) = l := by
  refine List.ext_getElem? fun j => ?_
  rw [List.getElem?_set]
  by_cases hij : i = j
  · subst hij
    by_cases hi : i < l.length
    · simp [hi]
    · simp [hi]
  · rw [if_neg hij]

/-- The filter of a collection checks the documents of the collection as the document filter
does. -/
theorem check_keyFromId (name : CString) (filter : DocFilter) (id : UInt64) (doc : Bytes) :
    (collectionFilterWrapper name filter).check (keyFromId name id) doc =
      filter.check name id doc := by
  rw [Bool.eq_iff_iff, check_collectionFilterWrapper]
  constructor
  · rintro ⟨id', heq, hcheck⟩
    rwa [keyFromId_injective name heq]
  · exact fun hcheck => ⟨id, rfl, hcheck⟩

/-- The loop of `docList` lists what the lookups meet. -/
theorem docListLoop_eq {name : CString} {mode : Mode} (hwait : mode.has .wait = false)
    (filter : DocFilter) (hslots : packed = false → slots.sum ≤ size) (hsize : size ≤ lastValidSize)
    (docs : UInt64 → Option Bytes) {ids : List UInt64} (hnodup : ids.Nodup)
    (hserving : st.db.migrated = false)
    (hdocs : ∀ id ∈ ids, st.db.find (keyFromId name id) = docs id)
    (h : Listed packed slots size met st) (hcount : met.length ≤ slots.length)
    (hrest : st.docSizes.drop met.length = slots.drop met.length) :
    ∃ st', docListLoop name mode packed (collectionFilterWrapper name filter) slots.length ids st =
        (none, st') ∧
      Listed packed slots size (lookups docs filter name packed slots size ids met) st' := by
  -- `met` is what was listed so far; the sizes behind it are still those of the slots
  induction ids generalizing st met with
  | nil => exact ⟨st, rfl, h⟩
  | cons id rest ih =>
    have hlen : st.ids.length = met.length := by rw [h.ids_eq, List.length_map]
    have hslot : st.docSizes.getD met.length 0 = slots.getD met.length 0 := by
      have hhead := congrArg (fun l => l.getD 0 0) hrest
      simpa [List.getD_eq_getElem?_getD] using hhead
    have hlt : lastValidSize < sizeTooSmall := by decide
    rw [docListLoop, lookups, hlen, h.docsOffset_eq, h.length_documents, hslot]
    by_cases hstop : met.length = slots.length ∨ size ≤ offsetBehind packed slots met
    · rw [if_pos hstop, if_pos hstop]
      exact ⟨st, rfl, h⟩
    · rw [if_neg hstop, if_neg hstop]
      have hinside : offsetBehind packed slots met < size :=
        Nat.lt_of_not_le fun hle => hstop (Or.inr hle)
      have hroom := behind_add_room_le hslots hinside
      have hplace : (slice st.documents (offsetBehind packed slots met)
          (roomBehind packed slots size met)).length = roomBehind packed slots size met :=
        length_slice_of_le (by rw [h.length_documents]; exact hroom)
      obtain ⟨db, size', hget, hserving', hothers⟩ : ∃ db size', DatabaseInterface.get mode true st.db
          (keyFromId name id) [(keyFromId name id).length]
            (slice st.documents (offsetBehind packed slots met) (roomBehind packed slots size met))
            [slots.getD met.length 0] = ⟨.OK, db, _, size', _⟩ ∧ db.migrated = false ∧ _ :=
        UnorderedMapDatabase.get_single hserving hwait (keyFromId name id) _ _
      -- `get` may change the database, but not what it has under the ids to come
      have hlater : ∀ id' ∈ rest, db.find (keyFromId name id') = docs id' := by
        intro id' hid'
        rw [hothers _ fun heq => (List.nodup_cons.1 hnodup).1 (keyFromId_injective name heq ▸ hid')]
        exact hdocs id' (List.mem_cons_of_mem id hid')
      dsimp only
      rw [← roomBehind, hget, hdocs id List.mem_cons_self]
      dsimp only
      rw [if_neg (by simp), List.getD_cons_zero]
      have htake : ∀ n, (st.docSizes.set met.length n).take met.length =
          st.docSizes.take met.length := fun n => List.take_set_of_le (le_refl _)
      -- a hole stops the loop, as does a document without room
      cases hdoc : docs id with
      | none =>
        simp only [placed, sizeTooSmall_lt_keyNotFound.le, if_true]
        exact ⟨_, rfl, h.scratch (by rw [hplace]; exact hroom) db (htake _)⟩
      | some doc =>
        by_cases hbig : roomBehind packed slots size met < doc.length
        · simp only [placed, hplace, hbig, le_refl, if_true]
          exact ⟨_, rfl, h.scratch (by rw [hplace]; exact hroom) db (htake _)⟩
        · have hfit : ¬ sizeTooSmall ≤ doc.length := by omega
          have hprefix : doc <+: blit (slice st.documents (offsetBehind packed slots met)
              (roomBehind packed slots size met)) 0 doc :=
            List.prefix_append doc _
          have hvals : offsetBehind packed slots met + (blit (slice st.documents
              (offsetBehind packed slots met) (roomBehind packed slots size met)) 0 doc).length ≤
                size := by
            rw [length_blit (by rw [hplace]; omega), hplace]
            exact hroom
          have hread := slice_blit_prefix (l := st.documents)
            (show offsetBehind packed slots met ≤ _ by rw [h.length_documents]; omega) hprefix
          simp only [placed, hplace, hbig, hfit, if_false, hread, check_keyFromId]
          -- a rejected document gives its slot back, with the size that the slot had
          by_cases hcheck : filter.check name id doc = true
          · simp only [hcheck, Bool.not_true, Bool.false_eq_true, if_false, if_true]
            have hlt' : met.length < slots.length :=
              lt_of_le_of_ne hcount fun heq => hstop (Or.inl heq)
            have hsize' : met.length < st.docSizes.length := by
              have := congrArg List.length hrest
              rw [List.length_drop, List.length_drop] at this
              omega
            have hstep := offsetBehind_snoc packed slots met (id, doc)
            dsimp only at hstep
            have hwidth : doc.length ≤ (if packed then doc.length else slots.getD met.length 0) ∧
                (if packed then doc.length else slots.getD met.length 0) ≤
                  roomBehind packed slots size met := by
              unfold roomBehind at hbig ⊢
              split_ifs at hbig ⊢ with hpacked <;> omega
            have hadd : addSize (offsetBehind packed slots met)
                (if packed then doc.length else slots.getD met.length 0) =
                  offsetBehind packed slots (met ++ [(id, doc)]) := by
              have hmax : lastValidSize < 2 ^ 64 := by decide
              rw [hstep, addSize_eq (by omega)]
            rw [hadd]
            refine ih (List.nodup_cons.1 hnodup).2 hserving' hlater
              (h.list id hvals hprefix (by omega) db ?_) ?_ ?_
            · rw [List.take_add_one, htake, List.getElem?_set_self hsize']
              rfl
            · rw [List.length_append, List.length_singleton]
              exact hlt'
            · rw [List.length_append, List.length_singleton, List.drop_set_of_lt (by omega),
                ← List.drop_drop, hrest, List.drop_drop]
          · simp only [hcheck, Bool.not_false, if_true, Bool.false_eq_true, if_false, List.set_set]
            rw [← hslot, set_getD_self]
            exact ih (List.nodup_cons.1 hnodup).2 hserving' hlater (h.scratch hvals db rfl) hcount
              hrest

end Listing

/-! ### What the caller finds -/

section Found

variable {packed : Bool} {slots : List ℕ}

theorem unpack_of_slices {docs : List (UInt64 × Bytes)} {buf : Bytes} (off : ℕ)
    (h : ∀ (i : ℕ) p, docs[i]? = some p →
      slice buf (off + ((docs.take i).map (fun p => p.2.length)).sum) p.2.length = p.2) :
    unpack (buf.drop off) (docs.map (fun p => p.2.length)) = docs.map Prod.snd := by
  induction docs generalizing off with
  | nil => rfl
  | cons p docs ih =>
    have hhead := h 0 p rfl
    have htail := ih (off + p.2.length) fun i q hq => by
      have hnext := h (i + 1) q hq
      rwa [List.take_succ_cons, List.map_cons, List.sum_cons, ← Nat.add_assoc] at hnext
    rw [List.map_cons, List.map_cons, unpack_cons, List.drop_drop, htail]
    congr 1

theorem readSlots_of_slices {docs : List (UInt64 × Bytes)} {buf : Bytes} (off : ℕ) {more : ℕ}
    (hlen : docs.length ≤ slots.length) (hmark : ∀ p ∈ docs, p.2.length ≠ noMoreKeys)
    (h : ∀ (i : ℕ) p, docs[i]? = some p →
      slice buf (off + (slots.take i).sum) p.2.length = p.2) :
    readSlots buf off slots (docs.map (fun p => p.2.length) ++ List.replicate more noMoreKeys) =
      docs.map Prod.snd := by
  induction docs generalizing off slots with
  | nil => cases slots <;> cases more <;> simp [readSlots, List.replicate_succ]
  | cons p docs ih =>
    cases slots with
    | nil => simp at hlen
    | cons slot slots =>
      obtain ⟨hp, hmark⟩ := List.forall_mem_cons.1 hmark
      have hhead := h 0 p rfl
      have htail := ih (off + slot) (Nat.le_of_succ_le_succ hlen) hmark fun i q hq => by
        have hnext := h (i + 1) q hq
        rwa [List.take_succ_cons, List.sum_cons, ← Nat.add_assoc] at hnext
      rw [List.map_cons, List.cons_append, readSlots, if_neg hp, htail, List.map_cons]
      congr 1

/-- The caller finds the documents that are one behind the other in its buffer. -/
theorem readColumn_of_slices {docs : List (UInt64 × Bytes)} {buf : Bytes} {more size : ℕ}
    (hlen : docs.length ≤ slots.length) (hmark : ∀ p ∈ docs, p.2.length ≠ noMoreKeys)
    (h : ∀ (i : ℕ) p, docs[i]? = some p →
      slice buf (offsetBehind packed slots (docs.take i)) p.2.length = p.2) :
    readColumn packed slots
        ⟨buf, size, docs.map (fun p => p.2.length) ++ List.replicate more noMoreKeys⟩ =
      docs.map Prod.snd := by
  unfold readColumn
  cases packed with
  | true =>
    have hsizes : (docs.map (fun p => p.2.length) ++ List.replicate more noMoreKeys).takeWhile
        (· ≠ noMoreKeys) = docs.map (fun p => p.2.length) := by
      have hproper : ∀ n ∈ docs.map (fun p => p.2.length), decide (n ≠ noMoreKeys) = true := by
        intro n hn
        obtain ⟨p, hp, rfl⟩ := List.mem_map.1 hn
        exact decide_eq_true (hmark p hp)
      rw [List.takeWhile_append_of_pos hproper, List.takeWhile_replicate]
      simp
    rw [if_pos rfl, hsizes]
    exact unpack_of_slices 0 fun i p hp => by simpa [offsetBehind] using h i p hp
  | false =>
    rw [if_neg (by decide)]
    refine readSlots_of_slices 0 hlen hmark fun i p hp => ?_
    have hi : i ≤ docs.length := (List.getElem?_eq_some_iff.1 hp).1.le
    simpa [offsetBehind, Nat.min_eq_left hi] using h i p hp

end Found

/-- The documents behind the sizes of a listing. -/
def foundIn (packed : Bool) (slots : DocSlots) (out : DocListOutput) : List Bytes :=
  readColumn packed slots.docSizes ⟨out.documents, out.documentsSize, out.docSizes⟩

/-- The caller finds a page, and the slots behind it are marked. -/
structure Lists (packed : Bool) (slots : DocSlots) (page : List (UInt64 × Bytes))
    (out : DocListOutput) : Prop where
  ids_eq : out.ids = page.map Prod.fst ++ List.replicate (slots.ids.length - page.length) noMoreDocs
  docSizes_eq : out.docSizes =
    page.map (fun p => p.2.length) ++ List.replicate (slots.ids.length - page.length) noMoreKeys
  found_eq : foundIn packed slots out = page.map Prod.snd

/-- Two calls of `docList` return `OK`, the caller finds the same ids, sizes and documents, and the
slots behind the documents are marked. -/
structure SameListing (packed : Bool) (slots : DocSlots) (a b : Status × DocListOutput) : Prop where
  status_eq : a.1 = .OK ∧ b.1 = .OK
  ids_eq : a.2.ids = b.2.ids
  docSizes_eq : a.2.docSizes = b.2.docSizes
  found_eq : foundIn packed slots a.2 = foundIn packed slots b.2
  marked : ∀ i, (foundIn packed slots a.2).length ≤ i → i < slots.ids.length →
    a.2.ids[i]? = some noMoreDocs ∧ a.2.docSizes[i]? = some noMoreKeys

section Pages

variable {packed : Bool} {slots : DocSlots} {page met : List (UInt64 × Bytes)}

/-- Calls that list pages list alike exactly if the pages are the same. -/
theorem sameListing_iff {a b : DocListOutput} (ha : Lists packed slots met a)
    (hb : Lists packed slots page b) :
    SameListing packed slots (.OK, a) (.OK, b) ↔ met = page := by
  constructor
  · intro hsame
    have hfound : met.map Prod.snd = page.map Prod.snd := by
      rw [← ha.found_eq, ← hb.found_eq]
      exact hsame.found_eq
    have hlen : (met.map Prod.fst).length = (page.map Prod.fst).length := by
      have := congrArg List.length hfound
      simpa using this
    have hids := hsame.ids_eq
    rw [show a.ids = _ from ha.ids_eq, show b.ids = _ from hb.ids_eq] at hids
    have hfst := (List.append_inj hids hlen).1
    rw [← List.zip_unzip met, ← List.zip_unzip page, List.unzip_eq_map, List.unzip_eq_map]
    simp only [hfst, hfound]
  · rintro rfl
    refine ⟨⟨rfl, rfl⟩, ha.ids_eq.trans hb.ids_eq.symm, ha.docSizes_eq.trans hb.docSizes_eq.symm,
      ha.found_eq.trans hb.found_eq.symm, fun i hi hlt => ?_⟩
    rw [ha.found_eq, List.length_map] at hi
    have hget {α : Type} (f : UInt64 × Bytes → α) (mark : α) :
        (met.map f ++ List.replicate (slots.ids.length - met.length) mark)[i]? = some mark := by
      rw [List.getElem?_append_right (by rwa [List.length_map]), List.length_map,
        List.getElem?_replicate_of_lt (by omega)]
    exact ⟨by rw [ha.ids_eq]; exact hget _ _, by rw [ha.docSizes_eq]; exact hget _ _⟩

/-- The page that a sorted database lists in buffers that are large enough. -/
theorem lists_listing {documents : Bytes} (hlen : page.length ≤ slots.ids.length)
    (hfits : Yokan.Fits packed documents slots.docSizes (page.map Prod.snd)) :
    Lists packed slots page (listing packed slots documents page) := by
  have hcount := slots.length_docSizes
  have hlen' : (page.map Prod.snd).length ≤ slots.docSizes.length := by
    rw [List.length_map, hcount]
    exact hlen
  have hsizes := Column.sizes_pushAll hlen' hfits
  refine ⟨rfl, ?_, ?_⟩
  · simp only [listing, Column.finish, hsizes, List.length_map, List.map_map]
    rfl
  · have hfound := (Column.readColumn_pushAll hlen' hfits).1
    rw [hcount] at hfound
    exact hfound

theorem nodup_idsFrom (fromId nextId : UInt64) : (idsFrom fromId nextId).Nodup := by
  have hnext := nextId.toNat_lt
  refine List.Nodup.map_on ?_ List.nodup_range'
  intro i hi j hj hij
  rw [List.mem_range'_1] at hi hj
  have heq := congrArg UInt64.toNat hij
  rwa [UInt64.toNat_ofNat_of_lt' (show i < 2 ^ 64 by omega),
    UInt64.toNat_ofNat_of_lt' (show j < 2 ^ 64 by omega)] at heq

/-- The documents that `docList` lists on a database that is not sorted. -/
theorem docListUnsorted_lists {s : DocumentStoreMixin UnorderedMapDatabase}
    (hs : s.db.migrated = false) {mode : Mode} (hwait : mode.has .wait = false) (name : CString)
    (fromId : UInt64) (filter : DocFilter) (metadata : CollectionMetadata) {documents : Bytes}
    (hslots : packed = false → slots.docSizes.sum ≤ documents.length)
    (hsize : documents.length ≤ lastValidSize) :
    ∃ out t, s.docListUnsorted name mode packed fromId filter metadata slots.ids documents
        slots.docSizes = (.OK, out, t) ∧
      Lists packed slots (lookups (s.view name).docs filter name packed slots.docSizes
        documents.length (idsFrom fromId metadata.nextId) []) out := by
  have hcount := slots.length_docSizes
  have hstart : Listed packed slots.docSizes documents.length []
      ⟨s.db, [], documents, 0, slots.docSizes⟩ := by
    refine ⟨rfl, rfl, ?_, rfl, nofun⟩
    simp [offsetBehind]
  obtain ⟨st, hloop, hlisted⟩ := docListLoop_eq hwait filter hslots hsize
    (s.view name).docs (nodup_idsFrom fromId metadata.nextId) hs (fun _ _ => rfl) hstart
    (Nat.zero_le _) rfl
  have hle : (lookups (s.view name).docs filter name packed slots.docSizes documents.length
      (idsFrom fromId metadata.nextId) []).length ≤ slots.docSizes.length :=
    length_lookups_le (Nat.zero_le _)
  rw [hcount] at hloop
  generalize lookups (s.view name).docs filter name packed slots.docSizes documents.length
    (idsFrom fromId metadata.nextId) [] = met at hlisted hle
  have hlen : st.ids.length = met.length := by rw [hlisted.ids_eq, List.length_map]
  have hmark : ∀ p ∈ met, p.2.length ≠ noMoreKeys := by
    intro p hp
    obtain ⟨i, hi⟩ := List.getElem?_of_mem hp
    have hlength := congrArg List.length (hlisted.found i p hi).2
    rw [length_slice, hlisted.length_documents] at hlength
    have := lastValidSize_lt_noMoreKeys
    omega
  have hread : readColumn packed slots.docSizes ⟨st.documents, documents.length,
      met.map (fun p => p.2.length) ++ List.replicate (slots.ids.length - met.length) noMoreKeys⟩ =
        met.map Prod.snd :=
    readColumn_of_slices hle hmark fun i p hp => (hlisted.found i p hp).2
  refine ⟨_, _, by simp only [docListUnsorted, hloop]; rfl, ?_, ?_, ?_⟩
  · simp only [hlisted.ids_eq, List.length_map]
  · simp only [hlen, hlisted.docSizes_eq]
  · simp only [foundIn, hlen, hlisted.docSizes_eq]
    exact hread

end Pages

/-! ### The two paths -/

section Agreement

open DatabaseInterface ListingStore FiniteMapStore

variable {name : CString} {filter : DocFilter} {metadata : CollectionMetadata} (packed : Bool)
  (slots : DocSlots) (documents : Bytes)

/-- The page of a listing: the first documents that the filter accepts, as many as there are
slots. -/
def pageFrom (docs : UInt64 → Option Bytes) (filter : DocFilter) (name : CString)
    (fromId : UInt64) (slots : DocSlots) : List (UInt64 × Bytes) :=
  (documentsFrom (filter.select name docs) fromId).take slots.ids.length

/-- `docList` on a sorted database, with a document filter that copies the documents and does not
stop. -/
theorem docList_walk {m : DocumentStoreMixin (MapDatabase .default)} (h : Coherent m)
    (hname : name.bytes ≠ []) (hmetadata : (m.view name).metadata = some metadata)
    (hstop : ∀ n val, filter.shouldStop n val = false) (hdocCopy : ∀ n, filter.docCopy n = copyOut)
    (mode : Mode) (fromId : UInt64) :
    ∃ t, m.docList name mode packed fromId filter slots.ids documents slots.docSizes =
      (.OK, listing packed slots documents (pageFrom (m.view name).docs filter name fromId slots),
        t) := by
  obtain ⟨t, hget, ht, hview⟩ := collGetMetadata_of_some h hname hmetadata {}
  have hlist := docListSorted_eq name filter rfl ht.serving hstop hdocCopy packed fromId documents
    slots.length_docSizes slots.ids_fit
  have hsupports : supportsMode (MapDatabase .default) .noPrefix = true := by decide
  have hsorted : isSorted (MapDatabase .default) = true := rfl
  rw [hview] at hlist
  exact ⟨t, by simp [docList, hname, hsupports, hget, hsorted, hlist, listing, pageFrom]⟩

/-- `docList` over `UnorderedMapDatabase`. -/
theorem docList_lookups {u : DocumentStoreMixin UnorderedMapDatabase} (h : Coherent u)
    (hname : name.bytes ≠ []) (hmetadata : (u.view name).metadata = some metadata) {mode : Mode}
    (hwait : mode.has .wait = false) (filter : DocFilter) (fromId : UInt64)
    (hslots : packed = false → slots.docSizes.sum ≤ documents.length)
    (hsize : documents.length ≤ lastValidSize) :
    ∃ out t, u.docList name mode packed fromId filter slots.ids documents slots.docSizes =
        (.OK, out, t) ∧
      Lists packed slots (lookups (u.view name).docs filter name packed slots.docSizes
        documents.length (idsFrom fromId metadata.nextId) []) out := by
  obtain ⟨t, hget, ht, hview⟩ := collGetMetadata_of_some h hname hmetadata {}
  obtain ⟨out, v, hlist, hlists⟩ := docListUnsorted_lists ht.serving hwait name fromId filter
    metadata hslots hsize
  have hsupports : supportsMode UnorderedMapDatabase .noPrefix = true := by decide
  have hunsorted : isSorted UnorderedMapDatabase = false := rfl
  rw [hview] at hlists
  exact ⟨out, v, by simp [docList, hname, hsupports, hget, hunsorted, hlist], hlists⟩

/-- On the same documents, the two paths list alike exactly if every id up to the last document of
the page is reached. -/
theorem docList_sameListing_iff {m : DocumentStoreMixin (MapDatabase .default)}
    {u : DocumentStoreMixin UnorderedMapDatabase} (hm : Coherent m) (hu : Coherent u)
    (hview : m.view name = u.view name) (hname : name.bytes ≠ [])
    (hmetadata : (u.view name).metadata = some metadata)
    (hstop : ∀ n val, filter.shouldStop n val = false) (hdocCopy : ∀ n, filter.docCopy n = copyOut)
    {mode : Mode} (hwait : mode.has .wait = false) {packed : Bool} {slots : DocSlots}
    {documents : Bytes} (fromId : UInt64)
    (hroom : Yokan.Fits packed documents slots.docSizes
      ((pageFrom (u.view name).docs filter name fromId slots).map Prod.snd)) :
    let ofUnordered := u.docList name mode packed fromId filter slots.ids documents slots.docSizes
    let ofMap := m.docList name mode packed fromId filter slots.ids documents slots.docSizes
    SameListing packed slots (ofUnordered.1, ofUnordered.2.1) (ofMap.1, ofMap.2.1) ↔
      AllReached (u.view name).docs filter name packed slots.docSizes documents.length fromId
        metadata.nextId fromId.toNat := by
  obtain ⟨v, hmap⟩ := docList_walk packed slots documents hm hname
    (by rw [hview]; exact hmetadata) hstop hdocCopy mode fromId
  obtain ⟨out, w, hunordered, hlists⟩ := docList_lookups packed slots documents hu hname hmetadata
    hwait filter fromId (fun hpacked => by subst hpacked; exact (hroom.2).1) hroom.1
  rw [hview] at hmap
  have hpage : Lists packed slots _ (listing packed slots documents
      (pageFrom (u.view name).docs filter name fromId slots)) :=
    lists_listing (List.length_take_le _ _) hroom
  rw [hmap, hunordered]
  dsimp only
  rw [sameListing_iff hlists hpage, ← lookups_eq_iff, pageFrom, slots.length_docSizes]

omit packed slots documents in
/-- After the same operations, `docList` lists alike over `UnorderedMapDatabase` and over
`MapDatabase`, in buffers with room for the page, exactly if every id from the first one up to the
last document of the page is below `next_id` and has a document, and that document fits in what is
left of the buffer at its turn. -/
theorem docList_agree_iff {m₀ m : DocumentStoreMixin (MapDatabase .default)}
    {u₀ u : DocumentStoreMixin UnorderedMapDatabase} (hm₀ : Fresh m₀) (hu₀ : Fresh u₀)
    {ops : List (CString × DocOp)} (hm : Run (StepWhen fun _ _ => True) m₀ ops m)
    (hu : Run (StepWhen fun _ _ => True) u₀ ops u) (hname : name.bytes ≠ [])
    (hmetadata : (u.view name).metadata = some metadata)
    (hstop : ∀ n val, filter.shouldStop n val = false) (hdocCopy : ∀ n, filter.docCopy n = copyOut)
    {mode : Mode} (hwait : mode.has .wait = false) {packed : Bool} {slots : DocSlots}
    {documents : Bytes} (fromId : UInt64)
    (hroom : Yokan.Fits packed documents slots.docSizes
      ((pageFrom (u.view name).docs filter name fromId slots).map Prod.snd)) :
    let ofUnordered := u.docList name mode packed fromId filter slots.ids documents slots.docSizes
    let ofMap := m.docList name mode packed fromId filter slots.ids documents slots.docSizes
    SameListing packed slots (ofUnordered.1, ofUnordered.2.1) (ofMap.1, ofMap.2.1) ↔
      ∀ id, fromId ≤ id → (∃ p ∈ pageFrom (u.view name).docs filter name fromId slots, id ≤ p.1) →
        Reached (u.view name).docs filter name packed slots.docSizes documents.length fromId
          metadata.nextId id := by
  obtain ⟨hcoherent, hview⟩ := run_view hm hm₀.coherent
  obtain ⟨hcoherent', hview'⟩ := run_view hu hu₀.coherent
  have hsame : m.view = u.view := by rw [hview, hview', hm₀.view_eq, hu₀.view_eq]
  have hiff := docList_sameListing_iff hcoherent hcoherent' (congrFun hsame name) hname hmetadata
    hstop hdocCopy hwait fromId hroom
  simpa only [AllReached, UInt64.le_iff_toNat_le, slots.length_docSizes, pageFrom] using hiff

/-- The documents of a collection with two. -/
theorem documentsFrom_two {docs : UInt64 → Option Bytes} {id id' : UInt64} {doc doc' : Bytes}
    (hlt : id < id')
    (hdocs : ∀ x, docs x = if x = id' then some doc' else if x = id then some doc else none) :
    documentsFrom docs 0 = [(id, doc), (id', doc')] := by
  have hsorted : Paging.Sorted (· < ·) Prod.fst [(id, doc), (id', doc')] := by
    simpa [Paging.Sorted] using hlt
  have hstrict : IsStrictOrder UInt64 (· < ·) :=
    { irrefl := UInt64.lt_irrefl, trans := fun _ _ _ => UInt64.lt_trans }
  refine (sorted_documentsFrom _ 0).eq_of_mem_iff hsorted fun ⟨x, d⟩ => ?_
  rw [mem_documentsFrom, hdocs]
  constructor
  · rintro ⟨-, hdoc⟩
    split_ifs at hdoc <;> simp_all
  · intro hmem
    rcases List.mem_pair.1 hmem with hp | hp <;> obtain ⟨rfl, rfl⟩ := Prod.mk.inj hp
    · exact ⟨UInt64.zero_le, by rw [if_neg (UInt64.ne_of_lt hlt), if_pos rfl]⟩
    · exact ⟨UInt64.zero_le, if_pos rfl⟩

/-- The collection behind `storeThreeErase`, after one of the last two documents has been erased. -/
theorem view_storeThreeErase {σ : Type} [FiniteMapStore σ] {s t : DocumentStoreMixin σ}
    (hs : Fresh s) {id : UInt64} (hid : id = 1 ∨ id = 2)
    (hview : t.view = (storeThreeErase id).foldl (fun v op => (v.step op).2) s.view) :
    (t.view nameC).metadata = some ⟨2, 3⟩ ∧ (t.view nameC).docs = Function.update (Function.update
      (Function.update (Function.update (fun _ : UInt64 => (none : Option Bytes)) 0 (some [1])) 1
        (some [2])) 2 (some [3])) id none := by
  rw [hview, hs.view_eq]
  rcases hid with rfl | rfl <;> exact ⟨rfl, rfl⟩

/-- The collection behind `storeAroundHole`. -/
theorem view_storeAroundHole {σ : Type} [FiniteMapStore σ] {s t : DocumentStoreMixin σ}
    (hs : Fresh s) (hview : t.view = storeAroundHole.foldl (fun v op => (v.step op).2) s.view) :
    (t.view nameC).metadata = some ⟨2, 3⟩ ∧ documentsFrom (t.view nameC).docs 0 = [(0, [1]), (2, [3])] ∧
      (t.view nameC).docs 1 = none := by
  obtain ⟨hmetadata, hstored⟩ := view_storeThreeErase hs (Or.inl rfl) hview
  refine ⟨hmetadata, documentsFrom_two (by decide) fun x => ?_, by rw [hstored]; rfl⟩
  rw [hstored]
  simp only [Function.update_apply]
  split_ifs <;> simp_all

/-- A caller with three slots. -/
def threeSlots : DocSlots := ⟨[0, 0, 0], [1, 1, 1], rfl, by decide⟩

theorem pageFrom_storeAroundHole {docs : UInt64 → Option Bytes}
    (hdocs : documentsFrom docs 0 = [(0, [1]), (2, [3])]) :
    pageFrom docs defaultDocFilter nameC 0 threeSlots = [(0, [1]), (2, [3])] := by
  rw [pageFrom, select_defaultDocFilter, hdocs]
  rfl

/-- Behind an erased document, `docList` over `UnorderedMapDatabase` lists nothing. -/
theorem docList_stops_at_hole :
    ∃ m u, Run (StepWhen Collection.KeepsNextId) emptyMap storeAroundHole m ∧
      Run (StepWhen Collection.KeepsNextId) emptyUnorderedMap storeAroundHole u ∧
      Yokan.Fits true [9, 9, 9] threeSlots.docSizes
        ((pageFrom (u.view nameC).docs defaultDocFilter nameC 0 threeSlots).map Prod.snd) ∧
      let ofUnordered := u.docList nameC .default true 0 defaultDocFilter threeSlots.ids [9, 9, 9]
        threeSlots.docSizes
      let ofMap := m.docList nameC .default true 0 defaultDocFilter threeSlots.ids [9, 9, 9]
        threeSlots.docSizes
      ¬ SameListing true threeSlots (ofUnordered.1, ofUnordered.2.1) (ofMap.1, ofMap.2.1) := by
  obtain ⟨m, u, hm, hu, hcoherent, hcoherent', hview, hview'⟩ := exists_storeAroundHole
  obtain ⟨hmetadata, hdocs, hhole⟩ := view_storeAroundHole fresh_emptyUnorderedMap hview'
  have hpage := pageFrom_storeAroundHole hdocs
  have hroom : Yokan.Fits true [9, 9, 9] threeSlots.docSizes
      ((pageFrom (u.view nameC).docs defaultDocFilter nameC 0 threeSlots).map Prod.snd) := by
    rw [hpage]
    exact ⟨by decide, by decide⟩
  refine ⟨m, u, hm, hu, hroom, fun hsame => ?_⟩
  have hsameView : m.view nameC = u.view nameC := by
    rw [hview, hview', fresh_emptyMap.view_eq, fresh_emptyUnorderedMap.view_eq]
  have hall := (docList_sameListing_iff hcoherent hcoherent' hsameView (by decide) hmetadata
    (fun _ _ => rfl) (fun _ => rfl) rfl 0 hroom).1 hsame
  obtain ⟨-, -, doc, hdoc, -⟩ := hall 1 (by decide) ⟨(2, [3]), by
    have := pageFrom_storeAroundHole hdocs
    rw [pageFrom] at this
    rw [threeSlots.length_docSizes, this]
    decide, by decide⟩
  rw [hhole] at hdoc
  cases hdoc

/-- A caller with two slots. -/
def twoSlots : DocSlots := ⟨[0, 0], [1, 1], rfl, by decide⟩

/-- A full page that ends before the erased document. -/
theorem docList_agree_before_hole :
    ∃ m u, Run (StepWhen fun _ _ => True) emptyMap (storeThreeErase 2) m ∧
      Run (StepWhen fun _ _ => True) emptyUnorderedMap (storeThreeErase 2) u ∧
      let ofUnordered := u.docList nameC .default true 0 defaultDocFilter twoSlots.ids [9, 9]
        twoSlots.docSizes
      let ofMap := m.docList nameC .default true 0 defaultDocFilter twoSlots.ids [9, 9]
        twoSlots.docSizes
      SameListing true twoSlots (ofUnordered.1, ofUnordered.2.1) (ofMap.1, ofMap.2.1) := by
  obtain ⟨m, u, hm, hu, -, -, -, hview'⟩ := exists_storeThreeErase 2
  have hm : Run (StepWhen fun _ _ => True) emptyMap (storeThreeErase 2) m :=
    hm.mono fun _ _ _ hr => ⟨hr.1, trivial, hr.2.2⟩
  have hu : Run (StepWhen fun _ _ => True) emptyUnorderedMap (storeThreeErase 2) u :=
    hu.mono fun _ _ _ hr => ⟨hr.1, trivial, hr.2.2⟩
  obtain ⟨hmetadata, hstored⟩ := view_storeThreeErase fresh_emptyUnorderedMap (Or.inr rfl) hview'
  have hdocs : documentsFrom (u.view nameC).docs 0 = [(0, [1]), (1, [2])] := by
    refine documentsFrom_two (by decide) fun x => ?_
    rw [hstored]
    simp only [Function.update_apply]
    split_ifs <;> simp_all
  have hpage : pageFrom (u.view nameC).docs defaultDocFilter nameC 0 twoSlots =
      [(0, [1]), (1, [2])] := by
    rw [pageFrom, select_defaultDocFilter, hdocs]
    rfl
  have hroom : Yokan.Fits true [9, 9] twoSlots.docSizes
      ((pageFrom (u.view nameC).docs defaultDocFilter nameC 0 twoSlots).map Prod.snd) := by
    rw [hpage]
    exact ⟨by decide, by decide⟩
  refine ⟨m, u, hm, hu, (docList_agree_iff fresh_emptyMap fresh_emptyUnorderedMap hm hu (by decide)
    hmetadata (fun _ _ => rfl) (fun _ => rfl) rfl 0 hroom).2 ?_⟩
  rintro id - ⟨p, hp, hle⟩
  have hle : id ≤ 1 := by
    rw [hpage] at hp
    rcases List.mem_pair.1 hp with rfl | rfl
    · exact UInt64.le_trans hle (by decide)
    · exact hle
  have hid : id = 0 ∨ id = 1 := by
    rw [UInt64.le_iff_toNat_le] at hle
    change id.toNat ≤ 1 at hle
    rcases Nat.le_one_iff_eq_zero_or_eq_one.1 hle with h | h
    · exact Or.inl (UInt64.toNat_inj.1 h)
    · exact Or.inr (UInt64.toNat_inj.1 h)
  have hbefore (x : UInt64) :
      documentsBetween (defaultDocFilter.select nameC (u.view nameC).docs) 0 x =
        [((0 : UInt64), ([1] : Bytes)), (1, [2])].filter (fun p => p.1 < x) := by
    rw [documentsBetween, select_defaultDocFilter, hdocs]
  rcases hid with rfl | rfl
  · refine ⟨by decide, ?_, [1], (mem_documentsFrom.1 (hdocs ▸ List.mem_cons_self)).2, ?_⟩ <;>
      rw [hbefore] <;> decide
  · refine ⟨by decide, ?_, [2], (mem_documentsFrom.1 (hdocs ▸ List.mem_cons_of_mem _
      List.mem_cons_self)).2, ?_⟩ <;> rw [hbefore] <;> decide

end Agreement

end DocumentStoreMixin

end Yokan
