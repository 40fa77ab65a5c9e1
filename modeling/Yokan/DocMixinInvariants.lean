import Yokan.DocMixinRefinement
import Yokan.Map

/-!
# Yokan: ids and sizes of the collections of a mixin

Two invariants of `DocumentStoreMixin` over runs from an empty database, each with the condition
on the operations under which it holds, and only then (`belowNextId_throughout_iff`,
`counted_throughout_iff`).

* `documents_below_next_id`: every document has an id below `next_id`, so that `docStore` assigns
  ids without document, in runs where `next_id` never goes down: `docUpdate` with
  `YOKAN_MODE_UPDATE_NEW` sets it from the ids of the request alone
  (`next_id_lowered_by_update_new`);
* `collSize_counts_documents`: the size of a collection is the number of its documents, in runs
  where each document that appears or disappears is counted once: duplicate ids, ids erased
  before and modes that skip or remove documents are not (`collSize_after_update_of_erased`).
-/

namespace Yokan

open PartialMap Transition FiniteMapStore

/-- The ids of an operation. -/
def DocOp.ids : DocOp → List UInt64
  | create | drop _ => []
  | store _ _ ids | update _ ids _ | erase _ ids | load _ _ ids _ _ => ids

namespace Collection

variable {c : Collection} {mode : Mode} {ids : List UInt64} {batch : DocBatch}

/-! ### Writes -/

/-- The database accepts the documents of a request under the given ids. -/
def Accepts (mode : Mode) (ids : List UInt64) (batch : DocBatch) (docs : UInt64 → Option Bytes) :
    Prop :=
  batch.Holds ids.length ∧ putStatus mode docs (ids.zip batch.docs) = .OK

theorem map_fst_zip {batch : DocBatch} (h : batch.Holds ids.length) :
    (ids.zip batch.docs).map Prod.fst = ids := by
  refine List.map_fst_zip ?_
  rw [DocBatch.length_docs, h.1]

theorem write_status {docs : UInt64 → Option Bytes} :
    (write mode ids batch docs).1 = .OK ↔ Accepts mode ids batch docs := by
  unfold write Accepts
  by_cases h : batch.Holds ids.length <;> simp [h]

/-- Documents change only when the request is accepted. -/
theorem write_of_not_accepts {docs : UInt64 → Option Bytes} (h : ¬ Accepts mode ids batch docs) :
    (write mode ids batch docs).2 = docs := by
  unfold write
  by_cases hholds : batch.Holds ids.length
  · rw [if_pos hholds]
    exact writeAll_of_putStatus_ne fun hok => h ⟨hholds, hok⟩
  · rw [if_neg hholds]

theorem write_of_notMem {docs : UInt64 → Option Bytes} {id : UInt64} (h : id ∉ ids) :
    (write mode ids batch docs).2 id = docs id := by
  unfold write
  split_ifs with hholds
  · exact writeAll_of_notMem (by rwa [map_fst_zip hholds])
  · rfl

/-- A document that is there is still there after a write. -/
theorem isSome_write {docs : UInt64 → Option Bytes} {id : UInt64} (h : (docs id).isSome) :
    ((write mode ids batch docs).2 id).isSome := by
  by_cases haccepts : Accepts mode ids batch docs
  · unfold write
    rw [if_pos haccepts.1, ← mem_support]
    cases hmode : onlyExisting mode with
    | true =>
      rw [support_writeAll_keeping (putRule_keeping hmode)]
      exact h
    | false =>
      rw [support_writeAll_filling (putRule_filling hmode)]
      exact Or.inl h
  · rwa [write_of_not_accepts haccepts]

theorem mem_assigned {m : CollectionMetadata} {n : ℕ} {id : UInt64} (hn : m.nextId.toNat + n < 2 ^ 64) :
    id ∈ m.assigned n ↔ m.nextId.toNat ≤ id.toNat ∧ id.toNat < m.nextId.toNat + n := by
  have hadd : ∀ i < n, (m.nextId + UInt64.ofNat i).toNat = m.nextId.toNat + i := by
    intro i hi
    rw [UInt64.toNat_add, UInt64.toNat_ofNat', Nat.mod_eq_of_lt (show i < 2 ^ 64 by omega),
      Nat.mod_eq_of_lt (by omega)]
  unfold CollectionMetadata.assigned
  rw [List.mem_map]
  constructor
  · rintro ⟨i, hi, rfl⟩
    rw [List.mem_range] at hi
    rw [hadd i hi]
    omega
  · rintro ⟨hlo, hhi⟩
    refine ⟨id.toNat - m.nextId.toNat, List.mem_range.2 (by omega), ?_⟩
    apply UInt64.toNat_inj.1
    rw [hadd _ (by omega)]
    omega

theorem mem_idsBelow {m : CollectionMetadata} {id : UInt64} : id ∈ m.idsBelow ↔ id < m.nextId := by
  unfold CollectionMetadata.idsBelow
  rw [List.mem_map, UInt64.lt_iff_toNat_lt]
  constructor
  · rintro ⟨i, hi, rfl⟩
    rw [List.mem_range] at hi
    have := m.nextId.toNat_lt
    rwa [UInt64.toNat_ofNat', Nat.mod_eq_of_lt (by omega)]
  · intro h
    exact ⟨id.toNat, List.mem_range.2 h, UInt64.ofNat_toNat⟩

/-- `docUpdate` refuses no id. -/
theorem not_any_le {nextId : UInt64} :
    ¬ ids.any (fun id => nextId ≤ id) = true ↔ ∀ id ∈ ids, id < nextId := by
  simp only [List.any_eq_true, decide_eq_true_eq, not_exists, not_and, UInt64.not_le]

/-! ### The next id -/

/-- Every document has an id below `next_id`. -/
def BelowNextId (c : Collection) : Prop :=
  ∀ id, (c.docs id).isSome → ∃ m, c.metadata = some m ∧ id < m.nextId

/-- The operation does not move `next_id` to or below the id of a document: `docStore` does not
exhaust the ids, and `docUpdate` with `YOKAN_MODE_UPDATE_NEW` lists an id that is at least as
large as the id of every document, and not the largest of all. -/
def KeepsNextId (c : Collection) : DocOp → Prop
  | .store _ _ ids => ∀ m, c.metadata = some m → m.nextId.toNat + ids.length < 2 ^ 64
  | .update mode ids batch =>
    c.metadata.isSome → mode.has .updateNew = true → Accepts mode ids batch c.docs →
      (maxID ids).toNat + 1 < 2 ^ 64 ∧ ∀ id, (c.docs id).isSome → id ≤ maxID ids
  | _ => True

/-- `docStore` assigns ids without document. -/
theorem docs_assigned (hc : BelowNextId c) {m : CollectionMetadata} (hm : c.metadata = some m)
    {n : ℕ} (hn : m.nextId.toNat + n < 2 ^ 64) {id : UInt64} (hid : id ∈ m.assigned n) :
    c.docs id = none := by
  by_contra hne
  obtain ⟨m', hm', hlt⟩ := hc id (Option.isSome_iff_ne_none.2 hne)
  obtain rfl := Option.some.inj (hm.symm.trans hm')
  rw [UInt64.lt_iff_toNat_lt] at hlt
  have := (mem_assigned hn).1 hid
  omega

/-- A dropped collection leaves nothing exactly if all its documents were below `next_id`. -/
theorem drop_eq_none_iff : c.drop.2 = ⟨none, fun _ => none⟩ ↔ c.BelowNextId := by
  obtain ⟨metadata, docs⟩ := c
  cases metadata with
  | none =>
    simp only [drop, BelowNextId, Collection.mk.injEq, true_and, reduceCtorEq, false_and,
      exists_false, imp_false, Bool.not_eq_true, Option.isSome_eq_false_iff, Option.isNone_iff_eq_none]
    exact funext_iff
  | some m =>
    simp only [drop, BelowNextId, Collection.mk.injEq, true_and, Option.some.injEq,
      exists_eq_left', funext_iff, eraseAll_apply, mem_idsBelow]
    refine forall_congr' fun id => ?_
    split_ifs with hlt
    · simp [hlt]
    · simp [hlt]

section NextId

variable {m : CollectionMetadata} (hm : c.metadata = some m)
  (hbelow : ∀ id, (c.docs id).isSome → id < m.nextId)

include hm hbelow

theorem drop_belowNextId : BelowNextId c.drop.2 := by
  intro id hid
  simp only [drop, hm, eraseAll_apply] at hid
  split_ifs at hid with hmem
  · cases hid
  · exact absurd (mem_idsBelow.2 (hbelow id hid)) hmem

theorem store_belowNextId (hroom : m.nextId.toNat + ids.length < 2 ^ 64) :
    BelowNextId (c.store mode batch ids).2.2 := by
  have hlen : ids.length < 2 ^ 64 := by omega
  have hnext : (m.nextId + UInt64.ofNat ids.length).toNat = m.nextId.toNat + ids.length := by
    rw [UInt64.toNat_add, UInt64.toNat_ofNat', Nat.mod_eq_of_lt hlen, Nat.mod_eq_of_lt hroom]
  intro id hid
  simp only [store, hm] at hid ⊢
  refine ⟨_, rfl, ?_⟩
  rw [UInt64.lt_iff_toNat_lt, hnext]
  by_cases hmem : id ∈ m.assigned ids.length
  · exact ((mem_assigned hroom).1 hmem).2
  · rw [write_of_notMem hmem] at hid
    have := UInt64.lt_iff_toNat_lt.1 (hbelow id hid)
    omega

theorem updateNew_belowNextId (hnew : mode.has .updateNew = true)
    (hop : Accepts mode ids batch c.docs →
      (maxID ids).toNat + 1 < 2 ^ 64 ∧ ∀ id, (c.docs id).isSome → id ≤ maxID ids) :
    BelowNextId (c.update mode ids batch).2 := by
  intro id hid
  simp only [update, hm, hnew, if_true] at hid ⊢
  refine ⟨_, rfl, ?_⟩
  by_cases haccepts : Accepts mode ids batch c.docs
  · obtain ⟨hroom, hmax⟩ := hop haccepts
    have hsucc : (maxID ids + 1).toNat = (maxID ids).toNat + 1 := by
      rw [UInt64.toNat_add, UInt64.toNat_one, Nat.mod_eq_of_lt hroom]
    have hle : id ≤ maxID ids := by
      by_cases hmem : id ∈ ids
      · exact le_maxID hmem
      · rw [write_of_notMem hmem] at hid
        exact hmax id hid
    rw [UInt64.le_iff_toNat_le] at hle
    rw [if_pos (write_status.2 haccepts), UInt64.lt_iff_toNat_lt]
    dsimp only
    omega
  · rw [if_neg fun h => haccepts (write_status.1 h)]
    rw [write_of_not_accepts haccepts] at hid
    exact hbelow id hid

theorem update_belowNextId (hnew : mode.has .updateNew = false) :
    BelowNextId (c.update mode ids batch).2 := by
  intro id hid
  simp only [update, hm, hnew, Bool.false_eq_true, if_false] at hid ⊢
  split_ifs at hid ⊢ with hany
  · exact ⟨m, hm, hbelow id hid⟩
  · refine ⟨m, rfl, ?_⟩
    dsimp only at hid
    by_cases hmem : id ∈ ids
    · exact not_any_le.1 hany id hmem
    · rw [write_of_notMem hmem] at hid
      exact hbelow id hid

theorem erase_belowNextId : BelowNextId (c.erase ids).2 := by
  intro id hid
  simp only [erase, hm, eraseAll_apply] at hid ⊢
  split_ifs at hid with hmem
  · cases hid
  · exact ⟨_, rfl, hbelow id hid⟩

theorem load_belowNextId (sizes : List ℕ) : BelowNextId (c.load mode ids sizes).2 := by
  have hmd : (c.load mode ids sizes).2.metadata = some m := by
    simp only [load, hm]
    split_ifs
    · exact hm
    · rfl
    · rfl
  have hdocs : ∀ id, (c.load mode ids sizes).2.docs id = c.docs id ∨
      (c.load mode ids sizes).2.docs id = none := by
    intro id
    simp only [load, hm]
    split_ifs
    · exact Or.inl rfl
    · simp only [eraseAll_apply]
      split_ifs
      · exact Or.inr rfl
      · exact Or.inl rfl
    · exact Or.inl rfl
  intro id hid
  rcases hdocs id with he | he
  · exact ⟨m, hmd, hbelow id (by rwa [he] at hid)⟩
  · rw [he] at hid
    cases hid

end NextId

/-- An operation on a collection that does not exist does not touch documents. -/
theorem docs_step_of_none (hm : c.metadata = none) (op : DocOp) : (c.step op).2.docs = c.docs := by
  cases op <;> simp [step, create, drop, store, update, erase, load, hm]

/-- Each operation keeps the documents below `next_id`. -/
theorem step_belowNextId (c : Collection) (op : DocOp) (hc : BelowNextId c)
    (hop : KeepsNextId c op) : BelowNextId (c.step op).2 := by
  cases hm : c.metadata with
  | none =>
    intro id hid
    rw [docs_step_of_none hm] at hid
    obtain ⟨m, hm', -⟩ := hc id hid
    rw [hm] at hm'
    cases hm'
  | some m =>
    have hbelow : ∀ id, (c.docs id).isSome → id < m.nextId := by
      intro id hid
      obtain ⟨m', hm', hlt⟩ := hc id hid
      rwa [Option.some.inj (hm.symm.trans hm')]
    cases op with
    | create => simpa [step, create, hm] using hc
    | drop mode => exact drop_belowNextId hm hbelow
    | store mode batch ids => exact store_belowNextId hm hbelow (hop m hm)
    | update mode ids batch =>
      cases hnew : mode.has .updateNew with
      | true => exact updateNew_belowNextId hm hbelow hnew (hop (by rw [hm]; rfl) hnew)
      | false => exact update_belowNextId hm hbelow hnew
    | erase mode ids => exact erase_belowNextId hm hbelow
    | load mode packed ids documents sizes => exact load_belowNextId hm hbelow sizes

/-- The ids last: `next_id` does not wrap. -/
def IdsLast (c : Collection) : DocOp → Prop
  | .store _ _ ids => ∀ m, c.metadata = some m → m.nextId.toNat + ids.length < 2 ^ 64
  | .update mode ids batch =>
    c.metadata.isSome → mode.has .updateNew = true → Accepts mode ids batch c.docs →
      (maxID ids).toNat + 1 < 2 ^ 64
  | _ => True

theorem step_belowNextId_iff (hc : BelowNextId c) {op : DocOp} (hlast : IdsLast c op) :
    KeepsNextId c op ↔ BelowNextId (c.step op).2 := by
  refine ⟨step_belowNextId c op hc, fun hstep => ?_⟩
  cases op with
  | store mode batch ids => exact hlast
  | update mode ids batch =>
    intro hsome hnew haccepts
    have hroom := hlast hsome hnew haccepts
    refine ⟨hroom, fun id hid => ?_⟩
    obtain ⟨m, hm⟩ := Option.isSome_iff_exists.1 hsome
    have hok := write_status.2 haccepts
    obtain ⟨m', hm', hlt⟩ := hstep id (by
      simp only [step, update, hm, hnew, if_true]
      exact isSome_write hid)
    simp only [step, update, hm, hnew, hok, if_true, Option.some.injEq] at hm'
    subst hm'
    rw [UInt64.lt_iff_toNat_lt, UInt64.toNat_add, UInt64.toNat_one, Nat.mod_eq_of_lt hroom] at hlt
    exact UInt64.le_iff_toNat_le.2 (Nat.le_of_lt_succ hlt)
  | _ => trivial

theorem keepsNextId_empty (op : DocOp) : KeepsNextId ⟨none, fun _ => none⟩ op := by
  cases op with
  | store mode batch ids => exact fun m hm => by cases hm
  | update mode ids batch => exact fun hsome => by cases hsome
  | _ => trivial

/-! ### The size -/

instance : Finite UInt64 :=
  Finite.of_injective UInt64.toFin fun _ _ h => UInt64.toFin_inj.1 h

/-- The size of a collection is the number of its documents; without a collection there are
none. -/
def Counted (c : Collection) : Prop :=
  match c.metadata with
  | none => ∀ id, c.docs id = none
  | some m => m.size.toNat = population c.docs

/-- The operation counts once each document that it makes appear or disappear.
* `collDrop` finds no document at or above `next_id`;
* `docStore` writes to ids without document, and not in a mode that only updates documents;
* `docUpdate` with `YOKAN_MODE_UPDATE_NEW` lists each id without document once, and none of them
  in a mode that only updates documents; otherwise, when no id is refused, it writes to documents
  that are there, unless the mode skips the others;
* `docErase` lists each document once;
* `docLoad` with `YOKAN_MODE_CONSUME` finds none of the documents;
* the size does not overflow. -/
def CountsOnce (c : Collection) : DocOp → Prop
  | .create => True
  | .drop _ => BelowNextId c
  | .store mode batch ids =>
    ∀ m, c.metadata = some m → Accepts mode (m.assigned ids.length) batch c.docs →
      population c.docs + ids.length < 2 ^ 64 ∧
        if onlyExisting mode then ids = [] else ∀ id ∈ m.assigned ids.length, c.docs id = none
  | .update mode ids batch =>
    ∀ m, c.metadata = some m → Accepts mode ids batch c.docs →
      if mode.has .updateNew then
        population c.docs + (absentIn c.docs ids).length < 2 ^ 64 ∧
          if onlyExisting mode then absentIn c.docs ids = [] else (absentIn c.docs ids).Nodup
      else (∀ id ∈ ids, id < m.nextId) → onlyExisting mode ∨ absentIn c.docs ids = []
  | .erase _ ids => (presentIn c.docs ids).Nodup
  | .load mode _ ids _ sizes =>
    mode.has .consume → ids.length = sizes.length → presentIn c.docs ids = []

/-- How many documents an accepted write makes appear. -/
theorem population_write {docs : UInt64 → Option Bytes} (h : Accepts mode ids batch docs) :
    population (write mode ids batch docs).2 = population docs +
      if onlyExisting mode then 0 else (absentIn docs ids).dedup.length := by
  unfold write
  rw [if_pos h.1]
  cases hmode : onlyExisting mode with
  | true =>
    unfold population
    rw [support_writeAll_keeping (putRule_keeping hmode), if_pos rfl, Nat.add_zero]
  | false =>
    rw [population_writeAll_filling (putRule_filling hmode), map_fst_zip h.1,
      if_neg Bool.false_ne_true]

theorem toNat_add_ofNat {size : UInt64} {n : ℕ} (h : size.toNat + n < 2 ^ 64) :
    (size + UInt64.ofNat n).toNat = size.toNat + n := by
  rw [UInt64.toNat_add, UInt64.toNat_ofNat', Nat.mod_eq_of_lt (show n < 2 ^ 64 by omega),
    Nat.mod_eq_of_lt h]

theorem nodup_assigned {m : CollectionMetadata} {n : ℕ} (hn : n < 2 ^ 64) :
    (m.assigned n).Nodup := by
  refine List.Nodup.map_on ?_ List.nodup_range
  intro i hi j hj hij
  rw [List.mem_range] at hi hj
  have h := congrArg UInt64.toNat (UInt64.add_right_inj m.nextId |>.1 hij)
  rwa [UInt64.toNat_ofNat', UInt64.toNat_ofNat', Nat.mod_eq_of_lt (by omega),
    Nat.mod_eq_of_lt (by omega)] at h

/-- A write that makes `n` documents appear and counts them. -/
theorem counted_write {m : CollectionMetadata} (hm : m.size.toNat = population c.docs) {n : ℕ}
    (haccepts : Accepts mode ids batch c.docs → population c.docs + n < 2 ^ 64 ∧
      (if onlyExisting mode then 0 else (absentIn c.docs ids).dedup.length) = n) :
    (if (write mode ids batch c.docs).1 = .OK then m.size + UInt64.ofNat n else m.size).toNat =
      population (write mode ids batch c.docs).2 := by
  by_cases h : Accepts mode ids batch c.docs
  · obtain ⟨hroom, hcount⟩ := haccepts h
    rw [if_pos (write_status.2 h), population_write h, hcount, toNat_add_ofNat (by omega), hm]
  · rw [if_neg fun hok => h (write_status.1 hok), write_of_not_accepts h, hm]

theorem absentIn_length_le (docs : UInt64 → Option Bytes) :
    (absentIn docs ids).length ≤ ids.length := List.length_filter_le _ _

/-- A write is counted if and only if it makes as many documents appear as it counts. -/
theorem counted_write_iff {m : CollectionMetadata} (hm : m.size.toNat = population c.docs) {n : ℕ}
    (hn : n < 2 ^ 64)
    (hle : (if onlyExisting mode then 0 else (absentIn c.docs ids).dedup.length) ≤ n) :
    (if (write mode ids batch c.docs).1 = .OK then m.size + UInt64.ofNat n else m.size).toNat =
        population (write mode ids batch c.docs).2 ↔
      (Accepts mode ids batch c.docs → population c.docs + n < 2 ^ 64 ∧
        (if onlyExisting mode then 0 else (absentIn c.docs ids).dedup.length) = n) := by
  refine ⟨fun hcount haccepts => ?_, counted_write hm⟩
  rw [if_pos (write_status.2 haccepts), population_write haccepts, UInt64.toNat_add,
    UInt64.toNat_ofNat', hm, Nat.mod_eq_of_lt hn] at hcount
  have hsize := m.size.toNat_lt
  rcases Nat.lt_or_ge (population c.docs + n) (2 ^ 64) with hroom | hover
  · rw [Nat.mod_eq_of_lt hroom] at hcount
    exact ⟨hroom, (Nat.add_left_cancel hcount).symm⟩
  · rw [Nat.mod_eq_sub_mod hover, Nat.mod_eq_of_lt (by omega)] at hcount
    omega

/-- Erasing documents and counting each once. -/
theorem counted_eraseAll {m : CollectionMetadata} (hm : m.size.toNat = population c.docs)
    (hnodup : (presentIn c.docs ids).Nodup) :
    (m.size - UInt64.ofNat (presentIn c.docs ids).length).toNat =
      population (eraseAll c.docs ids) := by
  have hsum := population_eraseAll c.docs ids
  rw [hnodup.dedup] at hsum
  have hsize := m.size.toNat_lt
  have hlen : (UInt64.ofNat (presentIn c.docs ids).length).toNat =
      (presentIn c.docs ids).length := by
    rw [UInt64.toNat_ofNat', Nat.mod_eq_of_lt (by omega)]
  rw [UInt64.toNat_sub_of_le, hlen]
  · omega
  · rw [UInt64.le_iff_toNat_le, hlen]
    omega

/-- Erased documents are counted if and only if each is listed once. -/
theorem counted_eraseAll_iff {m : CollectionMetadata} (hm : m.size.toNat = population c.docs)
    (hlen : ids.length < 2 ^ 64) :
    (m.size - UInt64.ofNat (presentIn c.docs ids).length).toNat =
        population (eraseAll c.docs ids) ↔ (presentIn c.docs ids).Nodup := by
  refine ⟨fun hcount => ?_, counted_eraseAll hm⟩
  have hsum := population_eraseAll c.docs ids
  have hle : (presentIn c.docs ids).length ≤ ids.length := List.length_filter_le _ _
  have hsub := (List.dedup_sublist (presentIn c.docs ids)).length_le
  have hsize := m.size.toNat_lt
  have hsame : (presentIn c.docs ids).dedup.length = (presentIn c.docs ids).length := by
    rw [UInt64.toNat_sub, UInt64.toNat_ofNat', hm,
      Nat.mod_eq_of_lt (show (presentIn c.docs ids).length < 2 ^ 64 by omega)] at hcount
    omega
  have heq : (presentIn c.docs ids).dedup = presentIn c.docs ids :=
    (List.dedup_sublist _).eq_of_length hsame
  rw [← heq]
  exact List.nodup_dedup _

section Size

variable {m : CollectionMetadata} (hm : c.metadata = some m)
  (hcount : m.size.toNat = population c.docs)

include hm

theorem drop_counted_iff : CountsOnce c (.drop mode) ↔ Counted c.drop.2 := by
  rw [CountsOnce, ← drop_eq_none_iff]
  simp only [Counted, drop, hm, Collection.mk.injEq, true_and, funext_iff]

include hcount

theorem store_counted (hop : CountsOnce c (.store mode batch ids)) :
    Counted (c.store mode batch ids).2.2 := by
  simp only [Counted, store, hm]
  refine counted_write hcount fun haccepts => ?_
  have hlen : (m.assigned ids.length).length = ids.length := by
    simp [CollectionMetadata.assigned]
  obtain ⟨hroom, hfree⟩ := hop m hm haccepts
  refine ⟨hroom, ?_⟩
  cases hmode : onlyExisting mode with
  | true =>
    rw [hmode, if_pos rfl] at hfree
    rw [if_pos rfl, hfree, List.length_nil]
  | false =>
    rw [hmode, if_neg Bool.false_ne_true] at hfree
    have habsent : absentIn c.docs (m.assigned ids.length) = m.assigned ids.length :=
      List.filter_eq_self.2 fun id hid => by rw [hfree id hid]; rfl
    rw [if_neg Bool.false_ne_true, habsent, (nodup_assigned (by omega)).dedup, hlen]

theorem store_counted_iff (hlen : ids.length < 2 ^ 64) :
    CountsOnce c (.store mode batch ids) ↔ Counted (c.store mode batch ids).2.2 := by
  refine ⟨store_counted hm hcount, fun hcounted m' hm' haccepts => ?_⟩
  obtain rfl := Option.some.inj (hm.symm.trans hm')
  have hassigned : (m.assigned ids.length).length = ids.length := by
    simp [CollectionMetadata.assigned]
  have hle : (absentIn c.docs (m.assigned ids.length)).length ≤ (m.assigned ids.length).length :=
    absentIn_length_le c.docs
  have hsub := (List.dedup_sublist (absentIn c.docs (m.assigned ids.length))).length_le
  simp only [Counted, store, hm] at hcounted
  obtain ⟨hroom, hadds⟩ := (counted_write_iff hcount hlen (by
    split_ifs
    · exact Nat.zero_le _
    · exact hsub.trans (hle.trans_eq hassigned))).1 hcounted haccepts
  refine ⟨hroom, ?_⟩
  split_ifs at hadds ⊢
  · exact List.length_eq_zero_iff.1 hadds.symm
  · have hall : absentIn c.docs (m.assigned ids.length) = m.assigned ids.length :=
      List.filter_sublist.eq_of_length
        (le_antisymm hle (by rw [hassigned]; exact hadds.ge.trans hsub))
    intro id hid
    rw [← hall] at hid
    exact Option.isNone_iff_eq_none.1 (List.mem_filter.1 hid).2

theorem update_counted (hop : CountsOnce c (.update mode ids batch)) :
    Counted (c.update mode ids batch).2 := by
  cases hnew : mode.has .updateNew with
  | true =>
    have hadds : Accepts mode ids batch c.docs →
        population c.docs + (absentIn c.docs ids).length < 2 ^ 64 ∧
          (if onlyExisting mode then 0 else (absentIn c.docs ids).dedup.length) =
            (absentIn c.docs ids).length := by
      intro haccepts
      have hop := hop m hm haccepts
      rw [hnew, if_pos rfl] at hop
      refine ⟨hop.1, ?_⟩
      have habsent := hop.2
      cases hmode : onlyExisting mode with
      | true =>
        rw [hmode, if_pos rfl] at habsent
        rw [if_pos rfl, habsent, List.length_nil]
      | false =>
        rw [hmode, if_neg Bool.false_ne_true] at habsent
        rw [if_neg Bool.false_ne_true, habsent.dedup]
    have hsize := counted_write hcount hadds
    simp only [update, hm, hnew, if_true, Counted]
    rw [← hsize]
    split_ifs <;> rfl
  | false =>
    have hsame : (∀ id ∈ ids, id < m.nextId) →
        population (write mode ids batch c.docs).2 = population c.docs := by
      intro hids
      by_cases h : Accepts mode ids batch c.docs
      · have hop := hop m hm h
        rw [hnew, if_neg Bool.false_ne_true] at hop
        rw [population_write h]
        rcases hop hids with hmode | habsent
        · rw [if_pos hmode, Nat.add_zero]
        · rw [habsent, List.dedup_nil, List.length_nil, ite_self, Nat.add_zero]
      · rw [write_of_not_accepts h]
    simp only [update, hm, hnew, Bool.false_eq_true, if_false]
    split_ifs with hany
    · simpa only [Counted, hm] using hcount
    · simpa only [Counted, hsame (not_any_le.1 hany)] using hcount

theorem update_counted_iff (hlen : ids.length < 2 ^ 64) :
    CountsOnce c (.update mode ids batch) ↔ Counted (c.update mode ids batch).2 := by
  refine ⟨update_counted hm hcount, fun hcounted m' hm' haccepts => ?_⟩
  obtain rfl := Option.some.inj (hm.symm.trans hm')
  have hok := write_status.2 haccepts
  have hle : (absentIn c.docs ids).length ≤ ids.length := absentIn_length_le c.docs
  have hsub := (List.dedup_sublist (absentIn c.docs ids)).length_le
  cases hnew : mode.has .updateNew with
  | true =>
    rw [if_pos rfl]
    simp only [Counted, update, hm, hnew, hok, if_true] at hcounted
    obtain ⟨hroom, hadds⟩ := (counted_write_iff hcount (hle.trans_lt hlen) (by
      split_ifs
      · exact Nat.zero_le _
      · exact hsub)).1 (by rw [if_pos hok]; exact hcounted) haccepts
    refine ⟨hroom, ?_⟩
    split_ifs at hadds ⊢
    · exact List.length_eq_zero_iff.1 hadds.symm
    · rw [← (List.dedup_sublist _).eq_of_length hadds]
      exact List.nodup_dedup _
  | false =>
    rw [if_neg Bool.false_ne_true]
    intro hids
    simp only [Counted, update, hm, hnew, Bool.false_eq_true, if_false,
      if_neg (not_any_le.2 hids)] at hcounted
    rw [population_write haccepts, hcount] at hcounted
    by_cases hmode : onlyExisting mode = true
    · exact Or.inl hmode
    · rw [if_neg hmode] at hcounted
      have hzero : (absentIn c.docs ids).dedup.length = 0 := by omega
      exact Or.inr ((List.dedup_eq_nil _).1 (List.length_eq_zero_iff.1 hzero))

theorem erase_counted (hop : CountsOnce c (.erase mode ids)) : Counted (c.erase ids).2 := by
  simp only [Counted, erase, hm]
  exact counted_eraseAll hcount hop

theorem erase_counted_iff (hlen : ids.length < 2 ^ 64) :
    CountsOnce c (.erase mode ids) ↔ Counted (c.erase ids).2 := by
  simp only [Counted, erase, hm]
  exact (counted_eraseAll_iff hcount hlen).symm

theorem load_counted_iff {packed : Bool} {documents : Bytes} {sizes : List ℕ} :
    CountsOnce c (.load mode packed ids documents sizes) ↔ Counted (c.load mode ids sizes).2 := by
  have hsum := population_eraseAll c.docs ids
  have hsame : population c.docs = population (eraseAll c.docs ids) ↔
      presentIn c.docs ids = [] := by
    rw [← List.dedup_eq_nil, ← List.length_eq_zero_iff]
    omega
  simp only [load, hm]
  split_ifs with hsizes hconsume
  · exact iff_of_true (fun _ hlen => absurd hlen hsizes) (by simpa only [Counted, hm] using hcount)
  · simp only [Counted, hcount, hsame]
    exact ⟨fun hop => hop hconsume (not_not.1 hsizes), fun hnone _ _ => hnone⟩
  · exact iff_of_true (fun hyes => absurd hyes hconsume) (by simpa only [Counted] using hcount)

end Size

/-- Each operation keeps the size equal to the number of documents. -/
theorem step_counted (c : Collection) (op : DocOp) (hc : Counted c) (hop : CountsOnce c op) :
    Counted (c.step op).2 := by
  cases hm : c.metadata with
  | none =>
    have hnone : ∀ id, c.docs id = none := by simpa only [Counted, hm] using hc
    cases op with
    | create =>
      have hzero : population c.docs = 0 := by
        have hempty : support c.docs = ∅ := Set.eq_empty_of_forall_notMem fun id hid => by
          rw [mem_support, hnone id] at hid
          cases hid
        rw [population, hempty, Set.ncard_empty]
      simp [step, create, hm, Counted, hzero]
    | _ => simpa [step, drop, store, update, erase, load, hm] using hc
  | some m =>
    have hcount : m.size.toNat = population c.docs := by simpa only [Counted, hm] using hc
    cases op with
    | create => simpa [step, create, hm] using hc
    | drop mode => exact (drop_counted_iff hm).1 hop
    | store mode batch ids => exact store_counted hm hcount hop
    | update mode ids batch => exact update_counted hm hcount hop
    | erase mode ids => exact erase_counted hm hcount hop
    | load mode packed ids documents sizes => exact (load_counted_iff hm hcount).1 hop

/-- Every operation is harmless where there is no collection, and no document. -/
theorem countsOnce_empty (op : DocOp) : CountsOnce ⟨none, fun _ => none⟩ op := by
  cases op with
  | create => trivial
  | drop mode => exact fun id hid => by cases hid
  | store mode batch ids => exact fun m hm => by cases hm
  | update mode ids batch => exact fun m hm => by cases hm
  | erase mode ids => simp [CountsOnce, presentIn]
  | load mode packed ids documents sizes => simp [CountsOnce, presentIn]

/-- An operation keeps the size equal to the number of documents exactly if it counts each document
once. -/
theorem step_counted_iff (hc : Counted c) {op : DocOp} (hlen : op.ids.length < 2 ^ 64) :
    CountsOnce c op ↔ Counted (c.step op).2 := by
  cases hm : c.metadata with
  | none =>
    have hempty : c = ⟨none, fun _ => none⟩ := by
      obtain ⟨metadata, docs⟩ := c
      simp only at hm
      subst hm
      exact congrArg _ (funext hc)
    have honce : CountsOnce c op := hempty ▸ countsOnce_empty op
    exact iff_of_true honce (step_counted c op hc honce)
  | some m =>
    have hcount : m.size.toNat = population c.docs := by simpa only [Counted, hm] using hc
    cases op with
    | create => exact iff_of_true trivial (step_counted c .create hc trivial)
    | drop mode => exact drop_counted_iff hm
    | store mode batch ids => exact store_counted_iff hm hcount hlen
    | update mode ids batch => exact update_counted_iff hm hcount hlen
    | erase mode ids => exact erase_counted_iff hm hcount hlen
    | load mode packed ids documents sizes => exact load_counted_iff hm hcount

end Collection

namespace DocumentStoreMixin

variable {σ : Type} [FiniteMapStore σ] {s t : DocumentStoreMixin σ} {name : CString}

/-! ### Runs -/

/-- Every document of a collection has an id below `next_id`. -/
def DocumentsBelow (s : DocumentStoreMixin σ) (name : CString) : Prop :=
  ∀ id, (contents s.db (keyFromId name id)).isSome →
    ∃ m t, s.collGetMetadata name {} = (.OK, m, t) ∧ id < m.nextId

/-- A `docStore` assigns ids without document, and changes no document under another id. -/
def StoresFresh (s : DocumentStoreMixin σ) (name : CString) (mode : Mode) (batch : DocBatch)
    (ids : List UInt64) : Prop :=
  ∀ status assigned t,
    s.docStore name mode batch.documents batch.sizes ids = some (status, assigned, t) →
    (∀ id ∈ assigned, contents s.db (keyFromId name id) = none) ∧
      ∀ id ∉ assigned, contents t.db (keyFromId name id) = contents s.db (keyFromId name id)

/-- An empty `map` database. -/
def emptyMap : DocumentStoreMixin (MapDatabase .default) :=
  ⟨MapDatabase.empty .default, fun _ => none⟩

theorem fresh_emptyMap : Fresh emptyMap where
  serving := rfl
  contents_eq := by
    funext key
    show (∅ : Std.ExtTreeMap Bytes Bytes Comparator.default.cmp)[key]? = none
    exact Std.ExtTreeMap.getElem?_empty
  cached_eq := rfl

theorem twoDocs_sum_le : [1, 1].sum ≤ lastValidSize := by decide

/-- Two documents of one byte. -/
def twoDocs (b b' : UInt8) : DocBatch := ⟨[b, b'], [1, 1], twoDocs_sum_le⟩

/-- The operations that keep `next_id` above the documents lead to collections with all their
documents below `next_id`. -/
theorem Fresh.run_belowNextId (hs : Fresh s) {ops : List (CString × DocOp)}
    (hrun : Run (StepWhen Collection.KeepsNextId) s ops t) :
    Coherent t ∧ ∀ name, (t.view name).BelowNextId := by
  refine run_invariant Collection.step_belowNextId hrun hs.coherent fun name id hid => ?_
  rw [hs.view_eq] at hid
  cases hid

/-- In runs that keep `next_id` above the documents, `docStore` never reuses an id. -/
theorem documents_below_next_id (hs : Fresh s) {ops : List (CString × DocOp)}
    (hrun : Run (StepWhen Collection.KeepsNextId) s ops t) (hname : name.bytes ≠ []) :
    t.DocumentsBelow name ∧
      ∀ mode batch ids, (t.view name).KeepsNextId (.store mode batch ids) →
        t.StoresFresh name mode batch ids := by
  obtain ⟨ht, hbelow⟩ := hs.run_belowNextId hrun
  refine ⟨?_, ?_⟩
  · intro id hid
    obtain ⟨m, hm, hlt⟩ := hbelow name id hid
    obtain ⟨u, hget, -⟩ := collGetMetadata_of_some ht hname hm {}
    exact ⟨m, u, hget, hlt⟩
  · intro mode batch ids hroom status assigned u hstore
    obtain ⟨himplements, rfl⟩ := docStore_spec ht hname hstore
    have hdocs : ∀ id, contents u.db (keyFromId name id) =
        ((t.view name).store mode batch ids).2.2.docs id := by
      intro id
      have hview := congrFun himplements.view_eq name
      rw [Function.update_self] at hview
      exact congrFun (congrArg Collection.docs hview) id
    cases hm : (t.view name).metadata with
    | none =>
      have hnone : ∀ id, (t.view name).docs id = none := by
        intro id
        by_contra hne
        obtain ⟨m, hm', -⟩ := hbelow name id (Option.isSome_iff_ne_none.2 hne)
        rw [hm] at hm'
        cases hm'
      refine ⟨fun id _ => hnone id, fun id _ => ?_⟩
      rw [hdocs, Collection.store, hm]
      rfl
    | some m =>
      simp only [Collection.store, hm] at hdocs ⊢
      refine ⟨fun id hid => Collection.docs_assigned (hbelow name) hm (hroom m hm) hid, ?_⟩
      intro id hid
      rw [hdocs]
      exact Collection.write_of_notMem hid

/-- A run that creates a collection, stores two documents and updates the one with the larger id,
with `YOKAN_MODE_UPDATE_NEW`. -/
theorem exists_run_updating :
    ∃ t, Run (StepWhen Collection.KeepsNextId) emptyMap
        [(nameC, .create), (nameC, .store .default (twoDocs 1 2) [0, 0]),
          (nameC, .update .updateNew [1] (oneDoc 3))] t ∧
      Coherent t ∧ (t.view nameC).metadata = some ⟨2, 2⟩ ∧ (t.view nameC).docs 1 = some [3] := by
  have hpermits : Permits Collection.KeepsNextId emptyMap.view
      [(nameC, .create), (nameC, .store .default (twoDocs 1 2) [0, 0]),
        (nameC, .update .updateNew [1] (oneDoc 3))] := by
    rw [fresh_emptyMap.view_eq]
    refine ⟨⟨rfl, trivial, trivial⟩, ⟨rfl, ?_, ?_⟩, ⟨rfl, ?_, ?_, ?_⟩, trivial⟩
    · intro m hm
      obtain rfl : (⟨0, 0⟩ : CollectionMetadata) = m := Option.some.inj hm
      decide
    · show _ < _
      decide
    · refine fun _ _ _ => ⟨by decide, fun id hid => ?_⟩
      by_contra hlt
      have hne : id ∉ [(0 : UInt64), 1] := by
        rintro hmem
        obtain rfl | hmem := List.mem_cons.1 hmem
        · exact hlt (by decide)
        · rw [List.mem_singleton.1 hmem] at hlt
          exact hlt (by decide)
      have hnone : (Collection.write .default [0, 1] (twoDocs 1 2) fun _ => none).2 id = none :=
        Collection.write_of_notMem hne
      exact absurd (hid.symm.trans (congrArg Option.isSome hnone)) (by decide)
    · show _ < _
      decide
    · decide
  obtain ⟨t, hrun, ht, hview⟩ := exists_run fresh_emptyMap.coherent hpermits
  rw [fresh_emptyMap.view_eq] at hview
  refine ⟨t, hrun, ht, ?_, ?_⟩ <;>
  · rw [hview]
    rfl

/-- Documents are stored and updated, and a further one is stored. -/
theorem documents_below_next_id_stored :
    ∃ t, Run (StepWhen Collection.KeepsNextId) emptyMap
        [(nameC, .create), (nameC, .store .default (twoDocs 1 2) [0, 0]),
          (nameC, .update .updateNew [1] (oneDoc 3))] t ∧
      (contents t.db (keyFromId nameC 1)).isSome ∧
      t.DocumentsBelow nameC ∧ t.StoresFresh nameC .default (oneDoc 4) [0] := by
  obtain ⟨t, hrun, -, hm, hdoc⟩ := exists_run_updating
  obtain ⟨hbelow, hfresh⟩ : t.DocumentsBelow nameC ∧ _ :=
    documents_below_next_id fresh_emptyMap hrun (by decide)
  refine ⟨t, hrun, congrArg Option.isSome hdoc, hbelow, hfresh _ _ _ fun m hm' => ?_⟩
  obtain rfl := Option.some.inj (hm.symm.trans hm')
  decide

/-- As long as the ids last, the runs that keep `next_id` above the documents are those in which
every document has an id below `next_id`, throughout. -/
theorem belowNextId_throughout_iff (hs : Fresh s) {ops : List (CString × DocOp)}
    (hrun : Run (StepWhen Collection.IdsLast) s ops t) :
    Run (StepWhen fun c op => c.IdsLast op ∧ c.KeepsNextId op) s ops t ↔
      Throughout (StepWhen Collection.IdsLast) (fun u => ∀ name, (u.view name).BelowNextId) s ops :=
  run_when_iff (fun _ _ hc hlast => Collection.step_belowNextId_iff hc hlast)
    Collection.keepsNextId_empty (fun id hid => by cases hid) hs hrun

/-- A run where `YOKAN_MODE_UPDATE_NEW` on the smaller of two ids lowers `next_id`. -/
theorem exists_run_lowering :
    ∃ t, Run (StepWhen fun _ _ => True) emptyMap
        [(nameC, .create), (nameC, .store .default (twoDocs 1 2) [0, 0]),
          (nameC, .update .updateNew [0] (oneDoc 3))] t ∧
      Coherent t ∧ (t.view nameC).metadata = some ⟨2, 1⟩ ∧ (t.view nameC).docs 1 = some [2] := by
  have hpermits : Permits (fun _ _ => True) emptyMap.view
      [(nameC, .create), (nameC, .store .default (twoDocs 1 2) [0, 0]),
          (nameC, .update .updateNew [0] (oneDoc 3))] := by
    rw [fresh_emptyMap.view_eq]
    refine ⟨⟨rfl, trivial, trivial⟩, ⟨rfl, trivial, ?_⟩, ⟨rfl, trivial, ?_, ?_⟩, trivial⟩
    · show _ < _
      decide
    · show _ < _
      decide
    · decide
  obtain ⟨t, hrun, ht, hview⟩ := exists_run fresh_emptyMap.coherent hpermits
  rw [fresh_emptyMap.view_eq] at hview
  refine ⟨t, hrun, ht, ?_, ?_⟩ <;>
  · rw [hview]
    rfl

/-- `YOKAN_MODE_UPDATE_NEW` on the smaller of two ids makes `docStore` overwrite the other. -/
theorem next_id_lowered_by_update_new :
    ∃ t, Run (StepWhen fun _ _ => True) emptyMap
        [(nameC, .create), (nameC, .store .default (twoDocs 1 2) [0, 0]),
          (nameC, .update .updateNew [0] (oneDoc 3))] t ∧
      ¬ t.DocumentsBelow nameC ∧ ¬ t.StoresFresh nameC .default (oneDoc 4) [0] := by
  obtain ⟨t, hrun, ht, hm, hdoc⟩ := exists_run_lowering
  have hdoc : contents t.db (keyFromId nameC 1) = some [2] := hdoc
  refine ⟨t, hrun, ?_, ?_⟩
  · intro hbelow
    obtain ⟨m, u, hget, hlt⟩ := hbelow 1 (by rw [hdoc]; rfl)
    obtain ⟨u', hget', -⟩ := collGetMetadata_of_some ht (by decide) hm {}
    rw [hget] at hget'
    obtain ⟨-, rfl, -⟩ := Prod.mk.inj hget'
    exact absurd hlt (by decide)
  · intro hfresh
    have hfit : KeysFit nameC [0] := by
      show _ < _
      decide
    obtain ⟨⟨status, assigned, u⟩, hstore⟩ := Option.isSome_iff_exists.1
      (docStore_isSome ht .default (oneDoc 4).documents (oneDoc 4).sizes hfit)
    obtain ⟨-, rfl⟩ := docStore_spec ht (by decide) hstore
    have hassigned : ((t.view nameC).store .default (oneDoc 4) [0]).2.1 = [1] := by
      simp only [Collection.store, hm]
      rfl
    obtain ⟨hnone, -⟩ := hfresh _ _ _ hstore
    rw [hassigned] at hnone
    have h := hnone 1 List.mem_cons_self
    rw [hdoc] at h
    cases h

/-- The size of a collection that exists is the number of its documents. -/
def SizeCounts (s : DocumentStoreMixin σ) (name : CString) : Prop :=
  s.collExists name = (.OK, true) →
    ∃ size t, s.collSize name = (.OK, size, t) ∧
      size.toNat = {id | (contents s.db (keyFromId name id)).isSome}.ncard

/-- The size of an existing collection, in terms of its view. -/
theorem sizeCounts_iff (hs : Coherent s) (hname : name.bytes ≠ []) {m : CollectionMetadata}
    (hm : (s.view name).metadata = some m) :
    s.SizeCounts name ↔ m.size.toNat = population (s.view name).docs := by
  obtain ⟨t, hget, -⟩ := collGetMetadata_of_some hs hname hm {}
  constructor
  · intro hcounts
    have hexists : s.collExists name = (.OK, true) := by
      rw [collExists, collExistsImpl_spec hs hname, hm]
      rfl
    obtain ⟨size, u, hsize, hcard⟩ := hcounts hexists
    rw [collSize, hget] at hsize
    obtain ⟨-, rfl, -⟩ := Prod.mk.inj hsize
    exact hcard
  · exact fun hcount _ => ⟨m.size, t, by rw [collSize, hget], hcount⟩

/-- In runs that count each document once, the size is the number of documents. -/
theorem collSize_counts_documents (hs : Fresh s) {ops : List (CString × DocOp)}
    (hrun : Run (StepWhen Collection.CountsOnce) s ops t) (hname : name.bytes ≠ []) :
    t.SizeCounts name := by
  have hstart : ∀ n, Collection.Counted (s.view n) := by
    intro n
    rw [hs.view_eq]
    exact fun id => rfl
  obtain ⟨ht, hcounted⟩ := run_invariant Collection.step_counted hrun hs.coherent hstart
  intro hexists
  have hsome := hexists
  rw [collExists, collExistsImpl_spec ht hname, Prod.mk.injEq] at hsome
  obtain ⟨m, hm⟩ := Option.isSome_iff_exists.1 hsome.2
  have hsize := hcounted name
  simp only [Collection.Counted, hm] at hsize
  exact (sizeCounts_iff ht hname hm).2 hsize hexists

/-- A run that creates a collection, stores two documents, updates one and erases the other. -/
theorem collSize_counts_documents_erased :
    ∃ t, Run (StepWhen Collection.CountsOnce) emptyMap
        [(nameC, .create), (nameC, .store .default (twoDocs 1 2) [0, 0]),
          (nameC, .update .default [1] (oneDoc 3)), (nameC, .erase .default [0])] t ∧
      t.SizeCounts nameC ∧ (t.view nameC).docs 1 = some [3] := by
  have hpermits : Permits Collection.CountsOnce emptyMap.view
      [(nameC, .create), (nameC, .store .default (twoDocs 1 2) [0, 0]),
        (nameC, .update .default [1] (oneDoc 3)), (nameC, .erase .default [0])] := by
    rw [fresh_emptyMap.view_eq]
    refine ⟨⟨rfl, trivial, trivial⟩, ⟨rfl, ?_, ?_⟩, ⟨rfl, ?_, ?_, ?_⟩, ⟨rfl, ?_, ?_⟩, trivial⟩
    · intro m hm _
      have hzero : population (fun _ : UInt64 => (none : Option Bytes)) = 0 := by
        simp [population, support]
      refine ⟨?_, fun id _ => rfl⟩
      show population (fun _ : UInt64 => (none : Option Bytes)) + 2 < _
      rw [hzero]
      decide
    · show _ < _
      decide
    · exact fun m hm _ _ => Or.inr rfl
    · show _ < _
      decide
    · decide
    · exact List.nodup_singleton 0
    · show _ < _
      decide
  obtain ⟨t, hrun, -, hview⟩ := exists_run fresh_emptyMap.coherent hpermits
  refine ⟨t, hrun, collSize_counts_documents fresh_emptyMap hrun (by decide), ?_⟩
  rw [hview, fresh_emptyMap.view_eq]
  rfl

/-- With fewer than `2 ^ 64` ids in each call, the runs that count each document once are those in
which the size of every collection is the number of its documents, throughout. -/
theorem counted_throughout_iff (hs : Fresh s) {ops : List (CString × DocOp)}
    (hrun : Run (StepWhen fun _ op => op.ids.length < 2 ^ 64) s ops t) :
    Run (StepWhen fun c op => op.ids.length < 2 ^ 64 ∧ c.CountsOnce op) s ops t ↔
      Throughout (StepWhen fun _ op => op.ids.length < 2 ^ 64)
        (fun u => ∀ name, (u.view name).Counted) s ops :=
  run_when_iff (J := Collection.Counted) (fun _ _ hc hlen => Collection.step_counted_iff hc hlen)
    Collection.countsOnce_empty (fun _ => rfl) hs hrun

/-- An erased document that is updated comes back without being counted. -/
theorem collSize_after_update_of_erased :
    ∃ t, Run (StepWhen fun _ _ => True) emptyMap
        [(nameC, .create), (nameC, .store .default (oneDoc 1) [0]), (nameC, .erase .default [0]),
          (nameC, .update .default [0] (oneDoc 2))] t ∧ ¬ t.SizeCounts nameC := by
  have hpermits : Permits (fun _ _ => True) emptyMap.view
      [(nameC, .create), (nameC, .store .default (oneDoc 1) [0]), (nameC, .erase .default [0]),
          (nameC, .update .default [0] (oneDoc 2))] := by
    rw [fresh_emptyMap.view_eq]
    refine ⟨⟨rfl, trivial, trivial⟩, ⟨rfl, trivial, ?_⟩, ⟨rfl, trivial, ?_⟩,
      ⟨rfl, trivial, ?_, by decide⟩, trivial⟩ <;>
    · show _ < _
      decide
  obtain ⟨t, hrun, ht, hview⟩ := exists_run fresh_emptyMap.coherent hpermits
  rw [fresh_emptyMap.view_eq] at hview
  have hm : (t.view nameC).metadata = some ⟨0, 1⟩ := by
    rw [hview]
    rfl
  have hdoc : (contents t.db (keyFromId nameC 0)).isSome := by
    show ((t.view nameC).docs 0).isSome
    rw [hview]
    rfl
  refine ⟨t, hrun, fun hcounts => ?_⟩
  have hcard := (sizeCounts_iff ht (by decide) hm).1 hcounts
  have hpos : 0 < population (t.view nameC).docs :=
    (Set.ncard_pos (Set.toFinite _)).2 ⟨0, hdoc⟩
  rw [← hcard] at hpos
  exact absurd hpos (by decide)

end DocumentStoreMixin

end Yokan
