import Mathlib.Data.List.Basic
import Mathlib.Order.Defs.Unbundled
import Mathlib.Tactic

/-!
# Reading a sorted list by pages

A list sorted by a key is read page by page: each page starts after the last key of the page
before, and the reader stops at the first page that is not full.

* `dropWhile_eq_filter`: on a sorted list, skipping to a bound is filtering by it;
* `after_append_cons`: what comes after the last key of a page is the rest of the list;
* `take_filter_takeWhile_iff`: when a walk that may stop early still finds a page;
* `collect_eq`: the pages, put together, are the list.
-/

namespace Paging

variable {α κ : Type*}

/-- Skipping the elements of a list while `p` holds keeps those where it fails, when an element
where `p` holds has only such elements before it. -/
theorem dropWhile_eq_filter {p : α → Bool} {l : List α} (h : l.Pairwise (fun a b => p b → p a)) :
    l.dropWhile p = l.filter (fun a => !p a) := by
  induction l with
  | nil => rfl
  | cons a l ih =>
    obtain ⟨ha, hl⟩ := List.pairwise_cons.1 h
    by_cases hp : p a
    · rw [List.dropWhile_cons_of_pos hp, List.filter_cons_of_neg (by simpa using hp), ih hl]
    · have hall : ∀ b ∈ l, (!p b) = true := by
        intro b hb
        rw [Bool.not_eq_true', Bool.eq_false_iff]
        exact fun hpb => hp (ha b hb hpb)
      rw [List.dropWhile_cons_of_neg hp, List.filter_cons_of_pos (by simpa using hp),
        List.filter_eq_self.2 hall]

section Sorted

variable {r : κ → κ → Prop} {key : α → κ} {l : List α}

/-- Sorted by key, without repetition when `r` is irreflexive. -/
def Sorted (r : κ → κ → Prop) (key : α → κ) (l : List α) : Prop :=
  l.Pairwise (fun a b => r (key a) (key b))

theorem Sorted.sublist {l' : List α} (hl : Sorted r key l) (h : l'.Sublist l) : Sorted r key l' :=
  List.Pairwise.sublist h hl

theorem filter_eq_filter_iff {p q : α → Bool} {l : List α} :
    l.filter p = l.filter q ↔ ∀ a ∈ l, (p a = true ↔ q a = true) := by
  constructor
  · intro h a ha
    have hmem : a ∈ l.filter p ↔ a ∈ l.filter q := by rw [h]
    rw [List.mem_filter, List.mem_filter, and_iff_right ha, and_iff_right ha] at hmem
    exact hmem
  · exact fun h => List.filter_congr fun a ha => Bool.eq_iff_iff.2 (h a ha)

/-- Two ends of a list without repetition that begin alike are the same. -/
theorem suffix_eq_of_head {l l₁ l₂ : List α} (hl : l.Nodup) (h₁ : l₁ <:+ l) (h₂ : l₂ <:+ l)
    (hhead : l₁.head? = l₂.head?) : l₁ = l₂ := by
  wlog hle : l₁ <:+ l₂ generalizing l₁ l₂
  · exact (this h₂ h₁ hhead.symm ((List.suffix_or_suffix_of_suffix h₁ h₂).resolve_left hle)).symm
  obtain ⟨pre, rfl⟩ := hle
  cases pre with
  | nil => rfl
  | cons a pre =>
    have hnodup : (a :: (pre ++ l₁)).Nodup := hl.sublist h₂.sublist
    rw [List.cons_append, List.head?_cons] at hhead
    have hmem : a ∈ l₁ := List.mem_of_mem_head? hhead
    exact absurd (List.mem_append_right pre hmem) (List.nodup_cons.1 hnodup).1

/-- A sorted list without repetition is determined by its elements. -/
theorem Sorted.eq_of_mem_iff [IsStrictOrder κ r] {l' : List α} (hl : Sorted r key l)
    (hl' : Sorted r key l') (h : ∀ a, a ∈ l ↔ a ∈ l') : l = l' := by
  have hne : ∀ a b, r (key a) (key b) → a ≠ b := by
    rintro a b hab rfl
    exact irrefl _ hab
  have hperm : l.Perm l' :=
    (List.perm_ext_iff_of_nodup (hl.imp (hne _ _)) (hl'.imp (hne _ _))).2 h
  refine hperm.eq_of_pairwise ?_ hl hl'
  intro a b _ _ hab hba
  exact absurd hba (asymm hab)

/-- A walk that stops at the first element where `q` holds finds the first `n` elements where `p`
holds exactly if none of them comes after an element where `q` holds. -/
theorem take_filter_takeWhile_iff [IsStrictOrder κ r] {p q : α → Bool} (hl : Sorted r key l)
    (hpq : ∀ a, q a = true → p a = false) (n : ℕ) :
    ((l.takeWhile (fun a => !q a)).filter p).take n = (l.filter p).take n ↔
      ∀ a ∈ l, q a = true → ∀ b ∈ (l.filter p).take n, ¬ r (key a) (key b) := by
  induction l generalizing n with
  | nil => simp
  | cons a l ih =>
    obtain ⟨ha, hl⟩ := List.pairwise_cons.1 hl
    have ih := ih hl
    rw [List.forall_mem_cons]
    cases hq : q a with
    | true =>
      have hp := hpq a hq
      rw [List.takeWhile_cons_of_neg (by simp [hq]), List.filter_cons_of_neg (by simp [hp]),
        List.filter_nil, List.take_nil, eq_comm]
      constructor
      · intro hnil
        simp [hnil]
      · rintro ⟨hnone, -⟩
        refine List.eq_nil_iff_forall_not_mem.2 fun b hb => hnone rfl b hb (ha b ?_)
        exact (List.mem_filter.1 (List.mem_of_mem_take hb)).1
    | false =>
      rw [List.takeWhile_cons_of_pos (by simp [hq])]
      simp only [Bool.false_eq_true, false_imp_iff, true_and]
      cases hp : p a with
      | false =>
        rw [List.filter_cons_of_neg (by simp [hp]), List.filter_cons_of_neg (by simp [hp])]
        exact ih n
      | true =>
        rw [List.filter_cons_of_pos hp, List.filter_cons_of_pos hp]
        cases n with
        | zero => simp
        | succ n =>
          rw [List.take_succ_cons, List.take_succ_cons, List.cons.injEq, ih n]
          simp only [true_and]
          refine forall₃_congr fun b hb _ => ?_
          rw [List.forall_mem_cons]
          exact (and_iff_right fun hba => asymm hba (ha b hb)).symm

variable [DecidableRel r]

/-- The elements whose key comes after `k`. -/
def after (r : κ → κ → Prop) [DecidableRel r] (key : α → κ) (l : List α) (k : κ) : List α :=
  l.filter (fun a => r k (key a))

theorem after_sublist (k : κ) : (after r key l k).Sublist l := List.filter_sublist

theorem after_after [IsTrans κ r] {k k' : κ} (h : r k k') :
    after r key (after r key l k) k' = after r key l k' := by
  unfold after
  rw [List.filter_filter]
  refine List.filter_congr ?_
  intro a _
  simp only [← Bool.decide_and, decide_eq_decide]
  exact ⟨fun ha => ha.1, fun ha => ⟨ha, IsTrans.trans k k' _ h ha⟩⟩

/-- In a sorted list, what comes after the key of `a` is what stands behind `a`. -/
theorem after_append_cons [IsStrictOrder κ r] {xs ys : List α} {a : α}
    (h : Sorted r key (xs ++ a :: ys)) : after r key (xs ++ a :: ys) (key a) = ys := by
  obtain ⟨-, hys, hxa⟩ := List.pairwise_append.1 h
  obtain ⟨ha, -⟩ := List.pairwise_cons.1 hys
  have hxs : xs.filter (fun x => decide (r (key a) (key x))) = [] := by
    rw [List.filter_eq_nil_iff]
    intro x hx hax
    rw [decide_eq_true_eq] at hax
    exact asymm (hxa x hx a List.mem_cons_self) hax
  have hall : ys.filter (fun y => decide (r (key a) (key y))) = ys := by
    rw [List.filter_eq_self]
    intro y hy
    rw [decide_eq_true_eq]
    exact ha y hy
  unfold after
  rw [List.filter_append, hxs, List.filter_cons_of_neg (by simpa using irrefl (key a)), hall,
    List.nil_append]

end Sorted

/-! ### The reader -/

/-- Read pages until one says that it is the last. `page j k` is the `j`-th page, asked for from
key `k` on: its elements and whether the list is exhausted, or `none` if the request fails. -/
def collect (page : ℕ → κ → Option (List α × Bool)) (key : α → κ) : ℕ → ℕ → κ → Option (List α)
  | 0, _, _ => none
  | fuel + 1, j, k =>
    match page j k with
    | none => none
    | some (items, true) => some items
    | some (items, false) =>
      match items.getLast? with
      | none => none
      | some a => (collect page key fuel (j + 1) (key a)).map (items ++ ·)

/-- Where page `j` starts, behind full pages of `n` elements. -/
def startOf (n : ℕ → ℕ) (j : ℕ) : ℕ := ((List.range j).map n).sum

theorem startOf_succ (n : ℕ → ℕ) (j : ℕ) : startOf n (j + 1) = startOf n j + n j := by
  unfold startOf
  rw [List.range_succ, List.map_append, List.sum_append, List.map_singleton, List.sum_singleton]

/-- Pages that hold the next `n j` elements after the key asked for, and say whether they are
full, add up to the list. Only the pages that are asked for matter, each from the end of the one
before. -/
theorem collect_eq {r : κ → κ → Prop} [DecidableRel r] [IsStrictOrder κ r] {key : α → κ}
    {l : List α} (hl : Sorted r key l) {n : ℕ → ℕ} (hn : ∀ j, 0 < n j)
    {page : ℕ → κ → Option (List α × Bool)}
    (hpage : ∀ j k, startOf n j ≤ l.length → after r key l k = l.drop (startOf n j) →
      page j k = some ((after r key l k).take (n j), decide ((after r key l k).length < n j)))
    (fuel j : ℕ) (k : κ) (hstart : startOf n j ≤ l.length)
    (hk : after r key l k = l.drop (startOf n j)) (hfuel : (after r key l k).length < fuel) :
    collect page key fuel j k = some (after r key l k) := by
  induction fuel generalizing j k with
  | zero => omega
  | succ fuel ih =>
    have hasked := hpage j k hstart hk
    by_cases hlt : (after r key l k).length < n j
    · simp only [collect, hasked, hlt, decide_true, List.take_of_length_le (Nat.le_of_lt hlt)]
    · have hpos := hn j
      have hne : (after r key l k).take (n j) ≠ [] := by
        intro hnil
        have := congrArg List.length hnil
        rw [List.length_take, List.length_nil] at this
        omega
      obtain ⟨xs, a, hxs⟩ : ∃ xs a, (after r key l k).take (n j) = xs ++ [a] :=
        ⟨_, _, (List.dropLast_concat_getLast hne).symm⟩
      have hsplit : after r key l k = xs ++ a :: (after r key l k).drop (n j) := by
        conv_lhs => rw [← List.take_append_drop (n j) (after r key l k), hxs]
        simp
      have hsorted : Sorted r key (after r key l k) := hl.sublist (after_sublist k)
      have hka : r k (key a) := by
        have hmem : a ∈ after r key l k := by rw [hsplit]; simp
        simpa [after] using (List.mem_filter.1 hmem).2
      have hrest : after r key l (key a) = (after r key l k).drop (n j) := by
        rw [← after_after hka]
        conv_lhs => rw [hsplit]
        rw [hsplit] at hsorted
        exact after_append_cons hsorted
      have hlength : (after r key l k).length = l.length - startOf n j := by
        rw [hk, List.length_drop]
      have hfewer : (after r key l (key a)).length < fuel := by
        rw [hrest, List.length_drop]
        omega
      -- the next page starts where this one ends
      have hnext : startOf n (j + 1) ≤ l.length := by
        rw [startOf_succ]
        omega
      have hbehind : after r key l (key a) = l.drop (startOf n (j + 1)) := by
        rw [hrest, hk, List.drop_drop, startOf_succ]
      simp only [collect, hasked, hlt, decide_false, hxs, List.getLast?_concat,
        ih (j + 1) (key a) hnext hbehind hfewer, Option.map_some, hrest]
      rw [← hxs, List.take_append_drop]

end Paging
