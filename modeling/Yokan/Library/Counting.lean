import Mathlib.Data.BitVec
import Mathlib.Tactic

/-!
# Loops that count with a machine integer

A loop that counts from zero to `count` with an integer of `w` bits. When `count` is not below
`2 ^ w`, the counter wraps around and never gets there, and the loop only ends if its body does.

* `countUp`: the loop, with a number of tests of its condition that it may make;
* `countAll`: the loop with enough of them to know whether it ends;
* `countAll_of_lt`, `countAll_eq_some`, `countAll_eq_none_iff`: when it ends, and with what. When it
  does not, no number of tests is enough (`countUp_eq_none`).
-/

namespace Counting

variable {w count : ℕ} {stops : ℕ → Bool}

/-- The loop whose body returns where `stops` holds: whether it gets past its last number. It has no
result when it needs another test. -/
def countUp (count : ℕ) (stops : ℕ → Bool) : ℕ → BitVec w → Option Bool
  | 0, _ => none
  | tests + 1, i =>
    if i.toNat < count then
      if stops i.toNat then some false else countUp count stops tests (i + 1)
    else some true

/-- The loop from zero. There is no result when it does not end. -/
def countAll (w count : ℕ) (stops : ℕ → Bool) : Option Bool :=
  countUp count stops (2 ^ w + 1) (0 : BitVec w)

/-- The counter does not wrap when it has not got to its last number. -/
theorem toNat_succ {i : BitVec w} (h : i.toNat + 1 < 2 ^ w) : (i + 1).toNat = i.toNat + 1 := by
  have hone : (1 : BitVec w).toNat = 1 % 2 ^ w := BitVec.toNat_ofNat 1 w
  rw [BitVec.toNat_add, hone, Nat.add_mod_mod, Nat.mod_eq_of_lt h]

/-- The body returns at some number that the counter gets to. -/
theorem countUp_of_stop {j : ℕ} (hj : j < count) (hlt : j < 2 ^ w) (hstop : stops j = true)
    {tests : ℕ} {i : BitVec w} (hi : i.toNat ≤ j) (htests : j - i.toNat < tests) :
    countUp count stops tests i = some false := by
  induction tests generalizing i with
  | zero => omega
  | succ tests ih =>
    unfold countUp
    rw [if_pos (by omega)]
    obtain heq | hne := Nat.eq_or_lt_of_le hi
    · rw [heq, if_pos hstop]
    · have hnext := toNat_succ (i := i) (by omega)
      rw [ih (by omega) (by omega), ite_self]

/-- The body returns at no number. -/
theorem countUp_of_lt (hcount : count < 2 ^ w) (hstops : ∀ j < count, stops j = false) {tests : ℕ}
    {i : BitVec w} (hi : i.toNat ≤ count) (htests : count - i.toNat < tests) :
    countUp count stops tests i = some true := by
  induction tests generalizing i with
  | zero => omega
  | succ tests ih =>
    unfold countUp
    by_cases hlt : i.toNat < count
    · have hnext := toNat_succ (i := i) (by omega)
      rw [if_pos hlt, hstops _ hlt, if_neg Bool.false_ne_true, ih (by omega) (by omega)]
    · rw [if_neg hlt]

/-- The counter never gets to its end. -/
theorem countUp_eq_none (hcount : 2 ^ w ≤ count) (hstops : ∀ j < 2 ^ w, stops j = false)
    (tests : ℕ) (i : BitVec w) : countUp count stops tests i = none := by
  induction tests generalizing i with
  | zero => rfl
  | succ tests ih =>
    have hi := i.isLt
    rw [countUp, if_pos (by omega), hstops _ hi, if_neg Bool.false_ne_true, ih]

/-- A loop that has fewer numbers than the counter ends, early or at its last number. -/
theorem countAll_of_lt (hcount : count < 2 ^ w) :
    countAll w count stops = some (!(List.range count).any stops) := by
  by_cases hall : ∀ j < count, stops j = false
  · have hany : (List.range count).any stops = false := by
      simpa using hall
    rw [countAll, countUp_of_lt hcount hall (by simp) (by simp; omega), hany]
    rfl
  · push Not at hall
    obtain ⟨j, hj, hstop⟩ := hall
    rw [Bool.ne_false_iff] at hstop
    have hany : (List.range count).any stops = true :=
      List.any_eq_true.2 ⟨j, List.mem_range.2 hj, hstop⟩
    rw [countAll, countUp_of_stop hj (hj.trans hcount) hstop (by simp) (by simp; omega), hany]
    rfl

/-- The loop does not end exactly if the counter cannot get to its end and the body never
returns. -/
theorem countAll_eq_none_iff :
    countAll w count stops = none ↔ 2 ^ w ≤ count ∧ ∀ j < 2 ^ w, stops j = false := by
  constructor
  · intro h
    have hcount : 2 ^ w ≤ count := by
      by_contra hlt
      rw [countAll_of_lt (Nat.not_le.1 hlt)] at h
      cases h
    refine ⟨hcount, fun j hj => ?_⟩
    by_contra hstop
    rw [countAll, countUp_of_stop (hj.trans_le hcount) hj (Bool.not_eq_false _ ▸ hstop) (by simp)
      (by simp; omega)] at h
    cases h
  · rintro ⟨hcount, hstops⟩
    exact countUp_eq_none hcount hstops _ _

/-- A loop that ends says whether its body has returned at one of its numbers. -/
theorem countAll_eq_some {b : Bool} (h : countAll w count stops = some b) :
    b = !(List.range count).any stops := by
  by_cases hcount : count < 2 ^ w
  · rw [countAll_of_lt hcount] at h
    exact (Option.some.inj h).symm
  · have hnot : ¬ ∀ j < 2 ^ w, stops j = false := fun hstops => by
      rw [countAll_eq_none_iff.2 ⟨Nat.not_lt.1 hcount, hstops⟩] at h
      cases h
    push Not at hnot
    obtain ⟨j, hj, hstop⟩ := hnot
    rw [Bool.ne_false_iff] at hstop
    have hlt : j < count := hj.trans_le (Nat.not_lt.1 hcount)
    have hany : (List.range count).any stops = true :=
      List.any_eq_true.2 ⟨j, List.mem_range.2 hlt, hstop⟩
    rw [countAll, countUp_of_stop hlt hj hstop (by simp) (by simp; omega)] at h
    rw [hany]
    exact (Option.some.inj h).symm

/-- The numbers of a loop over a list are the positions of its elements. -/
theorem any_range_getD {α : Type*} (l : List α) (d : α) (p : α → Bool) :
    ((List.range l.length).any fun i => p (l.getD i d)) = l.any p := by
  induction l with
  | nil => rfl
  | cons a l ih =>
    rw [List.length_cons, List.range_succ_eq_map, List.any_cons, List.any_map, List.any_cons, ← ih]
    rfl

end Counting
