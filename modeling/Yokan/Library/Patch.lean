import Yokan.Library.Buffer

/-!
# Patches of a buffer

What a writer does to a buffer whose contents it does not look at. A patch has one entry for each
position of the buffer: the element that is written there, or `none` where the old one stays.

* `apply_blit`: a write after a patch is a patch;
* `slice_apply_of_written`: a region that a patch covers does not depend on the old contents.
-/

namespace Buffer

variable {α : Type*}

/-- What is written at each position of a buffer. -/
abbrev Patch (α : Type*) := List (Option α)

namespace Patch

/-- The buffer after the patch. -/
def apply (p : Patch α) (l : List α) : List α := List.zipWith (fun o a => o.getD a) p l

/-- The patch that leaves all of a buffer as it is. -/
def untouched (n : ℕ) : Patch α := List.replicate n none

/-- The `n` positions from `off` on are all overwritten. -/
def Written (p : Patch α) (off n : ℕ) : Prop :=
  ∀ i, off ≤ i → i < off + n → ∃ a, p[i]? = some (some a)

@[simp] theorem length_untouched (n : ℕ) : (untouched n : Patch α).length = n :=
  List.length_replicate

@[simp] theorem length_apply {p : Patch α} {l : List α} (h : l.length = p.length) :
    (p.apply l).length = p.length := by
  rw [apply, List.length_zipWith, h, Nat.min_self]

theorem apply_untouched (l : List α) : (untouched l.length).apply l = l := by
  induction l with
  | nil => rfl
  | cons a l ih =>
    rw [List.length_cons, untouched, List.replicate_succ, apply, List.zipWith_cons_cons]
    exact congrArg (a :: ·) ih

theorem apply_append {p q : Patch α} {l m : List α} (h : l.length = p.length) :
    (p ++ q).apply (l ++ m) = p.apply l ++ q.apply m :=
  List.zipWith_append h.symm

theorem apply_take (p : Patch α) (l : List α) (n : ℕ) :
    (p.apply l).take n = apply (p.take n) (l.take n) :=
  List.take_zipWith

theorem apply_drop (p : Patch α) (l : List α) (n : ℕ) :
    (p.apply l).drop n = apply (p.drop n) (l.drop n) :=
  List.drop_zipWith

theorem apply_map_some (src l : List α) (h : l.length = src.length) :
    apply (src.map some) l = src := by
  induction src generalizing l with
  | nil => rfl
  | cons a src ih =>
    cases l with
    | nil => simp at h
    | cons b l => exact congrArg (a :: ·) (ih l (by simpa using h))

/-- A write to a patched buffer is part of the patch. -/
theorem apply_blit {p : Patch α} {l src : List α} {off : ℕ} (hl : l.length = p.length)
    (h : off + src.length ≤ p.length) :
    blit (p.apply l) off src = apply (blit p off (src.map some)) l := by
  have hsplit : l = l.take off ++ slice l off src.length ++ l.drop (off + src.length) := by
    rw [slice, ← List.take_add, List.take_append_drop]
  have hmid : (slice l off src.length).length = src.length := length_slice_of_le (by omega)
  have hfront : (l.take off).length = (p.take off).length := by
    rw [List.length_take, List.length_take, hl]
  rw [blit, blit, List.length_map]
  conv_rhs => rw [hsplit]
  rw [apply_append (by rw [List.length_append, List.length_append, hfront, hmid, List.length_map]),
    apply_append hfront, apply_map_some _ _ hmid, apply_take, apply_drop]

/-! ### What a patch covers -/

theorem written_zero (p : Patch α) (off : ℕ) : Written p off 0 := fun i hle hlt => by omega

/-- A write covers its region. -/
theorem written_blit_same {p : Patch α} {src : List α} {off : ℕ}
    (h : off + src.length ≤ p.length) : Written (blit p off (src.map some)) off src.length := by
  intro i hle hlt
  obtain ⟨d, rfl⟩ := Nat.exists_eq_add_of_le hle
  have hd : d < src.length := by omega
  refine ⟨src[d], ?_⟩
  have hlen : (p.take off).length = off := List.length_take_of_le (by omega)
  rw [blit, List.append_assoc, List.getElem?_append_right (by omega), hlen,
    Nat.add_sub_cancel_left, List.getElem?_append_left (by rw [List.length_map]; exact hd),
    List.getElem?_map, List.getElem?_eq_getElem hd]
  rfl

/-- What is covered stays covered. -/
theorem Written.blit {p : Patch α} {src : List α} {a n off : ℕ} (hp : Written p a n)
    (h : off + src.length ≤ p.length) : Written (blit p off (src.map some)) a n := by
  intro i hle hlt
  by_cases hin : off ≤ i ∧ i < off + src.length
  · exact written_blit_same h i hin.1 hin.2
  · obtain ⟨x, hx⟩ := hp i hle hlt
    refine ⟨x, ?_⟩
    have hlen : (p.take off).length = off := List.length_take_of_le (by omega)
    rw [Buffer.blit, List.length_map, List.append_assoc]
    rcases Nat.lt_or_ge i off with hi | hi
    · rw [List.getElem?_append_left (by omega), List.getElem?_take_of_lt hi, hx]
    · have hi' : off + src.length ≤ i := by omega
      rw [List.getElem?_append_right (by omega), hlen,
        List.getElem?_append_right (by rw [List.length_map]; omega), List.length_map,
        List.getElem?_drop, ← hx]
      congr 1
      omega

/-- Adjacent regions are covered together. -/
theorem Written.append {p : Patch α} {a n m : ℕ} (h : Written p a n) (h' : Written p (a + n) m) :
    Written p a (n + m) := by
  intro i hle hlt
  rcases Nat.lt_or_ge i (a + n) with hi | hi
  · exact h i hle hi
  · exact h' i hi (by omega)

/-- What a patch writes at a position is found there, whatever the buffer held. -/
theorem getElem?_apply_eq {p : Patch α} {l : List α} (hl : l.length = p.length) {i : ℕ} {a : α}
    (h : p[i]? = some (some a)) : (p.apply l)[i]? = some a := by
  have hlt : i < p.length := (List.getElem?_eq_some_iff.1 h).1
  rw [apply, List.getElem?_zipWith, h, List.getElem?_eq_getElem (hl ▸ hlt)]
  rfl

/-- A region that a patch covers is the same whatever the buffer held. -/
theorem slice_apply_of_written {p : Patch α} {l l' : List α} {off n : ℕ} (hl : l.length = p.length)
    (hl' : l'.length = p.length) (h : Written p off n) :
    slice (p.apply l) off n = slice (p.apply l') off n := by
  apply List.ext_getElem?
  intro j
  rcases Nat.lt_or_ge j n with hj | hj
  · obtain ⟨x, hx⟩ := h (off + j) (by omega) (by omega)
    rw [slice, slice, List.getElem?_take_of_lt hj, List.getElem?_take_of_lt hj,
      List.getElem?_drop, List.getElem?_drop, getElem?_apply_eq hl hx, getElem?_apply_eq hl' hx]
  · rw [slice, slice, List.getElem?_take_eq_none hj, List.getElem?_take_eq_none hj]

end Patch

end Buffer
