import Mathlib.Data.List.Basic
import Mathlib.Tactic

/-!
# Walking a collection with a cursor

A program fills slots from the elements of a collection, which it reaches through a cursor. The body
of its loop looks at one element and breaks, goes on to the next element, or goes on to the next
element with the next slot. The loop ends when the cursor is at the end or all slots are filled.

* `walk`: the loop over the list of the elements;
* `loop`: the loop over a cursor, with a bound on the number of its passes;
* `loop_eq_walk`: a cursor that runs through a list makes the loop the walk over the list.
-/

namespace Cursor

variable {α σ τ ι : Type*}

/-- What the body of the loop does with an element. -/
inductive Pass (σ : Type*)
  | done (s : σ)
  | skip
  | fill (s : σ)

/-- The body of a loop: it sees the element, the slot to fill, the slots behind it and the state. -/
abbrev Body (α τ σ : Type*) := α → τ → List τ → σ → Pass σ

/-- The loop over a list of elements. -/
def walk (body : Body α τ σ) : List α → List τ → σ → σ
  | [], _, s => s
  | _ :: _, [], s => s
  | a :: as, slot :: slots, s =>
    match body a slot slots s with
    | .done s => s
    | .skip => walk body as (slot :: slots) s
    | .fill s => walk body as slots s

theorem walk_nil_slots (body : Body α τ σ) (as : List α) (s : σ) : walk body as [] s = s := by
  cases as <;> rfl

/-- A loop that ends with a result, if it is given enough passes. -/
def EndsWith (f : ℕ → Option α) (a : α) : Prop := ∃ n, ∀ fuel, n ≤ fuel → f fuel = some a

theorem EndsWith.of_lt {f : ℕ → Option α} {a : α} (n : ℕ)
    (h : ∀ fuel, n < fuel → f fuel = some a) : EndsWith f a := ⟨n + 1, h⟩

/-- There is one result at most. -/
theorem EndsWith.inj {f : ℕ → Option α} {a b : α} (ha : EndsWith f a) (hb : EndsWith f b) :
    a = b := by
  obtain ⟨n, hn⟩ := ha
  obtain ⟨m, hm⟩ := hb
  have h := (hn (max n m) (Nat.le_max_left _ _)).symm.trans (hm _ (Nat.le_max_right _ _))
  exact Option.some.inj h

theorem EndsWith.map {β : Type*} {f : ℕ → Option α} {a : α} (h : EndsWith f a) (g : α → β) :
    EndsWith (fun fuel => (f fuel).map g) (g a) := by
  obtain ⟨n, hn⟩ := h
  exact ⟨n, fun fuel hfuel => congrArg (Option.map g) (hn fuel hfuel)⟩

/-- Two loops, one after the other. -/
theorem EndsWith.bind {β : Type*} {f : ℕ → Option α} {g : ℕ → α → Option β} {a : α} {b : β}
    (hf : EndsWith f a) (hg : EndsWith (fun fuel => g fuel a) b) :
    EndsWith (fun fuel => (f fuel).bind (g fuel)) b := by
  obtain ⟨n, hn⟩ := hf
  obtain ⟨m, hm⟩ := hg
  refine ⟨max n m, fun fuel hfuel => ?_⟩
  have hfirst := hn fuel ((Nat.le_max_left _ _).trans hfuel)
  have hsecond : g fuel a = some b := hm fuel ((Nat.le_max_right _ _).trans hfuel)
  simp only [hfirst, Option.bind_some, hsecond]

/-- A computation without loops. -/
theorem endsWith_some (a : α) : EndsWith (fun _ => some a) a := ⟨0, fun _ _ => rfl⟩

theorem not_endsWith_of_none {f : ℕ → Option α} (h : ∀ fuel, f fuel = none) (a : α) :
    ¬ EndsWith f a := by
  rintro ⟨n, hn⟩
  have hresult := (h n).symm.trans (hn n le_rfl)
  cases hresult

/-! ### Iterators that say whether they are valid -/

/-- The loop over an iterator. -/
def loop (valid : ι → Bool) (current : ι → α) (next : ι → ι) (body : Body α τ σ) :
    ℕ → ι → List τ → σ → Option σ
  | 0, _, _, _ => none
  | fuel + 1, it, slots, s =>
    if valid it then
      match slots with
      | [] => some s
      | slot :: slots =>
        match body (current it) slot slots s with
        | .done s => some s
        | .skip => loop valid current next body fuel (next it) (slot :: slots) s
        | .fill s => loop valid current next body fuel (next it) slots s
    else some s

/-- An iterator runs through lists: `rest it` is what is left from its position on. -/
structure Runs (valid : ι → Bool) (current : ι → α) (next : ι → ι) (rest : ι → List α) : Prop where
  valid_iff (it : ι) : valid it = true ↔ rest it ≠ []
  current_eq {it : ι} {a : α} {as : List α} : rest it = a :: as → current it = a
  next_eq {it : ι} {a : α} {as : List α} : rest it = a :: as → rest (next it) = as

theorem loop_eq_walk {valid : ι → Bool} {current : ι → α} {next : ι → ι} {rest : ι → List α}
    (h : Runs valid current next rest) (body : Body α τ σ) {it : ι} {fuel : ℕ}
    (hfuel : (rest it).length < fuel) (slots : List τ) (s : σ) :
    loop valid current next body fuel it slots s = some (walk body (rest it) slots s) := by
  induction fuel generalizing it slots s with
  | zero => omega
  | succ fuel ih =>
    unfold loop
    cases hrest : rest it with
    | nil =>
      rw [if_neg (fun hv => (h.valid_iff it).1 hv hrest)]
      rfl
    | cons a as =>
      rw [if_pos ((h.valid_iff it).2 (by simp [hrest])), h.current_eq hrest]
      cases slots with
      | nil => rfl
      | cons slot slots =>
        have hnext := h.next_eq hrest
        rw [hrest, List.length_cons] at hfuel
        have ih (slots : List τ) (s : σ) :
            loop valid current next body fuel (next it) slots s = some (walk body as slots s) := by
          rw [← hnext]
          exact ih (by rw [hnext]; omega) slots s
        rw [walk]
        dsimp only
        cases body a slot slots s with
        | done s => rfl
        | skip => exact ih (slot :: slots) s
        | fill s => exact ih slots s

end Cursor
