import Mathlib.Tactic

/-!
# Programs that may stop with an error

`Ensures allowed x P` says of a program in `Except ε` that it ends with a result that satisfies `P`
or stops with one of the allowed errors. The rules follow the structure of a program: a result, a
sequence (`Ensures.bind`), a weaker conclusion (`Ensures.mono`).
-/

universe u

variable {ε : Type*} {α β : Type u} {allowed : ε → Prop}

/-- The program ends with a result in `P`, unless it stops with an allowed error. -/
def Ensures (allowed : ε → Prop) (x : Except ε α) (P : α → Prop) : Prop :=
  match x with
  | .ok a => P a
  | .error e => allowed e

namespace Ensures

@[simp] theorem ok_iff {a : α} {P : α → Prop} : Ensures allowed (.ok a) P ↔ P a := Iff.rfl

@[simp] theorem error_iff {e : ε} {P : α → Prop} :
    Ensures allowed (.error e : Except ε α) P ↔ allowed e := Iff.rfl

theorem mono {x : Except ε α} {P Q : α → Prop} (h : Ensures allowed x P) (hPQ : ∀ a, P a → Q a) :
    Ensures allowed x Q := by
  cases x with
  | ok a => exact hPQ a h
  | error e => exact h

/-- More errors are allowed. -/
theorem allow {allowed' : ε → Prop} {x : Except ε α} {P : α → Prop} (h : Ensures allowed x P)
    (hle : ∀ e, allowed e → allowed' e) : Ensures allowed' x P := by
  cases x with
  | ok a => exact h
  | error e => exact hle e h

/-- Two conclusions, one of them whatever the errors are. -/
theorem and {x : Except ε α} {P Q : α → Prop} (h : Ensures allowed x P)
    (h' : Ensures (fun _ => True) x Q) : Ensures allowed x (fun a => P a ∧ Q a) := by
  cases x with
  | ok a => exact ⟨h, h'⟩
  | error e => exact h

/-- A sequence: what the first program ensures is what the second may rely on. -/
theorem bind {x : Except ε α} {f : α → Except ε β} {P : α → Prop} {Q : β → Prop}
    (hx : Ensures allowed x P) (hf : ∀ a, P a → Ensures allowed (f a) Q) :
    Ensures allowed (x >>= f) Q := by
  cases x with
  | ok a => exact hf a hx
  | error e => exact hx

theorem of_eq_ok {x : Except ε α} {P : α → Prop} {a : α} (h : Ensures allowed x P)
    (hx : x = .ok a) : P a := by
  rw [hx] at h
  exact h

end Ensures
