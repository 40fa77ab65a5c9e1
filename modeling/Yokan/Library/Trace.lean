import Mathlib.Data.List.Basic

/-!
# Machines that answer

A machine is given inputs one after the other and answers each of them. `trace` is the list of its
answers to a list of inputs, with the state that it ends in. A relation between the states of two
machines, under which they give the same answer and go on to related states, makes their traces the
same (`trace_simulation`).
-/

namespace Trace

variable {σ τ ι ω : Type*}

/-- The answers of a machine to some inputs, and the state they leave it in. -/
def trace (step : σ → ι → ω × σ) : σ → List ι → List ω × σ
  | s, [] => ([], s)
  | s, i :: is =>
    let r := step s i
    let rest := trace step r.2 is
    (r.1 :: rest.1, rest.2)

/-- Two machines that give the same answers and stay related, on the inputs in `P`. -/
theorem trace_simulation {step : σ → ι → ω × σ} {step' : τ → ι → ω × τ} {rel : σ → τ → Prop}
    {P : ι → Prop}
    (hstep : ∀ s t i, P i → rel s t →
      (step s i).1 = (step' t i).1 ∧ rel (step s i).2 (step' t i).2)
    {s : σ} {t : τ} {is : List ι} (his : ∀ i ∈ is, P i) (h : rel s t) :
    (trace step s is).1 = (trace step' t is).1 ∧ rel (trace step s is).2 (trace step' t is).2 := by
  induction is generalizing s t with
  | nil => exact ⟨rfl, h⟩
  | cons i is ih =>
    obtain ⟨hi, his⟩ := List.forall_mem_cons.1 his
    obtain ⟨hanswer, hnext⟩ := hstep s t i hi h
    obtain ⟨hanswers, hend⟩ := ih his hnext
    exact ⟨congrArg₂ List.cons hanswer hanswers, hend⟩

end Trace
