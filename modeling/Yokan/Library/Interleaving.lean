import Yokan.Library.Transition

/-!
# Calls that run in sections

Several calls share a state. Each call is a sequence of sections that run alone, for instance
because each of them holds a lock, and between two sections of a call the others may run theirs.
`next` runs the next section of a call, given its local variables `κ`; it has no result for a call
that has returned.

* `step`: a call comes in, or one of the calls runs its next section;
* `run_invariant`: a property that every section keeps, whatever the other calls are, holds along
  every run;
* `run_returned`: a call that has returned stays as it is;
* `run_abstract`: an abstraction of the shared state that every section respects takes runs to
  runs;
* `run_pair`: two calls, one of which does not move.
-/

open Transition

namespace Interleaving

variable {σ τ κ : Type*}

/-- The shared state, and the calls so far in the order in which they came in. -/
structure System (σ κ : Type*) where
  shared : σ
  calls : List κ

/-- The system with an abstraction of its shared state. -/
def System.map (f : σ → τ) (u : System σ κ) : System τ κ := ⟨f u.shared, u.calls⟩

/-- A call comes in, or call number `i` runs its next section. -/
inductive Event (κ : Type*)
  | start (call : κ)
  | next (i : ℕ)

/-- The event is a section of a call that is there. -/
def Event.IsNext : Event κ → Prop
  | start _ => False
  | next _ => True

instance (e : Event κ) : Decidable e.IsNext :=
  match e with
  | .start _ => isFalse id
  | .next _ => isTrue trivial

/-- One event. -/
def step (next : σ → κ → Option (σ × κ)) (u : System σ κ) : Event κ → Option (System σ κ)
  | .start call => some ⟨u.shared, u.calls ++ [call]⟩
  | .next i =>
    u.calls[i]?.bind fun call =>
      (next u.shared call).map fun r => ⟨r.1, u.calls.set i r.2⟩

variable {next : σ → κ → Option (σ × κ)} {u v : System σ κ} {es : List (Event κ)}

@[simp] theorem step_start (call : κ) :
    step next u (.start call) = some ⟨u.shared, u.calls ++ [call]⟩ := rfl

/-- The section of a call among others. -/
theorem step_next {before after : List κ} {call call' : κ} {s s' : σ}
    (h : next s call = some (s', call')) :
    step next ⟨s, before ++ call :: after⟩ (.next before.length) =
      some ⟨s', before ++ call' :: after⟩ := by
  simp [step, h]

/-- What an event is. -/
theorem step_cases {e : Event κ} (h : step next u e = some v) :
    (∃ call, e = .start call ∧ v = ⟨u.shared, u.calls ++ [call]⟩) ∨
    ∃ before call after s' call', e = .next before.length ∧ u.calls = before ++ call :: after ∧
      next u.shared call = some (s', call') ∧ v = ⟨s', before ++ call' :: after⟩ := by
  cases e with
  | start call => exact Or.inl ⟨call, rfl, (Option.some.inj h).symm⟩
  | next i =>
    obtain ⟨call, hcall, h⟩ := Option.bind_eq_some_iff.1 h
    obtain ⟨⟨s', call'⟩, hnext, rfl⟩ := Option.map_eq_some_iff.1 h
    obtain ⟨hi, rfl⟩ := List.getElem?_eq_some_iff.1 hcall
    obtain ⟨before, after, hcalls, hlen, hset⟩ : ∃ before after, u.calls = before ++ _ :: after ∧
        before.length = i ∧ u.calls.set i call' = before ++ call' :: after :=
      List.exists_of_set hi
    refine Or.inr ⟨before, u.calls[i], after, s', call', by rw [hlen], hcalls, hnext, ?_⟩
    rw [← hset]

/-- A property of the shared state and the calls that every event keeps. -/
theorem run_invariant {Ok : System σ κ → Event κ → Prop} {I : σ → List κ → Prop}
    (hstart : ∀ s calls call, Ok ⟨s, calls⟩ (.start call) → I s calls → I s (calls ++ [call]))
    (hnext : ∀ s before call after s' call', Ok ⟨s, before ++ call :: after⟩ (.next before.length) →
      next s call = some (s', call') → I s (before ++ call :: after) →
        I s' (before ++ call' :: after))
    (hrun : Run (StepOption (step next) Ok) u es v) (hu : I u.shared u.calls) :
    I v.shared v.calls := by
  refine hrun.invariant (I := fun u => I u.shared u.calls) ?_ hu
  rintro ⟨s, calls⟩ e t hI ⟨hok, hstep⟩
  rcases step_cases hstep with ⟨call, rfl, rfl⟩ | ⟨before, call, after, s', call', rfl, rfl, h, rfl⟩
  · exact hstart s calls call hok hI
  · exact hnext s before call after s' call' hok h hI

/-- A call that has returned stays as it is. -/
theorem step_returned {e : Event κ} {i : ℕ} {call : κ} (hend : ∀ s, next s call = none)
    (hcall : u.calls[i]? = some call) (h : step next u e = some v) : v.calls[i]? = some call := by
  obtain ⟨s, calls⟩ := u
  dsimp only at hcall
  rcases step_cases h with ⟨_, rfl, rfl⟩ | ⟨before, call', after, s', call'', rfl, rfl, hnext, rfl⟩
  · exact List.getElem?_append_left (List.getElem?_eq_some_iff.1 hcall).1 ▸ hcall
  · by_cases hi : i = before.length
    · subst hi
      rw [List.getElem?_append_right le_rfl, Nat.sub_self, List.getElem?_cons_zero] at hcall
      rw [Option.some.inj hcall, hend] at hnext
      cases hnext
    · simp only [List.getElem?_append, List.getElem?_cons] at hcall ⊢
      have hne : i < before.length ∨ i - before.length ≠ 0 := by omega
      rcases hne with hlt | hne
      · rwa [if_pos hlt] at hcall ⊢
      · rwa [if_neg hne] at hcall ⊢

theorem run_returned {Ok : System σ κ → Event κ → Prop} {i : ℕ} {call : κ}
    (hend : ∀ s, next s call = none) (hrun : Run (StepOption (step next) Ok) u es v)
    (hcall : u.calls[i]? = some call) : v.calls[i]? = some call :=
  hrun.invariant (I := fun u => u.calls[i]? = some call)
    (fun _ _ _ h hr => step_returned hend h hr.2) hcall

/-- A run, seen through an abstraction of the shared state. -/
theorem run_abstract {next' : τ → κ → Option (τ × κ)} {abs : σ → τ}
    {Ok : System τ κ → Event κ → Prop} {I : σ → List κ → Prop}
    (hstart : ∀ s calls call, Ok ⟨abs s, calls⟩ (.start call) → I s calls → I s (calls ++ [call]))
    (hnext : ∀ s before call after s' call', next s call = some (s', call') →
      I s (before ++ call :: after) →
        I s' (before ++ call' :: after) ∧ next' (abs s) call = some (abs s', call'))
    (hrun : Run (StepOption (step next) (fun u e => Ok (u.map abs) e)) u es v)
    (hu : I u.shared u.calls) :
    I v.shared v.calls ∧ Run (StepOption (step next') Ok) (u.map abs) es (v.map abs) := by
  induction hrun with
  | nil => exact ⟨hu, Run.nil _⟩
  | @snoc t _ _ e _ hr ih =>
    obtain ⟨hI, hrun⟩ := ih
    obtain ⟨s, calls⟩ := t
    obtain ⟨hok, hstep⟩ := hr
    rcases step_cases hstep with
      ⟨call, rfl, rfl⟩ | ⟨before, call, after, s', call', rfl, rfl, h, rfl⟩
    · exact ⟨hstart s calls call hok hI, hrun.snoc ⟨hok, rfl⟩⟩
    · obtain ⟨hI', h'⟩ := hnext s before call after s' call' h hI
      exact ⟨hI', hrun.snoc ⟨hok, step_next h'⟩⟩

/-! ### One call, and two calls -/

/-- The next `n` sections of a call that runs alone. -/
def sections (next : σ → κ → Option (σ × κ)) : ℕ → σ → κ → Option (σ × κ)
  | 0, s, call => some (s, call)
  | n + 1, s, call => (next s call).bind fun r => sections next n r.1 r.2

theorem sections_succ (n : ℕ) (s : σ) (call : κ) :
    sections next (n + 1) s call = (sections next n s call).bind fun r => next r.1 r.2 := by
  induction n generalizing s call with
  | zero =>
    show (next s call).bind (fun r => some (r.1, r.2)) = next s call
    cases next s call <;> rfl
  | succ n ih =>
    show (next s call).bind (fun r => sections next (n + 1) r.1 r.2) =
      ((next s call).bind fun r => sections next n r.1 r.2).bind _
    rw [Option.bind_assoc]
    simp only [ih]

/-- A call without a next section stays where it is. -/
theorem sections_of_none {n : ℕ} {s : σ} {call : κ} {r : σ × κ} (hnone : next s call = none)
    (h : sections next n s call = some r) : n = 0 ∧ r = (s, call) := by
  cases n with
  | zero => exact ⟨rfl, (Option.some.inj h).symm⟩
  | succ n =>
    rw [sections, hnone] at h
    cases h

/-- A section of one of two calls. -/
theorem step_pair {s : σ} {first second : κ} {i : ℕ}
    (h : step next ⟨s, [first, second]⟩ (.next i) = some v) :
    (∃ first', next s first = some (v.shared, first') ∧ v.calls = [first', second]) ∨
    ∃ second', next s second = some (v.shared, second') ∧ v.calls = [first, second'] := by
  obtain ⟨call, hcall, h⟩ := Option.bind_eq_some_iff.1 h
  obtain ⟨⟨s', call'⟩, hnext, rfl⟩ := Option.map_eq_some_iff.1 h
  match i with
  | 0 =>
    obtain rfl := Option.some.inj hcall
    exact Or.inl ⟨call', hnext, rfl⟩
  | 1 =>
    obtain rfl := Option.some.inj hcall
    exact Or.inr ⟨call', hnext, rfl⟩
  | i + 2 => cases hcall

/-- As long as the second of two calls is where it was, the first one runs alone. `Moved` is what
the second call turns into when it runs a section. -/
theorem run_pair (Moved : κ → Prop) {s : σ} {first second : κ}
    (hmoves : ∀ s s' call, next s second = some (s', call) → Moved call)
    (hmoved : ∀ s s' call call', Moved call → next s call = some (s', call') → Moved call')
    (hrun : Run (StepOption (step next) fun _ e => e.IsNext) ⟨s, [first, second]⟩ es v) :
    ∃ first' second', v.calls = [first', second'] ∧ (Moved second' ∨
      second' = second ∧ sections next es.length s first = some (v.shared, first')) := by
  induction hrun with
  | nil => exact ⟨first, second, rfl, Or.inr ⟨rfl, rfl⟩⟩
  | @snoc t w es e hrun hr ih =>
    obtain ⟨first', second', hcalls, hcase⟩ := ih
    obtain ⟨shared, calls⟩ := t
    dsimp only at hcalls hcase
    subst hcalls
    obtain ⟨hnext, hstep⟩ := hr
    cases e with
    | start call => exact hnext.elim
    | next i =>
    rcases step_pair hstep with ⟨call, hnext, hw⟩ | ⟨call, hnext, hw⟩
    · refine ⟨call, second', hw, hcase.imp id fun ⟨hsecond, hsections⟩ => ⟨hsecond, ?_⟩⟩
      rw [List.length_append, List.length_singleton, sections_succ, hsections]
      exact hnext
    · refine ⟨first', call, hw, Or.inl ?_⟩
      rcases hcase with hmoved' | ⟨rfl, -⟩
      · exact hmoved _ _ _ _ hmoved' hnext
      · exact hmoves _ _ _ hnext

end Interleaving
