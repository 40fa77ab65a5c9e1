import Mathlib.Logic.Relation
import Mathlib.Tactic

/-!
# Runs of a labelled transition relation

`Run R s as t` says that the labels `as`, taken in order, lead from `s` to `t`. An invariant is
proved once for a step and then holds along every run (`Run.invariant`); a relation between the
states of two systems that every step keeps relates the ends of their runs (`Run.simulation`).
Runs of a function on concrete states are computed by `follow`, and `run_guarded_iff` compares the
runs that pass a guard at each step with those that keep a property.
-/

namespace Transition

variable {σ τ α ω : Type*}

/-- A run of the relation `R` from one state to another, with its labels. -/
inductive Run (R : σ → α → σ → Prop) : σ → List α → σ → Prop
  | nil (s : σ) : Run R s [] s
  | snoc {s t u : σ} {as : List α} {a : α} : Run R s as t → R t a u → Run R s (as ++ [a]) u

/-- The steps of a function that may have no result. -/
def StepOption (step : σ → α → Option σ) (Ok : σ → α → Prop) : σ → α → σ → Prop :=
  fun s a t => Ok s a ∧ step s a = some t

variable {R : σ → α → σ → Prop}

/-- Take the steps of a function, as long as they are permitted. -/
def follow (step : σ → α → Option σ) (Ok : σ → α → Prop) [∀ s a, Decidable (Ok s a)] :
    σ → List α → Option σ
  | s, [] => some s
  | s, a :: as => if Ok s a then (step s a).bind fun t => follow step Ok t as else none

/-- A run after a run. -/
theorem Run.append {s t u : σ} {as bs : List α} (hrun : Run R s as t) (hrun' : Run R t bs u) :
    Run R s (as ++ bs) u := by
  induction hrun' with
  | nil => rwa [List.append_nil]
  | snoc _ hr ih =>
    rw [← List.append_assoc]
    exact Run.snoc ih hr

/-- A step before a run. -/
theorem Run.cons {s t u : σ} {a : α} {as : List α} (hr : R s a t) (hrun : Run R t as u) :
    Run R s (a :: as) u := (Run.snoc (Run.nil s) hr).append hrun

/-- Every step of one relation is a step of the other. -/
theorem Run.mono {R' : σ → α → σ → Prop} (h : ∀ s a t, R s a t → R' s a t) {s t : σ} {as : List α}
    (hrun : Run R s as t) : Run R' s as t := by
  induction hrun with
  | nil => exact Run.nil _
  | snoc _ hr ih => exact ih.snoc (h _ _ _ hr)

section Follow

variable {step : σ → α → Option σ} {Ok : σ → α → Prop} [∀ s a, Decidable (Ok s a)]

theorem follow_append (s : σ) (as bs : List α) :
    follow step Ok s (as ++ bs) = (follow step Ok s as).bind fun t => follow step Ok t bs := by
  induction as generalizing s with
  | nil => rfl
  | cons a as ih =>
    simp only [List.cons_append, follow]
    split_ifs
    · simp only [ih, Option.bind_assoc]
    · rfl

/-- The steps that `follow` takes are the run. -/
theorem run_iff_follow {s t : σ} {as : List α} :
    Run (StepOption step Ok) s as t ↔ follow step Ok s as = some t := by
  constructor
  · intro hrun
    induction hrun with
    | nil => rfl
    | snoc _ hr ih =>
      rw [follow_append, ih]
      simp [follow, hr.1, hr.2]
  · intro h
    induction as generalizing s with
    | nil =>
      obtain rfl := Option.some.inj h
      exact Run.nil s
    | cons a as ih =>
      unfold follow at h
      split_ifs at h with hok
      obtain ⟨u, hstep, hrest⟩ := Option.bind_eq_some_iff.1 h
      exact (ih hrest).cons ⟨hok, hstep⟩

end Follow

/-- `P` holds in every state of a run with the labels `as`. -/
def Throughout (R : σ → α → σ → Prop) (P : σ → Prop) (s : σ) (as : List α) : Prop :=
  ∀ bs cs t, as = bs ++ cs → Run R s bs t → P t

/-- What holds at the start and is kept by every step holds at the end of a run. -/
theorem Run.invariant {I : σ → Prop} (hstep : ∀ s a t, I s → R s a t → I t) {s t : σ}
    {as : List α} (hrun : Run R s as t) (hs : I s) : I t := by
  induction hrun with
  | nil => exact hs
  | snoc _ hr ih => exact hstep _ _ _ ih hr

/-- A run without labels stays where it is. -/
theorem Run.eq_of_nil {s t : σ} (hrun : Run R s [] t) : t = s := by
  generalize has : ([] : List α) = as at hrun
  cases hrun with
  | nil => rfl
  | snoc => simp at has

/-- The last step of a run. -/
theorem Run.last {s u : σ} {as : List α} {a : α} (hrun : Run R s (as ++ [a]) u) :
    ∃ t, Run R s as t ∧ R t a u := by
  generalize hbs : as ++ [a] = bs at hrun
  cases hrun with
  | nil => simp at hbs
  | snoc hrun hr =>
    obtain ⟨rfl, hab⟩ := List.append_inj' hbs rfl
    obtain rfl := List.cons.inj hab |>.1
    exact ⟨_, hrun, hr⟩

/-- The steps of a function lead to one state. -/
theorem Run.unique {step : σ → α → Option σ} {Ok : σ → α → Prop} {s t u : σ} {as : List α}
    (hrun : Run (StepOption step Ok) s as t) (hrun' : Run (StepOption step Ok) s as u) : t = u := by
  classical
  rw [run_iff_follow] at hrun hrun'
  exact Option.some.inj (hrun.symm.trans hrun')

/-- When a guard at each step is what keeps `P`, the guarded runs are those in which `P` holds
throughout. -/
theorem run_guarded_iff {step : σ → α → Option σ} {Ok Guard : σ → α → Prop} {I P : σ → Prop}
    (hinv : ∀ s a t, I s → StepOption step Ok s a t → I t)
    (hguard : ∀ s a t, I s → P s → StepOption step Ok s a t → (Guard s a ↔ P t)) {s t : σ}
    {as : List α} (hI : I s) (hP : P s) (hrun : Run (StepOption step Ok) s as t) :
    Run (StepOption step fun s a => Ok s a ∧ Guard s a) s as t ↔
      Throughout (StepOption step Ok) P s as := by
  induction hrun with
  | nil =>
    refine ⟨fun _ bs cs t hnil hrun => ?_, fun _ => Run.nil s⟩
    obtain ⟨rfl, -⟩ := List.append_eq_nil_iff.1 hnil.symm
    rwa [← (Run.nil s).unique hrun]
  | @snoc t u as a hrun hr ih =>
    have hstep := hguard t a u (hrun.invariant hinv hI)
    constructor
    · intro hguarded bs cs w happend hrun'
      obtain ⟨t', hguarded, ⟨-, hg⟩, -⟩ := hguarded.last
      obtain rfl : t' = t :=
        (hguarded.mono fun _ _ _ h => ⟨h.1.1, h.2⟩).unique hrun
      have hbefore := ih.1 hguarded
      rcases List.eq_nil_or_concat cs with rfl | ⟨cs, b, rfl⟩
      · rw [List.append_nil] at happend
        subst happend
        rw [← (hrun.snoc hr).unique hrun']
        exact (hstep (hbefore as [] t' (by simp) hrun) hr).1 hg
      · rw [List.concat_eq_append, ← List.append_assoc] at happend
        exact hbefore bs cs w (List.append_inj' happend rfl).1 hrun'
    · intro hall
      have hbefore : Throughout (StepOption step Ok) P s as := fun bs cs w happend =>
        hall bs (cs ++ [a]) w (by rw [happend, List.append_assoc])
      have hg := (hstep (hbefore as [] t (by simp) hrun) hr).2
        (hall (as ++ [a]) [] u (by simp) (hrun.snoc hr))
      exact (ih.2 hbefore).snoc ⟨⟨hr.1, hg⟩, hr.2⟩

theorem Throughout.last {P : σ → Prop} {s t : σ} {as : List α} (hP : Throughout R P s as)
    (hrun : Run R s as t) : P t := hP as [] t (List.append_nil as).symm hrun

theorem Throughout.of_append {P : σ → Prop} {s : σ} {as bs : List α}
    (hP : Throughout R P s (as ++ bs)) : Throughout R P s as :=
  fun cs ds t happend => hP cs (ds ++ bs) t (by rw [happend, List.append_assoc])

/-- An invariant that the steps keep as long as `P` holds. -/
theorem Run.invariant_throughout {I P : σ → Prop}
    (hstep : ∀ s a t, P s → I s → R s a t → I t) {s t : σ} {as : List α} (hrun : Run R s as t)
    (hP : Throughout R P s as) (hs : I s) : I t := by
  induction hrun with
  | nil => exact hs
  | snoc hrun hr ih => exact hstep _ _ _ (hP.of_append.last hrun) (ih hP.of_append) hr

/-- Where every step without a bad label keeps an invariant and has a good label, and no bad label is
good, the runs with good labels are those without a bad one, and they keep the invariant. -/
theorem Run.labels_iff {I : σ → Prop} {G B : α → Prop}
    (hgood : ∀ s a t, I s → R s a t → ¬ B a → I t ∧ G a)
    (hbad : ∀ s a t, I s → R s a t → B a → ¬ G a) {s t : σ} {as : List α}
    (hrun : Run R s as t) (hs : I s) :
    ((∀ a ∈ as, G a) ↔ ∀ a ∈ as, ¬ B a) ∧ ((∀ a ∈ as, ¬ B a) → I t) := by
  induction hrun with
  | nil => exact ⟨by simp, fun _ => hs⟩
  | @snoc t u as a _ hr ih =>
    obtain ⟨hiff, hkeep⟩ := ih
    simp only [List.forall_mem_append, List.forall_mem_singleton]
    refine ⟨⟨fun ⟨hall, ha⟩ => ?_, fun ⟨hall, ha⟩ => ?_⟩, fun ⟨hall, ha⟩ => ?_⟩
    · exact ⟨hiff.1 hall, fun hb => hbad _ _ _ (hkeep (hiff.1 hall)) hr hb ha⟩
    · exact ⟨hiff.2 hall, (hgood _ _ _ (hkeep hall) hr ha).2⟩
    · exact (hgood _ _ _ (hkeep hall) hr ha).1

/-- A relation kept by every step relates the two ends of runs with the same labels. -/
theorem Run.simulation {Q : τ → α → τ} {rel : σ → τ → Prop}
    (hstep : ∀ s a t q, rel s q → R s a t → rel t (Q q a)) {s t : σ} {as : List α}
    (hrun : Run R s as t) {q : τ} (hs : rel s q) : rel t (as.foldl Q q) := by
  induction hrun with
  | nil => exact hs
  | snoc _ hr ih =>
    rw [List.foldl_append]
    exact hstep _ _ _ _ ih hr

end Transition
