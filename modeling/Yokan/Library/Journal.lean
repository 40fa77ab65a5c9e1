import Yokan.Library.Buffer
import Yokan.Library.PartialMap
import Yokan.Library.Trace

/-!
# Changes to a map that may stop half way

A batch of changes to a partial map is a list, applied from left to right. A machine that is asked
for batches and answers each of them may keep a batch whole or not at all, or a first part of it.

* `eachRecord_prefix`: a loop over records whose body makes one change, or stops and makes none,
  makes a first part of the changes, and all of them when it does not stop;
* `trace_whole`: after any run of a machine that keeps whole batches, the map is the result of the
  batches that it has acknowledged;
* `trace_parts`: a machine that keeps first parts, and all of the batches that it acknowledges;
* `trace_remains`: a machine of which it is said for each input what it may leave.
-/

namespace Journal

open Buffer PartialMap Trace

variable {κ ν σ ι ω α ρ : Type*} [DecidableEq κ]

/-! ### Changes -/

/-- A change to the entry of one key. -/
structure Change (κ ν : Type*) where
  key : κ
  rule : Option ν → Option ν

/-- The map after some changes, in order. -/
def apply (m : κ → Option ν) (cs : List (Change κ ν)) : κ → Option ν :=
  cs.foldl (fun m c => Function.update m c.key (c.rule (m c.key))) m

/-- The removal of a key. -/
def removal (key : κ) : Change κ ν := ⟨key, fun _ => none⟩

/-- The writing of a value, by a rule. -/
def writing (rule : Option ν → ν → Option ν) (p : κ × ν) : Change κ ν :=
  ⟨p.1, fun old => rule old p.2⟩

@[simp] theorem apply_nil (m : κ → Option ν) : apply m [] = m := rfl

theorem apply_append (m : κ → Option ν) (cs cs' : List (Change κ ν)) :
    apply m (cs ++ cs') = apply (apply m cs) cs' := List.foldl_append

/-- Removals erase. -/
theorem apply_removals (m : κ → Option ν) (ks : List κ) :
    apply m (ks.map removal) = eraseAll m ks := by
  unfold apply eraseAll
  rw [List.foldl_map]
  rfl

/-- Writings write. -/
theorem apply_writings (rule : Option ν → ν → Option ν) (m : κ → Option ν) (ps : List (κ × ν)) :
    apply m (ps.map (writing rule)) = writeAll rule m ps := by
  unfold apply writeAll
  rw [List.foldl_map]
  rfl

/-! ### Loops -/

/-- The body of a loop that makes the change of each record, or stops and leaves the map alone. -/
structure Changes (view : σ → κ → Option ν) (change : α → Change κ ν)
    (body : α → σ → Option ρ × σ) : Prop where
  goes (a : α) (s : σ) : (body a s).1 = none → view (body a s).2 = apply (view s) [change a]
  stops (a : α) (s : σ) : (body a s).1 ≠ none → view (body a s).2 = view s

/-- A loop makes a first part of the changes, and all of them when it does not stop. -/
theorem eachRecord_prefix {view : σ → κ → Option ν} {change : α → Change κ ν}
    {body : α → σ → Option ρ × σ} (h : Changes view change body) (as : List α) (s : σ) :
    let r := eachRecord body as s
    ∃ n, view r.2 = apply (view s) ((as.take n).map change) ∧ (r.1 = none → as.length ≤ n) := by
  induction as generalizing s with
  | nil => exact ⟨0, rfl, fun _ => le_rfl⟩
  | cons a as ih =>
    unfold eachRecord
    have hgoes := h.goes a s
    have hstops := h.stops a s
    rcases hbody : body a s with ⟨_ | result, s'⟩
    · rw [hbody] at hgoes
      obtain ⟨n, hview, hall⟩ := ih s'
      refine ⟨n + 1, ?_, fun hnone => Nat.succ_le_succ (hall hnone)⟩
      dsimp only at hview ⊢
      rw [hview, hgoes rfl, ← apply_append]
      rfl
    · rw [hbody] at hstops
      refine ⟨0, hstops (by simp), fun hnone => ?_⟩
      cases hnone

/-- A loop that does not stop has made all the changes, whatever a body that stops does. -/
theorem eachRecord_all {view : σ → κ → Option ν} {change : α → Change κ ν}
    {body : α → σ → Option ρ × σ}
    (hgoes : ∀ a s, (body a s).1 = none → view (body a s).2 = apply (view s) [change a])
    {as : List α} {s : σ} (h : (eachRecord body as s).1 = none) :
    view (eachRecord body as s).2 = apply (view s) (as.map change) := by
  induction as generalizing s with
  | nil => rfl
  | cons a as ih =>
    unfold eachRecord at h ⊢
    have hgo := hgoes a s
    rcases hbody : body a s with ⟨_ | result, s'⟩
    · rw [hbody] at h hgo
      dsimp only at h hgo ⊢
      rw [ih h, hgo rfl, ← apply_append]
      rfl
    · rw [hbody] at h
      cases h

/-! ### Runs -/

section Runs

variable {step : σ → ι → ω × σ} {view : σ → κ → Option ν} {changes : ι → List (Change κ ν)}
  {acknowledged : ω → Bool} {I : σ → Prop} {P : ι → Prop}

/-- The changes of the inputs whose answers acknowledge them. -/
def acknowledgedChanges (acknowledged : ω → Bool) (changes : ι → List (Change κ ν)) (is : List ι)
    (os : List ω) : List (Change κ ν) :=
  ((is.zip os).filter fun p => acknowledged p.2).flatMap fun p => changes p.1

/-- What may be left of a run: of each input a first part of its changes, and all of them if its
answer acknowledges it. -/
def Parts (acknowledged : ω → Bool) (changes : ι → List (Change κ ν)) (is : List ι) (os : List ω)
    (parts : List (List (Change κ ν))) : Prop :=
  List.Forall₂ (fun p part => part <+: changes p.1 ∧ (acknowledged p.2 → part = changes p.1))
    (is.zip os) parts

/-- A machine that makes the changes of an input all together when it acknowledges it, and none of
them otherwise, ends with the changes of the acknowledged inputs. -/
theorem trace_whole
    (hstep : ∀ s i, P i → I s → I (step s i).2 ∧ view (step s i).2 =
      if acknowledged (step s i).1 then apply (view s) (changes i) else view s)
    {s : σ} {is : List ι} (his : ∀ i ∈ is, P i) (h : I s) :
    let r := trace step s is
    view r.2 = apply (view s) (acknowledgedChanges acknowledged changes is r.1) := by
  induction is generalizing s with
  | nil => rfl
  | cons i is ih =>
    obtain ⟨hi, his⟩ := List.forall_mem_cons.1 his
    obtain ⟨hnext, hview⟩ := hstep s i hi h
    have hrest := ih his hnext
    dsimp only [trace, acknowledgedChanges, List.zip_cons_cons] at hrest ⊢
    rw [hrest, hview, List.filter_cons]
    split_ifs
    · rw [List.flatMap_cons, apply_append]
    · rfl

/-- What is left of a run, when `left` says what may be left of an input that has been answered. -/
def Remains (left : ι → ω → List (Change κ ν) → Prop) (is : List ι) (os : List ω)
    (parts : List (List (Change κ ν))) : Prop :=
  List.Forall₂ (fun p part => left p.1 p.2 part) (is.zip os) parts

/-- A machine that makes some changes for each input. -/
theorem trace_remains {left : ι → ω → List (Change κ ν) → Prop}
    (hstep : ∀ s i, P i → I s → I (step s i).2 ∧ ∃ part, left i (step s i).1 part ∧
      view (step s i).2 = apply (view s) part)
    {s : σ} {is : List ι} (his : ∀ i ∈ is, P i) (h : I s) :
    let r := trace step s is
    ∃ parts, Remains left is r.1 parts ∧ view r.2 = apply (view s) parts.flatten := by
  induction is generalizing s with
  | nil => exact ⟨[], List.Forall₂.nil, rfl⟩
  | cons i is ih =>
    obtain ⟨hi, his⟩ := List.forall_mem_cons.1 his
    obtain ⟨hnext, part, hpart, hview⟩ := hstep s i hi h
    obtain ⟨parts, hparts, hrest⟩ := ih his hnext
    refine ⟨part :: parts, List.Forall₂.cons hpart hparts, ?_⟩
    rw [List.flatten_cons, apply_append, ← hview]
    exact hrest

/-- A machine that makes a first part of the changes of each input, and all of them when it
acknowledges it. -/
theorem trace_parts
    (hstep : ∀ s i, P i → I s → I (step s i).2 ∧ ∃ part, part <+: changes i ∧
      (acknowledged (step s i).1 → part = changes i) ∧ view (step s i).2 = apply (view s) part)
    {s : σ} {is : List ι} (his : ∀ i ∈ is, P i) (h : I s) :
    let r := trace step s is
    ∃ parts, Parts acknowledged changes is r.1 parts ∧ view r.2 = apply (view s) parts.flatten := by
  have hleft : ∀ s i, P i → I s → I (step s i).2 ∧ ∃ part, (part <+: changes i ∧
      (acknowledged (step s i).1 → part = changes i)) ∧
      view (step s i).2 = apply (view s) part := by
    intro s i hi hs
    obtain ⟨hnext, part, hpart, hall, hview⟩ := hstep s i hi hs
    exact ⟨hnext, part, ⟨hpart, hall⟩, hview⟩
  exact @trace_remains κ ν _ _ _ _ step view I P (fun i o part => part <+: changes i ∧
    (acknowledged o → part = changes i)) hleft s is his h

end Runs

end Journal
