import Mathlib.Data.Set.Card
import Mathlib.Tactic

/-!
# Partial maps under batches of writes

A store of keys and values seen from outside is a function `κ → Option ν`. A batch of writes is
applied from left to right, so that a later write to a key meets the entry left by an earlier
one; what a single write leaves behind is given by a rule `Option ν → ν → Option ν` from the old
entry and the written value.

* `writeAll_apply`: the entry of one key is the rule folded over the values written to it;
* `writeAll_comap`: writes under an injective renaming of the keys;
* `support`, `population`: the keys present and their number, and how a batch changes them.
-/

namespace PartialMap

variable {κ ι ν : Type*} [DecidableEq κ] [DecidableEq ι]

/-! ### Batches -/

/-- The map after the writes of `ps`, in order. -/
def writeAll (rule : Option ν → ν → Option ν) (m : κ → Option ν) (ps : List (κ × ν)) :
    κ → Option ν :=
  ps.foldl (fun m p => Function.update m p.1 (rule (m p.1) p.2)) m

/-- The map without the keys of `ks`. -/
def eraseAll (m : κ → Option ν) (ks : List κ) : κ → Option ν :=
  ks.foldl (fun m k => Function.update m k none) m

@[simp] theorem writeAll_nil (rule : Option ν → ν → Option ν) (m : κ → Option ν) :
    writeAll rule m [] = m := rfl

@[simp] theorem writeAll_cons (rule : Option ν → ν → Option ν) (m : κ → Option ν) (p : κ × ν)
    (ps : List (κ × ν)) :
    writeAll rule m (p :: ps) = writeAll rule (Function.update m p.1 (rule (m p.1) p.2)) ps := rfl

/-- The entry of `k` after a batch: the rule folded over the values written to `k`. -/
theorem writeAll_apply (rule : Option ν → ν → Option ν) (m : κ → Option ν) (ps : List (κ × ν))
    (k : κ) :
    writeAll rule m ps k = ((ps.filter (fun p => p.1 = k)).map Prod.snd).foldl rule (m k) := by
  induction ps generalizing m with
  | nil => rfl
  | cons p ps ih =>
    rw [writeAll_cons, ih]
    by_cases h : p.1 = k
    · simp [h]
    · simp [h, Function.update_of_ne (Ne.symm h)]

theorem writeAll_of_notMem {rule : Option ν → ν → Option ν} {m : κ → Option ν}
    {ps : List (κ × ν)} {k : κ} (h : k ∉ ps.map Prod.fst) : writeAll rule m ps k = m k := by
  have hnil : ps.filter (fun p => p.1 = k) = [] := by
    rw [List.filter_eq_nil_iff]
    intro p hp
    simp only [decide_eq_true_eq]
    rintro rfl
    exact h (List.mem_map_of_mem hp)
  rw [writeAll_apply, hnil]
  rfl

/-- The entry of a key that is written once. -/
theorem writeAll_of_nodup (rule : Option ν → ν → Option ν) (m : κ → Option ν) {ps : List (κ × ν)}
    (h : (ps.map Prod.fst).Nodup) {p : κ × ν} (hp : p ∈ ps) :
    writeAll rule m ps p.1 = rule (m p.1) p.2 := by
  induction ps generalizing m with
  | nil => cases hp
  | cons q ps ih =>
    rw [List.map_cons, List.nodup_cons] at h
    rw [writeAll_cons]
    rcases List.mem_cons.1 hp with rfl | hmem
    · rw [writeAll_of_notMem h.1, Function.update_self]
    · have hne : p.1 ≠ q.1 := fun heq => h.1 (heq ▸ List.mem_map_of_mem hmem)
      rw [ih _ h.2 hmem, Function.update_of_ne hne]

/-- Writes to renamed keys, seen through the renaming. -/
theorem writeAll_comap {f : ι → κ} (hf : Function.Injective f) (rule : Option ν → ν → Option ν)
    (m : κ → Option ν) (ps : List (ι × ν)) :
    (fun i => writeAll rule m (ps.map (Prod.map f id)) (f i)) =
      writeAll rule (fun i => m (f i)) ps := by
  induction ps generalizing m with
  | nil => rfl
  | cons p ps ih =>
    simp only [List.map_cons, writeAll_cons, Prod.map_fst, Prod.map_snd, id_eq]
    rw [ih]
    congr 1
    funext i
    by_cases h : i = p.1
    · subst h; simp
    · rw [Function.update_of_ne h, Function.update_of_ne (fun he => h (hf he))]

@[simp] theorem eraseAll_nil (m : κ → Option ν) : eraseAll m [] = m := rfl

theorem eraseAll_append (m : κ → Option ν) (ks ks' : List κ) :
    eraseAll m (ks ++ ks') = eraseAll (eraseAll m ks) ks' := List.foldl_append

theorem eraseAll_apply (m : κ → Option ν) (ks : List κ) (k : κ) :
    eraseAll m ks k = if k ∈ ks then none else m k := by
  induction ks generalizing m with
  | nil => simp
  | cons k' ks ih =>
    show eraseAll (Function.update m k' none) ks k = _
    rw [ih]
    by_cases h : k = k'
    · subst h; simp
    · simp [h]

theorem eraseAll_comap {f : ι → κ} (hf : Function.Injective f) (m : κ → Option ν)
    (is : List ι) : (fun i => eraseAll m (is.map f) (f i)) = eraseAll (fun i => m (f i)) is := by
  funext i
  simp only [eraseAll_apply, List.mem_map, hf.eq_iff, exists_eq_right]

/-! ### The keys present -/

/-- The keys that hold a value. -/
def support (m : κ → Option ν) : Set κ := {k | (m k).isSome}

/-- The number of keys that hold a value. -/
noncomputable def population (m : κ → Option ν) : ℕ := (support m).ncard

omit [DecidableEq κ] in
@[simp] theorem mem_support {m : κ → Option ν} {k : κ} : k ∈ support m ↔ (m k).isSome := Iff.rfl

/-- A rule under which a written key is present afterwards. -/
def Filling (rule : Option ν → ν → Option ν) : Prop := ∀ o v, (rule o v).isSome

/-- A rule under which a write neither adds nor removes a key. -/
def Keeping (rule : Option ν → ν → Option ν) : Prop := ∀ o v, (rule o v).isSome = o.isSome

theorem isSome_foldl_filling {rule : Option ν → ν → Option ν} (h : Filling rule) (vs : List ν)
    (o : Option ν) : (vs.foldl rule o).isSome = (o.isSome || !vs.isEmpty) := by
  induction vs generalizing o with
  | nil => simp
  | cons v vs ih => simp [ih, h o v]

theorem isSome_foldl_keeping {rule : Option ν → ν → Option ν} (h : Keeping rule) (vs : List ν)
    (o : Option ν) : (vs.foldl rule o).isSome = o.isSome := by
  induction vs generalizing o with
  | nil => rfl
  | cons v vs ih => rw [List.foldl_cons, ih, h]

theorem support_writeAll_filling {rule : Option ν → ν → Option ν} (h : Filling rule)
    (m : κ → Option ν) (ps : List (κ × ν)) :
    support (writeAll rule m ps) = support m ∪ {k | k ∈ ps.map Prod.fst} := by
  ext k
  have hmem : (!((ps.filter (fun p => p.1 = k)).map Prod.snd).isEmpty) = true ↔
      k ∈ ps.map Prod.fst := by
    simp [List.filter_eq_nil_iff]
  rw [mem_support, writeAll_apply, isSome_foldl_filling h, Bool.or_eq_true, hmem]
  rfl

theorem support_writeAll_keeping {rule : Option ν → ν → Option ν} (h : Keeping rule)
    (m : κ → Option ν) (ps : List (κ × ν)) : support (writeAll rule m ps) = support m := by
  ext k
  rw [mem_support, writeAll_apply, isSome_foldl_keeping h]
  rfl

theorem support_eraseAll (m : κ → Option ν) (ks : List κ) :
    support (eraseAll m ks) = support m \ {k | k ∈ ks} := by
  ext k
  rw [mem_support, eraseAll_apply, Set.mem_sdiff, mem_support, Set.mem_ofPred_eq]
  split_ifs with h <;> simp [h]

section Counting

variable [Finite κ]

/-- The keys of a list that are absent from the map. -/
def absentIn (m : κ → Option ν) (ks : List κ) : List κ := ks.filter (fun k => (m k).isNone)

/-- The keys of a list that are present in the map. -/
def presentIn (m : κ → Option ν) (ks : List κ) : List κ := ks.filter (fun k => (m k).isSome)

omit [Finite κ] in
theorem ncard_setOf_mem (ks : List κ) : {k | k ∈ ks}.ncard = ks.dedup.length := by
  have h : {k | k ∈ ks} = (ks.toFinset : Set κ) := by ext k; simp
  rw [h, Set.ncard_coe_finset, List.card_toFinset]

/-- A filling batch adds each absent key of the batch once. -/
theorem population_writeAll_filling {rule : Option ν → ν → Option ν} (h : Filling rule)
    (m : κ → Option ν) (ps : List (κ × ν)) :
    population (writeAll rule m ps) =
      population m + (absentIn m (ps.map Prod.fst)).dedup.length := by
  have hsplit : support m ∪ {k | k ∈ ps.map Prod.fst} =
      support m ∪ {k | k ∈ absentIn m (ps.map Prod.fst)} := by
    ext k
    simp only [absentIn, Set.mem_union, mem_support, Set.mem_ofPred_eq, List.mem_filter]
    cases m k <;> simp
  have hdisj : Disjoint (support m) {k | k ∈ absentIn m (ps.map Prod.fst)} := by
    rw [Set.disjoint_left]
    intro k hk hk'
    have := (List.mem_filter.1 hk').2
    rw [mem_support] at hk
    cases hm : m k <;> simp [hm] at hk this
  unfold population
  rw [support_writeAll_filling h, hsplit, Set.ncard_union_eq hdisj (Set.toFinite _)
    (Set.toFinite _), ncard_setOf_mem]

/-- Erasing a batch removes each present key of the batch once. -/
theorem population_eraseAll (m : κ → Option ν) (ks : List κ) :
    population (eraseAll m ks) + (presentIn m ks).dedup.length = population m := by
  have hsplit : support m \ {k | k ∈ ks} = support m \ {k | k ∈ presentIn m ks} := by
    ext k
    simp only [presentIn, Set.mem_sdiff, mem_support, Set.mem_ofPred_eq, List.mem_filter]
    tauto
  have hsub : {k | k ∈ presentIn m ks} ⊆ support m := fun k hk => (List.mem_filter.1 hk).2
  unfold population
  rw [support_eraseAll, hsplit, ← ncard_setOf_mem, Set.ncard_sdiff_add_ncard_of_subset hsub
    (Set.toFinite _)]

end Counting

end PartialMap
