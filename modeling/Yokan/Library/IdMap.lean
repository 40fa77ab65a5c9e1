import Yokan.Library.PartialMap

/-!
# Values under increasing ids

A store that hands out ids in increasing order is a partial map on `ℕ` with the next id. Values
can be appended under the next ids, written under any id, which moves the next id past it, and
erased, which does not give the id back.

* `docs_write`, `docs_write_listed`: after a batch every id holds the last value listed for it;
* `write_reach`, `write_partition`: batches written after their ids exist, and in two passes;
* `Fresh`, `fresh_put`, `fresh_erase`: no value at or above the next id.
-/

open PartialMap

/-- The next id, and the values under ids. -/
@[ext] structure IdMap (ν : Type*) where
  next : ℕ
  docs : ℕ → Option ν

namespace IdMap

variable {ν : Type*}

/-- No id handed out, no value. -/
def empty : IdMap ν := ⟨0, fun _ => none⟩

/-- Move the next id past `id`. -/
def reach (m : IdMap ν) (id : ℕ) : IdMap ν := { m with next := max m.next (id + 1) }

/-- Write a value under an id. -/
def put (m : IdMap ν) (id : ℕ) (v : ν) : IdMap ν :=
  ⟨max m.next (id + 1), Function.update m.docs id (some v)⟩

/-- Write a batch, from left to right. -/
def write (m : IdMap ν) (ps : List (ℕ × ν)) : IdMap ν := ps.foldl (fun m p => m.put p.1 p.2) m

/-- Write a batch under the next ids. -/
def append (m : IdMap ν) (vs : List ν) : IdMap ν := vs.foldl (fun m v => m.put m.next v) m

/-- Erase the values under some ids. -/
def erase (m : IdMap ν) (ids : List ℕ) : IdMap ν := { m with docs := eraseAll m.docs ids }

/-- No value at or above the next id. -/
def Fresh (m : IdMap ν) : Prop := ∀ id, m.next ≤ id → m.docs id = none

@[simp] theorem next_put (m : IdMap ν) (id : ℕ) (v : ν) : (m.put id v).next = max m.next (id + 1) :=
  rfl

@[simp] theorem docs_put (m : IdMap ν) (id : ℕ) (v : ν) :
    (m.put id v).docs = Function.update m.docs id (some v) := rfl

@[simp] theorem next_reach (m : IdMap ν) (id : ℕ) : (m.reach id).next = max m.next (id + 1) := rfl

@[simp] theorem docs_reach (m : IdMap ν) (id : ℕ) : (m.reach id).docs = m.docs := rfl

@[simp] theorem next_erase (m : IdMap ν) (ids : List ℕ) : (m.erase ids).next = m.next := rfl

@[simp] theorem docs_erase (m : IdMap ν) (ids : List ℕ) :
    (m.erase ids).docs = eraseAll m.docs ids := rfl

theorem put_reach (m : IdMap ν) (id : ℕ) (v : ν) : (m.reach id).put id v = m.put id v := by
  simp [reach, put]

/-- Every id of a batch holds the last value written to it, and every other id what it held. -/
theorem docs_write (m : IdMap ν) (ps : List (ℕ × ν)) :
    (m.write ps).docs = writeAll (fun _ v => some v) m.docs ps := by
  induction ps generalizing m with
  | nil => rfl
  | cons p ps ih => exact ih (m.put p.1 p.2)

theorem write_write (m : IdMap ν) (ps qs : List (ℕ × ν)) :
    (m.write ps).write qs = m.write (ps ++ qs) := List.foldl_append.symm

theorem next_append (m : IdMap ν) (vs : List ν) : (m.append vs).next = m.next + vs.length := by
  induction vs generalizing m with
  | nil => rfl
  | cons v vs ih =>
    show ((m.put m.next v).append vs).next = _
    rw [ih, List.length_cons]
    simp only [put]
    omega

/-- Appending is writing under the next ids. -/
theorem append_eq_write (m : IdMap ν) (vs : List ν) :
    m.append vs = m.write ((List.range' m.next vs.length).zip vs) := by
  induction vs generalizing m with
  | nil => rfl
  | cons v vs ih =>
    have hnext : (m.put m.next v).next = m.next + 1 := by simp [put]
    show (m.put m.next v).append vs = _
    rw [ih, hnext]
    rfl

/-- Appending leaves what has an id alone. -/
theorem docs_append_of_lt {m : IdMap ν} {id : ℕ} (h : id < m.next) (vs : List ν) :
    (m.append vs).docs id = m.docs id := by
  induction vs generalizing m with
  | nil => rfl
  | cons v vs ih =>
    have hdocs : (m.put m.next v).docs id = m.docs id := Function.update_of_ne (Nat.ne_of_lt h) _ _
    show ((m.put m.next v).append vs).docs id = _
    rw [ih (Nat.lt_of_lt_of_le h (le_max_left _ _)), hdocs]

/-- The values appended are under the next ids, in order. -/
theorem docs_append_next {vs : List ν} {i : ℕ} {v : ν} (hi : vs[i]? = some v) (m : IdMap ν) :
    (m.append vs).docs (m.next + i) = some v := by
  induction vs generalizing m i with
  | nil => cases hi
  | cons w vs ih =>
    have hnext : (m.put m.next w).next = m.next + 1 := max_eq_right (Nat.le_succ _)
    show ((m.put m.next w).append vs).docs _ = _
    cases i with
    | zero =>
      obtain rfl := Option.some.inj hi
      rw [docs_append_of_lt (by rw [hnext]; exact Nat.lt_succ_self _)]
      exact Function.update_self ..
    | succ i =>
      rw [show m.next + (i + 1) = (m.put m.next w).next + i by omega]
      exact ih hi _

theorem fresh_put {m : IdMap ν} (h : m.Fresh) (id : ℕ) (v : ν) : (m.put id v).Fresh := by
  intro id' hid'
  simp only [put] at hid' ⊢
  rw [Function.update_of_ne (by omega)]
  exact h id' (by omega)

theorem fresh_erase {m : IdMap ν} (h : m.Fresh) (ids : List ℕ) : (m.erase ids).Fresh := by
  intro id hid
  simp only [erase, eraseAll_apply]
  split_ifs
  · rfl
  · exact h id hid

/-! ### Batches in several passes -/

/-- The values of a batch for one id, in order. -/
def listed (id : ℕ) (ps : List (ℕ × ν)) : List ν := (ps.filter (fun p => p.1 = id)).map Prod.snd

theorem mem_listed {id : ℕ} {v : ν} {ps : List (ℕ × ν)} : v ∈ listed id ps ↔ (id, v) ∈ ps := by
  simp [listed]

/-- The values for an id among those that pass a test. -/
theorem listed_filter (pass : ℕ × ν → Bool) (id : ℕ) (ps : List (ℕ × ν)) :
    listed id (ps.filter pass) = (listed id ps).filter (fun v => pass (id, v)) := by
  unfold listed
  rw [List.filter_filter, List.filter_map, List.filter_filter]
  congr 1
  refine List.filter_congr fun p _ => ?_
  by_cases hp : p.1 = id
  · subst hp
    simp
  · simp [hp]

theorem docs_write_listed (m : IdMap ν) (ps : List (ℕ × ν)) (id : ℕ) :
    (m.write ps).docs id = (listed id ps).getLast?.or (m.docs id) := by
  rw [docs_write, writeAll_apply]
  show (listed id ps).foldl _ _ = _
  induction listed id ps using List.reverseRecOn with
  | nil => rfl
  | append_singleton vs v _ => simp

theorem next_write_of_lt {m : IdMap ν} {ps : List (ℕ × ν)} (h : ∀ p ∈ ps, p.1 < m.next) :
    (m.write ps).next = m.next := by
  induction ps generalizing m with
  | nil => rfl
  | cons p ps ih =>
    have hnext : (m.put p.1 p.2).next = m.next := max_eq_left (h p List.mem_cons_self)
    show ((m.put p.1 p.2).write ps).next = _
    rw [ih (by rw [hnext]; exact fun q hq => h q (List.mem_cons_of_mem _ hq)), hnext]

/-- An id of the batch may be reached first. -/
theorem write_reach {id : ℕ} {ps : List (ℕ × ν)} (h : id ∈ ps.map Prod.fst) (m : IdMap ν) :
    (m.reach id).write ps = m.write ps := by
  induction ps generalizing m with
  | nil => cases h
  | cons p ps ih =>
    show ((m.reach id).put p.1 p.2).write ps = (m.put p.1 p.2).write ps
    rcases List.mem_cons.1 h with rfl | hmem
    · rw [put_reach]
    · have hcomm : (m.reach id).put p.1 p.2 = (m.put p.1 p.2).reach id := by
        simp [reach, put, max_right_comm]
      rw [hcomm, ih hmem]

/-- A batch written in two passes: for each id, the last value is written by the second pass, or
all values by the first one. -/
theorem write_partition {m : IdMap ν} {ps : List (ℕ × ν)} (first second : ℕ × ν → Bool)
    (hlt : ∀ p ∈ ps, p.1 < m.next)
    (h : ∀ id v, (listed id ps).getLast? = some v → second (id, v) = true ∨
      ∀ w ∈ listed id ps, first (id, w) = true ∧ second (id, w) = false) :
    (m.write (ps.filter first)).write (ps.filter second) = m.write ps := by
  have hlast : ∀ id, (listed id (ps.filter first ++ ps.filter second)).getLast? =
      (listed id ps).getLast? := by
    intro id
    have happend : listed id (ps.filter first ++ ps.filter second) =
        listed id (ps.filter first) ++ listed id (ps.filter second) := by
      simp [listed]
    have hid := h id
    rw [happend, listed_filter, listed_filter]
    generalize listed id ps = vs at hid
    induction vs using List.reverseRecOn with
    | nil => rfl
    | append_singleton vs v _ =>
      rw [List.getLast?_concat] at hid ⊢
      rcases hid v rfl with hsecond | hfirst
      · simp [hsecond]
      · have hnone : (vs ++ [v]).filter (fun v => second (id, v)) = [] :=
          List.filter_eq_nil_iff.2 fun w hw => by simp [(hfirst w hw).2]
        have hall : (vs ++ [v]).filter (fun v => first (id, v)) = vs ++ [v] :=
          List.filter_eq_self.2 fun w hw => (hfirst w hw).1
        rw [hnone, hall, List.append_nil, List.getLast?_concat]
  have hmem : ∀ p ∈ ps.filter first ++ ps.filter second, p.1 < m.next := by
    intro p hp
    rcases List.mem_append.1 hp with hp | hp
    · exact hlt p (List.mem_filter.1 hp).1
    · exact hlt p (List.mem_filter.1 hp).1
  rw [write_write]
  refine IdMap.ext ((next_write_of_lt hmem).trans (next_write_of_lt hlt).symm) ?_
  funext id
  rw [docs_write_listed, docs_write_listed, hlast]

end IdMap
