import Mathlib.Data.List.Dedup
import Mathlib.Tactic

/-!
# Last use

A history is a list of keys, oldest first. The age of a key counts what came since its last use, and
a list of keys is `ByAge` if it has the key that was used last in front. Moving each key that is
used to the front gives such a list (`recent`), and what a cache of `m` keys holds are the first `m`
keys of it: `take_recent_of_mem` and `take_recent_of_notMem` are what a hit and a miss do to them.
-/

namespace Recency

variable {κ : Type*} [DecidableEq κ]

/-- How long a key has not been used. -/
def age (history : List κ) (k : κ) : ℕ := history.reverse.idxOf k

/-- The keys in the order of their last use, from the last one back. -/
def ByAge (history l : List κ) : Prop := l.Pairwise fun a b => age history a < age history b

variable {history l : List κ} {k : κ} {m : ℕ}

theorem age_concat_self : age (history ++ [k]) k = 0 := by simp [age]

theorem age_concat_of_ne {k' : κ} (h : k' ≠ k) : age (history ++ [k]) k' = age history k' + 1 := by
  simp [age, List.idxOf_cons_ne _ h.symm]

/-- Another key is used. -/
theorem ByAge.concat (h : ByAge history l) (hk : k ∉ l) : ByAge (history ++ [k]) l := by
  have hne : ∀ a ∈ l, a ≠ k := fun a ha heq => hk (heq ▸ ha)
  refine (List.Pairwise.and_mem.1 h).imp fun hab => ?_
  rw [age_concat_of_ne (hne _ hab.1), age_concat_of_ne (hne _ hab.2.1)]
  exact Nat.succ_lt_succ hab.2.2

/-- A key is used and put in front. -/
theorem ByAge.cons (h : ByAge history l) (hk : k ∉ l) : ByAge (history ++ [k]) (k :: l) := by
  refine List.pairwise_cons.2 ⟨fun a ha => ?_, h.concat hk⟩
  have hne : a ≠ k := fun heq => hk (heq ▸ ha)
  rw [age_concat_self, age_concat_of_ne hne]
  exact Nat.succ_pos _

/-- The last key is the oldest one. -/
theorem ByAge.age_lt_last {init : List κ} (h : ByAge history (init ++ [k])) {a : κ}
    (ha : a ∈ init) : age history a < age history k :=
  (List.pairwise_append.1 h).2.2 a ha k (List.mem_singleton_self k)

/-- The keys of a history, the last one in front. -/
def recent (history : List κ) : List κ := history.foldl (fun l k => k :: l.erase k) []

theorem recent_concat : recent (history ++ [k]) = k :: (recent history).erase k := by
  simp [recent]

theorem nodup_recent (history : List κ) : (recent history).Nodup := by
  induction history using List.reverseRecOn with
  | nil => exact List.nodup_nil
  | append_singleton history k ih =>
    rw [recent_concat]
    exact List.nodup_cons.2 ⟨ih.not_mem_erase, ih.erase k⟩

theorem mem_recent {a : κ} : a ∈ recent history ↔ a ∈ history := by
  induction history using List.reverseRecOn with
  | nil => rfl
  | append_singleton history k ih =>
    rw [recent_concat, List.mem_cons, (nodup_recent history).mem_erase_iff, List.mem_append,
      List.mem_singleton, ih]
    tauto

theorem length_recent (history : List κ) : (recent history).length = history.dedup.length := by
  refine (List.perm_ext_iff_of_nodup (nodup_recent history) history.nodup_dedup).2 (fun a => ?_)
    |>.length_eq
  rw [mem_recent, List.mem_dedup]

theorem byAge_recent (history : List κ) : ByAge history (recent history) := by
  induction history using List.reverseRecOn with
  | nil => exact List.Pairwise.nil
  | append_singleton history k ih =>
    rw [recent_concat]
    have hrest : ByAge history ((recent history).erase k) := ih.sublist List.erase_sublist
    exact hrest.cons (nodup_recent history).not_mem_erase

/-- A hit: the key is moved to the front. -/
theorem take_recent_of_mem (hk : k ∈ (recent history).take m) :
    (recent (history ++ [k])).take m = k :: ((recent history).take m).erase k := by
  rw [recent_concat]
  obtain ⟨a, b, hl, hka⟩ := List.eq_append_cons_of_mem (List.mem_of_mem_take hk)
  have hlen : a.length < m := by
    by_contra hle
    rw [hl, List.take_append_of_le_length (by omega)] at hk
    exact hka (List.mem_of_mem_take hk)
  obtain ⟨n, rfl⟩ : ∃ n, m = a.length + 1 + n := ⟨m - a.length - 1, by omega⟩
  have herase : ∀ t, (a ++ k :: t).erase k = a ++ t := fun t => by
    rw [List.erase_append_right _ hka, List.erase_cons_head]
  have htake : (a ++ k :: b).take (a.length + 1 + n) = a ++ k :: b.take n := by
    rw [Nat.add_assoc, List.take_length_add_append, Nat.add_comm 1 n, List.take_succ_cons]
  rw [hl, htake, herase, herase, Nat.add_right_comm, List.take_succ_cons,
    List.take_length_add_append]

/-- A miss: the key is put in front, and the last key leaves a full cache. -/
theorem take_recent_of_notMem (hm : 0 < m) (hk : k ∉ (recent history).take m) :
    (recent (history ++ [k])).take m =
      k :: if m ≤ ((recent history).take m).length then ((recent history).take m).dropLast
        else (recent history).take m := by
  obtain ⟨n, rfl⟩ := Nat.exists_eq_succ_of_ne_zero (Nat.pos_iff_ne_zero.1 hm)
  have herase : ((recent history).erase k).take n = (recent history).take n := by
    by_cases hmem : k ∈ recent history
    · obtain ⟨a, b, hl, hka⟩ := List.eq_append_cons_of_mem hmem
      have hlen : n < a.length := by
        by_contra hle
        apply hk
        rw [hl, List.take_append, List.mem_append]
        right
        rw [show n.succ - a.length = n - a.length + 1 by omega, List.take_succ_cons]
        exact List.mem_cons_self
      rw [hl, List.erase_append_right _ hka, List.erase_cons_head,
        List.take_append_of_le_length hlen.le, List.take_append_of_le_length hlen.le]
    · rw [List.erase_of_not_mem hmem]
  rw [recent_concat, List.take_succ_cons, herase]
  split_ifs with hfull
  · rw [List.length_take] at hfull
    have hlen : ((recent history).take n.succ).length - 1 = n := by
      rw [List.length_take]
      omega
    rw [List.dropLast_eq_take, hlen, List.take_take, Nat.min_eq_left (Nat.le_succ n)]
  · rw [List.length_take] at hfull
    rw [List.take_of_length_le (by omega), List.take_of_length_le (by omega)]

end Recency
