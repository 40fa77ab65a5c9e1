import Mathlib.Data.List.Nodup
import Mathlib.Logic.Function.Basic

/-!
# Linked lists whose nodes are known to an index

A linked list whose nodes keep their identity when they are moved, so that iterators can point at
them: a node is inserted at the front, moved to the front, erased, or removed at the back. An index
maps the keys of the values to iterators.

* `Linked`: list and index have the same keys, without repetition, and each iterator of the index
  points at the node of its key;
* `Linked.emplaceFront`, `Linked.splice`, `Linked.erase`, `Linked.popBack`: the list and the index
  are changed together.
-/

variable {α κ : Type*}

/-- Nodes with their values, from front to back, and a bound on their identities. -/
structure NodeList (α : Type*) where
  nodes : List (ℕ × α)
  fresh : ℕ

namespace NodeList

def empty : NodeList α := ⟨[], 0⟩

def values (l : NodeList α) : List α := l.nodes.map Prod.snd

/-- The value an iterator points at. -/
def get? (l : NodeList α) (it : ℕ) : Option α := l.nodes.lookup it

/-- `begin()`. -/
def begin? (l : NodeList α) : Option ℕ := l.nodes.head?.map Prod.fst

/-- `back()`. -/
def back? (l : NodeList α) : Option α := l.values.getLast?

/-- `emplace_front(v)`, as a new node. -/
def emplaceFront (l : NodeList α) (v : α) : NodeList α := ⟨(l.fresh, v) :: l.nodes, l.fresh + 1⟩

/-- `erase(it)`. -/
def erase (l : NodeList α) (it : ℕ) : NodeList α :=
  { l with nodes := l.nodes.filter fun e => e.1 ≠ it }

/-- `splice(begin(), *this, it)`: the node is moved to the front. -/
def splice (l : NodeList α) (it : ℕ) : NodeList α :=
  match l.get? it with
  | some v => ⟨(it, v) :: (l.erase it).nodes, l.fresh⟩
  | none => l

/-- `*it = v`. -/
def set (l : NodeList α) (it : ℕ) (v : α) : NodeList α :=
  { l with nodes := l.nodes.map fun e => if e.1 = it then (it, v) else e }

/-- `pop_back()`. -/
def popBack (l : NodeList α) : NodeList α := { l with nodes := l.nodes.dropLast }

@[simp] theorem values_emplaceFront (l : NodeList α) (v : α) :
    (l.emplaceFront v).values = v :: l.values := rfl

@[simp] theorem values_popBack (l : NodeList α) : l.popBack.values = l.values.dropLast :=
  List.map_dropLast

/-- Without the node of an iterator. -/
theorem erase_of_split {l : NodeList α} (hids : (l.nodes.map Prod.fst).Nodup) {it : ℕ} {v : α}
    {front rest : List (ℕ × α)} (hnodes : l.nodes = front ++ (it, v) :: rest) :
    (l.erase it).nodes = front ++ rest := by
  have hperm : (front ++ (it, v) :: rest).Perm ((it, v) :: (front ++ rest)) := List.perm_middle
  rw [hnodes, (hperm.map _).nodup_iff, List.map_cons, List.nodup_cons] at hids
  have hself : ∀ es : List (ℕ × α), (∀ e ∈ es, e ∈ front ++ rest) →
      es.filter (fun e => e.1 ≠ it) = es := fun es hes =>
    List.filter_eq_self.2 fun e he =>
      decide_eq_true fun heq => hids.1 (List.mem_map.2 ⟨e, hes e he, heq⟩)
  rw [erase, hnodes, List.filter_append, List.filter_cons, if_neg (by simp),
    hself front fun e he => List.mem_append_left _ he,
    hself rest fun e he => List.mem_append_right _ he]

/-- The last node is removed. -/
theorem nodes_of_back? {l : NodeList α} {v : α} (h : l.back? = some v) :
    ∃ it, l.nodes = l.popBack.nodes ++ [(it, v)] := by
  obtain ⟨init, hvalues⟩ := List.getLast?_eq_some_iff.1 h
  obtain ⟨front, last, hnodes, -, hlast⟩ := List.map_eq_append_iff.1 hvalues
  obtain ⟨e, rfl, rfl⟩ := List.map_eq_singleton_iff.1 hlast
  exact ⟨e.1, by rw [popBack, hnodes, List.dropLast_concat]⟩

/-- List and index belong together. -/
structure Linked (key : α → κ) (l : NodeList α) (index : κ → Option ℕ) : Prop where
  fresh : ∀ e ∈ l.nodes, e.1 < l.fresh
  nodes : (l.nodes.map Prod.fst).Nodup
  keys : (l.values.map key).Nodup
  index : ∀ k it, index k = some it ↔ ∃ v, (it, v) ∈ l.nodes ∧ key v = k

theorem linked_empty (key : α → κ) : Linked key empty fun _ => none where
  fresh := by simp [empty]
  nodes := by simp [empty]
  keys := by simp [empty, values]
  index := by simp [empty]

namespace Linked

variable {key : α → κ} {l : NodeList α} {index : κ → Option ℕ} {k : κ} {it : ℕ} {v : α}
  {front rest : List (ℕ × α)}

/-- A key is in the index if it is in the list. -/
theorem isSome_iff (h : Linked key l index) : (index k).isSome = true ↔ k ∈ l.values.map key := by
  rw [Option.isSome_iff_exists]
  simp only [h.index, values, List.map_map, List.mem_map, Function.comp_apply]
  constructor
  · rintro ⟨it, v, hmem, hkey⟩
    exact ⟨(it, v), hmem, hkey⟩
  · rintro ⟨⟨it, v⟩, hmem, hkey⟩
    exact ⟨it, v, hmem, hkey⟩

theorem eq_none_iff (h : Linked key l index) : index k = none ↔ k ∉ l.values.map key := by
  rw [← h.isSome_iff, Bool.not_eq_true, Option.isSome_eq_false_iff, Option.isNone_iff_eq_none]

/-- The other nodes have other identities and other keys. -/
theorem ne_of_split (h : Linked key l index) (hnodes : l.nodes = front ++ (it, v) :: rest)
    {e : ℕ × α} (he : e ∈ front ++ rest) : e.1 ≠ it ∧ key e.2 ≠ key v := by
  have hperm : (front ++ (it, v) :: rest).Perm ((it, v) :: (front ++ rest)) := List.perm_middle
  have hids := h.nodes
  have hkeys := h.keys
  rw [hnodes, (hperm.map _).nodup_iff, List.map_cons, List.nodup_cons] at hids
  rw [values, hnodes, ((hperm.map _).map _).nodup_iff, List.map_cons, List.map_cons,
    List.nodup_cons] at hkeys
  exact ⟨fun heq => hids.1 (List.mem_map.2 ⟨e, he, heq⟩),
    fun heq => hkeys.1 (List.mem_map.2 ⟨e.2, List.mem_map.2 ⟨e, he, rfl⟩, heq⟩)⟩

theorem get?_of_split (h : Linked key l index) (hnodes : l.nodes = front ++ (it, v) :: rest) :
    l.get? it = some v := by
  have hfront : front.lookup it = none := List.lookup_eq_none_iff.2 fun e he =>
    bne_iff_ne.2 (h.ne_of_split hnodes (List.mem_append_left _ he)).1.symm
  rw [get?, hnodes, List.lookup_append, hfront]
  simp

/-- An iterator of the index points at a node with its key. -/
theorem exists_split (h : Linked key l index) (hit : index k = some it) :
    ∃ v front rest, l.nodes = front ++ (it, v) :: rest ∧ key v = k := by
  obtain ⟨v, hmem, hkey⟩ := (h.index k it).1 hit
  obtain ⟨front, rest, hnodes⟩ := List.append_of_mem hmem
  exact ⟨v, front, rest, hnodes, hkey⟩

/-- The list has the same nodes when one is moved. -/
theorem splice_perm (h : Linked key l index) (it : ℕ) : (l.splice it).nodes.Perm l.nodes := by
  unfold NodeList.splice
  rcases hget : l.get? it with _ | v
  · exact List.Perm.refl _
  · obtain ⟨front, rest, hnodes, -⟩ := List.lookup_eq_some_iff.1 hget
    rw [erase_of_split h.nodes hnodes, hnodes]
    exact List.perm_middle.symm

theorem splice (h : Linked key l index) (it : ℕ) : Linked key (l.splice it) index := by
  have hperm := h.splice_perm it
  have hfresh : (l.splice it).fresh = l.fresh := by
    unfold NodeList.splice
    cases l.get? it <;> rfl
  exact ⟨fun e he => hfresh ▸ h.fresh e (hperm.mem_iff.1 he), ((hperm.map _).nodup_iff).2 h.nodes,
    (((hperm.map _).map _).nodup_iff).2 h.keys, fun k it' => by
      rw [h.index]
      simp only [hperm.mem_iff]⟩

section Update

variable [DecidableEq κ]

/-- A new node, and its key. -/
theorem emplaceFront (h : Linked key l index) (hk : index (key v) = none) :
    Linked key (l.emplaceFront v) (Function.update index (key v) (some l.fresh)) where
  fresh e he := by
    rcases List.mem_cons.1 he with rfl | he
    · exact Nat.lt_succ_self _
    · exact Nat.lt_succ_of_lt (h.fresh e he)
  nodes := by
    refine List.nodup_cons.2 ⟨fun hmem => ?_, h.nodes⟩
    obtain ⟨e, he, heq⟩ := List.mem_map.1 hmem
    exact absurd (h.fresh e he) (by rw [heq]; exact Nat.lt_irrefl _)
  keys := List.nodup_cons.2 ⟨h.eq_none_iff.1 hk, h.keys⟩
  index k it := by
    simp only [NodeList.emplaceFront, List.mem_cons, Prod.mk.injEq]
    by_cases hkey : k = key v
    · subst hkey
      rw [Function.update_self]
      constructor
      · rintro hit
        exact ⟨v, Or.inl ⟨(Option.some.inj hit).symm, rfl⟩, rfl⟩
      · rintro ⟨w, ⟨rfl, -⟩ | hmem, hw⟩
        · rfl
        · exact absurd ((h.index _ it).2 ⟨w, hmem, hw⟩) (by rw [hk]; simp)
    · rw [Function.update_of_ne hkey, h.index]
      constructor
      · rintro ⟨w, hmem, hw⟩
        exact ⟨w, Or.inr hmem, hw⟩
      · rintro ⟨w, ⟨-, rfl⟩ | hmem, hw⟩
        · exact absurd hw.symm hkey
        · exact ⟨w, hmem, hw⟩

/-- Without the node of a key, and without the key. -/
theorem without (h : Linked key l index) (hnodes : l.nodes = front ++ (it, v) :: rest) :
    Linked key ⟨front ++ rest, l.fresh⟩ (Function.update index (key v) none) := by
  have hsub : List.Sublist (front ++ rest) l.nodes := by
    rw [hnodes]
    exact (List.sublist_cons_self _ _).append_left _
  refine ⟨fun e he => h.fresh e (hsub.subset he), h.nodes.sublist (hsub.map _),
    h.keys.sublist ((hsub.map _).map _), fun k it' => ?_⟩
  by_cases hkey : k = key v
  · subst hkey
    rw [Function.update_self]
    refine iff_of_false (by simp) ?_
    rintro ⟨w, hw, heq⟩
    exact (h.ne_of_split hnodes hw).2 heq
  · rw [Function.update_of_ne hkey, h.index, hnodes]
    constructor
    · rintro ⟨w, hw, rfl⟩
      rw [List.mem_append, List.mem_cons] at hw
      rcases hw with hw | hw | hw
      · exact ⟨w, List.mem_append_left _ hw, rfl⟩
      · exact absurd (congrArg key (Prod.mk.inj hw).2) hkey
      · exact ⟨w, List.mem_append_right _ hw, rfl⟩
    · rintro ⟨w, hw, rfl⟩
      exact ⟨w, hnodes ▸ hsub.subset hw, rfl⟩

theorem erase (h : Linked key l index) (hit : index k = some it) :
    Linked key (l.erase it) (Function.update index k none) := by
  obtain ⟨v, front, rest, hnodes, rfl⟩ := h.exists_split hit
  have hwithout := h.without hnodes
  rwa [← erase_of_split h.nodes hnodes] at hwithout

theorem popBack (h : Linked key l index) (hback : l.back? = some v) :
    Linked key l.popBack (Function.update index (key v) none) := by
  obtain ⟨it, hnodes⟩ := nodes_of_back? hback
  have hwithout := h.without hnodes
  rwa [List.append_nil] at hwithout

end Update

/-! ### The values, from front to back -/


/-- The key of the node that is moved comes first. -/
theorem keys_splice [BEq κ] [LawfulBEq κ] (h : Linked key l index) (hit : index k = some it) :
    ∃ v, v ∈ l.values ∧ key v = k ∧ (l.splice it).get? it = some v ∧
      (l.splice it).values.map key = k :: (l.values.map key).erase k := by
  obtain ⟨v, front, rest, hnodes, rfl⟩ := h.exists_split hit
  have hsplice : (l.splice it).nodes = (it, v) :: (front ++ rest) := by
    rw [← erase_of_split h.nodes hnodes, NodeList.splice, h.get?_of_split hnodes]
  have hnot : key v ∉ (front.map Prod.snd).map key := by
    simp only [List.map_map, List.mem_map, Function.comp_apply, not_exists, not_and]
    exact fun e he => (h.ne_of_split hnodes (List.mem_append_left _ he)).2
  refine ⟨v, by simp [values, hnodes], rfl, by simp [get?, hsplice], ?_⟩
  rw [values, hsplice, values, hnodes]
  simp only [List.map_cons, List.map_append]
  rw [List.erase_append_right _ hnot, List.erase_cons_head]

end Linked

end NodeList
