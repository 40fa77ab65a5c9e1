import Yokan.Common
import Yokan.Library.NodeList
import Yokan.Library.Recency
import Mathlib.Data.List.AList

/-!
# Yokan: the cache of chunks

`LRUCache` (`src/backends/log.cpp`) keeps the chunks of a collection that were used last. A list has
them in the order of their last use, and a hash map points into the list. How many are kept comes
from the configuration, by way of an `int`. A full cache evicts the last of its list, and a cache
for no chunks is full when its list is empty.

* `LRUCache.get`, `LRUCache.put`;
* `get_spec`: a step of a cache with some room;
* `gets_keeps_iff`: when a sequence of calls is served as it should be.
-/

namespace Yokan

open NodeList Recency

/-- `LRUCache<T>`. -/
structure LRUCache (α : Type) where
  maxSize : ℕ
  accessList : NodeList (UInt64 × α)
  cacheMap : AList fun _ : UInt64 => ℕ

/-- What a call of `get` does: the object that `make` made, if it was called, and the result. -/
structure Access (α : Type) where
  id : UInt64
  made : Option α
  result : α

namespace LRUCache

variable {α : Type}

/-- `cfg.value("cache_size", 16)` is an `int`; it is stored, and read back as a `size_t`. -/
def cacheSizeOf (cacheSize : UInt64) : ℕ := ((cacheSize.toBitVec.setWidth 32).signExtend 64).toNat

/-- The cache of a new collection. -/
def create (cacheSize : UInt64) : LRUCache α := ⟨cacheSizeOf cacheSize, .empty, ∅⟩

/-- In `put`, the removal of the item that was used last. There is no result when the list is
empty. -/
def makeRoom (c : LRUCache α) : Option (LRUCache α) :=
  if c.maxSize ≤ c.cacheMap.keys.length then
    c.accessList.back?.map fun lru =>
      { c with cacheMap := c.cacheMap.erase lru.1, accessList := c.accessList.popBack }
  else some c

/-- `put`. -/
def put (c : LRUCache α) (obj : α) (id : UInt64) : Option (LRUCache α) :=
  match c.cacheMap.lookup id with
  | some it => some { c with accessList := (c.accessList.set it (id, obj)).splice it }
  | none =>
    c.makeRoom.map fun c =>
      let accessList := c.accessList.emplaceFront (id, obj)
      { c with accessList, cacheMap := c.cacheMap.insert id (accessList.begin?.getD 0) }

/-- `get`, with the object that `make` would make. -/
def get (c : LRUCache α) (id : UInt64) (make : UInt64 → α) : Option (Access α × LRUCache α) :=
  match c.cacheMap.lookup id with
  | none =>
    let obj := make id
    (c.put obj id).map fun c => (⟨id, some obj, obj⟩, c)
  | some it =>
    let accessList := c.accessList.splice it
    (accessList.get? it).map fun e => (⟨id, none, e.2⟩, { c with accessList })

/-- A sequence of calls, each with the object that `make` makes in it. -/
def gets (c : LRUCache α) (calls : List (UInt64 × α)) : Option (List (Access α) × LRUCache α) :=
  calls.foldlM (fun s call => (s.2.get call.1 fun _ => call.2).map fun r => (s.1 ++ [r.1], r.2))
    ([], c)

/-! ### What a sequence of calls should do -/

/-- The ids that have been accessed. -/
def idsOf (accesses : List (Access α)) : List UInt64 := accesses.map Access.id

/-- The last object that was made for an id. -/
def lastMade (accesses : List (Access α)) (id : UInt64) : Option α :=
  accesses.reverse.findSome? fun a => if a.id = id then a.made else none

/-- The map and the list have the same ids, and each entry points at the node of its id. -/
def Consistent (c : LRUCache α) : Prop := Linked Prod.fst c.accessList c.cacheMap.lookup

/-- A call behind some accesses: the cache is consistent and within its size, the object is the one
made for the id, and what is evicted has not been accessed for longer than the rest. -/
structure Serves (cacheSize : UInt64) (accesses : List (Access α)) (before : LRUCache α)
    (a : Access α) (after : LRUCache α) : Prop where
  consistent : after.Consistent
  size : after.cacheMap.keys.length ≤ cacheSize.toNat
  result : lastMade (accesses ++ [a]) a.id = some a.result
  oldest : ∀ id ∈ before.cacheMap, id ∉ after.cacheMap →
    ∀ id' ∈ before.cacheMap, id' ≠ id → age (idsOf accesses) id' < age (idsOf accesses) id

/-- All calls are served. -/
def Keeps (cacheSize : UInt64) (calls : List (UInt64 × α)) : Prop :=
  ∀ front call rest, calls = front ++ call :: rest → ∃ accesses before a after,
    (create cacheSize).gets front = some (accesses, before) ∧
      before.get call.1 (fun _ => call.2) = some (a, after) ∧ a.id = call.1 ∧
        Serves cacheSize accesses before a after

/-! ### A step -/

/-- What holds between the calls, in a cache with room: the list has the ids accessed last, and the
objects are those made for them. -/
structure Caches (c : LRUCache α) (accesses : List (Access α)) : Prop where
  consistent : c.Consistent
  ids : c.accessList.values.map Prod.fst = (recent (idsOf accesses)).take c.maxSize
  objects : ∀ e ∈ c.accessList.values, lastMade accesses e.1 = some e.2

variable {c : LRUCache α} {accesses : List (Access α)} {id : UInt64}

@[simp] theorem idsOf_concat (a : Access α) :
    idsOf (accesses ++ [a]) = idsOf accesses ++ [a.id] := by
  simp [idsOf]

theorem lastMade_concat (a : Access α) :
    lastMade (accesses ++ [a]) id =
      if a.id = id then a.made.or (lastMade accesses id) else lastMade accesses id := by
  simp only [lastMade, List.reverse_append, List.reverse_singleton, List.singleton_append,
    List.findSome?_cons]
  split_ifs with h
  · cases a.made <;> rfl
  · rfl

theorem mem_cacheMap_iff (h : c.Consistent) :
    id ∈ c.cacheMap ↔ id ∈ c.accessList.values.map Prod.fst := by
  rw [← AList.lookup_isSome]
  exact h.isSome_iff

/-- The map is as large as the list. -/
theorem length_keys (h : c.Consistent) : c.cacheMap.keys.length = c.accessList.values.length := by
  have hperm : c.cacheMap.keys.Perm (c.accessList.values.map Prod.fst) :=
    (List.perm_ext_iff_of_nodup c.cacheMap.keys_nodup h.keys).2 fun _ => mem_cacheMap_iff h
  rw [hperm.length_eq, List.length_map]

/-- The id is cached. -/
theorem get_hit (h : c.Caches accesses) {it : ℕ} (hit : c.cacheMap.lookup id = some it)
    (make : UInt64 → α) : ∃ a c', c.get id make = some (a, c') ∧ a.id = id ∧
      c'.maxSize = c.maxSize ∧ c'.cacheMap = c.cacheMap ∧ c'.Caches (accesses ++ [a]) ∧
        lastMade (accesses ++ [a]) id = some a.result := by
  obtain ⟨e, hmem, hkey, hget, hids⟩ := h.consistent.keys_splice hit
  have hmade : ∀ id', lastMade (accesses ++ [⟨id, none, e.2⟩]) id' = lastMade accesses id' :=
    fun id' => by
      rw [lastMade_concat]
      split_ifs <;> rfl
  refine ⟨⟨id, none, e.2⟩, { c with accessList := c.accessList.splice it }, ?_, rfl, rfl, rfl, ?_,
    ?_⟩
  · simp [get, hit, hget]
  · refine ⟨h.consistent.splice it, ?_, fun e' he' => ?_⟩
    · have hin : id ∈ (recent (idsOf accesses)).take c.maxSize := by
        rw [← h.ids, ← hkey]
        exact List.mem_map_of_mem hmem
      rw [hids, h.ids, idsOf_concat]
      exact (take_recent_of_mem hin).symm
    · rw [hmade]
      exact h.objects e' (((h.consistent.splice_perm it).map _).mem_iff.1 he')
  · rw [hmade, ← hkey]
    exact h.objects e hmem

theorem lookup_insert_eq (m : AList fun _ : UInt64 => ℕ) (id : UInt64) (it : ℕ) :
    (m.insert id it).lookup = Function.update m.lookup id (some it) := by
  funext id'
  by_cases h : id' = id
  · subst h
    simp
  · rw [Function.update_of_ne h, AList.lookup_insert_ne h]

theorem lookup_erase_eq (m : AList fun _ : UInt64 => ℕ) (id : UInt64) :
    (m.erase id).lookup = Function.update m.lookup id none := by
  funext id'
  by_cases h : id' = id
  · subst h
    simp
  · rw [Function.update_of_ne h, AList.lookup_erase_ne h]

/-- A full cache evicts the id at the end of its list. -/
theorem makeRoom_spec (h : c.Consistent) (hsize : 0 < c.maxSize) :
    ∃ c', c.makeRoom = some c' ∧ c'.maxSize = c.maxSize ∧ c'.Consistent ∧
      c'.accessList.values = (if c.maxSize ≤ c.accessList.values.length
        then c.accessList.values.dropLast else c.accessList.values) ∧
      ∀ id ∈ c.cacheMap, id ∉ c'.cacheMap →
        ∃ init, c.accessList.values.map Prod.fst = init ++ [id] := by
  unfold makeRoom
  rw [length_keys h]
  split_ifs with hfull
  · obtain ⟨init, last, hvalues⟩ := (List.eq_nil_or_concat c.accessList.values).resolve_left
      fun hnil => by
        rw [hnil] at hfull
        exact absurd hfull (Nat.not_le.2 hsize)
    have hback : c.accessList.back? = some last := by simp [back?, hvalues]
    rw [hback]
    refine ⟨_, rfl, rfl, ?_, values_popBack _, fun id hid hnot => ?_⟩
    · have hpop := h.popBack hback
      rwa [← lookup_erase_eq] at hpop
    · have hlast : id = last.1 := by
        by_contra hne
        exact hnot (AList.mem_erase.2 ⟨hne, hid⟩)
      exact ⟨init.map Prod.fst, by simp [hvalues, hlast]⟩
  · exact ⟨c, rfl, rfl, h, rfl, fun id hid hnot => absurd hid hnot⟩

/-- The id is not cached. -/
theorem get_miss (h : c.Caches accesses) (hsize : 0 < c.maxSize)
    (hmiss : c.cacheMap.lookup id = none) (make : UInt64 → α) :
    ∃ a c', c.get id make = some (a, c') ∧ a.id = id ∧ c'.maxSize = c.maxSize ∧
      c'.Caches (accesses ++ [a]) ∧ lastMade (accesses ++ [a]) id = some a.result ∧
        ∀ id' ∈ c.cacheMap, id' ∉ c'.cacheMap →
          ∃ init, c.accessList.values.map Prod.fst = init ++ [id'] := by
  obtain ⟨c₀, hroom, hmax, hconsistent, hvalues, hlast⟩ := makeRoom_spec h.consistent hsize
  have hsub : ∀ e ∈ c₀.accessList.values, e ∈ c.accessList.values := fun e he => by
    rw [hvalues] at he
    split_ifs at he
    · exact List.mem_of_mem_dropLast he
    · exact he
  have hin : id ∉ c.accessList.values.map Prod.fst := h.consistent.eq_none_iff.1 hmiss
  have hnone : c₀.cacheMap.lookup id = none := hconsistent.eq_none_iff.2 fun hmem => by
    obtain ⟨e, he, heq⟩ := List.mem_map.1 hmem
    exact hin (List.mem_map.2 ⟨e, hsub e he, heq⟩)
  have hlookup := lookup_insert_eq c₀.cacheMap id c₀.accessList.fresh
  refine ⟨⟨id, some (make id), make id⟩, ⟨c₀.maxSize, c₀.accessList.emplaceFront (id, make id),
    c₀.cacheMap.insert id c₀.accessList.fresh⟩, ?_, rfl, hmax, ⟨?_, ?_, ?_⟩, ?_, ?_⟩
  · simp [get, put, hmiss, hroom, emplaceFront, begin?]
  · have hlinked := @Linked.emplaceFront _ _ _ _ _ (id, make id) _ hconsistent hnone
    rwa [← hlookup] at hlinked
  · rw [h.ids] at hin
    have hlen := congrArg List.length h.ids
    rw [List.length_map] at hlen
    rw [idsOf_concat, hmax, take_recent_of_notMem hsize hin, ← h.ids, values_emplaceFront,
      List.map_cons, hvalues, List.length_map]
    split_ifs
    · rw [List.map_dropLast]
    · rfl
  · intro e he
    rw [values_emplaceFront] at he
    rw [lastMade_concat]
    rcases List.mem_cons.1 he with rfl | he
    · simp
    · have hmem := hsub e he
      rw [if_neg fun heq => hin (List.mem_map.2 ⟨e, hmem, heq.symm⟩)]
      exact h.objects e hmem
  · simp [lastMade_concat]
  · intro id' hid' hnot
    refine hlast id' hid' fun hmem => hnot ?_
    rw [AList.mem_insert]
    exact Or.inr hmem

/-- A step of a cache with room. -/
theorem get_spec (h : c.Caches accesses) (hsize : 0 < c.maxSize) (id : UInt64)
    (make : UInt64 → α) :
    ∃ a c', c.get id make = some (a, c') ∧ a.id = id ∧ c'.maxSize = c.maxSize ∧
      c'.Caches (accesses ++ [a]) ∧ lastMade (accesses ++ [a]) id = some a.result ∧
        ∀ id ∈ c.cacheMap, id ∉ c'.cacheMap →
          ∀ id' ∈ c.cacheMap, id' ≠ id → age (idsOf accesses) id' < age (idsOf accesses) id := by
  rcases hlookup : c.cacheMap.lookup id with _ | it
  · obtain ⟨a, c', hget, ha, hmax, hcaches, hresult, hlast⟩ := get_miss h hsize hlookup make
    refine ⟨a, c', hget, ha, hmax, hcaches, hresult, fun id hid hnot id' hid' hne => ?_⟩
    obtain ⟨init, hids⟩ := hlast id hid hnot
    have hage : ByAge (idsOf accesses) (init ++ [id]) := by
      rw [← hids, h.ids]
      exact (byAge_recent _).sublist (List.take_sublist _ _)
    have hmem : id' ∈ init ++ [id] := hids ▸ (mem_cacheMap_iff h.consistent).1 hid'
    rw [List.mem_append, List.mem_singleton] at hmem
    exact hage.age_lt_last (hmem.resolve_right hne)
  · obtain ⟨a, c', hget, ha, hmax, hmap, hcaches, hresult⟩ := get_hit h hlookup make
    refine ⟨a, c', hget, ha, hmax, hcaches, hresult, fun id hid hnot => ?_⟩
    rw [hmap] at hnot
    exact absurd hid hnot

/-! ### A run -/

theorem gets_concat (c : LRUCache α) (calls : List (UInt64 × α)) (call : UInt64 × α) :
    c.gets (calls ++ [call]) = (c.gets calls).bind fun s =>
      (s.2.get call.1 fun _ => call.2).map fun r => (s.1 ++ [r.1], r.2) := by
  rw [gets, gets, List.foldlM_append]
  simp only [List.foldlM_cons, List.foldlM_nil, bind_pure]
  rfl

/-- A cache with room serves every sequence of calls. -/
theorem gets_spec {cacheSize : UInt64} (hsize : 0 < cacheSizeOf cacheSize)
    (calls : List (UInt64 × α)) :
    ∃ accesses c, (create cacheSize).gets calls = some (accesses, c) ∧
      c.maxSize = cacheSizeOf cacheSize ∧ c.Caches accesses ∧
        idsOf accesses = calls.map Prod.fst := by
  induction calls using List.reverseRecOn with
  | nil =>
    refine ⟨[], create cacheSize, rfl, rfl, ⟨linked_empty _, ?_, ?_⟩, rfl⟩
    · simp [create, NodeList.empty, values, idsOf, recent]
    · simp [create, NodeList.empty, values]
  | append_singleton calls call ih =>
    obtain ⟨accesses, c, hgets, hmax, hcaches, hids⟩ := ih
    obtain ⟨a, c', hget, ha, hmax', hcaches', -, -⟩ :=
      get_spec hcaches (hmax ▸ hsize) call.1 fun _ => call.2
    refine ⟨accesses ++ [a], c', ?_, hmax'.trans hmax, hcaches', ?_⟩
    · rw [gets_concat, hgets, Option.bind_some, hget]
      rfl
    · rw [idsOf_concat, hids, ha]
      simp

/-! ### Which sequences are served -/

theorem cacheSizeOf_eq (n : UInt64) :
    cacheSizeOf n = if n.toNat % 2 ^ 32 < 2 ^ 31 then n.toNat % 2 ^ 32
      else 2 ^ 64 - 2 ^ 32 + n.toNat % 2 ^ 32 := by
  have hlow : (n.toBitVec.setWidth 32).toNat = n.toNat % 2 ^ 32 := by simp
  have hmod : n.toNat % 2 ^ 32 % 2 ^ 64 = n.toNat % 2 ^ 32 := by omega
  rw [cacheSizeOf, BitVec.toNat_signExtend, BitVec.msb_eq_decide, BitVec.toNat_setWidth, hlow, hmod]
  simp only [decide_eq_true_eq, Nat.add_one_sub_one]
  split_ifs <;> omega

/-- The size is read back as zero exactly if nothing of it fits in an `int`. -/
theorem cacheSizeOf_pos_iff {n : UInt64} : 0 < cacheSizeOf n ↔ n.toNat % 2 ^ 32 ≠ 0 := by
  rw [cacheSizeOf_eq]
  split_ifs <;> omega

/-- An empty list has no item to evict. -/
theorem get_create_eq_none {n : UInt64} (hsize : cacheSizeOf n = 0) (id : UInt64)
    (make : UInt64 → α) : (create n).get id make = none := by
  simp [get, put, makeRoom, create, hsize, back?, NodeList.empty, values]

/-- How many ids are cached. -/
theorem Caches.length_keys_eq (h : c.Caches accesses) :
    c.cacheMap.keys.length = min c.maxSize (idsOf accesses).dedup.length := by
  have hlen := congrArg List.length h.ids
  rwa [List.length_map, List.length_take, length_recent, ← length_keys h.consistent] at hlen

/-- A sequence of calls is served exactly if the configured size leaves some room as an `int`, and
if it is either not negative there, or so large that nothing is lost, or no smaller than the number
of ids. -/
theorem gets_keeps_iff (cacheSize : UInt64) (calls : List (UInt64 × α)) :
    Keeps cacheSize calls ↔ calls = [] ∨ cacheSize.toNat % 2 ^ 32 ≠ 0 ∧
      (cacheSize.toNat % 2 ^ 32 < 2 ^ 31 ∨ 2 ^ 64 - 2 ^ 31 ≤ cacheSize.toNat ∨
        (calls.map Prod.fst).dedup.length ≤ cacheSize.toNat) := by
  have hn : cacheSize.toNat < 2 ^ 64 := cacheSize.toNat_lt
  -- only a capacity that is negative as an `int` becomes larger than the one asked for
  have hle : cacheSizeOf cacheSize ≤ cacheSize.toNat ↔
      cacheSize.toNat % 2 ^ 32 < 2 ^ 31 ∨ 2 ^ 64 - 2 ^ 31 ≤ cacheSize.toNat := by
    rw [cacheSizeOf_eq]
    split_ifs <;> omega
  rw [← cacheSizeOf_pos_iff, ← or_assoc, ← hle]
  constructor
  · intro hkeeps
    rcases calls.eq_nil_or_concat with rfl | ⟨front, last, rfl⟩
    · exact Or.inl rfl
    rw [List.concat_eq_append] at hkeeps ⊢
    right
    have hsize : 0 < cacheSizeOf cacheSize := by
      rw [Nat.pos_iff_ne_zero]
      intro hzero
      -- without capacity the first access pops from an empty list
      obtain ⟨call, rest, hfirst⟩ : ∃ call rest, front ++ [last] = call :: rest :=
        List.exists_cons_of_ne_nil (by simp)
      obtain ⟨accesses, before, a, after, hgets, hget, -⟩ := hkeeps [] call rest hfirst
      obtain rfl : create cacheSize = before := congrArg Prod.snd (Option.some.inj hgets)
      rw [get_create_eq_none hzero] at hget
      cases hget
    refine ⟨hsize, ?_⟩
    obtain ⟨accesses, before, a, after, hgets, hget, ha, hserves⟩ := hkeeps front last [] rfl
    obtain ⟨_, _, hgets', hmax, hcaches, hids⟩ := gets_spec hsize front
    obtain ⟨rfl, rfl⟩ := Prod.mk.inj (Option.some.inj (hgets.symm.trans hgets'))
    obtain ⟨_, _, hget', -, hmax', hcaches', -, -⟩ :=
      get_spec hcaches (hmax ▸ hsize) last.1 fun _ => last.2
    obtain ⟨rfl, rfl⟩ := Prod.mk.inj (Option.some.inj (hget.symm.trans hget'))
    have hlen := hserves.size
    rw [hcaches'.length_keys_eq, hmax', hmax, idsOf_concat, hids, ha] at hlen
    rw [List.map_append, List.map_singleton]
    omega
  · rintro (rfl | ⟨hsize, hfits⟩) front call rest hcalls
    · simp at hcalls
    obtain ⟨accesses, before, hgets, hmax, hcaches, hids⟩ := gets_spec hsize front
    obtain ⟨a, after, hget, ha, hmax', hcaches', hresult, holdest⟩ :=
      get_spec hcaches (hmax ▸ hsize) call.1 fun _ => call.2
    refine ⟨accesses, before, a, after, hgets, hget, ha, hcaches'.consistent, ?_, ha ▸ hresult,
      holdest⟩
    rw [hcaches'.length_keys_eq, hmax', hmax]
    rcases hfits with hfits | hfits
    · exact (Nat.min_le_left _ _).trans hfits
    · refine (Nat.min_le_right _ _).trans (le_trans ?_ hfits)
      rw [idsOf_concat, hids, ha, hcalls]
      refine (List.subperm_of_subset (List.nodup_dedup _) fun id hid => ?_).length_le
      rw [List.mem_dedup] at hid ⊢
      simp only [List.mem_append, List.map_append, List.map_cons, List.mem_cons] at hid ⊢
      tauto

/-- A cache for no chunks, and one access. -/
theorem gets_not_keeps : ¬ Keeps 0 [((7 : UInt64), ())] := by
  intro h
  obtain ⟨accesses, before, a, after, hgets, hget, -⟩ := h [] (7, ()) [] rfl
  obtain rfl : create 0 = before := congrArg Prod.snd (Option.some.inj hgets)
  rw [get_create_eq_none (by decide)] at hget
  cases hget

end LRUCache

end Yokan
