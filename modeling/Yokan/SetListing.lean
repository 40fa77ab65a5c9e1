import Yokan.Sets
import Yokan.Inert

/-!
# Yokan: listing a `set` database

`SetDatabase::listKeys`, `listKeyValues` and `iter` (`src/backends/set.cpp`). They walk the keys as
`map.cpp` walks its entries, and hand `nullptr, 0` to the filter where the map has a value.

* `SetDatabase.toList_eq`: the keys of a set and of a map that matches it come in the same order;
* `set_lists_as_map`: whatever calls a set and a map have been through, they list alike.
-/

namespace Yokan

open Buffer InMemory Trace

namespace SetDatabase

variable {c : Comparator}

/-- The keys from the iterator `fromKeyIt` on: `begin()`, `lower_bound` or `upper_bound`. -/
def keysFrom (s : SetDatabase c) (inclusive : Bool) (fromKey : Bytes) : List Bytes :=
  if fromKey.length = 0 then s.db.toList
  else if inclusive then s.db.toList.dropWhile (fun k => c.lt k fromKey)
  else s.db.toList.dropWhile (fun k => !c.lt fromKey k)

/-- A key as the loops pass it on: with no value. -/
def unvalued (key : Bytes) : Bytes × Bytes := (key, [])

/-- `SetDatabase::listKeys`. -/
def listKeys (mode : Mode) (packed : Bool) (s : SetDatabase c) (fromKey : Bytes)
    (filter : KeyValueFilter) (keys : Bytes) (keySizes : List ℕ) : Status × ColumnOutput :=
  if s.migrated then (.Migrated, ⟨keys, keys.length, keySizes⟩)
  else
    let col := MapDatabase.listKeysLoop mode packed filter
      ((s.keysFrom (mode.has .inclusive) fromKey).map unvalued) keySizes (Column.start keys)
    (.OK, col.finish keySizes.length)

/-- `SetDatabase::listKeyValues`: `vals.size` becomes 0. -/
def listKeyValues (mode : Mode) (packed : Bool) (s : SetDatabase c) (fromKey : Bytes)
    (filter : KeyValueFilter) (keys : Bytes) (keySizes : List ℕ) (vals : Bytes)
    (valSizes : List ℕ) : Status × ColumnOutput × ColumnOutput :=
  if s.migrated then
    (.Migrated, ⟨keys, keys.length, keySizes⟩, ⟨vals, vals.length, valSizes⟩)
  else
    let cols := MapDatabase.listKeyValuesLoop mode packed filter
      ((s.keysFrom (mode.has .inclusive) fromKey).map unvalued) (keySizes.zip valSizes)
      (Column.start keys, Column.start vals)
    (.OK, cols.1.finish keySizes.length, { cols.2.finish valSizes.length with size := 0 })

/-- The loop of `iter`. `i` counts the keys delivered, and `max = 0` means no limit. -/
def iterLoop {υ : Type} (max : ℕ) (filter : KeyValueFilter)
    (func : υ → Bytes → Bytes → Status × υ) : List Bytes → ℕ → υ → Status × υ
  | [], _, u => (.OK, u)
  | key :: rest, i, u =>
    if max = 0 ∨ i < max then
      if !filter.check key [] then
        if filter.shouldStop key [] then (.OK, u)
        else iterLoop max filter func rest i u
      else
        match func u key [] with
        | (.OK, u) => iterLoop max filter func rest (i + 1) u
        | (status, u) => (status, u)
    else (.OK, u)

/-- `SetDatabase::iter`; the flag `ignore_values` is not looked at. -/
def iter {υ : Type} (mode : Mode) (max : ℕ) (s : SetDatabase c) (fromKey : Bytes)
    (filter : KeyValueFilter) (_ignoreValues : Bool) (func : υ → Bytes → Bytes → Status × υ)
    (u : υ) : Status × υ :=
  if s.migrated then (.Migrated, u)
  else iterLoop max filter func (s.keysFrom (mode.has .inclusive) fromKey) 0 u

/-- The loop of `iter` is that of the map, for entries without values. -/
theorem iterLoop_eq {υ : Type} (max : ℕ) (filter : KeyValueFilter) (ignoreValues : Bool)
    (func : υ → Bytes → Bytes → Status × υ) (keys : List Bytes) (i : ℕ) (u : υ) :
    iterLoop max filter func keys i u =
      MapDatabase.iterLoop max filter ignoreValues func (keys.map unvalued) i u := by
  induction keys generalizing i u with
  | nil => rfl
  | cons key rest ih =>
    simp only [List.map_cons, unvalued, iterLoop, MapDatabase.iterLoop, ite_self]
    split_ifs
    · rfl
    · exact ih i u
    · rcases func u key [] with ⟨status, u'⟩
      cases status <;> first | rfl | exact ih (i + 1) u'
    · rfl

/-- The keys of a set come in the order of the entries of a map with the same keys. -/
theorem toList_eq {s : SetDatabase c} {t : MapDatabase c} (h : Matches s t) :
    t.db.toList = s.db.toList.map unvalued := by
  have hmem : ∀ e : Bytes × Bytes, e ∈ t.db.toList ↔ e ∈ s.db.toList.map unvalued := by
    rintro ⟨key, val⟩
    have hfind : t.db[key]? = view s.has key := congrFun h.find_eq key
    rw [Std.ExtTreeMap.mem_toList_iff_getElem?_eq_some, hfind, List.mem_map]
    unfold view
    constructor
    · intro hview
      split_ifs at hview with hhas
      obtain rfl := Option.some.inj hview
      exact ⟨key, Std.ExtTreeSet.mem_toList.2 (Std.ExtTreeSet.contains_iff_mem.1 hhas), rfl⟩
    · rintro ⟨k, hk, heq⟩
      obtain ⟨rfl, rfl⟩ := Prod.mk.inj heq
      have hhas : s.has k = true :=
        Std.ExtTreeSet.contains_iff_mem.2 (Std.ExtTreeSet.mem_toList.1 hk)
      rw [if_pos hhas]
  have hordered : t.db.toList.Pairwise fun a b => c.cmp a.1 b.1 = .lt :=
    Std.ExtTreeMap.ordered_keys_toList
  have hkeys : s.db.toList.Pairwise fun a b => c.cmp a b = .lt := Std.ExtTreeSet.ordered_toList
  have hordered' : (s.db.toList.map unvalued).Pairwise fun a b => c.cmp a.1 b.1 = .lt :=
    List.pairwise_map.2 hkeys
  have hnodup : ∀ l : List (Bytes × Bytes), l.Pairwise (fun a b => c.cmp a.1 b.1 = .lt) →
      l.Nodup := by
    intro l hl
    unfold List.Nodup
    refine hl.imp fun hlt heq => ?_
    rw [heq, c.cmp_eq_lt, c.irrefl] at hlt
    exact Bool.false_ne_true hlt
  have hperm : t.db.toList.Perm (s.db.toList.map unvalued) :=
    (List.perm_ext_iff_of_nodup (hnodup _ hordered) (hnodup _ hordered')).2 hmem
  refine hperm.eq_of_pairwise (fun a b _ _ hab hba => ?_) hordered hordered'
  rw [c.cmp_eq_lt] at hab hba
  exact absurd (c.asymm hab) (by simp [hba])

theorem entriesFrom_eq {s : SetDatabase c} {t : MapDatabase c} (h : Matches s t) (inclusive : Bool)
    (fromKey : Bytes) :
    t.entriesFrom inclusive fromKey = (s.keysFrom inclusive fromKey).map unvalued := by
  unfold MapDatabase.entriesFrom keysFrom
  rw [toList_eq h]
  split_ifs
  · rfl
  · exact List.dropWhile_map
  · exact List.dropWhile_map

end SetDatabase

/-! ### A set and a map that have been through the same calls -/

/-- A `fetch` whose callback goes on to the end, and which leaves the keys in the store. -/
def StoreCall.Looks : StoreCall → Prop
  | fetch mode _ _ func => mode.has .consume = false ∧ ∀ entries, func entries = .OK
  | _ => True

section Runs

variable {c : Comparator} {s : SetDatabase c} {t : MapDatabase c}

/-- `map.cpp` does not look at what the callback of `fetch` returns. -/
theorem fetch_matches_map (h : Matches s t) {mode : Mode} (hconsume : mode.has .consume = false)
    {υ : Type} (keys : Bytes) (ksizes : List ℕ) (func : υ → Bytes → Option Bytes → Status × υ)
    (hfunc : ∀ u k v, (func u k v).1 = .OK) (u : υ) :
    s.fetch mode keys ksizes func u =
      ((t.fetch mode keys ksizes func u).1, s, (t.fetch mode keys ksizes func u).2.2) ∧
      (t.fetch mode keys ksizes func u).2.1 = t := by
  have hbody : offerBody s.has (mode.has .wait) func = t.fetchBody (mode.has .wait) func := by
    have hfind : t.find = view s.has := h.find_eq
    funext key u
    have hok := hfunc u key (view s.has key)
    unfold offerBody MapDatabase.fetchBody
    rw [hfind]
    unfold view at hok ⊢
    rcases hcall : func u key (if s.has key = true then some [] else none) with ⟨status, u'⟩
    rw [hcall] at hok
    cases hok
    cases hhas : s.has key with
    | true =>
      rw [hhas, if_pos rfl] at hcall
      simp [hcall]
    | false =>
      rw [hhas, if_neg Bool.false_ne_true] at hcall
      simp [hcall]
  have hserving : ¬ s.migrated = true := by simp [show s.migrated = false from h.serving]
  have hserving' : ¬ t.migrated = true := by simp [show t.migrated = false from h.serving']
  rw [SetDatabase.fetch, offerWith, if_neg hserving, MapDatabase.fetch, if_neg hserving', hbody]
  rcases keysLoop false (t.fetchBody (mode.has .wait) func) keys ksizes 0 u with ⟨_ | status, u'⟩
  · simp [hconsume]
  · exact ⟨rfl, rfl⟩

/-- One call that `map.cpp` treats as `set.cpp` does. -/
theorem run_matches_map (h : Matches s t) {call : StoreCall} (hvalues : call.NoValues)
    (haccepted : call.Accepted (SetDatabase c)) (hlooks : call.Looks) :
    (call.run s).1 = (call.run t).1 ∧ Matches (call.run s).2 (call.run t).2 := by
  refine run_matches_of_fetch eraseBody_eq h hvalues haccepted ?_
  rintro mode keys ksizes func rfl
  obtain ⟨hfetch, hkeep⟩ := fetch_matches_map h hlooks.1 keys ksizes
    (fun entries key val => (func (entries ++ [(key, val)]), entries ++ [(key, val)]))
    (fun _ _ _ => hlooks.2 _) []
  have hrun : ((StoreCall.fetch mode keys ksizes func).run s) =
      (((StoreCall.fetch mode keys ksizes func).run t).1, s) := by
    show (StoreAnswer.delivered (s.fetch mode keys ksizes _ []).1
      (s.fetch mode keys ksizes _ []).2.2, (s.fetch mode keys ksizes _ []).2.1) = _
    rw [hfetch]
    rfl
  rw [hrun]
  refine ⟨rfl, ?_⟩
  show Matches s (t.fetch mode keys ksizes _ []).2.1
  rw [hkeep]
  exact h

/-- A set and a map list the same keys in the same way, and count them alike. Of the buffer of the
values, the set says that nothing is in it. -/
structure ListingsAlike (s : SetDatabase c) (t : MapDatabase c) : Prop where
  count (n : UInt64) : s.count n = t.count n
  listKeys (mode : Mode) (packed : Bool) (fromKey : Bytes) (filter : KeyValueFilter) (keys : Bytes)
    (keySizes : List ℕ) :
    s.listKeys mode packed fromKey filter keys keySizes =
      t.listKeys mode packed fromKey filter keys keySizes
  listKeyValues (mode : Mode) (packed : Bool) (fromKey : Bytes) (filter : KeyValueFilter)
    (keys : Bytes) (keySizes : List ℕ) (vals : Bytes) (valSizes : List ℕ) :
    let r := t.listKeyValues mode packed fromKey filter keys keySizes vals valSizes
    s.listKeyValues mode packed fromKey filter keys keySizes vals valSizes =
      (r.1, r.2.1, { r.2.2 with size := 0 })
  iter {υ : Type} (mode : Mode) (max : ℕ) (fromKey : Bytes) (filter : KeyValueFilter)
    (ignoreValues : Bool) (func : υ → Bytes → Bytes → Status × υ) (u : υ) :
    s.iter mode max fromKey filter ignoreValues func u =
      t.iter mode max fromKey filter ignoreValues func u

/-- A set lists as a map with the same keys, and empty values, does. -/
theorem listingsAlike_of_matches (h : Matches s t) : ListingsAlike s t := by
  have hserving : ¬ s.migrated = true := by simp [show s.migrated = false from h.serving]
  have hserving' : ¬ t.migrated = true := by simp [show t.migrated = false from h.serving']
  constructor
  · intro n
    have hsize : s.db.size = t.db.size := by
      rw [← Std.ExtTreeSet.length_toList, ← Std.ExtTreeMap.length_toList,
        SetDatabase.toList_eq h, List.length_map]
    rw [SetDatabase.count, MapDatabase.count, if_neg hserving, if_neg hserving', hsize]
  · intro mode packed fromKey filter keys keySizes
    rw [SetDatabase.listKeys, MapDatabase.listKeys, if_neg hserving, if_neg hserving',
      SetDatabase.entriesFrom_eq h]
  · intro mode packed fromKey filter keys keySizes vals valSizes
    rw [SetDatabase.listKeyValues, MapDatabase.listKeyValues, if_neg hserving, if_neg hserving',
      SetDatabase.entriesFrom_eq h]
  · intro υ mode max fromKey filter ignoreValues func u
    rw [SetDatabase.iter, MapDatabase.iter, if_neg hserving, if_neg hserving',
      SetDatabase.entriesFrom_eq h, SetDatabase.iterLoop_eq max filter ignoreValues]

/-- An ordered set stays a map of empty values in its listings: after any calls that both have
answered alike, the two list the same. -/
theorem set_lists_as_map (h : Matches s t) {calls : List StoreCall}
    (hcalls : ∀ call ∈ calls, call.NoValues ∧ call.Accepted (SetDatabase c) ∧ call.Looks) :
    let r := trace StoreCall.run s calls
    let r' := trace StoreCall.run t calls
    r.1 = r'.1 ∧ ListingsAlike r.2 r'.2 := by
  have hstep : ∀ (s : SetDatabase c) (t : MapDatabase c) (call : StoreCall),
      call.NoValues ∧ call.Accepted (SetDatabase c) ∧ call.Looks → Matches s t →
        (call.run s).1 = (call.run t).1 ∧ Matches (call.run s).2 (call.run t).2 :=
    fun _ _ _ hcall h => run_matches_map h hcall.1 hcall.2.1 hcall.2.2
  obtain ⟨hanswers, hmatches⟩ := trace_simulation hstep hcalls h
  exact ⟨hanswers, listingsAlike_of_matches hmatches⟩

/-- A set and a map into which a key has been put. -/
theorem set_lists_as_map_one :
    let calls := [StoreCall.put .default [1] [1] [] [0]]
    ListingsAlike (trace StoreCall.run (SetDatabase.empty .default) calls).2
      (trace StoreCall.run (MapDatabase.empty .default) calls).2 := by
  refine (set_lists_as_map ⟨rfl, rfl, ?_⟩ ?_).2
  · funext k
    have hnone : (SetDatabase.empty .default).has k = false := Std.ExtTreeSet.contains_empty
    show none = view (SetDatabase.empty .default).has k
    rw [view, hnone]
    rfl
  · rw [List.forall_mem_singleton]
    exact ⟨⟨by decide, by decide, rfl, by decide⟩, ⟨by decide, by decide⟩, trivial⟩

end Runs

end Yokan
