import Yokan.EngineListing
import Yokan.PrefixStop
import Mathlib.Data.List.TakeWhile

/-!
# Yokan: the listings of LevelDB and LMDB against those of `map`

Two things set the listings of `leveldb.cpp` and `lmdb.cpp` apart from those of `map.cpp`. Where the
cursor finds nothing at or behind `fromKey`, the slots are marked in a loop whose counter is an
`unsigned`; and in `lmdb.cpp`, a move past the last key is an error when it is made to skip
`fromKey`.

* `listKeysLoop_eq_walk`, `listKeyValuesLoop_eq_walk`: the loops of `map.cpp` are walks;
* `leveldb_listing_iff`: when `leveldb.cpp` lists as `map.cpp` does;
* `lmdb_listing_iff`: when `lmdb.cpp` lists as `map.cpp` does.
-/

namespace Yokan

open Buffer Paging Cursor

/-! ### Marking the slots -/

/-- The slots are marked as long as the counter can reach their number. -/
theorem markLoop_eq {max : ℕ} (hmax : max < 2 ^ 32) {sizes : List ℕ} (hlen : sizes.length = max)
    {fuel : ℕ} (i : UInt32) (hi : i.toNat ≤ max) (hfuel : max - i.toNat < fuel) :
    markLoop max fuel i sizes =
      some (sizes.take i.toNat ++ List.replicate (max - i.toNat) noMoreKeys) := by
  induction fuel generalizing i sizes with
  | zero => omega
  | succ fuel ih =>
    rw [markLoop]
    by_cases hlt : i.toNat < max
    · have hnext : (i + 1).toNat = i.toNat + 1 := by
        rw [UInt32.toNat_add, UInt32.toNat_one, Nat.mod_eq_of_lt (by omega)]
      rw [if_pos hlt, ih (by rwa [List.length_set]) (i + 1) (by omega) (by omega), hnext]
      rw [List.take_add_one, List.take_set_of_le le_rfl, List.getElem?_set_self (by omega)]
      rw [Option.toList_some, List.append_assoc, List.singleton_append, ← List.replicate_succ]
      congr 3
      omega
    · have heq : i.toNat = max := by omega
      rw [if_neg hlt, heq, Nat.sub_self, List.take_of_length_le (by omega)]
      simp

/-- The counter never reaches a number of slots that needs more than 32 bits. -/
theorem markLoop_none {max : ℕ} (hmax : 2 ^ 32 ≤ max) (fuel : ℕ) (i : UInt32) (sizes : List ℕ) :
    markLoop max fuel i sizes = none := by
  induction fuel generalizing i sizes with
  | zero => rfl
  | succ fuel ih =>
    have hi := i.toNat_lt
    rw [markLoop, if_pos (by omega), ih]

theorem markLoop_endsWith {max : ℕ} (hmax : max < 2 ^ 32) {sizes : List ℕ}
    (hlen : sizes.length = max) :
    EndsWith (fun fuel => markLoop max fuel 0 sizes) (List.replicate max noMoreKeys) := by
  refine .of_lt max fun fuel hfuel => ?_
  rw [markLoop_eq hmax hlen 0 (Nat.zero_le _) hfuel]
  rfl

/-- The slots of the keys get marked exactly if their number needs 32 bits at most. -/
theorem markKeys_endsWith_iff (keys : Bytes) (keySizes : List ℕ) :
    EndsWith (fun fuel => (markLoop keySizes.length fuel 0 keySizes).map
          fun sizes => ((.OK, ⟨keys, 0, sizes⟩) : Status × ColumnOutput))
        (.OK, ⟨keys, 0, List.replicate keySizes.length noMoreKeys⟩) ↔
      keySizes.length < 2 ^ 32 := by
  constructor
  · intro hends
    by_contra hcount
    refine not_endsWith_of_none (fun fuel => ?_) _ hends
    rw [markLoop_none (Nat.le_of_not_lt hcount), Option.map_none]
  · intro hcount
    exact (markLoop_endsWith hcount rfl).map _

/-- So do those of the keys and the values. -/
theorem markBoth_endsWith_iff (keys vals : Bytes) {keySizes valSizes : List ℕ}
    (hlen : keySizes.length = valSizes.length) :
    EndsWith (fun fuel => do
          let ksizes ← markLoop keySizes.length fuel 0 keySizes
          let vsizes ← markLoop keySizes.length fuel 0 valSizes
          some ((.OK, ⟨keys, 0, ksizes⟩, ⟨vals, 0, vsizes⟩) :
            Status × ColumnOutput × ColumnOutput))
        (.OK, ⟨keys, 0, List.replicate keySizes.length noMoreKeys⟩,
          ⟨vals, 0, List.replicate valSizes.length noMoreKeys⟩) ↔
      keySizes.length < 2 ^ 32 := by
  constructor
  · intro hends
    by_contra hcount
    refine not_endsWith_of_none (fun fuel => ?_) _ hends
    rw [markLoop_none (Nat.le_of_not_lt hcount)]
    rfl
  · intro hcount
    rw [← hlen]
    exact (markLoop_endsWith hcount rfl).bind
      ((markLoop_endsWith hcount hlen.symm).bind (endsWith_some _))

/-! ### The loops of `map.cpp` -/

namespace MapDatabase

variable {mode : Mode} {filter : KeyValueFilter}

/-- Unless keys are ignored, it makes no difference which key is the last. -/
theorem keyCopy_last (hmode : mode.has .ignoreKeys = false) (last last' : Bool) (key : Bytes) :
    keyCopy mode last filter key = keyCopy mode last' filter key := by
  funext dst off room
  rw [keyCopy, keyCopy, hmode]
  rfl

theorem listKeysLoop_eq_walk (hmode : mode.has .ignoreKeys = false) (es : List (Bytes × Bytes))
    (slots : List ℕ) (keys : Column) :
    listKeysLoop mode false filter es slots keys =
      walk (listKeysBody mode false filter) es slots keys := by
  induction es generalizing slots keys with
  | nil => rfl
  | cons e rest ih =>
    obtain ⟨key, val⟩ := e
    cases slots with
    | nil => rfl
    | cons slot slots =>
      rw [listKeysLoop, walk, listKeysBody]
      cases filter.check key val with
      | true => simp [ih, keyCopy_last hmode (isLast mode slots rest) slots.isEmpty]
      | false => cases filter.shouldStop key val <;> simp [ih]

theorem listKeyValuesLoop_eq_walk (hmode : mode.has .ignoreKeys = false)
    (es : List (Bytes × Bytes)) (slots : List (ℕ × ℕ)) (cols : Column × Column) :
    listKeyValuesLoop mode false filter es slots cols =
      walk (listKeyValuesBody mode false filter) es slots cols := by
  induction es generalizing slots cols with
  | nil => cases slots <;> rfl
  | cons e rest ih =>
    obtain ⟨key, val⟩ := e
    obtain ⟨keys, vals⟩ := cols
    cases slots with
    | nil => rfl
    | cons slot slots =>
      obtain ⟨kslot, vslot⟩ := slot
      rw [listKeyValuesLoop, walk, listKeyValuesBody]
      cases filter.check key val with
      | true =>
        simp [ih, keyCopy_last hmode (isLast mode (slots.map Prod.fst) rest) slots.isEmpty]
      | false => cases filter.shouldStop key val <;> simp [ih]

/-- A pass of the loop of `iter`. -/
theorem iterLoop_cons {υ : Type} (func : υ → Bytes → Bytes → Status × υ) (max : ℕ)
    (key val : Bytes) (rest : List (Bytes × Bytes)) (i : ℕ) (u : υ) :
    iterLoop max filter false func ((key, val) :: rest) i u =
      if max = 0 ∨ i < max then
        match iterBody filter false func key val u with
        | .done r => r
        | .skip => iterLoop max filter false func rest i u
        | .fill r => iterLoop max filter false func rest (i + 1) r.2
      else (.OK, u) := by
  rw [iterLoop, iterBody]
  cases filter.check key val with
  | true =>
    simp only [Bool.false_and, Bool.not_true, Bool.false_eq_true, if_false]
    rcases func u key val with ⟨status, u'⟩
    cases status <;> rfl
  | false => cases filter.shouldStop key val <;> rfl

/-- The entries at or behind `fromKey`, without that of `fromKey` unless they include it. -/
def behind (inclusive : Bool) (fromKey : Bytes) : List (Bytes × Bytes) → List (Bytes × Bytes)
  | [] => []
  | e :: es => if !inclusive && e.1 == fromKey then es else e :: es

/-- The walk of a listing, by the entries that are not less than `fromKey`. -/
theorem entriesFrom_eq_behind (s : MapDatabase .default) (inclusive : Bool) {fromKey : Bytes}
    (h : fromKey ≠ []) :
    s.entriesFrom inclusive fromKey =
      behind inclusive fromKey (s.db.toList.dropWhile (fun e => e.1 < fromKey)) := by
  cases inclusive with
  | true =>
    rw [entriesFrom_inclusive s h]
    cases s.db.toList.dropWhile (fun e => e.1 < fromKey) <;> rfl
  | false =>
    -- `upper_bound` of the map, against the seek of the iterator and a step
    have hsorted := sorted_toList s
    have hlength : fromKey.length ≠ 0 := by rwa [Ne, List.length_eq_zero_iff]
    have hdrop : s.db.toList.dropWhile (fun e => decide (e.1 < fromKey)) =
        s.db.toList.filter (fun e => !decide (e.1 < fromKey)) := by
      refine dropWhile_eq_filter (hsorted.imp fun {a b} hab hb => ?_)
      exact decide_eq_true (Std.lt_trans hab (of_decide_eq_true hb))
    have hfilter : s.entriesFrom false fromKey =
        (s.db.toList.dropWhile (fun e => decide (e.1 < fromKey))).filter
          (fun e => decide (fromKey < e.1)) := by
      rw [entriesFrom_eq_beyond, hdrop, List.filter_filter]
      refine List.filter_congr fun e _ => ?_
      have hlt : Comparator.default.lt fromKey e.1 = true ↔ fromKey < e.1 := defaultMemCmp_iff
      rw [Bool.eq_iff_iff]
      simp only [Beyond, hlength, decide_false, Bool.false_or, Bool.false_eq_true, if_false, hlt,
        Bool.and_eq_true, decide_eq_true_eq, Bool.not_eq_true', decide_eq_false_iff_not]
      exact ⟨fun hlt => ⟨hlt, fun hgt => Std.lt_irrefl (Std.lt_trans hlt hgt)⟩, fun h => h.1⟩
    rw [hfilter]
    have hrest : Sorted (· < ·) Prod.fst
        (s.db.toList.dropWhile (fun e => decide (e.1 < fromKey))) :=
      hsorted.sublist (List.dropWhile_sublist _)
    have hge : ∀ e ∈ s.db.toList.dropWhile (fun e => decide (e.1 < fromKey)), ¬ e.1 < fromKey := by
      rw [hdrop]
      intro e he
      simpa using (List.mem_filter.1 he).2
    generalize s.db.toList.dropWhile (fun e => decide (e.1 < fromKey)) = es at hrest hge
    cases es with
    | nil => rfl
    | cons e es =>
      obtain ⟨he, -⟩ := List.pairwise_cons.1 hrest
      rw [List.forall_mem_cons] at hge
      by_cases heq : e.1 = fromKey
      · have hall : ∀ b ∈ es, decide (fromKey < b.1) = true := fun b hb =>
          decide_eq_true (heq ▸ he b hb)
        rw [List.filter_cons_of_neg (by simp [heq, Std.lt_irrefl]), List.filter_eq_self.2 hall]
        simp [behind, heq]
      · have hlt : fromKey < e.1 := by
          rcases Std.lt_trichotomy e.1 fromKey with hlt | heq' | hlt
          · exact absurd hlt hge.1
          · exact absurd heq' heq
          · exact hlt
        have hall : ∀ b ∈ e :: es, decide (fromKey < b.1) = true := by
          rw [List.forall_mem_cons]
          exact ⟨decide_eq_true hlt, fun b hb => decide_eq_true (Std.lt_trans hlt (he b hb))⟩
        rw [List.filter_eq_self.2 hall]
        simp [behind, heq]

/-- A key that is not less than `fromKey` is stored. -/
def StoredFrom (s : MapDatabase .default) (fromKey : Bytes) : Prop :=
  ∃ e ∈ s.db.toList, fromKey ≤ e.1

instance (s : MapDatabase .default) (fromKey : Bytes) : Decidable (s.StoredFrom fromKey) :=
  inferInstanceAs (Decidable (∃ e ∈ s.db.toList, fromKey ≤ e.1))

theorem storedFrom_iff (s : MapDatabase .default) (fromKey : Bytes) :
    s.StoredFrom fromKey ↔ s.db.toList.dropWhile (fun e => e.1 < fromKey) ≠ [] := by
  rw [Ne, List.dropWhile_eq_nil_iff, StoredFrom]
  simp [Std.not_lt]

section Empty

variable {s : MapDatabase .default} {keySizes valSizes : List ℕ} {fromKey : Bytes}

theorem listKeys_of_empty (hs : s.migrated = false) (packed : Bool) (keys : Bytes)
    (hempty : s.entriesFrom (mode.has .inclusive) fromKey = []) :
    s.listKeys mode packed fromKey filter keys keySizes =
      (.OK, ⟨keys, 0, List.replicate keySizes.length noMoreKeys⟩) := by
  rw [listKeys, hs, hempty]
  rfl

theorem listKeyValues_of_empty (hs : s.migrated = false) (packed : Bool) (keys vals : Bytes)
    (hempty : s.entriesFrom (mode.has .inclusive) fromKey = []) :
    s.listKeyValues mode packed fromKey filter keys keySizes vals valSizes =
      (.OK, ⟨keys, 0, List.replicate keySizes.length noMoreKeys⟩,
        ⟨vals, 0, List.replicate valSizes.length noMoreKeys⟩) := by
  rw [listKeyValues, hs, hempty]
  cases keySizes.zip valSizes <;> rfl

end Empty

end MapDatabase

/-! ### LevelDB -/

section LevelDB

variable {δ ι : Type} [LevelDBIterator δ ι] {s : MapDatabase .default} {d : LevelDBDatabase δ}
  {rest : ι → List (Bytes × Bytes)} {mode : Mode} {filter : KeyValueFilter} {fromKey : Bytes}

namespace LevelDBDatabase

/-- A listing starts where that of `map.cpp` does, unless nothing is stored there. -/
theorem start_spec (h : LevelDBIterator.Traverses d.db s.db.toList rest) (inclusive : Bool)
    (fromKey : Bytes) :
    match start d.db inclusive fromKey with
    | some it => rest it = s.entriesFrom inclusive fromKey ∧
        (fromKey = [] ∨ s.StoredFrom fromKey)
    | none => s.entriesFrom inclusive fromKey = [] ∧ ¬ (fromKey = [] ∨ s.StoredFrom fromKey) := by
  unfold start
  by_cases hnil : fromKey.length = 0
  · rw [if_pos hnil]
    refine ⟨?_, Or.inl (List.length_eq_zero_iff.1 hnil)⟩
    rw [h.seekToFirst_eq, MapDatabase.entriesFrom, if_pos hnil]
  · have hne : fromKey ≠ [] := fun h => hnil (by rw [h]; rfl)
    have hseek := h.seek_eq fromKey
    have hvalid := h.runs.valid_iff
      (LevelDBIterator.seek δ fromKey (LevelDBIterator.newIterator d.db))
    rw [if_neg hnil, s.entriesFrom_eq_behind inclusive hne, MapDatabase.storedFrom_iff]
    dsimp only
    generalize LevelDBIterator.seek δ fromKey (LevelDBIterator.newIterator d.db) = it
      at hseek hvalid
    rw [← hseek]
    cases hrest : rest it with
    | nil =>
      rw [if_pos (by rw [Bool.not_eq_true', Bool.eq_false_iff, Ne, hvalid]; simp [hrest])]
      exact ⟨rfl, by simp [hne]⟩
    | cons e es =>
      have hcurrent := h.runs.current_eq hrest
      have hkey : LevelDBIterator.key δ it = e.1 := congrArg Prod.fst hcurrent
      rw [if_neg (by rw [Bool.not_eq_true', Bool.eq_false_iff, Ne, hvalid]; simp [hrest]), hkey,
        MapDatabase.behind]
      split_ifs
      · exact ⟨h.runs.next_eq hrest, Or.inr (by simp)⟩
      · exact ⟨hrest, Or.inr (by simp)⟩

variable (h : LevelDBIterator.Traverses d.db s.db.toList rest) (hs : s.migrated = false)
  (hd : d.migrated = false) (hmode : mode.has .ignoreKeys = false)

include h hs hd hmode

/-- Where a listing of keys starts, it ends as in `map.cpp`. -/
theorem listKeys_endsWith_iff (keys : Bytes) (keySizes : List ℕ) :
    EndsWith (fun fuel => d.listKeys fuel mode false fromKey filter keys keySizes)
        (s.listKeys mode false fromKey filter keys keySizes) ↔
      fromKey = [] ∨ s.StoredFrom fromKey ∨ keySizes.length < 2 ^ 32 := by
  have hspec := start_spec h (mode.has .inclusive) fromKey
  cases hstart : start d.db (mode.has .inclusive) fromKey with
  | some it =>
    rw [hstart] at hspec
    obtain ⟨hrest, hfound⟩ := hspec
    refine iff_of_true (.of_lt (rest it).length fun fuel hfuel => ?_) (hfound.imp_right Or.inl)
    simp only [listKeys, hd, hstart, Bool.false_eq_true, if_false]
    rw [loop_eq_walk h.runs _ hfuel, Option.map_some, MapDatabase.listKeys, hs,
      if_neg Bool.false_ne_true, MapDatabase.listKeysLoop_eq_walk hmode, hrest]
  | none =>
    rw [hstart] at hspec
    obtain ⟨hempty, hnone⟩ := hspec
    simp only [listKeys, hd, hstart, Bool.false_eq_true, if_false]
    rw [MapDatabase.listKeys_of_empty hs false keys hempty, ← or_assoc, or_iff_right hnone]
    exact markKeys_endsWith_iff keys keySizes

/-- Where a listing of keys and values starts, it ends as in `map.cpp`. -/
theorem listKeyValues_endsWith_iff (keys vals : Bytes) {keySizes valSizes : List ℕ}
    (hlen : keySizes.length = valSizes.length) :
    EndsWith (fun fuel =>
        d.listKeyValues fuel mode false fromKey filter keys keySizes vals valSizes)
        (s.listKeyValues mode false fromKey filter keys keySizes vals valSizes) ↔
      fromKey = [] ∨ s.StoredFrom fromKey ∨ keySizes.length < 2 ^ 32 := by
  have hspec := start_spec h (mode.has .inclusive) fromKey
  cases hstart : start d.db (mode.has .inclusive) fromKey with
  | some it =>
    rw [hstart] at hspec
    obtain ⟨hrest, hfound⟩ := hspec
    refine iff_of_true (.of_lt (rest it).length fun fuel hfuel => ?_) (hfound.imp_right Or.inl)
    simp only [listKeyValues, hd, hstart, Bool.false_eq_true, if_false]
    rw [loop_eq_walk h.runs _ hfuel, Option.map_some, MapDatabase.listKeyValues, hs,
      if_neg Bool.false_ne_true, MapDatabase.listKeyValuesLoop_eq_walk hmode, hrest]
  | none =>
    rw [hstart] at hspec
    obtain ⟨hempty, hnone⟩ := hspec
    simp only [listKeyValues, hd, hstart, Bool.false_eq_true, if_false]
    rw [MapDatabase.listKeyValues_of_empty hs false keys vals hempty, ← or_assoc,
      or_iff_right hnone]
    exact markBoth_endsWith_iff keys vals hlen

omit hs hd hmode in
theorem iterLoop_eq {υ : Type} (func : υ → Bytes → Bytes → Status × υ) (max : ℕ) {fuel : ℕ}
    {it : ι} (hfuel : (rest it).length < fuel) (i : ℕ) (u : υ) :
    iterLoop (δ := δ) max filter false func fuel it i u =
      some (MapDatabase.iterLoop max filter false func (rest it) i u) := by
  induction fuel generalizing it i u with
  | zero => omega
  | succ fuel ih =>
    rw [iterLoop]
    cases hrest : rest it with
    | nil =>
      rw [if_neg]
      · rfl
      · rw [Bool.and_eq_true, h.runs.valid_iff]
        exact fun hand => hand.1 hrest
    | cons e es =>
      obtain ⟨key, val⟩ := e
      have hcurrent := h.runs.current_eq hrest
      have hnext := h.runs.next_eq hrest
      have hvalid : LevelDBIterator.valid δ it = true := (h.runs.valid_iff it).2 (by simp [hrest])
      rw [Prod.mk.injEq] at hcurrent
      rw [hrest, List.length_cons] at hfuel
      have ih : ∀ i u,
          iterLoop (δ := δ) max filter false func fuel (LevelDBIterator.next δ it) i u =
            some (MapDatabase.iterLoop max filter false func es i u) := by
        rw [← hnext]
        exact fun i u => ih (by rw [hnext]; omega) i u
      rw [MapDatabase.iterLoop_cons, hvalid, hcurrent.1, hcurrent.2]
      by_cases hmax : max = 0 ∨ i < max
      · simp only [hmax, Bool.true_and, Bool.or_eq_true, decide_eq_true_eq, if_true]
        cases iterBody filter false func key val u with
        | done r => rfl
        | skip => exact ih i u
        | fill r => exact ih (i + 1) r.2
      · simp [hmax]

omit hmode in
/-- `iter` ends as in `map.cpp`. -/
theorem iter_endsWith {υ : Type} (func : υ → Bytes → Bytes → Status × υ) (max : ℕ) (u : υ) :
    EndsWith (fun fuel => d.iter fuel mode max fromKey filter false func u)
      (s.iter mode max fromKey filter false func u) := by
  have hspec := start_spec h (mode.has .inclusive) fromKey
  simp only [iter, hd, MapDatabase.iter, hs, Bool.false_eq_true, if_false]
  cases hstart : start d.db (mode.has .inclusive) fromKey with
  | some it =>
    rw [hstart] at hspec
    refine .of_lt (rest it).length fun fuel hfuel => ?_
    dsimp only
    rw [iterLoop_eq h func max hfuel, hspec.1]
  | none =>
    rw [hstart] at hspec
    rw [hspec.1]
    exact endsWith_some _

end LevelDBDatabase

/-- `leveldb.cpp` lists as `map.cpp` does exactly if `fromKey` is empty, or a key is stored that is
not less than it, or the number of slots fits an `unsigned`. -/
theorem leveldb_listing_iff (h : LevelDBIterator.Traverses d.db s.db.toList rest)
    (hs : s.migrated = false) (hd : d.migrated = false) (hmode : mode.has .ignoreKeys = false)
    (filter : KeyValueFilter) (fromKey keys vals : Bytes) {keySizes valSizes : List ℕ}
    (hlen : keySizes.length = valSizes.length) {υ : Type}
    (func : υ → Bytes → Bytes → Status × υ) (max : ℕ) (u : υ) :
    EndsWith (fun fuel => d.listKeys fuel mode false fromKey filter keys keySizes)
        (s.listKeys mode false fromKey filter keys keySizes) ∧
      EndsWith (fun fuel =>
          d.listKeyValues fuel mode false fromKey filter keys keySizes vals valSizes)
        (s.listKeyValues mode false fromKey filter keys keySizes vals valSizes) ∧
      EndsWith (fun fuel => d.iter fuel mode max fromKey filter false func u)
        (s.iter mode max fromKey filter false func u) ↔
      fromKey = [] ∨ s.StoredFrom fromKey ∨ keySizes.length < 2 ^ 32 := by
  rw [LevelDBDatabase.listKeys_endsWith_iff h hs hd hmode,
    LevelDBDatabase.listKeyValues_endsWith_iff h hs hd hmode keys vals hlen,
    and_iff_left (LevelDBDatabase.iter_endsWith h hs hd func max u), and_self_iff]

end LevelDB

/-! ### LMDB -/

section LMDB

variable {δ κ : Type} [LMDBCursor δ κ] {s : MapDatabase .default} {d : LMDBDatabase δ}
  {rest : κ → List (Bytes × Bytes)} {mode : Mode} {filter : KeyValueFilter} {fromKey : Bytes}

/-- The listing has to skip the last key that is stored. -/
def MapDatabase.SkipsLast (s : MapDatabase .default) (mode : Mode) (fromKey : Bytes) : Prop :=
  mode.has .inclusive = false ∧ fromKey ≠ [] ∧
    (s.db.toList.map Prod.fst).getLast? = some fromKey

instance (s : MapDatabase .default) (mode : Mode) (fromKey : Bytes) :
    Decidable (s.SkipsLast mode fromKey) :=
  inferInstanceAs (Decidable (_ ∧ _ ∧ _))

/-- The last key is the only one that is not less than itself. -/
theorem MapDatabase.skipsLast_iff (s : MapDatabase .default) (mode : Mode) {fromKey : Bytes}
    (hne : fromKey ≠ []) :
    s.SkipsLast mode fromKey ↔
      mode.has .inclusive = false ∧
        ∃ val, s.db.toList.dropWhile (fun e => e.1 < fromKey) = [(fromKey, val)] := by
  refine and_congr_right fun _ => (and_iff_right hne).trans ?_
  have hsorted := sorted_toList s
  generalize s.db.toList = es at hsorted
  constructor
  · intro hlast
    rw [List.getLast?_map, Option.map_eq_some_iff] at hlast
    obtain ⟨⟨key, val⟩, hlast, rfl⟩ := hlast
    obtain ⟨before, rfl⟩ := List.getLast?_eq_some_iff.1 hlast
    have hbefore := (List.pairwise_append.1 hsorted).2.2
    refine ⟨val, ?_⟩
    rw [List.dropWhile_append_of_pos
      (fun e he => decide_eq_true (hbefore e he (key, val) List.mem_cons_self)),
      List.dropWhile_cons_of_neg (by simp [Std.lt_irrefl])]
  · rintro ⟨val, hdrop⟩
    obtain ⟨before, hsplit⟩ := List.dropWhile_suffix (l := es) (fun e => decide (e.1 < fromKey))
    rw [← hsplit, hdrop]
    simp

namespace LMDBDatabase

open LMDBCursor

section Loops

variable (h : LMDBCursor.Traverses d.db s.db.toList rest) {cursor : κ} {e : Bytes × Bytes}
  {es : List (Bytes × Bytes)}

include h

/-- The entry that a cursor is placed on. -/
theorem getCurrent_cons (hrest : rest cursor = e :: es) :
    ∃ cursor', cursorGet δ cursor .getCurrent = (.success e.1 e.2, cursor') ∧
      rest cursor' = e :: es :=
  ⟨_, Prod.ext (h.getCurrent_eq hrest).1 rfl, (h.getCurrent_eq hrest).2⟩

/-- A move from one entry to what is left behind it. -/
theorem next_cons (hrest : rest cursor = e :: es) :
    ∃ cursor', cursorGet δ cursor .next = (.ofEntries es, cursor') ∧ rest cursor' = es :=
  ⟨_, Prod.ext (h.next_eq hrest).1 rfl, (h.next_eq hrest).2⟩

/-- The first position of a listing that starts at the first key. -/
theorem first_spec :
    ∃ cursor, cursorGet δ (cursorOpen d.db).2 .first = (.ofEntries s.db.toList, cursor) ∧
      rest cursor = s.db.toList :=
  ⟨_, Prod.ext h.first_eq.1 rfl, h.first_eq.2⟩

theorem setRange_spec (fromKey : Bytes) :
    ∃ cursor, cursorGet δ (cursorOpen d.db).2 (.setRange fromKey) =
        (.ofEntries (s.db.toList.dropWhile (fun e => e.1 < fromKey)), cursor) ∧
      rest cursor = s.db.toList.dropWhile (fun e => e.1 < fromKey) :=
  ⟨_, Prod.ext (h.setRange_eq fromKey).1 rfl, (h.setRange_eq fromKey).2⟩

/-- A listing starts where that of `map.cpp` does, unless nothing is stored there or it has to skip
the last key. -/
theorem start_spec (mode : Mode) (fromKey : Bytes) :
    match start d.db (mode.has .inclusive) fromKey with
    | .placed cursor => rest cursor ≠ [] ∧
        rest cursor = s.entriesFrom (mode.has .inclusive) fromKey ∧
        s.StoredFrom fromKey ∧ ¬ s.SkipsLast mode fromKey
    | .empty => s.entriesFrom (mode.has .inclusive) fromKey = [] ∧ ¬ s.StoredFrom fromKey ∧
        ¬ s.SkipsLast mode fromKey
    | .failed status => status = .NotFound ∧
        s.entriesFrom (mode.has .inclusive) fromKey = [] ∧ s.SkipsLast mode fromKey := by
  unfold start
  rw [if_neg (by simp [h.txnBegin_eq]), if_neg (by simp [h.cursorOpen_eq])]
  by_cases hnil : fromKey.length = 0
  · obtain rfl := List.length_eq_zero_iff.1 hnil
    have hskips : ¬ s.SkipsLast mode [] := fun hskips => hskips.2.1 rfl
    have hfrom : s.entriesFrom (mode.has .inclusive) [] = s.db.toList := if_pos rfl
    obtain ⟨cursor, hfirst, hrest⟩ := first_spec h
    rw [if_pos hnil, hfrom, hfirst]
    rw [MapDatabase.StoredFrom]
    cases hes : s.db.toList with
    | nil => exact ⟨rfl, by simp, hskips⟩
    | cons e es =>
      rw [hes] at hrest
      have hplaced : rest cursor ≠ [] := by rw [hrest]; exact List.cons_ne_nil e es
      exact ⟨hplaced, hrest, ⟨e, List.mem_cons_self, by simp⟩, hskips⟩
  · -- the seek ends on `fromKey` or behind it; an exact match is left out if it is exclusive
    have hne : fromKey ≠ [] := fun h => hnil (by rw [h]; rfl)
    obtain ⟨cursor, hrange, hrest⟩ := setRange_spec h fromKey
    rw [if_neg hnil, hrange, s.entriesFrom_eq_behind _ hne, MapDatabase.storedFrom_iff,
      s.skipsLast_iff mode hne]
    generalize s.db.toList.dropWhile (fun e => e.1 < fromKey) = es at hrest
    cases es with
    | nil => exact ⟨rfl, by simp, by simp⟩
    | cons e es =>
      have hfound : (decide (e.1.length = fromKey.length) && memcmp e.1 fromKey == .eq) =
          (e.1 == fromKey) := by
        rw [Bool.eq_iff_iff]
        simp only [Bool.and_eq_true, decide_eq_true_eq, beq_iff_eq]
        constructor
        · exact fun ⟨hlen, heq⟩ => (memcmp_eq_iff hlen).1 heq
        · rintro rfl
          exact ⟨rfl, (memcmp_eq_iff rfl).2 rfl⟩
      simp only [CursorResult.ofEntries, hfound, MapDatabase.behind]
      by_cases hskip : (!mode.has .inclusive && e.1 == fromKey) = true
      · obtain ⟨cursor', hnext, hbehind⟩ := next_cons h hrest
        rw [if_pos hskip, if_pos hskip, hnext]
        rw [Bool.and_eq_true, Bool.not_eq_true', beq_iff_eq] at hskip
        cases es with
        | nil => exact ⟨rfl, rfl, hskip.1, e.2, by rw [← hskip.2]⟩
        | cons e' es => exact ⟨by rw [hbehind]; exact List.cons_ne_nil e' es, hbehind, by simp, by simp⟩
      · rw [if_neg hskip, if_neg hskip]
        refine ⟨by rw [hrest]; exact List.cons_ne_nil e es, hrest, by simp, ?_⟩
        rintro ⟨hexclusive, val, heq⟩
        refine hskip ?_
        rw [List.cons.injEq] at heq
        simp [hexclusive, heq.1]

/-- The loop of a listing is the walk over what is left for its cursor. -/
theorem cursorLoop_eq {τ σ : Type} (body : Body (Bytes × Bytes) τ σ) {fuel : ℕ}
    (hplaced : rest cursor ≠ []) (hfuel : (rest cursor).length < fuel) (slots : List τ) (t : σ) :
    cursorLoop (δ := δ) body fuel cursor slots t = some (.OK, walk body (rest cursor) slots t) := by
  induction fuel generalizing cursor slots t with
  | zero => omega
  | succ fuel ih =>
    cases slots with
    | nil => rw [cursorLoop, walk_nil_slots]
    | cons slot slots =>
      rw [cursorLoop]
      obtain ⟨e, es, hrest⟩ := List.exists_cons_of_ne_nil hplaced
      obtain ⟨cursor', hcurrent, hkept⟩ := getCurrent_cons h hrest
      obtain ⟨cursor'', hnext, hbehind⟩ := next_cons h hkept
      rw [hrest, List.length_cons] at hfuel
      have ih : es ≠ [] → ∀ slots t, cursorLoop (δ := δ) body fuel cursor'' slots t =
          some (.OK, walk body es slots t) := by
        rw [← hbehind]
        exact fun hplaced slots t => ih hplaced (by rw [hbehind]; omega) slots t
      rw [hrest, walk, hcurrent]
      dsimp only
      rw [hnext]
      cases body e slot slots t with
      | done t => rfl
      | skip => cases es with
        | nil => rfl
        | cons e' es => exact ih (List.cons_ne_nil e' es) (slot :: slots) t
      | fill t => cases es with
        | nil => rfl
        | cons e' es => exact ih (List.cons_ne_nil e' es) slots t

theorem iterLoop_eq {υ : Type} (func : υ → Bytes → Bytes → Status × υ) (max : ℕ) {fuel : ℕ}
    (hplaced : rest cursor ≠ []) (hfuel : (rest cursor).length < fuel) (i : ℕ) (u : υ) :
    iterLoop (δ := δ) max filter false func fuel cursor i u =
      some (MapDatabase.iterLoop max filter false func (rest cursor) i u) := by
  induction fuel generalizing cursor i u with
  | zero => omega
  | succ fuel ih =>
    rw [iterLoop]
    obtain ⟨⟨key, val⟩, es, hrest⟩ := List.exists_cons_of_ne_nil hplaced
    obtain ⟨cursor', hcurrent, hkept⟩ := getCurrent_cons h hrest
    obtain ⟨cursor'', hnext, hbehind⟩ := next_cons h hkept
    rw [hrest, List.length_cons] at hfuel
    have ih : es ≠ [] → ∀ i u, iterLoop (δ := δ) max filter false func fuel cursor'' i u =
        some (MapDatabase.iterLoop max filter false func es i u) := by
      rw [← hbehind]
      exact fun hplaced i u => ih hplaced (by rw [hbehind]; omega) i u
    rw [hrest, MapDatabase.iterLoop_cons, hcurrent]
    dsimp only
    rw [hnext]
    by_cases hmax : max = 0 ∨ i < max
    · simp only [hmax, Bool.or_eq_true, decide_eq_true_eq, if_true]
      cases iterBody filter false func key val u with
      | done r => rfl
      | skip => cases es with
        | nil => rfl
        | cons e' es => exact ih (List.cons_ne_nil e' es) i u
      | fill r => cases es with
        | nil => rfl
        | cons e' es => exact ih (List.cons_ne_nil e' es) (i + 1) r.2
    · simp [hmax]

end Loops

section Listings

variable (h : LMDBCursor.Traverses d.db s.db.toList rest) (hs : s.migrated = false)
  (hd : d.migrated = false) (hmode : mode.has .ignoreKeys = false)

include h hs hd hmode

/-- A listing of keys ends as in `map.cpp` exactly if it has no last key to skip, and the slots can
be marked where it finds nothing. -/
theorem listKeys_endsWith_iff (keys : Bytes) (keySizes : List ℕ) :
    EndsWith (fun fuel => d.listKeys fuel mode false fromKey filter keys keySizes)
        (s.listKeys mode false fromKey filter keys keySizes) ↔
      ¬ s.SkipsLast mode fromKey ∧ (s.StoredFrom fromKey ∨ keySizes.length < 2 ^ 32) := by
  have hspec := start_spec h mode fromKey
  cases hstart : start d.db (mode.has .inclusive) fromKey with
  | placed cursor =>
    rw [hstart] at hspec
    obtain ⟨hplaced, hrest, hfound, hskips⟩ := hspec
    refine iff_of_true (.of_lt (rest cursor).length fun fuel hfuel => ?_) ⟨hskips, Or.inl hfound⟩
    simp only [listKeys, hd, hstart, Bool.false_eq_true, if_false]
    rw [cursorLoop_eq h _ hplaced hfuel, Option.map_some, MapDatabase.listKeys, hs,
      if_neg Bool.false_ne_true, MapDatabase.listKeysLoop_eq_walk hmode, hrest]
    rfl
  | empty =>
    rw [hstart] at hspec
    obtain ⟨hempty, hnone, hskips⟩ := hspec
    simp only [listKeys, hd, hstart, Bool.false_eq_true, if_false]
    rw [MapDatabase.listKeys_of_empty hs false keys hempty, and_iff_right hskips,
      or_iff_right hnone]
    exact markKeys_endsWith_iff keys keySizes
  | failed status =>
    rw [hstart] at hspec
    obtain ⟨rfl, -, hskips⟩ := hspec
    refine iff_of_false (fun hends => ?_) fun h => h.1 hskips
    simp only [listKeys, hd, hstart, Bool.false_eq_true, if_false, MapDatabase.listKeys,
      hs] at hends
    exact absurd (congrArg Prod.fst ((endsWith_some _).inj hends)) (by simp)

/-- So does a listing of keys and values. -/
theorem listKeyValues_endsWith_iff (keys vals : Bytes) {keySizes valSizes : List ℕ}
    (hlen : keySizes.length = valSizes.length) :
    EndsWith (fun fuel =>
        d.listKeyValues fuel mode false fromKey filter keys keySizes vals valSizes)
        (s.listKeyValues mode false fromKey filter keys keySizes vals valSizes) ↔
      ¬ s.SkipsLast mode fromKey ∧ (s.StoredFrom fromKey ∨ keySizes.length < 2 ^ 32) := by
  have hspec := start_spec h mode fromKey
  cases hstart : start d.db (mode.has .inclusive) fromKey with
  | placed cursor =>
    rw [hstart] at hspec
    obtain ⟨hplaced, hrest, hfound, hskips⟩ := hspec
    refine iff_of_true (.of_lt (rest cursor).length fun fuel hfuel => ?_) ⟨hskips, Or.inl hfound⟩
    simp only [listKeyValues, hd, hstart, Bool.false_eq_true, if_false]
    rw [cursorLoop_eq h _ hplaced hfuel, Option.map_some, MapDatabase.listKeyValues, hs,
      if_neg Bool.false_ne_true, MapDatabase.listKeyValuesLoop_eq_walk hmode, hrest]
    rfl
  | empty =>
    rw [hstart] at hspec
    obtain ⟨hempty, hnone, hskips⟩ := hspec
    simp only [listKeyValues, hd, hstart, Bool.false_eq_true, if_false]
    rw [MapDatabase.listKeyValues_of_empty hs false keys vals hempty, and_iff_right hskips,
      or_iff_right hnone]
    exact markBoth_endsWith_iff keys vals hlen
  | failed status =>
    rw [hstart] at hspec
    obtain ⟨rfl, -, hskips⟩ := hspec
    refine iff_of_false (fun hends => ?_) fun h => h.1 hskips
    simp only [listKeyValues, hd, hstart, Bool.false_eq_true, if_false, MapDatabase.listKeyValues,
      hs] at hends
    exact absurd (congrArg Prod.fst ((endsWith_some _).inj hends)) (by simp)

omit hmode in
/-- `iter` ends as in `map.cpp` exactly if it has no last key to skip. -/
theorem iter_endsWith_iff {υ : Type} (func : υ → Bytes → Bytes → Status × υ) (max : ℕ) (u : υ) :
    EndsWith (fun fuel => d.iter fuel mode max fromKey filter false func u)
        (s.iter mode max fromKey filter false func u) ↔
      ¬ s.SkipsLast mode fromKey := by
  have hspec := start_spec h mode fromKey
  simp only [iter, hd, MapDatabase.iter, hs, Bool.false_eq_true, if_false]
  cases hstart : start d.db (mode.has .inclusive) fromKey with
  | placed cursor =>
    rw [hstart] at hspec
    obtain ⟨hplaced, hrest, -, hskips⟩ := hspec
    refine iff_of_true (.of_lt (rest cursor).length fun fuel hfuel => ?_) hskips
    dsimp only
    rw [iterLoop_eq h func max hplaced hfuel, hrest]
  | empty =>
    rw [hstart] at hspec
    obtain ⟨hempty, -, hskips⟩ := hspec
    rw [hempty]
    exact iff_of_true (endsWith_some _) hskips
  | failed status =>
    rw [hstart] at hspec
    obtain ⟨rfl, hempty, hskips⟩ := hspec
    rw [hempty]
    refine iff_of_false (fun hends => ?_) fun h => h hskips
    have hstatus : Status.NotFound = .OK := congrArg Prod.fst ((endsWith_some _).inj hends)
    cases hstatus

end Listings

end LMDBDatabase

/-- `lmdb.cpp` lists as `map.cpp` does exactly if it has no last key to skip, and a key is stored
that is not less than `fromKey` or the number of slots fits an `unsigned`. -/
theorem lmdb_listing_iff (h : LMDBCursor.Traverses d.db s.db.toList rest) (hs : s.migrated = false)
    (hd : d.migrated = false) (hmode : mode.has .ignoreKeys = false) (filter : KeyValueFilter)
    (fromKey keys vals : Bytes) {keySizes valSizes : List ℕ}
    (hlen : keySizes.length = valSizes.length) {υ : Type}
    (func : υ → Bytes → Bytes → Status × υ) (max : ℕ) (u : υ) :
    EndsWith (fun fuel => d.listKeys fuel mode false fromKey filter keys keySizes)
        (s.listKeys mode false fromKey filter keys keySizes) ∧
      EndsWith (fun fuel =>
          d.listKeyValues fuel mode false fromKey filter keys keySizes vals valSizes)
        (s.listKeyValues mode false fromKey filter keys keySizes vals valSizes) ∧
      EndsWith (fun fuel => d.iter fuel mode max fromKey filter false func u)
        (s.iter mode max fromKey filter false func u) ↔
      ¬ s.SkipsLast mode fromKey ∧ (s.StoredFrom fromKey ∨ keySizes.length < 2 ^ 32) := by
  rw [LMDBDatabase.listKeys_endsWith_iff h hs hd hmode,
    LMDBDatabase.listKeyValues_endsWith_iff h hs hd hmode keys vals hlen,
    LMDBDatabase.iter_endsWith_iff h hs hd]
  tauto

end LMDB

/-! ### Cursors over a list -/

/-- The stored pairs, in the order of their keys. -/
structure PairList where
  entries : List (Bytes × Bytes)

/-- A cursor over a list of pairs: the list, and what is left of it. -/
structure PairCursor where
  entries : List (Bytes × Bytes)
  rest : List (Bytes × Bytes)

namespace PairCursor

/-- A cursor that is sent to other entries. -/
def move (cursor : PairCursor) (rest : List (Bytes × Bytes)) : PairCursor := { cursor with rest }

end PairCursor

instance : LevelDBIterator PairList PairCursor where
  newIterator db := ⟨db.entries, []⟩
  seekToFirst it := it.move it.entries
  seek fromKey it := it.move (it.entries.dropWhile fun e => e.1 < fromKey)
  valid it := !it.rest.isEmpty
  next it := it.move it.rest.tail
  key it := (it.rest.headD ([], [])).1
  value it := (it.rest.headD ([], [])).2

instance : LMDBCursor PairList PairCursor where
  txnBegin _ := .OK
  cursorOpen db := (.OK, ⟨db.entries, []⟩)
  cursorGet cursor op :=
    let rest :=
      match op with
      | .first => cursor.entries
      | .setRange fromKey => cursor.entries.dropWhile fun e => e.1 < fromKey
      | .next => cursor.rest.tail
      | .getCurrent => cursor.rest
    (.ofEntries rest, cursor.move rest)

/-- They run through the pairs of a `map` database. -/
theorem traverses_pairList (entries : List (Bytes × Bytes)) :
    LevelDBIterator.Traverses (⟨entries⟩ : PairList) entries PairCursor.rest ∧
      LMDBCursor.Traverses (⟨entries⟩ : PairList) entries PairCursor.rest := by
  refine ⟨⟨⟨fun it => ?_, fun {it a as} h => ?_, fun {it a as} h => ?_⟩, rfl, fun _ => rfl⟩,
    ⟨rfl, rfl, ⟨rfl, rfl⟩, fun _ => ⟨rfl, rfl⟩, fun {cursor e es} hrest => ?_,
      fun {cursor e es} hrest => ?_⟩⟩
  · simp [LevelDBIterator.valid]
  · simp [LevelDBIterator.key, LevelDBIterator.value, h]
  · simp [LevelDBIterator.next, PairCursor.move, h]
  · simp [LMDBCursor.cursorGet, PairCursor.move, CursorResult.ofEntries, hrest]
  · simp [LMDBCursor.cursorGet, PairCursor.move, hrest]

/-- A `map` database with one key. -/
def oneKey : MapDatabase .default := (MapDatabase.empty .default).assign [1] [10]

/-- A database with three keys. -/
def threeKeys : MapDatabase .default := (oneKey.assign [1, 2] [20]).assign [3] []

/-- Three keys, listed by `leveldb.cpp` from the first of them on. -/
theorem leveldb_listing_iff_three :
    let d : LevelDBDatabase PairList := ⟨⟨threeKeys.db.toList⟩, false⟩
    EndsWith (fun fuel =>
          d.listKeys fuel .default false [1] (keyPrefixFilter .default []) [0, 0, 0] [2, 1])
        (threeKeys.listKeys .default false [1] (keyPrefixFilter .default []) [0, 0, 0] [2, 1]) ∧
      EndsWith (fun fuel => d.listKeyValues fuel .default false [1] (keyPrefixFilter .default [])
          [0, 0, 0] [2, 1] [0] [1, 0])
        (threeKeys.listKeyValues .default false [1] (keyPrefixFilter .default []) [0, 0, 0] [2, 1]
          [0] [1, 0]) ∧
      EndsWith (fun fuel => d.iter fuel .default 0 [1] (keyPrefixFilter .default []) false
          (fun u _ _ => (.OK, u + 1)) 0)
        (threeKeys.iter .default 0 [1] (keyPrefixFilter .default []) false
          (fun u _ _ => (.OK, u + 1)) 0) := by
  intro d
  have hlen : ([2, 1] : List ℕ).length = ([1, 0] : List ℕ).length := rfl
  have hlength : ([2, 1] : List ℕ).length < 2 ^ 32 := by decide
  exact (leveldb_listing_iff (s := threeKeys) (d := d) (traverses_pairList _).1 rfl rfl
    (Mode.has_default _) _ _ _ _ hlen _ _ _).2 (Or.inr (Or.inr hlength))

/-- Behind the last key, a page of `2 ^ 32` slots is never marked. -/
theorem leveldb_listing_diverges :
    ¬ ∀ (δ ι : Type) (_ : LevelDBIterator δ ι) (s : MapDatabase .default) (d : LevelDBDatabase δ)
      (rest : ι → List (Bytes × Bytes)) (fromKey keys : Bytes) (keySizes : List ℕ),
      LevelDBIterator.Traverses d.db s.db.toList rest → s.migrated = false → d.migrated = false →
        EndsWith (fun fuel =>
            d.listKeys fuel .default false fromKey (keyPrefixFilter .default []) keys keySizes)
          (s.listKeys .default false fromKey (keyPrefixFilter .default []) keys keySizes) := by
  intro h
  obtain ⟨keySizes, hcount⟩ : ∃ keySizes : List ℕ, keySizes.length = 2 ^ 32 :=
    ⟨List.replicate (2 ^ 32) 0, List.length_replicate⟩
  have hends := h PairList PairCursor inferInstance oneKey ⟨⟨oneKey.db.toList⟩, false⟩
    PairCursor.rest [2] [] keySizes (traverses_pairList _).1 rfl rfl
  rw [LevelDBDatabase.listKeys_endsWith_iff (traverses_pairList _).1 rfl rfl (by decide),
    hcount] at hends
  exact absurd hends (by decide)

/-- Three keys, listed by `lmdb.cpp` from the first of them on. -/
theorem lmdb_listing_iff_three :
    let d : LMDBDatabase PairList := ⟨⟨threeKeys.db.toList⟩, false⟩
    EndsWith (fun fuel =>
          d.listKeys fuel .default false [1] (keyPrefixFilter .default []) [0, 0, 0] [2, 1])
        (threeKeys.listKeys .default false [1] (keyPrefixFilter .default []) [0, 0, 0] [2, 1]) ∧
      EndsWith (fun fuel => d.listKeyValues fuel .default false [1] (keyPrefixFilter .default [])
          [0, 0, 0] [2, 1] [0] [1, 0])
        (threeKeys.listKeyValues .default false [1] (keyPrefixFilter .default []) [0, 0, 0] [2, 1]
          [0] [1, 0]) ∧
      EndsWith (fun fuel => d.iter fuel .default 0 [1] (keyPrefixFilter .default []) false
          (fun u _ _ => (.OK, u + 1)) 0)
        (threeKeys.iter .default 0 [1] (keyPrefixFilter .default []) false
          (fun u _ _ => (.OK, u + 1)) 0) := by
  intro d
  have hskips : ¬ threeKeys.SkipsLast .default [1] := by decide
  have hlen : ([2, 1] : List ℕ).length = ([1, 0] : List ℕ).length := rfl
  have hlength : ([2, 1] : List ℕ).length < 2 ^ 32 := by decide
  exact (lmdb_listing_iff (s := threeKeys) (d := d) (traverses_pairList _).2 rfl rfl
    (Mode.has_default _) _ _ _ _ hlen _ _ _).2 ⟨hskips, Or.inr hlength⟩

/-- Behind the only key, `lmdb.cpp` finds an error and not an empty page. -/
theorem lmdb_listing_not_found :
    ¬ ∀ (δ κ : Type) (_ : LMDBCursor δ κ) (s : MapDatabase .default) (d : LMDBDatabase δ)
      (rest : κ → List (Bytes × Bytes)) (fromKey keys : Bytes) (keySizes : List ℕ),
      LMDBCursor.Traverses d.db s.db.toList rest → s.migrated = false → d.migrated = false →
        EndsWith (fun fuel =>
            d.listKeys fuel .default false fromKey (keyPrefixFilter .default []) keys keySizes)
          (s.listKeys .default false fromKey (keyPrefixFilter .default []) keys keySizes) := by
  intro h
  have hends := h PairList PairCursor inferInstance oneKey ⟨⟨oneKey.db.toList⟩, false⟩
    PairCursor.rest [1] [0] [1] (traverses_pairList _).2 rfl rfl
  rw [LMDBDatabase.listKeys_endsWith_iff (traverses_pairList _).2 rfl rfl (by decide)] at hends
  exact hends.1 (by decide)

end Yokan
