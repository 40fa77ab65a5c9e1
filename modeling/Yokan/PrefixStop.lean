import Yokan.MapListing

/-!
# Yokan: stopping a listing early

`KeyPrefixFilter::shouldStop` compares the bytes of a key with those of the prefix, while a `map`
database is walked in the order of the comparator that its configuration names. The listing breaks
out of its loop where the filter says so.

* `listKeysLoop_until`: a listing writes the keys accepted before the walk stops;
* `listKeys_prefix_iff`: a page is the one that was asked for exactly if no stored key on which the
  filter stops comes before one of the keys of the page;
* `listKeys_prefix_default`: under the default comparator this is always so.
-/

namespace Yokan

open Buffer Paging

instance (packed : Bool) (buf : Bytes) (slots : List ℕ) (items : List Bytes) :
    Decidable (Fits packed buf slots items) :=
  inferInstanceAs (Decidable (buf.length ≤ lastValidSize ∧
    if packed then (items.map List.length).sum ≤ buf.length
    else slots.sum ≤ buf.length ∧ ∀ p ∈ items.zip slots, p.1.length ≤ p.2))

/-- A column that is large enough for some items is large enough for the first of them. -/
theorem Fits.of_isPrefix {packed : Bool} {buf : Bytes} {slots : List ℕ}
    {items items' : List Bytes} (h : Fits packed buf slots items) (hpre : items' <+: items) :
    Fits packed buf slots items' := by
  obtain ⟨rest, rfl⟩ := hpre
  obtain ⟨hbuf, hfits⟩ := h
  refine ⟨hbuf, ?_⟩
  cases packed with
  | true =>
    simp only [if_true, List.map_append, List.sum_append] at hfits ⊢
    omega
  | false =>
    simp only [Bool.false_eq_true, if_false] at hfits ⊢
    refine ⟨hfits.1, fun p hp => hfits.2 p ?_⟩
    obtain ⟨i, hi, rfl⟩ := List.mem_iff_getElem.1 hp
    rw [List.length_zip] at hi
    refine List.mem_iff_getElem.2 ⟨i, ?_, ?_⟩
    · rw [List.length_zip, List.length_append]
      omega
    · rw [List.getElem_zip, List.getElem_zip, List.getElem_append_left]

/-- The filter stops on no key that has the prefix. -/
theorem not_prefix_of_shouldStop_self {fmode : Mode} {pre key val : Bytes}
    (h : (keyPrefixFilter fmode pre).shouldStop key val = true) : ¬ pre <+: key := by
  rintro ⟨rest, rfl⟩
  simp only [keyPrefixFilter, beq_iff_eq, List.length_append,
    Nat.min_eq_right (Nat.le_add_right _ _), List.take_left, List.take_length] at h
  exact Std.lt_irrefl (memcmp_eq_gt h)

namespace MapDatabase

variable {c : Comparator}

/-! ### The walk -/

/-- The entries that a walk visits before its filter stops it. -/
def untilStop (filter : KeyValueFilter) (es : List (Bytes × Bytes)) : List (Bytes × Bytes) :=
  es.takeWhile (fun e => !(!filter.check e.1 e.2 && filter.shouldStop e.1 e.2))

/-- `listKeys` writes the keys accepted before the walk stops, changed as the filter does. -/
theorem listKeysLoop_until {filter : KeyValueFilter} {f : Bytes → Bytes} {mode : Mode}
    (hmode : mode.has .ignoreKeys = false)
    (hkey : ∀ dst off room key, filter.keyCopy dst off room key = copyOut dst off room (f key))
    (packed : Bool) (es : List (Bytes × Bytes)) (slots : List ℕ) (keys : Column) :
    listKeysLoop mode packed filter es slots keys =
      keys.pushAll packed (((accepted filter (untilStop filter es)).map fun e => f e.1).zip
        slots) := by
  have hcopy : ∀ isLast key, keyCopy mode isLast filter key =
      fun dst off room => copyOut dst off room (f key) := by
    intro isLast key
    funext dst off room
    rw [keyCopy, hmode, Bool.false_and, if_neg Bool.false_ne_true, hkey]
  induction es generalizing slots keys with
  | nil => rfl
  | cons e rest ih =>
    obtain ⟨key, val⟩ := e
    cases slots with
    | nil => simp [listKeysLoop, Column.pushAll]
    | cons slot slots =>
      rw [untilStop, listKeysLoop]
      cases hcheck : filter.check key val with
      | true =>
        rw [List.takeWhile_cons_of_pos (by simp [hcheck]), accepted,
          List.filter_cons_of_pos (by simp [hcheck])]
        simp only [Bool.not_true, Bool.false_eq_true, if_false]
        rw [ih, hcopy]
        rfl
      | false =>
        cases hshould : filter.shouldStop key val with
        | true =>
          rw [List.takeWhile_cons_of_neg (by simp [hcheck, hshould])]
          rfl
        | false =>
          rw [List.takeWhile_cons_of_pos (by simp [hcheck, hshould]), accepted,
            List.filter_cons_of_neg (by simp [hcheck])]
          simp only [Bool.not_false, if_true, Bool.false_eq_true, if_false]
          exact ih (slot :: slots) keys

instance : IsStrictOrder Bytes (fun a b => c.lt a b = true) where
  irrefl a := by simp [c.irrefl]
  trans a b d := c.trans a b d

theorem sorted_db (s : MapDatabase c) :
    Sorted (fun a b => c.lt a b = true) Prod.fst s.db.toList := by
  refine Std.ExtTreeMap.ordered_keys_toList.imp ?_
  intro a b hab
  exact c.cmp_eq_lt.1 hab

/-- A key that a listing from `fromKey` may return: one behind it, or equal to it if the listing is
inclusive, and any key if `fromKey` is empty. -/
def Beyond (c : Comparator) (inclusive : Bool) (fromKey key : Bytes) : Bool :=
  fromKey.length = 0 || if inclusive then !c.lt key fromKey else c.lt fromKey key

theorem entriesFrom_eq_beyond (s : MapDatabase c) (inclusive : Bool) (fromKey : Bytes) :
    s.entriesFrom inclusive fromKey =
      s.db.toList.filter (fun e => Beyond c inclusive fromKey e.1) := by
  have hsorted := sorted_db s
  unfold entriesFrom Beyond
  by_cases hnil : fromKey.length = 0
  · rw [if_pos hnil, eq_comm, List.filter_eq_self]
    simp [hnil]
  · simp only [hnil, if_false, decide_false, Bool.false_or]
    cases inclusive with
    | true =>
      exact dropWhile_eq_filter (hsorted.imp fun {a b} hab hb => c.trans _ _ _ hab hb)
    | false =>
      have hmono : s.db.toList.Pairwise (fun a b =>
          (!c.lt fromKey b.1) = true → (!c.lt fromKey a.1) = true) := by
        refine hsorted.imp fun {a b} hab hb => ?_
        rw [Bool.not_eq_true', Bool.eq_false_iff] at hb ⊢
        exact fun ha => hb (c.trans _ _ _ ha hab)
      refine (dropWhile_eq_filter hmono).trans (List.filter_congr fun e _ => ?_)
      simp

/-! ### A page of keys with a prefix -/

/-- The keys stored beyond `fromKey`, in the order of the comparator. -/
def keysBeyond (s : MapDatabase c) (inclusive : Bool) (fromKey : Bytes) : List Bytes :=
  (s.db.toList.map Prod.fst).filter (fun key => Beyond c inclusive fromKey key)

/-- The first `count` keys beyond `fromKey` that start with `pre`. -/
def prefixPage (s : MapDatabase c) (inclusive : Bool) (pre fromKey : Bytes) (count : ℕ) :
    List Bytes :=
  ((s.keysBeyond inclusive fromKey).filter (fun key => pre <+: key)).take count

/-- What the caller of `listKeys` reads, as a function of the keys the walk accepts. -/
theorem keysPage_eq_until {s : MapDatabase c} (hs : s.migrated = false) {mode : Mode}
    (hmode : mode.has .ignoreKeys = false) {filter : KeyValueFilter} {f : Bytes → Bytes}
    (hkey : ∀ dst off room key, filter.keyCopy dst off room key = copyOut dst off room (f key))
    (req : KeysRequest) (fromKey : Bytes) {page : List Bytes}
    (hpage : page = ((accepted filter (untilStop filter
      (s.entriesFrom (mode.has .inclusive) fromKey))).map fun e => f e.1).take
        req.keySizes.length)
    (hfits : Fits req.packed req.keys req.keySizes page) :
    s.keysPage mode filter req fromKey =
      some (page, decide (page.length < req.keySizes.length)) := by
  have hloop := listKeysLoop_until hmode hkey req.packed
    (s.entriesFrom (mode.has .inclusive) fromKey) req.keySizes (Column.start req.keys)
  rw [← zip_take_length, ← hpage] at hloop
  have hlen : page.length ≤ req.keySizes.length := by
    rw [hpage, List.length_take]
    exact Nat.min_le_left _ _
  obtain ⟨hread, hmark⟩ := Column.readColumn_pushAll hlen hfits
  unfold keysPage listKeys
  rw [hs, if_neg Bool.false_ne_true, hloop]
  simp only
  rw [hread, hmark]

section Page

variable {s : MapDatabase c} {fmode mode : Mode} {pre fromKey : Bytes}

theorem keysBeyond_eq (s : MapDatabase c) (inclusive : Bool) (fromKey : Bytes) :
    s.keysBeyond inclusive fromKey = (s.entriesFrom inclusive fromKey).map Prod.fst := by
  rw [entriesFrom_eq_beyond, keysBeyond, List.filter_map]
  rfl

/-- The page that is asked for, in terms of the walk. -/
theorem prefixPage_eq (s : MapDatabase c) (fmode : Mode) (inclusive : Bool) (pre fromKey : Bytes)
    (count : ℕ) :
    s.prefixPage inclusive pre fromKey count =
      ((accepted (keyPrefixFilter fmode pre) (s.entriesFrom inclusive fromKey)).take count).map
        Prod.fst := by
  rw [prefixPage, keysBeyond_eq, List.map_take, accepted, List.filter_map]
  congr 2
  refine List.filter_congr fun e _ => ?_
  exact ((KeySelection.startingWith pre).check_filter fmode e.1 e.2).symm

/-- The walk finds the page exactly if it does not stop before one of its keys. -/
theorem accepted_untilStop_iff (s : MapDatabase c) (fmode : Mode) (inclusive : Bool)
    (pre fromKey : Bytes) (count : ℕ) :
    let filter := keyPrefixFilter fmode pre
    let es := s.entriesFrom inclusive fromKey
    (accepted filter (untilStop filter es)).take count = (accepted filter es).take count ↔
      ∀ key ∈ s.keysBeyond inclusive fromKey, filter.shouldStop key [] = true →
        ∀ key' ∈ s.prefixPage inclusive pre fromKey count, c.lt key key' = false := by
  intro filter es
  have hcheck : ∀ e : Bytes × Bytes, filter.shouldStop e.1 e.2 = true →
      filter.check e.1 e.2 = false := by
    intro e hstop
    rw [show filter.check e.1 e.2 = _ from (KeySelection.startingWith pre).check_filter ..]
    exact decide_eq_false (not_prefix_of_shouldStop_self hstop)
  have hsorted : Sorted (fun a b => c.lt a b = true) Prod.fst es := by
    rw [show es = _ from s.entriesFrom_eq_beyond inclusive fromKey]
    exact (sorted_db s).sublist List.filter_sublist
  rw [prefixPage_eq s fmode, keysBeyond_eq]
  refine (take_filter_takeWhile_iff hsorted (fun e he => ?_) count).trans ?_
  · rw [Bool.and_eq_true, Bool.not_eq_true'] at he
    exact he.1
  · simp only [List.forall_mem_map, Bool.and_eq_true, Bool.not_eq_true', Bool.not_eq_true]
    refine forall₂_congr fun e he => ?_
    exact ⟨fun h hstop => h ⟨hcheck e hstop, hstop⟩, fun h hstop => h hstop.2⟩

/-- `listKeys` returns the page exactly if the walk finds it. -/
theorem keysPage_prefix_iff (hs : s.migrated = false) (hmode : mode.has .ignoreKeys = false)
    (req : KeysRequest)
    (hfits : Fits req.packed req.keys req.keySizes
      ((s.prefixPage (mode.has .inclusive) pre fromKey req.keySizes.length).map
        ((KeySelection.startingWith pre).shown fmode))) :
    let filter := keyPrefixFilter fmode pre
    let es := s.entriesFrom (mode.has .inclusive) fromKey
    let page := s.prefixPage (mode.has .inclusive) pre fromKey req.keySizes.length
    s.keysPage mode filter req fromKey =
        some (page.map ((KeySelection.startingWith pre).shown fmode),
          decide (page.length < req.keySizes.length)) ↔
      (accepted filter (untilStop filter es)).take req.keySizes.length =
        (accepted filter es).take req.keySizes.length := by
  intro filter es page
  have hpage : page = ((accepted filter es).take req.keySizes.length).map Prod.fst :=
    prefixPage_eq s fmode ..
  -- what the walk finds is the beginning of the page
  have hpre : (accepted filter (untilStop filter es)).take req.keySizes.length <+:
      (accepted filter es).take req.keySizes.length :=
    ((List.takeWhile_prefix _).filter _).take _
  let found := ((accepted filter (untilStop filter es)).take req.keySizes.length).map
    fun e => (KeySelection.startingWith pre).shown fmode e.1
  have hread : Fits req.packed req.keys req.keySizes found →
      s.keysPage mode filter req fromKey =
        some (found, decide (found.length < req.keySizes.length)) :=
    keysPage_eq_until hs hmode ((KeySelection.startingWith pre).keyCopy_filter fmode)
      req fromKey List.map_take
  rw [hread ?_]
  · rw [Option.some.injEq, Prod.mk.injEq, hpage, List.map_map]
    constructor
    · rintro ⟨hitems, -⟩
      refine hpre.eq_of_length ?_
      have hlen := congrArg List.length hitems
      rwa [List.length_map, List.length_map] at hlen
    · intro heq
      simp only [found, heq, List.length_map]
      exact ⟨rfl, trivial⟩
  · refine hfits.of_isPrefix ?_
    rw [show s.prefixPage _ pre fromKey _ = _ from hpage, List.map_map]
    exact hpre.map _

/-- `listKeys` with a prefix returns the first keys beyond `fromKey` that start with it, in the
order of the comparator, exactly if no key beyond `fromKey` on which `shouldStop` holds comes before
one of them. -/
theorem listKeys_prefix_iff (hs : s.migrated = false) (hmode : mode.has .ignoreKeys = false)
    (req : KeysRequest)
    (hfits : Fits req.packed req.keys req.keySizes
      ((s.prefixPage (mode.has .inclusive) pre fromKey req.keySizes.length).map
        ((KeySelection.startingWith pre).shown fmode))) :
    let page := s.prefixPage (mode.has .inclusive) pre fromKey req.keySizes.length
    s.keysPage mode (keyPrefixFilter fmode pre) req fromKey =
        some (page.map ((KeySelection.startingWith pre).shown fmode),
          decide (page.length < req.keySizes.length)) ↔
      ∀ key ∈ s.keysBeyond (mode.has .inclusive) fromKey,
        (keyPrefixFilter fmode pre).shouldStop key [] = true →
          ∀ key' ∈ page, c.lt key key' = false :=
  (keysPage_prefix_iff hs hmode req hfits).trans (accepted_untilStop_iff s fmode _ pre fromKey _)

end Page

/-- Under the default comparator no key with the prefix comes after one on which the filter stops,
and the listing returns the page. -/
theorem listKeys_prefix_default {s : MapDatabase .default} (hs : s.migrated = false)
    {fmode mode : Mode} (hmode : mode.has .ignoreKeys = false) (pre fromKey : Bytes)
    (req : KeysRequest)
    (hfits : Fits req.packed req.keys req.keySizes
      ((s.prefixPage (mode.has .inclusive) pre fromKey req.keySizes.length).map
        ((KeySelection.startingWith pre).shown fmode))) :
    let page := s.prefixPage (mode.has .inclusive) pre fromKey req.keySizes.length
    s.keysPage mode (keyPrefixFilter fmode pre) req fromKey =
      some (page.map ((KeySelection.startingWith pre).shown fmode),
        decide (page.length < req.keySizes.length)) := by
  refine (keysPage_prefix_iff hs hmode req hfits).2 ?_
  refine (accepted_untilStop_iff s fmode _ pre fromKey _).2 fun key _ hstop key' hkey' => ?_
  have hmatch : pre <+: key' :=
    of_decide_eq_true (List.mem_filter.1 (List.mem_of_mem_take hkey')).2
  rw [← Bool.not_eq_true]
  exact fun hlt => not_prefix_of_shouldStop hstop (defaultMemCmp_iff.1 hlt) hmatch

end MapDatabase

/-- The order of a comparator the other way round. -/
def Comparator.reverse (c : Comparator) : Comparator where
  lt a b := c.lt b a
  irrefl := c.irrefl
  trans a b d hab hbd := c.trans d b a hbd hab
  eq_of_not_lt a b hab hba := c.eq_of_not_lt a b hba hab

namespace MapDatabase

/-- A database with two keys, the greater one first. -/
def descending : MapDatabase (Comparator.reverse .default) :=
  ((empty _).assign [1] [10]).assign [2] [20]

/-- A prefix for which the filter stops behind all keys. -/
theorem listKeys_prefix_iff_descending :
    let page := descending.prefixPage false [2] [] 2
    descending.keysPage .default (keyPrefixFilter .default [2]) ⟨false, [0, 0], [1, 1]⟩ [] =
        some (page.map ((KeySelection.startingWith [2]).shown .default), decide (page.length < 2)) ↔
      ∀ key ∈ descending.keysBeyond false [],
        (keyPrefixFilter .default [2]).shouldStop key [] = true →
          ∀ key' ∈ page, (Comparator.reverse .default).lt key key' = false :=
  listKeys_prefix_iff (s := descending) rfl (by decide) ⟨false, [0, 0], [1, 1]⟩ (by decide)

/-- The key `[2]` comes first, and the filter for the prefix `[1]` stops there. -/
theorem listKeys_prefix_lost :
    ¬ ∀ (c : Comparator) (s : MapDatabase c) (fmode mode : Mode) (pre fromKey : Bytes)
      (req : KeysRequest), s.migrated = false → mode.has .ignoreKeys = false →
        Fits req.packed req.keys req.keySizes
          ((s.prefixPage (mode.has .inclusive) pre fromKey req.keySizes.length).map
            ((KeySelection.startingWith pre).shown fmode)) →
        let page := s.prefixPage (mode.has .inclusive) pre fromKey req.keySizes.length
        s.keysPage mode (keyPrefixFilter fmode pre) req fromKey =
          some (page.map ((KeySelection.startingWith pre).shown fmode),
            decide (page.length < req.keySizes.length)) := by
  intro h
  have hpage := h _ descending .default .default [1] [] ⟨false, [0, 0], [1, 1]⟩ rfl (by decide)
    (by decide)
  exact absurd hpage (by decide)

end MapDatabase

end Yokan
