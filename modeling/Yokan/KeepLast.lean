import Yokan.PrefixStop

/-!
# Yokan: `YOKAN_MODE_IGNORE_KEYS` and `YOKAN_MODE_KEEP_LAST`

A listing that ignores keys leaves the slots of its keys empty, and one that keeps the last key
fills the last slot, for the caller to go on from there. `YOKAN_MODE_KEEP_LAST` contains the bit of
`YOKAN_MODE_IGNORE_KEYS`, and `mode & YOKAN_MODE_KEEP_LAST` tests for any of its two bits, so the
listings treat the two modes alike. Which match is the last one they decide before they have looked
at the keys behind it.

* `listKeysLoop_ignoring`: the last slot holds its key when the page is full or the match is the
  last key of the walk;
* `ignore_keys_keep_last_iff`: when this is what the two modes ask for.
-/

namespace Yokan

open Buffer Paging

/-! ### The modes -/

/-- `YOKAN_MODE_IGNORE_KEYS` without the other bit of `YOKAN_MODE_KEEP_LAST`. -/
def IgnoreKeysAlone (mode : Mode) : Prop := mode &&& .keepLast = .ignoreKeys

/-- Both bits of `YOKAN_MODE_KEEP_LAST`. -/
def KeepsLast (mode : Mode) : Prop := mode &&& .keepLast = .keepLast

instance (mode : Mode) : Decidable (IgnoreKeysAlone mode) := inferInstanceAs (Decidable (_ = _))

instance (mode : Mode) : Decidable (KeepsLast mode) := inferInstanceAs (Decidable (_ = _))

theorem ignoreKeys_eq_and (mode : Mode) :
    mode &&& .ignoreKeys = mode &&& .keepLast &&& .ignoreKeys := by
  rw [BitVec.and_assoc]
  rfl

theorem IgnoreKeysAlone.has {mode : Mode} (h : IgnoreKeysAlone mode) :
    mode.has .ignoreKeys = true := by
  rw [Mode.has, ignoreKeys_eq_and, show mode &&& .keepLast = _ from h]
  rfl

theorem KeepsLast.has {mode : Mode} (h : KeepsLast mode) : mode.has .ignoreKeys = true := by
  rw [Mode.has, ignoreKeys_eq_and, show mode &&& .keepLast = _ from h]
  rfl

/-- The test for `YOKAN_MODE_KEEP_LAST` succeeds in the mode `YOKAN_MODE_IGNORE_KEYS`. -/
theorem has_keepLast {mode : Mode} (h : mode.has .ignoreKeys = true) :
    mode.has .keepLast = true := by
  rw [Mode.has, bne_iff_ne] at h ⊢
  intro hzero
  rw [ignoreKeys_eq_and, hzero, BitVec.zero_and] at h
  exact h rfl

/-! ### What the slots should hold -/

/-- Nothing but the last of some keys. -/
def lastKept : List Bytes → List Bytes
  | [] => []
  | [key] => [key]
  | _ :: key :: keys => [] :: lastKept (key :: keys)

/-- None of some keys. -/
def noneKept (keys : List Bytes) : List Bytes := keys.map fun _ => []

theorem lastKept_cons {key : Bytes} {keys : List Bytes} (h : keys ≠ []) :
    lastKept (key :: keys) = [] :: lastKept keys := by
  cases keys with
  | nil => exact absurd rfl h
  | cons key' keys => rfl

/-- Keeping the last key makes a difference unless it is empty. -/
theorem lastKept_eq_noneKept_iff (keys : List Bytes) :
    lastKept keys = noneKept keys ↔ ∀ key ∈ keys.getLast?, key = [] := by
  induction keys with
  | nil => simp [lastKept, noneKept]
  | cons key keys ih =>
    cases keys with
    | nil => simp [lastKept, noneKept]
    | cons key' keys =>
      rw [lastKept_cons (List.cons_ne_nil _ _), List.getLast?_cons_cons, ← ih]
      simp [noneKept]

theorem length_lastKept (keys : List Bytes) : (lastKept keys).length = keys.length := by
  induction keys with
  | nil => rfl
  | cons key keys ih =>
    cases keys with
    | nil => rfl
    | cons key' keys =>
      rw [lastKept_cons (List.cons_ne_nil _ _), List.length_cons, ih]
      rfl

/-- Items are no longer than others, one by one. -/
def NoLonger : List Bytes → List Bytes → Prop := List.Forall₂ fun a b => a.length ≤ b.length

theorem noLonger_noneKept (keys : List Bytes) : NoLonger (noneKept keys) keys := by
  induction keys with
  | nil => exact .nil
  | cons key keys ih => exact .cons (Nat.zero_le _) ih

theorem noLonger_lastKept (keys : List Bytes) : NoLonger (lastKept keys) keys := by
  induction keys with
  | nil => exact .nil
  | cons key keys ih =>
    cases keys with
    | nil => exact .cons le_rfl .nil
    | cons key' keys => exact .cons (Nat.zero_le _) ih

theorem NoLonger.length_le_of_mem_zip {items items' : List Bytes} (h : NoLonger items items')
    {slots : List ℕ} (hroom : ∀ p ∈ items'.zip slots, p.1.length ≤ p.2) :
    ∀ p ∈ items.zip slots, p.1.length ≤ p.2 := by
  induction h generalizing slots with
  | nil => simp
  | cons hlen _ ih =>
    cases slots with
    | nil => simp
    | cons slot slots =>
      rw [List.zip_cons_cons, List.forall_mem_cons] at hroom ⊢
      exact ⟨hlen.trans hroom.1, ih hroom.2⟩

/-- A column that is large enough for some items is large enough for items that are no longer. -/
theorem Fits.of_noLonger {packed : Bool} {buf : Bytes} {slots : List ℕ} {items items' : List Bytes}
    (hfits : Fits packed buf slots items') (h : NoLonger items items') :
    Fits packed buf slots items := by
  refine ⟨hfits.1, ?_⟩
  have hfits := hfits.2
  cases packed with
  | true =>
    have hsum : (items.map List.length).sum ≤ (items'.map List.length).sum :=
      List.Forall₂.sum_le_sum (List.forall₂_map_left_iff.2 (List.forall₂_map_right_iff.2 h))
    exact hsum.trans hfits
  | false => exact ⟨hfits.1, h.length_le_of_mem_zip hfits.2⟩

/-- The caller finds these items in the first slots of a column, and the others marked. -/
def ReturnsItems (packed : Bool) (slots : List ℕ) (out : ColumnOutput) (items : List Bytes) :
    Prop :=
  out.sizes = items.map List.length ++
      List.replicate (slots.length - items.length) noMoreKeys ∧
    readColumn packed slots out = items

/-- The slots for some keys are as the mode asks for: all of size 0 with `YOKAN_MODE_IGNORE_KEYS`,
and all but the last one with `YOKAN_MODE_KEEP_LAST`. -/
def ReturnsKept (mode : Mode) (packed : Bool) (slots : List ℕ) (out : ColumnOutput)
    (keys : List Bytes) : Prop :=
  (IgnoreKeysAlone mode → ReturnsItems packed slots out (noneKept keys)) ∧
    (KeepsLast mode → ReturnsItems packed slots out (lastKept keys))

/-- What is written to a column that is large enough is returned. -/
theorem returns_pushAll {packed : Bool} {buf : Bytes} {slots : List ℕ} {items : List Bytes}
    (hlen : items.length ≤ slots.length) (hfits : Fits packed buf slots items) :
    ReturnsItems packed slots
      (((Column.start buf).pushAll packed (items.zip slots)).finish slots.length) items := by
  refine ⟨?_, (Column.readColumn_pushAll hlen hfits).1⟩
  have hsizes := Column.sizes_pushAll hlen hfits
  simp only [Column.finish, hsizes, List.length_map]

/-- What is returned is determined. -/
theorem ReturnsItems.inj {packed : Bool} {slots : List ℕ} {out : ColumnOutput}
    {items items' : List Bytes} (h : ReturnsItems packed slots out items)
    (h' : ReturnsItems packed slots out items') : items = items' :=
  h.2.symm.trans h'.2

namespace MapDatabase

variable {c : Comparator}

/-! ### The loop -/

/-- The keys of a page: the first ones that match, up to where the filter stops the walk. -/
def pageKeys (filter : KeyValueFilter) (es : List (Bytes × Bytes)) (count : ℕ) : List Bytes :=
  ((accepted filter (untilStop filter es)).take count).map Prod.fst

/-- The page is full, or its last key is the last one of the walk. -/
def FillsLast (filter : KeyValueFilter) (es : List (Bytes × Bytes)) (count : ℕ) : Prop :=
  (pageKeys filter es count).length = count ∨
    (pageKeys filter es count).getLast? = (es.map Prod.fst).getLast?

instance (filter : KeyValueFilter) (es : List (Bytes × Bytes)) (count : ℕ) :
    Decidable (FillsLast filter es count) :=
  inferInstanceAs (Decidable (_ ∨ _))

/-- What a listing that ignores keys writes to the slots. -/
def keptKeys (f : Bytes → Bytes) (filter : KeyValueFilter) (es : List (Bytes × Bytes))
    (count : ℕ) : List Bytes :=
  let keys := (pageKeys filter es count).map f
  if FillsLast filter es count then lastKept keys else noneKept keys

section Loop

variable {filter : KeyValueFilter} {f : Bytes → Bytes} {key val : Bytes}
  {rest : List (Bytes × Bytes)}

theorem pageKeys_nil (filter : KeyValueFilter) (count : ℕ) :
    pageKeys filter [] count = [] := by
  simp [pageKeys, untilStop, accepted]

theorem pageKeys_skip (rest : List (Bytes × Bytes)) (hcheck : filter.check key val = false)
    (hstop : filter.shouldStop key val = false) (count : ℕ) :
    pageKeys filter ((key, val) :: rest) count = pageKeys filter rest count := by
  rw [pageKeys, pageKeys, untilStop, List.takeWhile_cons_of_pos (by simp [hcheck, hstop]),
    accepted, List.filter_cons_of_neg (by simp [hcheck])]
  rfl

theorem pageKeys_stop (hcheck : filter.check key val = false)
    (hstop : filter.shouldStop key val = true) (count : ℕ) :
    pageKeys filter ((key, val) :: rest) count = [] := by
  rw [pageKeys, untilStop, List.takeWhile_cons_of_neg (by simp [hcheck, hstop]), accepted,
    List.filter_nil, List.take_nil, List.map_nil]

theorem pageKeys_match (rest : List (Bytes × Bytes)) (hcheck : filter.check key val = true)
    (count : ℕ) :
    pageKeys filter ((key, val) :: rest) (count + 1) =
      key :: pageKeys filter rest count := by
  rw [pageKeys, pageKeys, untilStop, List.takeWhile_cons_of_pos (by simp [hcheck]),
    accepted, List.filter_cons_of_pos (by simp [hcheck])]
  rfl

/-- An empty page fills no slots. -/
theorem keptKeys_of_nil {es : List (Bytes × Bytes)} {count : ℕ}
    (h : pageKeys filter es count = []) : keptKeys f filter es count = [] := by
  rw [keptKeys, h]
  split_ifs <;> rfl

theorem getLast?_cons_of_ne {es : List (Bytes × Bytes)} (h : es ≠ []) :
    (((key, val) :: es).map Prod.fst).getLast? = (es.map Prod.fst).getLast? := by
  cases es with
  | nil => exact absurd rfl h
  | cons e es => exact List.getLast?_cons_cons

/-- An entry that is skipped makes no difference to the slots. -/
theorem keptKeys_skip (hcheck : filter.check key val = false)
    (hstop : filter.shouldStop key val = false) (count : ℕ) :
    keptKeys f filter ((key, val) :: rest) count = keptKeys f filter rest count := by
  have hkeys := pageKeys_skip rest hcheck hstop count
  by_cases hrest : rest = []
  · have hnil : pageKeys filter rest count = [] := by rw [hrest, pageKeys_nil]
    rw [keptKeys_of_nil hnil, keptKeys_of_nil (hkeys.trans hnil)]
  · have hfills : FillsLast filter ((key, val) :: rest) count ↔ FillsLast filter rest count := by
      rw [FillsLast, FillsLast, hkeys, getLast?_cons_of_ne hrest]
    simp only [keptKeys, hfills, hkeys]

/-- A match gets its key in its slot if there is no slot or no entry behind it. -/
theorem keptKeys_match (hcheck : filter.check key val = true) (hkey : key ∉ rest.map Prod.fst)
    (count : ℕ) :
    keptKeys f filter ((key, val) :: rest) (count + 1) =
      (if count = 0 ∨ rest = [] then f key else []) :: keptKeys f filter rest count := by
  have hkeys := pageKeys_match rest hcheck count
  by_cases hlast : count = 0 ∨ rest = []
  · have hnil : pageKeys filter rest count = [] := by
      rcases hlast with rfl | rfl
      · rfl
      · exact pageKeys_nil filter count
    have hfills : FillsLast filter ((key, val) :: rest) (count + 1) := by
      rw [FillsLast, hkeys, hnil]
      exact hlast.imp (fun h => by rw [h]; rfl) fun h => by rw [h]; rfl
    rw [keptKeys_of_nil hnil, if_pos hlast, keptKeys, if_pos hfills, hkeys, hnil]
    rfl
  · rw [if_neg hlast]
    obtain ⟨hcount, hrest⟩ := not_or.1 hlast
    cases hmore : pageKeys filter rest count with
    | nil =>
      -- the key is the last match, but the listing cannot know that
      have hfills : ¬ FillsLast filter ((key, val) :: rest) (count + 1) := by
        rw [FillsLast, hkeys, hmore, getLast?_cons_of_ne hrest]
        rintro (hlen | hlast)
        · exact hcount (Nat.succ_injective hlen).symm
        · exact hkey (List.mem_of_getLast? hlast.symm)
      rw [keptKeys_of_nil hmore, keptKeys, if_neg hfills, hkeys, hmore]
      rfl
    | cons key' keys =>
      have hfills : FillsLast filter ((key, val) :: rest) (count + 1) ↔
          FillsLast filter rest count := by
        rw [FillsLast, FillsLast, hkeys, hmore, getLast?_cons_of_ne hrest, List.length_cons,
          Nat.add_right_cancel_iff, List.getLast?_cons_cons]
      simp only [keptKeys, hfills, hkeys, hmore]
      split_ifs <;> rfl

/-- A listing that ignores keys fills its last slot when the page is full or its last match is the
last entry. -/
theorem listKeysLoop_ignoring {mode : Mode} (hmode : mode.has .ignoreKeys = true)
    (hcopy : ∀ dst off room key, filter.keyCopy dst off room key = copyOut dst off room (f key))
    (packed : Bool) {es : List (Bytes × Bytes)} (hnodup : (es.map Prod.fst).Nodup)
    (slots : List ℕ) (keys : Column) :
    listKeysLoop mode packed filter es slots keys =
      keys.pushAll packed ((keptKeys f filter es slots.length).zip slots) := by
  -- `KEEP_LAST` keeps a key only in the last slot, or at the end of the map
  have hkept : ∀ (slots : List ℕ) (rest : List (Bytes × Bytes)) (key : Bytes),
      keyCopy mode (isLast mode slots rest) filter key = fun dst off room =>
        copyOut dst off room (if slots.length = 0 ∨ rest = [] then f key else []) := by
    intro slots rest key
    funext dst off room
    rw [keyCopy, isLast, hmode, has_keepLast hmode, hcopy]
    by_cases hlast : slots.length = 0 ∨ rest = []
    · have hempty : (slots.isEmpty || rest.isEmpty) = true := by
        simpa [List.length_eq_zero_iff] using hlast
      rw [if_pos hlast, hempty]
      rfl
    · have hempty : (slots.isEmpty || rest.isEmpty) = false := by
        simpa [List.length_eq_zero_iff] using hlast
      rw [if_neg hlast, hempty]
      simp [copyOut]
  induction es generalizing slots keys with
  | nil =>
    rw [keptKeys_of_nil (pageKeys_nil filter _)]
    rfl
  | cons e rest ih =>
    obtain ⟨key, val⟩ := e
    rw [List.map_cons, List.nodup_cons] at hnodup
    have ih := ih hnodup.2
    cases slots with
    | nil => simp [listKeysLoop, Column.pushAll]
    | cons slot slots =>
      rw [listKeysLoop]
      cases hcheck : filter.check key val with
      | true =>
        simp only [Bool.not_true, Bool.false_eq_true, if_false]
        rw [ih, List.length_cons, keptKeys_match hcheck hnodup.1, hkept]
        rfl
      | false =>
        cases hshould : filter.shouldStop key val with
        | true =>
          rw [keptKeys_of_nil (pageKeys_stop hcheck hshould _)]
          rfl
        | false =>
          simp only [Bool.not_false, if_true, Bool.false_eq_true, if_false]
          rw [ih, keptKeys_skip hcheck hshould]

end Loop

/-! ### The listings -/

/-- The key column of `listKeyValues` is that of `listKeys`. -/
theorem listKeyValuesLoop_fst (mode : Mode) (packed : Bool) (filter : KeyValueFilter)
    (es : List (Bytes × Bytes)) {kslots vslots : List ℕ} (hlen : kslots.length = vslots.length)
    (keys vals : Column) :
    (listKeyValuesLoop mode packed filter es (kslots.zip vslots) (keys, vals)).1 =
      listKeysLoop mode packed filter es kslots keys := by
  induction es generalizing kslots vslots keys vals with
  | nil => rfl
  | cons e rest ih =>
    obtain ⟨key, val⟩ := e
    rcases kslots with _ | ⟨kslot, kslots⟩ <;> rcases vslots with _ | ⟨vslot, vslots⟩
    · rfl
    · simp at hlen
    · simp at hlen
    · have hslots : kslots.length = vslots.length := by simpa using hlen
      have hfst : (kslots.zip vslots).map Prod.fst = kslots :=
        List.map_fst_zip (Nat.le_of_eq hslots)
      rw [List.zip_cons_cons, listKeyValuesLoop, listKeysLoop, hfst]
      split_ifs
      · rfl
      · exact ih hlen keys vals
      · exact ih hslots _ _

section Listings

variable {s : MapDatabase c} {mode fmode : Mode} {fromKey : Bytes} {packed : Bool}
  {keys vals : Bytes} {keySizes valSizes : List ℕ}

theorem nodup_entriesFrom (s : MapDatabase c) (inclusive : Bool) (fromKey : Bytes) :
    ((s.entriesFrom inclusive fromKey).map Prod.fst).Nodup := by
  have hsorted :
      Sorted (fun a b => c.lt a b = true) Prod.fst (s.entriesFrom inclusive fromKey) := by
    rw [entriesFrom_eq_beyond]
    exact (sorted_db s).sublist List.filter_sublist
  refine List.pairwise_map.2 (hsorted.imp fun hlt heq => ?_)
  rw [heq, c.irrefl] at hlt
  exact Bool.false_ne_true hlt

theorem length_keptKeys_le (f : Bytes → Bytes) (filter : KeyValueFilter)
    (es : List (Bytes × Bytes)) (count : ℕ) : (keptKeys f filter es count).length ≤ count := by
  have hlen : (pageKeys filter es count).length ≤ count := by
    rw [pageKeys, List.length_map, List.length_take]
    exact Nat.min_le_left _ _
  rw [keptKeys]
  split_ifs
  · rwa [length_lastKept, List.length_map]
  · rwa [noneKept, List.length_map, List.length_map]

theorem noLonger_keptKeys (f : Bytes → Bytes) (filter : KeyValueFilter)
    (es : List (Bytes × Bytes)) (count : ℕ) :
    NoLonger (keptKeys f filter es count) ((pageKeys filter es count).map f) := by
  rw [keptKeys]
  split_ifs
  · exact noLonger_lastKept _
  · exact noLonger_noneKept _

/-- A listing that ignores keys returns the slots of `keptKeys`. -/
theorem listings_ignoring (vals : Bytes) (hs : s.migrated = false)
    (hmode : mode.has .ignoreKeys = true)
    (sel : KeySelection) (hlen : keySizes.length = valSizes.length)
    (hfits : Fits packed keys keySizes
      ((pageKeys (sel.filter fmode) (s.entriesFrom (mode.has .inclusive) fromKey)
        keySizes.length).map (sel.shown fmode))) :
    let filter := sel.filter fmode
    let kept := keptKeys (sel.shown fmode) filter (s.entriesFrom (mode.has .inclusive) fromKey)
      keySizes.length
    let r := s.listKeys mode packed fromKey filter keys keySizes
    let q := s.listKeyValues mode packed fromKey filter keys keySizes vals valSizes
    (r.1 = .OK ∧ ReturnsItems packed keySizes r.2 kept) ∧
      q.1 = .OK ∧ ReturnsItems packed keySizes q.2.1 kept := by
  intro filter kept r q
  have hloop := listKeysLoop_ignoring hmode (sel.keyCopy_filter fmode) packed
    (nodup_entriesFrom s (mode.has .inclusive) fromKey) keySizes (Column.start keys)
  have hreturns := returns_pushAll (length_keptKeys_le (sel.shown fmode) filter _ _)
    (hfits.of_noLonger (noLonger_keptKeys ..))
  rw [← hloop] at hreturns
  constructor
  · simp only [r, listKeys, hs, Bool.false_eq_true, if_false]
    exact ⟨trivial, hreturns⟩
  · simp only [q, listKeyValues, hs, Bool.false_eq_true, if_false]
    rw [listKeyValuesLoop_fst _ _ _ _ hlen]
    exact ⟨trivial, hreturns⟩

/-- Slots filled as in `keptKeys` are those that a mode asks for exactly if the last key of the page
is kept when the mode keeps it, or is empty. -/
theorem returnsKept_iff (mode : Mode) (f : Bytes → Bytes) {filter : KeyValueFilter}
    {es : List (Bytes × Bytes)} {out : ColumnOutput}
    (hreturns : ReturnsItems packed keySizes out (keptKeys f filter es keySizes.length)) :
    let shown := (pageKeys filter es keySizes.length).map f
    ReturnsKept mode packed keySizes out shown ↔
      (IgnoreKeysAlone mode → FillsLast filter es keySizes.length →
          ∀ key ∈ shown.getLast?, key = []) ∧
        (KeepsLast mode → ¬ FillsLast filter es keySizes.length →
          ∀ key ∈ shown.getLast?, key = []) := by
  intro shown
  have hdetermined : ∀ items, ReturnsItems packed keySizes out items ↔
      keptKeys f filter es keySizes.length = items :=
    fun items => ⟨hreturns.inj, fun h => h ▸ hreturns⟩
  simp only [ReturnsKept, hdetermined, ← lastKept_eq_noneKept_iff]
  unfold keptKeys
  by_cases hfills : FillsLast filter es keySizes.length
  · simp [hfills, shown]
  · simp [hfills, shown, eq_comm]

/-- `YOKAN_MODE_IGNORE_KEYS` alone leaves all key slots empty exactly if the page is not full and
ends before the last key of the walk, and `YOKAN_MODE_KEEP_LAST` leaves all but the last one empty
exactly if the page is full or ends with the last key of the walk. It makes no difference when the
last key of the page is shown as empty. -/
theorem ignore_keys_keep_last_iff (hs : s.migrated = false) (mode fmode : Mode)
    (sel : KeySelection) (packed : Bool) (fromKey keys vals : Bytes)
    (hlen : keySizes.length = valSizes.length)
    (hfits : Fits packed keys keySizes
      ((pageKeys (sel.filter fmode) (s.entriesFrom (mode.has .inclusive) fromKey)
        keySizes.length).map (sel.shown fmode))) :
    let filter := sel.filter fmode
    let es := s.entriesFrom (mode.has .inclusive) fromKey
    let shown := (pageKeys filter es keySizes.length).map (sel.shown fmode)
    let r := s.listKeys mode packed fromKey filter keys keySizes
    let q := s.listKeyValues mode packed fromKey filter keys keySizes vals valSizes
    (r.1 = .OK ∧ ReturnsKept mode packed keySizes r.2 shown) ∧
        (q.1 = .OK ∧ ReturnsKept mode packed keySizes q.2.1 shown) ↔
      (IgnoreKeysAlone mode → FillsLast filter es keySizes.length →
          ∀ key ∈ shown.getLast?, key = []) ∧
        (KeepsLast mode → ¬ FillsLast filter es keySizes.length →
          ∀ key ∈ shown.getLast?, key = []) := by
  intro filter es shown r q
  cases hmode : mode.has .ignoreKeys with
  | true =>
    obtain ⟨⟨hstatus, hkeys⟩, hstatus', hkeys'⟩ :=
      listings_ignoring vals hs hmode sel hlen hfits
    have hiff := (and_iff_right hstatus).trans (returnsKept_iff mode _ hkeys)
    have hiff' := (and_iff_right hstatus').trans (returnsKept_iff mode _ hkeys')
    exact (and_congr hiff hiff').trans and_self_iff
  | false =>
    have halone : ¬ IgnoreKeysAlone mode := fun h => Bool.false_ne_true (hmode.symm.trans h.has)
    have hkeeps : ¬ KeepsLast mode := fun h => Bool.false_ne_true (hmode.symm.trans h.has)
    have hstatus : r.1 = .OK := by simp [r, listKeys, hs]
    have hstatus' : q.1 = .OK := by simp [q, listKeyValues, hs]
    simp [ReturnsKept, halone, hkeeps, hstatus, hstatus']

/-- A database with two keys. -/
def ascending : MapDatabase .default := ((empty _).assign [1] [10]).assign [2] [20]

/-- A page that is full, in the mode `YOKAN_MODE_KEEP_LAST`. -/
theorem ignore_keys_keep_last_iff_full :
    let r := ascending.listKeys .keepLast false [] (keyPrefixFilter .default []) [0, 0] [1, 1]
    let q := ascending.listKeyValues .keepLast false [] (keyPrefixFilter .default []) [0, 0] [1, 1]
      [0, 0] [1, 1]
    (r.1 = .OK ∧ ReturnsKept .keepLast false [1, 1] r.2 [[1], [2]]) ∧
      q.1 = .OK ∧ ReturnsKept .keepLast false [1, 1] q.2.1 [[1], [2]] :=
  (ignore_keys_keep_last_iff (s := ascending) rfl .keepLast .default (.startingWith []) false []
    [0, 0] [0, 0] rfl (by decide)).2
      ⟨fun h => absurd h (by decide), fun _ h => absurd h (by decide)⟩

/-- The only key with the prefix `[1]` is not kept, since another key is stored behind it. -/
theorem keep_last_lost :
    ¬ ∀ (c : Comparator) (s : MapDatabase c) (mode fmode : Mode) (sel : KeySelection)
      (packed : Bool) (fromKey keys vals : Bytes) (keySizes valSizes : List ℕ),
      s.migrated = false → keySizes.length = valSizes.length →
        let filter := sel.filter fmode
        let shown := (pageKeys filter (s.entriesFrom (mode.has .inclusive) fromKey)
          keySizes.length).map (sel.shown fmode)
        Fits packed keys keySizes shown →
          let r := s.listKeys mode packed fromKey filter keys keySizes
          let q := s.listKeyValues mode packed fromKey filter keys keySizes vals valSizes
          (r.1 = .OK ∧ ReturnsKept mode packed keySizes r.2 shown) ∧
            q.1 = .OK ∧ ReturnsKept mode packed keySizes q.2.1 shown := by
  intro h
  have hkept := (h .default ascending .keepLast .default (.startingWith [1]) false [] [0, 0] [0, 0]
    [1, 1] [1, 1] rfl rfl (by decide)).1.2.2 (by decide)
  exact absurd hkept.1 (by decide)

end Listings

end MapDatabase

end Yokan
