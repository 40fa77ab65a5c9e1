import Yokan.Map
import Yokan.Filters
import Yokan.Library.Paging

/-!
# Yokan: listing a `map` database

`MapDatabase::listKeys`, `listKeyValues` and `iter` (`src/backends/map.cpp`). They walk the
container from a bound on, skip what the filter rejects, stop where the filter says that nothing
more can pass, and write what they find to the caller's columns, packed or slot by slot.

* `listKeysLoop_eq`, `listKeyValuesLoop_eq`, `iterLoop_eq`: the walks see the matching entries in order;
* `readColumn_pushAll`: what is written to a column that is large enough can be read back;
* `list_complete`: a caller who lists page after page gets every matching entry, in order, once.
-/

namespace Yokan

open Buffer Paging

/-! ### Columns -/

/-- An array of keys or of values that a listing fills: the caller's buffer, the offset reached in
it, whether a packed item failed to fit, and the sizes written so far. -/
structure Column where
  buf : Bytes
  offset : ℕ
  tooSmall : Bool
  sizes : List ℕ

/-- What the caller finds: the buffer, its new size and the array of sizes. -/
structure ColumnOutput where
  buf : Bytes
  size : ℕ
  sizes : List ℕ
  deriving DecidableEq

namespace Column

/-- A column before the listing. -/
def start (buf : Bytes) : Column := ⟨buf, 0, false, []⟩

/-- Write an item with `copy`, which gets the buffer, the offset and the room. Items are packed
one after the other, or each is written at the start of its own slot. -/
def push (packed : Bool) (slot : ℕ) (copy : Bytes → ℕ → ℕ → ℕ × Bytes) (col : Column) : Column :=
  if packed then
    if col.tooSmall then { col with sizes := col.sizes ++ [sizeTooSmall] }
    else
      let (size, buf) := copy col.buf col.offset (col.buf.length - col.offset)
      if size = sizeTooSmall then
        { col with buf, tooSmall := true, sizes := col.sizes ++ [size] }
      else { col with buf, offset := col.offset + size, sizes := col.sizes ++ [size] }
  else
    let (size, buf) := copy col.buf col.offset slot
    { col with buf, offset := addSize col.offset slot, sizes := col.sizes ++ [size] }

/-- The end of a listing: the slots left over are marked `YOKAN_NO_MORE_KEYS`. -/
def finish (max : ℕ) (col : Column) : ColumnOutput :=
  ⟨col.buf, col.offset, col.sizes ++ List.replicate (max - col.sizes.length) noMoreKeys⟩

end Column

/-- `keyCopy` of `src/backends/util/key-copy.hpp`. -/
def keyCopy (mode : Mode) (isLast : Bool) (filter : KeyValueFilter) (key : Bytes) (dst : Bytes)
    (off room : ℕ) : ℕ × Bytes :=
  if mode.has .ignoreKeys && !(isLast && mode.has .keepLast) then (0, dst)
  else filter.keyCopy dst off room key

/-! ### Reading a column back -/

/-- Items read from their slots, up to the first slot marked `YOKAN_NO_MORE_KEYS`. -/
def readSlots (buf : Bytes) : ℕ → List ℕ → List ℕ → List Bytes
  | off, slot :: slots, size :: sizes =>
    if size = noMoreKeys then [] else slice buf off size :: readSlots buf (off + slot) slots sizes
  | _, _, _ => []

/-- The items a caller finds in a column it passed with the sizes `slots`. -/
def readColumn (packed : Bool) (slots : List ℕ) (out : ColumnOutput) : List Bytes :=
  if packed then unpack out.buf (out.sizes.takeWhile (· ≠ noMoreKeys))
  else readSlots out.buf 0 slots out.sizes

/-- A column is large enough for some items: the buffer for all of them when they are packed,
otherwise each slot for its own, and the buffer for the slots. -/
def Fits (packed : Bool) (buf : Bytes) (slots : List ℕ) (items : List Bytes) : Prop :=
  buf.length ≤ lastValidSize ∧
    if packed then (items.map List.length).sum ≤ buf.length
    else slots.sum ≤ buf.length ∧ ∀ p ∈ items.zip slots, p.1.length ≤ p.2

namespace Column

/-- Write items one after the other, each with its slot. -/
def pushAll (packed : Bool) (items : List (Bytes × ℕ)) (col : Column) : Column :=
  items.foldl (fun col p => col.push packed p.2 (fun dst off room => copyOut dst off room p.1)) col

theorem pushAll_packed (items : List Bytes) (slots : List ℕ) (hlen : items.length ≤ slots.length)
    (col : Column) (hcol : col.tooSmall = false) (hbuf : col.buf.length ≤ lastValidSize)
    (hfit : col.offset + (items.map List.length).sum ≤ col.buf.length) :
    pushAll true (items.zip slots) col =
      ⟨blit col.buf col.offset items.flatten, col.offset + (items.map List.length).sum, false,
        col.sizes ++ items.map List.length⟩ := by
  induction items generalizing slots col with
  | nil => cases col; simp_all [pushAll]
  | cons item items ih =>
    cases slots with
    | nil => simp at hlen
    | cons slot slots =>
      simp only [List.map_cons, List.sum_cons, List.length_cons] at hfit hlen ⊢
      have hne : item.length ≠ sizeTooSmall := by
        have h1 := lastValidSize_lt_noMoreKeys
        have h2 := noMoreKeys_lt_sizeTooSmall
        omega
      have hpush : col.push true slot (fun dst off room => copyOut dst off room item) =
          ⟨blit col.buf col.offset item, col.offset + item.length, false,
            col.sizes ++ [item.length]⟩ := by
        simp only [push, hcol, copyOut, if_neg (show ¬ col.buf.length - col.offset < item.length
          by omega), if_neg hne, if_true, Bool.false_eq_true, if_false]
      have hblit : (blit col.buf col.offset item).length = col.buf.length :=
        length_blit (by omega)
      have hrest := ih slots (by omega) (col.push true slot (fun dst off room =>
        copyOut dst off room item)) (by rw [hpush]) (by rw [hpush, hblit]; exact hbuf)
        (by rw [hpush, hblit]; dsimp only; omega)
      refine hrest.trans ?_
      rw [hpush]
      simp only [Column.mk.injEq, true_and]
      refine ⟨?_, by omega, by simp⟩
      rw [blit_blit_adjacent (by omega), List.flatten_cons]

/-- Items as long as their slots fill a column alike, packed or not. -/
theorem pushAll_exact (packed : Bool) (items : List Bytes) (slots : List ℕ)
    (hlen : items.length ≤ slots.length) (hexact : ∀ p ∈ items.zip slots, p.1.length = p.2)
    (col : Column) (hcol : col.tooSmall = false) (hbuf : col.buf.length ≤ lastValidSize)
    (hfit : col.offset + (items.map List.length).sum ≤ col.buf.length) :
    pushAll packed (items.zip slots) col =
      ⟨blit col.buf col.offset items.flatten, col.offset + (items.map List.length).sum, false,
        col.sizes ++ items.map List.length⟩ := by
  rw [← pushAll_packed items slots hlen col hcol hbuf hfit]
  cases packed with
  | true => rfl
  | false =>
    induction items generalizing slots col with
    | nil => rfl
    | cons item items ih =>
      cases slots with
      | nil => simp at hlen
      | cons slot slots =>
        simp only [List.map_cons, List.sum_cons, List.length_cons, List.zip_cons_cons,
          List.mem_cons, forall_eq_or_imp] at hfit hlen hexact
        obtain ⟨hslot, hexact⟩ := hexact
        have hlt : lastValidSize < 2 ^ 64 := by decide
        have hne : item.length ≠ sizeTooSmall := by
          have h1 := lastValidSize_lt_noMoreKeys
          have h2 := noMoreKeys_lt_sizeTooSmall
          omega
        have hroom : ¬ col.buf.length - col.offset < item.length := by omega
        have hadd : addSize col.offset item.length = col.offset + item.length :=
          addSize_eq (by omega)
        have hpush : ∀ packed, col.push packed slot (fun dst off room => copyOut dst off room item) =
            ⟨blit col.buf col.offset item, col.offset + item.length, false,
              col.sizes ++ [item.length]⟩ := by
          intro packed
          cases packed <;> simp [push, hcol, copyOut, hroom, hne, ← hslot, hadd]
        have hblit : (blit col.buf col.offset item).length = col.buf.length :=
          length_blit (by omega)
        have hstep : ∀ packed, pushAll packed ((item :: items).zip (slot :: slots)) col =
            pushAll packed (items.zip slots) ⟨blit col.buf col.offset item,
              col.offset + item.length, false, col.sizes ++ [item.length]⟩ := by
          intro packed
          rw [← hpush packed]
          rfl
        rw [hstep, hstep]
        exact ih slots (by omega) hexact _ rfl (by rwa [hblit]) (by rw [hblit]; dsimp only; omega)

theorem pushAll_slots (items : List Bytes) (slots : List ℕ) (hlen : items.length ≤ slots.length)
    (col : Column) (hbuf : col.buf.length ≤ lastValidSize)
    (hfit : col.offset + slots.sum ≤ col.buf.length)
    (hroom : ∀ p ∈ items.zip slots, p.1.length ≤ p.2) :
    let r := pushAll false (items.zip slots) col
    r.buf.length = col.buf.length ∧ r.sizes = col.sizes ++ items.map List.length ∧
      (∀ a n, a + n ≤ col.offset → slice r.buf a n = slice col.buf a n) ∧
      ∀ more, readSlots r.buf col.offset slots
        (items.map List.length ++ List.replicate more noMoreKeys) = items := by
  induction items generalizing slots col with
  | nil =>
    refine ⟨rfl, by simp [pushAll], fun a n _ => rfl, ?_⟩
    intro more
    cases slots with
    | nil => cases more <;> rfl
    | cons slot slots => cases more <;> simp [readSlots, List.replicate_succ]
  | cons item items ih =>
    cases slots with
    | nil => simp at hlen
    | cons slot slots =>
      simp only [List.zip_cons_cons, List.mem_cons, forall_eq_or_imp] at hroom
      obtain ⟨hitem, hroom⟩ := hroom
      simp only [List.sum_cons, List.length_cons] at hfit hlen
      have hlt : lastValidSize < 2 ^ 64 := by decide
      have hpush : col.push false slot (fun dst off room => copyOut dst off room item) =
          ⟨blit col.buf col.offset item, col.offset + slot, col.tooSmall,
            col.sizes ++ [item.length]⟩ := by
        simp only [push, copyOut, if_neg (show ¬ slot < item.length by omega),
          Bool.false_eq_true, if_false, addSize_eq (show col.offset + slot < 2 ^ 64 by omega)]
      have hblit : (blit col.buf col.offset item).length = col.buf.length :=
        length_blit (by omega)
      obtain ⟨h1, h2, h3, h4⟩ := ih slots (by omega) (col.push false slot (fun dst off room =>
        copyOut dst off room item)) (by rw [hpush, hblit]; exact hbuf)
        (by rw [hpush, hblit]; dsimp only; omega) hroom
      have hstep : pushAll false ((item :: items).zip (slot :: slots)) col =
          pushAll false (items.zip slots) (col.push false slot (fun dst off room =>
            copyOut dst off room item)) := rfl
      simp only [hstep]
      rw [hpush] at h1 h2 h3 h4 ⊢
      refine ⟨h1.trans hblit, by rw [h2]; simp, ?_, ?_⟩
      · intro a n han
        rw [h3 a n (by dsimp only; omega), slice_blit_before (by omega) han]
      · intro more
        have hne : item.length ≠ noMoreKeys := by
          have := lastValidSize_lt_noMoreKeys
          omega
        rw [List.map_cons, List.cons_append, readSlots, if_neg hne, h4 more,
          h3 _ _ (by dsimp only; omega), slice_blit_same (by omega)]

/-- The items that fit are not longer than the buffer. -/
theorem length_le_of_fits {packed : Bool} {buf : Bytes} {slots : List ℕ} {items : List Bytes}
    (hlen : items.length ≤ slots.length) (hfits : Fits packed buf slots items) {item : Bytes}
    (hitem : item ∈ items) : item.length ≤ buf.length := by
  obtain ⟨-, hfits⟩ := hfits
  cases packed with
  | true =>
    rw [if_pos rfl] at hfits
    exact le_trans (List.single_le_sum (by simp) _ (List.mem_map_of_mem hitem)) hfits
  | false =>
    rw [if_neg (by decide)] at hfits
    obtain ⟨i, hi, rfl⟩ := List.mem_iff_getElem.1 hitem
    have hslot : i < slots.length := by omega
    have hmem : (items[i], slots[i]) ∈ items.zip slots := by
      refine List.mem_iff_getElem.2 ⟨i, ?_, ?_⟩
      · rw [List.length_zip]; omega
      · rw [List.getElem_zip]
    have hsum : slots[i] ≤ slots.sum := List.single_le_sum (by simp) _ (List.getElem_mem hslot)
    have hroom : items[i].length ≤ slots[i] := hfits.2 _ hmem
    omega

/-- They are too short for their sizes to be taken for a mark. -/
theorem length_ne_of_fits {packed : Bool} {buf : Bytes} {slots : List ℕ} {items : List Bytes}
    (hlen : items.length ≤ slots.length) (hfits : Fits packed buf slots items) {item : Bytes}
    (hitem : item ∈ items) : item.length ≠ noMoreKeys := by
  have hbuf := hfits.1
  have hle := length_le_of_fits hlen hfits hitem
  have hmark := lastValidSize_lt_noMoreKeys
  omega

/-- A column that is large enough gets the sizes of the items. -/
theorem sizes_pushAll {packed : Bool} {buf : Bytes} {slots : List ℕ} {items : List Bytes}
    (hlen : items.length ≤ slots.length) (hfits : Fits packed buf slots items) :
    ((start buf).pushAll packed (items.zip slots)).sizes = items.map List.length := by
  obtain ⟨hbuf, hfits⟩ := hfits
  cases packed with
  | true =>
    rw [if_pos rfl] at hfits
    rw [pushAll_packed items slots hlen (start buf) rfl hbuf (by simpa [start] using hfits)]
    exact List.nil_append _
  | false =>
    rw [if_neg (by decide)] at hfits
    obtain ⟨-, hsizes, -⟩ := pushAll_slots items slots hlen (start buf) hbuf
      (by simpa [start] using hfits.1) hfits.2
    exact hsizes.trans (List.nil_append _)

/-- What is written to a column that is large enough can be read back, and the listing is marked
as exhausted when there were fewer items than slots. -/
theorem readColumn_pushAll {packed : Bool} {buf : Bytes} {slots : List ℕ} {items : List Bytes}
    (hlen : items.length ≤ slots.length) (hfits : Fits packed buf slots items) :
    let out := ((start buf).pushAll packed (items.zip slots)).finish slots.length
    readColumn packed slots out = items ∧
      out.sizes.contains noMoreKeys = decide (items.length < slots.length) := by
  have hmark : ∀ n ∈ items.map List.length, n ≠ noMoreKeys := by
    intro n hn
    obtain ⟨item, hitem, rfl⟩ := List.mem_map.1 hn
    exact length_ne_of_fits hlen hfits hitem
  have hcontains : (items.map List.length ++
      List.replicate (slots.length - items.length) noMoreKeys).contains noMoreKeys =
        decide (items.length < slots.length) := by
    have hno : noMoreKeys ∉ items.map List.length := fun h => hmark _ h rfl
    rw [Bool.eq_iff_iff, List.contains_iff_mem, decide_eq_true_eq, List.mem_append,
      List.mem_replicate]
    constructor
    · rintro (h | h)
      · exact absurd h hno
      · omega
    · exact fun h => Or.inr ⟨by omega, rfl⟩
  obtain ⟨hbuf, hfits⟩ := hfits
  cases packed with
  | true =>
    rw [if_pos rfl] at hfits
    rw [pushAll_packed items slots hlen (start buf) rfl hbuf (by simpa [start] using hfits)]
    simp only [start, finish, List.nil_append, List.length_map]
    refine ⟨?_, hcontains⟩
    have htake : (items.map List.length ++ List.replicate (slots.length - items.length)
        noMoreKeys).takeWhile (· ≠ noMoreKeys) = items.map List.length := by
      rw [List.takeWhile_append_of_pos (by simpa using hmark), List.takeWhile_replicate]
      simp
    rw [readColumn, if_pos rfl, htake]
    simp only [blit, List.take_zero, List.nil_append]
    exact unpack_flatten_append items _
  | false =>
    rw [if_neg (by decide)] at hfits
    obtain ⟨-, hsizes, -, hread⟩ := pushAll_slots items slots hlen (start buf) hbuf
      (by simpa [start] using hfits.1) hfits.2
    have hsizes' : (pushAll false (items.zip slots) (start buf)).sizes = items.map List.length :=
      hsizes
    simp only [finish, hsizes', List.length_map]
    exact ⟨hread _, hcontains⟩

end Column

/-! ### The functions -/

namespace MapDatabase

variable {c : Comparator}

/-- The entries from the iterator `fromKeyIt` on: `begin()`, `lower_bound` or `upper_bound`. -/
def entriesFrom (s : MapDatabase c) (inclusive : Bool) (fromKey : Bytes) : List (Bytes × Bytes) :=
  if fromKey.length = 0 then s.db.toList
  else if inclusive then s.db.toList.dropWhile (fun e => c.lt e.1 fromKey)
  else s.db.toList.dropWhile (fun e => !c.lt fromKey e.1)

/-- `is_last` of the listings. -/
def isLast (mode : Mode) (slots : List ℕ) (rest : List (Bytes × Bytes)) : Bool :=
  mode.has .keepLast && (slots.isEmpty || rest.isEmpty)

/-- The loop of `listKeys`, over the entries left to visit and the slots left to fill. -/
def listKeysLoop (mode : Mode) (packed : Bool) (filter : KeyValueFilter) :
    List (Bytes × Bytes) → List ℕ → Column → Column
  | [], _, keys => keys
  | _ :: _, [], keys => keys
  | (key, val) :: rest, slot :: slots, keys =>
    if !filter.check key val then
      if filter.shouldStop key val then keys
      else listKeysLoop mode packed filter rest (slot :: slots) keys
    else
      listKeysLoop mode packed filter rest slots
        (keys.push packed slot (keyCopy mode (isLast mode slots rest) filter key))

/-- `MapDatabase::listKeys`. -/
def listKeys (mode : Mode) (packed : Bool) (s : MapDatabase c) (fromKey : Bytes)
    (filter : KeyValueFilter) (keys : Bytes) (keySizes : List ℕ) : Status × ColumnOutput :=
  if s.migrated then (.Migrated, ⟨keys, keys.length, keySizes⟩)
  else
    let col := listKeysLoop mode packed filter (s.entriesFrom (mode.has .inclusive) fromKey)
      keySizes (Column.start keys)
    (.OK, col.finish keySizes.length)

/-- The loop of `listKeyValues`. A slot is a pair of sizes. -/
def listKeyValuesLoop (mode : Mode) (packed : Bool) (filter : KeyValueFilter) :
    List (Bytes × Bytes) → List (ℕ × ℕ) → Column × Column → Column × Column
  | [], _, cols => cols
  | _ :: _, [], cols => cols
  | (key, val) :: rest, (kslot, vslot) :: slots, (keys, vals) =>
    if !filter.check key val then
      if filter.shouldStop key val then (keys, vals)
      else listKeyValuesLoop mode packed filter rest ((kslot, vslot) :: slots) (keys, vals)
    else
      listKeyValuesLoop mode packed filter rest slots
        (keys.push packed kslot
          (keyCopy mode (isLast mode (slots.map Prod.fst) rest) filter key),
          vals.push packed vslot (fun dst off room => filter.valCopy dst off room val))

/-- `MapDatabase::listKeyValues`. -/
def listKeyValues (mode : Mode) (packed : Bool) (s : MapDatabase c) (fromKey : Bytes)
    (filter : KeyValueFilter) (keys : Bytes) (keySizes : List ℕ) (vals : Bytes)
    (valSizes : List ℕ) : Status × ColumnOutput × ColumnOutput :=
  if s.migrated then
    (.Migrated, ⟨keys, keys.length, keySizes⟩, ⟨vals, vals.length, valSizes⟩)
  else
    let cols := listKeyValuesLoop mode packed filter
      (s.entriesFrom (mode.has .inclusive) fromKey) (keySizes.zip valSizes)
      (Column.start keys, Column.start vals)
    (.OK, cols.1.finish keySizes.length, cols.2.finish valSizes.length)

/-- The loop of `iter`. `i` counts the entries delivered, and `max = 0` means no limit. -/
def iterLoop {υ : Type} (max : ℕ) (filter : KeyValueFilter) (ignoreValues : Bool)
    (func : υ → Bytes → Bytes → Status × υ) : List (Bytes × Bytes) → ℕ → υ → Status × υ
  | [], _, u => (.OK, u)
  | (key, val) :: rest, i, u =>
    if max = 0 ∨ i < max then
      if !filter.check key val then
        if filter.shouldStop key val then (.OK, u)
        else iterLoop max filter ignoreValues func rest i u
      else
        match func u key (if ignoreValues && !filter.requiresValue then [] else val) with
        | (.OK, u) => iterLoop max filter ignoreValues func rest (i + 1) u
        | (status, u) => (status, u)
    else (.OK, u)

/-- `MapDatabase::iter`. -/
def iter {υ : Type} (mode : Mode) (max : ℕ) (s : MapDatabase c) (fromKey : Bytes)
    (filter : KeyValueFilter) (ignoreValues : Bool) (func : υ → Bytes → Bytes → Status × υ)
    (u : υ) : Status × υ :=
  if s.migrated then (.Migrated, u)
  else
    iterLoop max filter ignoreValues func (s.entriesFrom (mode.has .inclusive) fromKey) 0 u

/-! ### What the walks see -/

/-- The entries that pass a filter. -/
def accepted (filter : KeyValueFilter) (es : List (Bytes × Bytes)) : List (Bytes × Bytes) :=
  es.filter (fun e => filter.check e.1 e.2)

section Walks

variable {r : Bytes → Bytes → Prop} {filter : KeyValueFilter} {mode : Mode}

theorem zip_take_length {α β : Type} (as : List α) (bs : List β) :
    (as.take bs.length).zip bs = as.zip bs := by
  induction as generalizing bs with
  | nil => simp
  | cons a as ih =>
    cases bs with
    | nil => rfl
    | cons b bs => rw [List.length_cons, List.take_succ_cons, List.zip_cons_cons, ih,
        List.zip_cons_cons]

/-- After an entry where the filter stops, it accepts nothing. -/
theorem accepted_of_shouldStop (hstop : filter.StopSound r) {key val : Bytes}
    {rest : List (Bytes × Bytes)} (hsorted : Sorted r Prod.fst ((key, val) :: rest))
    (hcheck : filter.check key val = false) (hshould : filter.shouldStop key val = true) :
    accepted filter rest = [] := by
  unfold accepted
  rw [List.filter_eq_nil_iff]
  intro e he
  rw [hstop key val hcheck hshould e.1 e.2 ((List.pairwise_cons.1 hsorted).1 e he)]
  exact Bool.false_ne_true

theorem keyCopy_of_whole (hmode : mode.has .ignoreKeys = false) (hwhole : filter.Whole)
    (isLast : Bool) (key : Bytes) :
    keyCopy mode isLast filter key = fun dst off room => copyOut dst off room key := by
  funext dst off room
  rw [keyCopy, hmode, Bool.false_and, if_neg Bool.false_ne_true, hwhole.1]

theorem listKeysLoop_eq (hstop : filter.StopSound r) (hmode : mode.has .ignoreKeys = false)
    (hwhole : filter.Whole) (packed : Bool) {es : List (Bytes × Bytes)}
    (hsorted : Sorted r Prod.fst es) (slots : List ℕ) (keys : Column) :
    listKeysLoop mode packed filter es slots keys =
      keys.pushAll packed (((accepted filter es).map Prod.fst).zip slots) := by
  induction es generalizing slots keys with
  | nil => rfl
  | cons e rest ih =>
    obtain ⟨key, val⟩ := e
    have ih := ih (List.pairwise_cons.1 hsorted).2
    cases slots with
    | nil => simp [listKeysLoop, Column.pushAll]
    | cons slot slots =>
      cases hcheck : filter.check key val with
      | false =>
        have hskip : accepted filter ((key, val) :: rest) = accepted filter rest :=
          List.filter_cons_of_neg (by simp [hcheck])
        rw [hskip]
        cases hshould : filter.shouldStop key val with
        | false => simpa [listKeysLoop, hcheck, hshould] using ih (slot :: slots) keys
        | true =>
          rw [accepted_of_shouldStop hstop hsorted hcheck hshould]
          simp [listKeysLoop, hcheck, hshould, Column.pushAll]
      | true =>
        have hkeep : accepted filter ((key, val) :: rest) = (key, val) :: accepted filter rest :=
          List.filter_cons_of_pos (by simp [hcheck])
        rw [hkeep]
        simp only [listKeysLoop, hcheck, Bool.not_true, Bool.false_eq_true, if_false]
        rw [ih, keyCopy_of_whole hmode hwhole]
        rfl

/-- `listKeyValues` writes the accepted entries, with keys changed as the filter does. -/
theorem listKeyValuesLoop_pushAll {f : Bytes → Bytes} (hstop : filter.StopSound r)
    (hmode : mode.has .ignoreKeys = false)
    (hkey : ∀ dst off room key, filter.keyCopy dst off room key = copyOut dst off room (f key))
    (hval : filter.valCopy = copyOut) (packed : Bool) {es : List (Bytes × Bytes)}
    (hsorted : Sorted r Prod.fst es) (kslots vslots : List ℕ)
    (hlen : kslots.length = vslots.length) (keys vals : Column) :
    listKeyValuesLoop mode packed filter es (kslots.zip vslots) (keys, vals) =
      (keys.pushAll packed (((accepted filter es).map (fun e => f e.1)).zip kslots),
        vals.pushAll packed (((accepted filter es).map Prod.snd).zip vslots)) := by
  have hcopy : ∀ isLast key, keyCopy mode isLast filter key =
      fun dst off room => copyOut dst off room (f key) := by
    intro isLast key
    funext dst off room
    rw [keyCopy, hmode, Bool.false_and, if_neg Bool.false_ne_true, hkey]
  induction es generalizing kslots vslots keys vals with
  | nil => rfl
  | cons e rest ih =>
    obtain ⟨key, val⟩ := e
    have ih := ih (List.pairwise_cons.1 hsorted).2
    rcases kslots with _ | ⟨kslot, kslots⟩ <;> rcases vslots with _ | ⟨vslot, vslots⟩
    · simp [listKeyValuesLoop, Column.pushAll]
    · simp at hlen
    · simp at hlen
    · rw [List.zip_cons_cons]
      cases hcheck : filter.check key val with
      | false =>
        have hskip : accepted filter ((key, val) :: rest) = accepted filter rest :=
          List.filter_cons_of_neg (by simp [hcheck])
        rw [hskip]
        cases hshould : filter.shouldStop key val with
        | false =>
          simpa [listKeyValuesLoop, hcheck, hshould] using
            ih (kslot :: kslots) (vslot :: vslots) hlen keys vals
        | true =>
          rw [accepted_of_shouldStop hstop hsorted hcheck hshould]
          simp [listKeyValuesLoop, hcheck, hshould, Column.pushAll]
      | true =>
        have hkeep : accepted filter ((key, val) :: rest) = (key, val) :: accepted filter rest :=
          List.filter_cons_of_pos (by simp [hcheck])
        rw [hkeep]
        simp only [listKeyValuesLoop, hcheck, Bool.not_true, Bool.false_eq_true, if_false]
        rw [ih _ _ (by simpa using hlen), hcopy, hval]
        rfl

theorem listKeyValuesLoop_eq (hstop : filter.StopSound r) (hmode : mode.has .ignoreKeys = false)
    (hwhole : filter.Whole) (packed : Bool) {es : List (Bytes × Bytes)}
    (hsorted : Sorted r Prod.fst es) (kslots vslots : List ℕ)
    (hlen : kslots.length = vslots.length) (keys vals : Column) :
    listKeyValuesLoop mode packed filter es (kslots.zip vslots) (keys, vals) =
      (keys.pushAll packed (((accepted filter es).map Prod.fst).zip kslots),
        vals.pushAll packed (((accepted filter es).map Prod.snd).zip vslots)) :=
  listKeyValuesLoop_pushAll (f := id) hstop hmode (fun dst off room key => by rw [hwhole.1]; rfl)
    hwhole.2 packed hsorted kslots vslots hlen keys vals

/-- `iter` does not see the entries that the filter rejects. -/
theorem iterLoop_accepted {υ : Type} (func : υ → Bytes → Bytes → Status × υ)
    (hstop : filter.StopSound r) (max : ℕ) (ignoreValues : Bool) {es : List (Bytes × Bytes)}
    (hsorted : Sorted r Prod.fst es) (i : ℕ) (u : υ) :
    iterLoop max filter ignoreValues func es i u =
      iterLoop max filter ignoreValues func (accepted filter es) i u := by
  induction es generalizing i u with
  | nil => rfl
  | cons e rest ih =>
    obtain ⟨key, val⟩ := e
    have ih := ih (List.pairwise_cons.1 hsorted).2
    by_cases hmax : max = 0 ∨ i < max
    · cases hcheck : filter.check key val with
      | false =>
        have hskip : accepted filter ((key, val) :: rest) = accepted filter rest :=
          List.filter_cons_of_neg (by simp [hcheck])
        rw [hskip]
        cases hshould : filter.shouldStop key val with
        | false => simpa [iterLoop, hmax, hcheck, hshould] using ih i u
        | true =>
          rw [accepted_of_shouldStop hstop hsorted hcheck hshould]
          simp [iterLoop, hmax, hcheck, hshould]
      | true =>
        have hkeep : accepted filter ((key, val) :: rest) = (key, val) :: accepted filter rest :=
          List.filter_cons_of_pos (by simp [hcheck])
        rw [hkeep]
        simp only [iterLoop, if_pos hmax, hcheck, Bool.not_true, Bool.false_eq_true, if_false]
        rcases func u key (if ignoreValues && !filter.requiresValue then [] else val) with
          ⟨status, u'⟩
        cases status <;> first | rfl | exact ih (i + 1) u'
    · have hnone : ∀ es, iterLoop max filter ignoreValues func es i u = (.OK, u) := by
        intro es
        cases es with
        | nil => rfl
        | cons e es => exact if_neg hmax
      rw [hnone, hnone]

/-- `iter` calls a callback that succeeds on the first accepted entries, up to the limit. -/
theorem iterLoop_eq {υ : Type} {func : υ → Bytes → Bytes → Status × υ}
    (hfunc : ∀ u key val, (func u key val).1 = .OK) (hstop : filter.StopSound r)
    (hvalue : filter.requiresValue = false) (max : ℕ) (ignoreValues : Bool)
    {es : List (Bytes × Bytes)} (hsorted : Sorted r Prod.fst es) (i : ℕ) (u : υ) :
    iterLoop max filter ignoreValues func es i u =
      (.OK, (if max = 0 then accepted filter es else (accepted filter es).take (max - i)).foldl
        (fun u e => (func u e.1 (if ignoreValues then [] else e.2)).2) u) := by
  induction es generalizing i u with
  | nil => simp [iterLoop, accepted]
  | cons e rest ih =>
    obtain ⟨key, val⟩ := e
    have ih := ih (List.pairwise_cons.1 hsorted).2
    by_cases hmax : max = 0 ∨ i < max
    · cases hcheck : filter.check key val with
      | false =>
        have hskip : accepted filter ((key, val) :: rest) = accepted filter rest :=
          List.filter_cons_of_neg (by simp [hcheck])
        rw [hskip]
        cases hshould : filter.shouldStop key val with
        | false => simpa [iterLoop, hmax, hcheck, hshould] using ih i u
        | true =>
          rw [accepted_of_shouldStop hstop hsorted hcheck hshould]
          simp [iterLoop, hmax, hcheck, hshould]
      | true =>
        have hkeep : accepted filter ((key, val) :: rest) = (key, val) :: accepted filter rest :=
          List.filter_cons_of_pos (by simp [hcheck])
        have hcall : func u key (if ignoreValues then [] else val) =
            (.OK, (func u key (if ignoreValues then [] else val)).2) :=
          Prod.ext (hfunc _ _ _) rfl
        rw [hkeep]
        simp only [iterLoop, if_pos hmax, hcheck, hvalue, Bool.not_true, Bool.not_false,
          Bool.and_true, Bool.false_eq_true, if_false]
        rw [hcall]
        simp only [ih]
        by_cases h0 : max = 0
        · simp [h0]
        · have htake : max - i = max - (i + 1) + 1 := by omega
          simp [h0, htake]
    · have h0 : max ≠ 0 := fun h => hmax (Or.inl h)
      have hsub : max - i = 0 := by omega
      rw [iterLoop, if_neg hmax, if_neg h0, hsub, List.take_zero, List.foldl_nil]

end Walks

/-! ### Completeness -/

instance : IsStrictOrder Bytes (· < ·) where
  irrefl _ := Std.lt_irrefl
  trans _ _ _ := Std.lt_trans

/-- A request for a page of keys: the caller's buffer and the sizes it passes. -/
structure KeysRequest where
  packed : Bool
  keys : Bytes
  keySizes : List ℕ

/-- A request for a page of keys and values. -/
structure KeyValuesRequest extends KeysRequest where
  vals : Bytes
  valSizes : List ℕ

/-- A page of keys as the caller reads it, and whether it contains `YOKAN_NO_MORE_KEYS`. -/
def keysPage (mode : Mode) (s : MapDatabase c) (filter : KeyValueFilter) (req : KeysRequest)
    (fromKey : Bytes) : Option (List Bytes × Bool) :=
  match s.listKeys mode req.packed fromKey filter req.keys req.keySizes with
  | (.OK, keys) =>
    some (readColumn req.packed req.keySizes keys, keys.sizes.contains noMoreKeys)
  | _ => none

/-- A page of keys and values as the caller reads it. -/
def keyValuesPage (mode : Mode) (s : MapDatabase c) (filter : KeyValueFilter)
    (req : KeyValuesRequest) (fromKey : Bytes) : Option (List (Bytes × Bytes) × Bool) :=
  match s.listKeyValues mode req.packed fromKey filter req.keys req.keySizes req.vals
    req.valSizes with
  | (.OK, keys, vals) =>
    some ((readColumn req.packed req.keySizes keys).zip (readColumn req.packed req.valSizes vals),
      keys.sizes.contains noMoreKeys)
  | _ => none

/-- All keys, page after page; `fuel` bounds the number of pages. -/
def listAllKeys (mode : Mode) (s : MapDatabase c) (filter : KeyValueFilter)
    (reqs : ℕ → KeysRequest) (fuel : ℕ) : Option (List Bytes) :=
  collect (fun j fromKey => s.keysPage mode filter (reqs j) fromKey) id fuel 0 []

/-- All keys and values, page after page. -/
def listAllKeyValues (mode : Mode) (s : MapDatabase c) (filter : KeyValueFilter)
    (reqs : ℕ → KeyValuesRequest) (fuel : ℕ) : Option (List (Bytes × Bytes)) :=
  collect (fun j fromKey => s.keyValuesPage mode filter (reqs j) fromKey) Prod.fst fuel 0 []

section Complete

variable {s : MapDatabase .default}

theorem sorted_toList (s : MapDatabase .default) : Sorted (· < ·) Prod.fst s.db.toList := by
  refine Std.ExtTreeMap.ordered_keys_toList.imp ?_
  intro a b hab
  rw [Comparator.cmp_eq_lt] at hab
  exact defaultMemCmp_iff.1 hab

theorem nil_lt_of_mem (hkeys : ∀ k, (s.find k).isSome → k ≠ []) {e : Bytes × Bytes}
    (he : e ∈ s.db.toList) : [] < e.1 := by
  have hfind : s.find e.1 = some e.2 := Std.ExtTreeMap.mem_toList_iff_getElem?_eq_some.1 he
  have hne := hkeys e.1 (by rw [hfind]; rfl)
  cases hk : e.1 with
  | nil => exact absurd hk hne
  | cons b bs => simp

/-- The walk starts at the first key that is greater than the bound, or not smaller. -/
theorem entriesFrom_eq (hkeys : ∀ k, (s.find k).isSome → k ≠ []) (inclusive : Bool)
    (fromKey : Bytes) :
    s.entriesFrom inclusive fromKey = s.db.toList.filter
      (fun e => if inclusive then fromKey ≤ e.1 else fromKey < e.1) := by
  have hsorted := sorted_toList s
  unfold entriesFrom
  by_cases hnil : fromKey.length = 0
  · obtain rfl := List.length_eq_zero_iff.1 hnil
    rw [if_pos hnil, eq_comm, List.filter_eq_self]
    intro e he
    have hlt := nil_lt_of_mem hkeys he
    cases inclusive <;> simp [hlt]
  · rw [if_neg hnil]
    cases inclusive with
    | true =>
      have hmono : s.db.toList.Pairwise (fun a b =>
          defaultMemCmp b.1 fromKey → defaultMemCmp a.1 fromKey) := by
        refine hsorted.imp ?_
        intro a b hab hb
        exact defaultMemCmp_iff.2 (Std.lt_trans hab (defaultMemCmp_iff.1 hb))
      rw [if_pos rfl]
      refine (dropWhile_eq_filter hmono).trans (List.filter_congr ?_)
      intro e _
      rw [Bool.eq_iff_iff]
      simp [← Bool.not_eq_true, defaultMemCmp_iff]
    | false =>
      have hmono : s.db.toList.Pairwise (fun a b =>
          (!defaultMemCmp fromKey b.1) → !defaultMemCmp fromKey a.1) := by
        refine hsorted.imp ?_
        intro a b hab hb
        rw [Bool.not_eq_true', ← Bool.not_eq_true, defaultMemCmp_iff] at hb ⊢
        exact fun ha => hb (Std.lt_trans ha hab)
      rw [if_neg Bool.false_ne_true]
      refine (dropWhile_eq_filter hmono).trans (List.filter_congr ?_)
      intro e _
      rw [Bool.eq_iff_iff]
      simp [defaultMemCmp_iff]

/-- The walk from a key that is not empty, inclusive, under the default comparator. -/
theorem entriesFrom_inclusive (s : MapDatabase .default) {fromKey : Bytes} (h : fromKey ≠ []) :
    s.entriesFrom true fromKey = s.db.toList.dropWhile (fun e => e.1 < fromKey) := by
  have hlt : (fun e : Bytes × Bytes => Comparator.default.lt e.1 fromKey) =
      fun e => decide (e.1 < fromKey) := by
    funext e
    rw [Bool.eq_iff_iff, decide_eq_true_eq]
    exact defaultMemCmp_iff
  rw [entriesFrom, if_neg (by rwa [List.length_eq_zero_iff]), if_pos rfl, hlt]

/-- The stored entries that are selected, in order. -/
def selected (s : MapDatabase .default) (sel : KeySelection) : List (Bytes × Bytes) :=
  s.db.toList.filter (fun e => sel.Matches e.1)

theorem mem_selected {sel : KeySelection} {key val : Bytes} :
    (key, val) ∈ s.selected sel ↔ s.find key = some val ∧ sel.Matches key := by
  unfold selected
  rw [List.mem_filter, Std.ExtTreeMap.mem_toList_iff_getElem?_eq_some, decide_eq_true_eq]
  rfl

theorem sorted_selected (s : MapDatabase .default) (sel : KeySelection) :
    Sorted (· < ·) Prod.fst (s.selected sel) :=
  (sorted_toList s).sublist List.filter_sublist

/-- The walk from a bound accepts the selected entries beyond it. -/
theorem accepted_entriesFrom (hkeys : ∀ k, (s.find k).isSome → k ≠ []) (fmode : Mode)
    (sel : KeySelection) (inclusive : Bool) (fromKey : Bytes) :
    accepted (sel.filter fmode) (s.entriesFrom inclusive fromKey) =
      (s.selected sel).filter
        (fun e => if inclusive then fromKey ≤ e.1 else fromKey < e.1) := by
  unfold accepted selected
  rw [entriesFrom_eq hkeys, List.filter_filter, List.filter_filter]
  refine List.filter_congr ?_
  intro e _
  rw [KeySelection.check_filter, Bool.and_comm]

theorem sorted_entriesFrom (hkeys : ∀ k, (s.find k).isSome → k ≠ []) (inclusive : Bool)
    (fromKey : Bytes) : Sorted (· < ·) Prod.fst (s.entriesFrom inclusive fromKey) := by
  rw [entriesFrom_eq hkeys]
  exact (sorted_toList s).sublist List.filter_sublist

variable (hs : s.migrated = false) (hkeys : ∀ k, (s.find k).isSome → k ≠ [])
  {fmode : Mode} (hfmode : fmode.has .noPrefix = false) (sel : KeySelection)
  {mode : Mode} (hexclusive : mode.has .inclusive = false) (hmode : mode.has .ignoreKeys = false)

include hs hkeys hfmode hexclusive hmode

/-- A page of keys holds the next selected keys and says whether it is full. -/
theorem keysPage_eq (req : KeysRequest) (fromKey : Bytes)
    (hfits : Fits req.packed req.keys req.keySizes
      (((after (· < ·) Prod.fst (s.selected sel) fromKey).map Prod.fst).take
        req.keySizes.length)) :
    s.keysPage mode (sel.filter fmode) req fromKey =
      some (((after (· < ·) Prod.fst (s.selected sel) fromKey).map Prod.fst).take
          req.keySizes.length,
        decide ((after (· < ·) Prod.fst (s.selected sel) fromKey).length <
          req.keySizes.length)) := by
  have haccepted : accepted (sel.filter fmode) (s.entriesFrom false fromKey) =
      after (· < ·) Prod.fst (s.selected sel) fromKey := accepted_entriesFrom hkeys fmode sel _ _
  have hloop := listKeysLoop_eq (sel.stopSound_filter fmode) hmode (sel.whole_filter hfmode)
    req.packed (sorted_entriesFrom hkeys false fromKey) req.keySizes (Column.start req.keys)
  rw [haccepted, ← zip_take_length] at hloop
  generalize after (· < ·) Prod.fst (s.selected sel) fromKey = items at hfits hloop ⊢
  obtain ⟨hread, hmark⟩ := Column.readColumn_pushAll
    (by rw [List.length_take]; exact Nat.min_le_left _ _) hfits
  unfold keysPage listKeys
  rw [hs, if_neg Bool.false_ne_true, hexclusive, hloop]
  simp only
  rw [hread, hmark]
  simp

/-- A page of keys and values holds the next selected entries and says whether it is full. -/
theorem keyValuesPage_eq (req : KeyValuesRequest) (hlen : req.keySizes.length = req.valSizes.length)
    (fromKey : Bytes)
    (hkfits : Fits req.packed req.keys req.keySizes
      (((after (· < ·) Prod.fst (s.selected sel) fromKey).map Prod.fst).take
        req.keySizes.length))
    (hvfits : Fits req.packed req.vals req.valSizes
      (((after (· < ·) Prod.fst (s.selected sel) fromKey).map Prod.snd).take
        req.valSizes.length)) :
    s.keyValuesPage mode (sel.filter fmode) req fromKey =
      some ((after (· < ·) Prod.fst (s.selected sel) fromKey).take req.keySizes.length,
        decide ((after (· < ·) Prod.fst (s.selected sel) fromKey).length <
          req.keySizes.length)) := by
  have haccepted : accepted (sel.filter fmode) (s.entriesFrom false fromKey) =
      after (· < ·) Prod.fst (s.selected sel) fromKey := accepted_entriesFrom hkeys fmode sel _ _
  have hloop := listKeyValuesLoop_eq (sel.stopSound_filter fmode) hmode (sel.whole_filter hfmode)
    req.packed (sorted_entriesFrom hkeys false fromKey) req.keySizes req.valSizes hlen
    (Column.start req.keys) (Column.start req.vals)
  rw [haccepted, ← zip_take_length (List.map Prod.fst _),
    ← zip_take_length (List.map Prod.snd _)] at hloop
  generalize after (· < ·) Prod.fst (s.selected sel) fromKey = items at hkfits hvfits hloop ⊢
  obtain ⟨hkread, hmark⟩ := Column.readColumn_pushAll
    (by rw [List.length_take]; exact Nat.min_le_left _ _) hkfits
  obtain ⟨hvread, -⟩ := Column.readColumn_pushAll
    (by rw [List.length_take]; exact Nat.min_le_left _ _) hvfits
  unfold keyValuesPage listKeyValues
  rw [hs, if_neg Bool.false_ne_true, hexclusive, hloop]
  simp only
  rw [hkread, hvread, hmark, ← hlen, ← List.map_take, ← List.map_take,
    ← List.zip_of_prod rfl rfl]
  simp

/-- Listing keys by pages gives the selected keys. -/
theorem listAllKeys_eq {reqs : ℕ → KeysRequest} (hsize : ∀ j, 0 < (reqs j).keySizes.length)
    (hfits : ∀ j, let start := startOf (fun j => (reqs j).keySizes.length) j
      start ≤ (s.selected sel).length → Fits (reqs j).packed (reqs j).keys (reqs j).keySizes
        ((((s.selected sel).drop start).map Prod.fst).take (reqs j).keySizes.length))
    {fuel : ℕ} (hfuel : (s.selected sel).length < fuel) :
    s.listAllKeys mode (sel.filter fmode) reqs fuel = some ((s.selected sel).map Prod.fst) := by
  have hsorted : Sorted (· < ·) id ((s.selected sel).map Prod.fst) :=
    List.pairwise_map.2 (sorted_selected s sel)
  have hafter : ∀ k, after (· < ·) id ((s.selected sel).map Prod.fst) k =
      (after (· < ·) Prod.fst (s.selected sel) k).map Prod.fst := fun k => List.filter_map
  have hpage : ∀ j k, startOf (fun j => (reqs j).keySizes.length) j ≤
        ((s.selected sel).map Prod.fst).length →
      after (· < ·) id ((s.selected sel).map Prod.fst) k =
        ((s.selected sel).map Prod.fst).drop (startOf (fun j => (reqs j).keySizes.length) j) →
      s.keysPage mode (sel.filter fmode) (reqs j) k =
      some ((after (· < ·) id ((s.selected sel).map Prod.fst) k).take (reqs j).keySizes.length,
        decide ((after (· < ·) id ((s.selected sel).map Prod.fst) k).length <
          (reqs j).keySizes.length)) := by
    intro j k hstart hk
    rw [List.length_map] at hstart
    have hfit := hfits j hstart
    rw [List.map_drop, ← hk, hafter] at hfit
    rw [keysPage_eq hs hkeys hfmode sel hexclusive hmode (reqs j) k hfit, hafter, List.length_map]
  have hall : after (· < ·) id ((s.selected sel).map Prod.fst) [] =
      (s.selected sel).map Prod.fst := by
    rw [hafter]
    congr 1
    refine List.filter_eq_self.2 ?_
    intro e he
    rw [decide_eq_true_eq]
    exact nil_lt_of_mem hkeys (List.mem_of_mem_filter he)
  unfold listAllKeys
  rw [collect_eq hsorted hsize hpage fuel 0 [] (Nat.zero_le _) hall
    (by rw [hall, List.length_map]; exact hfuel), hall]

/-- Listing keys and values by pages gives the selected entries. -/
theorem listAllKeyValues_eq {reqs : ℕ → KeyValuesRequest}
    (hsize : ∀ j, 0 < (reqs j).keySizes.length)
    (hlen : ∀ j, (reqs j).keySizes.length = (reqs j).valSizes.length)
    (hfits : ∀ j, let start := startOf (fun j => (reqs j).keySizes.length) j
      start ≤ (s.selected sel).length →
        Fits (reqs j).packed (reqs j).keys (reqs j).keySizes
          ((((s.selected sel).drop start).map Prod.fst).take (reqs j).keySizes.length) ∧
        Fits (reqs j).packed (reqs j).vals (reqs j).valSizes
          ((((s.selected sel).drop start).map Prod.snd).take (reqs j).valSizes.length))
    {fuel : ℕ} (hfuel : (s.selected sel).length < fuel) :
    s.listAllKeyValues mode (sel.filter fmode) reqs fuel = some (s.selected sel) := by
  have hpage : ∀ j k, startOf (fun j => (reqs j).keySizes.length) j ≤ (s.selected sel).length →
      after (· < ·) Prod.fst (s.selected sel) k =
        (s.selected sel).drop (startOf (fun j => (reqs j).keySizes.length) j) →
      s.keyValuesPage mode (sel.filter fmode) (reqs j) k =
      some ((after (· < ·) Prod.fst (s.selected sel) k).take (reqs j).keySizes.length,
        decide ((after (· < ·) Prod.fst (s.selected sel) k).length <
          (reqs j).keySizes.length)) := by
    intro j k hstart hk
    obtain ⟨hkfits, hvfits⟩ := hfits j hstart
    rw [← hk] at hkfits hvfits
    exact keyValuesPage_eq hs hkeys hfmode sel hexclusive hmode (reqs j) (hlen j) k hkfits hvfits
  have hall : after (· < ·) Prod.fst (s.selected sel) [] = s.selected sel := by
    refine List.filter_eq_self.2 ?_
    intro e he
    rw [decide_eq_true_eq]
    exact nil_lt_of_mem hkeys (List.mem_of_mem_filter he)
  unfold listAllKeyValues
  rw [collect_eq (sorted_selected s sel) hsize hpage fuel 0 [] (Nat.zero_le _) hall
    (by rw [hall]; exact hfuel), hall]

omit hfmode hexclusive hmode in
/-- `iter` delivers the first selected entries beyond its bound. -/
theorem iter_eq {υ : Type} {func : υ → Bytes → Bytes → Status × υ}
    (hfunc : ∀ u key val, (func u key val).1 = .OK) (imode : Mode) (max : ℕ) (fromKey : Bytes)
    (ignoreValues : Bool) (u : υ) :
    s.iter imode max fromKey (sel.filter fmode) ignoreValues func u =
      (.OK,
        let found := (s.selected sel).filter
          (fun e => if imode.has .inclusive then fromKey ≤ e.1 else fromKey < e.1)
        (if max = 0 then found else found.take max).foldl
          (fun u e => (func u e.1 (if ignoreValues then [] else e.2)).2) u) := by
  unfold iter
  rw [hs, if_neg Bool.false_ne_true, iterLoop_eq hfunc (sel.stopSound_filter fmode)
    (sel.requiresValue_filter fmode) max ignoreValues
    (sorted_entriesFrom hkeys (imode.has .inclusive) fromKey), accepted_entriesFrom hkeys]
  rfl

end Complete

/-- Complete enumeration under the default comparator. The entries selected by a filter that
keeps keys whole, in increasing order and each once, are what a caller gets who lists page after
page, with any page sizes and with buffers that are large enough for the pages that they are
passed for; and `iter` delivers the first of those beyond its bound. -/
theorem list_complete {s : MapDatabase .default} (hs : s.migrated = false)
    (hkeys : ∀ k, (s.find k).isSome → k ≠ []) (sel : KeySelection) {fmode : Mode}
    (hfmode : fmode.has .noPrefix = false) :
    ∃ entries : List (Bytes × Bytes),
      entries.Pairwise (fun a b => a.1 < b.1) ∧
      (∀ key val, (key, val) ∈ entries ↔ s.find key = some val ∧ sel.Matches key) ∧
      (∀ (mode : Mode) (reqs : ℕ → KeysRequest),
        mode.has .inclusive = false → mode.has .ignoreKeys = false →
        (∀ j, 0 < (reqs j).keySizes.length) →
        (∀ j, let start := startOf (fun j => (reqs j).keySizes.length) j
          start ≤ entries.length → Fits (reqs j).packed (reqs j).keys (reqs j).keySizes
            (((entries.drop start).map Prod.fst).take (reqs j).keySizes.length)) →
        ∀ fuel, entries.length < fuel →
          s.listAllKeys mode (sel.filter fmode) reqs fuel = some (entries.map Prod.fst)) ∧
      (∀ (mode : Mode) (reqs : ℕ → KeyValuesRequest),
        mode.has .inclusive = false → mode.has .ignoreKeys = false →
        (∀ j, 0 < (reqs j).keySizes.length) →
        (∀ j, (reqs j).keySizes.length = (reqs j).valSizes.length) →
        (∀ j, let start := startOf (fun j => (reqs j).keySizes.length) j
          start ≤ entries.length →
            Fits (reqs j).packed (reqs j).keys (reqs j).keySizes
              (((entries.drop start).map Prod.fst).take (reqs j).keySizes.length) ∧
            Fits (reqs j).packed (reqs j).vals (reqs j).valSizes
              (((entries.drop start).map Prod.snd).take (reqs j).valSizes.length)) →
        ∀ fuel, entries.length < fuel →
          s.listAllKeyValues mode (sel.filter fmode) reqs fuel = some entries) ∧
      ∀ (υ : Type) (func : υ → Bytes → Bytes → Status × υ) (u : υ) (mode : Mode) (max : ℕ)
        (fromKey : Bytes) (ignoreValues : Bool), (∀ u key val, (func u key val).1 = .OK) →
        s.iter mode max fromKey (sel.filter fmode) ignoreValues func u =
          (.OK,
            let found := entries.filter
              (fun e => if mode.has .inclusive then fromKey ≤ e.1 else fromKey < e.1)
            (if max = 0 then found else found.take max).foldl
              (fun u e => (func u e.1 (if ignoreValues then [] else e.2)).2) u) := by
  refine ⟨s.selected sel, sorted_selected s sel, fun key val => mem_selected, ?_, ?_, ?_⟩
  · intro mode reqs hexclusive hmode hsize hfits fuel hfuel
    exact listAllKeys_eq hs hkeys hfmode sel hexclusive hmode hsize hfits hfuel
  · intro mode reqs hexclusive hmode hsize hlen hfits fuel hfuel
    exact listAllKeyValues_eq hs hkeys hfmode sel hexclusive hmode hsize hlen hfits hfuel
  · intro υ func u mode max fromKey ignoreValues hfunc
    exact iter_eq hs hkeys sel hfunc mode max fromKey ignoreValues u

/-- A database with two keys that begin alike and one that does not, listed with one slot of two
bytes for each page. -/
theorem list_complete_two :
    let s := (((MapDatabase.empty .default).assign [7, 1] [4]).assign [8] [5]).assign [7, 2] [6]
    let filter := keyPrefixFilter .default [7]
    ∃ entries : List (Bytes × Bytes),
      ([7, 1], [4]) ∈ entries ∧ ([7, 2], [6]) ∈ entries ∧ ([8], [5]) ∉ entries ∧
      s.listAllKeys .default filter (fun _ => ⟨false, [0, 0], [2]⟩) (entries.length + 1) =
        some (entries.map Prod.fst) := by
  intro s filter
  have hfind : s.find = Function.update (Function.update (Function.update
      (MapDatabase.empty .default).find [7, 1] (some [4])) [8] (some [5])) [7, 2] (some [6]) := by
    rw [show s = _ from rfl, find_assign, find_assign, find_assign]
  have hlength : ∀ k, (s.find k).isSome → k ≠ [] ∧ k.length ≤ 2 := by
    intro k hk
    rw [hfind] at hk
    simp only [Function.update_apply] at hk
    split_ifs at hk with htwo height hone
    · rw [htwo]; decide
    · rw [height]; decide
    · rw [hone]; decide
    · exact absurd hk Bool.false_ne_true
  obtain ⟨entries, -, hmem, hlist, -⟩ := list_complete (s := s) rfl (fun k hk => (hlength k hk).1)
    (.startingWith [7]) (Mode.has_default .noPrefix)
  refine ⟨entries, (hmem _ _).2 ⟨by rw [hfind]; rfl, by decide⟩,
    (hmem _ _).2 ⟨by rw [hfind]; rfl, by decide⟩, fun h => ?_, ?_⟩
  · have hmatches : (KeySelection.startingWith [7]).Matches [8] := ((hmem _ _).1 h).2
    revert hmatches
    decide
  · refine hlist .default (fun _ => ⟨false, [0, 0], [2]⟩) (Mode.has_default _) (Mode.has_default _)
      (fun _ => Nat.one_pos) ?_ _ (Nat.lt_succ_self _)
    intro j _ _
    refine ⟨by decide, by decide, ?_⟩
    intro p hp
    obtain ⟨hkey, hslot⟩ := List.of_mem_zip hp
    obtain ⟨e, he, hek⟩ := List.mem_map.1 (List.mem_of_mem_take hkey)
    have hstored : s.find e.1 = some e.2 := ((hmem _ _).1 (List.mem_of_mem_drop he)).1
    have htwo : e.1.length ≤ 2 := (hlength e.1 (by rw [hstored]; rfl)).2
    rw [List.mem_singleton.1 hslot, ← hek]
    exact htwo

end MapDatabase

end Yokan
