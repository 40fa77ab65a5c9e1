import Yokan.Library.Patch
import Yokan.MapListing
import Yokan.Delivery

/-!
# Yokan: what a listing writes

A listing fills buffers whose contents it does not look at. What it does to one of its columns is a
`ColumnWrite`: a patch of the buffer, the new size of the buffer and the sizes of the items. Packed
items cover the front of the buffer; otherwise an item covers the front of its slot.

* `ColumnWrite.Sound`: what holds of every such write;
* `PartialWrite.exists_push`: one more item, wherever the listing stands;
* `MapDatabase.listKeyValues_writes`: `MapDatabase::listKeyValues` only writes.
-/

namespace Yokan

open Buffer

/-- What a listing does to a column: the bytes it writes, and what it reports. -/
structure ColumnWrite where
  patch : Patch UInt8
  size : ℕ
  sizes : List ℕ

namespace ColumnWrite

/-- The column of a caller whose buffer was `buf`. -/
def output (w : ColumnWrite) (buf : Bytes) : ColumnOutput := ⟨w.patch.apply buf, w.size, w.sizes⟩

/-- A write to a buffer of length `n` with the given slots. A size that is not a mark announces
bytes that were written: at the front of the slot, or among the packed items. -/
structure Sound (packed : Bool) (n : ℕ) (slots : List ℕ) (w : ColumnWrite) : Prop where
  length_patch : w.patch.length = n
  length_sizes : w.sizes.length = slots.length
  sizes_lt : ∀ size ∈ w.sizes, size < 2 ^ 64
  size_le : packed = true → w.size ≤ n
  packed_written : packed = true → w.patch.Written 0 w.size
  announced_le : packed = true → (w.sizes.filter (· ≤ lastValidSize)).sum ≤ w.size
  slots_written : packed = false → ∀ i slot size, slots[i]? = some slot → w.sizes[i]? = some size →
    size ≤ lastValidSize → size ≤ slot ∧ w.patch.Written (slots.take i).sum size

end ColumnWrite

/-! ### Two fills of one column -/

/-- The steps from the start of one item to that of the next: the sizes of the packed items, where
a mark takes no room, or the slots. -/
def strides (packed : Bool) (slots sizes : List ℕ) : List ℕ :=
  if packed then sizes.map (fun size => if size ≤ lastValidSize then size else 0) else slots

/-- Where item `i` starts. -/
def itemStart (packed : Bool) (slots sizes : List ℕ) (i : ℕ) : ℕ :=
  ((strides packed slots sizes).take i).sum

/-- Position `p` of a column belongs to an item that the sizes announce. -/
def Announced (packed : Bool) (slots sizes : List ℕ) (p : ℕ) : Prop :=
  ∃ i size, sizes[i]? = some size ∧ size ≤ lastValidSize ∧
    itemStart packed slots sizes i ≤ p ∧ p < itemStart packed slots sizes i + size

/-- Two buffers have the same byte at position `p`. -/
def SameAt (a b : Bytes) (p : ℕ) : Prop := ∃ x, a[p]? = some x ∧ b[p]? = some x

theorem SameAt.eq {a b : Bytes} {p : ℕ} (h : SameAt a b p) : a[p]? = b[p]? := by
  obtain ⟨x, ha, hb⟩ := h
  rw [ha, hb]

theorem SameAt.lt_length {a b : Bytes} {p : ℕ} (h : SameAt a b p) : p < a.length := by
  obtain ⟨x, ha, -⟩ := h
  exact (List.getElem?_eq_some_iff.1 ha).1

/-- The same items in two buffers of length `n`: they agree on what the sizes announce. -/
structure SameFill (announced : List ℕ → ℕ → Prop) (n count : ℕ) (a b : ColumnOutput) : Prop where
  length_left : a.buf.length = n
  length_right : b.buf.length = n
  size_eq : a.size = b.size
  sizes_eq : a.sizes = b.sizes
  length_sizes : a.sizes.length = count
  sizes_lt : ∀ size ∈ a.sizes, size < 2 ^ 64
  agree : ∀ p, announced a.sizes p → SameAt a.buf b.buf p

theorem sum_proper (sizes : List ℕ) :
    (sizes.map (fun size => if size ≤ lastValidSize then size else 0)).sum =
      (sizes.filter (· ≤ lastValidSize)).sum := by
  induction sizes with
  | nil => rfl
  | cons size sizes ih =>
    rw [List.map_cons, List.sum_cons, ih, List.filter_cons]
    by_cases h : size ≤ lastValidSize <;> simp [h]

namespace ColumnWrite

variable {packed : Bool} {n : ℕ} {slots : List ℕ} {w : ColumnWrite}

/-- What the sizes announce has been written. -/
theorem Sound.written_of_announced (hw : w.Sound packed n slots) {p : ℕ}
    (h : Announced packed slots w.sizes p) :
    ∃ b, w.patch[p]? = some (some b) := by
  obtain ⟨i, size, hsize, hproper, hle, hlt⟩ := h
  cases packed with
  | true =>
    obtain ⟨hi, rfl⟩ := List.getElem?_eq_some_iff.1 hsize
    have hle' := hw.announced_le rfl
    rw [← sum_proper, ← List.sum_take_add_sum_drop _ i, List.drop_eq_getElem_cons (by simpa using hi),
      List.sum_cons, List.getElem_map, if_pos hproper] at hle'
    rw [itemStart, strides, if_pos rfl] at hle hlt
    exact hw.packed_written rfl p (Nat.zero_le _) (by omega)
  | false =>
    have hi : i < slots.length := by
      rw [← hw.length_sizes]
      exact (List.getElem?_eq_some_iff.1 hsize).1
    exact (hw.slots_written rfl i _ size (List.getElem?_eq_getElem hi) hsize hproper).2 p hle hlt

/-- A write fills two buffers alike. -/
theorem Sound.sameFill (hw : w.Sound packed n slots) {buf buf' : Bytes} (hbuf : buf.length = n)
    (hbuf' : buf'.length = n) :
    SameFill (Announced packed slots) n slots.length (w.output buf) (w.output buf') where
  length_left :=
    (Patch.length_apply (hbuf.trans hw.length_patch.symm)).trans hw.length_patch
  length_right :=
    (Patch.length_apply (hbuf'.trans hw.length_patch.symm)).trans hw.length_patch
  size_eq := rfl
  sizes_eq := rfl
  length_sizes := hw.length_sizes
  sizes_lt := hw.sizes_lt
  agree p h := by
    obtain ⟨x, hx⟩ := hw.written_of_announced h
    exact ⟨x, Patch.getElem?_apply_eq (hbuf.trans hw.length_patch.symm) hx,
      Patch.getElem?_apply_eq (hbuf'.trans hw.length_patch.symm) hx⟩

end ColumnWrite

/-! ### A column that is being filled -/

/-- A column after some items, for any buffer. -/
structure PartialWrite where
  patch : Patch UInt8
  offset : ℕ
  tooSmall : Bool
  sizes : List ℕ

namespace PartialWrite

/-- The column of a caller whose buffer was `buf`. -/
def column (w : PartialWrite) (buf : Bytes) : Column :=
  ⟨w.patch.apply buf, w.offset, w.tooSmall, w.sizes⟩

/-- The invariant of a listing, with the slots of all its items. -/
structure Sound (packed : Bool) (n : ℕ) (slots : List ℕ) (w : PartialWrite) : Prop where
  length_patch : w.patch.length = n
  length_sizes : w.sizes.length ≤ slots.length
  sizes_lt : ∀ size ∈ w.sizes, size < 2 ^ 64
  offset_le : packed = true → w.offset ≤ n
  packed_written : packed = true → w.patch.Written 0 w.offset
  announced_le : packed = true → (w.sizes.filter (· ≤ lastValidSize)).sum ≤ w.offset
  offset_eq : packed = false → w.offset = (slots.take w.sizes.length).sum
  slots_written : packed = false → ∀ i slot size, slots[i]? = some slot → w.sizes[i]? = some size →
    size ≤ lastValidSize → size ≤ slot ∧ w.patch.Written (slots.take i).sum size

/-- Before the first item. -/
def start (n : ℕ) : PartialWrite := ⟨Patch.untouched n, 0, false, []⟩

theorem sound_start (packed : Bool) (n : ℕ) (slots : List ℕ) :
    (start n).Sound packed n slots where
  length_patch := Patch.length_untouched n
  length_sizes := Nat.zero_le _
  sizes_lt size h := by cases h
  offset_le _ := Nat.zero_le n
  packed_written _ := Patch.written_zero _ _
  announced_le _ := le_rfl
  offset_eq _ := rfl
  slots_written _ i slot size _ h := by cases h

theorem column_start (buf : Bytes) : (start buf.length).column buf = Column.start buf := by
  rw [column, start, Patch.apply_untouched]
  rfl

variable {packed : Bool} {n slot : ℕ} {slots : List ℕ} {w w' : PartialWrite}

/-- One more size. Packed items move the offset when they were written; each item of the other
columns uses up its slot. -/
theorem Sound.snoc (hw : w.Sound packed n slots) (hslot : slots[w.sizes.length]? = some slot)
    {size : ℕ} (hsize : size < 2 ^ 64) (hsizes : w'.sizes = w.sizes ++ [size])
    (hlen : w'.patch.length = n)
    (hkeep : ∀ a k, w.patch.Written a k → w'.patch.Written a k)
    (hpacked : packed = true → w'.offset = w.offset ∧ lastValidSize < size ∨
      w'.offset = w.offset + size ∧ w'.offset ≤ n ∧ w'.patch.Written w.offset size)
    (hslots : packed = false → w'.offset = w.offset + slot ∧
      (size ≤ lastValidSize → size ≤ slot ∧ w'.patch.Written w.offset size)) :
    w'.Sound packed n slots := by
  obtain ⟨hlt, rfl⟩ := List.getElem?_eq_some_iff.1 hslot
  -- a mark adds nothing to the sizes that are announced
  have hfilter : (w'.sizes.filter (· ≤ lastValidSize)).sum =
      (w.sizes.filter (· ≤ lastValidSize)).sum + if size ≤ lastValidSize then size else 0 := by
    rw [hsizes, List.filter_append, List.sum_append]
    split_ifs with h <;> simp [h]
  constructor
  · exact hlen
  · rw [hsizes, List.length_append]
    exact hlt
  · intro k hk
    rw [hsizes, List.mem_append, List.mem_singleton] at hk
    rcases hk with hk | rfl
    · exact hw.sizes_lt k hk
    · exact hsize
  · intro h
    have hle := hw.offset_le h
    rcases hpacked h with ⟨heq, -⟩ | ⟨-, hle', -⟩
    · omega
    · exact hle'
  · intro h
    have hold := hkeep _ _ (hw.packed_written h)
    rcases hpacked h with ⟨heq, -⟩ | ⟨heq, -, hnew⟩
    · rwa [heq]
    · rw [heq]
      exact hold.append (by rwa [Nat.zero_add])
  · intro h
    have hle := hw.announced_le h
    rw [hfilter]
    rcases hpacked h with ⟨heq, hmark⟩ | ⟨heq, -, -⟩
    · rw [if_neg (by omega)]
      omega
    · split_ifs <;> omega
  · intro h
    rw [(hslots h).1, hw.offset_eq h, hsizes, List.length_append, List.length_singleton,
      List.take_add_one, hslot, List.sum_append, Option.toList_some, List.sum_singleton]
  · intro h i slot' size' hi hs hproper
    rw [hsizes] at hs
    rcases Nat.lt_or_ge i w.sizes.length with hi' | hi'
    · rw [List.getElem?_append_left hi'] at hs
      obtain ⟨hfits, hwritten⟩ := hw.slots_written h i slot' size' hi hs hproper
      exact ⟨hfits, hkeep _ _ hwritten⟩
    · -- the size is the new one, and its slot starts where the column stands
      obtain rfl : i = w.sizes.length := by
        have := (List.getElem?_eq_some_iff.1 hs).1
        rw [List.length_append, List.length_singleton] at this
        omega
      rw [List.getElem?_append_right le_rfl, Nat.sub_self] at hs
      obtain rfl : size = size' := by simpa using hs
      obtain rfl : slots[w.sizes.length] = slot' := Option.some.inj (hslot.symm.trans hi)
      rw [← hw.offset_eq h]
      exact (hslots h).2 hproper

/-- The column with a size that is a mark, and with no more bytes. The slot of another item is
used up. -/
def mark (packed : Bool) (slot size : ℕ) (tooSmall : Bool) (w : PartialWrite) : PartialWrite :=
  ⟨w.patch, if packed then w.offset else w.offset + slot, tooSmall, w.sizes ++ [size]⟩

/-- The column with an item written where it stands. -/
def write (packed : Bool) (slot : ℕ) (item : Bytes) (w : PartialWrite) : PartialWrite :=
  ⟨blit w.patch w.offset (item.map some), w.offset + if packed then item.length else slot,
    w.tooSmall, w.sizes ++ [item.length]⟩

theorem Sound.mark (hw : w.Sound packed n slots) (hslot : slots[w.sizes.length]? = some slot)
    {size : ℕ} (hsize : size < 2 ^ 64) (hmark : lastValidSize < size) (tooSmall : Bool) :
    (w.mark packed slot size tooSmall).Sound packed n slots := by
  refine hw.snoc hslot hsize rfl hw.length_patch (fun a k h => h) (fun h => Or.inl ⟨?_, hmark⟩)
    (fun h => ⟨?_, fun hle => ?_⟩)
  · rw [PartialWrite.mark, h]
    rfl
  · rw [PartialWrite.mark, h]
    rfl
  · omega

theorem Sound.write (hw : w.Sound packed n slots) (hslot : slots[w.sizes.length]? = some slot)
    (hn : n ≤ lastValidSize) (item : Bytes) (hroom : w.offset + item.length ≤ n)
    (hfits : packed = false → item.length ≤ slot) :
    (w.write packed slot item).Sound packed n slots := by
  have hle : w.offset + item.length ≤ w.patch.length := by rwa [hw.length_patch]
  have hnew : (w.write packed slot item).patch.Written w.offset item.length :=
    Patch.written_blit_same hle
  have hlast : lastValidSize < 2 ^ 64 := by decide
  refine hw.snoc hslot (by omega) rfl ?_ (fun a k h => h.blit hle) (fun h => Or.inr ?_)
    (fun h => ⟨?_, fun _ => ⟨hfits h, hnew⟩⟩)
  · rw [PartialWrite.write, length_blit (by rwa [List.length_map]), hw.length_patch]
  · rw [PartialWrite.write, h]
    exact ⟨rfl, hroom, hnew⟩
  · rw [PartialWrite.write, h]
    rfl

/-- The slot where the column stands lies in the buffer. -/
theorem Sound.offset_add_slot_le (hw : w.Sound packed n slots) (hpacked : packed = false)
    (hslot : slots[w.sizes.length]? = some slot) (hsum : slots.sum ≤ n) : w.offset + slot ≤ n := by
  obtain ⟨hlt, hget⟩ := List.getElem?_eq_some_iff.1 hslot
  have hoff := hw.offset_eq hpacked
  rw [← List.sum_take_add_sum_drop slots w.sizes.length, List.drop_eq_getElem_cons hlt,
    List.sum_cons, hget] at hsum
  omega

/-- A copy to a buffer behind a patch. -/
theorem Sound.copyOut_apply (hw : w.Sound packed n slots) {buf : Bytes} (hbuf : buf.length = n)
    {room : ℕ} (hroom : w.offset + room ≤ n) (item : Bytes) :
    copyOut (w.patch.apply buf) w.offset room item =
      if room < item.length then (sizeTooSmall, w.patch.apply buf)
      else (item.length, Patch.apply (blit w.patch w.offset (item.map some)) buf) := by
  have hpatch := hw.length_patch
  rw [copyOut]
  split_ifs with h
  · rfl
  · rw [Patch.apply_blit (by omega) (by omega)]

/-- One more item is written, or its size is a mark. -/
theorem exists_push (hw : w.Sound packed n slots) (hslot : slots[w.sizes.length]? = some slot)
    (hn : n ≤ lastValidSize) (hsum : packed = false → slots.sum ≤ n) (item : Bytes) :
    ∃ w' : PartialWrite, w'.Sound packed n slots ∧ w'.sizes.length = w.sizes.length + 1 ∧
      ∀ buf, buf.length = n →
        (w.column buf).push packed slot (fun dst off room => copyOut dst off room item) =
          w'.column buf := by
  have hmark : lastValidSize < sizeTooSmall := by decide
  have hmarklt : sizeTooSmall < 2 ^ 64 := by decide
  have hlen : ∀ buf : Bytes, buf.length = n → (w.patch.apply buf).length = n := fun buf hbuf =>
    (Patch.length_apply (hbuf.trans hw.length_patch.symm)).trans hw.length_patch
  cases packed with
  | true =>
    have hoff := hw.offset_le rfl
    have hroom' : w.offset + (n - w.offset) ≤ n := by omega
    rcases hsmall : w.tooSmall with _ | _
    · by_cases hroom : n - w.offset < item.length
      · refine ⟨_, hw.mark hslot hmarklt hmark true, by simp [PartialWrite.mark], fun buf hbuf => ?_⟩
        simp [Column.push, column, hsmall, hlen buf hbuf, hw.copyOut_apply hbuf hroom', hroom,
          PartialWrite.mark]
      · have hne : item.length ≠ sizeTooSmall := by omega
        refine ⟨_, hw.write hslot hn item (by omega) (fun hfalse => by cases hfalse),
          by simp [PartialWrite.write], fun buf hbuf => ?_⟩
        simp [Column.push, column, hsmall, hlen buf hbuf, hw.copyOut_apply hbuf hroom', hroom, hne,
          PartialWrite.write]
    · refine ⟨_, hw.mark hslot hmarklt hmark true, by simp [PartialWrite.mark], fun buf hbuf => ?_⟩
      simp [Column.push, column, hsmall, PartialWrite.mark]
  | false =>
    have hin := hw.offset_add_slot_le rfl hslot (hsum rfl)
    have hlast : lastValidSize < 2 ^ 64 := by decide
    have hadd : addSize w.offset slot = w.offset + slot := addSize_eq (by omega)
    by_cases hroom : slot < item.length
    · refine ⟨_, hw.mark hslot hmarklt hmark w.tooSmall, by simp [PartialWrite.mark],
        fun buf hbuf => ?_⟩
      simp [Column.push, column, hw.copyOut_apply hbuf hin, hroom, hadd, PartialWrite.mark]
    · refine ⟨_, hw.write hslot hn item (by omega) (fun _ => by omega), by simp [PartialWrite.write],
        fun buf hbuf => ?_⟩
      simp [Column.push, column, hw.copyOut_apply hbuf hin, hroom, hadd, PartialWrite.write]

/-- The end of a listing. -/
def finish (max : ℕ) (w : PartialWrite) : ColumnWrite :=
  ⟨w.patch, w.offset, w.sizes ++ List.replicate (max - w.sizes.length) noMoreKeys⟩

theorem Sound.finish (hw : w.Sound packed n slots) :
    (w.finish slots.length).Sound packed n slots := by
  have hmark : lastValidSize < noMoreKeys := lastValidSize_lt_noMoreKeys
  have hle := hw.length_sizes
  constructor
  · exact hw.length_patch
  · rw [PartialWrite.finish, List.length_append, List.length_replicate]
    omega
  · intro size hsize
    rcases List.mem_append.1 hsize with h | h
    · exact hw.sizes_lt size h
    · rw [List.eq_of_mem_replicate h]
      decide
  · exact hw.offset_le
  · exact hw.packed_written
  · intro h
    have hnone : (List.replicate (slots.length - w.sizes.length) noMoreKeys).filter
        (· ≤ lastValidSize) = [] :=
      List.filter_eq_nil_iff.2 fun size hsize => by
        rw [List.eq_of_mem_replicate hsize]
        decide
    rw [PartialWrite.finish, List.filter_append, hnone, List.append_nil]
    exact hw.announced_le h
  · intro h i slot size hi hs hproper
    rw [PartialWrite.finish] at hs
    rcases Nat.lt_or_ge i w.sizes.length with hi' | hi'
    · rw [List.getElem?_append_left hi'] at hs
      exact hw.slots_written h i slot size hi hs hproper
    · rw [List.getElem?_append_right hi'] at hs
      have hmem := List.eq_of_mem_replicate (List.mem_of_getElem? hs)
      omega

end PartialWrite

/-! ### `listKeyValues` -/

/-- The filter copies bytes that depend on the key, and on the value, alone. -/
def KeyValueFilter.Copies (filter : KeyValueFilter) : Prop :=
  ∃ keyBytes valBytes : Bytes → Bytes,
    (∀ dst off room key, filter.keyCopy dst off room key = copyOut dst off room (keyBytes key)) ∧
      ∀ dst off room val, filter.valCopy dst off room val = copyOut dst off room (valBytes val)

theorem copies_makeKeyValueFilter (mode : Mode) (filterData : Bytes) :
    (makeKeyValueFilter mode filterData).toKeyValueFilter.Copies := by
  refine ⟨fun key => (keySelection mode filterData).strip mode key, id, ?_, ?_⟩
  · intro dst off room key
    rcases hsel : keySelection mode filterData with pre | suf <;>
      by_cases hmode : mode.has .noPrefix <;>
      simp [makeKeyValueFilter, hsel, KeySelection.sizedFilter, KeySelection.filter, keyPrefixFilter,
        keySuffixFilter, KeySelection.strip, hmode]
  · intro dst off room val
    rcases hsel : keySelection mode filterData with pre | suf <;>
      simp [makeKeyValueFilter, hsel, KeySelection.sizedFilter, KeySelection.filter, keyPrefixFilter,
        keySuffixFilter]

theorem copyOut_nil (dst : Bytes) (off room : ℕ) : copyOut dst off room [] = (0, dst) := by
  rw [copyOut, List.length_nil, if_neg (Nat.not_lt_zero _), blit_nil]

/-- A listing, given its columns: the buffer and the sizes of either. What it writes depends neither
on what the buffers hold nor, when it packs the items, on the sizes it is given. -/
def OnlyWrites (packed : Bool)
    (list : Bytes → List ℕ → Bytes → List ℕ → Status × ColumnOutput × ColumnOutput) : Prop :=
  ∀ (n m : ℕ) (kslots vslots : List ℕ), n ≤ lastValidSize → m ≤ lastValidSize →
    kslots.length = vslots.length → (packed = false → kslots.sum ≤ n ∧ vslots.sum ≤ m) →
    ∃ (status : Status) (k v : ColumnWrite), k.Sound packed n kslots ∧ v.Sound packed m vslots ∧
      ∀ (keys : Bytes) (ksizes : List ℕ) (vals : Bytes) (vsizes : List ℕ),
        keys.length = n → vals.length = m →
        ksizes.length = kslots.length → vsizes.length = vslots.length →
        (packed = false → ksizes = kslots ∧ vsizes = vslots) →
        (list keys ksizes vals vsizes).1 = status ∧
          (status = .OK → (list keys ksizes vals vsizes).2 = (k.output keys, v.output vals))

namespace MapDatabase

variable {c : Comparator} {packed : Bool} {filter : KeyValueFilter} {n m : ℕ}
  {kslots vslots : List ℕ}

/-- A packed listing only counts the sizes that it is given. -/
theorem listKeyValuesLoop_packed (mode : Mode) (filter : KeyValueFilter)
    (es : List (Bytes × Bytes)) {slots slots' : List (ℕ × ℕ)} (h : slots.length = slots'.length)
    (cols : Column × Column) :
    listKeyValuesLoop mode true filter es slots cols =
      listKeyValuesLoop mode true filter es slots' cols := by
  induction es generalizing slots slots' cols with
  | nil => rfl
  | cons e es ih =>
    cases slots with
    | nil =>
      cases slots' with
      | nil => rfl
      | cons slot' slots' => simp at h
    | cons slot slots =>
      cases slots' with
      | nil => simp at h
      | cons slot' slots' =>
        have hlen : slots.length = slots'.length := by simpa using h
        have hlast : isLast mode (slots.map Prod.fst) es = isLast mode (slots'.map Prod.fst) es := by
          cases slots <;> cases slots' <;> simp_all [isLast]
        have hpush : ∀ (copy : Bytes → ℕ → ℕ → ℕ × Bytes) (k k' : ℕ) (col : Column),
            col.push true k copy = col.push true k' copy := fun copy k k' col => rfl
        obtain ⟨key, val⟩ := e
        obtain ⟨keys, vals⟩ := cols
        obtain ⟨kslot, vslot⟩ := slot
        obtain ⟨kslot', vslot'⟩ := slot'
        unfold listKeyValuesLoop
        split_ifs with hcheck hstop
        · rfl
        · exact ih h _
        · rw [hlast, hpush _ kslot kslot', hpush _ vslot vslot']
          exact ih hlen _

/-- The loop of `listKeyValues` writes to its columns what depends on the entries alone. -/
theorem exists_listKeyValuesLoop (hfilter : filter.Copies) (mode : Mode) (hn : n ≤ lastValidSize)
    (hm : m ≤ lastValidSize) (hfits : packed = false → kslots.sum ≤ n ∧ vslots.sum ≤ m) (es : List (Bytes × Bytes))
    {kw vw : PartialWrite} (hk : kw.Sound packed n kslots) (hv : vw.Sound packed m vslots)
    (hsame : kw.sizes.length = vw.sizes.length) :
    ∃ kw' vw' : PartialWrite, kw'.Sound packed n kslots ∧ vw'.Sound packed m vslots ∧
      ∀ keys vals : Bytes, keys.length = n → vals.length = m →
        listKeyValuesLoop mode packed filter es ((kslots.zip vslots).drop kw.sizes.length)
          (kw.column keys, vw.column vals) = (kw'.column keys, vw'.column vals) := by
  obtain ⟨keyBytes, valBytes, hkey, hval⟩ := hfilter
  induction es generalizing kw vw with
  | nil => exact ⟨kw, vw, hk, hv, fun keys vals _ _ => rfl⟩
  | cons e es ih =>
    obtain ⟨key, val⟩ := e
    rcases hslots : (kslots.zip vslots).drop kw.sizes.length with _ | ⟨⟨kslot, vslot⟩, slots⟩
    · exact ⟨kw, vw, hk, hv, fun keys vals _ _ => rfl⟩
    · by_cases hcheck : filter.check key val
      · -- the entry is written to the next slot of both columns
        have hget : (kslots.zip vslots)[kw.sizes.length]? = some (kslot, vslot) := by
          rw [← Nat.add_zero kw.sizes.length, ← List.getElem?_drop, hslots]
          rfl
        obtain ⟨hkslot, hvslot⟩ := List.getElem?_zip_eq_some.1 hget
        rw [hsame] at hvslot
        obtain ⟨item, hitem⟩ : ∃ item : Bytes, ∀ dst off room,
            keyCopy mode (isLast mode (slots.map Prod.fst) es) filter key dst off room =
              copyOut dst off room item := by
          unfold keyCopy
          split_ifs
          · exact ⟨[], fun dst off room => (copyOut_nil dst off room).symm⟩
          · exact ⟨keyBytes key, fun dst off room => hkey dst off room key⟩
        obtain ⟨kw₁, hk₁, hklen, hkpush⟩ := PartialWrite.exists_push hk hkslot hn
          (fun h => (hfits h).1) item
        obtain ⟨vw₁, hv₁, hvlen, hvpush⟩ := PartialWrite.exists_push hv hvslot hm
          (fun h => (hfits h).2) (valBytes val)
        obtain ⟨kw', vw', hk', hv', hloop⟩ := ih hk₁ hv₁ (by omega)
        refine ⟨kw', vw', hk', hv', fun keys vals hkeys hvals => ?_⟩
        have hrest : (kslots.zip vslots).drop kw₁.sizes.length = slots := by
          rw [hklen, ← List.drop_drop, hslots]
          rfl
        rw [listKeyValuesLoop, if_neg (by simp [hcheck]), ← hloop keys vals hkeys hvals, hrest,
          ← hkpush keys hkeys, ← hvpush vals hvals]
        simp only [hval, funext fun dst => funext fun off => funext fun room => hitem dst off room]
      · by_cases hstop : filter.shouldStop key val
        · refine ⟨kw, vw, hk, hv, fun keys vals _ _ => ?_⟩
          rw [listKeyValuesLoop, if_pos (by simp [hcheck]), if_pos hstop]
        · obtain ⟨kw', vw', hk', hv', hloop⟩ := ih hk hv hsame
          refine ⟨kw', vw', hk', hv', fun keys vals hkeys hvals => ?_⟩
          rw [listKeyValuesLoop, if_pos (by simp [hcheck]), if_neg hstop, ← hslots]
          exact hloop keys vals hkeys hvals

/-- `MapDatabase::listKeyValues` only writes. -/
theorem listKeyValues_writes (hfilter : filter.Copies) (mode : Mode) (packed : Bool)
    (s : MapDatabase c) (fromKey : Bytes) :
    OnlyWrites packed (s.listKeyValues mode packed fromKey filter) := by
  intro n m kslots vslots hn hm hlen hfits
  have hk₀ := PartialWrite.sound_start packed n kslots
  have hv₀ := PartialWrite.sound_start packed m vslots
  rcases hs : s.migrated with _ | _
  · obtain ⟨kw, vw, hk, hv, hloop⟩ := exists_listKeyValuesLoop hfilter mode hn hm hfits
      (s.entriesFrom (mode.has .inclusive) fromKey) hk₀ hv₀ rfl
    refine ⟨.OK, _, _, hk.finish, hv.finish, ?_⟩
    intro keys ksizes vals vsizes hkeys hvals hklen hvlen hslots
    have hzip : listKeyValuesLoop mode packed filter (s.entriesFrom (mode.has .inclusive) fromKey)
        (ksizes.zip vsizes) (Column.start keys, Column.start vals) =
          (kw.column keys, vw.column vals) := by
      rw [← hloop keys vals hkeys hvals, ← hkeys, ← hvals, PartialWrite.column_start,
        PartialWrite.column_start]
      cases packed with
      | true =>
        refine listKeyValuesLoop_packed mode filter _ ?_ _
        rw [List.length_zip, List.length_drop, List.length_zip, hklen, hvlen]
        rfl
      | false =>
        rw [(hslots rfl).1, (hslots rfl).2]
        rfl
    unfold listKeyValues
    rw [hs, if_neg Bool.false_ne_true, hzip]
    refine ⟨rfl, fun _ => ?_⟩
    rw [hklen, hvlen]
    rfl
  · refine ⟨.Migrated, _, _, hk₀.finish, hv₀.finish, ?_⟩
    intro keys ksizes vals vsizes _ _ _ _ _
    unfold listKeyValues
    rw [hs, if_pos rfl]
    exact ⟨rfl, fun h => by cases h⟩

end MapDatabase

end Yokan
