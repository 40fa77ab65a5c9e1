import Yokan.ListingWrites

/-!
# Yokan: what `get` writes

`get` fills a buffer whose contents it does not look at, as a listing fills its columns: it writes
what depends on the keys and the entries alone, and its sizes announce what it has written.

* `exists_getWith`: the loops of `get` in the in-memory backends;
* `GetFills`: two calls on different buffers announce the same values.
-/

namespace Yokan

open Buffer

/-! ### `get` -/

/-- The values of a `get`, as a column. -/
def GetOutput.column (out : GetOutput) : ColumnOutput := ⟨out.vals, out.valsSize, out.vsizes⟩

namespace PartialWrite

variable {n slot : ℕ} {slots : List ℕ} {w : PartialWrite}

/-- The local variables of the packed branch of `get`. -/
def packedGet (n : ℕ) (w : PartialWrite) (buf : Bytes) : PackedGet :=
  ⟨w.patch.apply buf, w.offset, n - w.offset, w.tooSmall, w.sizes⟩

/-- The loop of the packed branch of `get` writes what depends on the entries alone. -/
theorem exists_getPacked (find : Bytes → Option Bytes) (wait : Bool) (hn : n ≤ lastValidSize)
    (ks : List Bytes) (hw : w.Sound true n slots) (hlen : w.sizes.length + ks.length = slots.length) :
    ∃ (status : Option Status) (w' : PartialWrite), w'.Sound true n slots ∧
      (status = some .TimedOut ∨ status = none ∧ w'.sizes.length = slots.length) ∧
      ∀ buf, buf.length = n →
        eachRecord (getPackedBody find wait) ks (w.packedGet n buf) =
          (status, w'.packedGet n buf) := by
  induction ks generalizing w with
  | nil => exact ⟨none, w, hw, Or.inr ⟨rfl, hlen⟩, fun buf _ => rfl⟩
  | cons k ks ih =>
    rw [List.length_cons] at hlen
    have hslot : slots[w.sizes.length]? = some slots[w.sizes.length] :=
      List.getElem?_eq_getElem (by omega)
    have hoff := hw.offset_le rfl
    have hmark : lastValidSize < sizeTooSmall := by decide
    -- an entry that is reported with a mark
    have hskip : ∀ (size : ℕ) (tooSmall : Bool), size < 2 ^ 64 → lastValidSize < size →
        (∀ buf, buf.length = n → getPackedBody find wait k (w.packedGet n buf) =
          (none, (w.mark true slots[w.sizes.length] size tooSmall).packedGet n buf)) →
        ∃ (status : Option Status) (w' : PartialWrite), w'.Sound true n slots ∧
          (status = some .TimedOut ∨ status = none ∧ w'.sizes.length = slots.length) ∧
          ∀ buf, buf.length = n →
            eachRecord (getPackedBody find wait) (k :: ks) (w.packedGet n buf) =
              (status, w'.packedGet n buf) := by
      intro size tooSmall hsize hlast hbody
      obtain ⟨status, w', hw', hfull, hloop⟩ := ih (hw.mark hslot hsize hlast tooSmall)
        (by simp [PartialWrite.mark]; omega)
      refine ⟨status, w', hw', hfull, fun buf hbuf => ?_⟩
      rw [eachRecord, hbody buf hbuf]
      exact hloop buf hbuf
    rcases hfind : find k with _ | v
    · rcases wait with _ | _
      · refine hskip keyNotFound w.tooSmall (by decide) (by decide) fun buf _ => ?_
        rw [getPackedBody, hfind]
        rfl
      · refine ⟨some .TimedOut, w, hw, Or.inl rfl, fun buf _ => ?_⟩
        rw [eachRecord, getPackedBody, hfind]
        rfl
    · rcases hsmall : w.tooSmall with _ | _
      · by_cases hroom : n - w.offset < v.length
        · refine hskip sizeTooSmall true (by decide) hmark fun buf hbuf => ?_
          simp only [getPackedBody, hfind, packedGet, hsmall, valCopy,
            hw.copyOut_apply hbuf (show w.offset + (n - w.offset) ≤ n by omega), if_pos hroom,
            Bool.false_eq_true, if_false, if_true]
          rfl
        · have hlast : lastValidSize < 2 ^ 64 := by decide
          have hne : v.length ≠ sizeTooSmall := by omega
          obtain ⟨status, w', hw', hfull, hloop⟩ := ih
            (hw.write hslot hn v (by omega) (fun hfalse => by cases hfalse))
            (by simp [PartialWrite.write]; omega)
          refine ⟨status, w', hw', hfull, fun buf hbuf => ?_⟩
          have hbody : getPackedBody find wait k (w.packedGet n buf) =
              (none, (w.write true slots[w.sizes.length] v).packedGet n buf) := by
            simp only [getPackedBody, hfind, packedGet, hsmall, valCopy,
              hw.copyOut_apply hbuf (show w.offset + (n - w.offset) ≤ n by omega), if_neg hroom,
              Bool.false_eq_true, if_false, if_neg hne, PartialWrite.write, if_true,
              addSize_eq (show w.offset + v.length < 2 ^ 64 by omega), Nat.sub_sub]
          rw [eachRecord, hbody]
          exact hloop buf hbuf
      · refine hskip sizeTooSmall true (by decide) hmark fun buf _ => ?_
        rw [getPackedBody, hfind]
        simp only [packedGet, hsmall, if_true]
        rfl

/-- So does the loop over the slots. -/
theorem exists_getSlots (find : Bytes → Option Bytes) (wait : Bool) (keys : Bytes)
    (hn : n ≤ lastValidSize) (hsum : slots.sum ≤ n) (ksizes : List ℕ) (ko : ℕ)
    (hw : w.Sound false n slots) (hlen : w.sizes.length + ksizes.length = slots.length) :
    ∃ (status : Option Status) (w' : PartialWrite), w'.Sound false n slots ∧
      (status = some .TimedOut ∨ status = none ∧ w'.sizes.length = slots.length) ∧
      ∀ buf, buf.length = n →
        getSlotsLoop find wait keys (ksizes.zip (slots.drop w.sizes.length)) ko w.offset
            (w.patch.apply buf) w.sizes =
          (status, w'.patch.apply buf, w'.sizes) := by
  induction ksizes generalizing w ko with
  | nil => exact ⟨none, w, hw, Or.inr ⟨rfl, hlen⟩, fun buf _ => rfl⟩
  | cons ksize ksizes ih =>
    rw [List.length_cons] at hlen
    have hlt : w.sizes.length < slots.length := by omega
    have hslot : slots[w.sizes.length]? = some slots[w.sizes.length] :=
      List.getElem?_eq_getElem hlt
    have hin := hw.offset_add_slot_le rfl hslot hsum
    have hlast : lastValidSize < 2 ^ 64 := by decide
    have hadd : addSize w.offset slots[w.sizes.length] = w.offset + slots[w.sizes.length] :=
      addSize_eq (by omega)
    -- an entry that is reported with a mark
    have hskip : ∀ size : ℕ, size < 2 ^ 64 → lastValidSize < size →
        (∀ buf, buf.length = n →
          getSlotsLoop find wait keys ((ksize :: ksizes).zip (slots.drop w.sizes.length)) ko
              w.offset (w.patch.apply buf) w.sizes =
            getSlotsLoop find wait keys (ksizes.zip (slots.drop (w.sizes.length + 1)))
              (addSize ko ksize) (w.offset + slots[w.sizes.length]) (w.patch.apply buf)
              (w.sizes ++ [size])) →
        ∃ (status : Option Status) (w' : PartialWrite), w'.Sound false n slots ∧
          (status = some .TimedOut ∨ status = none ∧ w'.sizes.length = slots.length) ∧
          ∀ buf, buf.length = n →
            getSlotsLoop find wait keys ((ksize :: ksizes).zip (slots.drop w.sizes.length)) ko
                w.offset (w.patch.apply buf) w.sizes =
              (status, w'.patch.apply buf, w'.sizes) := by
      intro size hsize hlarge hbody
      obtain ⟨status, w', hw', hfull, hloop⟩ := ih (addSize ko ksize)
        (hw.mark hslot hsize hlarge w.tooSmall) (by simp [PartialWrite.mark]; omega)
      refine ⟨status, w', hw', hfull, fun buf hbuf => ?_⟩
      rw [hbody buf hbuf, ← hloop buf hbuf]
      simp [PartialWrite.mark]
    rw [List.drop_eq_getElem_cons hlt, List.zip_cons_cons] at hskip ⊢
    rcases hfind : find (slice keys ko ksize) with _ | v
    · rcases wait with _ | _
      · refine hskip keyNotFound (by decide) (by decide) fun buf _ => ?_
        rw [getSlotsLoop, hfind, if_neg Bool.false_ne_true, hadd]
      · refine ⟨some .TimedOut, w, hw, Or.inl rfl, fun buf _ => ?_⟩
        rw [getSlotsLoop, hfind, if_pos rfl]
    · by_cases hroom : slots[w.sizes.length] < v.length
      · refine hskip sizeTooSmall (by decide) (by decide) fun buf hbuf => ?_
        simp only [getSlotsLoop, hfind, valCopy, hw.copyOut_apply hbuf hin, if_pos hroom, hadd]
      · obtain ⟨status, w', hw', hfull, hloop⟩ := ih (addSize ko ksize)
          (hw.write hslot hn v (by omega) (fun _ => by omega)) (by simp [PartialWrite.write]; omega)
        refine ⟨status, w', hw', hfull, fun buf hbuf => ?_⟩
        rw [← hloop buf hbuf]
        simp only [getSlotsLoop, hfind, valCopy, hw.copyOut_apply hbuf hin, if_neg hroom, hadd,
          PartialWrite.write, List.length_append, List.length_singleton, Bool.false_eq_true, if_false]

/-- A `get` that has seen all its keys. -/
def result (packed : Bool) (n : ℕ) (w : PartialWrite) : ColumnWrite :=
  ⟨w.patch, if packed then w.offset else n, w.sizes⟩

theorem Sound.result {packed : Bool} (hw : w.Sound packed n slots)
    (hfull : w.sizes.length = slots.length) : (w.result packed n).Sound packed n slots where
  length_patch := hw.length_patch
  length_sizes := hfull
  sizes_lt := hw.sizes_lt
  size_le h := by rw [PartialWrite.result, if_pos h]; exact hw.offset_le h
  packed_written h := by rw [PartialWrite.result, if_pos h]; exact hw.packed_written h
  announced_le h := by rw [PartialWrite.result, if_pos h]; exact hw.announced_le h
  slots_written := hw.slots_written

end PartialWrite

/-- The loops of `get` write what depends on the entries alone. -/
theorem exists_getWith {n : ℕ} {slots ksizes : List ℕ} {keys : Bytes} {packed : Bool}
    (find : Bytes → Option Bytes) (mode : Mode) (hn : n ≤ lastValidSize) (hkeys : Packed keys ksizes)
    (hlen : ksizes.length = slots.length) (hfits : packed = false → slots.sum ≤ n) :
    ∃ (status : Option Status) (w : ColumnWrite),
      (status = some .TimedOut ∨ status = none ∧ w.Sound packed n slots) ∧
      ∀ (vals : Bytes) (vsizes : List ℕ), vals.length = n → vsizes.length = slots.length →
        (packed = false → vsizes = slots) →
        (getWith find mode packed keys ksizes vals vsizes).1 = status ∧
          (status = none →
            (getWith find mode packed keys ksizes vals vsizes).2.column = w.output vals) := by
  have hstart := PartialWrite.sound_start packed n slots
  cases packed with
  | true =>
    obtain ⟨status, w, hw, hfull, hloop⟩ := PartialWrite.exists_getPacked find (mode.has .wait) hn
      (unpack keys ksizes) hstart (by rw [length_unpack, hlen]; exact Nat.zero_add _)
    refine ⟨status, w.result true n, hfull.imp_right fun h => ⟨h.1, hw.result h.2⟩,
      fun vals vsizes hvals hvlen _ => ?_⟩
    have hinit : (PartialWrite.start n).packedGet n vals = ⟨vals, 0, vals.length, false, []⟩ := by
      rw [PartialWrite.packedGet, PartialWrite.start, ← hvals, Patch.apply_untouched]
      rfl
    have hrun := hloop vals hvals
    rw [hinit] at hrun
    unfold getWith
    rw [if_pos rfl, keysLoop_eq hkeys.2 hkeys.1, hrun]
    have hoff := hw.offset_le rfl
    rcases hfull with rfl | ⟨rfl, hfull⟩
    · exact ⟨rfl, fun hfalse => by cases hfalse⟩
    · refine ⟨rfl, fun _ => ?_⟩
      simp only [PartialWrite.packedGet, GetOutput.column, ColumnWrite.output, PartialWrite.result,
        if_true, hfull, ← hvlen, List.drop_length, List.append_nil, hvals, Nat.sub_sub_self hoff]
  | false =>
    obtain ⟨status, w, hw, hfull, hloop⟩ := PartialWrite.exists_getSlots find (mode.has .wait) keys hn
      (hfits rfl) ksizes 0 hstart (by rw [hlen]; exact Nat.zero_add _)
    refine ⟨status, w.result false n, hfull.imp_right fun h => ⟨h.1, hw.result h.2⟩,
      fun vals vsizes hvals hvlen hslots => ?_⟩
    have hrun := hloop vals hvals
    have huntouched : Patch.apply (Patch.untouched n) vals = vals := by
      rw [← hvals, Patch.apply_untouched]
    rw [PartialWrite.start, List.length_nil, List.drop_zero, huntouched, ← hslots rfl] at hrun
    unfold getWith
    rw [if_neg Bool.false_ne_true, hrun]
    rcases hfull with rfl | ⟨rfl, hfull⟩
    · exact ⟨rfl, fun hfalse => by cases hfalse⟩
    · refine ⟨rfl, fun _ => ?_⟩
      simp only [GetOutput.column, ColumnWrite.output, PartialWrite.result, Bool.false_eq_true,
        if_false, hfull, ← hvlen, List.drop_length, List.append_nil, hvals]

/-- Two callers with the same request for items: their buffers and, packed, their sizes may differ.
A buffer in memory is shorter than `PTRDIFF_MAX`. -/
structure SameRequest (packed : Bool) (n : ℕ) (slots : List ℕ) (buf buf' : Bytes)
    (sizes sizes' : List ℕ) : Prop where
  lt_max : n < 2 ^ 63
  sum_le : packed = false → slots.sum ≤ n
  length_left : buf.length = n
  length_right : buf'.length = n
  length_sizes : sizes.length = slots.length
  length_sizes' : sizes'.length = slots.length
  slots_eq : packed = false → sizes = slots ∧ sizes' = slots

theorem SameRequest.le_lastValidSize {packed : Bool} {n : ℕ} {slots : List ℕ} {buf buf' : Bytes}
    {sizes sizes' : List ℕ} (h : SameRequest packed n slots buf buf' sizes sizes') :
    n ≤ lastValidSize :=
  h.lt_max.le.trans (by decide)

/-- Two calls that read the same values into two buffers. -/
def SameGet {σ : Type} (announced : List ℕ → ℕ → Prop) (n count : ℕ) (r r' : GetResult σ) : Prop :=
  r.status = r'.status ∧ r.db = r'.db ∧
    (r.status = .OK → SameFill announced n count r.out.column r'.out.column)

/-- The law of `get` that a reply rests on: whatever its value buffer and, packed, its sizes hold, a
database answers the same and fills the buffer with the same values. -/
class GetFills (σ : Type) [DatabaseInterface σ] : Prop where
  sameFill (mode : Mode) {packed : Bool} (s : σ) {keys : Bytes} {ksizes : List ℕ} {n : ℕ}
    {slots : List ℕ} {vals vals' : Bytes} {vsizes vsizes' : List ℕ} :
    Packed keys ksizes → ksizes.length = slots.length →
    SameRequest packed n slots vals vals' vsizes vsizes' →
    SameGet (Announced packed slots) n slots.length
      (DatabaseInterface.get mode packed s keys ksizes vals vsizes)
      (DatabaseInterface.get mode packed s keys ksizes vals' vsizes')

/-- `get` of the in-memory backends. -/
theorem getOrConsume_fills {σ : Type} (find : σ → Bytes → Option Bytes) (migrated : σ → Bool)
    (erase : Mode → σ → Bytes → List ℕ → Status × σ) (mode : Mode) {packed : Bool} (s : σ)
    {keys : Bytes} {ksizes : List ℕ} {n : ℕ} {slots : List ℕ} {vals vals' : Bytes}
    {vsizes vsizes' : List ℕ} (hkeys : Packed keys ksizes) (hlen : ksizes.length = slots.length)
    (h : SameRequest packed n slots vals vals' vsizes vsizes') :
    SameGet (Announced packed slots) n slots.length
      (getOrConsume find migrated erase mode packed s keys ksizes vals vsizes)
      (getOrConsume find migrated erase mode packed s keys ksizes vals' vsizes') := by
  obtain ⟨status, w, hw, hget⟩ := exists_getWith (find s) mode h.le_lastValidSize hkeys hlen h.sum_le
  obtain ⟨hstatus, hout⟩ := hget vals vsizes h.length_left h.length_sizes fun hp =>
    (h.slots_eq hp).1
  obtain ⟨hstatus', hout'⟩ := hget vals' vsizes' h.length_right h.length_sizes' fun hp =>
    (h.slots_eq hp).2
  have hvlen := h.length_sizes
  have hvlen' := h.length_sizes'
  have hlen₁ : ¬ ksizes.length ≠ vsizes.length := by omega
  have hlen₂ : ¬ ksizes.length ≠ vsizes'.length := by omega
  unfold SameGet getOrConsume
  simp only [if_neg hlen₁, if_neg hlen₂]
  rcases hg : getWith (find s) mode packed keys ksizes vals vsizes with ⟨o, out⟩
  rcases hg' : getWith (find s) mode packed keys ksizes vals' vsizes' with ⟨o', out'⟩
  rw [hg] at hstatus hout
  rw [hg'] at hstatus' hout'
  obtain rfl : o = status := hstatus
  obtain rfl : o' = o := hstatus'
  by_cases hmigrated : migrated s = true
  · simp only [if_pos hmigrated]
    exact ⟨trivial, trivial, nofun⟩
  simp only [if_neg hmigrated]
  rcases hw with rfl | ⟨rfl, hw⟩
  · exact ⟨rfl, rfl, nofun⟩
  · have hfill : SameFill (Announced packed slots) n slots.length out.column out'.column := by
      rw [show out.column = w.output vals from hout rfl,
        show out'.column = w.output vals' from hout' rfl]
      exact hw.sameFill h.length_left h.length_right
    dsimp only
    split_ifs with hconsume
    · exact ⟨rfl, rfl, fun _ => hfill⟩
    · exact ⟨rfl, rfl, fun _ => hfill⟩

instance {σ : Type} [InMemory σ] : GetFills σ where
  sameFill mode _ s _ _ _ _ _ _ _ _ hkeys hlen h := getOrConsume_fills _ _ _ mode s hkeys hlen h

end Yokan
