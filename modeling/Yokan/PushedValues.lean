import Yokan.BufferReuse
import Yokan.BulkLayout
import Yokan.GetValues
import Yokan.ListingAgreement

/-!
# Yokan: what the handler of `get` pushes

`yk_get_ult` answers with two transfers: the values and their sizes. A single value is pushed with
the size that the database reports for it, which may be a mark.

* `ValuesRead`: what a `get` that succeeds leaves in its buffers, in any mode;
* `getMemory`: the memory of a client that asks for values, with what lies around it;
* `ykGetUlt_delivers_iff`: when the client gets what the database has produced.
-/

namespace Yokan

open Buffer

/-! ### `get`, when it succeeds -/

section Loops

variable {find : Bytes → Option Bytes} {mode : Mode} {keys : Bytes} {ksizes : List ℕ}

/-- A packed `get` that does not run into a missing key while it waits for keys has not waited. -/
theorem eachRecord_getPackedBody_of_none (ks : List Bytes) (g : PackedGet)
    (h : (eachRecord (getPackedBody find true) ks g).1 = none) :
    eachRecord (getPackedBody find true) ks g = eachRecord (getPackedBody find false) ks g := by
  induction ks generalizing g with
  | nil => rfl
  | cons k ks ih =>
    have hbody (hk : find k ≠ none) :
        getPackedBody find true k g = getPackedBody find false k g := by
      unfold getPackedBody
      cases hfind : find k with
      | none => exact absurd hfind hk
      | some v => rfl
    cases hfind : find k with
    | none =>
      rw [eachRecord, getPackedBody, hfind] at h
      cases h
    | some v =>
      have heq := hbody (by rw [hfind]; exact Option.some_ne_none v)
      rw [eachRecord, heq] at h
      rw [eachRecord, eachRecord, heq]
      generalize getPackedBody find false k g = r at h
      obtain ⟨_ | status, g'⟩ := r
      · exact ih g' h
      · cases h

/-- So does one over the slots. -/
theorem getSlotsLoop_of_none (ps : List (ℕ × ℕ)) (ko vo : ℕ) (vals : Bytes) (out : List ℕ)
    (h : (getSlotsLoop find true keys ps ko vo vals out).1 = none) :
    getSlotsLoop find true keys ps ko vo vals out =
      getSlotsLoop find false keys ps ko vo vals out := by
  induction ps generalizing ko vo vals out with
  | nil => rfl
  | cons p ps ih =>
    obtain ⟨ksize, vsize⟩ := p
    rw [getSlotsLoop] at h
    rw [getSlotsLoop, getSlotsLoop]
    cases hfind : find (slice keys ko ksize) with
    | none =>
      rw [hfind] at h
      cases h
    | some v =>
      rw [hfind] at h
      exact ih _ _ _ _ h

/-- The loops that end read the same in all modes. -/
theorem getWith_of_none {packed : Bool} {vals : Bytes} {vsizes : List ℕ}
    (hkeys : Packed keys ksizes)
    (h : (getWith find mode packed keys ksizes vals vsizes).1 = none) :
    getWith find mode packed keys ksizes vals vsizes =
      getWith find .default packed keys ksizes vals vsizes := by
  have hdefault : Mode.default.has .wait = false := by decide
  unfold getWith at h ⊢
  rw [hdefault]
  cases hwait : mode.has .wait with
  | false => rfl
  | true =>
    rw [hwait] at h
    cases packed with
    | true =>
      rw [if_pos rfl, keysLoop_eq hkeys.2 hkeys.1] at h
      rw [if_pos rfl, if_pos rfl, keysLoop_eq hkeys.2 hkeys.1, keysLoop_eq hkeys.2 hkeys.1,
        eachRecord_getPackedBody_of_none]
      generalize eachRecord (getPackedBody find true) (unpack keys ksizes)
        ⟨vals, 0, vals.length, false, []⟩ = r at h
      obtain ⟨_ | status, g⟩ := r
      · rfl
      · cases h
    | false =>
      rw [if_neg Bool.false_ne_true] at h
      rw [if_neg Bool.false_ne_true, if_neg Bool.false_ne_true, getSlotsLoop_of_none _ _ _ _ _ h]

end Loops

/-! ### What a `get` leaves in its buffers -/

/-- The sizes and the values that a `get` leaves in a buffer of length `n`: a size that is not a
mark is that of the value found, which is where the item starts. -/
structure ValuesRead (find : Bytes → Option Bytes) (packed : Bool) (ks : List Bytes)
    (slots : List ℕ) (n : ℕ) (out : GetOutput) : Prop where
  length_vals : out.vals.length = n
  length_vsizes : out.vsizes.length = ks.length
  vsizes_lt : ∀ size ∈ out.vsizes, size < 2 ^ 64
  vsizes_slots : packed = false →
    out.vsizes = List.zipWith (fun k slot => slotSize slot (find k)) ks slots
  valsSize_eq : out.valsSize = if packed then (strides true slots out.vsizes).sum else n
  valsSize_le : out.valsSize ≤ n
  found : ∀ i k size, ks[i]? = some k → out.vsizes[i]? = some size → size ≤ lastValidSize →
    itemStart packed slots out.vsizes i + size ≤ out.valsSize ∧ ∃ v, find k = some v ∧
      v.length = size ∧ slice out.vals (itemStart packed slots out.vsizes i) size = v

theorem strides_cons (slots : List ℕ) (size : ℕ) (sizes : List ℕ) :
    strides true slots (size :: sizes) =
      (if size ≤ lastValidSize then size else 0) :: strides true slots sizes := rfl

theorem itemStart_cons (slots : List ℕ) (size : ℕ) (sizes : List ℕ) (i : ℕ) :
    itemStart true slots (size :: sizes) (i + 1) =
      (if size ≤ lastValidSize then size else 0) + itemStart true slots sizes i := by
  rw [itemStart, itemStart, strides_cons, List.take_succ_cons, List.sum_cons]

/-- The items of a packed buffer, each at its start. -/
def PackedItems (m : Bytes → Option Bytes) (slots : List ℕ) (ks : List Bytes) (sizes : List ℕ)
    (buf : Bytes) : Prop :=
  buf.length = (strides true slots sizes).sum ∧
    ∀ i k size, ks[i]? = some k → sizes[i]? = some size → size ≤ lastValidSize →
      itemStart true slots sizes i + size ≤ buf.length ∧ ∃ v, m k = some v ∧
        v.length = size ∧ slice buf (itemStart true slots sizes i) size = v

section PackedItems

variable {m : Bytes → Option Bytes} {slots : List ℕ} {k : Bytes} {ks : List Bytes}
  {sizes : List ℕ} {buf : Bytes}

/-- A mark takes no room. -/
theorem PackedItems.mark (h : PackedItems m slots ks sizes buf) {mark : ℕ}
    (hmark : lastValidSize < mark) : PackedItems m slots (k :: ks) (mark :: sizes) buf := by
  obtain ⟨hlen, hitems⟩ := h
  refine ⟨?_, fun i k' size hk hsize hle => ?_⟩
  · rw [strides_cons, if_neg (Nat.not_le.2 hmark), List.sum_cons, Nat.zero_add, hlen]
  · cases i with
    | zero =>
      obtain rfl : mark = size := Option.some.inj hsize
      omega
    | succ i =>
      rw [itemStart_cons, if_neg (Nat.not_le.2 hmark), Nat.zero_add]
      exact hitems i k' size hk hsize hle

/-- A value is in front of the others. -/
theorem PackedItems.value (h : PackedItems m slots ks sizes buf) {v : Bytes} (hk : m k = some v)
    (hv : v.length ≤ lastValidSize) :
    PackedItems m slots (k :: ks) (v.length :: sizes) (v ++ buf) := by
  obtain ⟨hlen, hitems⟩ := h
  refine ⟨?_, fun i k' size hk' hsize hle => ?_⟩
  · rw [strides_cons, if_pos hv, List.sum_cons, List.length_append, hlen]
  · rw [List.length_append]
    cases i with
    | zero =>
      obtain rfl : k = k' := Option.some.inj hk'
      obtain rfl : v.length = size := Option.some.inj hsize
      refine ⟨?_, v, hk, rfl, slice_full v buf⟩
      simp [itemStart]
    | succ i =>
      obtain ⟨hin, w, hw, hwlen, hslice⟩ := hitems i k' size hk' hsize hle
      rw [itemStart_cons, if_pos hv]
      exact ⟨by omega, w, hw, hwlen, by rw [slice_append_right, hslice]⟩

end PackedItems

/-- The packed values, and where each of them starts. -/
theorem packedValues_items (m : Bytes → Option Bytes) (slots : List ℕ) (ks : List Bytes)
    {room : ℕ} (hroom : room ≤ lastValidSize) (full : Bool) :
    PackedItems m slots ks (packedValues m ks room full).1 (packedValues m ks room full).2 := by
  induction ks generalizing room full with
  | nil => exact ⟨rfl, fun i k size hk => by simp at hk⟩
  | cons k ks ih =>
    rw [packedValues]
    cases hk : m k with
    | none => exact (ih hroom full).mark (by decide)
    | some v =>
      dsimp only
      split_ifs with hfull
      · exact (ih hroom true).mark (by decide)
      · exact (ih (by omega) full).value hk (by omega)

section Read

variable {σ : Type} [InMemory σ] {mode : Mode} {packed : Bool} {s : σ} {keys vals : Bytes}
  {ksizes vsizes : List ℕ}

open InMemory

/-- A `get` that succeeds has gone through its loops, and returns what they leave. -/
theorem get_of_OK (hkeys : Packed keys ksizes) (hvals : vals.length ≤ lastValidSize)
    (hlen : ksizes.length = vsizes.length) (hfits : packed = false → vsizes.sum ≤ vals.length)
    (hOK : (DatabaseInterface.get mode packed s keys ksizes vals vsizes).status = .OK) :
    let r := getWith (find s) .default packed keys ksizes vals vsizes
    (DatabaseInterface.get mode packed s keys ksizes vals vsizes).out = r.2 ∧
      ∃ w : ColumnWrite, w.Sound packed vals.length vsizes ∧ r.2.column = w.output vals := by
  obtain ⟨status, w, hw, hget⟩ := exists_getWith (find s) mode hvals hkeys hlen hfits
  obtain ⟨hstatus, hout⟩ := hget vals vsizes rfl rfl fun _ => rfl
  have hresult : DatabaseInterface.get mode packed s keys ksizes vals vsizes =
      getOrConsume find migrated (eraseWith migrated eraseBody) mode packed s keys ksizes vals
        vsizes := rfl
  have hsame (h : (getWith (find s) mode packed keys ksizes vals vsizes).1 = none) :=
    getWith_of_none hkeys h
  rw [hresult] at hOK ⊢
  unfold getOrConsume at hOK ⊢
  rw [if_neg (not_not.2 hlen)] at hOK ⊢
  cases hmigrated : migrated s with
  | true =>
    rw [hmigrated, if_pos rfl] at hOK
    cases hOK
  | false =>
    rw [hmigrated, if_neg Bool.false_ne_true] at hOK
    rw [if_neg Bool.false_ne_true]
    rcases hw with rfl | ⟨rfl, hw⟩
    · generalize getWith (find s) mode packed keys ksizes vals vsizes = r at hOK hstatus
      obtain ⟨status, out⟩ := r
      obtain rfl : status = some .TimedOut := hstatus
      cases hOK
    · have hcolumn := hout rfl
      rw [← hsame hstatus]
      refine ⟨?_, w, hw, hcolumn⟩
      generalize getWith (find s) mode packed keys ksizes vals vsizes = r at hstatus
      obtain ⟨status, out⟩ := r
      obtain rfl : status = none := hstatus
      dsimp only
      split_ifs <;> rfl

omit [InMemory σ] in
/-- A size that is not a mark is that of a value that fits its slot. -/
theorem slot_of_proper {m : Bytes → Option Bytes} {ks : List Bytes} {slots : List ℕ} {i size : ℕ}
    {k : Bytes} (hk : ks[i]? = some k)
    (hsize : (List.zipWith (fun k slot => slotSize slot (m k)) ks slots)[i]? = some size)
    (hproper : size ≤ lastValidSize) :
    ∃ slot, slots[i]? = some slot ∧ ∃ v, m k = some v ∧ v.length = size ∧ v.length ≤ slot := by
  have hmark : lastValidSize < sizeTooSmall := by decide
  have hmark' : lastValidSize < keyNotFound := by decide
  rw [List.getElem?_zipWith, hk] at hsize
  cases hslot : slots[i]? with
  | none =>
    rw [hslot] at hsize
    cases hsize
  | some slot =>
    rw [hslot] at hsize
    obtain rfl : slotSize slot (m k) = size := Option.some.inj hsize
    refine ⟨slot, rfl, ?_⟩
    cases hv : m k with
    | none =>
      rw [hv, slotSize] at hproper
      omega
    | some v =>
      rw [hv, slotSize] at hproper
      rw [slotSize]
      split_ifs at hproper ⊢ with hroom
      · omega
      · exact ⟨v, rfl, rfl, Nat.le_of_not_lt hroom⟩

/-- A `get` that succeeds has read its values, in any mode. -/
theorem valuesRead_of_OK (hkeys : Packed keys ksizes) (hvals : vals.length ≤ lastValidSize)
    (hlen : ksizes.length = vsizes.length) (hfits : packed = false → vsizes.sum ≤ vals.length)
    (hOK : (DatabaseInterface.get mode packed s keys ksizes vals vsizes).status = .OK) :
    ValuesRead (find s) packed (unpack keys ksizes) vsizes vals.length
      (DatabaseInterface.get mode packed s keys ksizes vals vsizes).out := by
  obtain ⟨hout, w, hw, hcolumn⟩ := get_of_OK hkeys hvals hlen hfits hOK
  rw [hout]
  have hwait : Mode.default.has .wait = false := by decide
  have hvsizes : (getWith (find s) .default packed keys ksizes vals vsizes).2.vsizes = w.sizes :=
    congrArg ColumnOutput.sizes hcolumn
  have hlength : (getWith (find s) .default packed keys ksizes vals vsizes).2.vals.length =
      vals.length :=
    (congrArg (List.length ∘ ColumnOutput.buf) hcolumn).trans
      ((Patch.length_apply hw.length_patch.symm).trans hw.length_patch)
  have hcount : w.sizes.length = (unpack keys ksizes).length := by
    rw [length_unpack, hlen, hw.length_sizes]
  cases packed with
  | true =>
    -- the items of a packed column lie one behind the other, from the front of the buffer
    have hitems := packedValues_items (find s) vsizes (unpack keys ksizes) hvals false
    have hle := length_packedValues_le (find s) (unpack keys ksizes) vals.length false
    rw [getWith_packed hwait hkeys hlen hvals] at hvsizes hlength ⊢
    generalize packedValues (find s) (unpack keys ksizes) vals.length false = r at *
    obtain ⟨hsum, hitems⟩ := hitems
    refine ⟨hlength, ?_, ?_, nofun, hsum, hle, fun i k size hk hsize hproper => ?_⟩
    · exact (congrArg List.length hvsizes).trans hcount
    · exact fun size hsize => hw.sizes_lt size (hvsizes ▸ hsize)
    · obtain ⟨hin, v, hv, hvlen, hslice⟩ := hitems i k size hk hsize hproper
      refine ⟨hin, v, hv, hvlen, ?_⟩
      have hfront : blit vals 0 r.2 = r.2 ++ vals.drop r.2.length := by
        simp [blit]
      change slice (blit vals 0 r.2) (itemStart true vsizes r.1 i) size = v
      rw [hfront, slice_append_left hin]
      exact hslice
  | false =>
    -- each item lies at the front of its slot
    have hlt : vsizes.sum < 2 ^ 64 := (hfits rfl).trans_lt (hvals.trans_lt (by decide))
    have hsizes : (getWith (find s) .default false keys ksizes vals vsizes).2.vsizes = _ :=
      getWith_slots_vsizes hwait hkeys hlen
    have hfill : (getWith (find s) .default false keys ksizes vals vsizes).2.vals = _ :=
      getWith_slots_vals (find s) hwait hkeys hlt
    refine ⟨hlength, ?_, ?_, fun _ => hsizes, rfl, le_rfl, fun i k size hk hsize hproper => ?_⟩
    · exact (congrArg List.length hvsizes).trans hcount
    · exact fun size hsize => hw.sizes_lt size (hvsizes ▸ hsize)
    · rw [hsizes] at hsize
      obtain ⟨slot, hslot, v, hv, rfl, hroom⟩ := slot_of_proper hk hsize hproper
      have hsum : (vsizes.take i).sum + slot ≤ vsizes.sum := by
        obtain ⟨hi, rfl⟩ := List.getElem?_eq_some_iff.1 hslot
        rw [← List.sum_take_succ vsizes i hi]
        exact (List.take_sublist _ _).sum_le_sum (by simp)
      have hstart (sizes : List ℕ) : itemStart false vsizes sizes i = (vsizes.take i).sum := rfl
      rw [hstart, hfill]
      refine ⟨?_, v, hv, rfl, ?_⟩
      · exact (Nat.add_le_add_left hroom _).trans (hsum.trans (hfits rfl))
      · have hslots : (((unpack keys ksizes).map (find s)).zip vsizes).map Prod.snd = vsizes :=
          List.map_snd_zip (by rw [List.length_map, length_unpack, hlen])
        have hi : (((unpack keys ksizes).map (find s)).zip vsizes)[i]? = some (some v, slot) := by
          rw [List.getElem?_zip_eq_some, List.getElem?_map, hk, Option.map_some, hv]
          exact ⟨rfl, hslot⟩
        have hin : 0 + ((((unpack keys ksizes).map (find s)).zip vsizes).map Prod.snd).sum ≤
            vals.length := by
          rw [hslots, Nat.zero_add]
          exact hfits rfl
        have hslice := slice_fill hin hi hroom
        rwa [List.map_take, hslots, Nat.zero_add] at hslice

end Read

/-! ### The request and the answer -/

/-- The memory around the region that a client exposes for a `get`: the sizes of the keys and of the
values, the keys, and room for the values. -/
def getMemory (pre post : Bytes) (ksizes vsizes : List ℕ) (keys vals : Bytes) : Bytes :=
  pre ++ (sizesMemory ksizes ++ (sizesMemory vsizes ++ (keys ++ (vals ++ post))))

/-- What a client asks for: the sizes are those of its keys, no key is empty, the slots of the
values have room, and the buffer from the pool is large enough. -/
structure GetCall (packed : Bool) (ksizes vsizes : List ℕ) (keys vals pooled : Bytes) : Prop where
  length_eq : vsizes.length = ksizes.length
  zero_notMem : 0 ∉ ksizes
  keys_eq : keys.length = ksizes.sum
  slots_le : packed = false → vsizes.sum ≤ vals.length
  size_pos : 0 < 16 * ksizes.length + keys.length + vals.length
  size_le : 16 * ksizes.length + keys.length + vals.length ≤ pooled.length
  lt_max : pooled.length < 2 ^ 63

section Push

variable {c : Comparator} {mode : Mode} {packed : Bool} {s : MapDatabase c}
  {pre post keys vals pooled : Bytes} {ksizes vsizes : List ℕ}

/-- The call of the database that the handler makes. The room for the values holds what the buffer
did, and so do the sizes of packed values. -/
def backendGet (mode : Mode) (packed : Bool) (s : MapDatabase c) (ksizes vsizes : List ℕ)
    (keys vals pooled : Bytes) : GetResult (MapDatabase c) :=
  DatabaseInterface.get mode packed s keys ksizes
    (slice pooled (16 * ksizes.length + keys.length) vals.length)
    (pooledSizes packed pooled (8 * ksizes.length) vsizes)

/-- The client gets what the database has produced, inside of the region that it has exposed: the
sizes, and each value that has one, where the database has put it. -/
def DeliversValues (packed : Bool) (s : MapDatabase c) (pre post : Bytes) (ksizes vsizes : List ℕ)
    (keys vals : Bytes) (g : GetResult (MapDatabase c))
    (r : ReturnCode × Bytes × MapDatabase c) : Prop :=
  ∃ vals', vals'.length = vals.length ∧
    r = (.SUCCESS, getMemory pre post ksizes g.out.vsizes keys vals', g.db) ∧
      ∀ i k size, (unpack keys ksizes)[i]? = some k → g.out.vsizes[i]? = some size →
        size ≤ lastValidSize → ∃ v, s.find k = some v ∧ v.length = size ∧
          slice vals' (itemStart packed vsizes g.out.vsizes i) size = v

/-- A region is pulled to the front of a buffer. -/
theorem bulkTransfer_region (pre region post : Bytes) {pooled : Bytes}
    (h : region.length ≤ pooled.length) :
    bulkTransfer pooled 0 (pre ++ (region ++ post)) pre.length region.length =
      some (region ++ pooled.drop region.length) := by
  rw [bulkTransfer, if_pos ⟨by omega, by simp only [List.length_append]; omega⟩, slice_middle]
  simp [blit]

theorem GetCall.ksizes_lt (h : GetCall packed ksizes vsizes keys vals pooled) :
    ∀ size ∈ ksizes, size < 2 ^ 64 := fun size hsize => by
  have hsum := h.keys_eq
  have hle := h.size_le
  have hmax := h.lt_max
  have hone := List.single_le_sum (l := ksizes) (by simp) _ hsize
  omega

theorem GetCall.vsizes_lt (h : GetCall packed ksizes vsizes keys vals pooled)
    (hpacked : packed = false) : ∀ size ∈ vsizes, size < 2 ^ 64 := fun size hsize => by
  have hsum := h.slots_le hpacked
  have hle := h.size_le
  have hmax := h.lt_max
  have hone := List.single_le_sum (l := vsizes) (by simp) _ hsize
  omega

/-- What the handler pulls first: the sizes of the keys, and those of the slots. -/
theorem exists_pulledSizes (h : GetCall packed ksizes vsizes keys vals pooled) (pre post : Bytes) :
    ∃ rest : Bytes, (sizesMemory ksizes ++ rest).length = pooled.length ∧
      bulkTransfer pooled 0 (getMemory pre post ksizes vsizes keys vals) pre.length
          (if packed then 8 * ksizes.length else 8 * ksizes.length * 2) =
        some (sizesMemory ksizes ++ rest) ∧
      sizesOfMemory ksizes.length rest = pooledSizes packed pooled (8 * ksizes.length) vsizes ∧
      ∀ off n, 16 * ksizes.length ≤ off →
        slice (sizesMemory ksizes ++ rest) off n = slice pooled off n := by
  have hks : (sizesMemory ksizes).length = 8 * ksizes.length := length_sizesMemory ksizes
  have hvs : (sizesMemory vsizes).length = 8 * ksizes.length := by
    rw [length_sizesMemory, h.length_eq]
  have hle := h.size_le
  cases packed with
  | true =>
    have hpull := bulkTransfer_region pre (sizesMemory ksizes)
      (sizesMemory vsizes ++ (keys ++ (vals ++ post)))
      (show (sizesMemory ksizes).length ≤ pooled.length by omega)
    refine ⟨pooled.drop (sizesMemory ksizes).length, ?_, ?_, ?_, fun off n hoff => ?_⟩
    · rw [List.length_append, List.length_drop]
      omega
    · rw [if_pos rfl, ← hks]
      exact hpull
    · rw [pooledSizes, if_pos rfl, hks, h.length_eq]
    · exact slice_pulled (by omega) n
  | false =>
    have hpull := bulkTransfer_region pre (sizesMemory ksizes ++ sizesMemory vsizes)
      (keys ++ (vals ++ post))
      (show (sizesMemory ksizes ++ sizesMemory vsizes).length ≤ pooled.length by
        rw [List.length_append]
        omega)
    have hlen : (sizesMemory ksizes ++ sizesMemory vsizes).length = 8 * ksizes.length * 2 := by
      rw [List.length_append]
      omega
    refine ⟨sizesMemory vsizes ++ pooled.drop (8 * ksizes.length * 2), ?_, ?_, ?_,
      fun off n hoff => ?_⟩
    · rw [List.length_append, List.length_append, List.length_drop]
      omega
    · rw [hlen, List.append_assoc, List.append_assoc] at hpull
      rw [if_neg Bool.false_ne_true]
      exact hpull
    · rw [pooledSizes, if_neg Bool.false_ne_true, ← h.length_eq]
      exact sizesOfMemory_append (h.vsizes_lt rfl) _
    · rw [← List.append_assoc, ← hlen]
      exact slice_pulled (by omega) n

/-- The handler finds the sizes and the keys where they lie in the region, and answers with what the
database makes of them. The room for the values holds what the buffer did, and so do the sizes of
packed values. -/
theorem ykGetUlt_answers {σ : Type} [DatabaseInterface σ]
    (h : GetCall packed ksizes vsizes keys vals pooled)
    (hmode : DatabaseInterface.supportsMode σ mode = true) (s : σ) (pre post : Bytes) :
    let g := DatabaseInterface.get mode packed s keys ksizes
      (slice pooled (16 * ksizes.length + keys.length) vals.length)
      (pooledSizes packed pooled (8 * ksizes.length) vsizes)
    ∃ buffer : Bytes, buffer.length = pooled.length ∧
      ykGetUlt mode packed ksizes.length (getMemory pre post ksizes vsizes keys vals) pre.length
          (16 * ksizes.length + keys.length + vals.length) pooled s =
        answerItems (getMemory pre post ksizes vsizes keys vals) buffer pre.length
          (8 * ksizes.length) ksizes.length (16 * ksizes.length + keys.length)
          (if ksizes.length = 1 then g.out.vsizes.headD 0 else vals.length) g := by
  intro g
  obtain ⟨rest, hlen, hpull, hsizes, hkept⟩ := exists_pulledSizes h pre post
  have hks : (sizesMemory ksizes).length = 8 * ksizes.length := length_sizesMemory ksizes
  have hvs : (sizesMemory vsizes).length = 8 * ksizes.length := by
    rw [length_sizesMemory, h.length_eq]
  have hle := h.size_le
  have hmax := h.lt_max
  have hsum := h.keys_eq
  have hpos := h.size_pos
  have hkread : sizesOfMemory ksizes.length (sizesMemory ksizes ++ rest) = ksizes :=
    sizesOfMemory_append h.ksizes_lt _
  have hdrop : (sizesMemory ksizes ++ rest).drop (8 * ksizes.length) = rest := by
    rw [← hks, List.drop_left]
  have hkeysOffset : 8 * ksizes.length * 2 + keys.length = 16 * ksizes.length + keys.length := by
    omega
  have htotal : accumulate ksizes = keys.length := by
    rw [accumulate_eq (by omega), hsum]
  have hvalsOffset : addSize (8 * ksizes.length * 2) keys.length =
      16 * ksizes.length + keys.length := by
    rw [addSize_eq (by omega), hkeysOffset]
  have hroom : ¬ (packed = false ∧ 16 * ksizes.length + keys.length + vals.length <
      addSize (16 * ksizes.length + keys.length)
        (accumulate (pooledSizes packed pooled (8 * ksizes.length) vsizes))) := by
    rintro ⟨rfl, hlt⟩
    have hslots := h.slots_le rfl
    rw [pooledSizes, if_neg Bool.false_ne_true, accumulate_eq (by omega),
      addSize_eq (by omega)] at hlt
    omega
  -- the keys are pulled behind the sizes
  have hkeys : bulkTransfer (sizesMemory ksizes ++ rest) (8 * ksizes.length * 2)
      (getMemory pre post ksizes vsizes keys vals) (pre.length + 8 * ksizes.length * 2)
      keys.length = some (blit (sizesMemory ksizes ++ rest) (8 * ksizes.length * 2) keys) := by
    have hmiddle := slice_middle (pre ++ (sizesMemory ksizes ++ sizesMemory vsizes)) keys
      (vals ++ post)
    have hfront : (pre ++ (sizesMemory ksizes ++ sizesMemory vsizes)).length =
        pre.length + 8 * ksizes.length * 2 := by
      rw [List.length_append, List.length_append]
      omega
    rw [hfront, List.append_assoc, List.append_assoc] at hmiddle
    rw [bulkTransfer, if_pos, getMemory, hmiddle]
    refine ⟨by omega, ?_⟩
    simp only [getMemory, List.length_append]
    omega
  refine ⟨blit (sizesMemory ksizes ++ rest) (8 * ksizes.length * 2) keys,
    (length_blit (by omega)).trans hlen, ?_⟩
  have hkslice : slice (blit (sizesMemory ksizes ++ rest) (8 * ksizes.length * 2) keys)
      (8 * ksizes.length * 2) keys.length = keys := slice_blit_same (by omega)
  have hvslice : slice (blit (sizesMemory ksizes ++ rest) (8 * ksizes.length * 2) keys)
      (16 * ksizes.length + keys.length) vals.length =
        slice pooled (16 * ksizes.length + keys.length) vals.length := by
    rw [slice_blit_after (by omega) (by omega), hkept _ _ (by omega)]
  unfold ykGetUlt
  simp only [hmode, Bool.not_true, Bool.false_eq_true, if_false, if_neg hpos.ne', hpull, hkread,
    hdrop, hsizes, htotal, hvalsOffset, if_neg h.zero_notMem, if_neg hroom, hkeys,
    Nat.add_sub_cancel_left, hkslice, hvslice,
    if_neg (show ¬ 16 * ksizes.length + keys.length + vals.length <
      16 * ksizes.length + keys.length by omega)]
  rfl

/-- So it is for a map. -/
theorem ykGetUlt_eq (h : GetCall packed ksizes vsizes keys vals pooled)
    (hmode : DatabaseInterface.supportsMode (MapDatabase c) mode = true) (pre post : Bytes) :
    let g := backendGet mode packed s ksizes vsizes keys vals pooled
    ∃ buffer : Bytes, buffer.length = pooled.length ∧
      ykGetUlt mode packed ksizes.length (getMemory pre post ksizes vsizes keys vals) pre.length
          (16 * ksizes.length + keys.length + vals.length) pooled s =
        answerItems (getMemory pre post ksizes vsizes keys vals) buffer pre.length
          (8 * ksizes.length) ksizes.length (16 * ksizes.length + keys.length)
          (if ksizes.length = 1 then g.out.vsizes.headD 0 else vals.length) g :=
  ykGetUlt_answers h hmode s pre post

/-- A part of a buffer is pushed to the front of a region. -/
theorem bulkTransfer_push (pre region post : Bytes) {buffer part : Bytes} {off : ℕ}
    (hslice : slice buffer off part.length = part) (hin : off + part.length ≤ buffer.length)
    (hle : part.length ≤ region.length) :
    bulkTransfer (pre ++ (region ++ post)) pre.length buffer off part.length =
      some (pre ++ ((part ++ region.drop part.length) ++ post)) := by
  rw [bulkTransfer, if_pos ⟨by simp only [List.length_append]; omega, hin⟩, hslice, blit,
    List.take_left, List.append_assoc, List.append_assoc]
  congr 3
  rw [← List.drop_drop, List.drop_left, List.drop_append_of_le_length hle]

/-- The values as the client sees them when a part of them has been pushed. -/
def pushedValues (out : GetOutput) (xferSize : ℕ) (vals : Bytes) : Bytes :=
  if out.valsSize = 0 then vals else out.vals.take xferSize ++ vals.drop xferSize

theorem length_pushedValues {out : GetOutput} (hlen : out.vals.length = vals.length)
    {xferSize : ℕ} (hle : out.valsSize ≠ 0 → xferSize ≤ vals.length) :
    (pushedValues out xferSize vals).length = vals.length := by
  unfold pushedValues
  split_ifs with h
  · rfl
  · have := hle h
    rw [List.length_append, List.length_take, List.length_drop]
    omega

/-- A value that has been pushed is found where the database has put it. -/
theorem slice_pushedValues {out : GetOutput} (hlen : out.vals.length = vals.length)
    {xferSize start size : ℕ} (hle : out.valsSize ≠ 0 → xferSize ≤ vals.length)
    (hin : start + size ≤ out.valsSize) (hitem : out.valsSize ≠ 0 → start + size ≤ xferSize) :
    slice (pushedValues out xferSize vals) start size = slice out.vals start size := by
  unfold pushedValues
  split_ifs with hzero
  · obtain rfl : size = 0 := by omega
    rw [slice_zero, slice_zero]
  · have hpart : (out.vals.take xferSize).length = xferSize :=
      List.length_take_of_le (hlen ▸ hle hzero)
    have hpushed : start + size ≤ (out.vals.take xferSize).length := by
      rw [hpart]
      exact hitem hzero
    calc slice (out.vals.take xferSize ++ vals.drop xferSize) start size
        = slice (out.vals.take xferSize) start size := slice_append_left hpushed
      _ = slice (out.vals.take xferSize ++ out.vals.drop xferSize) start size :=
          (slice_append_left hpushed).symm
      _ = slice out.vals start size := by rw [List.take_append_drop]

/-- The answer to a `get` that succeeded, if the values that are pushed are in the region. -/
theorem answerItems_eq {σ : Type} (h : GetCall packed ksizes vsizes keys vals pooled)
    {buffer : Bytes} (hbuffer : buffer.length = pooled.length) {g : GetResult σ}
    (hOK : g.status = .OK) (hvals : g.out.vals.length = vals.length)
    (hvsizes : g.out.vsizes.length = ksizes.length) {xferSize : ℕ}
    (hxfer : g.out.valsSize ≠ 0 → xferSize ≤ vals.length) :
    answerItems (getMemory pre post ksizes vsizes keys vals) buffer pre.length (8 * ksizes.length)
        ksizes.length (16 * ksizes.length + keys.length) xferSize g =
      (.SUCCESS, getMemory pre post ksizes g.out.vsizes keys (pushedValues g.out xferSize vals),
        g.db) := by
  have hks : (sizesMemory ksizes).length = 8 * ksizes.length := length_sizesMemory ksizes
  have hvs : (sizesMemory vsizes).length = 8 * ksizes.length := by
    rw [length_sizesMemory, h.length_eq]
  have hws : (sizesMemory g.out.vsizes).length = 8 * ksizes.length := by
    rw [length_sizesMemory, hvsizes]
  have hle := h.size_le
  have hfirst : (blit buffer (8 * ksizes.length) (sizesMemory g.out.vsizes)).length =
      buffer.length := length_blit (by omega)
  have hsecond : (blit (blit buffer (8 * ksizes.length) (sizesMemory g.out.vsizes))
      (16 * ksizes.length + keys.length) g.out.vals).length = buffer.length := by
    rw [length_blit (by omega), hfirst]
  -- the sizes are before the values in the buffer, and stay there
  have hsizes : slice (blit (blit buffer (8 * ksizes.length) (sizesMemory g.out.vsizes))
      (16 * ksizes.length + keys.length) g.out.vals) (8 * ksizes.length)
        (sizesMemory g.out.vsizes).length = sizesMemory g.out.vsizes := by
    rw [slice_blit_before (by omega) (by omega), slice_blit_same (by omega)]
  have hpushSizes (vals' : Bytes) :
      bulkTransfer (getMemory pre post ksizes vsizes keys vals') (pre.length + 8 * ksizes.length)
        (blit (blit buffer (8 * ksizes.length) (sizesMemory g.out.vsizes))
          (16 * ksizes.length + keys.length) g.out.vals) (8 * ksizes.length) (8 * ksizes.length) =
        some (getMemory pre post ksizes g.out.vsizes keys vals') := by
    have hpush := bulkTransfer_push (pre ++ sizesMemory ksizes) (sizesMemory vsizes)
      (keys ++ (vals' ++ post)) hsizes (by omega) (by omega)
    rw [hws, List.length_append, hks, ← hvs, List.drop_length, List.append_nil, hvs,
      List.append_assoc, List.append_assoc] at hpush
    exact hpush
  unfold answerItems
  rw [if_pos hOK, pushItems]
  by_cases hzero : g.out.valsSize = 0
  · rw [if_neg (not_not.2 hzero), pushedValues, if_pos hzero]
    simp only [hpushSizes]
  · have hxfer := hxfer hzero
    have hpart : (g.out.vals.take xferSize).length = xferSize := by
      rw [List.length_take]
      omega
    have hslice : slice (blit (blit buffer (8 * ksizes.length) (sizesMemory g.out.vsizes))
        (16 * ksizes.length + keys.length) g.out.vals) (16 * ksizes.length + keys.length)
          (g.out.vals.take xferSize).length = g.out.vals.take xferSize :=
      slice_blit_prefix (by omega) (List.take_prefix _ _)
    have hpush := bulkTransfer_push (pre ++ (sizesMemory ksizes ++ (sizesMemory vsizes ++ keys)))
      vals post hslice (by omega) (by omega)
    have hfront : (pre ++ (sizesMemory ksizes ++ (sizesMemory vsizes ++ keys))).length =
        pre.length + (16 * ksizes.length + keys.length) := by
      simp only [List.length_append]
      omega
    rw [hpart, hfront] at hpush
    simp only [List.append_assoc] at hpush
    have hmemory : getMemory pre post ksizes vsizes keys vals =
        pre ++ (sizesMemory ksizes ++ (sizesMemory vsizes ++ (keys ++ (vals ++ post)))) := rfl
    rw [if_pos hzero, pushedValues, if_neg hzero, hmemory, hpush]
    have hsecond := hpushSizes (g.out.vals.take xferSize ++ vals.drop xferSize)
    simp only [getMemory, List.append_assoc] at hsecond ⊢
    rw [hsecond]

/-- The answer if they are not. -/
theorem answerItems_fails {σ : Type} (h : GetCall packed ksizes vsizes keys vals pooled)
    {buffer : Bytes} (hbuffer : buffer.length = pooled.length) {g : GetResult σ}
    (hOK : g.status = .OK) (hvals : g.out.vals.length = vals.length)
    (hvsizes : g.out.vsizes.length = ksizes.length) {xferSize : ℕ}
    (hsize : g.out.valsSize ≠ 0) (hxfer : pooled.length < xferSize) (bulk : Bytes) (offset : ℕ) :
    (answerItems bulk buffer offset (8 * ksizes.length) ksizes.length
      (16 * ksizes.length + keys.length) xferSize g).1 = .ERR_FROM_MERCURY := by
  have hws : (sizesMemory g.out.vsizes).length = 8 * ksizes.length := by
    rw [length_sizesMemory, hvsizes]
  have hle := h.size_le
  have hfirst : (blit buffer (8 * ksizes.length) (sizesMemory g.out.vsizes)).length =
      buffer.length := length_blit (by omega)
  have hsecond : (blit (blit buffer (8 * ksizes.length) (sizesMemory g.out.vsizes))
      (16 * ksizes.length + keys.length) g.out.vals).length = buffer.length := by
    rw [length_blit (by omega), hfirst]
  unfold answerItems
  rw [if_pos hOK, pushItems, if_pos hsize, bulkTransfer, if_neg (by omega)]

/-- A single key that is not packed, with some room for its value, has a value that fits its slot.
-/
def SingleFits (packed : Bool) (s : MapDatabase c) (ksizes vsizes : List ℕ) (keys vals : Bytes) :
    Prop :=
  packed = false → ksizes.length = 1 → vals ≠ [] →
    ∃ v, s.find keys = some v ∧ v.length ≤ vsizes.sum

theorem itemStart_pooledSizes (packed : Bool) (pooled : Bytes) (off : ℕ) (vsizes sizes : List ℕ)
    (i : ℕ) : itemStart packed (pooledSizes packed pooled off vsizes) sizes i =
      itemStart packed vsizes sizes i := by
  cases packed <;> rfl

/-- The database has read the values for the handler. -/
theorem backendGet_read (h : GetCall packed ksizes vsizes keys vals pooled)
    (hOK : (backendGet mode packed s ksizes vsizes keys vals pooled).status = .OK) :
    ValuesRead s.find packed (unpack keys ksizes)
      (pooledSizes packed pooled (8 * ksizes.length) vsizes) vals.length
      (backendGet mode packed s ksizes vsizes keys vals pooled).out := by
  have hle := h.size_le
  have hmax := h.lt_max
  have hsum := h.keys_eq
  have hlast : 2 ^ 63 ≤ lastValidSize := by decide
  have hlength : (slice pooled (16 * ksizes.length + keys.length) vals.length).length =
      vals.length := length_slice_of_le (by omega)
  have hread : ValuesRead s.find packed (unpack keys ksizes) _ _
      (backendGet mode packed s ksizes vsizes keys vals pooled).out :=
    valuesRead_of_OK ⟨by omega, by omega⟩ (by omega) (by rw [length_pooledSizes, h.length_eq])
      (fun hpacked => by
        rw [hlength, hpacked]
        exact h.slots_le hpacked) hOK
  rwa [hlength] at hread

/-- One size is reported for one key. -/
theorem exists_single {out : GetOutput} {find : Bytes → Option Bytes} {slots : List ℕ} {n : ℕ}
    (hread : ValuesRead find packed (unpack keys ksizes) slots n out) (hone : ksizes.length = 1)
    (hkeys : keys.length = ksizes.sum) :
    unpack keys ksizes = [keys] ∧ ∃ size, out.vsizes = [size] := by
  obtain ⟨ksize, rfl⟩ := List.length_eq_one_iff.1 hone
  rw [List.sum_singleton] at hkeys
  have hunpack : unpack keys [ksize] = [keys] := by
    rw [unpack_cons, ← hkeys, List.take_length, unpack_nil]
  refine ⟨hunpack, List.length_eq_one_iff.1 ?_⟩
  rw [hread.length_vsizes, hunpack, List.length_singleton]

/-- The size reported for one key that has a slot. -/
theorem single_slot {out : GetOutput} {find : Bytes → Option Bytes} {n : ℕ}
    (hread : ValuesRead find false (unpack keys ksizes) vsizes n out) (hone : ksizes.length = 1)
    (hkeys : keys.length = ksizes.sum) (hlen : vsizes.length = ksizes.length) :
    out.vsizes = [slotSize vsizes.sum (find keys)] := by
  obtain ⟨hunpack, -⟩ := exists_single hread hone hkeys
  obtain ⟨slot, rfl⟩ := List.length_eq_one_iff.1 (hlen.trans hone)
  rw [hread.vsizes_slots rfl, hunpack, List.sum_singleton]
  rfl

/-- The size of the first transfer. -/
def xferSize (ksizes : List ℕ) (n : ℕ) (out : GetOutput) : ℕ :=
  if ksizes.length = 1 then out.vsizes.headD 0 else n

/-- It stays in the room for the values, and covers the value of a single key, if that value fits.
-/
theorem xferSize_le {g : GetResult (MapDatabase c)}
    (h : GetCall packed ksizes vsizes keys vals pooled)
    (hread : ValuesRead s.find packed (unpack keys ksizes)
      (pooledSizes packed pooled (8 * ksizes.length) vsizes) vals.length g.out)
    (hfits : SingleFits packed s ksizes vsizes keys vals) (hpush : g.out.valsSize ≠ 0) :
    xferSize ksizes vals.length g.out ≤ vals.length ∧
      (ksizes.length = 1 → ∀ size ∈ g.out.vsizes, size ≤ xferSize ksizes vals.length g.out) := by
  by_cases hone : ksizes.length = 1
  · obtain ⟨hunpack, size, hsize⟩ := exists_single hread hone h.keys_eq
    have hproper : size ≤ lastValidSize := by
      have hvalsSize := hread.valsSize_eq
      cases packed with
      | true =>
        rw [if_pos rfl, hsize, strides_cons, List.sum_cons] at hvalsSize
        by_contra hlarge
        rw [if_neg hlarge] at hvalsSize
        exact hpush hvalsSize
      | false =>
        rw [if_neg Bool.false_ne_true] at hvalsSize
        have hvals : vals ≠ [] := fun h => hpush (by rw [hvalsSize, h, List.length_nil])
        obtain ⟨v, hv, hroom⟩ := hfits rfl hone hvals
        have hslot : g.out.vsizes = [slotSize vsizes.sum (s.find keys)] :=
          single_slot hread hone h.keys_eq h.length_eq
        rw [hv, slotSize, if_neg (Nat.not_lt.2 hroom), hsize, List.singleton_inj] at hslot
        have hslots := h.slots_le rfl
        have hle := h.size_le
        have hmax := h.lt_max
        have hlast : 2 ^ 63 ≤ lastValidSize := by decide
        omega
    have hfound := hread.found 0 keys size (by rw [hunpack]; rfl) (by rw [hsize]; rfl) hproper
    have hle := hread.valsSize_le
    rw [xferSize, if_pos hone, hsize, List.headD_cons]
    exact ⟨by omega, fun _ => by simp⟩
  · rw [xferSize, if_neg hone]
    exact ⟨le_rfl, fun h => absurd h hone⟩

/-- It is larger than any memory if the value does not fit. -/
theorem xferSize_gt {g : GetResult (MapDatabase c)}
    (h : GetCall packed ksizes vsizes keys vals pooled)
    (hread : ValuesRead s.find packed (unpack keys ksizes)
      (pooledSizes packed pooled (8 * ksizes.length) vsizes) vals.length g.out)
    (hfits : ¬ SingleFits packed s ksizes vsizes keys vals) :
    g.out.valsSize ≠ 0 ∧ pooled.length < xferSize ksizes vals.length g.out := by
  have hmax := h.lt_max
  have hsmall : 2 ^ 63 ≤ sizeTooSmall := by decide
  have hmissing : 2 ^ 63 ≤ keyNotFound := by decide
  simp only [SingleFits, Classical.not_imp, not_exists, not_and, Nat.not_le] at hfits
  obtain ⟨rfl, hone, hvals, hfits⟩ := hfits
  have hvalsSize := hread.valsSize_eq
  rw [if_neg Bool.false_ne_true] at hvalsSize
  refine ⟨fun hzero => hvals (List.length_eq_zero_iff.1 (hvalsSize.symm.trans hzero)), ?_⟩
  have hslot : g.out.vsizes = [slotSize vsizes.sum (s.find keys)] :=
    single_slot hread hone h.keys_eq h.length_eq
  rw [xferSize, if_pos hone, hslot, List.headD_cons]
  cases hv : s.find keys with
  | none =>
    rw [slotSize]
    omega
  | some v =>
    rw [slotSize, if_pos (hfits v hv)]
    omega

/-- The handler delivers what the database has produced exactly if a single key that is not packed,
with some room for its value, has a value that fits. -/
theorem ykGetUlt_delivers_iff (h : GetCall packed ksizes vsizes keys vals pooled)
    (hmode : DatabaseInterface.supportsMode (MapDatabase c) mode = true)
    (hOK : (backendGet mode packed s ksizes vsizes keys vals pooled).status = .OK)
    (pre post : Bytes) :
    DeliversValues packed s pre post ksizes vsizes keys vals
        (backendGet mode packed s ksizes vsizes keys vals pooled)
        (ykGetUlt mode packed ksizes.length (getMemory pre post ksizes vsizes keys vals) pre.length
          (16 * ksizes.length + keys.length + vals.length) pooled s) ↔
      SingleFits packed s ksizes vsizes keys vals := by
  obtain ⟨buffer, hbuffer, heq⟩ := ykGetUlt_eq (s := s) h hmode pre post
  have hread := backendGet_read h hOK
  have hlength := hread.length_vals
  have hcount : (backendGet mode packed s ksizes vsizes keys vals pooled).out.vsizes.length =
      ksizes.length := by
    rw [hread.length_vsizes, length_unpack]
  rw [heq]
  generalize backendGet mode packed s ksizes vsizes keys vals pooled = g at *
  change DeliversValues packed s pre post ksizes vsizes keys vals g (answerItems _ buffer pre.length
    (8 * ksizes.length) ksizes.length (16 * ksizes.length + keys.length)
      (xferSize ksizes vals.length g.out) g) ↔ _
  by_cases hfits : SingleFits packed s ksizes vsizes keys vals
  · have hxfer := xferSize_le h hread hfits
    refine iff_of_true ?_ hfits
    rw [answerItems_eq h hbuffer hOK hlength hcount fun hpush => (hxfer hpush).1]
    refine ⟨_, length_pushedValues hlength fun hpush => (hxfer hpush).1, rfl,
      fun i k size hk hsize hproper => ?_⟩
    obtain ⟨hin, v, hv, hvlen, hslice⟩ := hread.found i k size hk hsize hproper
    rw [itemStart_pooledSizes] at hin hslice
    have hitem (hpush : g.out.valsSize ≠ 0) : itemStart packed vsizes g.out.vsizes i + size ≤
        xferSize ksizes vals.length g.out := by
      by_cases hone : ksizes.length = 1
      · obtain ⟨hunpack, -⟩ := exists_single hread hone h.keys_eq
        rw [hunpack, List.getElem?_singleton] at hk
        obtain rfl : i = 0 := by
          by_contra hi
          rw [if_neg hi] at hk
          cases hk
        have hcovered := (hxfer hpush).2 hone size (List.mem_of_getElem? hsize)
        simpa [itemStart] using hcovered
      · have hle := hread.valsSize_le
        rw [xferSize, if_neg hone]
        omega
    exact ⟨v, hv, hvlen, (slice_pushedValues hlength (fun hpush => (hxfer hpush).1) hin
      hitem).trans hslice⟩
  · obtain ⟨hpush, hxfer⟩ := xferSize_gt h hread hfits
    refine iff_of_false (fun hdelivers => ?_) hfits
    obtain ⟨vals', -, hanswer, -⟩ := hdelivers
    have hfails := answerItems_fails h hbuffer hOK hlength hcount hpush hxfer
      (getMemory pre post ksizes vsizes keys vals) pre.length
    rw [hanswer] at hfails
    cases hfails

end Push

/-- A value of one byte is asked for, and a buffer is used that was another client's. -/
theorem getCall_one (key : UInt8) :
    GetCall false [1] [1] [key] [0] (List.replicate 18 7) := by
  constructor <;> simp

/-- The value is there. -/
theorem ykGetUlt_delivers_one :
    DeliversValues false oneKey [] [] [1] [1] [1] [0]
      (backendGet .default false oneKey [1] [1] [1] [0] (List.replicate 18 7))
      (ykGetUlt .default false 1 (getMemory [] [] [1] [1] [1] [0]) 0 18 (List.replicate 18 7)
        oneKey) :=
  (ykGetUlt_delivers_iff (getCall_one 1) (by decide) (by decide) [] []).2
    fun _ _ _ => ⟨[10], by decide, by decide⟩

/-- The value is missing: `YOKAN_KEY_NOT_FOUND` is taken for the size of a transfer. -/
theorem ykGetUlt_fails :
    ¬ ∀ (c : Comparator) (mode : Mode) (packed : Bool) (s : MapDatabase c) (ksizes vsizes : List ℕ)
      (pre post keys vals pooled : Bytes), GetCall packed ksizes vsizes keys vals pooled →
        DatabaseInterface.supportsMode (MapDatabase c) mode = true →
          (backendGet mode packed s ksizes vsizes keys vals pooled).status = .OK →
            DeliversValues packed s pre post ksizes vsizes keys vals
              (backendGet mode packed s ksizes vsizes keys vals pooled)
              (ykGetUlt mode packed ksizes.length (getMemory pre post ksizes vsizes keys vals)
                pre.length (16 * ksizes.length + keys.length + vals.length) pooled s) := by
  intro h
  obtain ⟨vals', -, hanswer, -⟩ := h .default .default false oneKey [1] [1] [] [] [2] [0]
    (List.replicate 18 7) (getCall_one 2) (by decide) (by decide)
  have hcode : (ykGetUlt .default false 1 (getMemory [] [] [1] [1] [2] [0]) 0 18
      (List.replicate 18 7) oneKey).1 = .SUCCESS := congrArg Prod.fst hanswer
  exact absurd hcode (by decide)

end Yokan
