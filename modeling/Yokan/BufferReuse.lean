import Yokan.Handlers

/-!
# Yokan: replies from a used buffer

The handlers that push a part of the pooled buffer back to the client: `get`, `list_keyvals`,
`doc_load` and `doc_list`. Only the front of the buffer is pulled and only a part of it is written
by the database; what lies between the items is what the last user of the buffer left there, and it
is pushed with the rest.

* `AnsweredAlike`: two executions that differ in the buffer answer the same, and the memories of the
  client agree on what it is told there;
* `buffer_reuse`: the four handlers.
-/

namespace Yokan

open Buffer

/-! ### Two executions -/

/-- The client is told what is at position `p` of its memory: it lies outside the region of the
items, or belongs to an item that the sizes announce. -/
def Told (announced : List ℕ → ℕ → Prop) (count sizesOffset start length : ℕ) (memory : Bytes)
    (p : ℕ) : Prop :=
  start ≤ p → p < start + length → announced (sizesOfMemory count (memory.drop sizesOffset)) (p - start)

/-- Two answers: the same code, the same database, and memories that agree on what the client is
told. -/
structure AnsweredAlike {σ : Type} (told : Bytes → ℕ → Prop) (r r' : ReturnCode × Bytes × σ) :
    Prop where
  code_eq : r.1 = r'.1
  db_eq : r.2.2 = r'.2.2
  agree : ∀ p, told r.2.1 p → r.2.1[p]? = r'.2.1[p]?

theorem AnsweredAlike.refl {σ : Type} (told : Bytes → ℕ → Prop) (r : ReturnCode × Bytes × σ) :
    AnsweredAlike told r r :=
  ⟨rfl, rfl, fun _ _ => rfl⟩

/-- Two transfers between regions of the same lengths both fail, or both copy. -/
theorem bulkTransfer_pair {dst dst' src src' : Bytes} (hdst : dst'.length = dst.length)
    (hsrc : src'.length = src.length) (dstOffset srcOffset size : ℕ) :
    bulkTransfer dst dstOffset src srcOffset size = none ∧
        bulkTransfer dst' dstOffset src' srcOffset size = none ∨
      (dstOffset + size ≤ dst.length ∧ srcOffset + size ≤ src.length) ∧
        bulkTransfer dst dstOffset src srcOffset size =
          some (blit dst dstOffset (slice src srcOffset size)) ∧
        bulkTransfer dst' dstOffset src' srcOffset size =
          some (blit dst' dstOffset (slice src' srcOffset size)) := by
  unfold bulkTransfer
  rw [hdst, hsrc]
  split_ifs with h
  · exact Or.inr ⟨h, rfl, rfl⟩
  · exact Or.inl ⟨rfl, rfl⟩

theorem getElem?_slice (l : Bytes) (off : ℕ) {n i : ℕ} (h : i < n) :
    (slice l off n)[i]? = l[off + i]? := by
  rw [slice, List.getElem?_take_of_lt h, List.getElem?_drop]

/-- The same region is pulled to the front of two buffers. -/
theorem pulled_pair {pooled pooled' : Bytes} (hlen : pooled'.length = pooled.length) (bulk : Bytes)
    (offset n : ℕ) :
    bulkTransfer pooled 0 bulk offset n = none ∧ bulkTransfer pooled' 0 bulk offset n = none ∨
      ∃ B B' : Bytes, bulkTransfer pooled 0 bulk offset n = some B ∧
        bulkTransfer pooled' 0 bulk offset n = some B' ∧ B.length = pooled.length ∧
        B'.length = pooled.length ∧
        ∀ i < n, B[i]? = bulk[offset + i]? ∧ B'[i]? = bulk[offset + i]? := by
  rcases bulkTransfer_pair hlen (rfl : bulk.length = bulk.length) 0 offset n with
    hnone | ⟨⟨hd, hs⟩, hpull, hpull'⟩
  · exact Or.inl hnone
  have hsrc : (slice bulk offset n).length = n := length_slice_of_le hs
  have hread : ∀ b : Bytes, b.length = pooled.length → (blit b 0 (slice bulk offset n)).length =
      pooled.length ∧ ∀ i < n, (blit b 0 (slice bulk offset n))[i]? = bulk[offset + i]? := by
    intro b hb
    refine ⟨by rw [length_blit (by omega), hb], fun i hi => ?_⟩
    rw [getElem?_blit (by omega), hsrc, if_pos ⟨Nat.zero_le _, by omega⟩, Nat.sub_zero,
      getElem?_slice _ _ hi]
  obtain ⟨hB, hfront⟩ := hread pooled rfl
  obtain ⟨hB', hfront'⟩ := hread pooled' hlen
  exact Or.inr ⟨_, _, hpull, hpull', hB, hB', fun i hi => ⟨hfront i hi, hfront' i hi⟩⟩

/-- Nothing is pulled where there is nothing to pull. -/
theorem pulled_pair_of_pos {pooled pooled' : Bytes} (hlen : pooled'.length = pooled.length)
    (bulk : Bytes) (offset n : ℕ) :
    (if 0 < n then bulkTransfer pooled 0 bulk offset n else some pooled) = none ∧
        (if 0 < n then bulkTransfer pooled' 0 bulk offset n else some pooled') = none ∨
      ∃ B B' : Bytes,
        (if 0 < n then bulkTransfer pooled 0 bulk offset n else some pooled) = some B ∧
        (if 0 < n then bulkTransfer pooled' 0 bulk offset n else some pooled') = some B' ∧
        B.length = pooled.length ∧ B'.length = pooled.length ∧
        ∀ i < n, B[i]? = bulk[offset + i]? ∧ B'[i]? = bulk[offset + i]? := by
  by_cases hpos : 0 < n
  · rw [if_pos hpos, if_pos hpos]
    exact pulled_pair hlen bulk offset n
  · rw [if_neg hpos, if_neg hpos]
    exact Or.inr ⟨pooled, pooled', rfl, rfl, rfl, hlen, fun i hi => absurd hi (by omega)⟩

/-- An array of sizes only depends on its own memory. -/
theorem sizesOfMemory_congr {count : ℕ} {m m' : Bytes}
    (h : ∀ i < 8 * count, m[i]? = m'[i]?) : sizesOfMemory count m = sizesOfMemory count m' := by
  refine List.ext_getElem? fun i => ?_
  rw [sizesOfMemory, sizesOfMemory, List.getElem?_map, List.getElem?_map]
  rcases Nat.lt_or_ge i count with hi | hi
  · rw [getElem?_unpack_replicate _ _ hi, getElem?_unpack_replicate _ _ hi]
    have hword : slice m (8 * i) 8 = slice m' (8 * i) 8 := by
      refine List.ext_getElem? fun j => ?_
      rw [slice, slice]
      rcases Nat.lt_or_ge j 8 with hj | hj
      · rw [List.getElem?_take_of_lt hj, List.getElem?_take_of_lt hj, List.getElem?_drop,
          List.getElem?_drop, h _ (by omega)]
      · rw [List.getElem?_take_eq_none hj, List.getElem?_take_eq_none hj]
    rw [hword]
  · rw [List.getElem?_eq_none (by simpa using hi), List.getElem?_eq_none (by simpa using hi)]

/-- An array of sizes is found where it has been written. -/
theorem sizesOfMemory_of_written {sizes : List ℕ} {m : Bytes} (hlt : ∀ size ∈ sizes, size < 2 ^ 64)
    (h : ∀ i < 8 * sizes.length, m[i]? = (sizesMemory sizes)[i]?) :
    sizesOfMemory sizes.length m = sizes := by
  rw [sizesOfMemory_congr h]
  have hread := sizesOfMemory_append hlt []
  rwa [List.append_nil] at hread

/-- What a push of items and of their sizes writes, if it can be done. -/
theorem pushItems_eq {buffer items : Bytes} {sizes : List ℕ} {sizesOffset count itemsOffset : ℕ}
    (hsizes : sizes.length = count) (hdisjoint : sizesOffset + 8 * count ≤ itemsOffset)
    (hin : itemsOffset + items.length ≤ buffer.length) {xferSize : ℕ}
    {bulk : Bytes} (hxfer : xferSize ≤ items.length ∨ bulk.length < xferSize)
    (offset itemsSize : ℕ) :
    let pushed := blit bulk (offset + itemsOffset)
      (if itemsSize ≠ 0 then items.take xferSize else [])
    pushItems bulk (blit (blit buffer sizesOffset (sizesMemory sizes)) itemsOffset items) offset
        sizesOffset count itemsOffset itemsSize xferSize =
      if itemsSize ≠ 0 ∧ bulk.length < offset + itemsOffset + xferSize then
        (.ERR_FROM_MERCURY, bulk)
      else if bulk.length < offset + sizesOffset + 8 * count then (.ERR_FROM_MERCURY, pushed)
      else (.SUCCESS, blit pushed (offset + sizesOffset) (sizesMemory sizes)) := by
  intro pushed
  have hmemory : (sizesMemory sizes).length = 8 * count := by rw [length_sizesMemory, hsizes]
  have hinner : (blit buffer sizesOffset (sizesMemory sizes)).length = buffer.length :=
    length_blit (by omega)
  have hlen : (blit (blit buffer sizesOffset (sizesMemory sizes)) itemsOffset items).length =
      buffer.length := by rw [length_blit (by omega), hinner]
  have hread : slice (blit (blit buffer sizesOffset (sizesMemory sizes)) itemsOffset items)
      sizesOffset (8 * count) = sizesMemory sizes := by
    rw [slice_blit_before (by omega) (by omega), ← hmemory, slice_blit_same (by omega)]
  have hitems : xferSize ≤ items.length →
      slice (blit (blit buffer sizesOffset (sizesMemory sizes)) itemsOffset items) itemsOffset
        xferSize = items.take xferSize := by
    intro hle
    have hsame := @slice_blit_same _ (blit buffer sizesOffset (sizesMemory sizes)) items itemsOffset
      (by omega)
    calc _ = (slice (blit (blit buffer sizesOffset (sizesMemory sizes)) itemsOffset items)
          itemsOffset items.length).take xferSize := by
            rw [slice, slice, List.take_take, Nat.min_eq_left hle]
      _ = items.take xferSize := by rw [hsame]
  -- the sizes go from the sizes of the buffer, which the items do not overlap
  have htransfer : ∀ m : Bytes, m.length = bulk.length →
      bulkTransfer m (offset + sizesOffset) (blit (blit buffer sizesOffset (sizesMemory sizes))
        itemsOffset items) sizesOffset (8 * count) =
      if bulk.length < offset + sizesOffset + 8 * count then none
      else some (blit m (offset + sizesOffset) (sizesMemory sizes)) := by
    intro m hm
    unfold bulkTransfer
    rw [hlen, hread, hm]
    split_ifs <;> first | rfl | omega
  unfold pushItems
  -- the first transfer is left out when there is no room announced for items
  by_cases hsome : itemsSize ≠ 0
  · rw [if_pos hsome]
    have hpushed : pushed = blit bulk (offset + itemsOffset) (items.take xferSize) := by
      rw [← if_pos hsome (t := items.take xferSize)]
    by_cases hroom : bulk.length < offset + itemsOffset + xferSize
    · rw [if_pos ⟨hsome, hroom⟩, bulkTransfer, if_neg (by omega)]
    · have hle : xferSize ≤ items.length := by omega
      rw [if_neg (fun h => hroom h.2), bulkTransfer, if_pos (by omega), hitems hle]
      have htake : (items.take xferSize).length = xferSize := List.length_take_of_le hle
      have hm : (blit bulk (offset + itemsOffset) (items.take xferSize)).length = bulk.length :=
        length_blit (by omega)
      simp only [htransfer _ hm, hpushed]
      split_ifs <;> rfl
  · have hpushed : pushed = bulk := by
      show blit bulk _ (if itemsSize ≠ 0 then _ else []) = bulk
      rw [if_neg hsome, blit_nil]
    rw [if_neg hsome, if_neg (fun h => hsome h.1)]
    simp only [htransfer _ rfl, hpushed]
    split_ifs <;> rfl

/-- Items that two databases have filled alike are pushed to the client alike. -/
theorem pushItems_alike {announced : List ℕ → ℕ → Prop} {n count : ℕ} {a b : ColumnOutput}
    (h : SameFill announced n count a b) {bulk buffer buffer' : Bytes}
    {sizesOffset itemsOffset xferSize : ℕ} (hlen : buffer'.length = buffer.length)
    (hdisjoint : sizesOffset + 8 * count ≤ itemsOffset) (hin : itemsOffset + n ≤ buffer.length)
    (hxfer : xferSize ≤ n ∨ bulk.length < xferSize) (offset : ℕ) :
    let r := pushItems bulk (blit (blit buffer sizesOffset (sizesMemory a.sizes)) itemsOffset a.buf)
      offset sizesOffset count itemsOffset a.size xferSize
    let r' := pushItems bulk
      (blit (blit buffer' sizesOffset (sizesMemory b.sizes)) itemsOffset b.buf)
      offset sizesOffset count itemsOffset b.size xferSize
    r.1 = r'.1 ∧
      ∀ p, Told announced count (offset + sizesOffset) (offset + itemsOffset) n r.2 p →
        r.2[p]? = r'.2[p]? := by
  have ha := h.length_left
  have hb := h.length_right
  have hcount := h.length_sizes
  have hmemory : (sizesMemory a.sizes).length = 8 * count := by rw [length_sizesMemory, hcount]
  have hleft := pushItems_eq hcount hdisjoint (show itemsOffset + a.buf.length ≤ buffer.length by omega)
    (ha.symm ▸ hxfer) offset a.size
  have hright := pushItems_eq hcount hdisjoint
    (show itemsOffset + b.buf.length ≤ buffer'.length by omega) (hb.symm ▸ hxfer) offset a.size
  dsimp only at hleft hright ⊢
  rw [← h.size_eq, ← h.sizes_eq, hleft, hright]
  by_cases hroom : a.size ≠ 0 ∧ bulk.length < offset + itemsOffset + xferSize
  · rw [if_pos hroom, if_pos hroom]
    exact ⟨rfl, fun _ _ => rfl⟩
  rw [if_neg hroom, if_neg hroom]
  by_cases hsizes : bulk.length < offset + sizesOffset + 8 * count
  · rw [if_pos hsizes, if_pos hsizes]
    have hzero : ¬ a.size ≠ 0 := fun hne => hroom ⟨hne, by omega⟩
    rw [if_neg hzero, if_neg hzero]
    exact ⟨rfl, fun _ _ => rfl⟩
  rw [if_neg hsizes, if_neg hsizes]
  refine ⟨rfl, fun p hp => ?_⟩
  dsimp only at hp ⊢
  by_cases hsome : a.size ≠ 0
  · rw [if_pos hsome] at hp
    rw [if_pos hsome, if_pos hsome]
    have hle : xferSize ≤ n := by omega
    have hX : (a.buf.take xferSize).length = xferSize := List.length_take_of_le (by omega)
    have hY : (b.buf.take xferSize).length = xferSize := List.length_take_of_le (by omega)
    have hbulkX : (blit bulk (offset + itemsOffset) (a.buf.take xferSize)).length = bulk.length :=
      length_blit (by omega)
    have hbulkY : (blit bulk (offset + itemsOffset) (b.buf.take xferSize)).length = bulk.length :=
      length_blit (by omega)
    -- the client finds the sizes
    have hread : sizesOfMemory count ((blit (blit bulk (offset + itemsOffset) (a.buf.take xferSize))
        (offset + sizesOffset) (sizesMemory a.sizes)).drop (offset + sizesOffset)) = a.sizes := by
      rw [← hcount]
      refine sizesOfMemory_of_written h.sizes_lt fun i hi => ?_
      rw [List.getElem?_drop, getElem?_blit (by omega), if_pos (by omega), Nat.add_sub_cancel_left]
    have hsizesX : offset + sizesOffset + (sizesMemory a.sizes).length ≤
        (blit bulk (offset + itemsOffset) (a.buf.take xferSize)).length := by omega
    have hsizesY : offset + sizesOffset + (sizesMemory a.sizes).length ≤
        (blit bulk (offset + itemsOffset) (b.buf.take xferSize)).length := by omega
    rw [getElem?_blit hsizesX, getElem?_blit hsizesY]
    by_cases hin : offset + sizesOffset ≤ p ∧
        p < offset + sizesOffset + (sizesMemory a.sizes).length
    · rw [if_pos hin, if_pos hin]
    · have hitemsX : offset + itemsOffset + (a.buf.take xferSize).length ≤ bulk.length := by omega
      have hitemsY : offset + itemsOffset + (b.buf.take xferSize).length ≤ bulk.length := by omega
      rw [if_neg hin, if_neg hin, getElem?_blit hitemsX, getElem?_blit hitemsY, hX, hY]
      by_cases hitem : offset + itemsOffset ≤ p ∧ p < offset + itemsOffset + xferSize
      · rw [if_pos hitem, if_pos hitem, List.getElem?_take_of_lt (by omega),
          List.getElem?_take_of_lt (by omega)]
        have hannounced := hp hitem.1 (by omega)
        rw [hread] at hannounced
        exact (h.agree _ hannounced).eq
      · rw [if_neg hitem, if_neg hitem]
  · rw [if_neg hsome, if_neg hsome]

/-- Two calls that have filled their slices alike are answered alike. -/
theorem answerItems_alike {σ : Type} {announced : List ℕ → ℕ → Prop} {n count : ℕ}
    {r r' : GetResult σ} (h : SameGet announced n count r r') {bulk buffer buffer' : Bytes}
    {sizesOffset itemsOffset xferSize xferSize' : ℕ} (hlen : buffer'.length = buffer.length)
    (hdisjoint : sizesOffset + 8 * count ≤ itemsOffset) (hin : itemsOffset + n ≤ buffer.length)
    (hxfer : SameFill announced n count r.out.column r'.out.column →
      xferSize' = xferSize ∧ (xferSize ≤ n ∨ bulk.length < xferSize)) (offset : ℕ) :
    AnsweredAlike (Told announced count (offset + sizesOffset) (offset + itemsOffset) n)
      (answerItems bulk buffer offset sizesOffset count itemsOffset xferSize r)
      (answerItems bulk buffer' offset sizesOffset count itemsOffset xferSize' r') := by
  obtain ⟨hstatus, hdb, hout⟩ := h
  unfold answerItems
  by_cases hOK : r.status = .OK
  · have hfill := hout hOK
    obtain ⟨rfl, hsize⟩ := hxfer hfill
    obtain ⟨hcode, hagree⟩ := pushItems_alike hfill hlen hdisjoint hin hsize offset
    rw [if_pos hOK, if_pos (hstatus.symm.trans hOK)]
    exact ⟨hcode, hdb, hagree⟩
  · rw [if_neg hOK, if_neg (mt hstatus.trans hOK), hstatus, hdb]
    exact .refl _ _

theorem Option.Rel.map_map {α β γ δ : Type} {R : α → β → Prop} {S : γ → δ → Prop} {x : Option α}
    {y : Option β} (h : Option.Rel R x y) {f : α → γ} {g : β → δ} (hfg : ∀ a b, R a b → S (f a) (g b)) :
    Option.Rel S (x.map f) (y.map g) := by
  cases h with
  | some h => exact .some (hfg _ _ h)
  | none => exact .none

/-- A region that has been written is pushed to the client. -/
theorem push_blit {C R : Bytes} {o : ℕ} (hin : o + R.length ≤ C.length) (bulk : Bytes)
    (offset : ℕ) :
    bulkTransfer bulk (offset + o) (blit C o R) o R.length =
      if offset + o + R.length ≤ bulk.length then some (blit bulk (offset + o) R) else none := by
  unfold bulkTransfer
  rw [length_blit hin, slice_blit_same (by omega)]
  by_cases h : offset + o + R.length ≤ bulk.length
  · rw [if_pos ⟨h, hin⟩, if_pos h]
  · rw [if_neg fun hboth => h hboth.1, if_neg h]

/-- Two regions that agree behind a position's start are pushed alike. -/
theorem getElem?_blit_congr {bulk R R' : Bytes} {a p : ℕ} (hlen : R'.length = R.length)
    (hin : a + R.length ≤ bulk.length) (h : a ≤ p → R[p - a]? = R'[p - a]?) :
    (blit bulk a R)[p]? = (blit bulk a R')[p]? := by
  rw [getElem?_blit hin, getElem?_blit (by omega), hlen]
  split_ifs with hp
  · exact h hp.1
  · rfl

/-- The client finds an array of sizes in the region that was pushed. -/
theorem sizesOfMemory_pushed {bulk pre rest : Bytes} {sizes : List ℕ} {a : ℕ}
    (hlt : ∀ size ∈ sizes, size < 2 ^ 64) (hin : a ≤ bulk.length) :
    sizesOfMemory sizes.length
      ((blit bulk a (pre ++ (sizesMemory sizes ++ rest))).drop (a + pre.length)) = sizes := by
  have hlen : (bulk.take a ++ pre).length = a + pre.length := by
    rw [List.length_append, List.length_take_of_le hin]
  rw [blit, ← List.append_assoc (bulk.take a), List.append_assoc, List.drop_left' hlen,
    List.append_assoc]
  exact sizesOfMemory_append hlt _

/-! ### `get` -/

section Get

variable {σ : Type} [DatabaseInterface σ]

/-- What a client exposes for a `get`. The sums of the sizes are sizes; the handler checks the rest.
-/
structure GetRequest (packed : Bool) (count : ℕ) (bulk : Bytes) (offset size : ℕ) : Prop where
  lt_max : bulk.length < 2 ^ 63
  ksizes_lt : 16 * count + (sizesOfMemory count (bulk.drop offset)).sum < 2 ^ 64
  vsizes_lt : packed = false → 16 * count + (sizesOfMemory count (bulk.drop offset)).sum +
    (sizesOfMemory count (bulk.drop (offset + 8 * count))).sum < 2 ^ 64

/-- Two executions of the handler of `get`. -/
theorem ykGetUlt_alike [GetFills σ] (mode : Mode) {packed : Bool} {count : ℕ} {bulk : Bytes}
    {offset size : ℕ} (hreq : GetRequest packed count bulk offset size) {pooled pooled' : Bytes}
    (hlen : pooled'.length = pooled.length) (hsize : size ≤ pooled.length)
    (hmax : pooled.length < 2 ^ 63) (s : σ) :
    let valsOffset := 16 * count + (sizesOfMemory count (bulk.drop offset)).sum
    AnsweredAlike
      (Told (Announced packed (sizesOfMemory count (bulk.drop (offset + 8 * count)))) count
        (offset + 8 * count) (offset + valsOffset) (size - valsOffset))
      (ykGetUlt mode packed count bulk offset size pooled s)
      (ykGetUlt mode packed count bulk offset size pooled' s) := by
  intro valsOffset
  have hvalsOffset : valsOffset = 16 * count + (sizesOfMemory count (bulk.drop offset)).sum := rfl
  clear_value valsOffset
  unfold ykGetUlt
  rcases DatabaseInterface.supportsMode σ mode with _ | _
  · exact .refl _ _
  simp only [Bool.not_true, Bool.false_eq_true, if_false]
  by_cases hzero : size = 0
  · simp only [if_pos hzero]
    exact .refl _ _
  simp only [if_neg hzero]
  -- the sizes are pulled
  rcases pulled_pair hlen bulk offset (if packed then 8 * count else 8 * count * 2) with
    ⟨hpull, hpull'⟩ | ⟨B, B', hpull, hpull', hB, hB', hfront⟩
  · simp only [hpull, hpull']
    exact .refl _ _
  simp only [hpull, hpull']
  have hfirst : 8 * count ≤ if packed then 8 * count else 8 * count * 2 := by
    split_ifs <;> omega
  have hk : sizesOfMemory count B = sizesOfMemory count (bulk.drop offset) :=
    sizesOfMemory_congr fun i hi => by rw [(hfront i (by omega)).1, List.getElem?_drop]
  have hk' : sizesOfMemory count B' = sizesOfMemory count (bulk.drop offset) :=
    sizesOfMemory_congr fun i hi => by rw [(hfront i (by omega)).2, List.getElem?_drop]
  have hv : packed = false → sizesOfMemory count (B.drop (8 * count)) =
      sizesOfMemory count (bulk.drop (offset + 8 * count)) := fun hp =>
    sizesOfMemory_congr fun i hi => by
      rw [List.getElem?_drop, (hfront _ (by rw [hp, if_neg Bool.false_ne_true]; omega)).1,
        List.getElem?_drop, Nat.add_assoc]
  have hv' : packed = false → sizesOfMemory count (B'.drop (8 * count)) =
      sizesOfMemory count (bulk.drop (offset + 8 * count)) := fun hp =>
    sizesOfMemory_congr fun i hi => by
      rw [List.getElem?_drop, (hfront _ (by rw [hp, if_neg Bool.false_ne_true]; omega)).2,
        List.getElem?_drop, Nat.add_assoc]
  rw [hk, hk']
  have hksum := hreq.ksizes_lt
  have hacc : accumulate (sizesOfMemory count (bulk.drop offset)) =
      (sizesOfMemory count (bulk.drop offset)).sum := accumulate_eq (by omega)
  have hadd : addSize (8 * count * 2) (sizesOfMemory count (bulk.drop offset)).sum = valsOffset := by
    rw [addSize_eq (by omega)]
    omega
  simp only [hacc, hadd]
  generalize hkz : sizesOfMemory count (bulk.drop offset) = ksizes at *
  by_cases hempty : 0 ∈ ksizes
  · simp only [if_pos hempty]
    exact .refl _ _
  simp only [if_neg hempty]
  by_cases hroom : size < valsOffset
  · simp only [if_pos hroom]
    exact .refl _ _
  simp only [if_neg hroom]
  have hslots : ∀ b : Bytes, (packed = false → sizesOfMemory count (b.drop (8 * count)) =
      sizesOfMemory count (bulk.drop (offset + 8 * count))) →
      ((packed = false ∧ size < addSize valsOffset (accumulate (sizesOfMemory count
        (b.drop (8 * count))))) ↔ (packed = false ∧ size < valsOffset +
          (sizesOfMemory count (bulk.drop (offset + 8 * count))).sum)) := by
    intro b hb
    refine and_congr_right fun hp => ?_
    have hvsum := hreq.vsizes_lt hp
    rw [hkz] at hvsum
    rw [hb hp, accumulate_eq (by omega), addSize_eq (by omega)]
  simp only [hslots B hv, hslots B' hv']
  by_cases hfits : packed = false ∧ size < valsOffset +
      (sizesOfMemory count (bulk.drop (offset + 8 * count))).sum
  · simp only [if_pos hfits]
    exact .refl _ _
  simp only [if_neg hfits]
  generalize hsl : sizesOfMemory count (bulk.drop (offset + 8 * count)) = slots at *
  -- the keys are pulled
  rcases bulkTransfer_pair (hB'.trans hB.symm) (rfl : bulk.length = bulk.length) (8 * count * 2)
    (offset + 8 * count * 2) ksizes.sum with ⟨hpull, hpull'⟩ | ⟨⟨hd, hs⟩, hpull, hpull'⟩
  · simp only [hpull, hpull']
    exact .refl _ _
  simp only [hpull, hpull']
  have hkeys : (slice bulk (offset + 8 * count * 2) ksizes.sum).length = ksizes.sum :=
    length_slice_of_le hs
  have hcount : ksizes.length = count := by rw [← hkz, length_sizesOfMemory]
  have hcount' : slots.length = count := by rw [← hsl, length_sizesOfMemory]
  -- both runs look up the same keys
  have hread : ∀ b : Bytes, b.length = pooled.length →
      (blit b (8 * count * 2) (slice bulk (offset + 8 * count * 2) ksizes.sum)).length =
          pooled.length ∧
        slice (blit b (8 * count * 2) (slice bulk (offset + 8 * count * 2) ksizes.sum))
          (8 * count * 2) ksizes.sum = slice bulk (offset + 8 * count * 2) ksizes.sum := by
    intro b hb
    refine ⟨by rw [length_blit (by rw [hkeys]; omega), hb], ?_⟩
    have hsame := @slice_blit_same _ b (slice bulk (offset + 8 * count * 2) ksizes.sum)
      (8 * count * 2) (by omega)
    rwa [hkeys] at hsame
  obtain ⟨hC, hkslice⟩ := hread B hB
  obtain ⟨hC', hkslice'⟩ := hread B' hB'
  generalize blit B (8 * count * 2) (slice bulk (offset + 8 * count * 2) ksizes.sum) = C at *
  generalize blit B' (8 * count * 2) (slice bulk (offset + 8 * count * 2) ksizes.sum) = C' at *
  rw [hkslice, hkslice']
  have hvals : ∀ b : Bytes, b.length = pooled.length →
      (slice b valsOffset (size - valsOffset)).length = size - valsOffset :=
    fun b hb => length_slice_of_le (by omega)
  have hrequest : SameRequest packed (size - valsOffset) slots
      (slice C valsOffset (size - valsOffset)) (slice C' valsOffset (size - valsOffset))
      (sizesOfMemory count (B.drop (8 * count))) (sizesOfMemory count (B'.drop (8 * count))) := by
    constructor
    · omega
    · intro hp
      have hle : ¬ size < valsOffset + slots.sum := fun hlt => hfits ⟨hp, hlt⟩
      omega
    · exact hvals C hC
    · exact hvals C' hC'
    · rw [length_sizesOfMemory, hcount']
    · rw [length_sizesOfMemory, hcount']
    · exact fun hp => ⟨hv hp, hv' hp⟩
  have hpacked : Packed (slice bulk (offset + 8 * count * 2) ksizes.sum) ksizes :=
    ⟨hkeys.ge, by omega⟩
  have hsame := GetFills.sameFill mode s hpacked (hcount.trans hcount'.symm) hrequest
  rw [hcount'] at hsame
  refine answerItems_alike hsame (hC'.trans hC.symm) (by omega) (by omega) (fun hfill => ?_) offset
  have hsizes := hfill.sizes_eq
  dsimp only [GetOutput.column] at hsizes
  rw [← hsizes]
  refine ⟨rfl, ?_⟩
  -- a single value is pushed with its own size
  have hlast : 2 ^ 63 ≤ lastValidSize := by decide
  have hbulk := hreq.lt_max
  split_ifs with hone
  · rcases hv : (DatabaseInterface.get mode packed s
      (slice bulk (offset + 8 * count * 2) ksizes.sum) ksizes
      (slice C valsOffset (size - valsOffset)) (sizesOfMemory count (B.drop (8 * count)))).out.vsizes
      with _ | ⟨v, vs⟩
    · exact Or.inl (Nat.zero_le _)
    · rw [List.headD_cons]
      by_cases hproper : v ≤ lastValidSize
      · refine Or.inl (Nat.le_of_not_lt fun hlt => ?_)
        have hlen := (hfill.agree (v - 1) ⟨0, v, by simp [GetOutput.column, hv], hproper,
          by simp [itemStart], by simp only [itemStart, List.take_zero, List.sum_nil]; omega⟩).lt_length
        rw [hfill.length_left] at hlen
        omega
      · exact Or.inr (by omega)
  · exact Or.inl le_rfl

end Get

/-! ### `list_keyvals` -/

/-- What a client exposes for a `list_keyvals`: regions for the keys and the values that hold their
slots. -/
structure ListKeyvalsRequest (packed : Bool) (count front : ℕ) (bulk : Bytes)
    (offset keysBufSize valsBufSize : ℕ) : Prop where
  lt_max : bulk.length < 2 ^ 63
  slots_le : packed = false →
    (sizesOfMemory count (bulk.drop (offset + front))).sum ≤ keysBufSize ∧
      (sizesOfMemory count (bulk.drop (offset + (front + 8 * count)))).sum ≤ valsBufSize

/-- Two executions of the handler of `list_keyvals`. It leaves the database as it is. -/
theorem ykListKeyvalsUlt_alike (db : ListingBackend) (mode : Mode) {packed : Bool}
    {count fromKsize filterSize : ℕ} {bulk : Bytes} {offset keysBufSize valsBufSize : ℕ}
    (hreq : ListKeyvalsRequest packed count (fromKsize + filterSize) bulk offset keysBufSize
      valsBufSize) {pooled pooled' : Bytes} (hlen : pooled'.length = pooled.length)
    (hsize : fromKsize + filterSize + 16 * count + keysBufSize + valsBufSize ≤ pooled.length)
    (hmax : pooled.length < 2 ^ 63) :
    let front := fromKsize + filterSize
    let r := ykListKeyvalsUlt db mode packed count fromKsize filterSize bulk offset keysBufSize
      valsBufSize pooled
    let r' := ykListKeyvalsUlt db mode packed count fromKsize filterSize bulk offset keysBufSize
      valsBufSize pooled'
    AnsweredAlike (fun memory p =>
      Told (Announced packed (sizesOfMemory count (bulk.drop (offset + front)))) count
          (offset + front) (offset + front + 16 * count) keysBufSize memory p ∧
        Told (Announced packed (sizesOfMemory count (bulk.drop (offset + (front + 8 * count))))) count
          (offset + front + 8 * count) (offset + front + 16 * count + keysBufSize) valsBufSize memory
          p) (r.1, r.2, ()) (r'.1, r'.2, ()) := by
  intro front r r'
  have hslots := hreq.slots_le
  have hr : r = ykListKeyvalsUlt db mode packed count fromKsize filterSize bulk offset keysBufSize
    valsBufSize pooled := rfl
  have hr' : r' = ykListKeyvalsUlt db mode packed count fromKsize filterSize bulk offset keysBufSize
    valsBufSize pooled' := rfl
  have hfront : fromKsize + filterSize = front := rfl
  clear_value r r' front
  unfold ykListKeyvalsUlt at hr hr'
  rw [hfront] at hslots hsize
  simp only [hfront] at hr hr'
  rcases hmode : db.supportsMode mode with _ | _
  · rw [hmode] at hr hr'
    rw [hr, hr']
    exact .refl _ _
  rw [hmode] at hr hr'
  simp only [Bool.not_true, Bool.false_eq_true, if_false] at hr hr'
  by_cases hzero : front + 2 * count * 8 + keysBufSize + valsBufSize = 0
  · simp only [if_pos hzero] at hr hr'
    rw [hr, hr']
    exact .refl _ _
  simp only [if_neg hzero] at hr hr'
  -- the first key, the filter and the sizes are pulled
  rcases pulled_pair_of_pos hlen bulk offset (front + if packed then 0 else 2 * count * 8) with
    ⟨hpull, hpull'⟩ | ⟨B, B', hpull, hpull', hB, hB', hpulled⟩
  · simp only [hpull, hpull'] at hr hr'
    rw [hr, hr']
    exact .refl _ _
  simp only [hpull, hpull'] at hr hr'
  have hsame : ∀ off n, off + n ≤ front → slice B' off n = slice B off n := by
    intro off n hin
    refine List.ext_getElem? fun i => ?_
    rcases Nat.lt_or_ge i n with hi | hi
    · rw [getElem?_slice _ _ hi, getElem?_slice _ _ hi, (hpulled (off + i) (by omega)).1,
        (hpulled (off + i) (by omega)).2]
    · rw [slice, slice, List.getElem?_take_eq_none hi, List.getElem?_take_eq_none hi]
  rw [hsame fromKsize filterSize (by omega), hsame 0 fromKsize (by omega)] at hr'
  rcases hmake : db.makeKeyValueFilter mode (slice B fromKsize filterSize) with _ | filter
  · simp only [hmake] at hr hr'
    rw [hr, hr']
    exact .refl _ _
  simp only [hmake] at hr hr'
  have hkslots : (sizesOfMemory count (bulk.drop (offset + front))).length = count :=
    length_sizesOfMemory _ _
  have hvslots : (sizesOfMemory count (bulk.drop (offset + (front + 8 * count)))).length = count :=
    length_sizesOfMemory _ _
  have hread : packed = false → ∀ off, off = front ∨ off = front + 8 * count →
      sizesOfMemory count (B.drop off) = sizesOfMemory count (bulk.drop (offset + off)) ∧
        sizesOfMemory count (B'.drop off) = sizesOfMemory count (bulk.drop (offset + off)) := by
    rintro rfl off hoff
    simp only [Bool.false_eq_true, if_false] at hpulled
    refine ⟨sizesOfMemory_congr fun i hi => ?_, sizesOfMemory_congr fun i hi => ?_⟩
    · rw [List.getElem?_drop, List.getElem?_drop, (hpulled _ (by omega)).1, Nat.add_assoc]
    · rw [List.getElem?_drop, List.getElem?_drop, (hpulled _ (by omega)).2, Nat.add_assoc]
  have hlast : 2 ^ 63 ≤ lastValidSize := by decide
  obtain ⟨status, k, v, hk, hv, hlist⟩ := db.onlyWrites hmake packed (slice B 0 fromKsize)
    keysBufSize valsBufSize _ _ (by omega) (by omega) (hkslots.trans hvslots.symm) hslots
  -- what either run gets from the database
  have hcall : ∀ C : Bytes, C.length = pooled.length → (packed = false →
      sizesOfMemory count (C.drop front) = sizesOfMemory count (bulk.drop (offset + front)) ∧
        sizesOfMemory count (C.drop (front + 8 * count)) =
          sizesOfMemory count (bulk.drop (offset + (front + 8 * count)))) → _ := fun C hC hsizes =>
    hlist (slice C (front + 8 * count + 8 * count) keysBufSize) (sizesOfMemory count (C.drop front))
      (slice C (front + 8 * count + 8 * count + keysBufSize) valsBufSize)
      (sizesOfMemory count (C.drop (front + 8 * count))) (length_slice_of_le (by omega))
      (length_slice_of_le (by omega)) (by rw [length_sizesOfMemory, hkslots])
      (by rw [length_sizesOfMemory, hvslots]) hsizes
  obtain ⟨hstatus, hout⟩ := hcall B hB fun hp =>
    ⟨(hread hp _ (Or.inl rfl)).1, (hread hp _ (Or.inr rfl)).1⟩
  obtain ⟨hstatus', hout'⟩ := hcall B' hB' fun hp =>
    ⟨(hread hp _ (Or.inl rfl)).2, (hread hp _ (Or.inr rfl)).2⟩
  rw [hstatus] at hr
  rw [hstatus'] at hr'
  by_cases hOK : status = .OK
  swap
  · rw [if_neg hOK] at hr hr'
    rw [hr, hr']
    exact .refl _ _
  rw [if_pos hOK, hout hOK] at hr
  rw [if_pos hOK, hout' hOK] at hr'
  have hkfill := hk.sameFill
    (length_slice_of_le (show front + 8 * count + 8 * count + keysBufSize ≤ B.length by omega))
    (length_slice_of_le (show front + 8 * count + 8 * count + keysBufSize ≤ B'.length by omega))
  have hvfill := hv.sameFill
    (length_slice_of_le (show front + 8 * count + 8 * count + keysBufSize + valsBufSize ≤ B.length by
      omega))
    (length_slice_of_le (show front + 8 * count + 8 * count + keysBufSize + valsBufSize ≤ B'.length by
      omega))
  have hksizes : k.sizes.length = count := hk.length_sizes.trans hkslots
  have hvsizes : v.sizes.length = count := hv.length_sizes.trans hvslots
  have hkagree := hkfill.agree
  have hvagree := hvfill.agree
  have hkbuf := hkfill.length_left
  have hkbuf' := hkfill.length_right
  have hvbuf := hvfill.length_left
  have hvbuf' := hvfill.length_right
  simp only [ColumnWrite.output] at hr hr' hkagree hvagree hkbuf hkbuf' hvbuf hvbuf'
  generalize k.patch.apply (slice B (front + 8 * count + 8 * count) keysBufSize) = K at *
  generalize k.patch.apply (slice B' (front + 8 * count + 8 * count) keysBufSize) = K' at *
  generalize v.patch.apply (slice B (front + 8 * count + 8 * count + keysBufSize) valsBufSize) = V
    at *
  generalize v.patch.apply (slice B' (front + 8 * count + 8 * count + keysBufSize) valsBufSize) = V'
    at *
  have hSk : (sizesMemory k.sizes).length = 8 * count := by rw [length_sizesMemory, hksizes]
  have hSv : (sizesMemory v.sizes).length = 8 * count := by rw [length_sizesMemory, hvsizes]
  -- the sizes, the keys and the values are one region of the buffer
  have hregion : ∀ C X Y : Bytes, C.length = pooled.length → X.length = keysBufSize →
      Y.length = valsBufSize →
      bulkTransfer bulk (offset + front)
        (blit (blit (blit (blit C front (sizesMemory k.sizes)) (front + 8 * count)
          (sizesMemory v.sizes)) (front + 8 * count + 8 * count) X)
          (front + 8 * count + 8 * count + keysBufSize) Y) front
        (2 * count * 8 + keysBufSize + valsBufSize) =
      if offset + front + (2 * count * 8 + keysBufSize + valsBufSize) ≤ bulk.length then
        some (blit bulk (offset + front)
          (sizesMemory k.sizes ++ (sizesMemory v.sizes ++ (X ++ Y))))
      else none := by
    intro C X Y hC hX hY
    have h₁ : (blit C front (sizesMemory k.sizes)).length = C.length := length_blit (by omega)
    have h₂ : (blit (blit C front (sizesMemory k.sizes)) (front + 8 * count)
        (sizesMemory v.sizes)).length = C.length := by rw [length_blit (by omega), h₁]
    have hlen : (sizesMemory k.sizes ++ (sizesMemory v.sizes ++ (X ++ Y))).length =
        2 * count * 8 + keysBufSize + valsBufSize := by
      simp only [List.length_append]
      omega
    rw [blit_blit_of_eq (by rw [hX]) (by omega), blit_blit_of_eq (by rw [hSv]) (by omega),
      blit_blit_of_eq (by rw [hSk]) (by omega), ← hlen, push_blit (by omega)]
  rw [hregion B K V hB hkbuf hvbuf] at hr
  rw [hregion B' K' V' hB' hkbuf' hvbuf'] at hr'
  by_cases hpush : offset + front + (2 * count * 8 + keysBufSize + valsBufSize) ≤ bulk.length
  swap
  · rw [if_neg hpush] at hr hr'
    rw [hr, hr']
    exact .refl _ _
  rw [if_pos hpush] at hr hr'
  rw [hr, hr']
  refine ⟨rfl, rfl, fun p htold => ?_⟩
  have hkeys := htold.1
  have hvals := htold.2
  have hkread := @sizesOfMemory_pushed bulk [] (sizesMemory v.sizes ++ (K ++ V)) k.sizes
    (offset + front) hk.sizes_lt (by omega)
  have hvread := @sizesOfMemory_pushed bulk (sizesMemory k.sizes) (K ++ V) v.sizes
    (offset + front) hv.sizes_lt (by omega)
  rw [hksizes, List.nil_append, List.length_nil, Nat.add_zero] at hkread
  rw [hvsizes, hSk] at hvread
  unfold Told at hkeys hvals
  dsimp only at hkeys hvals ⊢
  rw [hkread] at hkeys
  rw [hvread] at hvals
  refine getElem?_blit_congr (by simp only [List.length_append]; omega)
    (by simp only [List.length_append]; omega) fun hle => ?_
  simp only [List.getElem?_append, hSk, hSv, hkbuf, hkbuf']
  split_ifs with hks hvs hkey
  · rfl
  · rfl
  · have hannounced := hkeys (by omega) (by omega)
    rw [show p - (offset + front + 16 * count) = p - (offset + front) - 8 * count - 8 * count by
      omega] at hannounced
    exact (hkagree _ hannounced).eq
  · rcases Nat.lt_or_ge (p - (offset + front) - 8 * count - 8 * count - keysBufSize) valsBufSize with
      hin | hin
    · have hannounced := hvals (by omega) (by omega)
      rw [show p - (offset + front + 16 * count + keysBufSize) =
        p - (offset + front) - 8 * count - 8 * count - keysBufSize by omega] at hannounced
      exact (hvagree _ hannounced).eq
    · rw [List.getElem?_eq_none (by omega), List.getElem?_eq_none (by omega)]

/-! ### `doc_load` -/

section Documents

variable {σ : Type}

/-- What a client exposes for a `doc_load`: the sizes, and a region for the documents that holds
their slots. -/
structure DocLoadRequest (packed : Bool) (count : ℕ) (bulk : Bytes) (offset size : ℕ) : Prop where
  lt_max : bulk.length < 2 ^ 63
  sizes_le : 8 * count ≤ size
  slots_le : packed = false → (sizesOfMemory count (bulk.drop offset)).sum ≤ size - 8 * count

/-- Two calls of `docLoad` on buffers with the same sizes. -/
theorem docLoad_answered (docs : DocBackend σ) {s : σ} (hvalid : docs.Valid s) (collName : CString)
    (mode : Mode) {packed : Bool} {ids : List UInt64} {slots : List ℕ} {size : ℕ} {B B' : Bytes}
    (hcount : slots.length = ids.length) (hsize : 8 * ids.length ≤ size) (hB : size ≤ B.length)
    (hB' : B'.length = B.length) (hmax : B.length < 2 ^ 63)
    (hfits : packed = false → slots.sum ≤ size - 8 * ids.length)
    (hslots : packed = false →
      sizesOfMemory ids.length B = slots ∧ sizesOfMemory ids.length B' = slots)
    (bulk : Bytes) (offset : ℕ) :
    Option.Rel (AnsweredAlike (Told (AnnouncedDoc packed slots) ids.length offset
        (offset + 8 * ids.length) (size - 8 * ids.length)))
      ((docs.docLoad s collName mode packed ids (slice B (8 * ids.length) (size - 8 * ids.length))
        (sizesOfMemory ids.length B)).map
          (answerItems bulk B offset 0 ids.length (8 * ids.length) (size - 8 * ids.length)))
      ((docs.docLoad s collName mode packed ids (slice B' (8 * ids.length) (size - 8 * ids.length))
        (sizesOfMemory ids.length B')).map
          (answerItems bulk B' offset 0 ids.length (8 * ids.length) (size - 8 * ids.length))) := by
  have hrequest : SameRequest packed (size - 8 * ids.length) slots
      (slice B (8 * ids.length) (size - 8 * ids.length))
      (slice B' (8 * ids.length) (size - 8 * ids.length)) (sizesOfMemory ids.length B)
      (sizesOfMemory ids.length B') := by
    constructor
    · omega
    · exact hfits
    · exact length_slice_of_le (by omega)
    · exact length_slice_of_le (by omega)
    · rw [length_sizesOfMemory, hcount]
    · rw [length_sizesOfMemory, hcount]
    · exact hslots
  have hload := docs.docLoad_alike hvalid hcount.symm hrequest collName mode
  rw [hcount] at hload
  exact Option.Rel.map_map hload fun r r' hsame => answerItems_alike hsame hB'
    (Nat.zero_add (8 * ids.length)).le (by omega) (fun _ => ⟨rfl, Or.inl le_rfl⟩) offset

/-- Two executions of the handler of `doc_load`. -/
theorem ykDocLoadUlt_alike (docs : DocBackend σ) {s : σ} (hvalid : docs.Valid s) (mode : Mode)
    {packed : Bool} {ids : List UInt64} {bulk : Bytes} {offset size : ℕ}
    (hreq : DocLoadRequest packed ids.length bulk offset size) {pooled pooled' : Bytes}
    (hlen : pooled'.length = pooled.length) (hsize : size ≤ pooled.length)
    (hmax : pooled.length < 2 ^ 63) (collName : CString) :
    Option.Rel (AnsweredAlike (Told (AnnouncedDoc packed (sizesOfMemory ids.length (bulk.drop offset)))
        ids.length offset (offset + 8 * ids.length) (size - 8 * ids.length)))
      (ykDocLoadUlt docs mode packed collName ids bulk offset size pooled s)
      (ykDocLoadUlt docs mode packed collName ids bulk offset size pooled' s) := by
  have hsizes := hreq.sizes_le
  have hcount : (sizesOfMemory ids.length (bulk.drop offset)).length = ids.length :=
    length_sizesOfMemory _ _
  unfold ykDocLoadUlt
  rcases docs.supportsMode mode with _ | _
  · exact .some (.refl _ _)
  simp only [Bool.not_true, Bool.false_eq_true, if_false]
  by_cases hzero : size = 0
  · simp only [if_pos hzero]
    exact .some (.refl _ _)
  simp only [if_neg hzero]
  have hdocs : (size + (2 ^ 64 - 8 * ids.length)) % 2 ^ 64 = size - 8 * ids.length := by omega
  rw [hdocs]
  rcases packed with _ | _
  · rcases pulled_pair hlen bulk offset (8 * ids.length) with
      ⟨hpull, hpull'⟩ | ⟨B, B', hpull, hpull', hB, hB', hfront⟩
    · simp only [hpull, hpull', Bool.false_eq_true, if_false]
      exact .some (.refl _ _)
    · simp only [hpull, hpull', Bool.false_eq_true, if_false]
      have hv : sizesOfMemory ids.length B = sizesOfMemory ids.length (bulk.drop offset) :=
        sizesOfMemory_congr fun i hi => by rw [(hfront i hi).1, List.getElem?_drop]
      have hv' : sizesOfMemory ids.length B' = sizesOfMemory ids.length (bulk.drop offset) :=
        sizesOfMemory_congr fun i hi => by rw [(hfront i hi).2, List.getElem?_drop]
      exact docLoad_answered docs hvalid collName mode hcount hsizes (by omega) (by omega) (by omega)
        hreq.slots_le (fun _ => ⟨hv, hv'⟩) bulk offset
  · simp only [if_true]
    refine docLoad_answered docs hvalid collName mode hcount hsizes hsize hlen hmax ?_ ?_ bulk offset
    · nofun
    · nofun

/-! ### `doc_list` -/

/-- The client is told what is at position `p` of its memory: it does not belong to the id of a
document that did not fit. -/
def IdTold (count sizesOffset start : ℕ) (memory : Bytes) (p : ℕ) : Prop :=
  start ≤ p → p < start + 8 * count →
    (sizesOfMemory count (memory.drop sizesOffset))[(p - start) / 8]? ≠ some sizeTooSmall

/-- What a client exposes for a `doc_list`: a region for the documents that holds their slots. -/
structure DocListRequest (packed : Bool) (count filterSize : ℕ) (bulk : Bytes)
    (offset docsBufSize : ℕ) : Prop where
  lt_max : bulk.length < 2 ^ 63
  slots_le : packed = false →
    (sizesOfMemory count (bulk.drop (offset + filterSize))).sum ≤ docsBufSize

theorem getElem?_idsMemory (ids : List UInt64) (i : ℕ) {j : ℕ} (hj : j < 8) :
    (idsMemory ids)[8 * i + j]? =
      (ids[i]?).bind fun id => (LittleEndian.encode 8 id.toNat)[j]? := by
  induction ids generalizing i with
  | nil => simp [idsMemory]
  | cons id ids ih =>
    have hlen : (LittleEndian.encode 8 id.toNat).length = 8 := LittleEndian.length_encode _ _
    rw [idsMemory, List.map_cons, List.flatten_cons]
    cases i with
    | zero =>
      rw [Nat.mul_zero, Nat.zero_add, List.getElem?_append_left (by omega)]
      rfl
    | succ i =>
      rw [List.getElem?_append_right (by omega), hlen,
        show 8 * (i + 1) + j - 8 = 8 * i + j by omega, List.getElem?_cons_succ, ← ih i]
      rfl

/-- Two executions of the handler of `doc_list`. -/
theorem ykDocListUlt_alike (docs : DocBackend σ) {s : σ} (hvalid : docs.Valid s) (mode : Mode)
    {packed : Bool} {count filterSize : ℕ} {bulk : Bytes} {offset docsBufSize : ℕ}
    (hreq : DocListRequest packed count filterSize bulk offset docsBufSize) {pooled pooled' : Bytes}
    (hlen : pooled'.length = pooled.length)
    (hsize : filterSize + 16 * count + docsBufSize ≤ pooled.length) (hmax : pooled.length < 2 ^ 63)
    (collName : CString) (fromId : UInt64) :
    Option.Rel (AnsweredAlike fun memory p =>
        Told (AnnouncedDoc packed (sizesOfMemory count (bulk.drop (offset + filterSize)))) count
            (offset + filterSize) (offset + filterSize + 16 * count) docsBufSize memory p ∧
          IdTold count (offset + filterSize) (offset + filterSize + 8 * count) memory p)
      (ykDocListUlt docs mode packed collName fromId count filterSize bulk offset docsBufSize pooled s)
      (ykDocListUlt docs mode packed collName fromId count filterSize bulk offset docsBufSize pooled'
        s) := by
  have hslots := hreq.slots_le
  have hcount : (sizesOfMemory count (bulk.drop (offset + filterSize))).length = count :=
    length_sizesOfMemory _ _
  unfold ykDocListUlt
  rcases docs.supportsMode mode with _ | _
  · exact .some (.refl _ _)
  simp only [Bool.not_true, Bool.false_eq_true, if_false]
  by_cases hzero : filterSize + 8 * count + 8 * count + docsBufSize = 0
  · simp only [if_pos hzero]
    exact .some (.refl _ _)
  simp only [if_neg hzero]
  -- the filter and the sizes are pulled
  rcases pulled_pair_of_pos hlen bulk offset (filterSize + if packed then 0 else 8 * count) with
    ⟨hpull, hpull'⟩ | ⟨B, B', hpull, hpull', hB, hB', hfront⟩
  · simp only [hpull, hpull']
    exact .some (.refl _ _)
  simp only [hpull, hpull']
  have hfilter : slice B 0 filterSize = slice B' 0 filterSize := List.ext_getElem? fun i => by
    rcases Nat.lt_or_ge i filterSize with hi | hi
    · rw [getElem?_slice _ _ hi, getElem?_slice _ _ hi, Nat.zero_add, (hfront i (by omega)).1,
        (hfront i (by omega)).2]
    · rw [slice, slice, List.getElem?_take_eq_none hi, List.getElem?_take_eq_none hi]
  rw [← hfilter]
  rcases hmake : docs.makeDocFilter mode (slice B 0 filterSize) with _ | filter
  · exact .some (.refl _ _)
  dsimp only
  have hread : packed = false → sizesOfMemory count (B.drop filterSize) =
        sizesOfMemory count (bulk.drop (offset + filterSize)) ∧
      sizesOfMemory count (B'.drop filterSize) =
        sizesOfMemory count (bulk.drop (offset + filterSize)) := by
    rintro rfl
    simp only [Bool.false_eq_true, if_false] at hfront
    refine ⟨sizesOfMemory_congr fun i hi => ?_, sizesOfMemory_congr fun i hi => ?_⟩
    · rw [List.getElem?_drop, List.getElem?_drop, (hfront _ (by omega)).1, Nat.add_assoc]
    · rw [List.getElem?_drop, List.getElem?_drop, (hfront _ (by omega)).2, Nat.add_assoc]
  have hrequest : SameRequest packed docsBufSize
      (sizesOfMemory count (bulk.drop (offset + filterSize)))
      (slice B (filterSize + 8 * count + 8 * count) docsBufSize)
      (slice B' (filterSize + 8 * count + 8 * count) docsBufSize)
      (sizesOfMemory count (B.drop filterSize)) (sizesOfMemory count (B'.drop filterSize)) := by
    constructor
    · omega
    · exact hslots
    · exact length_slice_of_le (by omega)
    · exact length_slice_of_le (by omega)
    · rw [length_sizesOfMemory, hcount]
    · rw [length_sizesOfMemory, hcount]
    · exact hread
  have hids : ∀ m : Bytes, (idsOfMemory count m).length =
      (sizesOfMemory count (bulk.drop (offset + filterSize))).length := fun m => by
    rw [DocumentStoreMixin.length_idsOfMemory, hcount]
  refine Option.Rel.map_map (docs.docList_alike hvalid hmake (by omega)
    (hids (B.drop (filterSize + 8 * count))) (hids (B'.drop (filterSize + 8 * count))) hrequest
    collName fromId) ?_
  rintro ⟨status, out, db⟩ ⟨status', out', db'⟩ ⟨hstatus, hdb, hout⟩
  obtain rfl : status = status' := hstatus
  obtain rfl : db = db' := hdb
  dsimp only at hout ⊢
  by_cases hOK : status = .OK
  · obtain ⟨hdocs, ⟨hidslen, hidslen'⟩, hideq⟩ := hout hOK
    rw [if_pos hOK, if_pos hOK]
    have hdocslen := hdocs.length_left
    have hdocslen' := hdocs.length_right
    have hsizeseq := hdocs.sizes_eq
    have hsizeslen := hdocs.length_sizes
    have hsizeslt := hdocs.sizes_lt
    have hagree := hdocs.agree
    dsimp only at hdocslen hdocslen' hsizeseq hsizeslen hsizeslt hagree
    rw [hcount] at hidslen hidslen' hsizeslen
    -- the sizes, the ids and the documents are one region of the buffer
    have hregion : ∀ (C : Bytes) (ids : List UInt64) (documents : Bytes), C.length = pooled.length →
        ids.length = count → documents.length = docsBufSize →
        bulkTransfer bulk (offset + filterSize)
          (blit (blit (blit C filterSize (sizesMemory out.docSizes)) (filterSize + 8 * count)
            (idsMemory ids)) (filterSize + 8 * count + 8 * count) documents) filterSize
          (8 * count + 8 * count + docsBufSize) =
        if offset + filterSize + (8 * count + 8 * count + docsBufSize) ≤ bulk.length then
          some (blit bulk (offset + filterSize)
            (sizesMemory out.docSizes ++ (idsMemory ids ++ documents)))
        else none := by
      intro C ids documents hC hidl hdl
      have hS : (sizesMemory out.docSizes).length = 8 * count := by
        rw [length_sizesMemory, hsizeslen]
      have hI : (idsMemory ids).length = 8 * count := by
        rw [DocumentStoreMixin.length_idsMemory, hidl]
      have hlen : (sizesMemory out.docSizes ++ (idsMemory ids ++ documents)).length =
          8 * count + 8 * count + docsBufSize := by
        rw [List.length_append, List.length_append, hS, hI, hdl]
        omega
      have hC' : (blit C filterSize (sizesMemory out.docSizes)).length = C.length :=
        length_blit (by omega)
      rw [blit_blit_of_eq (by rw [hI]) (by omega), blit_blit_of_eq (by rw [hS]) (by omega), ← hlen,
        push_blit (by omega)]
    rw [← hsizeseq, hregion B out.ids out.documents hB hidslen hdocslen,
      hregion B' out'.ids out'.documents hB' hidslen' hdocslen']
    by_cases hpush : offset + filterSize + (8 * count + 8 * count + docsBufSize) ≤ bulk.length
    · rw [if_pos hpush, if_pos hpush]
      refine ⟨rfl, rfl, fun p hp => ?_⟩
      obtain ⟨hdoc, hid⟩ := hp
      have hread := @sizesOfMemory_pushed bulk [] (idsMemory out.ids ++ out.documents) out.docSizes
        (offset + filterSize) hsizeslt (by omega)
      rw [hsizeslen, List.nil_append, List.length_nil, Nat.add_zero] at hread
      unfold Told at hdoc
      unfold IdTold at hid
      dsimp only at hdoc hid ⊢
      rw [hread] at hdoc hid
      have hS : (sizesMemory out.docSizes).length = 8 * count := by
        rw [length_sizesMemory, hsizeslen]
      have hI : ∀ ids : List UInt64, ids.length = count → (idsMemory ids).length = 8 * count :=
        fun ids hids => by rw [DocumentStoreMixin.length_idsMemory, hids]
      have hI₁ := hI out.ids hidslen
      have hI₂ := hI out'.ids hidslen'
      refine getElem?_blit_congr (by simp only [List.length_append]; omega)
        (by simp only [List.length_append]; omega) fun hle => ?_
      simp only [List.getElem?_append, hS, hI₁, hI₂]
      split_ifs with hsizes hids
      · rfl
      · -- byte `j` of id `i`
        have hword : p - (offset + filterSize) - 8 * count =
            8 * ((p - (offset + filterSize) - 8 * count) / 8) +
              (p - (offset + filterSize) - 8 * count) % 8 := (Nat.div_add_mod _ 8).symm
        have hfits := hid (by omega) (by omega)
        rw [show p - (offset + filterSize + 8 * count) = p - (offset + filterSize) - 8 * count by
          omega] at hfits
        rw [hword, getElem?_idsMemory _ _ (Nat.mod_lt _ (by omega)),
          getElem?_idsMemory _ _ (Nat.mod_lt _ (by omega)), hideq _ hfits]
      · rcases Nat.lt_or_ge (p - (offset + filterSize) - 8 * count - 8 * count) docsBufSize with
          hin | hin
        · have hannounced := hdoc (by omega) (by omega)
          rw [show p - (offset + filterSize + 16 * count) =
            p - (offset + filterSize) - 8 * count - 8 * count by omega] at hannounced
          exact (hagree _ hannounced).eq
        · rw [List.getElem?_eq_none (by omega), List.getElem?_eq_none (by omega)]
    · rw [if_neg hpush, if_neg hpush]
      exact .refl _ _
  · rw [if_neg hOK, if_neg hOK]
    exact .refl _ _

end Documents

/-! ### The four handlers -/

/-- Nobody is answered with the status or the sizes of another request. For any request of a client,
two executions of `get`, `list_keyvals`, `doc_load` and `doc_list` that differ in what their pooled
buffer held answer with the same code, leave the same database, and leave the same bytes in the
memory of the client, except inside the region of the items: there the bytes agree that the sizes
announce. The id of a listed document that did not fit may differ as well. -/
theorem buffer_reuse {σ τ : Type} [DatabaseInterface σ] [GetFills σ] (listing : ListingBackend)
    (docs : DocBackend τ) (mode : Mode) (packed : Bool) (bulk : Bytes) (offset : ℕ)
    {pooled pooled' : Bytes} (hlen : pooled'.length = pooled.length)
    (hmax : pooled.length < 2 ^ 63) :
    (∀ (s : σ) (count size : ℕ), GetRequest packed count bulk offset size → size ≤ pooled.length →
      let valsOffset := 16 * count + (sizesOfMemory count (bulk.drop offset)).sum
      AnsweredAlike
        (Told (Announced packed (sizesOfMemory count (bulk.drop (offset + 8 * count)))) count
          (offset + 8 * count) (offset + valsOffset) (size - valsOffset))
        (ykGetUlt mode packed count bulk offset size pooled s)
        (ykGetUlt mode packed count bulk offset size pooled' s)) ∧
    (∀ count fromKsize filterSize keysBufSize valsBufSize : ℕ,
      ListKeyvalsRequest packed count (fromKsize + filterSize) bulk offset keysBufSize valsBufSize →
      fromKsize + filterSize + 16 * count + keysBufSize + valsBufSize ≤ pooled.length →
      let front := fromKsize + filterSize
      let r := ykListKeyvalsUlt listing mode packed count fromKsize filterSize bulk offset keysBufSize
        valsBufSize pooled
      let r' := ykListKeyvalsUlt listing mode packed count fromKsize filterSize bulk offset
        keysBufSize valsBufSize pooled'
      AnsweredAlike (fun memory p =>
        Told (Announced packed (sizesOfMemory count (bulk.drop (offset + front)))) count
            (offset + front) (offset + front + 16 * count) keysBufSize memory p ∧
          Told (Announced packed (sizesOfMemory count (bulk.drop (offset + (front + 8 * count)))))
            count (offset + front + 8 * count) (offset + front + 16 * count + keysBufSize) valsBufSize
            memory p) (r.1, r.2, ()) (r'.1, r'.2, ())) ∧
    ∀ s : τ, docs.Valid s → ∀ collName : CString,
      (∀ (ids : List UInt64) (size : ℕ), DocLoadRequest packed ids.length bulk offset size →
        size ≤ pooled.length →
        Option.Rel (AnsweredAlike
            (Told (AnnouncedDoc packed (sizesOfMemory ids.length (bulk.drop offset))) ids.length offset
              (offset + 8 * ids.length) (size - 8 * ids.length)))
          (ykDocLoadUlt docs mode packed collName ids bulk offset size pooled s)
          (ykDocLoadUlt docs mode packed collName ids bulk offset size pooled' s)) ∧
      ∀ (fromId : UInt64) (count filterSize docsBufSize : ℕ),
        DocListRequest packed count filterSize bulk offset docsBufSize →
        filterSize + 16 * count + docsBufSize ≤ pooled.length →
        Option.Rel (AnsweredAlike fun memory p =>
            Told (AnnouncedDoc packed (sizesOfMemory count (bulk.drop (offset + filterSize)))) count
                (offset + filterSize) (offset + filterSize + 16 * count) docsBufSize memory p ∧
              IdTold count (offset + filterSize) (offset + filterSize + 8 * count) memory p)
          (ykDocListUlt docs mode packed collName fromId count filterSize bulk offset docsBufSize
            pooled s)
          (ykDocListUlt docs mode packed collName fromId count filterSize bulk offset docsBufSize
            pooled' s) := by
  refine ⟨?_, ?_, fun s hvalid collName => ⟨?_, ?_⟩⟩
  · exact fun s count size hreq hsize => ykGetUlt_alike mode hreq hlen hsize hmax s
  · exact fun count fromKsize filterSize keysBufSize valsBufSize hreq hsize =>
      ykListKeyvalsUlt_alike listing mode hreq hlen hsize hmax
  · exact fun ids size hreq hsize => ykDocLoadUlt_alike docs hvalid mode hreq hlen hsize hmax collName
  · exact fun fromId count filterSize docsBufSize hreq hsize =>
      ykDocListUlt_alike docs hvalid mode hreq hlen hsize hmax collName fromId

/-- What a client exposes that asks for the values of two keys, with room for three bytes. -/
def requestOfTwo : Bytes := sizesMemory [1, 1] ++ sizesMemory [0, 0] ++ [1, 2] ++ [0, 0, 0]

/-- A database with the first of the two. -/
def oneValue : MapDatabase .default := (MapDatabase.empty .default).emplace [1] [10]

/-- A client that asks for two values, of which one is there, is sent bytes of the last user of the
buffer behind it. -/
theorem buffer_reuse_leaks :
    let r := ykGetUlt .default true 2 requestOfTwo 0 37 (List.replicate 37 7) oneValue
    let r' := ykGetUlt .default true 2 requestOfTwo 0 37 (List.replicate 37 9) oneValue
    r.1 = .SUCCESS ∧ r'.1 = .SUCCESS ∧ r.2.1.drop 34 = [10, 7, 7] ∧ r'.2.1.drop 34 = [10, 9, 9] := by
  decide

/-- A database with one document in each collection. -/
def oneDocument : ArrayDatabase := ⟨fun _ => some ⟨[5], 1, [0], [1]⟩⟩

theorem oneDocument_inData {name : CString} {coll : ArrayCollection}
    (h : oneDocument.collections name = some coll) : coll.InData := by
  obtain rfl := Option.some.inj h
  intro id offset size hrecord
  rcases hid : id.toNat with _ | i
  · simp [ArrayCollection.record, hid] at hrecord
    obtain ⟨-, rfl, rfl⟩ := hrecord
    exact le_rfl
  · simp [ArrayCollection.record, hid] at hrecord

/-- The handlers of documents over an `array` database. -/
def arrayDocuments : DocBackend ArrayDatabase :=
  ArrayDatabase.documents (fun _ _ => some makeDocFilter) fun _ _ _ h =>
    Option.some.inj h ▸ copies_makeDocFilter

/-- Both clients are answered with the same code, and find the same byte where they are told. -/
theorem AnsweredAlike.map_byte {σ : Type} {told : Bytes → ℕ → Prop} {p : ℕ}
    {x y : Option (ReturnCode × Bytes × σ)} (h : Option.Rel (AnsweredAlike told) x y)
    (htold : ∀ r ∈ x, told r.2.1 p) :
    x.map (fun r => (r.1, r.2.1[p]?)) = y.map (fun r => (r.1, r.2.1[p]?)) := by
  rcases h with ⟨h⟩ | _
  · exact congrArg some (Prod.ext h.code_eq (h.agree p (htold _ rfl)))
  · rfl

/-- Requests of all four kinds over two used buffers. The value and the document that were found are
the same. -/
theorem buffer_reuse_two :
    (ykGetUlt .default true 2 requestOfTwo 0 37 (List.replicate 37 7) oneValue).2.1[34]? =
        (ykGetUlt .default true 2 requestOfTwo 0 37 (List.replicate 37 9) oneValue).2.1[34]? ∧
      (ykListKeyvalsUlt oneValue.listing .default true 1 0 0 requestOfTwo 0 2 2 (List.replicate 37 7)).1 =
        (ykListKeyvalsUlt oneValue.listing .default true 1 0 0 requestOfTwo 0 2 2
          (List.replicate 37 9)).1 ∧
      (ykDocLoadUlt arrayDocuments .default true nameC [0, 1] requestOfTwo 0 37 (List.replicate 37 7)
          oneDocument).map (fun r => (r.1, r.2.1[16]?)) =
        (ykDocLoadUlt arrayDocuments .default true nameC [0, 1] requestOfTwo 0 37
          (List.replicate 37 9) oneDocument).map (fun r => (r.1, r.2.1[16]?)) ∧
      (ykDocListUlt arrayDocuments .default true nameC 0 1 0 requestOfTwo 0 2 (List.replicate 37 7)
          oneDocument).map (fun r => (r.1, r.2.1[16]?)) =
        (ykDocListUlt arrayDocuments .default true nameC 0 1 0 requestOfTwo 0 2 (List.replicate 37 9)
          oneDocument).map (fun r => (r.1, r.2.1[16]?)) := by
  have hlen : (List.replicate 37 (9 : UInt8)).length = (List.replicate 37 (7 : UInt8)).length := rfl
  obtain ⟨hget, hlist, hdocs⟩ := @buffer_reuse (MapDatabase .default) ArrayDatabase _ _
    oneValue.listing arrayDocuments .default true requestOfTwo 0 _ _ hlen (by decide)
  obtain ⟨hload, hdocList⟩ := hdocs oneDocument (fun _ _ h => oneDocument_inData h) nameC
  -- the sizes that the clients find
  have hsizes : sizesOfMemory 2 ((ykGetUlt .default true 2 requestOfTwo 0 37 (List.replicate 37 7)
      oneValue).2.1.drop 16) = [1, keyNotFound] := by
    decide
  have hloaded : (ykDocLoadUlt arrayDocuments .default true nameC [0, 1] requestOfTwo 0 37
      (List.replicate 37 7) oneDocument).map (fun r => sizesOfMemory 2 (r.2.1.drop 0)) =
        some [1, keyNotFound] := by
    decide
  have hlisted : (ykDocListUlt arrayDocuments .default true nameC 0 1 0 requestOfTwo 0 2
      (List.replicate 37 7) oneDocument).map (fun r => sizesOfMemory 1 (r.2.1.drop 0)) =
        some [1] := by
    decide
  refine ⟨(hget oneValue 2 37 ⟨by decide, by decide, fun hp => by cases hp⟩ (by decide)).agree 34 ?_,
    (hlist 1 0 0 2 2 ⟨by decide, fun hp => by cases hp⟩ (by decide)).code_eq,
    AnsweredAlike.map_byte
      (hload [0, 1] 37 ⟨by decide, by decide, fun hp => by cases hp⟩ (by decide)) ?_,
    AnsweredAlike.map_byte (hdocList 0 1 0 2 ⟨by decide, fun hp => by cases hp⟩ (by decide)) ?_⟩
  · intro _ _
    exact ⟨0, 1, congrArg (·[0]?) hsizes, by decide, by decide, by decide⟩
  · intro r hr _ _
    rw [Option.mem_def.1 hr] at hloaded
    exact ⟨0, 1, congrArg (·[0]?) (Option.some.inj hloaded), by decide, (fun hp => by cases hp),
      Nat.zero_le _, Nat.zero_lt_one⟩
  · intro r hr
    rw [Option.mem_def.1 hr] at hlisted
    refine ⟨fun _ _ => ⟨0, 1, congrArg (·[0]?) (Option.some.inj hlisted), by decide,
      (fun hp => by cases hp), Nat.zero_le _, Nat.zero_lt_one⟩, fun _ hp => ?_⟩
    exact absurd hp (by decide)

end Yokan
