import Yokan.Handlers

/-!
# Yokan: the memory a client exposes

`put` and `list_keyvals` of the client (`src/client/put.cpp`, `list_keyvals.cpp`). The client lists
the segments of its memory behind a bulk handle; the handlers of the server address their
concatenation by offsets. With `YOKAN_MODE_NO_RDMA` the packed arrays travel inside the RPC.

A region of memory stands for the pointer to it and its size. A null pointer to an array that is
required is refused before anything else and left out here.

* `ykPutUlt_eq`, `ykListKeyvalsUlt_eq`: the handlers find the arrays where the client put them;
* `landed_unpack`: what lies behind the segments of some slots is found in the slots;
* `bulk_layout_agrees`: the client and the server agree, through RDMA or not.
-/

namespace Yokan

open Buffer

/-! ### `put` -/

section Put

variable {σ : Type} [DatabaseInterface σ]

open DatabaseInterface

/-- `yk_put_direct`. -/
def ykPutDirect (mode : Mode) (keys : Bytes) (ksizes : List ℕ) (values : Option Bytes)
    (vsizes : List ℕ) (s : σ) : ReturnCode × σ :=
  if ksizes.length = 0 then (.SUCCESS, s)
  else if !checkModeValid mode then (.ERR_MODE, s)
  else if values.isNone ∧ accumulate vsizes ≠ 0 then (.ERR_INVALID_ARGS, s)
  else
    ykPutDirectUlt mode ksizes vsizes (keys.take (accumulate ksizes))
      ((values.getD []).take (accumulate vsizes)) s

/-- `yk_put_bulk`, for memory of the caller. -/
def ykPutBulk (mode : Mode) (count : ℕ) (bulk : Bytes) (offset size : ℕ) (pooled : Bytes) (s : σ) :
    ReturnCode × σ :=
  if count ≠ 0 ∧ size = 0 then (.ERR_INVALID_ARGS, s)
  else if !checkModeValid mode then (.ERR_MODE, s)
  else ykPutUlt mode count bulk offset size pooled s

/-- `yk_put_multi`. No segment is exposed for an empty value. -/
def ykPutMulti (mode : Mode) (keys values : List Bytes) (pooled : Bytes) (s : σ) :
    ReturnCode × σ :=
  let ksizes := keys.map List.length
  let vsizes := values.map List.length
  if keys.length = 0 then (.SUCCESS, s)
  else if mode.has .noRdma then
    if keys.length = 1 then ykPutDirect mode (keys.headD []) ksizes (some (values.headD [])) vsizes s
    else ykPutDirect mode keys.flatten ksizes (some values.flatten) vsizes s
  else if 0 ∈ ksizes then (.ERR_INVALID_ARGS, s)
  else
    let segments := [sizesMemory ksizes, sizesMemory vsizes] ++ keys ++ values.filter (· ≠ [])
    ykPutBulk mode keys.length segments.flatten 0 (accumulate (segments.map List.length)) pooled s

/-- `yk_put_packed`. The last segment is left out when all values are empty. -/
def ykPutPacked (mode : Mode) (keys : Bytes) (ksizes : List ℕ) (values : Option Bytes)
    (vsizes : List ℕ) (pooled : Bytes) (s : σ) : ReturnCode × σ :=
  if mode.has .noRdma then ykPutDirect mode keys ksizes values vsizes s
  else if ksizes.length = 0 then (.SUCCESS, s)
  else
    let totalKsize := accumulate ksizes
    let totalVsize := accumulate vsizes
    if totalKsize = 0 then (.ERR_INVALID_ARGS, s)
    else if totalVsize ≠ 0 ∧ values.isNone then (.ERR_INVALID_ARGS, s)
    else
      let segments := [sizesMemory ksizes, sizesMemory vsizes, keys.take totalKsize] ++
        if totalVsize ≠ 0 then [(values.getD []).take totalVsize] else []
      ykPutBulk mode ksizes.length segments.flatten 0
        (accumulate [8 * ksizes.length, 8 * ksizes.length, totalKsize, totalVsize]) pooled s

end Put

/-! ### `list_keyvals` -/

/-- The arrays a client passes to a listing: keys and values in slots, or packed in one region. -/
structure ListArrays (β : Type) where
  keys : β
  ksizes : List ℕ
  vals : β
  vsizes : List ℕ
  deriving DecidableEq

/-- The segments exposed for some regions: none for an empty one. -/
def exposed (slots : List Bytes) : List Bytes := slots.filter (· ≠ [])

/-- The slots after their segments have been written. -/
def landed : List Bytes → List Bytes → List Bytes
  | [], _ => []
  | slot :: slots, segments =>
    if slot = [] then slot :: landed slots segments
    else segments.headD slot :: landed slots segments.tail

/-- `yk_list_keyvals_bulk`, for memory of the caller. -/
def ykListKeyvalsBulk (db : ListingBackend) (mode : Mode) (fromKsize filterSize : ℕ)
    (bulk : Bytes) (offset keysBufSize valsBufSize : ℕ) (packed : Bool) (count : ℕ)
    (pooled : Bytes) : ReturnCode × Bytes :=
  if count = 0 then (.SUCCESS, bulk)
  else if !checkModeValid mode then (.ERR_MODE, bulk)
  else
    ykListKeyvalsUlt db mode packed count fromKsize filterSize bulk offset keysBufSize valsBufSize
      pooled

/-- The arrays of a client that passed slots, given the segments behind the first key and the
filter. -/
def slotArrays (keys vals : List Bytes) : List Bytes → ListArrays (List Bytes)
  | ksizes :: vsizes :: slots =>
    { keys := landed keys slots
      ksizes := sizesOfMemory keys.length ksizes
      vals := landed vals (slots.drop (exposed keys).length)
      vsizes := sizesOfMemory keys.length vsizes }
  | _ => ⟨keys, keys.map List.length, vals, vals.map List.length⟩

/-- The arrays of a client that passed packed regions. -/
def packedArrays (mem : ListArrays Bytes) : List Bytes → ListArrays Bytes
  | [ksizes, vsizes, keys, vals] =>
    { keys
      ksizes := sizesOfMemory mem.ksizes.length ksizes
      vals
      vsizes := sizesOfMemory mem.ksizes.length vsizes }
  | _ => mem

/-- `yk_list_keyvals`, with the arrays when it returns. The sizes passed are those of the slots. -/
def ykListKeyvals (db : ListingBackend) (mode : Mode) (fromKey filterData : Bytes)
    (keys vals : List Bytes) (pooled : Bytes) : ReturnCode × ListArrays (List Bytes) :=
  let ksizes := keys.map List.length
  let vsizes := vals.map List.length
  if keys.length = 0 then (.SUCCESS, ⟨keys, ksizes, vals, vsizes⟩)
  else
    let front := exposed [fromKey] ++ exposed [filterData]
    let segments := front ++ ([sizesMemory ksizes, sizesMemory vsizes] ++ (exposed keys ++
      exposed vals))
    let (ret, bulk) := ykListKeyvalsBulk db mode fromKey.length filterData.length segments.flatten 0
      (accumulate ksizes) (accumulate vsizes) false keys.length pooled
    (ret, slotArrays keys vals ((unpack bulk (segments.map List.length)).drop front.length))

/-- Decoding an array into memory of the caller (`hg_proc_uint64_list`, `hg_proc_raw_data`). It
fails when the memory is too small. -/
def procDecode {α : Type} (memory array : List α) : Option (List α) :=
  if array.length ≤ memory.length then some (array ++ memory.drop array.length) else none

/-- `yk_list_keyvals_direct`. The answer is decoded field by field. -/
def ykListKeyvalsDirect (db : ListingBackend) (mode : Mode) (fromKey filterData : Bytes)
    (mem : ListArrays Bytes) : ReturnCode × ListArrays Bytes :=
  if mem.ksizes.length = 0 then (.SUCCESS, mem)
  else if !checkModeValid mode then (.ERR_MODE, mem)
  else
    let out := ykListKeyvalsDirectUlt db mode mem.ksizes.length fromKey filterData mem.keys.length
      mem.vals.length
    match procDecode mem.ksizes out.ksizes with
    | none => (.ERR_FROM_MERCURY, mem)
    | some ksizes =>
      let mem := { mem with ksizes }
      match procDecode mem.vsizes out.vsizes with
      | none => (.ERR_FROM_MERCURY, mem)
      | some vsizes =>
        let mem := { mem with vsizes }
        match procDecode mem.keys out.keys with
        | none => (.ERR_FROM_MERCURY, mem)
        | some keys =>
          let mem := { mem with keys }
          match procDecode mem.vals out.vals with
          | none => (.ERR_FROM_MERCURY, mem)
          | some vals => (out.ret, { mem with vals })

/-- `yk_list_keyvals_packed`, with the arrays when it returns. -/
def ykListKeyvalsPacked (db : ListingBackend) (mode : Mode) (fromKey filterData : Bytes)
    (mem : ListArrays Bytes) (pooled : Bytes) : ReturnCode × ListArrays Bytes :=
  if mode.has .noRdma then ykListKeyvalsDirect db mode fromKey filterData mem
  else if mem.ksizes.length = 0 then (.SUCCESS, mem)
  else
    let front := exposed [fromKey] ++ exposed [filterData]
    let segments := front ++ [sizesMemory mem.ksizes, sizesMemory mem.vsizes, mem.keys, mem.vals]
    let (ret, bulk) := ykListKeyvalsBulk db mode fromKey.length filterData.length segments.flatten 0
      mem.keys.length mem.vals.length true mem.ksizes.length pooled
    (ret, packedArrays mem ((unpack bulk (segments.map List.length)).drop front.length))

/-! ### `put` on both sides -/

section PutLayout

variable {σ : Type} [DatabaseInterface σ] {mode : Mode} {ksizes vsizes : List ℕ}
  {keys vals pooled : Bytes}

open DatabaseInterface

/-- What a client is answered that stores some keys and values. -/
def putAnswer (mode : Mode) (s : σ) (keys : Bytes) (ksizes : List ℕ) (vals : Bytes)
    (vsizes : List ℕ) : ReturnCode × σ :=
  if !checkModeValid mode || !supportsMode σ mode then (.ERR_MODE, s)
  else ((put mode s keys ksizes vals vsizes).1.code, (put mode s keys ksizes vals vsizes).2)

/-- Keys and values that a client can send: no key is empty, and their sizes fit in memory. -/
structure PutRequest (keys : Bytes) (ksizes : List ℕ) (vals : Bytes) (vsizes : List ℕ) : Prop where
  ne_nil : ksizes ≠ []
  length_eq : vsizes.length = ksizes.length
  zero_notMem : 0 ∉ ksizes
  keys_eq : keys.length = ksizes.sum
  vals_eq : vals.length = vsizes.sum
  fit : 16 * ksizes.length + keys.length + vals.length < 2 ^ 64

namespace PutRequest

theorem accumulate_ksizes (h : PutRequest keys ksizes vals vsizes) :
    accumulate ksizes = keys.length := by
  have hfit := h.fit
  rw [accumulate_eq (by rw [← h.keys_eq]; omega), h.keys_eq]

theorem accumulate_vsizes (h : PutRequest keys ksizes vals vsizes) :
    accumulate vsizes = vals.length := by
  have hfit := h.fit
  rw [accumulate_eq (by rw [← h.vals_eq]; omega), h.vals_eq]

theorem keys_ne_nil (h : PutRequest keys ksizes vals vsizes) : 0 < keys.length := by
  rcases hk : ksizes with _ | ⟨size, sizes⟩
  · exact absurd hk h.ne_nil
  · have hzero : size ≠ 0 := fun hz => h.zero_notMem (by rw [hk, hz]; exact List.mem_cons_self)
    have hsum := h.keys_eq
    rw [hk, List.sum_cons] at hsum
    omega

/-- The handler finds the sizes, the keys and the values where they lie in the bulk. -/
theorem ykPutUlt_eq (h : PutRequest keys ksizes vals vsizes)
    (hpool : 16 * ksizes.length + keys.length + vals.length ≤ pooled.length) (s : σ) :
    ykPutUlt mode ksizes.length (sizesMemory ksizes ++ (sizesMemory vsizes ++ (keys ++ vals))) 0
        (16 * ksizes.length + keys.length + vals.length) pooled s =
      if !supportsMode σ mode then (.ERR_MODE, s)
      else ((put mode s keys ksizes vals vsizes).1.code,
        (put mode s keys ksizes vals vsizes).2) := by
  have hfit := h.fit
  have hksum := h.keys_eq
  have hvsum := h.vals_eq
  have hpos := h.keys_ne_nil
  have hklt : ∀ size ∈ ksizes, size < 2 ^ 64 := fun size hsize => by
    have := List.single_le_sum (l := ksizes) (by simp) _ hsize
    omega
  have hvlt : ∀ size ∈ vsizes, size < 2 ^ 64 := fun size hsize => by
    have := List.single_le_sum (l := vsizes) (by simp) _ hsize
    omega
  have hvlen := h.length_eq
  have hks : (sizesMemory ksizes).length = 8 * ksizes.length := length_sizesMemory ksizes
  have hvs : (sizesMemory vsizes).length = 8 * ksizes.length := by
    rw [length_sizesMemory, hvlen]
  have hbulk : (sizesMemory ksizes ++ (sizesMemory vsizes ++ (keys ++ vals))).length =
      16 * ksizes.length + keys.length + vals.length := by
    simp only [List.length_append, hks, hvs]
    omega
  -- all of the bulk is pulled to the front of the buffer
  have hpull := bulkTransfer_front pooled
    (sizesMemory ksizes ++ (sizesMemory vsizes ++ (keys ++ vals))) hbulk.ge hpool
  rw [List.take_of_length_le hbulk.le] at hpull
  generalize pooled.drop (16 * ksizes.length + keys.length + vals.length) = rest at hpull
  simp only [List.append_assoc] at hpull
  have hkread : sizesOfMemory ksizes.length
      (sizesMemory ksizes ++ (sizesMemory vsizes ++ (keys ++ (vals ++ rest)))) = ksizes :=
    sizesOfMemory_append hklt _
  have hdrop : (sizesMemory ksizes ++ (sizesMemory vsizes ++ (keys ++ (vals ++ rest)))).drop
      (8 * ksizes.length) = sizesMemory vsizes ++ (keys ++ (vals ++ rest)) := by
    rw [← hks, List.drop_left]
  have hvread : sizesOfMemory ksizes.length (sizesMemory vsizes ++ (keys ++ (vals ++ rest))) =
      vsizes := by
    rw [← hvlen]
    exact sizesOfMemory_append hvlt _
  have hkslice : slice (sizesMemory ksizes ++ (sizesMemory vsizes ++ (keys ++ (vals ++ rest))))
      (8 * ksizes.length + 8 * ksizes.length) keys.length = keys := by
    have hmiddle := slice_middle (sizesMemory ksizes ++ sizesMemory vsizes) keys (vals ++ rest)
    rwa [List.length_append, hks, hvs, List.append_assoc] at hmiddle
  have hvslice : slice (sizesMemory ksizes ++ (sizesMemory vsizes ++ (keys ++ (vals ++ rest))))
      (8 * ksizes.length + 8 * ksizes.length + keys.length) vals.length = vals := by
    have hmiddle := slice_middle (sizesMemory ksizes ++ sizesMemory vsizes ++ keys) vals rest
    rwa [List.length_append, List.length_append, hks, hvs, List.append_assoc,
      List.append_assoc] at hmiddle
  have hsize : ¬ 16 * ksizes.length + keys.length + vals.length <
      addSize (addSize (2 * ksizes.length * 8) keys.length) vals.length := by
    have hinner : addSize (2 * ksizes.length * 8) keys.length =
        2 * ksizes.length * 8 + keys.length := addSize_eq (by omega)
    rw [hinner, addSize_eq (by omega)]
    omega
  unfold ykPutUlt
  split_ifs with hmode
  · rfl
  · omega
  · rw [hpull]
    simp only [hkread, hdrop, hvread, h.accumulate_ksizes, h.accumulate_vsizes,
      if_neg h.zero_notMem, if_neg hsize, hkslice, hvslice]

/-- Through RDMA the client is answered what the database does with its arrays. -/
theorem ykPutBulk_eq (h : PutRequest keys ksizes vals vsizes) (mode : Mode)
    (hpool : 16 * ksizes.length + keys.length + vals.length ≤ pooled.length) (s : σ) :
    ykPutBulk mode ksizes.length (sizesMemory ksizes ++ (sizesMemory vsizes ++ (keys ++ vals))) 0
        (16 * ksizes.length + keys.length + vals.length) pooled s =
      putAnswer mode s keys ksizes vals vsizes := by
  have hpos := h.keys_ne_nil
  rw [ykPutBulk, if_neg (by omega), h.ykPutUlt_eq hpool, putAnswer]
  rcases checkModeValid mode with _ | _ <;> rcases supportsMode σ mode with _ | _ <;> rfl

/-- Without RDMA it is answered the same. -/
theorem ykPutDirect_eq (h : PutRequest keys ksizes vals vsizes) {values : Option Bytes}
    (hvalues : values.getD [] = vals) (s : σ) :
    ykPutDirect mode keys ksizes values vsizes s = putAnswer mode s keys ksizes vals vsizes := by
  have hnull : ¬ (values.isNone ∧ accumulate vsizes ≠ 0) := by
    rintro ⟨hnone, hne⟩
    rw [h.accumulate_vsizes, ← hvalues, Option.isNone_iff_eq_none.1 hnone] at hne
    exact hne rfl
  rw [ykPutDirect, if_neg (by rw [List.length_eq_zero_iff]; exact h.ne_nil), if_neg hnull, hvalues,
    h.accumulate_ksizes, h.accumulate_vsizes, List.take_length, List.take_length, ykPutDirectUlt,
    if_neg h.zero_notMem, putAnswer]
  rcases checkModeValid mode with _ | _ <;> rcases supportsMode σ mode with _ | _ <;> rfl

/-- `yk_put_packed`. -/
theorem ykPutPacked_eq (h : PutRequest keys ksizes vals vsizes) {values : Option Bytes}
    (hvalues : values.getD [] = vals)
    (hpool : 16 * ksizes.length + keys.length + vals.length ≤ pooled.length) (s : σ) :
    ykPutPacked mode keys ksizes values vsizes pooled s =
      putAnswer mode s keys ksizes vals vsizes := by
  have hfit := h.fit
  have hpos := h.keys_ne_nil
  unfold ykPutPacked
  split_ifs with hrdma hcount
  · exact h.ykPutDirect_eq hvalues s
  · exact absurd (List.length_eq_zero_iff.1 hcount) h.ne_nil
  · have hnull : ¬ (vals.length ≠ 0 ∧ values.isNone) := by
      rintro ⟨hne, hnone⟩
      rw [← hvalues, Option.isNone_iff_eq_none.1 hnone] at hne
      exact hne rfl
    have hsize : accumulate [8 * ksizes.length, 8 * ksizes.length, keys.length, vals.length] =
        16 * ksizes.length + keys.length + vals.length := by
      rw [accumulate_eq (by simp only [List.sum_cons, List.sum_nil]; omega)]
      simp only [List.sum_cons, List.sum_nil]
      omega
    have hlast : (if vals.length ≠ 0 then [vals] else []).flatten = vals := by
      split_ifs with hne
      · simp
      · simpa using (List.length_eq_zero_iff.1 (not_not.1 hne)).symm
    simp only [h.accumulate_ksizes, h.accumulate_vsizes, hvalues, List.take_length,
      if_neg (show keys.length ≠ 0 by omega), if_neg hnull, hsize]
    rw [← h.ykPutBulk_eq mode hpool s, List.flatten_append, hlast]
    simp

/-- `yk_put_multi`. -/
theorem ykPutMulti_eq {keys values : List Bytes}
    (h : PutRequest keys.flatten (keys.map List.length) values.flatten (values.map List.length))
    (hpool : 16 * keys.length + keys.flatten.length + values.flatten.length ≤ pooled.length)
    (s : σ) :
    ykPutMulti mode keys values pooled s =
      putAnswer mode s keys.flatten (keys.map List.length) values.flatten
        (values.map List.length) := by
  have hfit := h.fit
  have hlen : values.length = keys.length := by simpa using h.length_eq
  rw [List.length_map] at hfit
  unfold ykPutMulti
  simp only [if_neg h.zero_notMem]
  split_ifs with hcount hrdma hsingle
  · exact absurd (by rw [List.length_eq_zero_iff.1 hcount, List.map_nil]) h.ne_nil
  · obtain ⟨key, rfl⟩ := List.length_eq_one_iff.1 hsingle
    obtain ⟨value, rfl⟩ := List.length_eq_one_iff.1 (hlen.trans hsingle)
    have hvalue : (some value).getD [] = [value].flatten := (List.append_nil value).symm
    simpa using h.ykPutDirect_eq hvalue s
  · exact h.ykPutDirect_eq rfl s
  · have hflat : (values.filter (· ≠ [])).flatten = values.flatten := List.flatten_filter_ne_nil
    have hsize : accumulate (([sizesMemory (keys.map List.length),
        sizesMemory (values.map List.length)] ++ keys ++ values.filter (· ≠ [])).map List.length) =
          16 * keys.length + keys.flatten.length + values.flatten.length := by
      have hsum : (([sizesMemory (keys.map List.length), sizesMemory (values.map List.length)] ++
          keys ++ values.filter (· ≠ [])).map List.length).sum =
            16 * keys.length + keys.flatten.length + values.flatten.length := by
        rw [← List.length_flatten, List.flatten_append, List.flatten_append, hflat]
        simp only [List.flatten_cons, List.flatten_nil, List.append_nil, List.length_append,
          length_sizesMemory, List.length_map, hlen]
        omega
      rw [accumulate_eq (by omega), hsum]
    have hbulk := h.ykPutBulk_eq mode (by rwa [List.length_map]) s
    rw [List.length_map] at hbulk
    rw [hsize, List.flatten_append, List.flatten_append, hflat, ← hbulk]
    simp

end PutRequest

end PutLayout

/-! ### `list_keyvals` on both sides -/

section ListLayout

variable {db : ListingBackend} {mode : Mode} {packed : Bool} {fromKey filterData : Bytes}
  {ksizes vsizes : List ℕ} {keys vals pooled : Bytes}

/-- What a client is answered that lists keys and values into some columns. -/
def listAnswer (db : ListingBackend) (mode : Mode) (packed : Bool) (fromKey filterData : Bytes)
    (keys : Bytes) (ksizes : List ℕ) (vals : Bytes) (vsizes : List ℕ) :
    Except ReturnCode (ColumnOutput × ColumnOutput) :=
  if !checkModeValid mode || !db.supportsMode mode then .error .ERR_MODE
  else
    match db.makeKeyValueFilter mode filterData with
    | none => .error .ERR_INVALID_FILTER
    | some filter =>
      let out := db.listKeyValues mode packed fromKey filter keys ksizes vals vsizes
      if out.1 = .OK then .ok out.2 else .error out.1.code

/-- Columns that a client can pass: as many sizes for the keys as for the values, and unless the
items are packed, buffers that hold their slots. -/
structure ListRequest (packed : Bool) (keys : Bytes) (ksizes : List ℕ) (vals : Bytes)
    (vsizes : List ℕ) : Prop where
  ne_nil : ksizes ≠ []
  length_eq : vsizes.length = ksizes.length
  ksizes_lt : ∀ size ∈ ksizes, size < 2 ^ 64
  vsizes_lt : ∀ size ∈ vsizes, size < 2 ^ 64
  slots_le : packed = false → ksizes.sum ≤ keys.length ∧ vsizes.sum ≤ vals.length
  fit : 16 * ksizes.length + keys.length + vals.length < 2 ^ 64

theorem ListRequest.keys_le (h : ListRequest packed keys ksizes vals vsizes) :
    keys.length ≤ lastValidSize := by
  have hpos := List.length_pos_iff.2 h.ne_nil
  have hfit := h.fit
  unfold lastValidSize
  omega

theorem ListRequest.vals_le (h : ListRequest packed keys ksizes vals vsizes) :
    vals.length ≤ lastValidSize := by
  have hpos := List.length_pos_iff.2 h.ne_nil
  have hfit := h.fit
  unfold lastValidSize
  omega

/-- The columns that a listing returns have the shape of those that it was given. -/
theorem listAnswer_ok (db : ListingBackend) (mode : Mode) (fromKey filterData : Bytes)
    (h : ListRequest packed keys ksizes vals vsizes) (k v : ColumnOutput)
    (hok : listAnswer db mode packed fromKey filterData keys ksizes vals vsizes = .ok (k, v)) :
    (k.buf.length = keys.length ∧ k.sizes.length = ksizes.length ∧
        ∀ size ∈ k.sizes, size < 2 ^ 64) ∧
      v.buf.length = vals.length ∧ v.sizes.length = ksizes.length ∧
        ∀ size ∈ v.sizes, size < 2 ^ 64 := by
  have hfit := h.fit
  unfold listAnswer at hok
  split_ifs at hok
  rcases hfilter : db.makeKeyValueFilter mode filterData with _ | filter
  · rw [hfilter] at hok
    cases hok
  · rw [hfilter] at hok
    obtain ⟨status, kw, vw, hk, hv, hlist⟩ := db.onlyWrites hfilter packed fromKey keys.length
      vals.length ksizes vsizes h.keys_le h.vals_le h.length_eq.symm h.slots_le
    obtain ⟨hstatus, hout⟩ := hlist keys ksizes vals vsizes rfl rfl rfl rfl fun _ => ⟨rfl, rfl⟩
    simp only at hok
    split_ifs at hok with hOK
    obtain ⟨rfl, rfl⟩ := Prod.mk.inj ((hout (hstatus.symm.trans hOK)).symm.trans (Except.ok.inj hok))
    exact ⟨⟨(Patch.length_apply hk.length_patch.symm).trans hk.length_patch, hk.length_sizes,
      hk.sizes_lt⟩, (Patch.length_apply hv.length_patch.symm).trans hv.length_patch,
      hv.length_sizes.trans h.length_eq, hv.sizes_lt⟩

/-- What lies behind the pulled part of a buffer is what its last user left there. -/
theorem slice_pulled {pulled pooled : Bytes} {off : ℕ} (h : pulled.length ≤ off) (n : ℕ) :
    slice (pulled ++ pooled.drop pulled.length) off n = slice pooled off n := by
  obtain ⟨d, rfl⟩ := Nat.exists_eq_add_of_le h
  rw [slice_append_right, slice_drop]

/-- The sizes that the handler passes on. Those of packed items are not pulled: the array holds
what the buffer did. -/
def pooledSizes (packed : Bool) (pooled : Bytes) (off : ℕ) (sizes : List ℕ) : List ℕ :=
  if packed then sizesOfMemory sizes.length (pooled.drop off) else sizes

theorem length_pooledSizes (packed : Bool) (pooled : Bytes) (off : ℕ) (sizes : List ℕ) :
    (pooledSizes packed pooled off sizes).length = sizes.length := by
  unfold pooledSizes
  split_ifs
  · exact length_sizesOfMemory _ _
  · rfl

theorem sizesOfMemory_lt {n : ℕ} {memory : Bytes} : ∀ size ∈ sizesOfMemory n memory, size < 2 ^ 64 := by
  induction n generalizing memory with
  | zero => simp [sizesOfMemory]
  | succ n ih =>
    intro size hsize
    rw [sizesOfMemory, List.replicate_succ, unpack_cons, List.map_cons, List.mem_cons] at hsize
    rcases hsize with rfl | hsize
    · have hlt := LittleEndian.decode_lt (memory.take 8)
      have hle : (memory.take 8).length ≤ 8 := by rw [List.length_take]; omega
      calc LittleEndian.decode (memory.take 8) < 256 ^ (memory.take 8).length := hlt
        _ ≤ 256 ^ 8 := Nat.pow_le_pow_right (by decide) hle
        _ = 2 ^ 64 := by decide
    · exact ih size hsize

/-- Other regions and sizes of the same lengths make a request too. -/
theorem ListRequest.regions (h : ListRequest packed keys ksizes vals vsizes) (pooled : Bytes)
    {keys' vals' : Bytes} (hkeys : keys'.length = keys.length) (hvals : vals'.length = vals.length) (off off' : ℕ) :
    ListRequest packed keys' (pooledSizes packed pooled off ksizes) vals'
      (pooledSizes packed pooled off' vsizes) := by
  have hklen := length_pooledSizes packed pooled off ksizes
  have hvlen := length_pooledSizes packed pooled off' vsizes
  constructor
  · intro hnil
    rw [hnil] at hklen
    exact h.ne_nil (List.length_eq_zero_iff.1 hklen.symm)
  · rw [hvlen, hklen, h.length_eq]
  · unfold pooledSizes
    split_ifs
    · exact sizesOfMemory_lt
    · exact h.ksizes_lt
  · unfold pooledSizes
    split_ifs
    · exact sizesOfMemory_lt
    · exact h.vsizes_lt
  · intro hpacked
    rw [hkeys, hvals, pooledSizes, pooledSizes, hpacked]
    exact h.slots_le hpacked
  · rw [hkeys, hvals, hklen]
    exact h.fit

/-- The memory of a client in a listing. -/
def listMemory (fromKey filterData : Bytes) (ksizes vsizes : List ℕ) (keys vals : Bytes) : Bytes :=
  fromKey ++ (filterData ++ (sizesMemory ksizes ++ (sizesMemory vsizes ++ (keys ++ vals))))

/-- What the handler pulls: the first key, the filter and, unless the items are packed, the sizes.
The columns behind them hold what the buffer did. -/
theorem exists_pulled (fromKey filterData pooled : Bytes)
    (h : ListRequest packed keys ksizes vals vsizes)
    (hpool : fromKey.length + filterData.length + 16 * ksizes.length + keys.length + vals.length ≤
      pooled.length) :
    let front := fromKey.length + filterData.length
    let size := front + if packed then 0 else 2 * ksizes.length * 8
    ∃ tail : Bytes,
      (if 0 < size then
          bulkTransfer pooled 0 (listMemory fromKey filterData ksizes vsizes keys vals) 0 size
        else some pooled) = some (fromKey ++ (filterData ++ tail)) ∧
      tail.length = pooled.length - front ∧
      sizesOfMemory ksizes.length tail = pooledSizes packed pooled front ksizes ∧
      sizesOfMemory ksizes.length (tail.drop (8 * ksizes.length)) =
        pooledSizes packed pooled (front + 8 * ksizes.length) vsizes ∧
      tail.drop (16 * ksizes.length) = pooled.drop (front + 16 * ksizes.length) := by
  intro front size
  have hks : (sizesMemory ksizes).length = 8 * ksizes.length := length_sizesMemory ksizes
  have hvs : (sizesMemory vsizes).length = 8 * ksizes.length := by
    rw [length_sizesMemory, h.length_eq]
  have hbulk : (listMemory fromKey filterData ksizes vsizes keys vals).length =
      front + 16 * ksizes.length + keys.length + vals.length := by
    simp only [listMemory, List.length_append, hks, hvs]
    omega
  -- the pull fills the front of the pooled buffer, and leaves the rest
  have hpull : ∀ pulled rest : Bytes, pulled.length = size →
      listMemory fromKey filterData ksizes vsizes keys vals = pulled ++ rest →
      (if 0 < size then
          bulkTransfer pooled 0 (listMemory fromKey filterData ksizes vsizes keys vals) 0 size
        else some pooled) = some (pulled ++ pooled.drop size) := by
    intro pulled rest hlen hsplit
    have hrest := congrArg List.length hsplit
    rw [List.length_append, hbulk] at hrest
    split_ifs with hpos
    · rw [bulkTransfer_front pooled _ (by omega) (by omega), hsplit, ← hlen, List.take_left]
    · have hzero : size = 0 := by omega
      rw [hzero, List.drop_zero, List.length_eq_zero_iff.1 (hlen.trans hzero), List.nil_append]
  cases packed with
  | true =>
    -- packed: no sizes are pulled, and the handler finds what the pooled buffer has there
    refine ⟨pooled.drop front, ?_, List.length_drop, rfl, ?_, ?_⟩
    · rw [hpull (fromKey ++ filterData) _ List.length_append (List.append_assoc ..).symm,
        List.append_assoc]
      rfl
    · rw [List.drop_drop, ← h.length_eq]
      rfl
    · rw [List.drop_drop]
  | false =>
    have hsize : size = front + 2 * ksizes.length * 8 := rfl
    refine ⟨sizesMemory ksizes ++ (sizesMemory vsizes ++ pooled.drop size), ?_, ?_, ?_, ?_, ?_⟩
    · rw [hpull (fromKey ++ (filterData ++ (sizesMemory ksizes ++ sizesMemory vsizes))) (keys ++ vals)]
      · simp only [List.append_assoc]
      · simp only [List.length_append, hks, hvs]
        omega
      · simp only [listMemory, List.append_assoc]
    · simp only [List.length_append, List.length_drop, hks, hvs]
      omega
    · exact sizesOfMemory_append h.ksizes_lt _
    · rw [← hks, List.drop_left, hks, ← h.length_eq]
      exact sizesOfMemory_append h.vsizes_lt _
    · have hsixteen : size = front + 16 * ksizes.length := by omega
      rw [← List.append_assoc, List.drop_left' (by rw [List.length_append, hks, hvs]; omega),
        hsixteen]

/-- The handler finds the first key, the filter and the sizes where they lie in the bulk, and what
it pushes lands where the arrays of the client lie. -/
theorem ykListKeyvalsBulk_eq (db : ListingBackend) (mode : Mode) (fromKey filterData : Bytes)
    (h : ListRequest packed keys ksizes vals vsizes) {front offset : ℕ}
    (hfront : fromKey.length + filterData.length = front)
    (hoffset : front + 16 * ksizes.length = offset)
    (hpool : offset + keys.length + vals.length ≤ pooled.length) :
    ykListKeyvalsBulk db mode fromKey.length filterData.length
        (listMemory fromKey filterData ksizes vsizes keys vals) 0 keys.length vals.length packed
        ksizes.length pooled =
      match listAnswer db mode packed fromKey filterData (slice pooled offset keys.length)
        (pooledSizes packed pooled front ksizes)
        (slice pooled (offset + keys.length) vals.length)
        (pooledSizes packed pooled (front + 8 * ksizes.length) vsizes) with
      | .error ret => (ret, listMemory fromKey filterData ksizes vsizes keys vals)
      | .ok (k, v) => (.SUCCESS, listMemory fromKey filterData k.sizes v.sizes k.buf v.buf) := by
  have hcount : ksizes.length ≠ 0 := fun hz => h.ne_nil (List.length_eq_zero_iff.1 hz)
  obtain ⟨tail, hpull, htail, hkread, hvread, hcols⟩ := exists_pulled fromKey filterData pooled h
    (by omega)
  rw [hfront] at hpull htail hkread hvread hcols
  have hlenfront : (fromKey ++ filterData).length = front := by rw [List.length_append, hfront]
  have hdrop : ∀ d, (fromKey ++ (filterData ++ tail)).drop (front + d) = tail.drop d := by
    intro d
    rw [← List.append_assoc, ← hlenfront, ← List.drop_drop, List.drop_left]
  have hregion : ∀ d n, slice (fromKey ++ (filterData ++ tail)) (offset + d) n =
      slice pooled (offset + d) n := by
    intro d n
    have hback : (fromKey ++ (filterData ++ tail)).drop offset = pooled.drop offset := by
      rw [← hoffset, hdrop, hcols]
    rw [← slice_drop, hback, slice_drop]
  have hkregion : (slice pooled offset keys.length).length = keys.length :=
    length_slice_of_le (by omega)
  have hvregion : (slice pooled (offset + keys.length) vals.length).length = vals.length :=
    length_slice_of_le (by omega)
  have hfromread : slice (fromKey ++ (filterData ++ tail)) 0 fromKey.length = fromKey :=
    slice_full _ _
  have hfilterread : slice (fromKey ++ (filterData ++ tail)) fromKey.length filterData.length =
      filterData := slice_middle _ _ _
  -- what the handler does with the columns that the database returns
  have hpush : ∀ k v : ColumnOutput,
      k.buf.length = keys.length → k.sizes.length = ksizes.length →
      v.buf.length = vals.length → v.sizes.length = ksizes.length →
      bulkTransfer (listMemory fromKey filterData ksizes vsizes keys vals) (0 + front)
        (blit (blit (blit (blit (fromKey ++ (filterData ++ tail)) front (sizesMemory k.sizes))
          (front + 8 * ksizes.length) (sizesMemory v.sizes))
          (front + 8 * ksizes.length + 8 * ksizes.length) k.buf)
          (front + 8 * ksizes.length + 8 * ksizes.length + keys.length) v.buf) front
        (2 * ksizes.length * 8 + keys.length + vals.length) =
      some (listMemory fromKey filterData k.sizes v.sizes k.buf v.buf) := by
    intro k v hkbuf hksizes hvbuf hvsizes
    have hkarray : (sizesMemory k.sizes).length = 8 * ksizes.length := by
      rw [length_sizesMemory, hksizes]
    have hvarray : (sizesMemory v.sizes).length = 8 * ksizes.length := by
      rw [length_sizesMemory, hvsizes]
    have hbuffer : (fromKey ++ (filterData ++ tail)).length = pooled.length := by
      simp only [List.length_append, htail]
      omega
    have hlen : ∀ (l src : Bytes) (off : ℕ), off + src.length ≤ pooled.length →
        l.length = pooled.length → (blit l off src).length = pooled.length :=
      fun l src off hle hl => (length_blit (by omega)).trans hl
    -- the four writes are one write behind what was pulled for good
    have hone := hlen _ (sizesMemory k.sizes) front (by omega) hbuffer
    have htwo := hlen _ (sizesMemory v.sizes) (front + 8 * ksizes.length) (by omega) hone
    rw [blit_blit_of_eq (by omega) (by rw [htwo]; omega),
      blit_blit_of_eq (by omega) (by rw [hone]; omega),
      blit_blit_of_eq (by omega) (by rw [hbuffer]; omega)]
    have hall : (sizesMemory k.sizes ++ (sizesMemory v.sizes ++ (k.buf ++ v.buf))).length =
        2 * ksizes.length * 8 + keys.length + vals.length := by
      simp only [List.length_append, hkarray, hvarray, hkbuf, hvbuf]
      omega
    have hbulk : (listMemory fromKey filterData ksizes vsizes keys vals).length =
        front + (2 * ksizes.length * 8 + keys.length + vals.length) := by
      simp only [listMemory, List.length_append, length_sizesMemory, h.length_eq]
      omega
    rw [bulkTransfer, if_pos ⟨by omega, by rw [hlen _ _ _ (by omega) hbuffer]; omega⟩, Nat.zero_add,
      ← hall, slice_blit_same (by omega)]
    have hsplit : listMemory fromKey filterData ksizes vsizes keys vals = fromKey ++ filterData ++
        (sizesMemory ksizes ++ (sizesMemory vsizes ++ (keys ++ vals))) :=
      (List.append_assoc ..).symm
    rw [hsplit, ← hlenfront, blit_append_right, List.drop_eq_nil_of_le]
    · simp only [listMemory, List.append_assoc, List.append_nil]
    · rw [hall]
      simp only [List.length_append, length_sizesMemory, h.length_eq]
      omega
  have hrequest := h.regions pooled hkregion hvregion front (front + 8 * ksizes.length)
  have hanswer := listAnswer_ok db mode fromKey filterData hrequest
  rw [length_pooledSizes, hkregion, hvregion] at hanswer
  have hsize : ¬ fromKey.length + filterData.length + 2 * ksizes.length * 8 + keys.length +
      vals.length = 0 := by
    omega
  have hkregion₀ := hregion 0 keys.length
  have hkread₀ := hdrop 0
  have hcolumns : front + 8 * ksizes.length + 8 * ksizes.length = offset := by omega
  rw [Nat.add_zero] at hkregion₀ hkread₀
  rw [hcolumns] at hpush
  unfold ykListKeyvalsBulk ykListKeyvalsUlt
  unfold listAnswer at hanswer ⊢
  rw [if_neg hcount]
  simp only [hfront, hcolumns] at hsize ⊢
  rcases hvalid : checkModeValid mode with _ | _
  · rfl
  rcases hmode : db.supportsMode mode with _ | _
  · rfl
  rw [hvalid, hmode] at hanswer
  simp only [Bool.not_true, Bool.false_eq_true, Bool.or_self, if_false, if_neg hsize, hpull,
    hfromread, hfilterread] at hanswer ⊢
  rcases hfilter : db.makeKeyValueFilter mode filterData with _ | filter
  · rfl
  · rw [hfilter] at hanswer
    simp only [hkread₀, List.drop_zero, hdrop, hkread, hvread, hkregion₀, hregion] at hanswer ⊢
    generalize db.listKeyValues mode packed fromKey filter _ _ _ _ = out at hanswer ⊢
    obtain ⟨status, k, v⟩ := out
    by_cases hOK : status = .OK
    · obtain ⟨⟨hkbuf, hksizes, -⟩, hvbuf, hvsizes, -⟩ := hanswer k v (if_pos hOK)
      simp only [if_pos hOK, hpush k v hkbuf hksizes hvbuf hvsizes]
    · simp only [if_neg hOK]

/-! ### The segments of the client -/

theorem flatten_exposed (slots : List Bytes) : (exposed slots).flatten = slots.flatten :=
  List.flatten_filter_ne_nil

theorem sum_exposed (slots : List Bytes) :
    ((exposed slots).map List.length).sum = slots.flatten.length := by
  rw [← List.length_flatten, flatten_exposed]

/-- What lies behind the segments of some slots is found in the slots; an empty slot has no
segment and holds nothing. -/
theorem landed_unpack (slots : List Bytes) (memory : Bytes) (more : List Bytes) :
    landed slots (unpack memory ((exposed slots).map List.length) ++ more) =
      unpack memory (slots.map List.length) := by
  induction slots generalizing memory with
  | nil => rfl
  | cons slot slots ih =>
    by_cases hslot : slot = []
    · subst hslot
      rw [landed, if_pos rfl, exposed, List.filter_cons_of_neg (by simp), ← exposed, ih,
        List.map_cons, unpack_cons]
      rfl
    · rw [landed, if_neg hslot, exposed, List.filter_cons_of_pos (by simpa using hslot), ← exposed,
        List.map_cons, unpack_cons, List.cons_append, List.headD_cons, List.tail_cons, ih,
        List.map_cons, unpack_cons]

/-- The memory of a client after a push, cut back into its segments. -/
theorem drop_unpack_segments (front : List Bytes) (keys vals : Bytes) {ksegment vsegment : Bytes}
    {n : ℕ} (hk : ksegment.length = n) (hv : vsegment.length = n) (ns : List ℕ) :
    (unpack (front.flatten ++ (ksegment ++ (vsegment ++ (keys ++ vals))))
        (front.map List.length ++ (n :: n :: ns))).drop front.length =
      ksegment :: vsegment :: unpack (keys ++ vals) ns := by
  rw [unpack_flatten_append_sizes, List.drop_left, unpack_cons, unpack_cons,
    List.take_left' hk, List.drop_left' hk, List.take_left' hv, List.drop_left' hv]

theorem flatten_front (fromKey filterData : Bytes) :
    (exposed [fromKey] ++ exposed [filterData]).flatten = fromKey ++ filterData := by
  rw [List.flatten_append, flatten_exposed, flatten_exposed]
  simp

/-- The slots of a client hold what lies in its memory. -/
theorem slotArrays_unpack {keys vals : List Bytes} {kbuf vbuf : Bytes}
    (hksizes : ksizes.length = keys.length) (hvsizes : vsizes.length = keys.length)
    (hkbuf : kbuf.length = keys.flatten.length) (hklt : ∀ size ∈ ksizes, size < 2 ^ 64)
    (hvlt : ∀ size ∈ vsizes, size < 2 ^ 64) :
    let front := exposed [fromKey] ++ exposed [filterData]
    slotArrays keys vals ((unpack (listMemory fromKey filterData ksizes vsizes kbuf vbuf)
        (front.map List.length ++ (8 * keys.length :: 8 * keys.length ::
          ((exposed keys).map List.length ++ (exposed vals).map List.length)))).drop front.length) =
      ⟨unpack kbuf (keys.map List.length), ksizes, unpack vbuf (vals.map List.length), vsizes⟩ := by
  intro front
  have hfront : front.flatten = fromKey ++ filterData := flatten_front fromKey filterData
  have hsum := sum_exposed keys
  have hdrop := drop_unpack_segments front kbuf vbuf
    ((length_sizesMemory ksizes).trans (congrArg (8 * ·) hksizes))
    ((length_sizesMemory vsizes).trans (congrArg (8 * ·) hvsizes))
    ((exposed keys).map List.length ++ (exposed vals).map List.length)
  rw [hfront, List.append_assoc] at hdrop
  have hkread := sizesOfMemory_append hklt []
  have hvread := sizesOfMemory_append hvlt []
  rw [List.append_nil, hksizes] at hkread
  rw [List.append_nil, hvsizes] at hvread
  have hvals := landed_unpack vals vbuf []
  rw [List.append_nil] at hvals
  have hskip : (exposed keys).length = (unpack kbuf ((exposed keys).map List.length)).length := by
    rw [length_unpack, List.length_map]
  rw [listMemory, hdrop, unpack_append, unpack_append_left (by omega), hsum, ← hkbuf,
    List.drop_left, slotArrays, landed_unpack, hkread, hvread, hskip, List.drop_left, hvals]

/-- `yk_list_keyvals` passes the slots of the client to the database, and what the database writes
for a slot is found in the slot. -/
theorem ykListKeyvals_eq {keys vals : List Bytes}
    (h : ListRequest false keys.flatten (keys.map List.length) vals.flatten (vals.map List.length))
    {offset : ℕ} (hoffset : fromKey.length + filterData.length + 16 * keys.length = offset)
    (hpool : offset + keys.flatten.length + vals.flatten.length ≤ pooled.length) :
    ykListKeyvals db mode fromKey filterData keys vals pooled =
      match listAnswer db mode false fromKey filterData (slice pooled offset keys.flatten.length)
        (keys.map List.length) (slice pooled (offset + keys.flatten.length) vals.flatten.length)
        (vals.map List.length) with
      | .error ret => (ret, ⟨keys, keys.map List.length, vals, vals.map List.length⟩)
      | .ok (k, v) => (.SUCCESS, ⟨unpack k.buf (keys.map List.length), k.sizes,
          unpack v.buf (vals.map List.length), v.sizes⟩) := by
  have hcount : keys.length ≠ 0 := by
    intro hz
    exact h.ne_nil (by rw [List.length_eq_zero_iff.1 hz, List.map_nil])
  have hvlen : vals.length = keys.length := by simpa using h.length_eq
  have hfit := h.fit
  rw [List.length_map] at hfit
  have hktotal : accumulate (keys.map List.length) = keys.flatten.length := by
    rw [accumulate_eq (by rw [← List.length_flatten]; omega), List.length_flatten]
  have hvtotal : accumulate (vals.map List.length) = vals.flatten.length := by
    rw [accumulate_eq (by rw [← List.length_flatten]; omega), List.length_flatten]
  have hbulk := ykListKeyvalsBulk_eq db mode fromKey filterData h rfl
    (by rw [List.length_map]; exact hoffset) hpool
  rw [List.length_map, pooledSizes, pooledSizes, if_neg Bool.false_ne_true,
    if_neg Bool.false_ne_true] at hbulk
  have hkregion : (slice pooled offset keys.flatten.length).length = keys.flatten.length :=
    length_slice_of_le (by omega)
  have hvregion : (slice pooled (offset + keys.flatten.length) vals.flatten.length).length =
      vals.flatten.length := length_slice_of_le (by omega)
  -- the sizes that the handler finds are those of the slots, whatever was pooled
  have hregions : ListRequest false (slice pooled offset keys.flatten.length)
      (keys.map List.length) (slice pooled (offset + keys.flatten.length) vals.flatten.length)
      (vals.map List.length) := h.regions pooled hkregion hvregion 0 0
  have hflatten : (exposed [fromKey] ++ exposed [filterData] ++ ([sizesMemory (keys.map List.length),
      sizesMemory (vals.map List.length)] ++ (exposed keys ++ exposed vals))).flatten =
        listMemory fromKey filterData (keys.map List.length) (vals.map List.length) keys.flatten
          vals.flatten := by
    rw [List.flatten_append, flatten_front, List.flatten_append, List.flatten_append,
      flatten_exposed, flatten_exposed, listMemory]
    simp
  have hmap : (exposed [fromKey] ++ exposed [filterData] ++ ([sizesMemory (keys.map List.length),
      sizesMemory (vals.map List.length)] ++ (exposed keys ++ exposed vals))).map List.length =
        (exposed [fromKey] ++ exposed [filterData]).map List.length ++
          (8 * keys.length :: 8 * keys.length :: ((exposed keys).map List.length ++
            (exposed vals).map List.length)) := by
    simp [hvlen]
  unfold ykListKeyvals
  simp only [if_neg hcount, hktotal, hvtotal, hflatten, hmap, hbulk]
  rcases hanswer : listAnswer db mode false fromKey filterData
    (slice pooled offset keys.flatten.length) (keys.map List.length)
    (slice pooled (offset + keys.flatten.length) vals.flatten.length) (vals.map List.length)
      with ret | ⟨k, v⟩
  · -- nothing was pushed
    simp only
    rw [slotArrays_unpack (by simp) (by simp [hvlen]) rfl h.ksizes_lt h.vsizes_lt, unpack_flatten,
      unpack_flatten]
  · obtain ⟨⟨hkbuf, hksizes, hklt⟩, -, hvsizes, hvlt⟩ := listAnswer_ok db mode fromKey filterData hregions k v hanswer
    rw [List.length_map] at hksizes hvsizes
    simp only
    rw [slotArrays_unpack hksizes hvsizes (hkbuf.trans hkregion) hklt hvlt]

/-- The packed regions of a client hold what lies in its memory. -/
theorem packedArrays_unpack {mem : ListArrays Bytes} {kbuf vbuf : Bytes}
    (hksizes : ksizes.length = mem.ksizes.length) (hvsizes : vsizes.length = mem.ksizes.length)
    (hkbuf : kbuf.length = mem.keys.length) (hvbuf : vbuf.length = mem.vals.length)
    (hklt : ∀ size ∈ ksizes, size < 2 ^ 64) (hvlt : ∀ size ∈ vsizes, size < 2 ^ 64) :
    let front := exposed [fromKey] ++ exposed [filterData]
    packedArrays mem ((unpack (listMemory fromKey filterData ksizes vsizes kbuf vbuf)
        (front.map List.length ++ (8 * mem.ksizes.length :: 8 * mem.ksizes.length ::
          [mem.keys.length, mem.vals.length]))).drop front.length) =
      ⟨kbuf, ksizes, vbuf, vsizes⟩ := by
  intro front
  have hfront : front.flatten = fromKey ++ filterData := flatten_front fromKey filterData
  have hdrop := drop_unpack_segments front kbuf vbuf
    ((length_sizesMemory ksizes).trans (congrArg (8 * ·) hksizes))
    ((length_sizesMemory vsizes).trans (congrArg (8 * ·) hvsizes))
    [mem.keys.length, mem.vals.length]
  rw [hfront, List.append_assoc] at hdrop
  have hkread := sizesOfMemory_append hklt []
  have hvread := sizesOfMemory_append hvlt []
  rw [List.append_nil, hksizes] at hkread
  rw [List.append_nil, hvsizes] at hvread
  rw [listMemory, hdrop, unpack_cons, unpack_cons, unpack_nil, List.take_left' hkbuf,
    List.drop_left' hkbuf, ← hvbuf, List.take_length, packedArrays, hkread, hvread]

/-- Through RDMA, `yk_list_keyvals_packed` hands back what the database writes. -/
theorem ykListKeyvalsPacked_eq {mem : ListArrays Bytes}
    (h : ListRequest true mem.keys mem.ksizes mem.vals mem.vsizes) (hrdma : mode.has .noRdma = false)
    {front offset : ℕ} (hfront : fromKey.length + filterData.length = front)
    (hoffset : front + 16 * mem.ksizes.length = offset)
    (hpool : offset + mem.keys.length + mem.vals.length ≤ pooled.length) :
    ykListKeyvalsPacked db mode fromKey filterData mem pooled =
      match listAnswer db mode true fromKey filterData (slice pooled offset mem.keys.length)
        (pooledSizes true pooled front mem.ksizes)
        (slice pooled (offset + mem.keys.length) mem.vals.length)
        (pooledSizes true pooled (front + 8 * mem.ksizes.length) mem.vsizes) with
      | .error ret => (ret, mem)
      | .ok (k, v) => (.SUCCESS, ⟨k.buf, k.sizes, v.buf, v.sizes⟩) := by
  have hcount : mem.ksizes.length ≠ 0 := fun hz => h.ne_nil (List.length_eq_zero_iff.1 hz)
  have hbulk := ykListKeyvalsBulk_eq db mode fromKey filterData h hfront hoffset hpool
  have hkregion : (slice pooled offset mem.keys.length).length = mem.keys.length :=
    length_slice_of_le (by omega)
  have hvregion : (slice pooled (offset + mem.keys.length) mem.vals.length).length =
      mem.vals.length := length_slice_of_le (by omega)
  have hregions := h.regions pooled hkregion hvregion front
    (front + 8 * mem.ksizes.length)
  have hflatten : (exposed [fromKey] ++ exposed [filterData] ++ [sizesMemory mem.ksizes,
      sizesMemory mem.vsizes, mem.keys, mem.vals]).flatten =
        listMemory fromKey filterData mem.ksizes mem.vsizes mem.keys mem.vals := by
    rw [List.flatten_append, flatten_front, listMemory]
    simp
  have hmap : (exposed [fromKey] ++ exposed [filterData] ++ [sizesMemory mem.ksizes,
      sizesMemory mem.vsizes, mem.keys, mem.vals]).map List.length =
        (exposed [fromKey] ++ exposed [filterData]).map List.length ++
          (8 * mem.ksizes.length :: 8 * mem.ksizes.length ::
            [mem.keys.length, mem.vals.length]) := by
    simp [h.length_eq]
  unfold ykListKeyvalsPacked
  simp only [hrdma, Bool.false_eq_true, if_false, if_neg hcount, hflatten, hmap, hbulk]
  rcases hanswer : listAnswer db mode true fromKey filterData (slice pooled offset mem.keys.length)
    (pooledSizes true pooled front mem.ksizes)
    (slice pooled (offset + mem.keys.length) mem.vals.length)
    (pooledSizes true pooled (front + 8 * mem.ksizes.length) mem.vsizes) with ret | ⟨k, v⟩
  · -- nothing was pushed
    simp only
    rw [packedArrays_unpack rfl h.length_eq rfl rfl h.ksizes_lt h.vsizes_lt]
  · obtain ⟨⟨hkbuf, hksizes, hklt⟩, hvbuf, hvsizes, hvlt⟩ := listAnswer_ok db mode fromKey filterData hregions k v hanswer
    rw [length_pooledSizes] at hksizes hvsizes
    simp only
    rw [packedArrays_unpack hksizes hvsizes (hkbuf.trans hkregion) (hvbuf.trans hvregion) hklt hvlt]

/-! ### With and without RDMA -/

/-- Two packed listings into columns of the same shape find the same. -/
theorem listAnswer_packed (db : ListingBackend) (mode : Mode) (fromKey filterData : Bytes)
    (h : ListRequest true keys ksizes vals vsizes) {keys' vals' : Bytes}
    {ksizes' vsizes' : List ℕ} (hkeys : keys'.length = keys.length)
    (hvals : vals'.length = vals.length) (hksizes : ksizes'.length = ksizes.length)
    (hvsizes : vsizes'.length = vsizes.length) :
    (∃ ret, listAnswer db mode true fromKey filterData keys ksizes vals vsizes = .error ret ∧
        listAnswer db mode true fromKey filterData keys' ksizes' vals' vsizes' = .error ret) ∨
      ∃ k v : ColumnWrite, k.Sound true keys.length ksizes ∧ v.Sound true vals.length vsizes ∧
        listAnswer db mode true fromKey filterData keys ksizes vals vsizes =
          .ok (k.output keys, v.output vals) ∧
        listAnswer db mode true fromKey filterData keys' ksizes' vals' vsizes' =
          .ok (k.output keys', v.output vals') := by
  have hfit := h.fit
  unfold listAnswer
  split_ifs with hmode
  · exact Or.inl ⟨_, rfl, rfl⟩
  · rcases hfilter : db.makeKeyValueFilter mode filterData with _ | filter
    · exact Or.inl ⟨_, rfl, rfl⟩
    · obtain ⟨status, kw, vw, hk, hv, hlist⟩ := db.onlyWrites hfilter true fromKey keys.length
        vals.length ksizes vsizes h.keys_le h.vals_le h.length_eq.symm h.slots_le
      obtain ⟨hstatus, hout⟩ := hlist keys ksizes vals vsizes rfl rfl rfl rfl nofun
      obtain ⟨hstatus', hout'⟩ := hlist keys' ksizes' vals' vsizes' hkeys hvals hksizes hvsizes nofun
      by_cases hOK : status = .OK
      · refine Or.inr ⟨kw, vw, hk, hv, ?_, ?_⟩
        · simp only [hstatus, if_pos hOK, hout hOK]
        · simp only [hstatus', if_pos hOK, hout' hOK]
      · refine Or.inl ⟨status.code, ?_, ?_⟩
        · simp only [hstatus, if_neg hOK]
        · simp only [hstatus', if_neg hOK]

theorem listAnswer_noRdma (db : ListingBackend) (mode : Mode) :
    listAnswer db (mode ||| .noRdma) = listAnswer db mode := by
  funext packed fromKey filterData keys ksizes vals vsizes
  rw [listAnswer, listAnswer, checkModeValid_noRdma, db.supportsMode_noRdma,
    db.makeKeyValueFilter_noRdma, db.listKeyValues_noRdma]

/-- The part of a column that a client receives inside an RPC. -/
def received (column : ColumnOutput) (memory : Bytes) : Bytes :=
  column.buf.take column.size ++ memory.drop column.size

/-- The direct handler answers with what the database writes to fresh columns. -/
theorem ykListKeyvalsDirectUlt_eq (hvalid : checkModeValid mode = true) (count n m : ℕ) :
    ykListKeyvalsDirectUlt db mode count fromKey filterData n m =
      match listAnswer db mode true fromKey filterData (List.replicate n 0) (List.replicate count 0)
        (List.replicate m 0) (List.replicate count 0) with
      | .error ret => { ret }
      | .ok (k, v) =>
        { ret := .SUCCESS
          ksizes := k.sizes
          vsizes := v.sizes
          keys := k.buf.take k.size
          vals := v.buf.take v.size } := by
  unfold ykListKeyvalsDirectUlt listAnswer
  rw [hvalid]
  rcases hmode : db.supportsMode mode with _ | _
  · rfl
  rcases hfilter : db.makeKeyValueFilter mode filterData with _ | filter
  · rfl
  simp only [Bool.not_true, Bool.false_eq_true, Bool.or_self, if_false]
  split_ifs with hOK
  · rfl
  · rfl

/-- An array that fills the memory of the caller, or the front of it. -/
theorem procDecode_eq {α : Type} {memory array : List α} (h : array.length ≤ memory.length) :
    procDecode memory array = some (array ++ memory.drop array.length) := if_pos h

theorem procDecode_of_length_eq {α : Type} {memory array : List α}
    (h : array.length = memory.length) : procDecode memory array = some array := by
  rw [procDecode_eq h.le, h, List.drop_length, List.append_nil]

theorem ColumnWrite.Sound.procDecode_eq {w : ColumnWrite} {slots : List ℕ} {buf memory : Bytes}
    (hw : w.Sound true memory.length slots) (hbuf : buf.length = memory.length) :
    procDecode memory ((w.output buf).buf.take (w.output buf).size) =
      some (received (w.output buf) memory) := by
  have hlen : ((w.output buf).buf.take (w.output buf).size).length = w.size := by
    refine List.length_take_of_le ?_
    rw [ColumnWrite.output, Patch.length_apply (hbuf.trans hw.length_patch.symm), hw.length_patch]
    exact hw.size_le rfl
  rw [Yokan.procDecode_eq (by rw [hlen]; exact hw.size_le rfl), hlen]
  rfl

/-- A client receives the same whatever the columns held. -/
theorem ColumnWrite.Sound.received_eq {w : ColumnWrite} {n : ℕ} {slots : List ℕ}
    (hw : w.Sound true n slots) {buf buf' : Bytes} (hbuf : buf.length = n) (hbuf' : buf'.length = n)
    (memory : Bytes) : received (w.output buf) memory = received (w.output buf') memory := by
  have hbytes := Patch.slice_apply_of_written (hbuf.trans hw.length_patch.symm)
    (hbuf'.trans hw.length_patch.symm) (hw.packed_written rfl)
  exact congrArg (· ++ memory.drop w.size) hbytes

/-- Without RDMA, `yk_list_keyvals_packed` hands back the bytes in use of what the database writes
to fresh columns. -/
theorem ykListKeyvalsDirect_eq {mem : ListArrays Bytes}
    (h : ListRequest true mem.keys mem.ksizes mem.vals mem.vsizes) :
    ykListKeyvalsDirect db mode fromKey filterData mem =
      match listAnswer db mode true fromKey filterData (List.replicate mem.keys.length 0)
        (List.replicate mem.ksizes.length 0) (List.replicate mem.vals.length 0)
        (List.replicate mem.ksizes.length 0) with
      | .error ret => (ret, mem)
      | .ok (k, v) =>
        (.SUCCESS, ⟨received k mem.keys, k.sizes, received v mem.vals, v.sizes⟩) := by
  have hcount : mem.ksizes.length ≠ 0 := fun hz => h.ne_nil (List.length_eq_zero_iff.1 hz)
  have hnothing : ∀ {α : Type} (memory : List α), procDecode memory [] = some memory :=
    fun memory => procDecode_eq (Nat.zero_le _)
  unfold ykListKeyvalsDirect
  rw [if_neg hcount]
  rcases hvalid : checkModeValid mode with _ | _
  · rw [listAnswer, hvalid]
    rfl
  rw [if_neg (by decide)]
  simp only [ykListKeyvalsDirectUlt_eq hvalid]
  have hkeys : (List.replicate mem.keys.length (0 : UInt8)).length = mem.keys.length :=
    List.length_replicate
  have hvals : (List.replicate mem.vals.length (0 : UInt8)).length = mem.vals.length :=
    List.length_replicate
  have hksizes : (List.replicate mem.ksizes.length 0).length = mem.ksizes.length :=
    List.length_replicate
  have hvsizes : (List.replicate mem.ksizes.length 0).length = mem.vsizes.length :=
    List.length_replicate.trans h.length_eq.symm
  obtain ⟨ret, -, herror⟩ | ⟨k, v, hk, hv, -, hok⟩ := listAnswer_packed db mode
    fromKey filterData h hkeys hvals hksizes hvsizes
  · simp only [herror, hnothing]
  · have hksizes : procDecode mem.ksizes (k.output (List.replicate mem.keys.length 0)).sizes =
        some k.sizes := procDecode_of_length_eq hk.length_sizes
    have hvsizes : procDecode mem.vsizes (v.output (List.replicate mem.vals.length 0)).sizes =
        some v.sizes := procDecode_of_length_eq hv.length_sizes
    simp only [hok, hksizes, hvsizes, hk.procDecode_eq List.length_replicate,
      hv.procDecode_eq List.length_replicate]
    rfl

end ListLayout

/-- The client and the server agree on the layout of `put` and `list_keyvals`. For keys and values
that a client can send, `yk_put_multi` and `yk_put_packed` are answered what the database does with
exactly these keys, values and sizes, through RDMA or not. For any first key, filter and slots, the
database is given these and regions of the pooled buffer, and `yk_list_keyvals` returns what it
wrote in the same slots. `yk_list_keyvals_packed` does so for its two regions, and without RDMA it
hands back the same status, the same sizes and the same bytes in use. -/
theorem bulk_layout_agrees {σ : Type} [DatabaseInterface σ] (db : ListingBackend) (mode : Mode)
    (pooled : Bytes) :
    (∀ (s : σ) (keys values : List Bytes) (packedValues : Option Bytes),
      keys ≠ [] → [] ∉ keys → values.length = keys.length →
      16 * keys.length + keys.flatten.length + values.flatten.length < 2 ^ 64 →
      16 * keys.length + keys.flatten.length + values.flatten.length ≤ pooled.length →
      packedValues.getD [] = values.flatten →
      ykPutMulti mode keys values pooled s = putAnswer mode s keys.flatten (keys.map List.length)
          values.flatten (values.map List.length) ∧
        ykPutPacked mode keys.flatten (keys.map List.length) packedValues (values.map List.length)
            pooled s =
          putAnswer mode s keys.flatten (keys.map List.length) values.flatten
            (values.map List.length)) ∧
    ∀ fromKey filterData : Bytes,
      (∀ keys vals : List Bytes, keys ≠ [] → vals.length = keys.length →
        16 * keys.length + keys.flatten.length + vals.flatten.length < 2 ^ 64 →
        let offset := fromKey.length + filterData.length + 16 * keys.length
        offset + keys.flatten.length + vals.flatten.length ≤ pooled.length →
        ykListKeyvals db mode fromKey filterData keys vals pooled =
          match listAnswer db mode false fromKey filterData
            (slice pooled offset keys.flatten.length) (keys.map List.length)
            (slice pooled (offset + keys.flatten.length) vals.flatten.length)
            (vals.map List.length) with
          | .error ret => (ret, ⟨keys, keys.map List.length, vals, vals.map List.length⟩)
          | .ok (k, v) => (.SUCCESS, ⟨unpack k.buf (keys.map List.length), k.sizes,
              unpack v.buf (vals.map List.length), v.sizes⟩)) ∧
      ∀ mem : ListArrays Bytes, ListRequest true mem.keys mem.ksizes mem.vals mem.vsizes →
        mode.has .noRdma = false →
        let front := fromKey.length + filterData.length
        let offset := front + 16 * mem.ksizes.length
        offset + mem.keys.length + mem.vals.length ≤ pooled.length →
        let bulk := ykListKeyvalsPacked db mode fromKey filterData mem pooled
        let direct := ykListKeyvalsPacked db (mode ||| .noRdma) fromKey filterData mem pooled
        match listAnswer db mode true fromKey filterData (slice pooled offset mem.keys.length)
          (pooledSizes true pooled front mem.ksizes)
          (slice pooled (offset + mem.keys.length) mem.vals.length)
          (pooledSizes true pooled (front + 8 * mem.ksizes.length) mem.vsizes) with
        | .error ret => bulk = (ret, mem) ∧ direct = (ret, mem)
        | .ok (k, v) => bulk = (.SUCCESS, ⟨k.buf, k.sizes, v.buf, v.sizes⟩) ∧
            direct = (.SUCCESS, ⟨received k mem.keys, k.sizes, received v mem.vals, v.sizes⟩) := by
  refine ⟨?_, fun fromKey filterData => ⟨?_, ?_⟩⟩
  · intro s keys values packedValues hne hempty hlen hfit hpool hvalues
    have h : PutRequest keys.flatten (keys.map List.length) values.flatten
        (values.map List.length) := by
      constructor
      · simpa using hne
      · simpa using hlen
      · intro hzero
        obtain ⟨key, hkey, hz⟩ := List.mem_map.1 hzero
        exact hempty (List.length_eq_zero_iff.1 hz ▸ hkey)
      · exact List.length_flatten
      · exact List.length_flatten
      · rwa [List.length_map]
    exact ⟨h.ykPutMulti_eq hpool s, h.ykPutPacked_eq hvalues (by rwa [List.length_map]) s⟩
  · intro keys vals hne hlen hfit offset hpool
    refine ykListKeyvals_eq ?_ rfl hpool
    have hslot : ∀ slots : List Bytes, slots.flatten.length < 2 ^ 64 →
        ∀ size ∈ slots.map List.length, size < 2 ^ 64 := by
      intro slots hslots size hsize
      have hle := List.single_le_sum (l := slots.map List.length) (by simp) _ hsize
      rw [← List.length_flatten] at hle
      omega
    constructor
    · simpa using hne
    · simpa using hlen
    · exact hslot keys (by omega)
    · exact hslot vals (by omega)
    · intro _
      rw [← List.length_flatten, ← List.length_flatten]
      exact ⟨le_rfl, le_rfl⟩
    · rwa [List.length_map]
  · intro mem h hrdma front offset hpool bulk direct
    have hkregion : (slice pooled offset mem.keys.length).length = mem.keys.length :=
      length_slice_of_le (by omega)
    have hvregion : (slice pooled (offset + mem.keys.length) mem.vals.length).length =
        mem.vals.length := length_slice_of_le (by omega)
    have hregions := h.regions pooled hkregion hvregion front (front + 8 * mem.ksizes.length)
    have hbulk : bulk = _ := ykListKeyvalsPacked_eq h hrdma rfl rfl hpool
    have hdirect : direct = ykListKeyvalsDirect db (mode ||| .noRdma) fromKey filterData mem :=
      if_pos (Mode.has_or_self (by decide) mode)
    rw [ykListKeyvalsDirect_eq h, listAnswer_noRdma] at hdirect
    -- the columns of the direct path have the shape of the regions
    obtain ⟨ret, herror, herror'⟩ | ⟨k, v, hk, hv, hok, hok'⟩ := listAnswer_packed db mode fromKey
      filterData hregions (List.length_replicate.trans hkregion.symm)
      (List.length_replicate.trans hvregion.symm)
      (List.length_replicate.trans (length_pooledSizes true pooled front mem.ksizes).symm)
      ((List.length_replicate.trans h.length_eq.symm).trans
        (length_pooledSizes true pooled (front + 8 * mem.ksizes.length) mem.vsizes).symm)
    · rw [herror] at hbulk
      rw [herror'] at hdirect
      simp only [herror]
      exact ⟨hbulk, hdirect⟩
    · rw [hok] at hbulk
      rw [hok'] at hdirect
      simp only [hok]
      refine ⟨hbulk, hdirect.trans ?_⟩
      simp only [hk.received_eq (List.length_replicate.trans hkregion.symm) rfl mem.keys,
        hv.received_eq (List.length_replicate.trans hvregion.symm) rfl mem.vals]
      rfl

/-- Two pairs, one value of them empty, are stored and listed through a used buffer. -/
theorem bulk_layout_agrees_two :
    let s := ((MapDatabase.empty .default).emplace [1] [10]).emplace [2, 3] []
    let pooled := List.replicate 60 (9 : UInt8)
    (ykPutMulti .default [[1], [2, 3]] [[10], []] pooled (MapDatabase.empty .default)).1 = .SUCCESS ∧
      ykListKeyvals s.listing .default [] [] [[0], [0, 0, 0], []] [[0, 0], [], []] pooled =
        (.SUCCESS, ⟨[[1], [2, 3, 9], []], [1, 2, noMoreKeys], [[10, 9], [], []],
          [1, 0, noMoreKeys]⟩) ∧
      ykListKeyvalsPacked s.listing (.default ||| .noRdma) [] []
          ⟨[0, 0, 0, 0], [0, 0, 0], [0, 0], [0, 0, 0]⟩ pooled =
        (.SUCCESS, ⟨[1, 2, 3, 0], [1, 2, noMoreKeys], [10, 0], [1, 0, noMoreKeys]⟩) := by
  intro s pooled
  obtain ⟨hput, hlist⟩ :=
    @bulk_layout_agrees (MapDatabase .default) _ s.listing .default pooled
  obtain ⟨hmulti, hpacked⟩ := hlist [] []
  refine ⟨?_, ?_, ?_⟩
  · rw [(hput (MapDatabase.empty .default) [[1], [2, 3]] [[10], []] (some [10]) (by decide)
      (by decide) (by decide) (by decide) (by decide) rfl).1]
    decide
  · rw [hmulti [[0], [0, 0, 0], []] [[0, 0], [], []] (by decide) (by decide) (by decide) (by decide)]
    decide
  · have hcolumns : listAnswer s.listing .default true [] [] (slice pooled 48 4)
        (pooledSizes true pooled 0 [0, 0, 0]) (slice pooled 52 2)
        (pooledSizes true pooled 24 [0, 0, 0]) =
          .ok (⟨[1, 2, 3, 9], 3, [1, 2, noMoreKeys]⟩, ⟨[10, 9], 1, [1, 0, noMoreKeys]⟩) := by
      decide
    have hboth := hpacked ⟨[0, 0, 0, 0], [0, 0, 0], [0, 0], [0, 0, 0]⟩
      ⟨by decide, by decide, by decide, by decide, by decide, by decide⟩ (by decide) (by decide)
    simp only [List.length_cons, List.length_nil, Nat.zero_add, hcolumns] at hboth
    exact hboth.2

end Yokan
