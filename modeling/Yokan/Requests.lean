import Yokan.Library.Bits
import Yokan.Library.Counting
import Yokan.PushedValues

/-!
# Yokan: requests about keys

`exists`, `length`, `erase` and `get` on both sides (`src/client/exists.cpp`, `length.cpp`,
`erase.cpp`, `get.cpp`, and the handlers of the same names under `src/server`). The keys of a
request lie in separate places or back to back, and they travel through RDMA or inside the RPC;
what comes back is a bit field, an array of sizes, or sizes and values.

`yk_exists_multi` and `yk_exists_packed` expose one byte for each key where the bit field has one
bit: the array of flags stands here for all the bytes that they expose.

* `answerKeys_eq`: the handlers of `exists` and `length` find the arrays where the client put them;
* `keysMulti_answered`, `keysPacked_answered`: so the client is answered the same on all ways. The
  loops over keys in separate places count in 32 bits, and do not end for `2 ^ 32` keys or more;
* `requests_agree`: a client is answered what the database does with its keys.
-/

namespace Yokan

open Buffer Counting

/-! ### The handlers -/

/-- A `size_t` as a `double`: the nearest number of 53 bits, and the even one of two. -/
def toDouble (n : ℕ) : ℕ :=
  let unit := 2 ^ (n.log2 - 52)
  let rest := n % unit
  (if 2 * rest < unit ∨ 2 * rest = unit ∧ n / unit % 2 = 0 then n / unit else n / unit + 1) * unit

/-- `std::ceil(((double)count)/8.0)`. -/
def flagsSize (count : ℕ) : ℕ := (toDouble count + 7) / 8

/-- `yk_unpack_exists_flag`. -/
def ykUnpackExistsFlag (flags : Bytes) (i : ℕ) : Bool := Bits.getBit flags i

/-- The handlers of `exists` and of `length`. The array that they push back lies behind the keys
and has `outSize` bytes; `answer` is the call of the database, from the keys, their sizes and that
array as it was. -/
def answerKeys (supported : Bool) (outSize : ℕ) (answer : Bytes → List ℕ → Bytes → Status × Bytes)
    (count : ℕ) (bulk : Bytes) (offset size : ℕ) (pooled : Bytes) : ReturnCode × Bytes :=
  let keysOffset := 8 * count
  if !supported then (.ERR_MODE, bulk)
  else if size = 0 then (.ERR_ALLOCATION, bulk)
  else
    match bulkTransfer pooled 0 bulk offset (8 * count) with
    | none => (.ERR_FROM_MERCURY, bulk)
    | some buffer =>
      let ksizes := sizesOfMemory count buffer
      let totalKsize := accumulate ksizes
      let outOffset := addSize keysOffset totalKsize
      if 0 ∈ ksizes then (.ERR_INVALID_ARGS, bulk)
      else if size < addSize outOffset outSize then (.ERR_INVALID_ARGS, bulk)
      else
        match bulkTransfer buffer keysOffset bulk (offset + keysOffset) totalKsize with
        | none => (.ERR_FROM_MERCURY, bulk)
        | some buffer =>
          let r := answer (slice buffer keysOffset totalKsize) ksizes
            (slice buffer outOffset outSize)
          let buffer := blit buffer outOffset r.2
          -- nothing is pushed back for a status other than `OK`
          if r.1 = .OK then
            match bulkTransfer bulk (offset + outOffset) buffer outOffset outSize with
            | none => (.ERR_FROM_MERCURY, bulk)
            | some bulk => (.SUCCESS, bulk)
          else (r.1.code, bulk)

section Handlers

variable {σ : Type} [DatabaseInterface σ]

open DatabaseInterface

/-- The call of `exists` by the handlers, over a bit field of zeros. -/
def existsField (mode : Mode) (s : σ) (keys : Bytes) (ksizes : List ℕ) : Status × Bytes :=
  let r := existsKeys mode s keys ksizes (List.replicate ksizes.length false)
  (r.1, Bits.writeBits (List.replicate (flagsSize ksizes.length) 0) r.2)

/-- `yk_exists_ult`, with the memory of the client when it has answered. -/
def ykExistsUlt (mode : Mode) (count : ℕ) (bulk : Bytes) (offset size : ℕ) (pooled : Bytes) (s : σ) :
    ReturnCode × Bytes :=
  answerKeys (supportsMode σ mode) (flagsSize count)
    (fun keys ksizes _ => existsField mode s keys ksizes) count bulk offset size pooled

/-- `yk_exists_direct_ult`. -/
def ykExistsDirectUlt (mode : Mode) (keys : Bytes) (ksizes : List ℕ) (s : σ) :
    ReturnCode × Bytes :=
  if !supportsMode σ mode then (.ERR_MODE, [])
  else if 0 ∈ ksizes then (.ERR_INVALID_ARGS, [])
  else
    let r := existsField mode s keys ksizes
    (r.1.code, r.2)

/-- `yk_length_ult`, with the memory of the client when it has answered. -/
def ykLengthUlt (mode : Mode) (count : ℕ) (bulk : Bytes) (offset size : ℕ) (pooled : Bytes) (s : σ) :
    ReturnCode × Bytes :=
  answerKeys (supportsMode σ mode) (8 * count)
    (fun keys ksizes out =>
      let r := length mode s keys ksizes (sizesOfMemory count out)
      (r.1, sizesMemory r.2))
    count bulk offset size pooled

/-- `yk_length_direct_ult`. The sizes are part of the answer whatever it is. -/
def ykLengthDirectUlt (mode : Mode) (keys : Bytes) (ksizes : List ℕ) (s : σ) :
    ReturnCode × List ℕ :=
  let vsizes := List.replicate ksizes.length 0
  if !supportsMode σ mode then (.ERR_MODE, vsizes)
  else if 0 ∈ ksizes then (.ERR_INVALID_ARGS, vsizes)
  else
    let r := length mode s keys ksizes vsizes
    (r.1.code, r.2)

/-- `yk_erase_ult`. All that the client exposes is pulled at once. -/
def ykEraseUlt (mode : Mode) (count : ℕ) (bulk : Bytes) (offset size : ℕ) (pooled : Bytes) (s : σ) :
    ReturnCode × σ :=
  if !supportsMode σ mode then (.ERR_MODE, s)
  else if size = 0 then (.ERR_ALLOCATION, s)
  else
    match bulkTransfer pooled 0 bulk offset size with
    | none => (.ERR_FROM_MERCURY, s)
    | some buffer =>
      let ksizes := sizesOfMemory count buffer
      let totalKsize := accumulate ksizes
      if 0 ∈ ksizes then (.ERR_INVALID_ARGS, s)
      else if size < addSize (8 * count) totalKsize then (.ERR_INVALID_ARGS, s)
      else
        let (status, s) := erase mode s (slice buffer (8 * count) totalKsize) ksizes
        (status.code, s)

/-- `yk_erase_direct_ult`. -/
def ykEraseDirectUlt (mode : Mode) (keys : Bytes) (ksizes : List ℕ) (s : σ) : ReturnCode × σ :=
  if !supportsMode σ mode then (.ERR_MODE, s)
  else if 0 ∈ ksizes then (.ERR_INVALID_ARGS, s)
  else
    let (status, s) := erase mode s keys ksizes
    (status.code, s)

/-- What `yk_get_direct_ult` answers with. -/
structure GetDirectOut where
  ret : ReturnCode
  vsizes : List ℕ := []
  vals : Bytes := []

/-- `yk_get_direct_ult`. -/
def ykGetDirectUlt (mode : Mode) (keys : Bytes) (ksizes : List ℕ) (vbufsize : ℕ) (s : σ) :
    GetDirectOut × σ :=
  if !supportsMode σ mode then ({ ret := .ERR_MODE }, s)
  else if 0 ∈ ksizes then ({ ret := .ERR_INVALID_ARGS }, s)
  else
    let r := get mode true s keys ksizes (List.replicate vbufsize 0)
      (List.replicate ksizes.length 0)
    if r.status = .OK then
      ({ ret := .SUCCESS
         vsizes := r.out.vsizes
         vals := r.out.vals.take r.out.valsSize }, r.db)
    else ({ ret := r.status.code }, r.db)

end Handlers

/-! ### The client -/

/-- The arrays that a client passes to `get`: room for the values, and their sizes. -/
structure GetArrays where
  vals : Bytes
  vsizes : List ℕ
  deriving DecidableEq

/-- `yk_exists_bulk` and `yk_length_bulk`, for memory of the caller and the handler of the server. -/
def keysBulk (handler : ℕ → Bytes → ℕ → ℕ → ReturnCode × Bytes) (mode : Mode) (count : ℕ)
    (bulk : Bytes) (offset size : ℕ) : ReturnCode × Bytes :=
  if count ≠ 0 ∧ size = 0 then (.ERR_INVALID_ARGS, bulk)
  else if !checkModeValid mode then (.ERR_MODE, bulk)
  else handler count bulk offset size

section Arrays

variable {α : Type}

/-- The loop of `yk_exists_multi`, `yk_length_multi` and `yk_erase_multi` over the sizes of the keys,
with an `unsigned` counter: whether all the keys are exposed, or one of them is empty. -/
def exposeKeys (ksizes : List ℕ) : Option Bool :=
  countAll 32 ksizes.length fun i => ksizes.getD i 0 = 0

/-- `yk_exists_multi` and `yk_length_multi`. The array that the caller passes is in memory as
`memory`, and `ofMemory` reads it again. There is no result when the loop over the keys does not
end. -/
def keysMulti (direct : Bytes → List ℕ → α → ReturnCode × α)
    (bulkCall : ℕ → Bytes → ℕ → ℕ → ReturnCode × Bytes) (memory : Bytes) (ofMemory : Bytes → α)
    (mode : Mode) (keys : List Bytes) (array : α) : Option (ReturnCode × α) :=
  let ksizes := keys.map List.length
  if keys.length = 0 then some (.SUCCESS, array)
  else if mode.has .noRdma then
    if keys.length = 1 then some (direct (keys.headD []) ksizes array)
    else some (direct keys.flatten ksizes array)
  else
    (exposeKeys ksizes).map fun exposed =>
      if !exposed then (.ERR_INVALID_ARGS, array)
      else
        let segments := [sizesMemory ksizes] ++ keys ++ [memory]
        let (ret, bulk) :=
          bulkCall keys.length segments.flatten 0 (accumulate (segments.map List.length))
        (ret, ofMemory ((unpack bulk (segments.map List.length)).getLastD []))

/-- `yk_exists_packed` and `yk_length_packed`. -/
def keysPacked (direct : Bytes → List ℕ → α → ReturnCode × α)
    (bulkCall : ℕ → Bytes → ℕ → ℕ → ReturnCode × Bytes) (memory : Bytes) (ofMemory : Bytes → α)
    (mode : Mode) (keys : Bytes) (ksizes : List ℕ) (array : α) : ReturnCode × α :=
  if mode.has .noRdma then direct keys ksizes array
  else if ksizes.length = 0 then (.SUCCESS, array)
  else
    let totalKsize := accumulate ksizes
    if totalKsize = 0 then (.ERR_INVALID_ARGS, array)
    else
      let segments := [sizesMemory ksizes, keys.take totalKsize, memory]
      let (ret, bulk) := bulkCall ksizes.length segments.flatten 0
        (accumulate [8 * ksizes.length, totalKsize, memory.length])
      (ret, ofMemory ((unpack bulk (segments.map List.length)).getLastD []))

end Arrays

section Client

variable {σ : Type} [DatabaseInterface σ]

open DatabaseInterface

/-- `yk_exists_direct`. -/
def ykExistsDirect (mode : Mode) (s : σ) (keys : Bytes) (ksizes : List ℕ) (flags : Bytes) :
    ReturnCode × Bytes :=
  if ksizes.length = 0 then (.SUCCESS, flags)
  else if !checkModeValid mode then (.ERR_MODE, flags)
  else
    let size := flagsSize ksizes.length
    let out := ykExistsDirectUlt mode (keys.take (accumulate ksizes)) ksizes s
    match procDecode (flags.take size) out.2 with
    | none => (.ERR_FROM_MERCURY, flags)
    | some field => (out.1, field ++ flags.drop size)

/-- `yk_exists_multi`. -/
def ykExistsMulti (mode : Mode) (keys : List Bytes) (flags pooled : Bytes) (s : σ) :
    Option (ReturnCode × Bytes) :=
  keysMulti (ykExistsDirect mode s)
    (keysBulk (fun count bulk offset size => ykExistsUlt mode count bulk offset size pooled s) mode)
    flags id mode keys flags

/-- `yk_exists_packed`. -/
def ykExistsPacked (mode : Mode) (keys : Bytes) (ksizes : List ℕ) (flags pooled : Bytes) (s : σ) :
    ReturnCode × Bytes :=
  keysPacked (ykExistsDirect mode s)
    (keysBulk (fun count bulk offset size => ykExistsUlt mode count bulk offset size pooled s) mode)
    flags id mode keys ksizes flags

/-- `yk_length_direct`. -/
def ykLengthDirect (mode : Mode) (s : σ) (keys : Bytes) (ksizes vsizes : List ℕ) :
    ReturnCode × List ℕ :=
  if ksizes.length = 0 then (.SUCCESS, vsizes)
  else if !checkModeValid mode then (.ERR_MODE, vsizes)
  else
    let out := ykLengthDirectUlt mode (keys.take (accumulate ksizes)) ksizes s
    match procDecode vsizes out.2 with
    | none => (.ERR_FROM_MERCURY, vsizes)
    | some sizes => (out.1, sizes)

/-- `yk_length_multi`. -/
def ykLengthMulti (mode : Mode) (keys : List Bytes) (vsizes : List ℕ) (pooled : Bytes) (s : σ) :
    Option (ReturnCode × List ℕ) :=
  keysMulti (ykLengthDirect mode s)
    (keysBulk (fun count bulk offset size => ykLengthUlt mode count bulk offset size pooled s) mode)
    (sizesMemory vsizes) (sizesOfMemory vsizes.length) mode keys vsizes

/-- `yk_length_packed`. -/
def ykLengthPacked (mode : Mode) (keys : Bytes) (ksizes vsizes : List ℕ) (pooled : Bytes) (s : σ) :
    ReturnCode × List ℕ :=
  keysPacked (ykLengthDirect mode s)
    (keysBulk (fun count bulk offset size => ykLengthUlt mode count bulk offset size pooled s) mode)
    (sizesMemory vsizes) (sizesOfMemory vsizes.length) mode keys ksizes vsizes

/-- `yk_erase_direct`. -/
def ykEraseDirect (mode : Mode) (keys : Bytes) (ksizes : List ℕ) (s : σ) : ReturnCode × σ :=
  if ksizes.length = 0 then (.SUCCESS, s)
  else if !checkModeValid mode then (.ERR_MODE, s)
  else ykEraseDirectUlt mode (keys.take (accumulate ksizes)) ksizes s

/-- `yk_erase_bulk`, for memory of the caller. -/
def ykEraseBulk (mode : Mode) (count : ℕ) (bulk : Bytes) (offset size : ℕ) (pooled : Bytes) (s : σ) :
    ReturnCode × σ :=
  if count ≠ 0 ∧ size = 0 then (.ERR_INVALID_ARGS, s)
  else if !checkModeValid mode then (.ERR_MODE, s)
  else ykEraseUlt mode count bulk offset size pooled s

/-- `yk_erase_multi`. There is no result when the loop over the keys does not end. -/
def ykEraseMulti (mode : Mode) (keys : List Bytes) (pooled : Bytes) (s : σ) :
    Option (ReturnCode × σ) :=
  let ksizes := keys.map List.length
  if keys.length = 0 then some (.SUCCESS, s)
  else if mode.has .noRdma then
    if keys.length = 1 then some (ykEraseDirect mode (keys.headD []) ksizes s)
    else some (ykEraseDirect mode keys.flatten ksizes s)
  else
    (exposeKeys ksizes).map fun exposed =>
      if !exposed then (.ERR_INVALID_ARGS, s)
      else
        let segments := [sizesMemory ksizes] ++ keys
        ykEraseBulk mode keys.length segments.flatten 0 (accumulate (segments.map List.length))
          pooled s

/-- `yk_erase_packed`. -/
def ykErasePacked (mode : Mode) (keys : Bytes) (ksizes : List ℕ) (pooled : Bytes) (s : σ) :
    ReturnCode × σ :=
  if mode.has .noRdma then ykEraseDirect mode keys ksizes s
  else if ksizes.length = 0 then (.SUCCESS, s)
  else
    let totalKsize := accumulate ksizes
    if totalKsize = 0 then (.ERR_INVALID_ARGS, s)
    else
      let segments := [sizesMemory ksizes, keys.take totalKsize]
      ykEraseBulk mode ksizes.length segments.flatten 0 (accumulate [8 * ksizes.length, totalKsize])
        pooled s

/-- `yk_get_direct`. The answer is decoded field by field. -/
def ykGetDirect (mode : Mode) (keys : Bytes) (ksizes : List ℕ) (arrays : GetArrays) (s : σ) :
    ReturnCode × GetArrays × σ :=
  if ksizes.length = 0 then (.SUCCESS, arrays, s)
  else if !checkModeValid mode then (.ERR_MODE, arrays, s)
  else
    let (out, s) := ykGetDirectUlt mode (keys.take (accumulate ksizes)) ksizes arrays.vals.length s
    match procDecode arrays.vsizes out.vsizes with
    | none => (.ERR_FROM_MERCURY, arrays, s)
    | some vsizes =>
      match procDecode arrays.vals out.vals with
      | none => (.ERR_FROM_MERCURY, { arrays with vsizes }, s)
      | some vals => (out.ret, { vals, vsizes }, s)

/-- `yk_get_bulk`, for memory of the caller. -/
def ykGetBulk (mode : Mode) (count : ℕ) (bulk : Bytes) (offset size : ℕ) (packed : Bool)
    (pooled : Bytes) (s : σ) : ReturnCode × Bytes × σ :=
  if count ≠ 0 ∧ size = 0 then (.ERR_INVALID_ARGS, bulk, s)
  else if !checkModeValid mode then (.ERR_MODE, bulk, s)
  else ykGetUlt mode packed count bulk offset size pooled s

/-- The arrays of a client, from the segments that it has exposed: the values are not, if there is
no room for any. -/
def GetArrays.ofSegments (count : ℕ) : List Bytes → GetArrays
  | _ :: vsizes :: _ :: vals => ⟨vals.headD [], sizesOfMemory count vsizes⟩
  | _ => ⟨[], []⟩

/-- `yk_get_packed`. -/
def ykGetPacked (mode : Mode) (keys : Bytes) (ksizes : List ℕ) (arrays : GetArrays) (pooled : Bytes)
    (s : σ) : ReturnCode × GetArrays × σ :=
  if mode.has .noRdma then ykGetDirect mode keys ksizes arrays s
  else if ksizes.length = 0 then (.SUCCESS, arrays, s)
  else
    let totalKsize := accumulate ksizes
    if totalKsize = 0 then (.ERR_INVALID_ARGS, arrays, s)
    else
      let segments := [sizesMemory ksizes, sizesMemory arrays.vsizes, keys.take totalKsize] ++
        exposed [arrays.vals]
      let (ret, bulk, s) := ykGetBulk mode ksizes.length segments.flatten 0
        (accumulate [8 * ksizes.length, 8 * ksizes.length, totalKsize, arrays.vals.length]) true
        pooled s
      (ret, .ofSegments ksizes.length (unpack bulk (segments.map List.length)), s)

end Client

theorem toDouble_of_le {n : ℕ} (h : n ≤ 2 ^ 53) : toDouble n = n := by
  obtain hlt | rfl := Nat.lt_or_eq_of_le h
  · have hunit : n.log2 - 52 = 0 := by
      obtain rfl | hn := Nat.eq_zero_or_pos n
      · rfl
      · exact Nat.sub_eq_zero_of_le (Nat.le_of_lt_succ ((Nat.log2_lt hn.ne').2 hlt))
    simp [toDouble, hunit, Nat.mod_one]
  · decide

/-- A bit for each key, for numbers that a `double` holds exactly. -/
theorem flagsSize_eq {count : ℕ} (h : count ≤ 2 ^ 53) : flagsSize count = (count + 7) / 8 := by
  rw [flagsSize, toDouble_of_le h]

/-! ### What the handlers find -/

/-- Keys that a client can send: no key is empty, and with two sizes for each and `room` bytes more
they fit in memory. -/
structure KeysRequest (keys : Bytes) (ksizes : List ℕ) (room : ℕ) : Prop where
  ne_nil : ksizes ≠ []
  zero_notMem : 0 ∉ ksizes
  keys_eq : keys.length = ksizes.sum
  fit : 16 * ksizes.length + keys.length + room < 2 ^ 64

namespace KeysRequest

variable {keys pooled : Bytes} {ksizes : List ℕ} {room : ℕ}

theorem packed (h : KeysRequest keys ksizes room) : Packed keys ksizes := by
  have hfit := h.fit
  have hsum := h.keys_eq
  constructor <;> omega

theorem accumulate_ksizes (h : KeysRequest keys ksizes room) : accumulate ksizes = keys.length := by
  rw [accumulate_eq h.packed.2, h.keys_eq]

theorem ksizes_lt (h : KeysRequest keys ksizes room) : ∀ size ∈ ksizes, size < 2 ^ 64 :=
  fun size hsize => by
    have hone := List.single_le_sum (l := ksizes) (by simp) _ hsize
    have hsum := h.packed.2
    omega

theorem length_pos (h : KeysRequest keys ksizes room) : 0 < ksizes.length :=
  List.length_pos_iff.2 h.ne_nil

theorem keys_pos (h : KeysRequest keys ksizes room) : 0 < keys.length := by
  rcases hk : ksizes with _ | ⟨size, sizes⟩
  · exact absurd hk h.ne_nil
  · have hzero : size ≠ 0 := fun hz => h.zero_notMem (by rw [hk, hz]; exact List.mem_cons_self)
    have hsum := h.keys_eq
    rw [hk, List.sum_cons] at hsum
    omega

/-- Keys in separate places make a request of their concatenation. -/
theorem of_keys {keys : List Bytes} {room : ℕ} (hne : keys ≠ []) (hempty : [] ∉ keys)
    (hfit : 16 * keys.length + keys.flatten.length + room < 2 ^ 64) :
    KeysRequest keys.flatten (keys.map List.length) room := by
  constructor
  · simpa using hne
  · intro hzero
    obtain ⟨key, hkey, hz⟩ := List.mem_map.1 hzero
    exact hempty (List.length_eq_zero_iff.1 hz ▸ hkey)
  · exact List.length_flatten
  · rwa [List.length_map]

/-- The handlers of `exists` and `length` find the sizes and the keys where they lie in the bulk,
and push the array back over the front of the one behind them. -/
theorem answerKeys_eq {out : Bytes} (h : KeysRequest keys ksizes out.length) (supported : Bool)
    {outSize : ℕ} (hout : outSize ≤ out.length)
    (hpool : 8 * ksizes.length + keys.length + out.length ≤ pooled.length)
    (answer : Bytes → List ℕ → Bytes → Status × Bytes)
    (hanswer : (answer keys ksizes
      (slice pooled (8 * ksizes.length + keys.length) outSize)).2.length = outSize) :
    answerKeys supported outSize answer ksizes.length (sizesMemory ksizes ++ (keys ++ out)) 0
        (8 * ksizes.length + keys.length + out.length) pooled =
      if supported then
        let r := answer keys ksizes (slice pooled (8 * ksizes.length + keys.length) outSize)
        if r.1 = .OK then
          (.SUCCESS, sizesMemory ksizes ++ (keys ++ (r.2 ++ out.drop outSize)))
        else (r.1.code, sizesMemory ksizes ++ (keys ++ out))
      else (.ERR_MODE, sizesMemory ksizes ++ (keys ++ out)) := by
  have hfit := h.fit
  have hkpos := h.keys_pos
  have hks : (sizesMemory ksizes).length = 8 * ksizes.length := length_sizesMemory ksizes
  have hbulk : (sizesMemory ksizes ++ (keys ++ out)).length =
      8 * ksizes.length + keys.length + out.length := by
    simp only [List.length_append, hks]
    omega
  -- the sizes are pulled to the front of the buffer
  have hpull := bulkTransfer_front pooled (sizesMemory ksizes ++ (keys ++ out))
    (show 8 * ksizes.length ≤ _ by omega) (show 8 * ksizes.length ≤ pooled.length by omega)
  rw [← hks, List.take_left, hks] at hpull
  have hread : sizesOfMemory ksizes.length
      (sizesMemory ksizes ++ pooled.drop (8 * ksizes.length)) = ksizes :=
    sizesOfMemory_append h.ksizes_lt _
  have hbuffer : (sizesMemory ksizes ++ pooled.drop (8 * ksizes.length)).length = pooled.length := by
    rw [List.length_append, List.length_drop, hks]
    omega
  -- and the keys behind them
  have hmiddle : slice (sizesMemory ksizes ++ (keys ++ out)) (8 * ksizes.length) keys.length = keys := by
    have hmid := slice_middle (sizesMemory ksizes) keys out
    rwa [hks] at hmid
  have hkeys : bulkTransfer (sizesMemory ksizes ++ pooled.drop (8 * ksizes.length))
      (8 * ksizes.length) (sizesMemory ksizes ++ (keys ++ out)) (0 + 8 * ksizes.length)
      keys.length =
        some (blit (sizesMemory ksizes ++ pooled.drop (8 * ksizes.length)) (8 * ksizes.length)
          keys) := by
    rw [bulkTransfer, if_pos ⟨by omega, by omega⟩, Nat.zero_add, hmiddle]
  have hkslice : slice (blit (sizesMemory ksizes ++ pooled.drop (8 * ksizes.length))
      (8 * ksizes.length) keys) (8 * ksizes.length) keys.length = keys :=
    slice_blit_same (by omega)
  have hoslice : slice (blit (sizesMemory ksizes ++ pooled.drop (8 * ksizes.length))
      (8 * ksizes.length) keys) (8 * ksizes.length + keys.length) outSize =
        slice pooled (8 * ksizes.length + keys.length) outSize := by
    rw [slice_blit_after (by omega) le_rfl, ← hks]
    exact slice_pulled (by omega) outSize
  have hlen : (blit (sizesMemory ksizes ++ pooled.drop (8 * ksizes.length))
      (8 * ksizes.length) keys).length = pooled.length := (length_blit (by omega)).trans hbuffer
  have houtOffset : addSize (8 * ksizes.length) keys.length = 8 * ksizes.length + keys.length :=
    addSize_eq (by omega)
  have hsize : ¬ 8 * ksizes.length + keys.length + out.length <
      addSize (8 * ksizes.length + keys.length) outSize := by
    rw [addSize_eq (by omega)]
    omega
  unfold answerKeys
  cases supported with
  | false => rfl
  | true =>
    simp only [Bool.not_true, Bool.false_eq_true, if_false, if_true, hpull, hread,
      h.accumulate_ksizes, houtOffset, if_neg h.zero_notMem, if_neg hsize, hkeys, hkslice, hoslice,
      if_neg (show ¬ 8 * ksizes.length + keys.length + out.length = 0 by omega)]
    generalize answer keys ksizes (slice pooled (8 * ksizes.length + keys.length) outSize) = r at hanswer
    split_ifs with hOK
    · have hresult : slice (blit (blit (sizesMemory ksizes ++ pooled.drop (8 * ksizes.length))
          (8 * ksizes.length) keys) (8 * ksizes.length + keys.length) r.2)
          (8 * ksizes.length + keys.length) r.2.length = r.2 := slice_blit_same (by omega)
      have hpush := bulkTransfer_push (sizesMemory ksizes ++ keys) out [] hresult
        (by rw [length_blit (by omega)]; omega) (by omega)
      rw [List.length_append, hks, hanswer, List.append_nil, List.append_nil, List.append_assoc,
        List.append_assoc] at hpush
      simp only [Nat.zero_add, hpush]
    · rfl

end KeysRequest

/-! ### What the client receives -/

/-- A client is told an error, or it has its array. -/
def Answered {α : Type} (r : ReturnCode × α) : Except ReturnCode α → Prop
  | .ok array => r = (.SUCCESS, array)
  | .error ret => r.1 = ret

/-- The client's loop over keys in separate places ends, or there is none. -/
def Counted (mode : Mode) (keys : List Bytes) : Prop :=
  mode.has .noRdma = true ∨ keys.length < 2 ^ 32

instance (mode : Mode) (keys : List Bytes) : Decidable (Counted mode keys) :=
  inferInstanceAs (Decidable (_ ∨ _))

/-- A client is answered if its loop over the keys ends. -/
def AnsweredIf {α : Type} (counted : Prop) (r : Option (ReturnCode × α))
    (answer : Except ReturnCode α) : Prop :=
  (counted → ∃ x, r = some x ∧ Answered x answer) ∧ (¬ counted → r = none)

/-- The same for the call through RDMA: the array has been written over the one that lies behind the
keys. -/
def AnsweredBehind {α : Type} (ofMemory : Bytes → α) (pre memory : Bytes) (r : ReturnCode × Bytes) :
    Except ReturnCode α → Prop
  | .ok array => ∃ memory', memory'.length = memory.length ∧ ofMemory memory' = array ∧
      r = (.SUCCESS, pre ++ memory')
  | .error ret => r.1 = ret

section Client

variable {α : Type} {direct : Bytes → List ℕ → α → ReturnCode × α}
  {bulkCall : ℕ → Bytes → ℕ → ℕ → ReturnCode × Bytes} {memory : Bytes} {ofMemory : Bytes → α}
  {mode : Mode} {array : α} {answer : Except ReturnCode α}

/-- The last of some segments, after the memory behind them has been written. -/
theorem unpack_getLastD (segments : List Bytes) (memory' : Bytes) {n : ℕ}
    (hlen : memory'.length = n) :
    (unpack (segments.flatten ++ memory') (segments.map List.length ++ [n])).getLastD [] =
      memory' := by
  rw [unpack_flatten_append_sizes, unpack_cons, unpack_nil, List.getLastD_concat,
    List.take_of_length_le hlen.le]

/-- The loop over keys that are not empty ends if there are fewer than its counter can count. -/
theorem exposeKeys_eq {ksizes : List ℕ} (hzero : 0 ∉ ksizes) :
    exposeKeys ksizes = if ksizes.length < 2 ^ 32 then some true else none := by
  have hany : ((List.range ksizes.length).any fun i => decide (ksizes.getD i 0 = 0)) = false := by
    rw [any_range_getD ksizes 0 fun size => decide (size = 0)]
    exact List.any_eq_false.2 fun size hsize heq => hzero (of_decide_eq_true heq ▸ hsize)
  unfold exposeKeys
  split_ifs with hcount
  · rw [countAll_of_lt hcount, hany]
    rfl
  · have hcount := Nat.not_lt.1 hcount
    refine countAll_eq_none_iff.2 ⟨hcount, fun j hj => ?_⟩
    exact Bool.eq_false_iff.2 (List.any_eq_false.1 hany j (List.mem_range.2 (hj.trans_le hcount)))

/-- Keys in separate places are answered as their concatenation is, if there are not too many. -/
theorem keysMulti_answered {keys : List Bytes}
    (h : KeysRequest keys.flatten (keys.map List.length) memory.length)
    (hdirect : Answered (direct keys.flatten (keys.map List.length) array) answer)
    (hbulk : AnsweredBehind ofMemory (sizesMemory (keys.map List.length) ++ keys.flatten) memory
      (bulkCall keys.length (sizesMemory (keys.map List.length) ++ (keys.flatten ++ memory)) 0
        (8 * keys.length + keys.flatten.length + memory.length)) answer) :
    AnsweredIf (Counted mode keys) (keysMulti direct bulkCall memory ofMemory mode keys array)
      answer := by
  have hfit := h.fit
  have hcount : keys.length ≠ 0 := fun hzero =>
    h.ne_nil (by rw [List.length_eq_zero_iff.1 hzero, List.map_nil])
  rw [List.length_map] at hfit
  unfold keysMulti
  simp only [if_neg hcount, exposeKeys_eq h.zero_notMem, List.length_map]
  refine ⟨fun hcounted => ?_, fun huncounted => ?_⟩
  swap
  · rw [Counted, not_or] at huncounted
    rw [if_neg huncounted.1, if_neg huncounted.2]
    rfl
  split_ifs with hrdma hsingle hlt
  · obtain ⟨key, rfl⟩ := List.length_eq_one_iff.1 hsingle
    exact ⟨_, rfl, by simpa using hdirect⟩
  · exact ⟨_, rfl, hdirect⟩
  · refine ⟨_, rfl, ?_⟩
    simp only [Bool.not_true, Bool.false_eq_true, if_false]
    -- the segments are those of the request, and the last one is the array
    have hsegments : ([sizesMemory (keys.map List.length)] ++ keys ++ [memory]).flatten =
        sizesMemory (keys.map List.length) ++ (keys.flatten ++ memory) := by
      simp
    have hsizes : ([sizesMemory (keys.map List.length)] ++ keys ++ [memory]).map List.length =
        ([sizesMemory (keys.map List.length)] ++ keys).map List.length ++ [memory.length] := by
      simp
    have hsum : accumulate (([sizesMemory (keys.map List.length)] ++ keys ++ [memory]).map
        List.length) = 8 * keys.length + keys.flatten.length + memory.length := by
      have hlen := congrArg List.length hsegments
      rw [List.length_flatten, List.length_append, List.length_append, length_sizesMemory,
        List.length_map] at hlen
      rw [accumulate_eq (by omega), hlen, Nat.add_assoc]
    rw [hsum, hsegments, hsizes]
    rcases answer with ret | array'
    · exact hbulk
    · obtain ⟨memory', hlen, rfl, hr⟩ := hbulk
      have hlast := unpack_getLastD ([sizesMemory (keys.map List.length)] ++ keys) memory' hlen
      rw [List.flatten_append, List.flatten_singleton] at hlast
      rw [hr]
      exact congrArg (Prod.mk ReturnCode.SUCCESS ∘ ofMemory) hlast
  · exact absurd hcounted (not_or.2 ⟨hrdma, hlt⟩)

/-- Keys that lie back to back are answered the same. -/
theorem keysPacked_answered {keys : Bytes} {ksizes : List ℕ}
    (h : KeysRequest keys ksizes memory.length) (hdirect : Answered (direct keys ksizes array) answer)
    (hbulk : AnsweredBehind ofMemory (sizesMemory ksizes ++ keys) memory
      (bulkCall ksizes.length (sizesMemory ksizes ++ (keys ++ memory)) 0
        (8 * ksizes.length + keys.length + memory.length)) answer) :
    Answered (keysPacked direct bulkCall memory ofMemory mode keys ksizes array) answer := by
  have hfit := h.fit
  have hpos := h.keys_pos
  have hcount := h.length_pos
  unfold keysPacked
  simp only [h.accumulate_ksizes, List.take_length]
  split_ifs with hrdma hzero hnone
  · exact hdirect
  · omega
  · omega
  · have hsum : accumulate [8 * ksizes.length, keys.length, memory.length] =
        8 * ksizes.length + keys.length + memory.length := by
      have hlist : [8 * ksizes.length, keys.length, memory.length].sum =
          8 * ksizes.length + keys.length + memory.length := by
        simp only [List.sum_cons, List.sum_nil]
        omega
      rw [accumulate_eq (by omega), hlist]
    have hsegments : [sizesMemory ksizes, keys, memory].flatten =
        sizesMemory ksizes ++ (keys ++ memory) := by
      simp
    rw [hsum, hsegments]
    rcases answer with ret | array'
    · exact hbulk
    · obtain ⟨memory', hlen, rfl, hr⟩ := hbulk
      have hlast := unpack_getLastD [sizesMemory ksizes, keys] memory' hlen
      have hpair : [sizesMemory ksizes, keys].flatten = sizesMemory ksizes ++ keys := by simp
      rw [hpair] at hlast
      rw [hr]
      exact congrArg (Prod.mk ReturnCode.SUCCESS ∘ ofMemory) hlast

end Client

/-! ### `exists` -/

section Exists

variable {σ : Type} [DatabaseInterface σ] {mode : Mode} {s : σ} {keys flags pooled : Bytes}
  {ksizes : List ℕ}

open DatabaseInterface

/-- What a client is answered that asks whether some keys exist: the bit field over the front of its
flags. -/
def existsAnswer (mode : Mode) (s : σ) (keys : Bytes) (ksizes : List ℕ) (flags : Bytes) :
    Except ReturnCode Bytes :=
  if !checkModeValid mode || !supportsMode σ mode then .error .ERR_MODE
  else
    let r := existsField mode s keys ksizes
    if r.1 = .OK then .ok (r.2 ++ flags.drop (flagsSize ksizes.length)) else .error r.1.code

theorem length_existsField (mode : Mode) (s : σ) (keys : Bytes) (ksizes : List ℕ) :
    (existsField mode s keys ksizes).2.length = flagsSize ksizes.length := by
  rw [existsField, Bits.length_writeBits, List.length_replicate]

/-- `yk_exists_direct`. -/
theorem ykExistsDirect_answered {room : ℕ} (h : KeysRequest keys ksizes room)
    (hflags : flagsSize ksizes.length ≤ flags.length) :
    Answered (ykExistsDirect mode s keys ksizes flags)
      (existsAnswer mode s keys ksizes flags) := by
  have hcount := h.length_pos
  have hlen : (flags.take (flagsSize ksizes.length)).length = flagsSize ksizes.length :=
    List.length_take_of_le hflags
  unfold ykExistsDirect existsAnswer
  rw [if_neg (by omega)]
  cases hvalid : checkModeValid mode with
  | false => rfl
  | true =>
    rw [h.accumulate_ksizes, List.take_length, ykExistsDirectUlt]
    cases supportsMode σ mode with
    | false => simp [procDecode, Answered]
    | true =>
      have hfield := length_existsField mode s keys ksizes
      simp only [Bool.not_true, Bool.false_eq_true, if_false, if_neg h.zero_notMem, Bool.or_self]
      rw [procDecode_of_length_eq (hfield.trans hlen.symm)]
      split_ifs with hOK
      · simp only [hOK, Status.code, Answered]
      · rfl

/-- `yk_exists_bulk`. -/
theorem ykExistsBulk_answered (mode : Mode) (s : σ) (h : KeysRequest keys ksizes flags.length)
    (hflags : flagsSize ksizes.length ≤ flags.length)
    (hpool : 8 * ksizes.length + keys.length + flags.length ≤ pooled.length) :
    AnsweredBehind id (sizesMemory ksizes ++ keys) flags
      (keysBulk (fun count bulk offset size => ykExistsUlt mode count bulk offset size pooled s) mode
        ksizes.length (sizesMemory ksizes ++ (keys ++ flags)) 0
        (8 * ksizes.length + keys.length + flags.length))
      (existsAnswer mode s keys ksizes flags) := by
  have hcount := h.length_pos
  have hfield := length_existsField mode s keys ksizes
  have heq := h.answerKeys_eq (supportsMode σ mode) hflags hpool
    (fun keys ksizes _ => existsField mode s keys ksizes) hfield
  unfold keysBulk existsAnswer
  rw [if_neg (by omega)]
  cases hvalid : checkModeValid mode with
  | false => rfl
  | true =>
    simp only [Bool.not_true, Bool.false_eq_true, if_false, Bool.false_or, ykExistsUlt, heq]
    cases supportsMode σ mode with
    | false => rfl
    | true =>
      simp only [Bool.not_true, Bool.false_eq_true, if_false, if_true]
      split_ifs with hOK
      · refine ⟨_, ?_, rfl, ?_⟩
        · rw [List.length_append, List.length_drop, hfield]
          omega
        · rw [List.append_assoc]
      · rfl

end Exists

/-- The flags that a client reads from the bit field of a finite map. -/
theorem existsField_flags {σ : Type} [FiniteMapStore σ] {mode : Mode} {s : σ} {keys : Bytes}
    {ksizes : List ℕ} (hs : FiniteMapStore.Serving s) (hwait : mode.has .wait = false)
    (hkeys : Packed keys ksizes) (hcount : ksizes.length ≤ 2 ^ 53) (rest : Bytes) :
    (existsField mode s keys ksizes).1 = .OK ∧
      (List.range ksizes.length).map
          (ykUnpackExistsFlag ((existsField mode s keys ksizes).2 ++ rest)) =
        (unpack keys ksizes).map fun k => (FiniteMapStore.contents s k).isSome := by
  have hlen : ksizes.length = (List.replicate ksizes.length false).length :=
    List.length_replicate.symm
  have heq := FiniteMapStore.existsKeys_eq hs hwait hkeys hlen.le
  rw [List.drop_of_length_le hlen.ge, List.append_nil] at heq
  have hbits : ((unpack keys ksizes).map fun k => (FiniteMapStore.contents s k).isSome).length =
      ksizes.length := by
    rw [List.length_map, length_unpack]
  rw [existsField, heq]
  refine ⟨rfl, ?_⟩
  have hroom : ksizes.length ≤ 8 * (List.replicate (flagsSize ksizes.length) (0 : UInt8)).length := by
    rw [List.length_replicate, flagsSize_eq hcount]
    omega
  have hfield : ksizes.length ≤ 8 * (Bits.writeBits (List.replicate (flagsSize ksizes.length) 0)
      ((unpack keys ksizes).map fun k => (FiniteMapStore.contents s k).isSome)).length := by
    rwa [Bits.length_writeBits]
  refine (Bits.readBits_append hfield rest).trans ?_
  have hback := Bits.readBits_writeBits (hbits.trans_le hroom)
  rwa [hbits] at hback

/-! ### `length` -/

section Length

variable {σ : Type} [InMemory σ] {mode : Mode} {s : σ} {keys pooled : Bytes}
  {ksizes vsizes : List ℕ}

open DatabaseInterface InMemory

/-- What a client is answered that asks for the sizes of some values. -/
def lengthAnswer (mode : Mode) (s : σ) (keys : Bytes) (ksizes : List ℕ) :
    Except ReturnCode (List ℕ) :=
  if !checkModeValid mode || !supportsMode σ mode then .error .ERR_MODE
  else
    let r := length mode s keys ksizes (List.replicate ksizes.length 0)
    if r.1 = .OK then .ok r.2 else .error r.1.code

omit [InMemory σ] in
/-- A loop of `length` comes to its end, or it waits for a key that is missing. -/
theorem eachRecord_lengthBody (find : Bytes → Option Bytes) (wait : Bool) (ks : List Bytes)
    (out : List ℕ) :
    let r := eachRecord (lengthBody find wait) ks out
    r = (none, out ++ ks.map fun k => entrySize (find k)) ∨
      r.1 = some .TimedOut ∧ r.2.length ≤ out.length + ks.length := by
  induction ks generalizing out with
  | nil => simp [eachRecord]
  | cons k ks ih =>
    intro r
    cases hk : find k with
    | some v =>
      have hr : r = eachRecord (lengthBody find wait) ks (out ++ [v.length]) := by
        simp only [r, eachRecord, lengthBody, hk]
      rw [hr]
      refine (ih (out ++ [v.length])).imp (fun h => ?_) fun h => ⟨h.1, h.2.trans ?_⟩
      · rw [h, List.append_assoc, List.map_cons, hk]
        rfl
      · simp only [List.length_append, List.length_cons, List.length_nil]
        omega
    | none =>
      cases wait with
      | true =>
        refine Or.inr ⟨by simp only [r, eachRecord, lengthBody, hk, if_true], ?_⟩
        simp only [r, eachRecord, lengthBody, hk, if_true]
        exact Nat.le_add_right _ _
      | false =>
        have hr : r = eachRecord (lengthBody find false) ks (out ++ [keyNotFound]) := by
          simp only [r, eachRecord, lengthBody, hk, Bool.false_eq_true, if_false]
        rw [hr]
        refine (ih (out ++ [keyNotFound])).imp (fun h => ?_) fun h => ⟨h.1, h.2.trans ?_⟩
        · rw [h, List.append_assoc, List.map_cons, hk]
          rfl
        · simp only [List.length_append, List.length_cons, List.length_nil]
          omega

/-- What `length` returns does not depend on what the array held, and it keeps its length. -/
theorem length_fresh (mode : Mode) (s : σ) (hkeys : Packed keys ksizes)
    (hlen : vsizes.length = ksizes.length) :
    (length mode s keys ksizes vsizes).1 =
        (length mode s keys ksizes (List.replicate ksizes.length 0)).1 ∧
      (length mode s keys ksizes vsizes).2.length = ksizes.length ∧
      ((length mode s keys ksizes vsizes).1 = .OK → (length mode s keys ksizes vsizes).2 =
        (unpack keys ksizes).map fun k => entrySize (find s k)) := by
  have hzeros : (List.replicate ksizes.length 0).length = ksizes.length := List.length_replicate
  have hdef (sizes : List ℕ) : length mode s keys ksizes sizes =
      lengthWith (find s) (migrated s) mode keys ksizes sizes := rfl
  rw [hdef, hdef]
  unfold lengthWith
  rw [if_neg (not_not.2 hlen.symm), if_neg (not_not.2 hzeros.symm)]
  cases migrated s with
  | true => exact ⟨rfl, hlen, fun h => by cases h⟩
  | false =>
    simp only [Bool.false_eq_true, if_false, keysLoop_eq hkeys.2 hkeys.1]
    obtain hend | ⟨htimed, hle⟩ :=
      eachRecord_lengthBody (find s) (mode.has .wait) (unpack keys ksizes) []
    · have hdrop : vsizes.drop ksizes.length = [] := by rw [← hlen, List.drop_length]
      simp only [hend, List.nil_append, List.length_map, length_unpack, hdrop, List.append_nil,
        implies_true, and_self]
    · rw [List.length_nil, Nat.zero_add, length_unpack] at hle
      refine ⟨trivial, ?_, fun hOK => ?_⟩
      · rw [List.length_append, List.length_drop]
        omega
      · rw [htimed] at hOK
        cases hOK

/-- `yk_length_direct`. -/
theorem ykLengthDirect_answered {room : ℕ} (h : KeysRequest keys ksizes room)
    (hlen : vsizes.length = ksizes.length) :
    Answered (ykLengthDirect mode s keys ksizes vsizes) (lengthAnswer mode s keys ksizes) := by
  have hcount := h.length_pos
  have hzeros : (List.replicate ksizes.length 0).length = vsizes.length := by
    rw [List.length_replicate, hlen]
  obtain ⟨-, hreturned, -⟩ := length_fresh mode s h.packed (hzeros.trans hlen)
  unfold ykLengthDirect lengthAnswer
  rw [if_neg (by omega)]
  cases hvalid : checkModeValid mode with
  | false => rfl
  | true =>
    rw [h.accumulate_ksizes, List.take_length, ykLengthDirectUlt]
    cases supportsMode σ mode with
    | false =>
      simp only [Bool.not_true, Bool.not_false, Bool.false_eq_true, if_false, if_true,
        Bool.or_true, procDecode_of_length_eq hzeros]
      rfl
    | true =>
      simp only [Bool.not_true, Bool.false_eq_true, if_false, if_neg h.zero_notMem, Bool.or_self]
      rw [procDecode_of_length_eq (hreturned.trans hlen.symm)]
      split_ifs with hOK
      · simp only [hOK, Status.code, Answered]
      · rfl

/-- `yk_length_bulk`. -/
theorem ykLengthBulk_answered (mode : Mode) (h : KeysRequest keys ksizes (8 * ksizes.length))
    (hlen : vsizes.length = ksizes.length)
    (hfits : ∀ key val, find s key = some val → val.length < 2 ^ 64)
    (hpool : 8 * ksizes.length + keys.length + 8 * ksizes.length ≤ pooled.length) :
    AnsweredBehind (sizesOfMemory vsizes.length) (sizesMemory ksizes ++ keys) (sizesMemory vsizes)
      (keysBulk (fun count bulk offset size => ykLengthUlt mode count bulk offset size pooled s) mode
        ksizes.length (sizesMemory ksizes ++ (keys ++ sizesMemory vsizes)) 0
        (8 * ksizes.length + keys.length + (sizesMemory vsizes).length))
      (lengthAnswer mode s keys ksizes) := by
  have hcount := h.length_pos
  have hvs : (sizesMemory vsizes).length = 8 * ksizes.length := by rw [length_sizesMemory, hlen]
  have hread : (sizesOfMemory ksizes.length (slice pooled (8 * ksizes.length + keys.length)
      (8 * ksizes.length))).length = ksizes.length := length_sizesOfMemory _ _
  obtain ⟨hstatus, hreturned, hsizes⟩ := length_fresh mode s h.packed hread
  obtain ⟨-, -, hsizes'⟩ := length_fresh mode s h.packed
    (show (List.replicate ksizes.length 0).length = ksizes.length from List.length_replicate)
  rw [← hvs] at h
  have hroom : 8 * ksizes.length + keys.length + (sizesMemory vsizes).length ≤ pooled.length := by
    rwa [hvs]
  have heq := h.answerKeys_eq (supportsMode σ mode) hvs.ge hroom
    (fun keys ksizes' out =>
      let r := length mode s keys ksizes' (sizesOfMemory ksizes.length out)
      (r.1, sizesMemory r.2))
    (by rw [length_sizesMemory, hreturned])
  unfold keysBulk lengthAnswer
  rw [if_neg (by omega)]
  cases hvalid : checkModeValid mode with
  | false => rfl
  | true =>
    simp only [Bool.not_true, Bool.false_eq_true, if_false, Bool.false_or, ykLengthUlt, heq]
    cases supportsMode σ mode with
    | false => rfl
    | true =>
      simp only [Bool.not_true, Bool.false_eq_true, if_false, if_true, ← hstatus]
      split_ifs with hOK
      · rw [hsizes' (hstatus ▸ hOK), hsizes hOK]
        have hlt : ∀ size ∈ (unpack keys ksizes).map fun k => entrySize (find s k), size < 2 ^ 64 := by
          intro size hsize
          obtain ⟨k, -, rfl⟩ := List.mem_map.1 hsize
          cases hk : find s k with
          | none =>
            have hmark : keyNotFound < 2 ^ 64 := by decide
            exact hmark
          | some v => exact hfits k v hk
        have hback := sizesOfMemory_append hlt []
        rw [List.length_map, length_unpack, List.append_nil, ← hlen] at hback
        refine ⟨_, ?_, hback, ?_⟩
        · rw [length_sizesMemory, List.length_map, length_unpack, hvs]
        · rw [List.drop_of_length_le hvs.le, List.append_nil, List.append_assoc]
      · rfl

end Length

/-! ### `erase` -/

section Erase

variable {σ : Type} [DatabaseInterface σ] {mode : Mode} {keys pooled : Bytes} {ksizes : List ℕ}
  {room : ℕ}

open DatabaseInterface

/-- What a client is answered that erases some keys. -/
def eraseAnswer (mode : Mode) (s : σ) (keys : Bytes) (ksizes : List ℕ) : ReturnCode × σ :=
  if !checkModeValid mode || !supportsMode σ mode then (.ERR_MODE, s)
  else ((erase mode s keys ksizes).1.code, (erase mode s keys ksizes).2)

/-- `yk_erase_direct`. -/
theorem ykEraseDirect_eq (h : KeysRequest keys ksizes room) (s : σ) :
    ykEraseDirect mode keys ksizes s = eraseAnswer mode s keys ksizes := by
  have hcount := h.length_pos
  unfold ykEraseDirect eraseAnswer ykEraseDirectUlt
  rw [if_neg (by omega), h.accumulate_ksizes, List.take_length, if_neg h.zero_notMem]
  rcases checkModeValid mode with _ | _ <;> rcases supportsMode σ mode with _ | _ <;> rfl

/-- `yk_erase_bulk`. -/
theorem ykEraseBulk_eq (h : KeysRequest keys ksizes room) (mode : Mode)
    (hpool : 8 * ksizes.length + keys.length ≤ pooled.length) (s : σ) :
    ykEraseBulk mode ksizes.length (sizesMemory ksizes ++ keys) 0 (8 * ksizes.length + keys.length)
        pooled s =
      eraseAnswer mode s keys ksizes := by
  have hcount := h.length_pos
  have hfit := h.fit
  have hks : (sizesMemory ksizes).length = 8 * ksizes.length := length_sizesMemory ksizes
  have hbulk : (sizesMemory ksizes ++ keys).length = 8 * ksizes.length + keys.length := by
    rw [List.length_append, hks]
  -- all of it is pulled to the front of the buffer
  have hpull := bulkTransfer_front pooled (sizesMemory ksizes ++ keys) hbulk.ge hpool
  rw [List.take_of_length_le hbulk.le, List.append_assoc] at hpull
  have hread (rest : Bytes) : sizesOfMemory ksizes.length (sizesMemory ksizes ++ rest) = ksizes :=
    sizesOfMemory_append h.ksizes_lt _
  have hslice (rest : Bytes) : slice (sizesMemory ksizes ++ (keys ++ rest)) (8 * ksizes.length)
      keys.length = keys := by
    have hmiddle := slice_middle (sizesMemory ksizes) keys rest
    rwa [hks] at hmiddle
  have hsize : ¬ 8 * ksizes.length + keys.length < addSize (8 * ksizes.length) keys.length := by
    rw [addSize_eq (by omega)]
    exact lt_irrefl _
  unfold ykEraseBulk eraseAnswer ykEraseUlt
  rw [if_neg (by omega)]
  simp only [hpull, hread, h.accumulate_ksizes, if_neg h.zero_notMem, if_neg hsize, hslice,
    if_neg (show ¬ 8 * ksizes.length + keys.length = 0 by omega)]
  rcases checkModeValid mode with _ | _ <;> rcases supportsMode σ mode with _ | _ <;> rfl

/-- `yk_erase_packed`. -/
theorem ykErasePacked_eq (h : KeysRequest keys ksizes room) (mode : Mode)
    (hpool : 8 * ksizes.length + keys.length ≤ pooled.length) (s : σ) :
    ykErasePacked mode keys ksizes pooled s = eraseAnswer mode s keys ksizes := by
  have hcount := h.length_pos
  have hpos := h.keys_pos
  have hfit := h.fit
  have hsum : accumulate [8 * ksizes.length, keys.length] = 8 * ksizes.length + keys.length := by
    have hlist : [8 * ksizes.length, keys.length].sum = 8 * ksizes.length + keys.length := by
      simp only [List.sum_cons, List.sum_nil, Nat.add_zero]
    rw [accumulate_eq (by omega), hlist]
  have hsegments : [sizesMemory ksizes, keys].flatten = sizesMemory ksizes ++ keys := by simp
  unfold ykErasePacked
  rw [ykEraseDirect_eq h]
  simp only [h.accumulate_ksizes, List.take_length, hsum, hsegments, ykEraseBulk_eq h mode hpool,
    if_neg (show ¬ ksizes.length = 0 by omega), if_neg (show ¬ keys.length = 0 by omega), ite_self]

/-- `yk_erase_multi`. -/
theorem ykEraseMulti_eq {keys : List Bytes}
    (h : KeysRequest keys.flatten (keys.map List.length) room) (mode : Mode)
    (hpool : 8 * keys.length + keys.flatten.length ≤ pooled.length) (s : σ) :
    ykEraseMulti mode keys pooled s =
      if Counted mode keys then some (eraseAnswer mode s keys.flatten (keys.map List.length))
      else none := by
  have hfit := h.fit
  have hcount : keys.length ≠ 0 := fun hzero =>
    h.ne_nil (by rw [List.length_eq_zero_iff.1 hzero, List.map_nil])
  have hbulk := ykEraseBulk_eq h mode (by rwa [List.length_map]) s
  rw [List.length_map] at hfit hbulk
  have hsegments : ([sizesMemory (keys.map List.length)] ++ keys).flatten =
      sizesMemory (keys.map List.length) ++ keys.flatten := by
    simp
  have hsum : accumulate (([sizesMemory (keys.map List.length)] ++ keys).map List.length) =
      8 * keys.length + keys.flatten.length := by
    have hlen := congrArg List.length hsegments
    rw [List.length_flatten, List.length_append, length_sizesMemory, List.length_map] at hlen
    rw [accumulate_eq (by omega), hlen]
  unfold ykEraseMulti
  simp only [if_neg hcount, exposeKeys_eq h.zero_notMem, List.length_map]
  by_cases hrdma : mode.has .noRdma = true
  · rw [if_pos hrdma, if_pos (show Counted mode keys from Or.inl hrdma)]
    split_ifs with hsingle
    · obtain ⟨key, rfl⟩ := List.length_eq_one_iff.1 hsingle
      simpa using ykEraseDirect_eq h s
    · rw [ykEraseDirect_eq h s]
  · rw [if_neg hrdma]
    by_cases hlt : keys.length < 2 ^ 32
    · rw [if_pos hlt, if_pos (show Counted mode keys from Or.inr hlt), Option.map_some]
      simp only [Bool.not_true, Bool.false_eq_true, if_false, hsum, hsegments, hbulk]
    · rw [if_neg hlt, if_neg (show ¬ Counted mode keys from not_or.2 ⟨hrdma, hlt⟩)]
      rfl

end Erase

/-! ### `get` -/

section Get

variable {σ : Type} [FiniteMapStore σ] {mode : Mode} {s : σ} {keys pooled : Bytes}
  {ksizes : List ℕ} {arrays : GetArrays}

open DatabaseInterface FiniteMapStore

/-- What a client has when it has asked for the values of some keys: the sizes, and the values that
fit at the front of its room. -/
structure Gets (mode : Mode) (s : σ) (ks : List Bytes) (arrays : GetArrays)
    (r : ReturnCode × GetArrays × σ) : Prop where
  ret : r.1 = .SUCCESS
  vsizes : r.2.1.vsizes = (packedValues (contents s) ks arrays.vals.length false).1
  length_vals : r.2.1.vals.length = arrays.vals.length
  vals : (packedValues (contents s) ks arrays.vals.length false).2 <+: r.2.1.vals
  serving : Serving r.2.2
  contents_eq : contents r.2.2 =
    if mode.has .consume then PartialMap.eraseAll (contents s) ks else contents s

theorem lt_lastValidSize {n : ℕ} (h : n < 2 ^ 63) : n ≤ lastValidSize :=
  h.le.trans (by decide)

/-- The size of the only value that there is room for. -/
theorem packedValues_single (m : Bytes → Option Bytes) {ks : List Bytes} (hone : ks.length = 1)
    (room : ℕ) (hne : (packedValues m ks room false).2.length ≠ 0) :
    (packedValues m ks room false).1.headD 0 = (packedValues m ks room false).2.length := by
  obtain ⟨k, rfl⟩ := List.length_eq_one_iff.1 hone
  unfold packedValues at hne ⊢
  cases hk : m k with
  | none => simp [hk, packedValues] at hne
  | some v =>
    simp only [hk, Bool.false_eq_true, false_or] at hne ⊢
    split_ifs at hne ⊢ with hfull
    · simp [packedValues] at hne
    · simp [packedValues]

/-- `yk_get_direct`. -/
theorem ykGetDirect_gets (h : KeysRequest keys ksizes arrays.vals.length)
    (hlen : arrays.vsizes.length = ksizes.length) (hroom : arrays.vals.length < 2 ^ 63)
    (hs : Serving s) (hwait : mode.has .wait = false)
    (hmode : (checkModeValid mode && supportsMode σ mode) = true) :
    Gets mode s (unpack keys ksizes) arrays (ykGetDirect mode keys ksizes arrays s) := by
  have hcount := h.length_pos
  obtain ⟨hvalid, hsupported⟩ := Bool.and_eq_true_iff.1 hmode
  have hzeros : ksizes.length = (List.replicate ksizes.length 0).length :=
    List.length_replicate.symm
  have hbuffer : (List.replicate arrays.vals.length (0 : UInt8)).length = arrays.vals.length :=
    List.length_replicate
  obtain ⟨hOK, hserving, hcontents⟩ := @get_contents σ _ mode true s keys
    (List.replicate arrays.vals.length 0) ksizes _ hs hwait h.packed hzeros
  have hout := get_packed hs hwait h.packed hzeros (lt_lastValidSize (hbuffer.trans_lt hroom))
  rw [hbuffer] at hout
  have hcounted := length_packedValues (contents s) (unpack keys ksizes) arrays.vals.length false
  have hfits := length_packedValues_le (contents s) (unpack keys ksizes) arrays.vals.length false
  rw [length_unpack] at hcounted
  unfold ykGetDirect ykGetDirectUlt
  rw [if_neg (by omega)]
  simp only [hvalid, hsupported, Bool.not_true, Bool.false_eq_true, if_false,
    h.accumulate_ksizes, List.take_length, if_neg h.zero_notMem, hOK, if_true, hout]
  generalize hp : packedValues (contents s) (unpack keys ksizes) arrays.vals.length false = p
  rw [hp] at hcounted hfits
  have hfront : (blit (List.replicate arrays.vals.length (0 : UInt8)) 0 p.2).take p.2.length =
      p.2 := by
    simp [blit]
  rw [procDecode_of_length_eq (hcounted.trans hlen.symm), hfront, procDecode_eq hfits]
  constructor
  · rfl
  · rw [hp]
  · simp only [List.length_append, List.length_drop]
    omega
  · rw [hp]
    exact List.prefix_append _ _
  · exact hserving
  · exact hcontents

omit [FiniteMapStore σ] in
/-- The arrays are read back from the segments. -/
theorem GetArrays.ofSegments_getMemory (keys : Bytes) {vsizes : List ℕ} {vals : Bytes}
    (hlen : arrays.vsizes.length = ksizes.length) (hvsizes : vsizes.length = ksizes.length)
    (hvals : vals.length = arrays.vals.length) (hlt : ∀ size ∈ vsizes, size < 2 ^ 64) :
    GetArrays.ofSegments ksizes.length (unpack (getMemory [] [] ksizes vsizes keys vals)
        (([sizesMemory ksizes, sizesMemory arrays.vsizes, keys] ++
          exposed [arrays.vals]).map List.length)) = ⟨vals, vsizes⟩ := by
  have hmemory : getMemory [] [] ksizes vsizes keys vals =
      [sizesMemory ksizes, sizesMemory vsizes, keys].flatten ++ vals := by
    simp [getMemory]
  have hsizes : [sizesMemory ksizes, sizesMemory arrays.vsizes, keys].map List.length =
      [sizesMemory ksizes, sizesMemory vsizes, keys].map List.length := by
    simp only [List.map_cons, List.map_nil, length_sizesMemory, hlen, hvsizes]
  have hread : sizesOfMemory ksizes.length (sizesMemory vsizes) = vsizes := by
    have happend := sizesOfMemory_append hlt []
    rwa [hvsizes, List.append_nil] at happend
  rw [List.map_append, hsizes, hmemory, unpack_flatten_append_sizes]
  by_cases hnone : arrays.vals = []
  · rw [hnone, List.length_nil] at hvals
    rw [List.length_eq_zero_iff.1 hvals, hnone]
    simp [exposed, GetArrays.ofSegments, hread]
  · have hexposed : exposed [arrays.vals] = [arrays.vals] := by simp [exposed, hnone]
    rw [hexposed, List.map_singleton, unpack_cons, unpack_nil, List.take_of_length_le hvals.le]
    simp [GetArrays.ofSegments, hread]

omit [FiniteMapStore σ] in
/-- The sizes that are reported fit in a `size_t`. -/
theorem packedValues_lt (m : Bytes → Option Bytes) (ks : List Bytes) {room : ℕ}
    (hroom : room < 2 ^ 64) (full : Bool) :
    ∀ size ∈ (packedValues m ks room full).1, size < 2 ^ 64 := by
  have hmissing : keyNotFound < 2 ^ 64 := by decide
  have hsmall : sizeTooSmall < 2 ^ 64 := by decide
  induction ks generalizing room full with
  | nil => simp [packedValues]
  | cons k ks ih =>
    unfold packedValues
    cases m k with
    | none => exact List.forall_mem_cons.2 ⟨hmissing, ih hroom full⟩
    | some v =>
      dsimp only
      split_ifs with hfull
      · exact List.forall_mem_cons.2 ⟨hsmall, ih hroom true⟩
      · exact List.forall_mem_cons.2 ⟨by omega, ih (by omega) full⟩

/-- What the handler pushes back: the sizes, and the values at the front of their room. -/
theorem ykGetUlt_gets {vsizes : List ℕ} {vals : Bytes}
    (hcall : GetCall true ksizes vsizes keys vals pooled) (hs : Serving s)
    (hwait : mode.has .wait = false) (hsupported : supportsMode σ mode = true) :
    let p := packedValues (contents s) (unpack keys ksizes) vals.length false
    ∃ (vals' : Bytes) (t : σ), vals'.length = vals.length ∧ p.2 <+: vals' ∧ Serving t ∧
      contents t = (if mode.has .consume then PartialMap.eraseAll (contents s) (unpack keys ksizes)
        else contents s) ∧
      ykGetUlt mode true ksizes.length (getMemory [] [] ksizes vsizes keys vals) 0
          (16 * ksizes.length + keys.length + vals.length) pooled s =
        (.SUCCESS, getMemory [] [] ksizes p.1 keys vals', t) := by
  have hsize := hcall.size_le
  have hmax := hcall.lt_max
  have hsum := hcall.keys_eq
  have hpacked : Packed keys ksizes := ⟨by omega, by omega⟩
  have hregion : (slice pooled (16 * ksizes.length + keys.length) vals.length).length =
      vals.length := length_slice_of_le hsize
  have hslots : ksizes.length = (pooledSizes true pooled (8 * ksizes.length) vsizes).length := by
    rw [length_pooledSizes, hcall.length_eq]
  obtain ⟨buffer, hbuffer, heq⟩ := ykGetUlt_answers hcall hsupported s [] []
  obtain ⟨hOK, hserving, hcontents⟩ := @get_contents σ _ mode true s keys
    (slice pooled (16 * ksizes.length + keys.length) vals.length) ksizes _ hs hwait hpacked hslots
  have hout := get_packed hs hwait hpacked hslots
    (lt_lastValidSize (hregion.trans_lt (by omega)))
  rw [hregion] at hout
  have hcounted := length_packedValues (contents s) (unpack keys ksizes) vals.length false
  have hfits := length_packedValues_le (contents s) (unpack keys ksizes) vals.length false
  have hsingle (hone : ksizes.length = 1) :=
    packedValues_single (contents s) ((length_unpack keys ksizes).trans hone) vals.length
  rw [length_unpack] at hcounted
  intro p
  generalize DatabaseInterface.get mode true s keys ksizes
    (slice pooled (16 * ksizes.length + keys.length) vals.length)
    (pooledSizes true pooled (8 * ksizes.length) vsizes) = g at *
  change g.out = ⟨blit _ 0 p.2, p.2.length, p.1⟩ at hout
  change p.1.length = ksizes.length at hcounted
  change p.2.length ≤ vals.length at hfits
  -- a single value is pushed with its own size, several with all of their room
  have hxfer : g.out.valsSize ≠ 0 →
      (if ksizes.length = 1 then g.out.vsizes.headD 0 else vals.length) ≤ vals.length ∧
        p.2.length ≤ if ksizes.length = 1 then g.out.vsizes.headD 0 else vals.length := by
    intro hne
    rw [hout] at hne ⊢
    split_ifs with hone
    · have hhead : p.1.headD 0 = p.2.length := hsingle hone hne
      rw [hhead]
      exact ⟨hfits, le_rfl⟩
    · exact ⟨le_rfl, hfits⟩
  have hlength : g.out.vals.length = vals.length := by
    rw [hout]
    exact (length_blit (by omega)).trans hregion
  have hanswer := @answerItems_eq true [] [] keys vals pooled ksizes vsizes σ hcall buffer hbuffer g
    hOK hlength (by rw [hout, hcounted]) _ fun hne => (hxfer hne).1
  generalize (if ksizes.length = 1 then g.out.vsizes.headD 0 else vals.length) = xfer at *
  have hvsizes : g.out.vsizes = p.1 := by rw [hout]
  refine ⟨pushedValues g.out xfer vals, g.db, ?_, ?_, hserving, hcontents, ?_⟩
  · exact length_pushedValues hlength fun hne => (hxfer hne).1
  · have hvalsSize : g.out.valsSize = p.2.length := by rw [hout]
    have hfront : g.out.vals = p.2 ++
        (slice pooled (16 * ksizes.length + keys.length) vals.length).drop p.2.length := by
      rw [hout]
      simp [blit]
    unfold pushedValues
    split_ifs with hzero
    · rw [List.length_eq_zero_iff.1 (hvalsSize.symm.trans hzero)]
      exact List.nil_prefix
    · rw [hfront, List.take_append, List.take_of_length_le (hxfer hzero).2, List.append_assoc]
      exact List.prefix_append _ _
  · rw [← hvsizes]
    exact heq.trans hanswer

/-- `yk_get_packed`. -/
theorem ykGetPacked_gets (h : KeysRequest keys ksizes arrays.vals.length)
    (hlen : arrays.vsizes.length = ksizes.length)
    (hpool : 16 * ksizes.length + keys.length + arrays.vals.length ≤ pooled.length)
    (hmax : pooled.length < 2 ^ 63) (hs : Serving s) (hwait : mode.has .wait = false)
    (hmode : (checkModeValid mode && supportsMode σ mode) = true) :
    Gets mode s (unpack keys ksizes) arrays (ykGetPacked mode keys ksizes arrays pooled s) := by
  have hcount := h.length_pos
  have hpos := h.keys_pos
  have hfit := h.fit
  unfold ykGetPacked
  by_cases hrdma : mode.has .noRdma = true
  · rw [if_pos hrdma]
    exact ykGetDirect_gets h hlen (by omega) hs hwait hmode
  · obtain ⟨hvalid, hsupported⟩ := Bool.and_eq_true_iff.1 hmode
    have hcall : GetCall true ksizes arrays.vsizes keys arrays.vals pooled := by
      constructor
      · exact hlen
      · exact h.zero_notMem
      · exact h.keys_eq
      · exact fun hpacked => by cases hpacked
      · omega
      · exact hpool
      · exact hmax
    -- the segments are those of the memory that the handler expects
    have hsegments : ([sizesMemory ksizes, sizesMemory arrays.vsizes, keys] ++
        exposed [arrays.vals]).flatten =
          getMemory [] [] ksizes arrays.vsizes keys arrays.vals := by
      have hlast : (exposed [arrays.vals]).flatten = [arrays.vals].flatten :=
        List.flatten_filter_ne_nil
      rw [List.flatten_append, hlast]
      simp [getMemory]
    have hsum : accumulate [8 * ksizes.length, 8 * ksizes.length, keys.length,
        arrays.vals.length] = 16 * ksizes.length + keys.length + arrays.vals.length := by
      have hlist : [8 * ksizes.length, 8 * ksizes.length, keys.length, arrays.vals.length].sum =
          16 * ksizes.length + keys.length + arrays.vals.length := by
        simp only [List.sum_cons, List.sum_nil]
        omega
      rw [accumulate_eq (by omega), hlist]
    obtain ⟨vals', t, hvals, hprefix, hserving, hcontents, hult⟩ :=
      ykGetUlt_gets hcall hs hwait hsupported
    have hcounted := length_packedValues (contents s) (unpack keys ksizes) arrays.vals.length false
    rw [length_unpack] at hcounted
    have hback := GetArrays.ofSegments_getMemory keys hlen hcounted hvals
      (packedValues_lt (contents s) (unpack keys ksizes) (by omega) false)
    have hbulk : ykGetBulk mode ksizes.length (getMemory [] [] ksizes arrays.vsizes keys arrays.vals)
        0 (16 * ksizes.length + keys.length + arrays.vals.length) true pooled s =
          ykGetUlt mode true ksizes.length (getMemory [] [] ksizes arrays.vsizes keys arrays.vals) 0
            (16 * ksizes.length + keys.length + arrays.vals.length) pooled s := by
      rw [ykGetBulk, if_neg (by omega), if_neg (by rw [hvalid]; decide)]
    simp only [if_neg hrdma, h.accumulate_ksizes, List.take_length, hsegments, hsum, hbulk, hult, hback,
      if_neg (show ¬ ksizes.length = 0 by omega), if_neg (show ¬ keys.length = 0 by omega)]
    exact ⟨rfl, rfl, hvals, hprefix, hserving, hcontents⟩

/-- A mode that is not valid or not supported is refused, by the client or by the server. -/
theorem ykGetDirect_refused (hcount : ksizes.length ≠ 0)
    (hmode : (checkModeValid mode && supportsMode σ mode) = false) :
    ykGetDirect mode keys ksizes arrays s = (.ERR_MODE, arrays, s) := by
  have hnothing : ∀ {α : Type} (memory : List α), procDecode memory [] = some memory :=
    fun memory => procDecode_eq (Nat.zero_le _)
  unfold ykGetDirect ykGetDirectUlt
  rw [if_neg hcount]
  cases hvalid : checkModeValid mode with
  | false => rfl
  | true =>
    rw [hvalid, Bool.true_and] at hmode
    simp only [hmode, Bool.not_true, Bool.not_false, Bool.false_eq_true, if_false, if_true,
      hnothing]

theorem ykGetBulk_refused {count size : ℕ} (bulk : Bytes) (offset : ℕ) (packed : Bool)
    (hsize : size ≠ 0) (hmode : (checkModeValid mode && supportsMode σ mode) = false) :
    ykGetBulk mode count bulk offset size packed pooled s = (.ERR_MODE, bulk, s) := by
  unfold ykGetBulk ykGetUlt
  rw [if_neg fun h => hsize h.2]
  cases hvalid : checkModeValid mode with
  | false => rfl
  | true =>
    rw [hvalid, Bool.true_and] at hmode
    simp only [hmode, Bool.not_true, Bool.not_false, Bool.false_eq_true, if_false, if_true]

theorem ykGetPacked_refused (h : KeysRequest keys ksizes arrays.vals.length)
    (hmode : (checkModeValid mode && supportsMode σ mode) = false) :
    (ykGetPacked mode keys ksizes arrays pooled s).1 = .ERR_MODE ∧
      (ykGetPacked mode keys ksizes arrays pooled s).2.2 = s := by
  have hcount := h.length_pos
  have hpos := h.keys_pos
  have hfit := h.fit
  have hsize : accumulate [8 * ksizes.length, 8 * ksizes.length, keys.length,
      arrays.vals.length] ≠ 0 := by
    rw [accumulate_eq (by simp only [List.sum_cons, List.sum_nil]; omega)]
    simp only [List.sum_cons]
    omega
  unfold ykGetPacked
  rw [ykGetDirect_refused (by omega) hmode]
  simp only [h.accumulate_ksizes, ykGetBulk_refused _ _ _ hsize hmode,
    if_neg (show ¬ ksizes.length = 0 by omega), if_neg (show ¬ keys.length = 0 by omega)]
  split_ifs <;> exact ⟨rfl, rfl⟩

end Get

/-! ### Both sides -/

section Agreement

variable {σ : Type} [InMemory σ] {mode : Mode} {s : σ} {flags pooled : Bytes} {vsizes : List ℕ}

open DatabaseInterface InMemory

/-- The client and the server agree on the layout of `exists`, `length` and `erase`. For keys that a
client can send, in separate places or back to back, through RDMA or inside the RPC, in any mode and
from any state, the client is told what the database says about exactly these keys: an error, or the
bit field at the front of its flags, or the sizes; and `erase` leaves the database in the same
state. Only the loops over keys in separate places do not end when there are too many. -/
theorem requests_agree (mode : Mode) (s : σ) {keys : List Bytes} (hne : keys ≠ [])
    (hempty : [] ∉ keys) (hcount : keys.length ≤ 2 ^ 53) (hflags : flags.length = keys.length)
    (hvsizes : vsizes.length = keys.length)
    (hvalues : ∀ key val, find s key = some val → val.length < 2 ^ 64)
    (hpool : 16 * keys.length + keys.flatten.length ≤ pooled.length) (hmax : pooled.length < 2 ^ 63) :
    let ksizes := keys.map List.length
    (AnsweredIf (Counted mode keys) (ykExistsMulti mode keys flags pooled s)
        (existsAnswer mode s keys.flatten ksizes flags) ∧
      Answered (ykExistsPacked mode keys.flatten ksizes flags pooled s)
        (existsAnswer mode s keys.flatten ksizes flags)) ∧
    (AnsweredIf (Counted mode keys) (ykLengthMulti mode keys vsizes pooled s)
        (lengthAnswer mode s keys.flatten ksizes) ∧
      Answered (ykLengthPacked mode keys.flatten ksizes vsizes pooled s)
        (lengthAnswer mode s keys.flatten ksizes)) ∧
    ykEraseMulti mode keys pooled s =
        (if Counted mode keys then some (eraseAnswer mode s keys.flatten ksizes) else none) ∧
      ykErasePacked mode keys.flatten ksizes pooled s = eraseAnswer mode s keys.flatten ksizes := by
  intro ksizes
  have hlength_eq : ksizes.length = keys.length := List.length_map _
  have hmemory : (sizesMemory vsizes).length = 8 * keys.length := by
    rw [length_sizesMemory, hvsizes]
  have hfield : flagsSize ksizes.length ≤ flags.length := by
    rw [hlength_eq, hflags, flagsSize_eq hcount]
    omega
  have hexists : KeysRequest keys.flatten ksizes flags.length := .of_keys hne hempty (by omega)
  have hlength : KeysRequest keys.flatten ksizes (sizesMemory vsizes).length :=
    .of_keys hne hempty (by omega)
  have hlength' : KeysRequest keys.flatten ksizes (8 * ksizes.length) :=
    .of_keys hne hempty (by omega)
  have hexistsBulk := ykExistsBulk_answered mode s hexists hfield
    (show _ ≤ pooled.length by omega)
  have hlengthBulk := ykLengthBulk_answered mode hlength' (hvsizes.trans hlength_eq.symm)
    hvalues (show _ ≤ pooled.length by omega)
  refine ⟨⟨?_, ?_⟩, ⟨?_, ?_⟩, ?_, ?_⟩
  · refine keysMulti_answered hexists (ykExistsDirect_answered hexists hfield) ?_
    rwa [hlength_eq] at hexistsBulk
  · exact keysPacked_answered hexists (ykExistsDirect_answered hexists hfield) hexistsBulk
  · refine keysMulti_answered hlength (ykLengthDirect_answered hlength (hvsizes.trans hlength_eq.symm)) ?_
    rwa [hlength_eq] at hlengthBulk
  · exact keysPacked_answered hlength (ykLengthDirect_answered hlength (hvsizes.trans hlength_eq.symm))
      hlengthBulk
  · exact ykEraseMulti_eq hexists mode (by omega) s
  · exact ykErasePacked_eq hexists mode (by omega) s

/-- Two keys, one of them missing, with flags that hold something else. -/
theorem requests_agree_two :
    let s := (MapDatabase.empty .default).emplace [1] [10, 20]
    let pooled := List.replicate 40 (9 : UInt8)
    ykExistsMulti .default [[1], [2, 3]] [255, 7] pooled s = some (.SUCCESS, [1, 7]) ∧
      ykLengthPacked .default [1, 2, 3] [1, 2] [0, 0] pooled s = (.SUCCESS, [2, keyNotFound]) ∧
      (ykErasePacked .default [1, 2, 3] [1, 2] pooled s).1 = .SUCCESS := by
  intro s pooled
  have hvalues : ∀ key val, s.find key = some val → val.length < 2 ^ 64 := by
    intro key val hfind
    have hall : ∀ p ∈ s.db.toList, p.2.length < 2 ^ 64 := by decide
    exact hall (key, val) (Std.ExtTreeMap.mem_toList_iff_getElem?_eq_some.2 hfind)
  obtain ⟨⟨hexists, -⟩, ⟨-, hlength⟩, -, herase⟩ := @requests_agree _ _ [255, 7] pooled [0, 0]
    .default s [[1], [2, 3]] (by decide) (by decide) (by decide) rfl rfl hvalues (by decide)
    (by decide)
  obtain ⟨r, hr, hanswered⟩ := hexists.1 (by decide)
  refine ⟨?_, ?_, ?_⟩
  · exact hr.trans (congrArg some hanswered)
  · exact hlength
  · rw [show ([1, 2, 3] : Bytes) = [[1], [2, 3]].flatten from rfl]
    exact (congrArg Prod.fst herase).trans (by decide)

end Agreement

end Yokan
