import Yokan.Callbacks
import Yokan.DocMixinListing

/-!
# Yokan: fetching keys through a callback

`yk_fetch_packed` and `yk_fetch_multi` from end to end: the client (`src/client/fetch.cpp`), the
handlers of the server (`src/server/fetch.cpp`), and the handlers of the client that call the user
back. The keys travel as one region of memory, or inside the RPC with `YOKAN_MODE_NO_RDMA`; the
server cuts the list of keys into batches and sends the values of a batch back with the position of
its first key. The client has kept its list of keys, and finds the key that belongs to the `i`-th
value of a batch at position `i` of the list.

* `fetchBatches_spec`: the calls that the batches cause, from any batch on;
* `fetch_calls_iff`: the calls are those that the caller expects exactly if each key equals the key
  at its position within its batch.
-/

namespace Yokan

open Buffer LittleEndian PartialMap

/-- The arguments of a `yk_keyvalue_callback_t`. The value is absent where its size is
`YOKAN_KEY_NOT_FOUND`. -/
structure KeyValueItem where
  index : ℕ
  key : Bytes
  value : Option Bytes
  deriving DecidableEq

/-! ### The client, called back -/

/-- The arguments of the calls that a handler makes for the values of a batch. -/
def backItems (keys : List Bytes) (start : ℕ) (values : Bytes) : List ℕ → ℕ → ℕ → List KeyValueItem
  | [], _, _ => []
  | vsize :: vsizes, i, valOffset =>
    { index := (start + i) % 2 ^ 32
      key := keys.getD i []
      value := if vsize = keyNotFound then none else some (slice values valOffset vsize) } ::
    backItems keys start values vsizes (i + 1)
      (valOffset + if vsize ≤ lastValidSize then vsize else 0)

/-- `yk_fetch_back_ult`. It pulls the sizes and the values from the region `bulk`. -/
def ykFetchBackUlt (cb : Callback KeyValueItem) (keys : List Bytes) (start count size : ℕ)
    (bulk : Bytes) (history : History KeyValueItem) : ReturnCode × History KeyValueItem :=
  if keys.length < count then (.ERR_OTHER, history)
  else
    let vsizes := sizesOfMemory count bulk
    let values := slice bulk (8 * count) (size - 8 * count)
    invoke cb (backItems keys start values vsizes 0 0) history

/-- `yk_fetch_direct_back_ult`. -/
def ykFetchDirectBackUlt (cb : Callback KeyValueItem) (keys : List Bytes) (start : ℕ)
    (vsizes : List ℕ) (vals : Bytes) (history : History KeyValueItem) :
    ReturnCode × History KeyValueItem :=
  if keys.length < vsizes.length then (.ERR_OTHER, history)
  else invoke cb (backItems keys start vals vsizes 0 0) history

/-! ### The server -/

/-- `fetcher`: it collects the sizes and the values. -/
def fetcher (acc : List ℕ × Bytes) (_key : Bytes) (val : Option Bytes) : Status × List ℕ × Bytes :=
  (.OK, acc.1 ++ [entrySize val], acc.2 ++ val.getD [])

/-- `num_batches`. -/
def numBatches (count : ℕ) (batchSize : UInt32) : ℕ :=
  (count + batchSize.toNat - 1) / batchSize.toNat

section Server

variable {σ : Type} [DatabaseInterface σ]

open DatabaseInterface

/-- The loop over the batches that are left. `send` is the handler on the client, for the position
of a batch, its number of keys, and the sizes and values found. -/
def fetchBatches (mode : Mode) (batchSize : UInt32) (ksizes : List ℕ) (keys : Bytes)
    (send : ℕ → ℕ → List ℕ → Bytes → History KeyValueItem → ReturnCode × History KeyValueItem) :
    ℕ → ℕ → ℕ → σ → BackRpc KeyValueItem → ReturnCode × σ × BackRpc KeyValueItem
  | 0, _, _, s, p => (.SUCCESS, s, p)
  | n + 1, batchIndex, keysOffset, s, p =>
    let start := batchIndex * batchSize.toNat % 2 ^ 32
    let batch := (ksizes.drop start).take (min batchSize.toNat (ksizes.length - start))
    let total := accumulate batch
    match fetch mode s (slice keys keysOffset total) batch fetcher ([], []) with
    | (.OK, s, vsizes, values) =>
      let (ret, p) := p.waitForPrevious
      if ret ≠ .SUCCESS then (ret, s, p)
      else
        fetchBatches mode batchSize ksizes keys send n (batchIndex + 1) (keysOffset + total) s
          (p.forward (send start batch.length vsizes values))
    | (status, s, _) => (status.code, s, p)

/-- The end of the handlers, behind the loop. -/
def finishFetch (r : ReturnCode × σ × BackRpc KeyValueItem) :
    ReturnCode × History KeyValueItem × σ :=
  let ret := if r.1 = .STOP_ITERATION then .SUCCESS else r.1
  let (last, p) := r.2.2.waitForPrevious
  (if ret = .SUCCESS then last else ret, p.history, r.2.1)

/-- `yk_fetch_ult`, for the region `bulk` that the client exposes. -/
def ykFetchUlt (mode : Mode) (batchSize : UInt32) (count : ℕ) (bulk : Bytes) (size : ℕ)
    (send : ℕ → ℕ → List ℕ → Bytes → History KeyValueItem → ReturnCode × History KeyValueItem)
    (s : σ) : ReturnCode × History KeyValueItem × σ :=
  let batchSize := effectiveBatchSize batchSize count
  if !supportsMode σ mode then (.ERR_MODE, [], s)
  else
    let ksizes := sizesOfMemory count (slice bulk 0 (8 * count))
    let total := accumulate ksizes
    if 0 ∈ ksizes then (.ERR_INVALID_ARGS, [], s)
    else if size < addSize (8 * count) total then (.ERR_INVALID_ARGS, [], s)
    else
      finishFetch (fetchBatches mode batchSize ksizes (slice bulk (8 * count) total) send
        (numBatches count batchSize) 0 0 s {})

/-- `yk_fetch_direct_ult`. -/
def ykFetchDirectUlt (mode : Mode) (batchSize : UInt32) (ksizes : List ℕ) (keys : Bytes)
    (send : ℕ → ℕ → List ℕ → Bytes → History KeyValueItem → ReturnCode × History KeyValueItem)
    (s : σ) : ReturnCode × History KeyValueItem × σ :=
  let batchSize := effectiveBatchSize batchSize ksizes.length
  if !supportsMode σ mode then (.ERR_MODE, [], s)
  else if 0 ∈ ksizes then (.ERR_INVALID_ARGS, [], s)
  else
    finishFetch (fetchBatches mode batchSize ksizes keys send (numBatches ksizes.length batchSize)
      0 0 s {})

/-! ### The client -/

/-- The keys of the context, read from the region that the client exposes. -/
def contextKeys (bulk : Bytes) : ℕ → ℕ → ℕ → List Bytes
  | 0, _, _ => []
  | n + 1, ksizeOffset, keyOffset =>
    let ksize := decode (slice bulk ksizeOffset 8)
    slice bulk keyOffset ksize :: contextKeys bulk n (ksizeOffset + 8) (keyOffset + ksize)

/-- `yk_fetch_bulk`, on a region of its own process. -/
def ykFetchBulk (mode : Mode) (count : ℕ) (data : Bytes) (size : ℕ) (cb : Callback KeyValueItem)
    (batchSize : UInt32) (s : σ) : ReturnCode × History KeyValueItem × σ :=
  if count ≠ 0 ∧ size = 0 then (.ERR_INVALID_ARGS, [], s)
  else if !checkModeValid mode then (.ERR_MODE, [], s)
  else
    let keys := contextKeys data count 0 (8 * count)
    ykFetchUlt mode batchSize count data size
      (fun start count vsizes values =>
        ykFetchBackUlt cb keys start count (8 * vsizes.length + values.length)
          (sizesMemory vsizes ++ values)) s

/-- `yk_fetch_direct`. -/
def ykFetchDirect (mode : Mode) (keys : Bytes) (ksizes : List ℕ) (cb : Callback KeyValueItem)
    (batchSize : UInt32) (s : σ) : ReturnCode × History KeyValueItem × σ :=
  if ksizes.length = 0 then (.SUCCESS, [], s)
  else if !checkModeValid mode then (.ERR_MODE, [], s)
  else
    ykFetchDirectUlt mode batchSize ksizes keys
      (fun start _ vsizes vals => ykFetchDirectBackUlt cb (unpack keys ksizes) start vsizes vals) s

/-- `yk_fetch_packed`. -/
def ykFetchPacked (mode : Mode) (keys : Bytes) (ksizes : List ℕ) (cb : Callback KeyValueItem)
    (batchSize : UInt32) (s : σ) : ReturnCode × History KeyValueItem × σ :=
  if mode.has .noRdma then ykFetchDirect mode keys ksizes cb batchSize s
  else if ksizes.length = 0 then (.SUCCESS, [], s)
  else if accumulate ksizes = 0 then (.ERR_INVALID_ARGS, [], s)
  else
    ykFetchBulk mode ksizes.length (sizesMemory ksizes ++ keys)
      (addSize (8 * ksizes.length) (accumulate ksizes)) cb batchSize s

/-- `yk_fetch_multi`. -/
def ykFetchMulti (mode : Mode) (keys : List Bytes) (cb : Callback KeyValueItem)
    (batchSize : UInt32) (s : σ) : ReturnCode × History KeyValueItem × σ :=
  let ksizes := keys.map List.length
  if keys.length = 0 then (.SUCCESS, [], s)
  else if 0 ∈ ksizes then (.ERR_INVALID_ARGS, [], s)
  else
    ykFetchBulk mode keys.length (sizesMemory ksizes ++ keys.flatten)
      (accumulate (8 * keys.length :: ksizes)) cb batchSize s

end Server

/-! ### What a batch brings -/

section Batches

variable {σ : Type} [FiniteMapStore σ]

open DatabaseInterface FiniteMapStore

/-- The calls that a caller who asks for `keys` expects. -/
def expectedItems (m : Bytes → Option Bytes) (keys : List Bytes) : List KeyValueItem :=
  keys.mapIdx (fun j key => ⟨j, key, m key⟩)

/-- The calls that the client makes: each value comes with the key at its position within the
batch. -/
def deliveredItems (m : Bytes → Option Bytes) (b : ℕ) (keys : List Bytes) : List KeyValueItem :=
  keys.mapIdx (fun j key => ⟨j, keys.getD (j % b) [], m key⟩)

/-- The values of a batch are cut out again where they were put. -/
theorem backItems_eq (m : Bytes → Option Bytes) (keys : List Bytes) (start : ℕ) (pre : Bytes)
    {batch : List Bytes} (i : ℕ) (hindex : start + i + batch.length ≤ 2 ^ 32)
    (hvals : ∀ key ∈ batch, ∀ v, m key = some v → v.length ≤ lastValidSize) :
    backItems keys start (pre ++ (batch.map (fun key => (m key).getD [])).flatten)
        (batch.map (fun key => entrySize (m key))) i pre.length =
      batch.mapIdx (fun j key => ⟨start + (i + j), keys.getD (i + j) [], m key⟩) := by
  have hlast : lastValidSize < keyNotFound := by decide
  induction batch generalizing i pre with
  | nil => rfl
  | cons key batch ih =>
    rw [List.length_cons] at hindex
    have hrest := fun key' hkey' => hvals key' (List.mem_cons_of_mem key hkey')
    rw [List.map_cons, List.map_cons, List.flatten_cons, backItems, List.mapIdx_cons]
    congr 1
    · rw [Nat.mod_eq_of_lt (by omega), Nat.add_zero]
      cases hm : m key with
      | none => simp [entrySize]
      | some v =>
        have hv := hvals key List.mem_cons_self v hm
        have hne : v.length ≠ keyNotFound := by omega
        simp only [entrySize, hne, if_false, Option.getD_some, slice_middle]
    · have hnext : pre.length + (if entrySize (m key) ≤ lastValidSize then entrySize (m key)
          else 0) = (pre ++ (m key).getD []).length := by
        cases hm : m key with
        | none => simp [entrySize, Nat.not_le.2 hlast]
        | some v => simp [entrySize, hvals key List.mem_cons_self v hm]
      rw [hnext, ← List.append_assoc, ih (pre ++ (m key).getD []) (i + 1) (by omega) hrest]
      refine List.mapIdx_eq_mapIdx_iff.2 fun j _ => ?_
      rw [Nat.add_right_comm i 1 j, Nat.add_assoc i j 1]

theorem foldl_fetcher (m : Bytes → Option Bytes) (batch : List Bytes) (vsizes : List ℕ)
    (values : Bytes) :
    batch.foldl (fun acc key => (fetcher acc key (m key)).2) (vsizes, values) =
      (vsizes ++ batch.map (fun key => entrySize (m key)),
        values ++ (batch.map (fun key => (m key).getD [])).flatten) := by
  induction batch generalizing vsizes values with
  | nil => simp
  | cons key batch ih =>
    rw [List.foldl_cons, fetcher, ih, List.append_assoc, List.append_assoc]
    rfl

/-- The calls for a batch are the next ones. -/
theorem drop_deliveredItems (m : Bytes → Option Bytes) (keys : List Bytes) (b k : ℕ) :
    (deliveredItems m b keys).drop (k * b) =
      (((keys.drop (k * b)).take b).mapIdx fun j key => ⟨k * b + j, keys.getD j [], m key⟩) ++
        (deliveredItems m b keys).drop ((k + 1) * b) := by
  have hsplit := List.take_append_drop b ((deliveredItems m b keys).drop (k * b))
  rw [List.drop_drop, ← Nat.succ_mul] at hsplit
  rw [← hsplit]
  congr 1
  · refine List.ext_getElem? fun j => ?_
    rw [List.getElem?_take, List.getElem?_mapIdx, List.getElem?_take, List.getElem?_drop,
      List.getElem?_drop, deliveredItems, List.getElem?_mapIdx]
    split_ifs with hj
    · simp only [Nat.mul_add_mod_of_lt hj]
    · rfl

/-- How a handler of the client answers for a batch. -/
def Delivers (send : ℕ → ℕ → List ℕ → Bytes → History KeyValueItem →
    ReturnCode × History KeyValueItem) (m : Bytes → Option Bytes) (keys : List Bytes) : Prop :=
  ∀ (start : ℕ) (batch : List Bytes) (history : History KeyValueItem),
    start + batch.length ≤ 2 ^ 32 → batch.length ≤ keys.length →
    (∀ key ∈ batch, ∀ v, m key = some v → v.length ≤ lastValidSize) →
    send start batch.length (batch.map (fun key => entrySize (m key)))
        (batch.map (fun key => (m key).getD [])).flatten history =
      (.SUCCESS, history ++ (batch.mapIdx fun j key =>
        (⟨start + j, keys.getD j [], m key⟩ : KeyValueItem)).map (fun item => (item, .SUCCESS)))

/-- A batch that is still to come is not empty. -/
theorem start_lt_of_batch {count N b n k : ℕ} (hlt : N * b < count + b) (hk : k + (n + 1) = N) :
    k * b < count := by
  have hmul : (k + 1) * b ≤ N * b := Nat.mul_le_mul_right b (by omega)
  rw [Nat.succ_mul] at hmul
  omega

/-- One pass of the loop, for a batch that is not empty. -/
theorem fetchBatches_succ {mode : Mode} {batchSize : UInt32} {keys : List Bytes}
    (hcount : keys.length < 2 ^ 32) (hfit : keys.flatten.length < 2 ^ 64)
    (send : ℕ → ℕ → List ℕ → Bytes → History KeyValueItem → ReturnCode × History KeyValueItem)
    (n : ℕ) {k : ℕ} (hstart : k * batchSize.toNat < keys.length) (s : σ)
    (p : BackRpc KeyValueItem) :
    fetchBatches mode batchSize (keys.map List.length) keys.flatten send (n + 1) k
        (keys.take (k * batchSize.toNat)).flatten.length s p =
      (let batch := (keys.drop (k * batchSize.toNat)).take batchSize.toNat
       match fetch mode s batch.flatten (batch.map List.length) fetcher ([], []) with
       | (.OK, s, vsizes, values) =>
         let (ret, p) := p.waitForPrevious
         if ret ≠ .SUCCESS then (ret, s, p)
         else
           fetchBatches mode batchSize (keys.map List.length) keys.flatten send n (k + 1)
             (keys.take ((k + 1) * batchSize.toNat)).flatten.length s
             (p.forward (send (k * batchSize.toNat) batch.length vsizes values))
       | (status, s, _) => (status.code, s, p)) := by
  set b := batchSize.toNat with hb
  set batch := (keys.drop (k * b)).take b with hbatch
  have hsizes : ((keys.map List.length).drop (k * b)).take
      (min b ((keys.map List.length).length - k * b)) = batch.map List.length := by
    rw [hbatch, List.map_take, List.map_drop, List.length_map]
    have hlen : ((keys.map List.length).drop (k * b)).length = keys.length - k * b := by simp
    rw [← hlen, ← List.take_eq_take_min]
  have hnext : keys.take ((k + 1) * b) = keys.take (k * b) ++ batch := by
    rw [Nat.succ_mul, List.take_add]
  have hflat : keys.flatten = (keys.take (k * b)).flatten ++
      (batch.flatten ++ (keys.drop ((k + 1) * b)).flatten) := by
    rw [← List.append_assoc, ← List.flatten_append, ← hnext, ← List.flatten_append,
      List.take_append_drop]
  have hlength := congrArg List.length hflat
  rw [List.length_append, List.length_append] at hlength
  have hsum : (batch.map List.length).sum = batch.flatten.length := List.length_flatten.symm
  have htotal : accumulate (batch.map List.length) = batch.flatten.length := by
    rw [accumulate_eq (by rw [hsum]; omega), hsum]
  have hregion : slice keys.flatten (keys.take (k * b)).flatten.length batch.flatten.length =
      batch.flatten := by
    rw [hflat]
    exact slice_middle ..
  rw [fetchBatches, ← hb, Nat.mod_eq_of_lt (show k * b < 2 ^ 32 by omega), hsizes, htotal,
    hregion, List.length_map, hnext, List.flatten_append, List.length_append]

/-- A batch of keys is packed as `fetch` expects it. -/
theorem packed_batch {keys : List Bytes} (hfit : keys.flatten.length < 2 ^ 64) (i n : ℕ) :
    Packed (((keys.drop i).take n)).flatten (((keys.drop i).take n).map List.length) := by
  have hle : (((keys.drop i).take n)).flatten.length ≤ keys.flatten.length :=
    (((List.take_sublist n _).trans (List.drop_sublist i keys)).flatten).length_le
  have hsum : (((keys.drop i).take n).map List.length).sum =
    (((keys.drop i).take n)).flatten.length := List.length_flatten.symm
  exact ⟨hsum.le, by rw [hsum]; omega⟩

/-- The batches from the `k`-th on cause the calls from its first key on. -/
theorem fetchBatches_spec {s : σ} (hs : Serving s) {mode : Mode} (hwait : mode.has .wait = false)
    (hconsume : mode.has .consume = false) {batchSize : UInt32} {keys : List Bytes}
    (hcount : keys.length < 2 ^ 32) (hfit : keys.flatten.length < 2 ^ 64)
    (hvals : ∀ key ∈ keys, ∀ v, contents s key = some v → v.length ≤ lastValidSize)
    {send : ℕ → ℕ → List ℕ → Bytes → History KeyValueItem → ReturnCode × History KeyValueItem}
    (hsend : Delivers send (contents s) keys) {N : ℕ}
    (hle : keys.length ≤ N * batchSize.toNat)
    (hlt : N * batchSize.toNat < keys.length + batchSize.toNat) (n k : ℕ) (hk : k + n = N)
    (p : BackRpc KeyValueItem) (hp : p.Clear) :
    ∃ p', fetchBatches mode batchSize (keys.map List.length) keys.flatten send n k
        (keys.take (k * batchSize.toNat)).flatten.length s p = (.SUCCESS, s, p') ∧ p'.Clear ∧
      p'.history = p.history ++ ((deliveredItems (contents s) batchSize.toNat keys).drop
        (k * batchSize.toNat)).map (fun item => (item, .SUCCESS)) := by
  -- `k` batches are answered, with `n` left; the answer to the last one is a success
  induction n generalizing k p with
  | zero =>
    refine ⟨p, rfl, hp, ?_⟩
    rw [List.drop_of_length_le (by rw [deliveredItems, List.length_mapIdx]; subst hk; exact hle)]
    simp
  | succ n ih =>
    have hstart : k * batchSize.toNat < keys.length := start_lt_of_batch hlt hk
    rw [fetchBatches_succ hcount hfit send n hstart]
    have hpacked := packed_batch hfit (k * batchSize.toNat) batchSize.toNat
    set b := batchSize.toNat with hb
    set batch := (keys.drop (k * b)).take b with hbatch
    have hmem : ∀ key ∈ batch, key ∈ keys := fun key hkey =>
      List.mem_of_mem_drop (List.mem_of_mem_take hkey)
    have hfetch : fetch mode s batch.flatten (batch.map List.length) fetcher ([], []) =
        (.OK, s, batch.map (fun key => entrySize (contents s key)),
          (batch.map (fun key => (contents s key).getD [])).flatten) := by
      rw [fetch_eq hs hwait hconsume hpacked fun _ _ _ => rfl, unpack_flatten, foldl_fetcher,
        List.nil_append, List.nil_append]
    have hlen : batch.length ≤ b ∧ k * b + batch.length ≤ keys.length := by
      rw [hbatch, List.length_take, List.length_drop]
      omega
    have hforward := hsend (k * b) batch p.history (by omega) (by omega)
      fun key hkey => hvals key (hmem key hkey)
    obtain ⟨p', hr, hclear, hhistory⟩ := ih (k + 1) (by omega)
      (BackRpc.forward ⟨none, p.history⟩ (send (k * b) batch.length
        (batch.map (fun key => entrySize (contents s key)))
        (batch.map (fun key => (contents s key).getD [])).flatten))
      (by rw [BackRpc.Clear, BackRpc.forward, hforward]; rfl)
    refine ⟨p', ?_, hclear, ?_⟩
    · simp only [hfetch, BackRpc.waitForPrevious_of_clear hp, ne_eq, not_true_eq_false, if_false]
      exact hr
    · rw [hhistory, BackRpc.forward, hforward, drop_deliveredItems (contents s) keys b k,
        List.map_append, List.append_assoc]

/-! ### The two paths -/

/-- A handler of the client that calls the callback on the items of a batch, whatever it returns. -/
def Invokes (cb : Callback KeyValueItem) (send : ℕ → ℕ → List ℕ → Bytes → History KeyValueItem →
    ReturnCode × History KeyValueItem) (keys : List Bytes) : Prop :=
  ∀ (m : Bytes → Option Bytes) (start : ℕ) (batch : List Bytes) (history : History KeyValueItem),
    start + batch.length ≤ 2 ^ 32 → batch.length ≤ keys.length →
    (∀ key ∈ batch, ∀ v, m key = some v → v.length ≤ lastValidSize) →
    send start batch.length (batch.map (fun key => entrySize (m key)))
        (batch.map (fun key => (m key).getD [])).flatten history =
      invoke cb (batch.mapIdx fun j key => ⟨start + j, keys.getD j [], m key⟩) history

theorem Invokes.delivers {cb : Callback KeyValueItem} (hcb : cb.Succeeds) {keys : List Bytes}
    {send : ℕ → ℕ → List ℕ → Bytes → History KeyValueItem → ReturnCode × History KeyValueItem}
    (h : Invokes cb send keys) (m : Bytes → Option Bytes) : Delivers send m keys := by
  intro start batch history hstart hlen hvals
  rw [h m start batch history hstart hlen hvals, invoke_of_succeeds hcb]

theorem invokes_direct (cb : Callback KeyValueItem) (keys : List Bytes) :
    Invokes cb (fun start _ vsizes vals => ykFetchDirectBackUlt cb keys start vsizes vals) keys := by
  intro m start batch history hstart hlen hvals
  have hitems := backItems_eq m keys start [] 0 hstart hvals
  simp only [List.nil_append, List.length_nil, Nat.zero_add] at hitems
  dsimp only
  rw [ykFetchDirectBackUlt, List.length_map, if_neg (Nat.not_lt.2 hlen), hitems]

/-- The region of a batch is read back on the client. -/
theorem invokes_rdma (cb : Callback KeyValueItem) (keys : List Bytes) :
    Invokes cb (fun start count vsizes values =>
      ykFetchBackUlt cb keys start count (8 * vsizes.length + values.length)
        (sizesMemory vsizes ++ values)) keys := by
  intro m start batch history hstart hlen hvals
  have hitems := backItems_eq m keys start [] 0 hstart hvals
  simp only [List.nil_append, List.length_nil, Nat.zero_add] at hitems
  have hsizes : ∀ size ∈ batch.map (fun key => entrySize (m key)), size < 2 ^ 64 := by
    have hmax : lastValidSize < 2 ^ 64 ∧ keyNotFound < 2 ^ 64 := by decide
    intro size hsize
    obtain ⟨key, hkey, rfl⟩ := List.mem_map.1 hsize
    cases hm : m key with
    | none => exact hmax.2
    | some v => exact (hvals key hkey v hm).trans_lt hmax.1
  have hread := sizesOfMemory_append hsizes (batch.map (fun key => (m key).getD [])).flatten
  rw [List.length_map] at hread
  have hslice := slice_append_right (sizesMemory (batch.map (fun key => entrySize (m key))))
    (batch.map (fun key => (m key).getD [])).flatten 0
    (batch.map (fun key => (m key).getD [])).flatten.length
  rw [Nat.add_zero, length_sizesMemory, List.length_map] at hslice
  have hall : ∀ l : Bytes, slice l 0 l.length = l := fun l => by simp [slice]
  dsimp only
  rw [ykFetchBackUlt, if_neg (Nat.not_lt.2 hlen), List.length_map, Nat.add_sub_cancel_left]
  dsimp only
  rw [hread, hslice, hall, hitems]

/-- The keys of the context are those that the client exposes. -/
theorem contextKeys_eq {keys : List Bytes} (hkeys : ∀ key ∈ keys, key.length < 2 ^ 64)
    (P Q : Bytes) :
    contextKeys (P ++ (sizesMemory (keys.map List.length) ++ (Q ++ keys.flatten))) keys.length
      P.length (P.length + (8 * keys.length + Q.length)) = keys := by
  induction keys generalizing P Q with
  | nil => rfl
  | cons key keys ih =>
    have hkey : key.length < 256 ^ 8 := hkeys key List.mem_cons_self
    have ih := ih (fun k hk => hkeys k (List.mem_cons_of_mem _ hk)) (P ++ encode 8 key.length)
      (Q ++ key)
    have hbulk : P ++ (sizesMemory ((key :: keys).map List.length) ++ (Q ++ (key :: keys).flatten)) =
        P ++ encode 8 key.length ++ (sizesMemory (keys.map List.length) ++
          (Q ++ key ++ keys.flatten)) := by
      simp [sizesMemory]
    have hsize : slice (P ++ encode 8 key.length ++ (sizesMemory (keys.map List.length) ++
        (Q ++ key ++ keys.flatten))) P.length 8 = encode 8 key.length := by
      have hmiddle := slice_middle P (encode 8 key.length)
        (sizesMemory (keys.map List.length) ++ (Q ++ key ++ keys.flatten))
      rwa [length_encode, ← List.append_assoc] at hmiddle
    have hslice : slice (P ++ encode 8 key.length ++ (sizesMemory (keys.map List.length) ++
        (Q ++ key ++ keys.flatten))) (P.length + (8 * (keys.length + 1) + Q.length)) key.length =
          key := by
      have hmiddle := slice_middle (P ++ encode 8 key.length ++
        (sizesMemory (keys.map List.length) ++ Q)) key keys.flatten
      have hoff : (P ++ encode 8 key.length ++ (sizesMemory (keys.map List.length) ++ Q)).length =
          P.length + (8 * (keys.length + 1) + Q.length) := by
        simp only [List.length_append, length_encode, length_sizesMemory, List.length_map]
        omega
      rw [hoff] at hmiddle
      simpa only [List.append_assoc] using hmiddle
    rw [List.length_cons, contextKeys, hbulk, hsize, decode_encode_of_lt hkey, hslice]
    congr 1
    rw [List.length_append, List.length_append, length_encode] at ih
    have hoff : P.length + (8 * (keys.length + 1) + Q.length) + key.length =
      P.length + 8 + (8 * keys.length + (Q.length + key.length)) := by omega
    rw [hoff]
    exact ih

/-! ### From end to end -/

/-- Batches of the given size cover all keys, and none of them is empty. -/
theorem numBatches_spec {count : ℕ} {batchSize : UInt32} (hpos : 0 < batchSize.toNat)
    (hcount : 0 < count) :
    count ≤ numBatches count batchSize * batchSize.toNat ∧
      numBatches count batchSize * batchSize.toNat < count + batchSize.toNat := by
  unfold numBatches
  have hdiv := Nat.div_add_mod' (count + batchSize.toNat - 1) batchSize.toNat
  have hmod := Nat.mod_lt (count + batchSize.toNat - 1) hpos
  omega

/-- What a fetch of `keys` from `s` relies on: the database answers in this mode, no key is empty,
and the sizes of keys and values are proper sizes. -/
structure Fetchable (mode : Mode) (keys : List Bytes) (s : σ) : Prop where
  serving : Serving s
  valid : checkModeValid mode = true
  supported : supportsMode σ mode = true
  wait : mode.has .wait = false
  consume : mode.has .consume = false
  nonempty : ∀ key ∈ keys, key ≠ []
  count_lt : keys.length < 2 ^ 32
  fit : 8 * keys.length + keys.flatten.length < 2 ^ 64
  values : ∀ key ∈ keys, ∀ v, contents s key = some v → v.length ≤ lastValidSize

variable {mode : Mode} {keys : List Bytes} {s : σ} {cb : Callback KeyValueItem}

/-- The calls that a callback that succeeds gets. -/
def deliveredCalls (m : Bytes → Option Bytes) (batchSize : UInt32) (keys : List Bytes) :
    History KeyValueItem :=
  (deliveredItems m (effectiveBatchSize batchSize keys.length).toNat keys).map
    fun item => (item, .SUCCESS)

/-- A request that passes the checks of the client and of the server, whether it consumes or not. -/
structure FetchRequest (mode : Mode) (keys : List Bytes) (s : σ) : Prop where
  serving : Serving s
  valid : checkModeValid mode = true
  supported : supportsMode σ mode = true
  wait : mode.has .wait = false
  nonempty : ∀ key ∈ keys, key ≠ []
  count_lt : keys.length < 2 ^ 32
  fit : 8 * keys.length + keys.flatten.length < 2 ^ 64
  values : ∀ key ∈ keys, ∀ v, contents s key = some v → v.length ≤ lastValidSize

theorem ykFetchPacked_nil (mode : Mode) (cb : Callback KeyValueItem) (batchSize : UInt32) (s : σ) :
    ykFetchPacked mode [] [] cb batchSize s = (.SUCCESS, [], s) := by
  rw [ykFetchPacked]
  split_ifs with hrdma hempty
  · exact if_pos rfl
  · rfl
  · exact absurd rfl hempty
  · exact absurd rfl hempty

/-- The loop over all batches of a request. -/
def requestBatches (mode : Mode) (batchSize : UInt32) (keys : List Bytes)
    (send : ℕ → ℕ → List ℕ → Bytes → History KeyValueItem → ReturnCode × History KeyValueItem)
    (s : σ) : ReturnCode × σ × BackRpc KeyValueItem :=
  fetchBatches mode (effectiveBatchSize batchSize keys.length) (keys.map List.length) keys.flatten
    send (numBatches keys.length (effectiveBatchSize batchSize keys.length)) 0 0 s {}

namespace FetchRequest

theorem zero_notMem (h : FetchRequest mode keys s) : 0 ∉ keys.map List.length := by
  intro hmem
  obtain ⟨key, hkey, hlen⟩ := List.mem_map.1 hmem
  exact h.nonempty key hkey (List.length_eq_zero_iff.1 hlen)

theorem accumulate_eq (h : FetchRequest mode keys s) :
    accumulate (keys.map List.length) = keys.flatten.length := by
  have hfit := h.fit
  rw [Yokan.accumulate_eq (by rw [← List.length_flatten]; omega), List.length_flatten]

theorem direct_eq (h : FetchRequest mode keys s) (hne : keys ≠ []) (cb : Callback KeyValueItem)
    (batchSize : UInt32) : ∃ send, Invokes cb send keys ∧
      ykFetchDirect mode keys.flatten (keys.map List.length) cb batchSize s =
        finishFetch (requestBatches mode batchSize keys send s) := by
  refine ⟨_, invokes_direct cb keys, ?_⟩
  rw [ykFetchDirect, List.length_map, if_neg fun he => hne (List.length_eq_zero_iff.1 he), h.valid,
    unpack_flatten, ykFetchDirectUlt, h.supported, if_neg h.zero_notMem, List.length_map]
  rfl

theorem bulk_eq (h : FetchRequest mode keys s) (hne : keys ≠ []) (cb : Callback KeyValueItem)
    (batchSize : UInt32) : ∃ send, Invokes cb send keys ∧
      ykFetchBulk mode keys.length (sizesMemory (keys.map List.length) ++ keys.flatten)
          (8 * keys.length + keys.flatten.length) cb batchSize s =
        finishFetch (requestBatches mode batchSize keys send s) := by
  refine ⟨_, invokes_rdma cb keys, ?_⟩
  have hfit := h.fit
  have hpos := List.length_pos_of_ne_nil hne
  have hlt : ∀ key ∈ keys, key.length < 2 ^ 64 := by
    intro key hkey
    have hle : key.length ≤ keys.flatten.length := by
      rw [List.length_flatten]
      exact List.single_le_sum (by simp) _ (List.mem_map_of_mem hkey)
    omega
  have hsizes : ∀ size ∈ keys.map List.length, size < 2 ^ 64 := by
    intro size hsize
    obtain ⟨key, hkey, rfl⟩ := List.mem_map.1 hsize
    exact hlt key hkey
  have hcontext := contextKeys_eq hlt [] []
  simp only [List.nil_append, List.length_nil, Nat.zero_add, Nat.add_zero] at hcontext
  have hfront : slice (sizesMemory (keys.map List.length) ++ keys.flatten) 0 (8 * keys.length) =
      sizesMemory (keys.map List.length) := by
    have hfull := slice_full (sizesMemory (keys.map List.length)) keys.flatten
    rwa [length_sizesMemory, List.length_map] at hfull
  have hback : slice (sizesMemory (keys.map List.length) ++ keys.flatten) (8 * keys.length)
      keys.flatten.length = keys.flatten := by
    have hmiddle := slice_middle (sizesMemory (keys.map List.length)) keys.flatten []
    rwa [List.append_nil, length_sizesMemory, List.length_map] at hmiddle
  have hread := sizesOfMemory_append hsizes []
  rw [List.append_nil, List.length_map] at hread
  rw [ykFetchBulk, if_neg (by omega), h.valid, hcontext, ykFetchUlt, h.supported, hfront, hread]
  simp only [Bool.not_true, Bool.false_eq_true, if_false, h.accumulate_eq, hback]
  rw [if_neg h.zero_notMem, addSize_eq h.fit, if_neg (Nat.lt_irrefl _)]
  rfl

theorem packed_eq (h : FetchRequest mode keys s) (hne : keys ≠ []) (cb : Callback KeyValueItem)
    (batchSize : UInt32) : ∃ send, Invokes cb send keys ∧
      ykFetchPacked mode keys.flatten (keys.map List.length) cb batchSize s =
        finishFetch (requestBatches mode batchSize keys send s) := by
  rw [ykFetchPacked]
  split_ifs with hrdma hzero hempty
  · exact h.direct_eq hne cb batchSize
  · rw [List.length_map, List.length_eq_zero_iff] at hzero
    exact absurd hzero hne
  · rw [h.accumulate_eq, List.length_eq_zero_iff, List.flatten_eq_nil_iff] at hempty
    obtain ⟨key, hkey⟩ := List.exists_mem_of_ne_nil keys hne
    exact absurd (hempty key hkey) (h.nonempty key hkey)
  · rw [List.length_map, h.accumulate_eq, addSize_eq h.fit]
    exact h.bulk_eq hne cb batchSize

theorem multi_eq (h : FetchRequest mode keys s) (hne : keys ≠ []) (cb : Callback KeyValueItem)
    (batchSize : UInt32) : ∃ send, Invokes cb send keys ∧
      ykFetchMulti mode keys cb batchSize s =
        finishFetch (requestBatches mode batchSize keys send s) := by
  have hfit := h.fit
  have htotal : accumulate (8 * keys.length :: keys.map List.length) =
      8 * keys.length + keys.flatten.length := by
    rw [Yokan.accumulate_eq (by rw [List.sum_cons, ← List.length_flatten]; omega), List.sum_cons,
      List.length_flatten]
  unfold ykFetchMulti
  dsimp only
  rw [if_neg fun he => hne (List.length_eq_zero_iff.1 he), if_neg h.zero_notMem, htotal]
  exact h.bulk_eq hne cb batchSize

end FetchRequest

namespace Fetchable

theorem request (h : Fetchable mode keys s) : FetchRequest mode keys s where
  serving := h.serving
  valid := h.valid
  supported := h.supported
  wait := h.wait
  nonempty := h.nonempty
  count_lt := h.count_lt
  fit := h.fit
  values := h.values

/-- The batches of a whole request. -/
theorem finishFetch_eq (h : Fetchable mode keys s) (hne : keys ≠ []) (hcb : cb.Succeeds)
    (batchSize : UInt32)
    {send : ℕ → ℕ → List ℕ → Bytes → History KeyValueItem → ReturnCode × History KeyValueItem}
    (hsend : Invokes cb send keys) :
    finishFetch (requestBatches mode batchSize keys send s) =
      (.SUCCESS, deliveredCalls (contents s) batchSize keys, s) := by
  have hfit := h.fit
  have hpos := List.length_pos_of_ne_nil hne
  obtain ⟨hle, hlt⟩ := numBatches_spec (effectiveBatchSize_pos batchSize hpos h.count_lt) hpos
  obtain ⟨p, hr, hclear, hhistory⟩ := fetchBatches_spec h.serving h.wait h.consume h.count_lt
    (by omega) h.values (hsend.delivers hcb _) hle hlt _ 0 (Nat.zero_add _) {} rfl
  rw [Nat.zero_mul, List.take_zero, List.flatten_nil, List.length_nil] at hr
  rw [Nat.zero_mul, List.drop_zero, List.nil_append] at hhistory
  rw [requestBatches, hr, finishFetch]
  simp only [reduceCtorEq, if_false, if_true, BackRpc.waitForPrevious_of_clear hclear, hhistory]
  rfl

theorem packed_eq (h : Fetchable mode keys s) (hcb : cb.Succeeds) (batchSize : UInt32) :
    (ykFetchPacked mode keys.flatten (keys.map List.length) cb batchSize s).2.1 =
      deliveredCalls (contents s) batchSize keys := by
  by_cases hne : keys = []
  · rw [hne]
    exact congrArg (·.2.1) (ykFetchPacked_nil mode cb batchSize s)
  · obtain ⟨send, hsend, heq⟩ := h.request.packed_eq hne cb batchSize
    rw [heq, h.finishFetch_eq hne hcb batchSize hsend]

theorem multi_eq (h : Fetchable mode keys s) (hcb : cb.Succeeds) (batchSize : UInt32) :
    (ykFetchMulti mode keys cb batchSize s).2.1 = deliveredCalls (contents s) batchSize keys := by
  by_cases hne : keys = []
  · rw [hne]
    rfl
  · obtain ⟨send, hsend, heq⟩ := h.request.multi_eq hne cb batchSize
    rw [heq, h.finishFetch_eq hne hcb batchSize hsend]

end Fetchable

/-- Each key is the key at its position within its batch. -/
def BatchesAlike (b : ℕ) (keys : List Bytes) : Prop :=
  ∀ j < keys.length, keys[j % b]? = keys[j]?

theorem deliveredItems_eq_expectedItems_iff (m : Bytes → Option Bytes) (b : ℕ)
    (keys : List Bytes) : deliveredItems m b keys = expectedItems m keys ↔ BatchesAlike b keys := by
  rw [deliveredItems, expectedItems, List.mapIdx_eq_mapIdx_iff]
  refine forall₂_congr fun j hj => ?_
  have hmod : j % b < keys.length := (Nat.mod_le j b).trans_lt hj
  rw [List.getElem?_eq_getElem hj, List.getElem?_eq_getElem hmod, List.getD_eq_getElem?_getD,
    List.getElem?_eq_getElem hmod]
  simp

/-- On every path, a fetch calls a callback that succeeds once for each key, with its index, its
bytes and its value, exactly if each key is the key at its position within its batch. -/
theorem fetch_calls_iff (h : Fetchable mode keys s) (batchSize : UInt32) :
    ((∀ cb : Callback KeyValueItem, cb.Succeeds →
        (ykFetchPacked mode keys.flatten (keys.map List.length) cb batchSize s).2.1 =
          (expectedItems (contents s) keys).map (fun item => (item, .SUCCESS))) ↔
      BatchesAlike (effectiveBatchSize batchSize keys.length).toNat keys) ∧
    ((∀ cb : Callback KeyValueItem, cb.Succeeds →
        (ykFetchMulti mode keys cb batchSize s).2.1 =
          (expectedItems (contents s) keys).map (fun item => (item, .SUCCESS))) ↔
      BatchesAlike (effectiveBatchSize batchSize keys.length).toNat keys) := by
  have hinj : Function.Injective fun item : KeyValueItem => (item, ReturnCode.SUCCESS) :=
    fun _ _ he => (Prod.mk.inj he).1
  have hiff : deliveredCalls (contents s) batchSize keys =
      (expectedItems (contents s) keys).map (fun item => (item, .SUCCESS)) ↔
        BatchesAlike (effectiveBatchSize batchSize keys.length).toNat keys := by
    rw [deliveredCalls, hinj.list_map.eq_iff, deliveredItems_eq_expectedItems_iff]
  refine ⟨?_, ?_⟩
  · rw [← hiff]
    refine ⟨fun hcalls => ?_, fun heq cb hcb => (h.packed_eq hcb batchSize).trans heq⟩
    rw [← hcalls (fun _ _ => .SUCCESS) fun _ _ => rfl, h.packed_eq (fun _ _ => rfl)]
  · rw [← hiff]
    refine ⟨fun hcalls => ?_, fun heq cb hcb => (h.multi_eq hcb batchSize).trans heq⟩
    rw [← hcalls (fun _ _ => .SUCCESS) fun _ _ => rfl, h.multi_eq (fun _ _ => rfl)]

end Batches

/-- Two keys that a database does not have. -/
theorem fetchable_two : Fetchable .default [[1], [2]] (MapDatabase.empty .default) where
  serving := rfl
  valid := by decide
  supported := by decide
  wait := by decide
  consume := by decide
  nonempty := by decide
  count_lt := by decide
  fit := by decide
  values key _ v h := by
    have hnone : (MapDatabase.empty .default).find key = none := Std.ExtTreeMap.getElem?_empty
    cases hnone.symm.trans h

/-- A database with the first of two keys. -/
def firstKey : MapDatabase .default := (MapDatabase.empty .default).assign [1] [7]

theorem fetchable_firstKey : Fetchable .default [[1], [2]] firstKey :=
  { fetchable_two with
    serving := rfl
    values := by
      intro key _ v hv
      have hfind : firstKey.find key = some v := hv
      rw [firstKey, MapDatabase.find_assign, Function.update_apply] at hfind
      split_ifs at hfind
      · obtain rfl := Option.some.inj hfind
        decide
      · cases Std.ExtTreeMap.getElem?_empty.symm.trans hfind }

/-- The calls for two keys in one batch, and not in batches of one. -/
theorem fetch_calls_iff_two :
    let calls := [(⟨0, [1], some [7]⟩, ReturnCode.SUCCESS), (⟨1, [2], none⟩, .SUCCESS)]
    (∀ cb : Callback KeyValueItem, cb.Succeeds →
        (ykFetchPacked .default [1, 2] [1, 1] cb 0 firstKey).2.1 = calls) ∧
      (∀ cb : Callback KeyValueItem, cb.Succeeds →
        (ykFetchMulti .default [[1], [2]] cb 0 firstKey).2.1 = calls) ∧
      ¬ ∀ cb : Callback KeyValueItem, cb.Succeeds →
        (ykFetchPacked .default [1, 2] [1, 1] cb 1 firstKey).2.1 = calls := by
  have hone : BatchesAlike (effectiveBatchSize 0 2).toNat [[1], [2]] := by
    unfold BatchesAlike
    decide
  have htwo : ¬ BatchesAlike (effectiveBatchSize 1 2).toNat [[1], [2]] := by
    unfold BatchesAlike
    decide
  obtain ⟨hpacked, hmulti⟩ := fetch_calls_iff fetchable_firstKey 0
  exact ⟨hpacked.2 hone, hmulti.2 hone,
    fun hcalls => htwo ((fetch_calls_iff fetchable_firstKey 1).1.1 hcalls)⟩

/-- The second batch comes with the key of the first one. -/
theorem fetch_second_batch :
    ¬ ∀ (mode : Mode) (keys : List Bytes) (s : MapDatabase .default) (batchSize : UInt32)
      (cb : Callback KeyValueItem), Fetchable mode keys s → cb.Succeeds →
        (ykFetchPacked mode keys.flatten (keys.map List.length) cb batchSize s).2.1 =
          (expectedItems s.find keys).map (fun item => (item, .SUCCESS)) := by
  intro h
  have hcalls := h .default [[1], [2]] (MapDatabase.empty .default) 1 (fun _ _ => .SUCCESS)
    fetchable_two fun _ _ => rfl
  revert hcalls
  decide

end Yokan
