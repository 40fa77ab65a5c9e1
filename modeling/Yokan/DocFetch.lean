import Yokan.Fetch
import Yokan.ArrayRefinement

/-!
# Yokan: fetching documents through a callback

`yk_doc_fetch_multi` from end to end: the client and its handlers (`src/client/doc_fetch.cpp`), and
the handler of the server (`src/server/doc_fetch.cpp`). The ids travel inside the RPC. The server
cuts them into batches, and sends the sizes and the bytes of the documents of a batch back with the
position of its first id, inside an RPC or through a region that the client pulls. A document that
is absent has a size and no bytes. The client finds the ids of a batch in its own array, from that
position on.

* `batches_spec`: the calls that the batches cause, from any batch on;
* `doc_fetch_delivered`: the callback is called once for each id, in order.
-/

namespace Yokan

open Buffer LittleEndian

/-- The arguments of a `yk_document_callback_t`. The document is absent where its size is
`YOKAN_KEY_NOT_FOUND`. -/
structure DocItem where
  index : ℕ
  id : UInt64
  doc : Option Bytes
  deriving DecidableEq

/-- What a fetch uses of a database with documents. -/
class DocFetchInterface (σ : Type) where
  supportsMode : Mode → Bool
  docFetch : {υ : Type} → CString → Mode → σ → List UInt64 →
    (υ → UInt64 → Option Bytes → Status × υ) → υ → Status × σ × υ

instance : DocFetchInterface ArrayDatabase where
  supportsMode := ArrayDatabase.supportsMode
  docFetch name _ s ids func u :=
    let r := s.docFetch name ids func u
    (r.1, s, r.2)

namespace DocFetch

/-! ### The client, called back -/

/-- `invoke_callback_on_docs`: the arguments of the calls for the sizes of a batch. -/
def backItems (ids : List UInt64) (start : ℕ) (docs : Bytes) : List ℕ → ℕ → ℕ → List DocItem
  | [], _, _ => []
  | docSize :: docSizes, i, docOffset =>
    { index := (start + i) % 2 ^ 32
      id := ids.getD i 0
      doc := if docSize = keyNotFound then none else some (slice docs docOffset docSize) } ::
    backItems ids start docs docSizes (i + 1)
      (docOffset + if docSize ≤ lastValidSize then docSize else 0)

/-- `bulk_to_docs`. It pulls the sizes and the documents from the region `bulk`. -/
def bulkToDocs (cb : Callback DocItem) (ids : List UInt64) (start count : ℕ) (bulk : Bytes)
    (size : ℕ) (history : History DocItem) : ReturnCode × History DocItem :=
  let docSizes := sizesOfMemory count bulk
  let docs := slice bulk (8 * count) (size - 8 * count)
  invoke cb (backItems (ids.drop start) start docs docSizes 0 0) history

/-- `yk_doc_fetch_back_ult`. -/
def ykDocFetchBackUlt (cb : Callback DocItem) (ids : List UInt64) (start count size : ℕ)
    (bulk : Bytes) (history : History DocItem) : ReturnCode × History DocItem :=
  if ids.length < count then (.ERR_OTHER, history)
  else bulkToDocs cb ids start count bulk size history

/-- `yk_doc_fetch_direct_back_ult`. -/
def ykDocFetchDirectBackUlt (cb : Callback DocItem) (ids : List UInt64) (start : ℕ)
    (docSizes : List ℕ) (docs : Bytes) (history : History DocItem) :
    ReturnCode × History DocItem :=
  if ids.length < docSizes.length then (.ERR_OTHER, history)
  else invoke cb (backItems (ids.drop start) start docs docSizes 0 0) history

/-! ### The server -/

/-- `fetcher`: it collects the sizes and the documents. -/
def fetcher (acc : List ℕ × Bytes) (_id : UInt64) (doc : Option Bytes) : Status × List ℕ × Bytes :=
  (.OK, acc.1 ++ [entrySize doc], acc.2 ++ doc.getD [])

/-- The handler on the client that a batch is sent to: it gets the position of the batch, its number
of ids, and the sizes and documents found. -/
abbrev Send := ℕ → ℕ → List ℕ → Bytes → History DocItem → ReturnCode × History DocItem

section Server

variable {σ : Type} [DocFetchInterface σ]

open DocFetchInterface

/-- The loop over the batches that are left. -/
def batches (name : CString) (mode : Mode) (batchSize : UInt32) (ids : List UInt64) (send : Send) :
    ℕ → ℕ → σ → BackRpc DocItem → ReturnCode × σ × BackRpc DocItem
  | 0, _, s, p => (.SUCCESS, s, p)
  | n + 1, batchIndex, s, p =>
    let idsStart := batchSize.toNat * batchIndex
    let batch := (ids.drop idsStart).take (min batchSize.toNat (ids.length - idsStart))
    match docFetch name mode s batch fetcher ([], []) with
    | (.OK, s, docSizes, docs) =>
      let (ret, p) := p.waitForPrevious
      if ret ≠ .SUCCESS then (ret, s, p)
      else
        batches name mode batchSize ids send n (batchIndex + 1) s
          (p.forward (send idsStart batch.length docSizes docs))
    | (status, s, _) => (status.code, s, p)

/-- `yk_doc_fetch_ult`. -/
def ykDocFetchUlt (name : CString) (mode : Mode) (batchSize : UInt32) (ids : List UInt64)
    (send : Send) (s : σ) : ReturnCode × History DocItem × σ :=
  let batchSize := effectiveBatchSize batchSize ids.length
  if !supportsMode σ mode then (.ERR_MODE, [], s)
  else
    let (ret, s, p) :=
      batches name mode batchSize ids send (numBatches ids.length batchSize) 0 s {}
    let ret := if ret = .STOP_ITERATION then .SUCCESS else ret
    let (last, p) := p.waitForPrevious
    (if ret = .SUCCESS then last else ret, p.history, s)

/-! ### The client -/

/-- `doc_fetch_base`, for a count that is the number of ids. -/
def docFetchBase (name : CString) (mode : Mode) (ids : List UInt64) (send : Send)
    (batchSize : UInt32) (s : σ) : ReturnCode × History DocItem × σ :=
  if ids.length = 0 then (.SUCCESS, [], s)
  else if !checkModeValid mode then (.ERR_MODE, [], s)
  else ykDocFetchUlt name mode batchSize ids send s

/-- `yk_doc_fetch_multi`. -/
def ykDocFetchMulti (name : CString) (mode : Mode) (ids : List UInt64) (cb : Callback DocItem)
    (batchSize : UInt32) (s : σ) : ReturnCode × History DocItem × σ :=
  if mode.has .noRdma then
    docFetchBase name mode ids
      (fun start _ docSizes docs => ykDocFetchDirectBackUlt cb ids start docSizes docs) batchSize s
  else
    docFetchBase name mode ids
      (fun start count docSizes docs =>
        ykDocFetchBackUlt cb ids start count (8 * docSizes.length + docs.length)
          (sizesMemory docSizes ++ docs)) batchSize s

end Server

/-! ### What a batch brings -/

/-- The calls that a caller who asks for `ids` expects. -/
def expectedItems (m : UInt64 → Option Bytes) (ids : List UInt64) : List DocItem :=
  ids.mapIdx (fun j id => ⟨j, id, m id⟩)

/-- A `docFetch` that calls back once for each id, in order, with the document of the id. -/
def FetchesInOrder {σ : Type} [DocFetchInterface σ] (name : CString) (mode : Mode) (s : σ)
    (m : UInt64 → Option Bytes) : Prop :=
  ∀ {υ : Type} (ids : List UInt64) (func : υ → UInt64 → Option Bytes → Status × υ) (u : υ),
    (∀ u id doc, (func u id doc).1 = .OK) →
    DocFetchInterface.docFetch name mode s ids func u =
      (.OK, s, ids.foldl (fun u id => (func u id (m id)).2) u)

theorem foldl_fetcher (m : UInt64 → Option Bytes) (batch : List UInt64) (docSizes : List ℕ)
    (docs : Bytes) :
    batch.foldl (fun acc id => (fetcher acc id (m id)).2) (docSizes, docs) =
      (docSizes ++ batch.map (fun id => entrySize (m id)),
        docs ++ (batch.map (fun id => (m id).getD [])).flatten) := by
  induction batch generalizing docSizes docs with
  | nil => simp
  | cons id batch ih =>
    rw [List.foldl_cons, fetcher, ih, List.append_assoc, List.append_assoc]
    rfl

/-- The documents of a batch are cut out again where they were put. -/
theorem backItems_eq (m : UInt64 → Option Bytes) (ids : List UInt64) (start : ℕ) (pre : Bytes)
    {batch rest : List UInt64} {i : ℕ} (hids : ids.drop i = batch ++ rest)
    (hindex : start + i + batch.length ≤ 2 ^ 32)
    (hdocs : ∀ id ∈ batch, ∀ doc, m id = some doc → doc.length ≤ lastValidSize) :
    backItems ids start (pre ++ (batch.map (fun id => (m id).getD [])).flatten)
        (batch.map (fun id => entrySize (m id))) i pre.length =
      batch.mapIdx fun j id => ⟨start + (i + j), id, m id⟩ := by
  induction batch generalizing i pre with
  | nil => rfl
  | cons id batch ih =>
    have hmark : lastValidSize < keyNotFound := by decide
    have hhead : ids.getD i 0 = id := by
      rw [List.getD_eq_getElem?_getD, ← List.head?_drop, hids]
      rfl
    have htail : ids.drop (i + 1) = batch ++ rest := by
      rw [← List.drop_drop, hids]
      rfl
    rw [List.length_cons] at hindex
    obtain ⟨hdoc, hrest⟩ := List.forall_mem_cons.1 hdocs
    rw [List.map_cons, List.map_cons, List.flatten_cons, backItems, List.mapIdx_cons, hhead]
    refine congrArg₂ List.cons ?_ ?_
    · rw [Nat.mod_eq_of_lt (by omega), Nat.add_zero]
      cases hm : m id with
      | none => simp [entrySize]
      | some doc =>
        have hne : doc.length ≠ keyNotFound := by
          have hle := hdoc doc hm
          omega
        simp only [entrySize, hne, if_false, Option.getD_some, slice_middle]
    · have hnext : pre.length + (if entrySize (m id) ≤ lastValidSize then entrySize (m id)
          else 0) = (pre ++ (m id).getD []).length := by
        cases hm : m id with
        | none => simp [entrySize, Nat.not_le.2 hmark]
        | some doc => simp [entrySize, hdoc doc hm]
      rw [hnext, ← List.append_assoc, ih (pre ++ (m id).getD []) htail (by omega) hrest]
      refine List.mapIdx_eq_mapIdx_iff.2 fun j _ => ?_
      rw [Nat.add_right_comm i 1 j, Nat.add_assoc i j 1]

/-- How a handler of the client answers for a batch. -/
def Delivers (send : Send) (m : UInt64 → Option Bytes) (ids : List UInt64) : Prop :=
  ∀ (start : ℕ) (batch rest : List UInt64) (history : History DocItem),
    ids.drop start = batch ++ rest → start + batch.length ≤ 2 ^ 32 →
    (∀ id ∈ batch, ∀ doc, m id = some doc → doc.length ≤ lastValidSize) →
    send start batch.length (batch.map (fun id => entrySize (m id)))
        (batch.map (fun id => (m id).getD [])).flatten history =
      (.SUCCESS, history ++ (batch.mapIdx fun j id =>
        (⟨start + j, id, m id⟩ : DocItem)).map (fun item => (item, .SUCCESS)))

theorem delivers_direct {cb : Callback DocItem} (hcb : cb.Succeeds) (m : UInt64 → Option Bytes)
    (ids : List UInt64) :
    Delivers (fun start _ docSizes docs => ykDocFetchDirectBackUlt cb ids start docSizes docs) m
      ids := by
  intro start batch rest history hids hstart hdocs
  have hitems := backItems_eq m (ids.drop start) start [] (i := 0) hids hstart hdocs
  simp only [List.nil_append, List.length_nil, Nat.zero_add] at hitems
  have hlen : batch.length ≤ ids.length := by
    have hlength := congrArg List.length hids
    rw [List.length_drop, List.length_append] at hlength
    omega
  dsimp only
  rw [ykDocFetchDirectBackUlt, List.length_map, if_neg (Nat.not_lt.2 hlen), hitems,
    invoke_of_succeeds hcb]

/-- The region of a batch is read back on the client. -/
theorem delivers_rdma {cb : Callback DocItem} (hcb : cb.Succeeds) (m : UInt64 → Option Bytes)
    (ids : List UInt64) :
    Delivers (fun start count docSizes docs =>
      ykDocFetchBackUlt cb ids start count (8 * docSizes.length + docs.length)
        (sizesMemory docSizes ++ docs)) m ids := by
  intro start batch rest history hids hstart hdocs
  have hitems := backItems_eq m (ids.drop start) start [] (i := 0) hids hstart hdocs
  simp only [List.nil_append, List.length_nil, Nat.zero_add] at hitems
  have hlen : batch.length ≤ ids.length := by
    have hlength := congrArg List.length hids
    rw [List.length_drop, List.length_append] at hlength
    omega
  have hsizes : ∀ size ∈ batch.map (fun id => entrySize (m id)), size < 2 ^ 64 := by
    have hmax : lastValidSize < 2 ^ 64 ∧ keyNotFound < 2 ^ 64 := by decide
    rw [List.forall_mem_map]
    intro id hid
    cases hm : m id with
    | none => exact hmax.2
    | some doc => exact (hdocs id hid doc hm).trans_lt hmax.1
  generalize hdocBytes : (batch.map fun id => (m id).getD []).flatten = docs at hitems ⊢
  have hread := sizesOfMemory_append hsizes docs
  rw [List.length_map] at hread
  have hslice := slice_middle (sizesMemory (batch.map fun id => entrySize (m id))) docs []
  rw [List.append_nil, length_sizesMemory, List.length_map] at hslice
  dsimp only
  rw [ykDocFetchBackUlt, if_neg (Nat.not_lt.2 hlen), bulkToDocs, List.length_map,
    Nat.add_sub_cancel_left]
  rw [hread, hslice, hitems, invoke_of_succeeds hcb]

/-! ### From end to end -/

section EndToEnd

variable {σ : Type} [DocFetchInterface σ] {name : CString} {mode : Mode} {s : σ}
  {m : UInt64 → Option Bytes} {ids : List UInt64}

open DocFetchInterface

/-- The calls for a batch are the next ones. -/
theorem drop_expectedItems (m : UInt64 → Option Bytes) (ids : List UInt64) (b start : ℕ) :
    (expectedItems m ids).drop start =
      (((ids.drop start).take b).mapIdx fun j id => ⟨start + j, id, m id⟩) ++
        (expectedItems m ids).drop (start + b) := by
  have hsplit := List.take_append_drop b ((expectedItems m ids).drop start)
  rw [List.drop_drop] at hsplit
  rw [← hsplit]
  refine congrArg (· ++ _) (List.ext_getElem? fun j => ?_)
  rw [List.getElem?_take, List.getElem?_mapIdx, List.getElem?_take, List.getElem?_drop,
    List.getElem?_drop, expectedItems, List.getElem?_mapIdx]
  split_ifs <;> rfl

/-- The batches from the `k`-th on cause the calls from its first id on. -/
theorem batches_spec (hfetch : FetchesInOrder name mode s m) {batchSize : UInt32}
    (hcount : ids.length < 2 ^ 32)
    (hdocs : ∀ id ∈ ids, ∀ doc, m id = some doc → doc.length ≤ lastValidSize) {send : Send}
    (hsend : Delivers send m ids) {N : ℕ} (hle : ids.length ≤ N * batchSize.toNat)
    (hlt : N * batchSize.toNat < ids.length + batchSize.toNat) (n k : ℕ) (hk : k + n = N)
    (p : BackRpc DocItem) (hp : p.Clear) :
    ∃ p', batches name mode batchSize ids send n k s p = (.SUCCESS, s, p') ∧ p'.Clear ∧
      p'.history = p.history ++ ((expectedItems m ids).drop
        (batchSize.toNat * k)).map (fun item => (item, .SUCCESS)) := by
  induction n generalizing k p with
  | zero =>
    refine ⟨p, rfl, hp, ?_⟩
    rw [List.drop_of_length_le (by
      rw [expectedItems, List.length_mapIdx, Nat.mul_comm]
      subst hk
      exact hle)]
    simp
  | succ n ih =>
    set b := batchSize.toNat with hb
    set batch := (ids.drop (b * k)).take (min b (ids.length - b * k)) with hbatch
    have htake : batch = (ids.drop (b * k)).take b := by
      rw [hbatch, ← List.length_drop, ← List.take_eq_take_min]
    have hids : ids.drop (b * k) = batch ++ ids.drop (b * (k + 1)) := by
      rw [htake, Nat.mul_succ, ← List.drop_drop, List.take_append_drop]
    have hmem : ∀ id ∈ batch, id ∈ ids := fun id hid =>
      List.mem_of_mem_drop (List.mem_of_mem_take hid)
    have hlen : b * k + batch.length ≤ 2 ^ 32 := by
      have hmul : (k + 1) * b ≤ N * b := Nat.mul_le_mul_right b (by omega)
      rw [Nat.succ_mul, Nat.mul_comm] at hmul
      rw [htake, List.length_take, List.length_drop]
      omega
    have hforward := hsend (b * k) batch _ p.history hids hlen fun id hid => hdocs id (hmem id hid)
    obtain ⟨p', hr, hclear, hhistory⟩ := ih (k + 1) (by omega)
      (BackRpc.forward ⟨none, p.history⟩ (send (b * k) batch.length
        (batch.map (fun id => entrySize (m id))) (batch.map (fun id => (m id).getD [])).flatten))
      (by rw [BackRpc.Clear, BackRpc.forward, hforward]; rfl)
    refine ⟨p', ?_, hclear, ?_⟩
    · rw [batches, ← hb, ← hbatch, hfetch batch fetcher ([], []) fun _ _ _ => rfl, foldl_fetcher]
      simp only [BackRpc.waitForPrevious_of_clear hp, ne_eq, not_true_eq_false, if_false,
        List.nil_append]
      exact hr
    · rw [hhistory, BackRpc.forward, hforward, drop_expectedItems m ids b (b * k), ← htake,
        ← Nat.mul_succ, List.map_append, List.append_assoc]

variable {cb : Callback DocItem}

/-- The call on the server, for a handler that delivers. -/
theorem docFetchBase_eq (hvalid : checkModeValid mode = true) (hsupports : supportsMode σ mode = true)
    (hfetch : FetchesInOrder name mode s m) (hcount : ids.length < 2 ^ 32)
    (hdocs : ∀ id ∈ ids, ∀ doc, m id = some doc → doc.length ≤ lastValidSize) {send : Send}
    (hsend : Delivers send m ids) (batchSize : UInt32) :
    docFetchBase name mode ids send batchSize s =
      (.SUCCESS, (expectedItems m ids).map fun item => (item, .SUCCESS), s) := by
  rw [docFetchBase]
  by_cases hne : ids.length = 0
  · rw [if_pos hne, List.length_eq_zero_iff.1 hne]
    rfl
  · have hpos := Nat.pos_of_ne_zero hne
    obtain ⟨hle, hlt⟩ := numBatches_spec (effectiveBatchSize_pos batchSize hpos hcount) hpos
    obtain ⟨p, hr, hclear, hhistory⟩ := batches_spec hfetch hcount hdocs hsend hle hlt _ 0
      (Nat.zero_add _) {} rfl
    rw [Nat.mul_zero, List.drop_zero, List.nil_append] at hhistory
    rw [if_neg hne, hvalid, ykDocFetchUlt, hsupports]
    simp only [Bool.not_true, Bool.false_eq_true, if_false, hr, reduceCtorEq, if_true,
      BackRpc.waitForPrevious_of_clear hclear, hhistory]

/-- On both paths, a fetch of documents calls a callback that succeeds once for each id, in order:
the `j`-th call gets the index `j`, the `j`-th id, and its document if there is one. -/
theorem doc_fetch_delivered (hvalid : checkModeValid mode = true)
    (hsupports : supportsMode σ mode = true) (hfetch : FetchesInOrder name mode s m)
    (hcount : ids.length < 2 ^ 32)
    (hdocs : ∀ id ∈ ids, ∀ doc, m id = some doc → doc.length ≤ lastValidSize) (hcb : cb.Succeeds)
    (batchSize : UInt32) :
    ykDocFetchMulti name mode ids cb batchSize s =
      (.SUCCESS, ids.mapIdx fun j id => (⟨j, id, m id⟩, .SUCCESS), s) := by
  have hcalls : (expectedItems m ids).map (fun item => (item, ReturnCode.SUCCESS)) =
      ids.mapIdx fun j id => (⟨j, id, m id⟩, .SUCCESS) := by
    refine List.ext_getElem? fun j => ?_
    rw [List.getElem?_map, expectedItems, List.getElem?_mapIdx, List.getElem?_mapIdx]
    cases ids[j]? <;> rfl
  unfold ykDocFetchMulti
  rw [← hcalls]
  split_ifs
  · exact docFetchBase_eq hvalid hsupports hfetch hcount hdocs (delivers_direct hcb m ids) batchSize
  · exact docFetchBase_eq hvalid hsupports hfetch hcount hdocs (delivers_rdma hcb m ids) batchSize

/-- `ArrayDatabase::docFetch` calls back once for each id, in order. -/
theorem fetchesInOrder_array {s : ArrayDatabase} {coll : ArrayCollection}
    (h : s.collections name = some coll) :
    FetchesInOrder name mode s fun id =>
      (coll.record id).map fun r => slice coll.data r.1 r.2 := by
  intro υ ids func u _
  change (_, s, _) = _
  rw [ArrayDatabase.docFetch, h]

end EndToEnd

/-- One document that is asked for twice, and one that is absent, in batches of two. -/
theorem doc_fetch_delivered_three :
    ykDocFetchMulti nameC .noRdma [0, 1, 0] (fun _ _ => .SUCCESS) 2
        (⟨fun _ => some ⟨[7, 8], 1, [0], [2]⟩⟩ : ArrayDatabase) =
      (.SUCCESS, [(⟨0, 0, some [7, 8]⟩, .SUCCESS), (⟨1, 1, none⟩, .SUCCESS),
        (⟨2, 0, some [7, 8]⟩, .SUCCESS)], ⟨fun _ => some ⟨[7, 8], 1, [0], [2]⟩⟩) := by
  have hdocs : ∀ id ∈ [0, 1, 0], ∀ doc : Bytes,
      ((⟨[7, 8], 1, [0], [2]⟩ : ArrayCollection).record id).map
        (fun r => slice [7, 8] r.1 r.2) = some doc → doc.length ≤ lastValidSize := by
    intro id hid doc hdoc
    rw [Option.map_eq_some_iff] at hdoc
    obtain ⟨r, -, rfl⟩ := hdoc
    refine le_trans (List.length_take_le' ..) ?_
    rw [List.length_drop]
    exact (Nat.sub_le _ _).trans (by decide)
  exact doc_fetch_delivered (by decide) (by decide) (fetchesInOrder_array rfl) (by decide) hdocs
    (fun _ _ => rfl) 2

end DocFetch

end Yokan
