import Yokan.Callbacks
import Yokan.DocMixinListing

/-!
# Yokan: iterating through a callback

`yk_iter` and `yk_doc_iter`: the handlers of the server (`src/server/iter.cpp`, `doc_iter.cpp`) and
those of the client (`src/client/iter.cpp`, `doc_iter.cpp`). The database hands its results to a
callback of the server, which collects them and sends a batch when it is full; what is left is
sent at the end. The server waits for the answer to a batch when it is about to send the next one.

The four handlers of the server were written separately. They are one function of the way in which
results are collected and read back, `Batching`.

* `sendBatch`, `iterFunc`, `iterUlt`: the server;
* `iter_eq_feed`: a `map` database hands a sequence of results to its callback, until that refuses
  one;
* `iteration_stops_iff`: a call that does not succeed is the last one exactly if no full batch
  comes behind its own.
-/

namespace Yokan

open Buffer LittleEndian

/-! ### Collecting results -/

/-- How results of type `α` are collected into a batch of type `β`, and what a handler on the client
calls its callback on for a batch, given the position that is sent with it. `advance` is what the
server adds to that position. -/
structure Batching (α β ι : Type) where
  empty : β
  push : β → α → β
  size : β → ℕ
  advance : β → ℕ
  items : ℕ → β → List ι
  size_empty : size empty = 0
  size_push : ∀ b x, size (push b x) = size b + 1
  length_items : ∀ start b, (items start b).length = size b

variable {α β ι : Type}

/-- The results collected for the next batch, the number sent, and the RPC in flight. -/
structure IterState (β ι : Type) where
  pending : β
  sent : ℕ
  rpc : BackRpc ι

/-- `send_batch`. -/
def sendBatch (B : Batching α β ι) (cb : Callback ι) (st : IterState β ι) :
    ReturnCode × IterState β ι :=
  if B.size st.pending = 0 then (.SUCCESS, st)
  else
    let (ret, rpc) := st.rpc.waitForPrevious
    if ret ≠ .SUCCESS then (ret, { st with rpc })
    else
      (.SUCCESS, ⟨B.empty, st.sent + B.advance st.pending,
        rpc.forward (invoke cb (B.items st.sent st.pending))⟩)

/-- `iter_func` and `doc_iter_func`. -/
def iterFunc (B : Batching α β ι) (cb : Callback ι) (batchSize : ℕ) (st : IterState β ι) (x : α) :
    ReturnCode × IterState β ι :=
  let st := { st with pending := B.push st.pending x }
  if B.size st.pending = batchSize then sendBatch B cb st else (.SUCCESS, st)

/-- A database that hands a sequence of results to a callback until that refuses one. It returns
`final` at the end of the sequence. -/
def feed {γ τ : Type} [DecidableEq γ] (ok final : γ) (func : τ → α → γ × τ) :
    List α → τ → γ × τ
  | [], t => (final, t)
  | x :: xs, t =>
    let r := func t x
    if r.1 = ok then feed ok final func xs r.2 else r

/-- The end of the handlers, behind the call of `iter` or `docIter`. -/
def finishIter (B : Batching α β ι) (cb : Callback ι) (r : ReturnCode × IterState β ι) :
    ReturnCode × History ι :=
  let ret := if r.1 = .STOP_ITERATION then .SUCCESS else r.1
  let (sent, st) := sendBatch B cb r.2
  let ret := if ret = .SUCCESS then sent else ret
  let (last, rpc) := st.rpc.waitForPrevious
  (if ret = .SUCCESS then last else ret, rpc.history)

/-- The handlers of the server, behind their checks of the request, on a database with the given
results. -/
def iterUlt (B : Batching α β ι) (cb : Callback ι) (batchSize : UInt32) (count : ℕ)
    (final : ReturnCode) (results : List α) : ReturnCode × History ι :=
  finishIter B cb (feed .SUCCESS final
    (iterFunc B cb (effectiveBatchSize batchSize count).toNat) results ⟨B.empty, 0, {}⟩)

/-! ### Keys and values -/

/-- `resize` on a vector of bytes, for a size that fits in memory. -/
def resizeTo (n : ℕ) (v : Bytes) : Bytes := v.take n ++ List.replicate (n - v.length) 0

/-- A `KeyValueFilter` that also says how much room its copies need. -/
structure SizedKeyValueFilter extends KeyValueFilter where
  keySizeFrom : Bytes → ℕ
  valSizeFrom : Bytes → ℕ

/-- `ksizes`, `vsizes` and `keyvals`. -/
structure KeyValueBatch where
  ksizes : List ℕ
  vsizes : List ℕ
  keyvals : Bytes
  length_eq : vsizes.length = ksizes.length

/-- The arguments of the calls of `yk_iter`'s callback. -/
structure IterItem where
  index : ℕ
  key : Bytes
  val : Bytes
  deriving DecidableEq

/-- The body of `iter_func`: it copies a key and a value behind those that are there. -/
def KeyValueBatch.push (filter : SizedKeyValueFilter) (noValues : Bool) (b : KeyValueBatch)
    (x : Bytes × Bytes) : KeyValueBatch :=
  let currentSize := b.keyvals.length
  let ksize := filter.keySizeFrom x.1
  let vsize := if noValues then 0 else filter.valSizeFrom x.2
  let keyvals := resizeTo (currentSize + ksize + vsize) b.keyvals
  let (ksize, keyvals) := filter.keyCopy keyvals currentSize ksize x.1
  let (vsize, keyvals) :=
    if noValues then (vsize, keyvals) else filter.valCopy keyvals (currentSize + ksize) vsize x.2
  { ksizes := b.ksizes ++ [ksize]
    vsizes := b.vsizes ++ [vsize]
    keyvals := resizeTo (currentSize + ksize + vsize) keyvals
    length_eq := by rw [List.length_append, List.length_append, b.length_eq]; rfl }

/-- The arguments of the calls for the sizes of a batch, with its keys and values in `buffer`. -/
def iterItems (start : ℕ) (buffer : Bytes) : List (ℕ × ℕ) → ℕ → ℕ → List IterItem
  | [], _, _ => []
  | (ksize, vsize) :: sizes, i, offset =>
    ⟨(start + i) % 2 ^ 32, slice buffer offset ksize, slice buffer (offset + ksize) vsize⟩ ::
      iterItems start buffer sizes (i + 1) (offset + (ksize + vsize))

@[simp] theorem length_iterItems (start : ℕ) (buffer : Bytes) (sizes : List (ℕ × ℕ))
    (i offset : ℕ) : (iterItems start buffer sizes i offset).length = sizes.length := by
  induction sizes generalizing i offset with
  | nil => rfl
  | cons size sizes ih => rw [iterItems, List.length_cons, ih, List.length_cons]

@[simp] theorem length_sizesOfMemory (n : ℕ) (memory : Bytes) :
    (sizesOfMemory n memory).length = n := by
  simp [sizesOfMemory]

/-- `yk_iter_back_ult`, up to its loop: it pulls the region of a batch. -/
def ykIterBackItems (start count : ℕ) (bulk : Bytes) : List IterItem :=
  let ksizes := sizesOfMemory count bulk
  let vsizes := sizesOfMemory count (bulk.drop (8 * count))
  iterItems start (bulk.drop (16 * count)) (ksizes.zip vsizes) 0 0

/-- `yk_iter_ult` and `yk_iter_back_ult`. -/
def keyValueBatching (filter : SizedKeyValueFilter) (noValues : Bool) :
    Batching (Bytes × Bytes) KeyValueBatch IterItem where
  empty := ⟨[], [], [], rfl⟩
  push := KeyValueBatch.push filter noValues
  size b := b.ksizes.length
  advance b := b.ksizes.length
  items start b := ykIterBackItems start b.ksizes.length
    (sizesMemory b.ksizes ++ (sizesMemory b.vsizes ++ b.keyvals))
  size_empty := rfl
  size_push b x := by rw [KeyValueBatch.push]; exact List.length_append
  length_items start b := by simp [ykIterBackItems]

/-- `yk_iter_direct_ult` and `yk_iter_direct_back_ult`: the batch travels inside the RPC. -/
def keyValueDirectBatching (filter : SizedKeyValueFilter) (noValues : Bool) :
    Batching (Bytes × Bytes) KeyValueBatch IterItem where
  empty := ⟨[], [], [], rfl⟩
  push := KeyValueBatch.push filter noValues
  size b := b.ksizes.length
  advance b := b.ksizes.length
  items start b := iterItems start b.keyvals (b.ksizes.zip b.vsizes) 0 0
  size_empty := rfl
  size_push b x := by rw [KeyValueBatch.push]; exact List.length_append
  length_items start b := by simp [b.length_eq]

/-! ### Documents -/

/-- `ids`, `docsizes` and `docs`. -/
structure DocIterBatch where
  ids : List UInt64
  docSizes : List ℕ
  docs : Bytes
  length_eq : docSizes.length = ids.length

/-- The arguments of the calls of `yk_doc_iter`'s callback. -/
structure DocIterItem where
  index : ℕ
  id : UInt64
  doc : Bytes
  deriving DecidableEq

/-- The body of `doc_iter_func`: it copies a document behind those that are there. -/
def DocIterBatch.push (filter : SizedDocFilter) (collName : CString) (b : DocIterBatch)
    (x : UInt64 × Bytes) : DocIterBatch :=
  let currentSize := b.docs.length
  let docSize := filter.docSizeFrom collName x.2
  let docs := resizeTo (currentSize + docSize) b.docs
  let (docSize, docs) := filter.docCopy collName docs currentSize docSize x.2
  { ids := b.ids ++ [x.1]
    docSizes := b.docSizes ++ [docSize]
    docs := resizeTo (currentSize + docSize) docs
    length_eq := by rw [List.length_append, List.length_append, b.length_eq]; rfl }

/-- `invoke_callback_on_docs`: the arguments of the calls for the ids and sizes of a batch. -/
def docItems (start : ℕ) (docs : Bytes) : List (UInt64 × ℕ) → ℕ → ℕ → List DocIterItem
  | [], _, _ => []
  | (id, docSize) :: rest, i, docOffset =>
    ⟨(start + i) % 2 ^ 32, id, slice docs docOffset docSize⟩ ::
      docItems start docs rest (i + 1)
        (docOffset + if docSize ≤ lastValidSize then docSize else 0)

@[simp] theorem length_docItems (start : ℕ) (docs : Bytes) (sizes : List (UInt64 × ℕ))
    (i docOffset : ℕ) : (docItems start docs sizes i docOffset).length = sizes.length := by
  induction sizes generalizing i docOffset with
  | nil => rfl
  | cons size sizes ih => rw [docItems, List.length_cons, ih, List.length_cons]

/-- `bulk_to_docs`, up to `invoke_callback_on_docs`: it pulls the region of a batch. -/
def bulkToDocs (start count : ℕ) (bulk : Bytes) : List DocIterItem :=
  let ids := idsOfMemory count bulk
  let docSizes := sizesOfMemory count (bulk.drop (8 * count))
  docItems start (bulk.drop (16 * count)) (ids.zip docSizes) 0 0

/-- `yk_doc_iter_ult` and `yk_doc_iter_back_ult`. -/
def docBatching (filter : SizedDocFilter) (collName : CString) :
    Batching (UInt64 × Bytes) DocIterBatch DocIterItem where
  empty := ⟨[], [], [], rfl⟩
  push := DocIterBatch.push filter collName
  size b := b.ids.length
  advance b := b.ids.length
  items start b := bulkToDocs start b.ids.length
    (idsMemory b.ids ++ (sizesMemory b.docSizes ++ b.docs))
  size_empty := rfl
  size_push b x := by rw [DocIterBatch.push]; exact List.length_append
  length_items start b := by simp [bulkToDocs, idsOfMemory]

/-- `yk_doc_iter_direct_ult` and `yk_doc_iter_direct_back_ult`. The position advances by the number
of bytes of the documents. -/
def docDirectBatching (filter : SizedDocFilter) (collName : CString) :
    Batching (UInt64 × Bytes) DocIterBatch DocIterItem where
  empty := ⟨[], [], [], rfl⟩
  push := DocIterBatch.push filter collName
  size b := b.ids.length
  advance b := b.docs.length
  items start b := docItems start b.docs (b.ids.zip b.docSizes) 0 0
  size_empty := rfl
  size_push b x := by rw [DocIterBatch.push]; exact List.length_append
  length_items start b := by simp [b.length_eq]

/-! ### The client -/

/-- The RPC that `yk_iter` issues in a mode. -/
def iterBatching (mode : Mode) (filter : SizedKeyValueFilter) (noValues : Bool) :
    Batching (Bytes × Bytes) KeyValueBatch IterItem :=
  if mode.has .noRdma then keyValueDirectBatching filter noValues
  else keyValueBatching filter noValues

/-- `CHECK_MODE_VALID` on the client and `CHECK_MODE_SUPPORTED` on the server. -/
def modePasses (supportsMode : Mode → Bool) (mode : Mode) : Bool :=
  checkModeValid mode && supportsMode mode

/-- `yk_iter`, for the results that the database has for the request. -/
def ykIter (supportsMode : Mode → Bool) (mode : Mode) (filter : SizedKeyValueFilter)
    (noValues : Bool) (cb : Callback IterItem) (batchSize : UInt32) (count : ℕ)
    (final : ReturnCode) (results : List (Bytes × Bytes)) : ReturnCode × History IterItem :=
  if modePasses supportsMode mode then
    iterUlt (iterBatching mode filter noValues) cb batchSize count final results
  else (.ERR_MODE, [])

/-- The RPC that `yk_doc_iter` issues in a mode. -/
def docIterBatching (mode : Mode) (filter : SizedDocFilter) (collName : CString) :
    Batching (UInt64 × Bytes) DocIterBatch DocIterItem :=
  if mode.has .noRdma then docDirectBatching filter collName else docBatching filter collName

/-- `yk_doc_iter`, for the results that the database has for the request. -/
def ykDocIter (supportsMode : Mode → Bool) (mode : Mode) (filter : SizedDocFilter)
    (collName : CString) (cb : Callback DocIterItem) (batchSize : UInt32) (count : ℕ)
    (final : ReturnCode) (results : List (UInt64 × Bytes)) : ReturnCode × History DocIterItem :=
  if modePasses supportsMode mode then
    iterUlt (docIterBatching mode filter collName) cb batchSize count final results
  else (.ERR_MODE, [])

/-! ### The results of a database -/

namespace MapDatabase

/-- A result of `iter` for one of the entries. -/
def IterResult (filter : KeyValueFilter) (ignoreValues : Bool) (es : List (Bytes × Bytes))
    (x : Bytes × Bytes) : Prop :=
  ∃ val, (x.1, val) ∈ es ∧ filter.check x.1 val = true ∧
    x.2 = if ignoreValues && !filter.requiresValue then [] else val

theorem IterResult.cons {filter : KeyValueFilter} {ignoreValues : Bool}
    {es : List (Bytes × Bytes)} {x : Bytes × Bytes} (h : IterResult filter ignoreValues es x)
    (e : Bytes × Bytes) : IterResult filter ignoreValues (e :: es) x := by
  obtain ⟨val, hmem, hx⟩ := h
  exact ⟨val, List.mem_cons_of_mem e hmem, hx⟩

theorem iterLoop_eq_feed (max : ℕ) (filter : KeyValueFilter) (ignoreValues : Bool)
    (es : List (Bytes × Bytes)) (i : ℕ) :
    ∃ results : List (Bytes × Bytes), (∀ x ∈ results, IterResult filter ignoreValues es x) ∧
      ∀ {υ : Type} (func : υ → Bytes → Bytes → Status × υ) (u : υ),
      iterLoop max filter ignoreValues func es i u =
        feed .OK .OK (fun u e => func u e.1 e.2) results u := by
  induction es generalizing i with
  | nil => exact ⟨[], List.forall_mem_nil _, fun _ _ => rfl⟩
  | cons e rest ih =>
    obtain ⟨key, val⟩ := e
    by_cases hmax : max = 0 ∨ i < max
    · cases hcheck : filter.check key val with
      | false =>
        cases hshould : filter.shouldStop key val with
        | false =>
          obtain ⟨results, hmem, hresults⟩ := ih i
          refine ⟨results, fun x hx => (hmem x hx).cons _, fun func u => ?_⟩
          simpa [iterLoop, hmax, hcheck, hshould] using hresults func u
        | true =>
          exact ⟨[], List.forall_mem_nil _, fun func u => by
            simp [iterLoop, hmax, hcheck, hshould, feed]⟩
      | true =>
        obtain ⟨results, hmem, hresults⟩ := ih (i + 1)
        refine ⟨(key, if ignoreValues && !filter.requiresValue then [] else val) :: results,
          List.forall_mem_cons.2 ⟨⟨val, List.mem_cons_self, hcheck, rfl⟩,
            fun x hx => (hmem x hx).cons _⟩, fun func u => ?_⟩
        simp only [iterLoop, if_pos hmax, hcheck, Bool.not_true, Bool.false_eq_true, if_false, feed]
        rcases func u key (if ignoreValues && !filter.requiresValue then [] else val) with
          ⟨status, u'⟩
        cases status <;> first | rfl | exact hresults func u'
    · exact ⟨[], List.forall_mem_nil _, fun func u => if_neg hmax⟩

/-- What `iter` hands to its callback is a sequence that depends on the request alone. -/
theorem iter_eq_feed {c : Comparator} (mode : Mode) (max : ℕ) (s : MapDatabase c)
    (fromKey : Bytes) (filter : KeyValueFilter) (ignoreValues : Bool) :
    ∃ (final : Status) (results : List (Bytes × Bytes)),
      (∀ x ∈ results, IterResult filter ignoreValues
        (s.entriesFrom (mode.has .inclusive) fromKey) x) ∧
      ∀ {υ : Type} (func : υ → Bytes → Bytes → Status × υ) (u : υ),
      iter mode max s fromKey filter ignoreValues func u =
        feed .OK final (fun u e => func u e.1 e.2) results u := by
  cases hs : s.migrated with
  | false =>
    obtain ⟨results, hmem, hresults⟩ := iterLoop_eq_feed max filter ignoreValues
      (s.entriesFrom (mode.has .inclusive) fromKey) 0
    refine ⟨.OK, results, hmem, fun func u => ?_⟩
    rw [iter, hs, if_neg Bool.false_ne_true, hresults]
  | true =>
    refine ⟨.Migrated, [], List.forall_mem_nil _, fun func u => ?_⟩
    rw [iter, hs, if_pos rfl]
    rfl

end MapDatabase

/-! ### A loop of a handler -/

/-- All calls succeeded. -/
def AllSucceed (history : History ι) : Prop := ∀ call ∈ history, call.2 = .SUCCESS

/-- No call came behind one that did not succeed. -/
def StopsForGood (history : History ι) : Prop := ∀ call ∈ history.dropLast, call.2 = .SUCCESS

theorem stopsForGood_nil : StopsForGood ([] : History ι) := List.forall_mem_nil _

/-- What a handler adds to the calls: some call for some item, and only its last one can fail. -/
theorem invoke_spec (cb : Callback ι) (items : List ι) (history : History ι) :
    ∃ calls, (invoke cb items history).2 = history ++ calls ∧ (items ≠ [] → calls ≠ []) ∧
      if (invoke cb items history).1 = .SUCCESS then AllSucceed calls
      else StopsForGood calls ∧ ¬ AllSucceed calls := by
  induction items generalizing history with
  | nil => exact ⟨[], by simp [invoke], by simp, by simp [invoke, AllSucceed]⟩
  | cons item items ih =>
    rw [invoke]
    by_cases hret : cb history item = .SUCCESS
    · obtain ⟨calls, heq, -, hcalls⟩ := ih (history ++ [(item, .SUCCESS)])
      simp only [hret, ne_eq, not_true_eq_false, if_false]
      refine ⟨(item, .SUCCESS) :: calls, by rw [heq, List.append_assoc]; rfl, by simp, ?_⟩
      split_ifs at hcalls ⊢ with hend
      · exact List.forall_mem_cons.2 ⟨rfl, hcalls⟩
      · refine ⟨?_, fun h => hcalls.2 (List.forall_mem_cons.1 h).2⟩
        have hne : calls ≠ [] := fun he => hcalls.2 (by rw [he]; simp [AllSucceed])
        rw [StopsForGood, List.dropLast_cons_of_ne_nil hne]
        exact List.forall_mem_cons.2 ⟨rfl, hcalls.1⟩
    · simp only [hret, ne_eq, not_false_eq_true, if_true, if_false]
      exact ⟨[(item, cb history item)], rfl, by simp, by simp [StopsForGood], by
        simp [AllSucceed, hret]⟩

theorem AllSucceed.append {history calls : History ι} (h : AllSucceed history)
    (hcalls : AllSucceed calls) : AllSucceed (history ++ calls) :=
  List.forall_mem_append.2 ⟨h, hcalls⟩

theorem AllSucceed.stopsForGood {history : History ι} (h : AllSucceed history) :
    StopsForGood history := fun call hcall => h call (List.mem_of_mem_dropLast hcall)

theorem AllSucceed.append_stopsForGood {history calls : History ι} (h : AllSucceed history)
    (hcalls : StopsForGood calls) : StopsForGood (history ++ calls) := by
  by_cases hne : calls = []
  · rw [hne, List.append_nil]
    exact h.stopsForGood
  · rw [StopsForGood, List.dropLast_append_of_ne_nil hne]
    exact List.forall_mem_append.2 ⟨h, hcalls⟩

/-- Calls behind one that did not succeed. -/
theorem not_stopsForGood_append {history calls : History ι} (h : ¬ AllSucceed history)
    (hne : calls ≠ []) : ¬ StopsForGood (history ++ calls) := by
  rw [StopsForGood, List.dropLast_append_of_ne_nil hne]
  exact fun hall => h (List.forall_mem_append.1 hall).1

/-! ### The batches -/

section Batches

variable (B : Batching α β ι) (b : ℕ)

/-- The calls that each batch is for, if none of them fails: `pending` is collected and `sent` sent
before. -/
def Batching.batches : List α → β → ℕ → List (List ι)
  | [], pending, sent => if B.size pending = 0 then [] else [B.items sent pending]
  | x :: xs, pending, sent =>
    let pending := B.push pending x
    if B.size pending = b then
      B.items sent pending :: batches xs B.empty (sent + B.advance pending)
    else batches xs pending sent

/-- The first batch with a call that does not succeed. -/
def stopsAt (cb : Callback ι) : List (List ι) → History ι → Option ℕ
  | [], _ => none
  | items :: rest, history =>
    let r := invoke cb items history
    if r.1 = .SUCCESS then (stopsAt cb rest r.2).map (· + 1) else some 0

/-- No full batch comes behind the first batch with a call that does not succeed. -/
def NoFullBatchBehindStop (cb : Callback ι) (results : List α) : Prop :=
  ∀ k, stopsAt cb (B.batches b results B.empty 0) [] = some k →
    b = 0 ∨ results.length < (k + 2) * b

variable {B b} (cb : Callback ι)

theorem Batching.items_ne_nil {pending : β} (h : B.size pending ≠ 0) (start : ℕ) :
    B.items start pending ≠ [] := by
  intro he
  rw [← B.length_items start pending, he] at h
  exact h rfl

/-- A batch is sent when no answer is left that is not a success. -/
theorem sendBatch_of_clear (st : IterState β ι) (hsize : B.size st.pending ≠ 0)
    (hclear : st.rpc.Clear) :
    sendBatch B cb st = (.SUCCESS, ⟨B.empty, st.sent + B.advance st.pending,
      BackRpc.forward ⟨none, st.rpc.history⟩ (invoke cb (B.items st.sent st.pending))⟩) := by
  rw [sendBatch, if_neg hsize, BackRpc.waitForPrevious_of_clear hclear]
  rfl

/-- The batch behind one that did not succeed is kept. -/
theorem sendBatch_of_not_clear (st : IterState β ι) (hsize : B.size st.pending ≠ 0)
    (hclear : ¬ st.rpc.Clear) :
    sendBatch B cb st = (st.rpc.previous.getD .SUCCESS, { st with rpc := ⟨none, st.rpc.history⟩ }) := by
  rw [sendBatch, if_neg hsize]
  exact if_pos hclear

theorem feed_cons {γ τ : Type} [DecidableEq γ] (ok final : γ) (func : τ → α → γ × τ) (x : α)
    (xs : List α) (t : τ) :
    feed ok final func (x :: xs) t =
      if (func t x).1 = ok then feed ok final func xs (func t x).2 else func t x := rfl

theorem iterFunc_of_full {st : IterState β ι} {x : α} (h : B.size (B.push st.pending x) = b) :
    iterFunc B cb b st x = sendBatch B cb { st with pending := B.push st.pending x } := if_pos h

theorem iterFunc_of_room {st : IterState β ι} {x : α} (h : B.size (B.push st.pending x) ≠ b) :
    iterFunc B cb b st x = (.SUCCESS, { st with pending := B.push st.pending x }) := if_neg h

theorem finishIter_history (r : ReturnCode × IterState β ι) :
    (finishIter B cb r).2 = (sendBatch B cb r.2).2.rpc.history := rfl

/-- A stop that the server has not heard of yet is the end unless a batch gets full. -/
theorem feed_of_stopped (final : ReturnCode) (results : List α) (st : IterState β ι)
    (hsize : B.size st.pending < b ∨ b = 0) (hclear : ¬ st.rpc.Clear)
    (hfail : ¬ AllSucceed st.rpc.history) (hstop : StopsForGood st.rpc.history) :
    StopsForGood (finishIter B cb (feed .SUCCESS final (iterFunc B cb b) results st)).2 ↔
      b = 0 ∨ B.size st.pending + results.length < b := by
  induction results generalizing st with
  | nil =>
    have hhistory : (sendBatch B cb st).2.rpc.history = st.rpc.history := by
      by_cases hzero : B.size st.pending = 0
      · rw [sendBatch, if_pos hzero]
      · rw [sendBatch_of_not_clear cb st hzero hclear]
    rw [feed, finishIter_history cb, hhistory]
    simp only [hstop, List.length_nil, Nat.add_zero, true_iff]
    exact hsize.symm
  | cons x xs ih =>
    have hpush := B.size_push st.pending x
    rw [List.length_cons]
    by_cases hfull : B.size (B.push st.pending x) = b
    · -- the full batch is kept, and the flush at the end sends it
      have hsize' : B.size (B.push st.pending x) ≠ 0 := by omega
      have hkept := sendBatch_of_not_clear cb { st with pending := B.push st.pending x } hsize' hclear
      have hsent := sendBatch_of_clear cb
        ⟨B.push st.pending x, st.sent, ⟨none, st.rpc.history⟩⟩ hsize' rfl
      have hret : ¬ st.rpc.previous.getD .SUCCESS = .SUCCESS := hclear
      dsimp only at hsent
      rw [feed_cons, iterFunc_of_full cb hfull, hkept]
      dsimp only
      rw [if_neg hret, finishIter_history cb, hsent]
      obtain ⟨calls, hcalls, hne, -⟩ := invoke_spec cb
        (B.items st.sent (B.push st.pending x)) st.rpc.history
      dsimp only [BackRpc.forward]
      rw [hcalls]
      have hlate := not_stopsForGood_append hfail (hne (Batching.items_ne_nil hsize' _))
      exact ⟨fun h => absurd h hlate, fun h => by omega⟩
    · rw [feed_cons, iterFunc_of_room cb hfull, if_pos rfl,
        ih { st with pending := B.push st.pending x } (by dsimp only; omega) hclear hfail hstop]
      dsimp only
      omega

/-- As long as all calls succeed, the rest of the results decides. -/
theorem feed_of_clear (final : ReturnCode) (results : List α) (st : IterState β ι)
    (hsize : B.size st.pending < b ∨ b = 0) (hclear : st.rpc.Clear)
    (hall : AllSucceed st.rpc.history) :
    StopsForGood (finishIter B cb (feed .SUCCESS final (iterFunc B cb b) results st)).2 ↔
      ∀ k, stopsAt cb (B.batches b results st.pending st.sent) st.rpc.history = some k →
        b = 0 ∨ B.size st.pending + results.length < (k + 2) * b := by
  -- the last answer was a success: the batch being filled decides, or one behind it
  induction results generalizing st with
  | nil =>
    have hgood : StopsForGood (sendBatch B cb st).2.rpc.history := by
      by_cases hzero : B.size st.pending = 0
      · rw [sendBatch, if_pos hzero]
        exact hall.stopsForGood
      · rw [sendBatch_of_clear cb st hzero hclear]
        obtain ⟨calls, hcalls, -, hgood⟩ := invoke_spec cb (B.items st.sent st.pending)
          st.rpc.history
        dsimp only [BackRpc.forward]
        rw [hcalls]
        split_ifs at hgood
        · exact (hall.append hgood).stopsForGood
        · exact hall.append_stopsForGood hgood.1
    rw [feed, finishIter_history]
    refine ⟨fun _ k _ => hsize.symm.imp id fun hlt => ?_, fun _ => hgood⟩
    have hb : b ≤ (k + 2) * b := Nat.le_mul_of_pos_left b (by omega)
    rw [List.length_nil]
    omega
  | cons x xs ih =>
    have hpush := B.size_push st.pending x
    rw [List.length_cons]
    by_cases hfull : B.size (B.push st.pending x) = b
    · have hsize' : B.size (B.push st.pending x) ≠ 0 := by omega
      have hsent := sendBatch_of_clear cb { st with pending := B.push st.pending x } hsize' hclear
      have hempty : B.size B.empty < b ∨ b = 0 := by
        rw [B.size_empty]
        omega
      rw [feed_cons, iterFunc_of_full cb hfull, hsent, if_pos rfl, Batching.batches]
      dsimp only
      rw [if_pos hfull, stopsAt]
      obtain ⟨calls, hcalls, -, hgood⟩ := invoke_spec cb (B.items st.sent (B.push st.pending x))
        st.rpc.history
      generalize invoke cb (B.items st.sent (B.push st.pending x)) = handler at hcalls hgood ⊢
      by_cases hret : (handler st.rpc.history).1 = .SUCCESS
      · -- the answer will be a success, and the next batch is on its own
        rw [if_pos hret] at hgood
        have hih := ih ⟨B.empty, st.sent + B.advance (B.push st.pending x),
          BackRpc.forward ⟨none, st.rpc.history⟩ handler⟩ hempty hret
          (by dsimp only [BackRpc.forward]; rw [hcalls]; exact hall.append hgood)
        rw [hih, if_pos hret]
        dsimp only [BackRpc.forward]
        simp only [Option.map_eq_some_iff, forall_exists_index, and_imp,
          forall_apply_eq_imp_iff₂, B.size_empty]
        refine forall₂_congr fun k _ => ?_
        rw [Nat.add_right_comm k 1 2, Nat.succ_mul (k + 2)]
        omega
      · rw [if_neg hret] at hgood
        have hstopped := feed_of_stopped cb final xs
          ⟨B.empty, st.sent + B.advance (B.push st.pending x),
            BackRpc.forward ⟨none, st.rpc.history⟩ handler⟩ hempty hret
          (by dsimp only [BackRpc.forward]; rw [hcalls]
              exact fun h => hgood.2 (List.forall_mem_append.1 h).2)
          (by dsimp only [BackRpc.forward]; rw [hcalls]; exact hall.append_stopsForGood hgood.1)
        rw [hstopped, if_neg hret]
        simp only [Option.some.injEq, forall_eq', B.size_empty]
        omega
    · rw [feed_cons, iterFunc_of_room cb hfull, if_pos rfl,
        ih { st with pending := B.push st.pending x } (by dsimp only; omega) hclear hall,
        Batching.batches]
      simp only [if_neg hfull]
      refine forall₂_congr fun k _ => ?_
      omega

/-- A call that does not succeed is the last one exactly if no full batch comes behind its own. -/
theorem iterUlt_stops_iff (B : Batching α β ι) (cb : Callback ι) (batchSize : UInt32) (count : ℕ)
    (final : ReturnCode) (results : List α) :
    StopsForGood (iterUlt B cb batchSize count final results).2 ↔
      NoFullBatchBehindStop B (effectiveBatchSize batchSize count).toNat cb results := by
  have hfeed := feed_of_clear cb final results ⟨B.empty, 0, {}⟩
    (b := (effectiveBatchSize batchSize count).toNat) (by rw [B.size_empty]; omega) rfl
    (fun _ h => nomatch h)
  rw [B.size_empty, Nat.zero_add] at hfeed
  exact hfeed

end Batches

/-- In `yk_iter` and in `yk_doc_iter`, with or without RDMA, a call of the user's callback that does
not succeed is the last one exactly if the mode does not pass or no full batch comes behind its
own. -/
theorem iteration_stops_iff (supportsMode : Mode → Bool) (mode : Mode) (batchSize : UInt32)
    (count : ℕ) (final : ReturnCode) :
    (∀ filter noValues (cb : Callback IterItem) results,
      StopsForGood (ykIter supportsMode mode filter noValues cb batchSize count final results).2 ↔
        (modePasses supportsMode mode = true →
          NoFullBatchBehindStop (iterBatching mode filter noValues)
            (effectiveBatchSize batchSize count).toNat cb results)) ∧
    (∀ filter collName (cb : Callback DocIterItem) results,
      StopsForGood (ykDocIter supportsMode mode filter collName cb batchSize count final
          results).2 ↔
        (modePasses supportsMode mode = true →
          NoFullBatchBehindStop (docIterBatching mode filter collName)
            (effectiveBatchSize batchSize count).toNat cb results)) := by
  unfold ykIter ykDocIter
  cases modePasses supportsMode mode with
  | true =>
    simp only [if_true, forall_const]
    exact ⟨fun _ _ cb => iterUlt_stops_iff _ cb batchSize count final,
      fun _ _ cb => iterUlt_stops_iff _ cb batchSize count final⟩
  | false =>
    simp only [Bool.false_eq_true, if_false, false_imp_iff, iff_true]
    exact ⟨fun _ _ _ _ => stopsForGood_nil, fun _ _ _ _ => stopsForGood_nil⟩

/-- The filter that passes keys and values on. -/
def wholeFilter : SizedKeyValueFilter where
  toKeyValueFilter := keyPrefixFilter .default []
  keySizeFrom := List.length
  valSizeFrom := List.length

/-- A callback that stops at the first of two results, in batches of one, is called on both. -/
theorem called_after_stop :
    ¬ ∀ (supportsMode : Mode → Bool) (mode : Mode) (filter : SizedKeyValueFilter) (noValues : Bool)
      (cb : Callback IterItem) (batchSize : UInt32) (count : ℕ) (final : ReturnCode)
      (results : List (Bytes × Bytes)),
      StopsForGood (ykIter supportsMode mode filter noValues cb batchSize count final
        results).2 := by
  intro h
  have hcalls : (ykIter (fun _ => true) .default wholeFilter false (fun _ _ => .STOP_ITERATION)
      1 0 .SUCCESS [([1], [10]), ([2], [20])]).2 =
        [(⟨0, [1], [10]⟩, .STOP_ITERATION), (⟨1, [2], [20]⟩, .STOP_ITERATION)] := by decide
  have hstop := h (fun _ => true) .default wholeFilter false (fun _ _ => .STOP_ITERATION) 1 0 .SUCCESS
    [([1], [10]), ([2], [20])]
  rw [hcalls] at hstop
  have hfirst := hstop (⟨0, [1], [10]⟩, .STOP_ITERATION) (by simp)
  cases hfirst

end Yokan
