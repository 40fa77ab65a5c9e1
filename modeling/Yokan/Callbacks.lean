import Yokan.Common
import Yokan.Library.Buffer
import Yokan.Library.LittleEndian

/-!
# Yokan: the callbacks of the client

`yk_fetch_packed`, `yk_fetch_multi`, `yk_iter` and `yk_doc_iter` hand what they find to a callback
of the user. The server sends it to the client in batches, each by an RPC in the other direction;
the handler of such an RPC calls the callback on the items of the batch, one after the other, and
answers with the first code other than `YOKAN_SUCCESS`. The server has at most one of these RPCs
in flight: it waits for the answer only when it is about to send the next one, and at its end.

* `invoke`: the loop of the handlers;
* `BackRpc`: the server's view of the RPC in flight, with the calls made so far.
-/

namespace Yokan

open Buffer LittleEndian

variable {ι : Type}

/-- The calls of a callback so far, oldest first, each with what it returned. -/
abbrev History (ι : Type) := List (ι × ReturnCode)

/-- A callback of the user: what it returns for its arguments, after the calls made before. -/
abbrev Callback (ι : Type) := History ι → ι → ReturnCode

/-- The loop of a handler over the items of a batch, without a pool. -/
def invoke (cb : Callback ι) : List ι → History ι → ReturnCode × History ι
  | [], history => (.SUCCESS, history)
  | item :: items, history =>
    let ret := cb history item
    if ret ≠ .SUCCESS then (ret, history ++ [(item, ret)])
    else invoke cb items (history ++ [(item, ret)])

/-- The RPC in flight, if there is one, by the answer that it gets, and the calls made so far. -/
structure BackRpc (ι : Type) where
  previous : Option ReturnCode := none
  history : History ι := []

namespace BackRpc

/-- `wait_for_previous_rpc`. -/
def waitForPrevious (p : BackRpc ι) : ReturnCode × BackRpc ι :=
  (p.previous.getD .SUCCESS, { p with previous := none })

/-- `margo_iforward`, with the handler that runs on the client. -/
def forward (p : BackRpc ι) (handler : History ι → ReturnCode × History ι) : BackRpc ι :=
  let r := handler p.history
  ⟨some r.1, r.2⟩

/-- No answer is left that is not a success. -/
def Clear (p : BackRpc ι) : Prop := p.previous.getD .SUCCESS = .SUCCESS

theorem waitForPrevious_of_clear {p : BackRpc ι} (h : p.Clear) :
    p.waitForPrevious = (.SUCCESS, ⟨none, p.history⟩) :=
  Prod.ext h rfl

end BackRpc

/-- A callback that always succeeds. -/
def Callback.Succeeds (cb : Callback ι) : Prop := ∀ history item, cb history item = .SUCCESS

theorem invoke_of_succeeds {cb : Callback ι} (h : cb.Succeeds) (items : List ι)
    (history : History ι) :
    invoke cb items history = (.SUCCESS, history ++ items.map (fun item => (item, .SUCCESS))) := by
  induction items generalizing history with
  | nil => simp [invoke]
  | cons item items ih =>
    rw [invoke, h history item, if_neg (not_not.2 rfl), ih, List.map_cons, List.append_assoc]
    rfl

/-! ### Batches -/

/-- `in.batch_size`, where zero stands for all keys. -/
def effectiveBatchSize (batchSize : UInt32) (count : ℕ) : UInt32 :=
  if batchSize = 0 then UInt32.ofNat count else batchSize

theorem effectiveBatchSize_pos {count : ℕ} (batchSize : UInt32) (hpos : 0 < count)
    (hcount : count < 2 ^ 32) : 0 < (effectiveBatchSize batchSize count).toNat := by
  unfold effectiveBatchSize
  split_ifs with h
  · rwa [UInt32.toNat_ofNat_of_lt' hcount]
  · exact Nat.pos_of_ne_zero fun hzero => h (UInt32.toNat_inj.1 hzero)

/-! ### Arrays of sizes in memory -/

/-- The memory of an array of `size_t`. -/
def sizesMemory (sizes : List ℕ) : Bytes := (sizes.map (encode 8)).flatten

/-- The array of `n` values of type `size_t` in a region of memory. -/
def sizesOfMemory (n : ℕ) (memory : Bytes) : List ℕ :=
  (unpack memory (List.replicate n 8)).map decode

@[simp] theorem length_sizesMemory (sizes : List ℕ) :
    (sizesMemory sizes).length = 8 * sizes.length := by
  induction sizes with
  | nil => rfl
  | cons size sizes ih =>
    rw [sizesMemory, List.map_cons, List.flatten_cons, List.length_append, length_encode,
      List.length_cons]
    rw [sizesMemory] at ih
    omega

/-- An array of sizes at the front of a region is read back. -/
theorem sizesOfMemory_append {sizes : List ℕ} (h : ∀ size ∈ sizes, size < 2 ^ 64) (rest : Bytes) :
    sizesOfMemory sizes.length (sizesMemory sizes ++ rest) = sizes := by
  induction sizes with
  | nil => rfl
  | cons size sizes ih =>
    have hsize : size < 256 ^ 8 := h size List.mem_cons_self
    have ih := ih fun n hn => h n (List.mem_cons_of_mem _ hn)
    rw [sizesOfMemory, sizesMemory] at ih ⊢
    rw [List.length_cons, List.replicate_succ, List.map_cons, List.flatten_cons, List.append_assoc,
      unpack_cons, List.map_cons, List.take_left' (length_encode ..),
      List.drop_left' (length_encode ..), ih, decode_encode_of_lt hsize]

end Yokan
