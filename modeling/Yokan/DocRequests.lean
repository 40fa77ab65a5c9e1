import Yokan.DocMixinRefinement
import Yokan.Requests

/-!
# Yokan: requests about documents

The calls on collections and documents on both sides (`src/client/coll_*.cpp`, `doc_store.cpp`,
`doc_update.cpp`, `doc_erase.cpp`, `doc_length.cpp`, `doc_load.cpp`, and the handlers of the same
names under `src/server`), over any database with documents. The names and the ids travel inside the
RPCs; the sizes and the documents of a store, of an update and of a load travel through RDMA, or
inside the RPC with `YOKAN_MODE_NO_RDMA`.

A null pointer to an array that is required is refused before anything else and left out here.

* `ykDocStoreUlt_eq`, `ykDocUpdateUlt_eq`: the handlers find the documents where the client put them;
* `docsPacked_eq`, `docsMulti_eq`: so it does not matter where the documents of a client lie, except
  that a client never gets to the end of 2 ^ 32 documents that lie apart;
* `ykDocLoadPacked_loads`, `ykDocLoadMulti_loads`, `ykDocLoadDirect_loads`: what the database has
  loaded is found in the arrays of the client.

The ways of a store differ in one thing: inside the RPC, nobody looks at incompatible flags.
-/

namespace Yokan

open Buffer Counting

/-- The operations of `DatabaseInterface` on collections and documents. There is no result when an
exception leaves an operation. -/
class DocumentInterface (δ : Type) where
  supportsMode : Mode → Bool
  collCreate : δ → Mode → CString → Option (Status × δ)
  collDrop : δ → Mode → CString → Option (Status × δ)
  collExists : δ → Mode → CString → Option (Status × Bool × δ)
  collLastID : δ → Mode → CString → Option (Status × UInt64 × δ)
  collSize : δ → Mode → CString → Option (Status × UInt64 × δ)
  docSize : δ → CString → Mode → List UInt64 → List ℕ → Option (Status × List ℕ × δ)
  docStore : δ → CString → Mode → Bytes → List ℕ → List UInt64 →
    Option (Status × List UInt64 × δ)
  docUpdate : δ → CString → Mode → List UInt64 → Bytes → List ℕ → Option (Status × δ)
  docLoad : δ → CString → Mode → Bool → List UInt64 → Bytes → List ℕ → Option (GetResult δ)
  docErase : δ → CString → Mode → List UInt64 → Option (Status × δ)

/-- The mixin does not look at the modes of the operations on collections, except in `collDrop`. -/
instance {σ : Type} [DatabaseInterface σ] : DocumentInterface (DocumentStoreMixin σ) where
  supportsMode := DatabaseInterface.supportsMode σ
  collCreate s _ name := some (s.collCreate name)
  collDrop s mode name := s.collDrop mode name
  collExists s _ name := some ((s.collExists name).1, (s.collExists name).2, s)
  collLastID s _ name := some (s.collLastID name)
  collSize s _ name := some (s.collSize name)
  docSize s name mode ids sizes := (s.docSize name mode ids sizes).map fun r => (r.1, r.2, s)
  docStore := DocumentStoreMixin.docStore
  docUpdate := DocumentStoreMixin.docUpdate
  docLoad s name mode packed ids documents sizes :=
    (s.docLoad name mode packed ids documents sizes).map fun r => ⟨r.1, r.2.2, r.2.1⟩
  docErase := DocumentStoreMixin.docErase

namespace DocRequests

variable {δ : Type} [DocumentInterface δ]

open DocumentInterface

/-! ### The handlers -/

section Handlers

/-- The handlers that check the mode and call the database, without touching memory of the client.
`rest` is what is sent along when the mode is not supported. -/
def answerCall {α : Type} (mode : Mode) (rest : α) (call : Option (Status × α × δ)) (s : δ) :
    Option (ReturnCode × α × δ) :=
  if !supportsMode δ mode then some (.ERR_MODE, rest, s)
  else call.map fun r => (r.1.code, r.2)

/-- An operation that answers with nothing but its status. -/
def plain (call : Option (Status × δ)) : Option (Status × Unit × δ) :=
  call.map fun r => (r.1, (), r.2)

/-- An array is sent along if the operation succeeds. -/
def sent {α : Type} (call : Option (Status × List α × δ)) : Option (Status × List α × δ) :=
  call.map fun r => (r.1, if r.1 = .OK then r.2.1 else [], r.2.2)

/-- `yk_coll_create_ult`. -/
def ykCollCreateUlt (mode : Mode) (name : CString) (s : δ) : Option (ReturnCode × Unit × δ) :=
  answerCall mode () (plain (collCreate s mode name)) s

/-- `yk_coll_drop_ult`. -/
def ykCollDropUlt (mode : Mode) (name : CString) (s : δ) : Option (ReturnCode × Unit × δ) :=
  answerCall mode () (plain (collDrop s mode name)) s

/-- `yk_coll_exists_ult`. -/
def ykCollExistsUlt (mode : Mode) (name : CString) (s : δ) : Option (ReturnCode × Bool × δ) :=
  answerCall mode false (collExists s mode name) s

/-- `yk_coll_last_id_ult`. -/
def ykCollLastIdUlt (mode : Mode) (name : CString) (s : δ) : Option (ReturnCode × UInt64 × δ) :=
  answerCall mode 0 (collLastID s mode name) s

/-- `yk_coll_size_ult`. -/
def ykCollSizeUlt (mode : Mode) (name : CString) (s : δ) : Option (ReturnCode × UInt64 × δ) :=
  answerCall mode 0 (collSize s mode name) s

/-- `yk_doc_erase_ult`. -/
def ykDocEraseUlt (mode : Mode) (name : CString) (ids : List UInt64) (s : δ) :
    Option (ReturnCode × Unit × δ) :=
  answerCall mode () (plain (docErase s name mode ids)) s

/-- `yk_doc_length_ult`. -/
def ykDocLengthUlt (mode : Mode) (name : CString) (ids : List UInt64) (s : δ) :
    Option (ReturnCode × List ℕ × δ) :=
  answerCall mode [] (sent (docSize s name mode ids (List.replicate ids.length 0))) s

/-- `yk_doc_store_direct_ult`. -/
def ykDocStoreDirectUlt (mode : Mode) (name : CString) (sizes : List ℕ) (docs : Bytes) (s : δ) :
    Option (ReturnCode × List UInt64 × δ) :=
  answerCall mode [] (sent (docStore s name mode docs sizes (List.replicate sizes.length 0))) s

/-- `yk_doc_update_direct_ult`. -/
def ykDocUpdateDirectUlt (mode : Mode) (name : CString) (ids : List UInt64) (sizes : List ℕ)
    (docs : Bytes) (s : δ) : Option (ReturnCode × Unit × δ) :=
  answerCall mode () (plain (docUpdate s name mode ids docs sizes)) s

/-- The sizes and the documents that have been pulled to the front of a buffer, unless they reach
beyond the `size` bytes that were pulled. -/
def pulledDocs {α : Type} (count size : ℕ) (buffer : Bytes) (refused : α)
    (call : List ℕ → Bytes → α) : α :=
  let sizes := sizesOfMemory count buffer
  let totalDocSize := accumulate sizes
  if size < addSize (8 * count) totalDocSize then refused
  else call sizes (slice buffer (8 * count) totalDocSize)

/-- `yk_doc_store_ult`. -/
def ykDocStoreUlt (mode : Mode) (name : CString) (count : ℕ) (bulk : Bytes) (offset size : ℕ)
    (pooled : Bytes) (s : δ) : Option (ReturnCode × List UInt64 × δ) :=
  if !supportsMode δ mode then some (.ERR_MODE, [], s)
  else if size = 0 then some (.ERR_ALLOCATION, [], s)
  else
    match bulkTransfer pooled 0 bulk offset size with
    | none => some (.ERR_FROM_MERCURY, [], s)
    | some buffer =>
      pulledDocs count size buffer (some (.ERR_INVALID_ARGS, [], s)) fun sizes docs =>
        (sent (docStore s name mode docs sizes (List.replicate count 0))).map fun r =>
          (r.1.code, r.2)

/-- `yk_doc_update_ult`. Unlike in `yk_doc_store_ult`, the mode is looked at when the documents have
been pulled. -/
def ykDocUpdateUlt (mode : Mode) (name : CString) (ids : List UInt64) (bulk : Bytes)
    (offset size : ℕ) (pooled : Bytes) (s : δ) : Option (ReturnCode × Unit × δ) :=
  if size = 0 then some (.ERR_ALLOCATION, (), s)
  else
    match bulkTransfer pooled 0 bulk offset size with
    | none => some (.ERR_FROM_MERCURY, (), s)
    | some buffer =>
      if !supportsMode δ mode then some (.ERR_MODE, (), s)
      else
        pulledDocs ids.length size buffer (some (.ERR_INVALID_ARGS, (), s)) fun sizes docs =>
          (plain (docUpdate s name mode ids docs sizes)).map fun r => (r.1.code, r.2)

/-- `yk_doc_load_ult`, with the memory of the client when it has answered. -/
def ykDocLoadUlt (mode : Mode) (packed : Bool) (name : CString) (ids : List UInt64) (bulk : Bytes)
    (offset size : ℕ) (pooled : Bytes) (s : δ) : Option (ReturnCode × Bytes × δ) :=
  let count := ids.length
  let docsOffset := 8 * count
  let docsSize := (size + (2 ^ 64 - docsOffset)) % 2 ^ 64
  if !supportsMode δ mode then some (.ERR_MODE, bulk, s)
  else if size = 0 then some (.ERR_ALLOCATION, bulk, s)
  else
    match if packed then some pooled else bulkTransfer pooled 0 bulk offset docsOffset with
    | none => some (.ERR_FROM_MERCURY, bulk, s)
    | some buffer =>
      (docLoad s name mode packed ids (slice buffer docsOffset docsSize)
        (sizesOfMemory count buffer)).map
          (answerItems bulk buffer offset 0 count docsOffset docsSize)

/-- The handler of a backend that is known to write what it announces only. -/
theorem ykDocLoadUlt_eq_backend (docs : DocBackend δ) (hmode : docs.supportsMode = supportsMode δ)
    (hload : docs.docLoad = docLoad) :
    Yokan.ykDocLoadUlt docs = ykDocLoadUlt (δ := δ) := by
  cases docs
  dsimp only at hmode hload
  subst hmode hload
  funext mode packed name ids bulk offset size pooled s
  unfold Yokan.ykDocLoadUlt ykDocLoadUlt
  cases packed with
  | true => rfl
  | false => cases bulkTransfer pooled 0 bulk offset (8 * ids.length) <;> rfl

/-- `yk_doc_load_direct_ult`. -/
def ykDocLoadDirectUlt (mode : Mode) (name : CString) (ids : List UInt64) (bufsize : ℕ) (s : δ) :
    Option (GetDirectOut × δ) :=
  if !supportsMode δ mode then some ({ ret := .ERR_MODE }, s)
  else
    (docLoad s name mode true ids (List.replicate bufsize 0) (List.replicate ids.length 0)).map
      fun r =>
        if r.status = .OK then
          ({ ret := .SUCCESS
             vsizes := r.out.vsizes
             vals := r.out.vals.take r.out.valsSize }, r.db)
        else ({ ret := r.status.code }, r.db)

end Handlers

/-! ### The client -/

section Client

/-- The calls on collections: a variable of the caller is only written on success. -/
def collectionCall {α : Type} (mode : Mode) (value : α) (answer : Option (ReturnCode × α × δ))
    (s : δ) : Option (ReturnCode × α × δ) :=
  if !checkModeValid mode then some (.ERR_MODE, value, s)
  else answer.map fun r => (r.1, if r.1 = .SUCCESS then r.2.1 else value, r.2.2)

/-- `yk_collection_create`. -/
def ykCollectionCreate (mode : Mode) (name : CString) (s : δ) : Option (ReturnCode × Unit × δ) :=
  collectionCall mode () (ykCollCreateUlt mode name s) s

/-- `yk_collection_drop`. -/
def ykCollectionDrop (mode : Mode) (name : CString) (s : δ) : Option (ReturnCode × Unit × δ) :=
  collectionCall mode () (ykCollDropUlt mode name s) s

/-- `yk_collection_exists`. -/
def ykCollectionExists (mode : Mode) (name : CString) (flag : Bool) (s : δ) :
    Option (ReturnCode × Bool × δ) :=
  collectionCall mode flag (ykCollExistsUlt mode name s) s

/-- `yk_collection_last_id`. -/
def ykCollectionLastId (mode : Mode) (name : CString) (id : UInt64) (s : δ) :
    Option (ReturnCode × UInt64 × δ) :=
  collectionCall mode id (ykCollLastIdUlt mode name s) s

/-- `yk_collection_size`. -/
def ykCollectionSize (mode : Mode) (name : CString) (size : UInt64) (s : δ) :
    Option (ReturnCode × UInt64 × δ) :=
  collectionCall mode size (ykCollSizeUlt mode name s) s

/-- An array that is sent along with an answer is decoded into the one of the caller. -/
def decodeInto {α : Type} (array : List α) (r : ReturnCode × List α × δ) :
    ReturnCode × List α × δ :=
  match procDecode array r.2.1 with
  | none => (.ERR_FROM_MERCURY, array, r.2.2)
  | some array => (r.1, array, r.2.2)

/-- `yk_doc_erase_multi`. -/
def ykDocEraseMulti (mode : Mode) (name : CString) (ids : List UInt64) (s : δ) :
    Option (ReturnCode × Unit × δ) :=
  if ids.length = 0 then some (.SUCCESS, (), s)
  else if !checkModeValid mode then some (.ERR_MODE, (), s)
  else ykDocEraseUlt mode name ids s

/-- `yk_doc_length_multi`. -/
def ykDocLengthMulti (mode : Mode) (name : CString) (ids : List UInt64) (rsizes : List ℕ) (s : δ) :
    Option (ReturnCode × List ℕ × δ) :=
  if ids.length = 0 then some (.SUCCESS, rsizes, s)
  else if !checkModeValid mode then some (.ERR_MODE, rsizes, s)
  else (ykDocLengthUlt mode name ids s).map (decodeInto rsizes)

/-- `yk_doc_store_packed` and `yk_doc_update_packed`, from the two functions that they call and from
what they return without a call. -/
def docsPacked {ρ : Type} (direct : Option Bytes → List ℕ → ρ) (bulkCall : ℕ → Bytes → ℕ → ℕ → ρ)
    (done : ReturnCode → ρ) (mode : Mode) (records : Option Bytes) (rsizes : List ℕ) : ρ :=
  if mode.has .noRdma then direct records rsizes
  else if rsizes.length = 0 then done .SUCCESS
  else
    let total := accumulate rsizes
    if total ≠ 0 ∧ records.isNone then done .ERR_INVALID_ARGS
    else
      let segments := sizesMemory rsizes :: if total ≠ 0 then [(records.getD []).take total] else []
      bulkCall rsizes.length segments.flatten 0 (accumulate [8 * rsizes.length, total])

/-- The loop of `yk_doc_store_multi`, `yk_doc_update_multi` and `yk_doc_load_multi` over the
documents, with an `unsigned` counter. No segment is exposed for an empty document, and there is no
result when the loop does not end. -/
def exposeDocs (records : List Bytes) : Option (List Bytes) :=
  (countAll 32 records.length fun _ => false).map fun _ => exposed records

/-- `yk_doc_store_multi` and `yk_doc_update_multi`. -/
def docsMulti {α : Type} (direct : Option Bytes → List ℕ → Option α)
    (bulkCall : ℕ → Bytes → ℕ → ℕ → Option α) (done : ReturnCode → Option α) (mode : Mode)
    (records : List Bytes) : Option α :=
  let rsizes := records.map List.length
  if records.length = 0 then done .SUCCESS
  else if mode.has .noRdma then
    if records.length = 1 then direct (some (records.headD [])) rsizes
    else direct (some records.flatten) rsizes
  else
    (exposeDocs records).bind fun docs =>
      let segments := sizesMemory rsizes :: docs
      bulkCall records.length segments.flatten 0 (accumulate (segments.map List.length))

/-- `yk_doc_store_direct`. It does not check the mode. -/
def ykDocStoreDirect (mode : Mode) (name : CString) (ids : List UInt64) (s : δ)
    (records : Option Bytes) (rsizes : List ℕ) : Option (ReturnCode × List UInt64 × δ) :=
  if rsizes.length = 0 then some (.SUCCESS, ids, s)
  else if records.isNone ∧ accumulate rsizes ≠ 0 then some (.ERR_INVALID_ARGS, ids, s)
  else
    (ykDocStoreDirectUlt mode name rsizes ((records.getD []).take (accumulate rsizes)) s).map
      (decodeInto ids)

/-- `yk_doc_store_bulk`, for memory of the caller. -/
def ykDocStoreBulk (mode : Mode) (name : CString) (ids : List UInt64) (pooled : Bytes) (s : δ)
    (count : ℕ) (bulk : Bytes) (offset size : ℕ) : Option (ReturnCode × List UInt64 × δ) :=
  if !checkModeValid mode then some (.ERR_MODE, ids, s)
  else (ykDocStoreUlt mode name count bulk offset size pooled s).map (decodeInto ids)

/-- `yk_doc_store_packed`. -/
def ykDocStorePacked (mode : Mode) (name : CString) (records : Option Bytes) (rsizes : List ℕ)
    (ids : List UInt64) (pooled : Bytes) (s : δ) : Option (ReturnCode × List UInt64 × δ) :=
  docsPacked (ykDocStoreDirect mode name ids s) (ykDocStoreBulk mode name ids pooled s)
    (fun ret => some (ret, ids, s)) mode records rsizes

/-- `yk_doc_store_multi`. -/
def ykDocStoreMulti (mode : Mode) (name : CString) (records : List Bytes) (ids : List UInt64)
    (pooled : Bytes) (s : δ) : Option (ReturnCode × List UInt64 × δ) :=
  docsMulti (ykDocStoreDirect mode name ids s) (ykDocStoreBulk mode name ids pooled s)
    (fun ret => some (ret, ids, s)) mode records

/-- `yk_doc_update_direct`. -/
def ykDocUpdateDirect (mode : Mode) (name : CString) (ids : List UInt64) (s : δ)
    (records : Option Bytes) (rsizes : List ℕ) : Option (ReturnCode × Unit × δ) :=
  if rsizes.length = 0 then some (.SUCCESS, (), s)
  else if !checkModeValid mode then some (.ERR_MODE, (), s)
  else if records.isNone ∧ accumulate rsizes ≠ 0 then some (.ERR_INVALID_ARGS, (), s)
  else ykDocUpdateDirectUlt mode name ids rsizes ((records.getD []).take (accumulate rsizes)) s

/-- `yk_doc_update_bulk`, for memory of the caller. -/
def ykDocUpdateBulk (mode : Mode) (name : CString) (ids : List UInt64) (pooled : Bytes) (s : δ)
    (_count : ℕ) (bulk : Bytes) (offset size : ℕ) : Option (ReturnCode × Unit × δ) :=
  if !checkModeValid mode then some (.ERR_MODE, (), s)
  else ykDocUpdateUlt mode name ids bulk offset size pooled s

/-- `yk_doc_update_packed`. -/
def ykDocUpdatePacked (mode : Mode) (name : CString) (ids : List UInt64) (records : Option Bytes)
    (rsizes : List ℕ) (pooled : Bytes) (s : δ) : Option (ReturnCode × Unit × δ) :=
  docsPacked (ykDocUpdateDirect mode name ids s) (ykDocUpdateBulk mode name ids pooled s)
    (fun ret => some (ret, (), s)) mode records rsizes

/-- `yk_doc_update_multi`. -/
def ykDocUpdateMulti (mode : Mode) (name : CString) (ids : List UInt64) (records : List Bytes)
    (pooled : Bytes) (s : δ) : Option (ReturnCode × Unit × δ) :=
  docsMulti (ykDocUpdateDirect mode name ids s) (ykDocUpdateBulk mode name ids pooled s)
    (fun ret => some (ret, (), s)) mode records

/-- `yk_doc_load_direct`. The answer is decoded field by field. -/
def ykDocLoadDirect (mode : Mode) (name : CString) (ids : List UInt64) (arrays : GetArrays)
    (s : δ) : Option (ReturnCode × GetArrays × δ) :=
  if ids.length = 0 then some (.SUCCESS, arrays, s)
  else if !checkModeValid mode then some (.ERR_MODE, arrays, s)
  else
    (ykDocLoadDirectUlt mode name ids arrays.vals.length s).map fun r =>
      match procDecode arrays.vsizes r.1.vsizes with
      | none => (.ERR_FROM_MERCURY, arrays, r.2)
      | some vsizes =>
        match procDecode arrays.vals r.1.vals with
        | none => (.ERR_FROM_MERCURY, { arrays with vsizes }, r.2)
        | some vals => (r.1.ret, { vals, vsizes }, r.2)

/-- `yk_doc_load_bulk`, for memory of the caller. -/
def ykDocLoadBulk (mode : Mode) (packed : Bool) (name : CString) (ids : List UInt64) (bulk : Bytes)
    (offset size : ℕ) (pooled : Bytes) (s : δ) : Option (ReturnCode × Bytes × δ) :=
  if !checkModeValid mode then some (.ERR_MODE, bulk, s)
  else ykDocLoadUlt mode packed name ids bulk offset size pooled s

/-- `yk_doc_load_packed`. The room for the documents is not exposed if there is none. -/
def ykDocLoadPacked (mode : Mode) (name : CString) (ids : List UInt64) (arrays : GetArrays)
    (pooled : Bytes) (s : δ) : Option (ReturnCode × GetArrays × δ) :=
  if mode.has .noRdma then ykDocLoadDirect mode name ids arrays s
  else if ids.length = 0 then some (.SUCCESS, arrays, s)
  else
    let segments := sizesMemory arrays.vsizes :: exposed [arrays.vals]
    (ykDocLoadBulk mode true name ids segments.flatten 0
      (accumulate [8 * ids.length, arrays.vals.length]) pooled s).map fun r =>
        let back := unpack r.2.1 (segments.map List.length)
        (r.1, ⟨back.tail.headD [], sizesOfMemory ids.length (back.headD [])⟩, r.2.2)

/-- `yk_doc_load_multi`. The flag `YOKAN_MODE_NO_RDMA` is not looked at. -/
def ykDocLoadMulti (mode : Mode) (name : CString) (ids : List UInt64) (slots : List Bytes)
    (pooled : Bytes) (s : δ) : Option (ReturnCode × (List Bytes × List ℕ) × δ) :=
  let rsizes := slots.map List.length
  if ids.length = 0 then some (.SUCCESS, (slots, rsizes), s)
  else
    (exposeDocs slots).bind fun room =>
      let segments := sizesMemory rsizes :: room
      (ykDocLoadBulk mode false name ids segments.flatten 0
        (accumulate (segments.map List.length)) pooled s).map fun r =>
          let back := unpack r.2.1 (segments.map List.length)
          (r.1, (landed slots back.tail, sizesOfMemory ids.length (back.headD [])), r.2.2)

end Client

/-! ### Modes -/

section Modes

variable {α : Type} {mode : Mode} {s : δ}

theorem answerCall_served {call : Option (Status × α × δ)} (rest : α)
    (hmode : supportsMode δ mode = true) :
    answerCall mode rest call s = call.map fun r => (r.1.code, r.2) := by
  unfold answerCall
  rw [hmode]
  rfl

theorem answerCall_refused {call : Option (Status × α × δ)} (rest : α)
    (hmode : supportsMode δ mode = false) :
    answerCall mode rest call s = some (.ERR_MODE, rest, s) := by
  unfold answerCall
  rw [hmode]
  rfl

/-- A mode that is not valid or not supported is refused, by the client or by the server. -/
theorem checkedCall_refused {call : Option (Status × α × δ)} (rest : α)
    (hmode : (checkModeValid mode && supportsMode δ mode) = false) :
    (if !checkModeValid mode then some (.ERR_MODE, rest, s) else answerCall mode rest call s) =
      some (.ERR_MODE, rest, s) := by
  cases hvalid : checkModeValid mode with
  | false => rfl
  | true =>
    rw [hvalid, Bool.true_and] at hmode
    rw [answerCall_refused rest hmode]
    rfl

theorem checkedCall_served {call : Option (Status × α × δ)} (rest : α)
    (hmode : (checkModeValid mode && supportsMode δ mode) = true) :
    (if !checkModeValid mode then some (.ERR_MODE, rest, s) else answerCall mode rest call s) =
      call.map fun r => (r.1.code, r.2) := by
  obtain ⟨hvalid, hsupported⟩ := Bool.and_eq_true_iff.1 hmode
  rw [hvalid, answerCall_served rest hsupported]
  rfl

/-- The variable of a caller that is refused stays as it is. -/
theorem collectionCall_refused {call : Option (Status × α × δ)} (value rest : α)
    (hmode : (checkModeValid mode && supportsMode δ mode) = false) :
    collectionCall mode value (answerCall mode rest call s) s = some (.ERR_MODE, value, s) := by
  unfold collectionCall
  cases hvalid : checkModeValid mode with
  | false => rfl
  | true =>
    rw [hvalid, Bool.true_and] at hmode
    rw [answerCall_refused rest hmode]
    rfl

theorem collectionCall_served {call : Option (Status × α × δ)} (value rest : α)
    (hmode : (checkModeValid mode && supportsMode δ mode) = true) :
    collectionCall mode value (answerCall mode rest call s) s =
      call.map fun r => (r.1.code, if r.1.code = .SUCCESS then r.2.1 else value, r.2.2) := by
  obtain ⟨hvalid, hsupported⟩ := Bool.and_eq_true_iff.1 hmode
  unfold collectionCall
  rw [hvalid, answerCall_served rest hsupported, Option.map_map]
  rfl

end Modes

/-! ### The documents on their way -/

/-- The loop over the documents ends if the counter can get to its end. -/
theorem exposeDocs_eq (records : List Bytes) :
    exposeDocs records = if records.length < 2 ^ 32 then some (exposed records) else none := by
  unfold exposeDocs
  split_ifs with hlt
  · rw [countAll_of_lt hlt]
    rfl
  · rw [countAll_eq_none_iff.2 ⟨Nat.not_lt.1 hlt, fun _ _ => rfl⟩]
    rfl

section Layout

variable {docs pooled : Bytes} {sizes : List ℕ} {mode : Mode} {name : CString} {s : δ}

/-- Documents that a client can send, with their sizes, to a server whose buffer has room for
them. -/
structure DocsRequest (docs : Bytes) (sizes : List ℕ) (pooled : Bytes) : Prop where
  ne_nil : sizes ≠ []
  docs_eq : docs.length = sizes.sum
  pooled_le : 8 * sizes.length + docs.length ≤ pooled.length
  pooled_lt : pooled.length < 2 ^ 63

namespace DocsRequest

theorem length_pos (h : DocsRequest docs sizes pooled) : 0 < sizes.length :=
  List.length_pos_iff.2 h.ne_nil

theorem accumulate_sizes (h : DocsRequest docs sizes pooled) : accumulate sizes = docs.length := by
  have hle := h.pooled_le
  have hlt := h.pooled_lt
  rw [accumulate_eq (by rw [← h.docs_eq]; omega), h.docs_eq]

theorem sizes_lt (h : DocsRequest docs sizes pooled) : ∀ size ∈ sizes, size < 2 ^ 64 :=
  fun size hsize => by
    have hsum := List.single_le_sum (l := sizes) (by simp) _ hsize
    have hdocs := h.docs_eq
    have hle := h.pooled_le
    have hlt := h.pooled_lt
    omega

/-- All that the client exposes is pulled to the front of the buffer. -/
theorem pulled (h : DocsRequest docs sizes pooled) :
    bulkTransfer pooled 0 (sizesMemory sizes ++ docs) 0 (8 * sizes.length + docs.length) =
      some (sizesMemory sizes ++ (docs ++ pooled.drop (8 * sizes.length + docs.length))) := by
  have hlength : (sizesMemory sizes ++ docs).length = 8 * sizes.length + docs.length := by
    rw [List.length_append, length_sizesMemory]
  rw [bulkTransfer_front pooled _ hlength.ge h.pooled_le, List.take_of_length_le hlength.le,
    List.append_assoc]

/-- What has been pulled are the sizes and the documents. -/
theorem pulledDocs_eq {α : Type} (h : DocsRequest docs sizes pooled) (rest : Bytes) (refused : α)
    (call : List ℕ → Bytes → α) :
    pulledDocs sizes.length (8 * sizes.length + docs.length) (sizesMemory sizes ++ (docs ++ rest))
      refused call = call sizes docs := by
  have hread : sizesOfMemory sizes.length (sizesMemory sizes ++ (docs ++ rest)) = sizes :=
    sizesOfMemory_append h.sizes_lt _
  have hslice : slice (sizesMemory sizes ++ (docs ++ rest)) (8 * sizes.length) docs.length =
      docs := by
    have hmiddle := slice_middle (sizesMemory sizes) docs rest
    rwa [length_sizesMemory] at hmiddle
  have hsize : ¬ 8 * sizes.length + docs.length < addSize (8 * sizes.length) docs.length := by
    have hle := h.pooled_le
    have hlt := h.pooled_lt
    rw [addSize_eq (by omega)]
    exact lt_irrefl _
  unfold pulledDocs
  simp only [hread, h.accumulate_sizes, if_neg hsize, hslice]

/-- The handler finds the documents to store where the client has put them. -/
theorem ykDocStoreUlt_eq (h : DocsRequest docs sizes pooled) (mode : Mode) (name : CString) (s : δ) :
    ykDocStoreUlt mode name sizes.length (sizesMemory sizes ++ docs) 0
        (8 * sizes.length + docs.length) pooled s =
      ykDocStoreDirectUlt mode name sizes docs s := by
  have hpos := h.length_pos
  unfold ykDocStoreUlt ykDocStoreDirectUlt answerCall
  rw [h.pulled, if_neg (show ¬ 8 * sizes.length + docs.length = 0 by omega)]
  simp only [h.pulledDocs_eq]

/-- The handler finds the new documents where the client has put them. -/
theorem ykDocUpdateUlt_eq (h : DocsRequest docs sizes pooled) (mode : Mode) (name : CString)
    {ids : List UInt64} (hids : ids.length = sizes.length) (s : δ) :
    ykDocUpdateUlt mode name ids (sizesMemory sizes ++ docs) 0 (8 * sizes.length + docs.length)
        pooled s =
      ykDocUpdateDirectUlt mode name ids sizes docs s := by
  have hpos := h.length_pos
  unfold ykDocUpdateUlt ykDocUpdateDirectUlt answerCall
  rw [h.pulled, if_neg (show ¬ 8 * sizes.length + docs.length = 0 by omega), hids]
  simp only [h.pulledDocs_eq]

/-- The documents lie back to back. -/
theorem docsPacked_eq {ρ : Type} (h : DocsRequest docs sizes pooled)
    (direct : Option Bytes → List ℕ → ρ) (bulkCall : ℕ → Bytes → ℕ → ℕ → ρ) (done : ReturnCode → ρ)
    (mode : Mode) :
    docsPacked direct bulkCall done mode (some docs) sizes =
      if mode.has .noRdma then direct (some docs) sizes
      else bulkCall sizes.length (sizesMemory sizes ++ docs) 0 (8 * sizes.length + docs.length) := by
  have hpos := h.length_pos
  have hle := h.pooled_le
  have hlt := h.pooled_lt
  have hsize : accumulate [8 * sizes.length, docs.length] = 8 * sizes.length + docs.length := by
    rw [accumulate_eq (by simp only [List.sum_cons, List.sum_nil]; omega)]
    simp
  have hlast : (if docs.length ≠ 0 then [docs] else []).flatten = docs := by
    split_ifs with hne
    · simp
    · simpa using (List.length_eq_zero_iff.1 (not_not.1 hne)).symm
  unfold docsPacked
  simp only [h.accumulate_sizes, Option.isNone_some, Bool.false_eq_true, and_false, if_false,
    Option.getD_some, List.take_length, List.flatten_cons, hlast, hsize,
    if_neg (show ¬ sizes.length = 0 by omega)]

/-- The documents lie in separate places. -/
theorem docsMulti_eq {α : Type} {records : List Bytes}
    (h : DocsRequest records.flatten (records.map List.length) pooled)
    (direct : Option Bytes → List ℕ → Option α) (bulkCall : ℕ → Bytes → ℕ → ℕ → Option α)
    (done : ReturnCode → Option α) (mode : Mode) :
    docsMulti direct bulkCall done mode records =
      if Counted mode records then
        docsPacked direct bulkCall done mode (some records.flatten) (records.map List.length)
      else none := by
  have hpos := h.length_pos
  have hle := h.pooled_le
  have hlt := h.pooled_lt
  rw [List.length_map] at hpos hle
  have hsum : ((sizesMemory (records.map List.length) :: exposed records).map List.length).sum =
      8 * records.length + records.flatten.length := by
    rw [List.map_cons, List.sum_cons, sum_exposed, length_sizesMemory, List.length_map]
  have hsize : accumulate ((sizesMemory (records.map List.length) :: exposed records).map
      List.length) = 8 * records.length + records.flatten.length := by
    rw [accumulate_eq (by omega), hsum]
  -- a single document is sent from where it lies
  have hone : records.length = 1 → records.headD [] = records.flatten := by
    intro hlen
    obtain ⟨record, rfl⟩ := List.length_eq_one_iff.1 hlen
    simp
  rw [h.docsPacked_eq]
  unfold docsMulti
  rw [if_neg (show ¬ records.length = 0 by omega), exposeDocs_eq]
  by_cases hrdma : mode.has .noRdma = true
  · have hcounted : Counted mode records := Or.inl hrdma
    rw [if_pos hrdma, if_pos hcounted, if_pos hrdma]
    split_ifs with hsingle
    · rw [hone hsingle]
    · rfl
  · have hcounted : Counted mode records ↔ records.length < 2 ^ 32 := or_iff_right hrdma
    simp only [if_neg hrdma, hcounted]
    split_ifs with hcount
    · simp only [Option.bind_some, hsize, List.flatten_cons, flatten_exposed, List.length_map]
    · rfl

/-- `yk_doc_store_packed`. Inside the RPC, nobody looks at incompatible flags. -/
theorem ykDocStorePacked_eq (h : DocsRequest docs sizes pooled) (mode : Mode) (name : CString)
    (ids : List UInt64) (s : δ) :
    ykDocStorePacked mode name (some docs) sizes ids pooled s =
      if !mode.has .noRdma && !checkModeValid mode then some (.ERR_MODE, ids, s)
      else (ykDocStoreDirectUlt mode name sizes docs s).map (decodeInto ids) := by
  have hpos := h.length_pos
  have hdirect : ykDocStoreDirect mode name ids s (some docs) sizes =
      (ykDocStoreDirectUlt mode name sizes docs s).map (decodeInto ids) := by
    unfold ykDocStoreDirect
    simp only [h.accumulate_sizes, Option.isNone_some, Bool.false_eq_true, false_and, if_false,
      Option.getD_some, List.take_length, if_neg (show ¬ sizes.length = 0 by omega)]
  unfold ykDocStorePacked
  rw [h.docsPacked_eq, hdirect, ykDocStoreBulk, h.ykDocStoreUlt_eq]
  rcases mode.has .noRdma with _ | _ <;> rcases checkModeValid mode with _ | _ <;> rfl

/-- `yk_doc_store_multi`. -/
theorem ykDocStoreMulti_eq {records : List Bytes}
    (h : DocsRequest records.flatten (records.map List.length) pooled) (mode : Mode)
    (name : CString) (ids : List UInt64) (s : δ) :
    ykDocStoreMulti mode name records ids pooled s =
      if Counted mode records then
        ykDocStorePacked mode name (some records.flatten) (records.map List.length) ids pooled s
      else none :=
  h.docsMulti_eq _ _ _ _

/-- `yk_doc_update_packed`. -/
theorem ykDocUpdatePacked_eq (h : DocsRequest docs sizes pooled) (mode : Mode) (name : CString)
    {ids : List UInt64} (hids : ids.length = sizes.length) (s : δ) :
    ykDocUpdatePacked mode name ids (some docs) sizes pooled s =
      if !checkModeValid mode then some (.ERR_MODE, (), s)
      else ykDocUpdateDirectUlt mode name ids sizes docs s := by
  have hpos := h.length_pos
  unfold ykDocUpdatePacked
  rw [h.docsPacked_eq, ykDocUpdateBulk, h.ykDocUpdateUlt_eq mode name hids]
  unfold ykDocUpdateDirect
  simp only [h.accumulate_sizes, Option.isNone_some, Bool.false_eq_true, false_and, if_false,
    Option.getD_some, List.take_length, if_neg (show ¬ sizes.length = 0 by omega), ite_self]

/-- `yk_doc_update_multi`. -/
theorem ykDocUpdateMulti_eq {records : List Bytes}
    (h : DocsRequest records.flatten (records.map List.length) pooled) (mode : Mode)
    (name : CString) (ids : List UInt64) (s : δ) :
    ykDocUpdateMulti mode name ids records pooled s =
      if Counted mode records then
        ykDocUpdatePacked mode name ids (some records.flatten) (records.map List.length) pooled s
      else none :=
  h.docsMulti_eq _ _ _ _

end DocsRequest

/-- Ids of documents that a client asks for, and room for them in a buffer of the server. -/
structure LoadRequest (ids : List UInt64) (sizes : List ℕ) (room pooled : Bytes) : Prop where
  ne_nil : ids ≠ []
  sizes_eq : sizes.length = ids.length
  pooled_le : 8 * ids.length + room.length ≤ pooled.length
  pooled_lt : pooled.length < 2 ^ 63

namespace LoadRequest

variable {ids : List UInt64} {room : Bytes} {packed : Bool} {r : GetResult δ}

/-- The documents that are loaded, over the room for them. -/
def loadedInto (room : Bytes) (out : GetOutput) : Bytes :=
  if out.valsSize ≠ 0 then out.vals else room

/-- The sizes that the handler passes to the database. -/
def sizesBefore (packed : Bool) (count : ℕ) (pooled : Bytes) (sizes : List ℕ) : List ℕ :=
  if packed then sizesOfMemory count pooled else sizes

/-- The handler pushes what the database has loaded to where the client looks for it. -/
theorem ykDocLoadUlt_eq (h : LoadRequest ids sizes room pooled)
    (hsizes : packed = false → ∀ size ∈ sizes, size < 2 ^ 64)
    (hmode : supportsMode δ mode = true)
    (hr : docLoad s name mode packed ids (slice pooled (8 * ids.length) room.length)
      (sizesBefore packed ids.length pooled sizes) = some r)
    (hvals : r.out.vals.length = room.length) (hvsizes : r.out.vsizes.length = ids.length) :
    ykDocLoadUlt mode packed name ids (sizesMemory sizes ++ room) 0 (8 * ids.length + room.length)
        pooled s =
      some (if r.status = .OK then
          (.SUCCESS, sizesMemory r.out.vsizes ++ loadedInto room r.out, r.db)
        else (r.status.code, sizesMemory sizes ++ room, r.db)) := by
  have hpos := List.length_pos_iff.2 h.ne_nil
  have hle := h.pooled_le
  have hlt := h.pooled_lt
  have hmemory : (sizesMemory sizes).length = 8 * ids.length := by
    rw [length_sizesMemory, h.sizes_eq]
  have hbulk : (sizesMemory sizes ++ room).length = 8 * ids.length + room.length := by
    rw [List.length_append, hmemory]
  have hdocsSize : (8 * ids.length + room.length + (2 ^ 64 - 8 * ids.length)) % 2 ^ 64 =
      room.length := by
    rw [show 8 * ids.length + room.length + (2 ^ 64 - 8 * ids.length) = room.length + 2 ^ 64 by omega,
      Nat.add_mod_right, Nat.mod_eq_of_lt (by omega)]
  -- the buffer starts with the sizes of the slots, unless the documents are packed
  obtain ⟨buffer, hpull, hbuffer, hsame, hread⟩ : ∃ buffer,
      (if packed then some pooled
        else bulkTransfer pooled 0 (sizesMemory sizes ++ room) 0 (8 * ids.length)) = some buffer ∧
      buffer.length = pooled.length ∧ buffer.drop (8 * ids.length) = pooled.drop (8 * ids.length) ∧
      sizesOfMemory ids.length buffer = sizesBefore packed ids.length pooled sizes := by
    cases packed with
    | true => exact ⟨pooled, rfl, rfl, rfl, rfl⟩
    | false =>
      refine ⟨sizesMemory sizes ++ pooled.drop (8 * ids.length), ?_, ?_, ?_, ?_⟩
      · rw [if_neg Bool.false_ne_true, bulkTransfer_front pooled _ (by omega) (by omega), ← hmemory,
          List.take_left]
      · rw [List.length_append, hmemory, List.length_drop]
        omega
      · rw [← hmemory, List.drop_left]
      · rw [← h.sizes_eq]
        exact sizesOfMemory_append (hsizes rfl) _
  have hslice : slice buffer (8 * ids.length) room.length =
      slice pooled (8 * ids.length) room.length := congrArg (List.take room.length) hsame
  have hpush := @pushItems_eq buffer r.out.vals r.out.vsizes 0 ids.length (8 * ids.length) hvsizes
    (by omega) (by omega) room.length (sizesMemory sizes ++ room) (Or.inl hvals.ge) 0 r.out.valsSize
  have hloaded : blit (sizesMemory sizes ++ room) (0 + 8 * ids.length)
      (if r.out.valsSize ≠ 0 then r.out.vals.take room.length else []) =
        sizesMemory sizes ++ loadedInto room r.out := by
    rw [Nat.zero_add, ← hmemory, blit_append_right, loadedInto]
    split_ifs with hzero
    · rw [List.take_of_length_le hvals.le, List.drop_eq_nil_of_le hvals.ge, List.append_nil]
    · rfl
  have hfront : blit (sizesMemory sizes ++ loadedInto room r.out) (0 + 0)
      (sizesMemory r.out.vsizes) = sizesMemory r.out.vsizes ++ loadedInto room r.out := by
    have hboth : (sizesMemory r.out.vsizes).length = (sizesMemory sizes).length := by
      rw [length_sizesMemory, hvsizes, hmemory]
    simp [blit, hboth]
  dsimp only at hpush
  rw [hloaded, hfront, if_neg (by omega), if_neg (by omega)] at hpush
  unfold ykDocLoadUlt answerItems
  dsimp only
  rw [hdocsSize, hmode, hpull]
  simp only [Bool.not_true, Bool.false_eq_true, if_false, hslice, hread, hr, Option.map_some, hpush,
    if_neg (show ¬ 8 * ids.length + room.length = 0 by omega)]

/-- The handler refuses a mode that is not supported. -/
theorem ykDocLoadBulk_refused (packed : Bool) (bulk : Bytes) (offset size : ℕ)
    (hmode : (checkModeValid mode && supportsMode δ mode) = false) :
    ykDocLoadBulk mode packed name ids bulk offset size pooled s = some (.ERR_MODE, bulk, s) := by
  unfold ykDocLoadBulk ykDocLoadUlt
  cases hvalid : checkModeValid mode with
  | false => rfl
  | true =>
    rw [hvalid, Bool.true_and] at hmode
    simp only [hmode, Bool.not_true, Bool.not_false, Bool.false_eq_true, if_false, if_true]

theorem ykDocLoadDirect_refused {arrays : GetArrays} (hids : ids ≠ [])
    (hmode : (checkModeValid mode && supportsMode δ mode) = false) :
    ykDocLoadDirect mode name ids arrays s = some (.ERR_MODE, arrays, s) := by
  have hnothing : ∀ {α : Type} (memory : List α), procDecode memory [] = some memory :=
    fun memory => procDecode_eq (Nat.zero_le _)
  unfold ykDocLoadDirect ykDocLoadDirectUlt
  rw [if_neg (by simpa using hids)]
  cases hvalid : checkModeValid mode with
  | false => rfl
  | true =>
    rw [hvalid, Bool.true_and] at hmode
    simp only [hmode, Bool.not_true, Bool.not_false, Bool.false_eq_true, if_false, if_true,
      Option.map_some, hnothing]

/-- A mode that is not valid or not supported is refused, by the client or by the server. -/
theorem ykDocLoadPacked_refused (hids : ids ≠ []) (arrays : GetArrays)
    (hmode : (checkModeValid mode && supportsMode δ mode) = false) :
    ∃ arrays', ykDocLoadPacked mode name ids arrays pooled s = some (.ERR_MODE, arrays', s) := by
  unfold ykDocLoadPacked
  rw [ykDocLoadDirect_refused hids hmode]
  simp only [ykDocLoadBulk_refused _ _ _ _ hmode, Option.map_some,
    if_neg (show ¬ ids.length = 0 by simpa using hids)]
  split_ifs <;> exact ⟨_, rfl⟩

theorem ykDocLoadMulti_refused (hids : ids ≠ []) {slots : List Bytes}
    (hcount : slots.length < 2 ^ 32)
    (hmode : (checkModeValid mode && supportsMode δ mode) = false) :
    ∃ arrays, ykDocLoadMulti mode name ids slots pooled s = some (.ERR_MODE, arrays, s) := by
  unfold ykDocLoadMulti
  simp only [exposeDocs_eq, if_pos hcount, Option.bind_some, ykDocLoadBulk_refused _ _ _ _ hmode,
    Option.map_some, if_neg (show ¬ ids.length = 0 by simpa using hids)]
  exact ⟨_, rfl⟩

/-- The loop over too many slots does not end. -/
theorem ykDocLoadMulti_eq_none (hids : ids ≠ []) {slots : List Bytes}
    (hcount : 2 ^ 32 ≤ slots.length) : ykDocLoadMulti mode name ids slots pooled s = none := by
  unfold ykDocLoadMulti
  simp only [exposeDocs_eq, if_neg (Nat.not_lt.2 hcount), Option.bind_none,
    if_neg (show ¬ ids.length = 0 by simpa using hids)]

/-- A client reads its arrays again: the sizes, and the segments behind them. -/
theorem unpack_back {sizes' : List ℕ} (hlen : sizes'.length = sizes.length) (loaded : Bytes)
    (slots : List Bytes) :
    unpack (sizesMemory sizes' ++ loaded)
        ((sizesMemory sizes :: exposed slots).map List.length) =
      sizesMemory sizes' :: unpack loaded ((exposed slots).map List.length) := by
  have hboth : (sizesMemory sizes).length = (sizesMemory sizes').length := by
    rw [length_sizesMemory, length_sizesMemory, hlen]
  rw [List.map_cons, unpack_cons, hboth, List.take_left, List.drop_left]

theorem sizesOfMemory_self {sizes : List ℕ} (hlt : ∀ size ∈ sizes, size < 2 ^ 64) :
    sizesOfMemory sizes.length (sizesMemory sizes) = sizes := by
  have happend := sizesOfMemory_append hlt []
  rwa [List.append_nil] at happend

theorem length_loadedInto {room : Bytes} {out : GetOutput} (h : out.vals.length = room.length) :
    (loadedInto room out).length = room.length := by
  unfold loadedInto
  split_ifs
  · exact h
  · rfl

/-- An answer from what the database has done, and what the arrays of the client hold if it has
succeeded. -/
def Loads {α : Type} (answer : Option (ReturnCode × α × δ)) (r : GetResult δ) (found : α) : Prop :=
  ∃ arrays, answer = some (r.status.code, arrays, r.db) ∧ (r.status = .OK → arrays = found)

/-- `yk_doc_load_bulk`, over the sizes and the segments of a client. -/
theorem ykDocLoadBulk_loads (h : LoadRequest ids sizes room pooled)
    (hsizes : packed = false → ∀ size ∈ sizes, size < 2 ^ 64)
    (hmode : (checkModeValid mode && supportsMode δ mode) = true)
    (hr : docLoad s name mode packed ids (slice pooled (8 * ids.length) room.length)
      (sizesBefore packed ids.length pooled sizes) = some r)
    (hvals : r.out.vals.length = room.length) (hvsizes : r.out.vsizes.length = ids.length) :
    Loads (ykDocLoadBulk mode packed name ids (sizesMemory sizes ++ room) 0
        (8 * ids.length + room.length) pooled s) r
      (sizesMemory r.out.vsizes ++ loadedInto room r.out) := by
  obtain ⟨hvalid, hsupported⟩ := Bool.and_eq_true_iff.1 hmode
  have hult := h.ykDocLoadUlt_eq hsizes hsupported hr hvals hvsizes
  unfold ykDocLoadBulk
  rw [hvalid, hult]
  by_cases hOK : r.status = .OK
  · rw [if_pos hOK]
    exact ⟨_, by rw [hOK]; rfl, fun _ => rfl⟩
  · rw [if_neg hOK]
    exact ⟨_, rfl, fun h => absurd h hOK⟩

/-- What the database has loaded is found in the arrays of the client. -/
theorem ykDocLoadPacked_loads {arrays : GetArrays}
    (h : LoadRequest ids arrays.vsizes arrays.vals pooled) (hrdma : mode.has .noRdma = false)
    (hmode : (checkModeValid mode && supportsMode δ mode) = true)
    (hr : docLoad s name mode true ids (slice pooled (8 * ids.length) arrays.vals.length)
      (sizesOfMemory ids.length pooled) = some r)
    (hvals : r.out.vals.length = arrays.vals.length) (hvsizes : r.out.vsizes.length = ids.length)
    (hlt : r.status = .OK → ∀ size ∈ r.out.vsizes, size < 2 ^ 64) :
    Loads (ykDocLoadPacked mode name ids arrays pooled s) r
      ⟨loadedInto arrays.vals r.out, r.out.vsizes⟩ := by
  have hpos := List.length_pos_iff.2 h.ne_nil
  have hle := h.pooled_le
  have hmax := h.pooled_lt
  have hsegments : (sizesMemory arrays.vsizes :: exposed [arrays.vals]).flatten =
      sizesMemory arrays.vsizes ++ arrays.vals := by
    rw [List.flatten_cons, flatten_exposed]
    simp
  have hsize : accumulate [8 * ids.length, arrays.vals.length] =
      8 * ids.length + arrays.vals.length := by
    rw [accumulate_eq (by simp only [List.sum_cons, List.sum_nil]; omega)]
    simp
  obtain ⟨bulk, hbulk, hOK⟩ := h.ykDocLoadBulk_loads (fun h => by cases h) hmode hr hvals hvsizes
  unfold ykDocLoadPacked
  simp only [hrdma, Bool.false_eq_true, if_false, hsegments, hsize, hbulk, Option.map_some,
    if_neg (show ¬ ids.length = 0 by omega)]
  refine ⟨_, rfl, fun hstatus => ?_⟩
  rw [hOK hstatus, unpack_back (hvsizes.trans h.sizes_eq.symm), List.headD_cons, List.tail_cons,
    ← hvsizes, sizesOfMemory_self (hlt hstatus)]
  -- the room is not a segment if there is none
  by_cases hnone : arrays.vals = []
  · have hnothing := length_loadedInto hvals
    rw [hnone] at hnothing
    rw [hnone, List.length_eq_zero_iff.1 hnothing]
    simp [exposed]
  · have hexposed : exposed [arrays.vals] = [arrays.vals] := by simp [exposed, hnone]
    rw [hexposed, List.map_singleton, unpack_cons,
      List.take_of_length_le (length_loadedInto hvals).le]
    rfl

/-- What the database has loaded for a slot is found in the slot. -/
theorem ykDocLoadMulti_loads {slots : List Bytes}
    (h : LoadRequest ids (slots.map List.length) slots.flatten pooled)
    (hexposed : slots.length < 2 ^ 32)
    (hmode : (checkModeValid mode && supportsMode δ mode) = true)
    (hr : docLoad s name mode false ids (slice pooled (8 * ids.length) slots.flatten.length)
      (slots.map List.length) = some r)
    (hvals : r.out.vals.length = slots.flatten.length) (hvsizes : r.out.vsizes.length = ids.length)
    (hlt : r.status = .OK → ∀ size ∈ r.out.vsizes, size < 2 ^ 64) :
    Loads (ykDocLoadMulti mode name ids slots pooled s) r
      (unpack (loadedInto slots.flatten r.out) (slots.map List.length), r.out.vsizes) := by
  have hpos := List.length_pos_iff.2 h.ne_nil
  have hle := h.pooled_le
  have hmax := h.pooled_lt
  have hcount : slots.length = ids.length := by rw [← h.sizes_eq, List.length_map]
  have hsegments : (sizesMemory (slots.map List.length) :: exposed slots).flatten =
      sizesMemory (slots.map List.length) ++ slots.flatten := by
    rw [List.flatten_cons, flatten_exposed]
  have hsum : ((sizesMemory (slots.map List.length) :: exposed slots).map List.length).sum =
      8 * ids.length + slots.flatten.length := by
    rw [List.map_cons, List.sum_cons, sum_exposed, length_sizesMemory, List.length_map, hcount]
  have hsize : accumulate ((sizesMemory (slots.map List.length) :: exposed slots).map
      List.length) = 8 * ids.length + slots.flatten.length := by
    rw [accumulate_eq (by omega), hsum]
  have hslots : ∀ size ∈ slots.map List.length, size < 2 ^ 64 := fun size hsize => by
    have hle := List.single_le_sum (l := slots.map List.length) (by simp) _ hsize
    rw [← List.length_flatten] at hle
    omega
  obtain ⟨bulk, hbulk, hOK⟩ := h.ykDocLoadBulk_loads (fun _ => hslots) hmode hr hvals hvsizes
  unfold ykDocLoadMulti
  simp only [exposeDocs_eq, if_pos hexposed, Option.bind_some, hsegments, hsize, hbulk,
    Option.map_some, if_neg (show ¬ ids.length = 0 by omega)]
  refine ⟨_, rfl, fun hstatus => ?_⟩
  have hlanded := landed_unpack slots (loadedInto slots.flatten r.out) []
  rw [List.append_nil] at hlanded
  rw [hOK hstatus, unpack_back (hvsizes.trans h.sizes_eq.symm), List.headD_cons, List.tail_cons,
    hlanded, ← hvsizes, sizesOfMemory_self (hlt hstatus)]

/-- Inside the RPC, only the documents are sent back. -/
theorem ykDocLoadDirect_loads {arrays : GetArrays} (hids : ids ≠ [])
    (hlen : arrays.vsizes.length = ids.length)
    (hmode : (checkModeValid mode && supportsMode δ mode) = true)
    (hr : docLoad s name mode true ids (List.replicate arrays.vals.length 0)
      (List.replicate ids.length 0) = some r)
    (hvals : r.out.vals.length = arrays.vals.length) (hvsizes : r.out.vsizes.length = ids.length)
    (hvalsSize : r.out.valsSize ≤ arrays.vals.length) :
    Loads (ykDocLoadDirect mode name ids arrays s) r
      ⟨r.out.vals.take r.out.valsSize ++ arrays.vals.drop r.out.valsSize, r.out.vsizes⟩ := by
  obtain ⟨hvalid, hsupported⟩ := Bool.and_eq_true_iff.1 hmode
  have hpos := List.length_pos_iff.2 hids
  have hnothing : ∀ {α : Type} (memory : List α), procDecode memory [] = some memory :=
    fun memory => procDecode_eq (Nat.zero_le _)
  have hsizes : procDecode arrays.vsizes r.out.vsizes = some r.out.vsizes :=
    procDecode_of_length_eq (hvsizes.trans hlen.symm)
  have htake : (r.out.vals.take r.out.valsSize).length = r.out.valsSize := by
    rw [List.length_take, hvals]
    exact Nat.min_eq_left hvalsSize
  have hdocs : procDecode arrays.vals (r.out.vals.take r.out.valsSize) =
      some (r.out.vals.take r.out.valsSize ++ arrays.vals.drop r.out.valsSize) := by
    rw [procDecode_eq (by rwa [htake]), htake]
  unfold ykDocLoadDirect ykDocLoadDirectUlt
  rw [hvalid, hsupported, hr]
  by_cases hOK : r.status = .OK
  · simp only [Bool.not_true, Bool.false_eq_true, if_false, Option.map_some, hOK, if_true, hsizes,
      hdocs, if_neg (show ¬ ids.length = 0 by omega)]
    exact ⟨_, by rw [hOK]; rfl, fun _ => rfl⟩
  · simp only [Bool.not_true, Bool.false_eq_true, if_false, Option.map_some, hOK, hnothing,
      if_neg (show ¬ ids.length = 0 by omega)]
    exact ⟨_, rfl, fun h => absurd h hOK⟩

end LoadRequest

end Layout

end DocRequests

end Yokan
