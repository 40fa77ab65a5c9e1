import Yokan.DocMixinInvariants
import Yokan.DocRequests
import Yokan.Sessions

/-!
# Yokan: what the clients of a database with documents see

A session is a run of requests of clients about collections and documents, in the order in which a
database in memory serves them. Each request goes its own way: the documents of a store lie apart or
back to back, they travel through RDMA or inside the RPC, the handler takes a buffer of the pool that
holds what its last user has left there, and the answer is written over variables and arrays of the
client that hold anything.

* `DocRequest.run`: a request through the client library, the network, the handler and the mixin;
* `DocRequest.answer`: the request on a family of collections, which knows of none of this;
* `doc_sessions_refine`: the answers to a session are those of the family;
* `doc_sessions_agree`: so two databases that start with the same collections cannot be told apart;
* `doc_store_agrees_iff`: a store that goes inside the RPC with incompatible flags is left out, as
  it is served where the other ways are refused.
-/

namespace Yokan

open Buffer PartialMap DocRequests

/-! ### Requests -/

/-- A request of a client; `load` says how many bytes there are for the documents, and `loadSlots`
how many for each of them. -/
inductive DocRequest
  | create (mode : Mode)
  | drop (mode : Mode)
  | existence (mode : Mode)
  | lastId (mode : Mode)
  | size (mode : Mode)
  | store (mode : Mode) (batch : DocBatch)
  | update (mode : Mode) (ids : List UInt64) (batch : DocBatch)
  | erase (mode : Mode) (ids : List UInt64)
  | length (mode : Mode) (ids : List UInt64)
  | load (mode : Mode) (ids : List UInt64) (room : ℕ)
  | loadSlots (mode : Mode) (ids : List UInt64) (slots : List ℕ)

/-- What a client learns from a request. -/
inductive DocResponse
  | failed (ret : ReturnCode)
  | done
  | flag (flag : Bool)
  | id (id : UInt64)
  | size (size : UInt64)
  | ids (ids : List UInt64)
  | sizes (sizes : List ℕ)
  | documents (found : List Found)
  deriving DecidableEq

/-- The memory that a request works on: the variables and the arrays of the client and the buffer of
the server. -/
structure DocMemory where
  flag : Bool
  word : UInt64
  ids : List UInt64
  sizes : List ℕ
  documents : Bytes
  slots : List Bytes
  pooled : Bytes

/-- A client reads the slots of its documents after a load. -/
def readDocSlots (sizes : List ℕ) (slots : List Bytes) : List Found :=
  List.zipWith (fun size slot =>
    if size = keyNotFound then .missing
    else if size = sizeTooSmall then .tooSmall
    else .value (slot.take size)) sizes slots

namespace DocRequest

def mode : DocRequest → Mode
  | create mode => mode
  | drop mode => mode
  | existence mode => mode
  | lastId mode => mode
  | size mode => mode
  | store mode _ => mode
  | update mode _ _ => mode
  | erase mode _ => mode
  | length mode _ => mode
  | load mode _ _ => mode
  | loadSlots mode _ _ => mode

/-- The requests that look documents up wait for them with `YOKAN_MODE_WAIT`. -/
def waits : DocRequest → Bool
  | drop mode => mode.has .wait
  | update mode _ _ => mode.has .updateNew && mode.has .wait
  | erase mode _ => mode.has .wait
  | length mode _ => mode.has .wait
  | load mode _ _ => mode.has .wait
  | loadSlots mode _ _ => mode.has .wait
  | _ => false

/-- Somebody looks at incompatible flags: nobody does when documents to store go inside the RPC. -/
def Checked (route : Route) : DocRequest → Prop
  | store mode _ => (route.mode mode).has .noRdma = true → checkModeValid mode = true
  | _ => True

/-- The client's loop over documents to send ends, or there is none. -/
def Exposes (route : Route) (mode : Mode) (count : ℕ) : Prop :=
  route.layout = .multi → (route.mode mode).has .noRdma = true ∨ count < 2 ^ 32

/-- The loops that count in 32 bits end: those of the client over documents that lie apart, and those
of `docUpdate` over the ids. -/
def Ends (route : Route) : DocRequest → Prop
  | store mode batch => Exposes route mode batch.sizes.length
  | update _ ids _ => ids.length < 2 ^ 32
  | loadSlots _ _ slots => slots.length < 2 ^ 32
  | _ => True

/-- A request that can be made on a collection: it is about some documents, the arrays and the
buffer have the sizes that it needs, and the keys of its documents fit in the address space. -/
def Fits (name : CString) (c : Collection) (mem : DocMemory) : DocRequest → Prop
  | drop mode => DocumentStoreMixin.Fits name c (.drop mode)
  | store _ batch =>
    DocsRequest batch.documents batch.sizes mem.pooled ∧ mem.ids.length = batch.sizes.length ∧
      KeysFit name mem.ids
  | update _ ids batch =>
    DocsRequest batch.documents batch.sizes mem.pooled ∧ ids.length = batch.sizes.length ∧
      KeysFit name ids
  | erase _ ids => ids ≠ [] ∧ KeysFit name ids
  | length _ ids => ids ≠ [] ∧ mem.sizes.length = ids.length ∧ KeysFit name ids
  | load _ ids room =>
    LoadRequest ids mem.sizes mem.documents mem.pooled ∧ mem.documents.length = room ∧
      KeysFit name ids
  | loadSlots _ ids slots =>
    LoadRequest ids slots mem.slots.flatten mem.pooled ∧ mem.slots.map List.length = slots ∧
      KeysFit name ids
  | _ => True

end DocRequest

/-! ### A request on its way -/

/-- What a client makes of a return code and of what has been written for it. -/
def DocResponse.of {α : Type} (ret : ReturnCode) (read : α → DocResponse) (written : α) :
    DocResponse :=
  if ret = .SUCCESS then read written else .failed ret

/-- What a client is told, if there is an answer. -/
def told {α δ : Type} (read : α → DocResponse) (answer : Option (ReturnCode × α × δ)) :
    Option (DocResponse × δ) :=
  answer.map fun r => (.of r.1 read r.2.1, r.2.2)

/-- A request, from the client through the handler and back, if no exception leaves the database and
the loops over the documents end. -/
def DocRequest.run {δ : Type} [DocumentInterface δ] (route : Route) (mem : DocMemory)
    (name : CString) (s : δ) : DocRequest → Option (DocResponse × δ)
  | create mode => told (fun _ => .done) (ykCollectionCreate (route.mode mode) name s)
  | drop mode => told (fun _ => .done) (ykCollectionDrop (route.mode mode) name s)
  | existence mode => told .flag (ykCollectionExists (route.mode mode) name mem.flag s)
  | lastId mode => told .id (ykCollectionLastId (route.mode mode) name mem.word s)
  | size mode => told .size (ykCollectionSize (route.mode mode) name mem.word s)
  | store mode batch =>
    told .ids (match route.layout with
      | .multi => ykDocStoreMulti (route.mode mode) name batch.docs mem.ids mem.pooled s
      | .packed => ykDocStorePacked (route.mode mode) name (some batch.documents) batch.sizes
          mem.ids mem.pooled s)
  | update mode ids batch =>
    told (fun _ => .done) (match route.layout with
      | .multi => ykDocUpdateMulti (route.mode mode) name ids batch.docs mem.pooled s
      | .packed => ykDocUpdatePacked (route.mode mode) name ids (some batch.documents) batch.sizes
          mem.pooled s)
  | erase mode ids => told (fun _ => .done) (ykDocEraseMulti (route.mode mode) name ids s)
  | length mode ids => told .sizes (ykDocLengthMulti (route.mode mode) name ids mem.sizes s)
  | load mode ids _ =>
    told (fun arrays => .documents (readValues arrays.vsizes arrays.vals))
      (ykDocLoadPacked (route.mode mode) name ids ⟨mem.documents, mem.sizes⟩ mem.pooled s)
  | loadSlots mode ids _ =>
    told (fun arrays => .documents (readDocSlots arrays.2 arrays.1))
      (ykDocLoadMulti (route.mode mode) name ids mem.slots mem.pooled s)

/-! ### A request on a family of collections -/

/-- What is found for some ids when each document goes to its own slot. -/
def foundInSlots (docs : UInt64 → Option Bytes) (ids : List UInt64) (slots : List ℕ) : List Found :=
  List.zipWith (fun id slot =>
    match docs id with
    | none => .missing
    | some doc => if slot < doc.length then .tooSmall else .value doc) ids slots

/-- The outcome of an operation, with what a client is told if it succeeds. -/
def outcome (r : Status × Family) (response : DocResponse) : DocResponse × Family :=
  (.of r.1.code (fun _ => response) (), r.2)

/-- A question about a collection, which must exist. -/
def asked (v : Family) (name : CString) (response : CollectionMetadata → DocResponse) :
    DocResponse × Family :=
  if name.bytes = [] then (.failed .ERR_INVALID_ARGS, v)
  else
    match (v name).metadata with
    | none => (.failed .ERR_KEY_NOT_FOUND, v)
    | some metadata => (response metadata, v)

namespace DocRequest

/-- What a request does to a family of collections. -/
def effect (v : Family) (name : CString) : DocRequest → DocResponse × Family
  | create _ => outcome (v.step (name, .create)) .done
  | drop mode => outcome (v.step (name, .drop mode)) .done
  | existence _ =>
    if name.bytes = [] then (.failed .ERR_INVALID_ARGS, v)
    else (.flag (v name).metadata.isSome, v)
  | lastId _ => asked v name fun metadata => .id (metadata.nextId - 1)
  | size _ => asked v name fun metadata => .size metadata.size
  | store mode batch =>
    let ids := List.replicate batch.sizes.length 0
    outcome (v.step (name, .store mode batch ids)) (.ids ((v name).store mode batch ids).2.1)
  | update mode ids batch => outcome (v.step (name, .update mode ids batch)) .done
  | erase mode ids => outcome (v.step (name, .erase mode ids)) .done
  | length _ ids =>
    if name.bytes = [] then (.failed .ERR_INVALID_ARGS, v)
    else (.sizes (ids.map fun id => entrySize ((v name).docs id)), v)
  | load mode ids room =>
    outcome (v.step (name, .load mode true ids [] (List.replicate ids.length 0)))
      (.documents (foundIn (v name).docs ids room false))
  | loadSlots mode ids slots =>
    outcome (v.step (name, .load mode false ids [] slots))
      (.documents (foundInSlots (v name).docs ids slots))

/-- The answer to a request, whose mode must be a valid one, and the family after it. -/
def answer (q : DocRequest) (v : Family) (name : CString) : DocResponse × Family :=
  if checkModeValid q.mode && inMemorySupportsMode q.mode then q.effect v name
  else (.failed .ERR_MODE, v)

end DocRequest

/-! ### `YOKAN_MODE_NO_RDMA` says nothing to the collections -/

namespace DocOp

/-- An operation in the mode of its way. -/
def via (route : Route) : DocOp → DocOp
  | create => create
  | drop mode => drop (route.mode mode)
  | store mode batch ids => store (route.mode mode) batch ids
  | update mode ids batch => update (route.mode mode) ids batch
  | erase mode ids => erase (route.mode mode) ids
  | load mode packed ids documents sizes => load (route.mode mode) packed ids documents sizes

theorem waits_via (route : Route) (op : DocOp) : (op.via route).waits = op.waits := by
  have hwait (mode : Mode) := route.has_mode mode .wait (by decide)
  have hnew (mode : Mode) := route.has_mode mode .updateNew (by decide)
  cases op <;> simp [via, waits, hwait, hnew]

end DocOp

theorem Collection.write_mode (route : Route) (mode : Mode) (ids : List UInt64) (batch : DocBatch)
    (docs : UInt64 → Option Bytes) :
    write (route.mode mode) ids batch docs = write mode ids batch docs := by
  unfold write
  simp only [route.putStatus_mode, route.putRule_mode]

theorem Family.step_via (route : Route) (v : Family) (name : CString) (op : DocOp) :
    v.step (name, op.via route) = v.step (name, op) := by
  have hconsume (mode : Mode) := route.has_mode mode .consume (by decide)
  have hnew (mode : Mode) := route.has_mode mode .updateNew (by decide)
  have hstep : (v name).step (op.via route) = (v name).step op := by
    cases op with
    | store mode batch ids =>
      simp only [DocOp.via, Collection.step, Collection.store, Collection.write_mode]
    | update mode ids batch =>
      simp only [DocOp.via, Collection.step, Collection.update, Collection.write_mode, hnew]
    | load mode packed ids documents sizes =>
      simp only [DocOp.via, Collection.step, Collection.load, hconsume]
    | create => rfl
    | drop mode => rfl
    | erase mode ids => rfl
  unfold Family.step
  rw [hstep]

/-- A load changes a family as if it had found nothing: its buffers do not matter. -/
theorem Family.step_load (v : Family) (name : CString) (mode : Mode) (packed packed' : Bool)
    (ids : List UInt64) (documents documents' : Bytes) {sizes sizes' : List ℕ}
    (hlen : sizes.length = sizes'.length) :
    v.step (name, .load mode packed ids documents sizes) =
      v.step (name, .load mode packed' ids documents' sizes') := by
  simp only [Family.step, Collection.step, Collection.load, hlen]

/-! ### What a client reads -/

theorem Status.code_eq_success {status : Status} : status.code = .SUCCESS ↔ status = .OK := by
  cases status <;> decide

/-- What is found under renamed keys. -/
theorem foundIn_map {ι κ : Type} (f : ι → κ) (m : κ → Option Bytes) (ids : List ι) (room : ℕ)
    (full : Bool) :
    foundIn m (ids.map f) room full = foundIn (fun id => m (f id)) ids room full := by
  induction ids generalizing room full with
  | nil => rfl
  | cons id ids ih =>
    rw [List.map_cons, foundIn, foundIn]
    cases m (f id) with
    | none => exact congrArg _ (ih room full)
    | some doc =>
      dsimp only
      rw [ih, ih]

/-- The slots of a client say what has been found for them. -/
theorem readDocSlots_fill (docs : UInt64 → Option Bytes) {ids : List UInt64} {slots : List ℕ}
    (off : ℕ) (buffer : Bytes) (hlen : ids.length = slots.length)
    (hroom : off + slots.sum ≤ buffer.length) (hproper : slots.sum ≤ lastValidSize) :
    readDocSlots (List.zipWith (fun id slot => slotSize slot (docs id)) ids slots)
        (unpack ((fill ((ids.map docs).zip slots) off buffer).drop off) slots) =
      foundInSlots docs ids slots := by
  have hmarks : sizeTooSmall ≠ keyNotFound := by decide
  induction ids generalizing slots off buffer with
  | nil => rfl
  | cons id ids ih =>
    obtain - | ⟨slot, slots⟩ := slots
    · rfl
    · rw [List.sum_cons] at hroom hproper
      rw [List.length_cons, List.length_cons, Nat.add_right_cancel_iff] at hlen
      have hsnd : ((ids.map docs).zip slots).map Prod.snd = slots :=
        List.map_snd_zip (by rw [List.length_map, hlen])
      unfold foundInSlots
      rw [List.map_cons, List.zip_cons_cons, List.zipWith_cons_cons, List.zipWith_cons_cons,
        unpack_cons, List.drop_drop]
      cases hdoc : docs id with
      | none =>
        have hrest := ih (off + slot) buffer hlen (by omega) (by omega)
        rw [fill, readDocSlots, List.zipWith_cons_cons, slotSize, if_pos rfl]
        exact congrArg _ hrest
      | some doc =>
        rw [fill, readDocSlots, List.zipWith_cons_cons, slotSize]
        dsimp only
        by_cases hfull : slot < doc.length
        · have hrest := ih (off + slot) buffer hlen (by omega) (by omega)
          rw [if_pos hfull, if_pos hfull, if_pos hfull, if_neg hmarks, if_pos rfl]
          exact congrArg _ hrest
        · have hblit : (blit buffer off doc).length = buffer.length := length_blit (by omega)
          have hrest := ih (off + slot) (blit buffer off doc) hlen (by omega) (by omega)
          -- the slots behind it are filled without touching the document
          have hbefore : slice (fill ((ids.map docs).zip slots) (off + slot) (blit buffer off doc))
              off doc.length = slice (blit buffer off doc) off doc.length :=
            slice_fill_before (by rw [hsnd]; omega) (by omega)
          have hread : (((fill ((ids.map docs).zip slots) (off + slot) (blit buffer off doc)).drop
              off).take slot).take doc.length = doc := by
            rw [slice_blit_same (by omega)] at hbefore
            rw [List.take_take, Nat.min_eq_left (by omega)]
            exact hbefore
          have hlast := lastValidSize_lt_noMoreKeys
          have hnext := noMoreKeys_lt_sizeTooSmall
          have hmissing := sizeTooSmall_lt_keyNotFound
          rw [if_neg hfull, if_neg hfull, if_neg hfull,
            if_neg (show doc.length ≠ keyNotFound by omega),
            if_neg (show doc.length ≠ sizeTooSmall by omega), hread]
          exact congrArg _ hrest

/-- The documents of a request, one after the other. -/
theorem flatten_unpack {documents : Bytes} {sizes : List ℕ} (h : documents.length = sizes.sum) :
    (unpack documents sizes).flatten = documents := by
  induction sizes generalizing documents with
  | nil => exact (List.length_eq_zero_iff.1 h).symm
  | cons size sizes ih =>
    rw [List.sum_cons] at h
    rw [unpack_cons, List.flatten_cons, ih (by rw [List.length_drop]; omega),
      List.take_append_drop]

namespace DocBatch

variable {batch : DocBatch} {pooled : Bytes}

theorem map_length_docs (h : DocsRequest batch.documents batch.sizes pooled) :
    batch.docs.map List.length = batch.sizes := map_length_unpack h.docs_eq.ge

theorem flatten_docs (h : DocsRequest batch.documents batch.sizes pooled) :
    batch.docs.flatten = batch.documents := flatten_unpack h.docs_eq

/-- The documents of a batch, apart from each other. -/
theorem docsRequest_docs (h : DocsRequest batch.documents batch.sizes pooled) :
    DocsRequest batch.docs.flatten (batch.docs.map List.length) pooled := by
  rwa [map_length_docs h, flatten_docs h]

end DocBatch

/-! ### What a client is told -/

section Told

variable {δ : Type}

theorem told_map {α : Type} (read : α → DocResponse) (call : Option (Status × α × δ)) :
    told read (call.map fun r => (r.1.code, r.2)) =
      call.map fun r => (.of r.1.code read r.2.1, r.2.2) := by
  unfold told
  rw [Option.map_map]
  rfl

/-- What is sent along is read on success only. -/
theorem told_kept {α : Type} (read : α → DocResponse) (value : α)
    (call : Option (Status × α × δ)) :
    told read (call.map fun r =>
        (r.1.code, if r.1.code = .SUCCESS then r.2.1 else value, r.2.2)) =
      call.map fun r => (.of r.1.code read r.2.1, r.2.2) := by
  unfold told
  rw [Option.map_map]
  refine congrArg (fun f => call.map f) ?_
  funext r
  unfold DocResponse.of
  dsimp only [Function.comp_apply]
  split_ifs <;> rfl

/-- An array that is sent along fills the one of the client. -/
theorem told_decodeInto {α : Type} (read : List α → DocResponse) {array : List α}
    {call : Option (Status × List α × δ)}
    (hlen : ∀ r, call = some r → r.1 = .OK → r.2.1.length = array.length) :
    told read (((sent call).map fun r => (r.1.code, r.2)).map (decodeInto array)) =
      call.map fun r => (.of r.1.code read r.2.1, r.2.2) := by
  cases call with
  | none => rfl
  | some r =>
    obtain ⟨status, items, t⟩ := r
    by_cases hOK : status = .OK
    · have hdecode : procDecode array items = some items :=
        procDecode_of_length_eq (hlen _ rfl hOK)
      simp [told, sent, decodeInto, hOK, hdecode]
    · have hcode : status.code ≠ .SUCCESS := fun h => hOK (Status.code_eq_success.1 h)
      have hdecode : procDecode array [] = some array := procDecode_eq (Nat.zero_le _)
      simp [told, sent, decodeInto, hOK, hdecode, DocResponse.of, hcode]

/-- Nothing is decoded into the array of a client that is refused. -/
theorem told_refused {α : Type} (read : List α → DocResponse) (array : List α) (s : δ) :
    told read ((some (ReturnCode.ERR_MODE, ([] : List α), s)).map (decodeInto array)) =
      some (.failed .ERR_MODE, s) := by
  have hdecode : procDecode array [] = some array := procDecode_eq (Nat.zero_le _)
  simp [told, decodeInto, hdecode, DocResponse.of]

theorem told_loads {α : Type} {read : α → DocResponse} {answer : Option (ReturnCode × α × δ)}
    {r : GetResult δ} {found : α} (h : LoadRequest.Loads answer r found) :
    told read answer = some (.of r.status.code read found, r.db) := by
  obtain ⟨arrays, rfl, hfound⟩ := h
  unfold told DocResponse.of
  dsimp only [Option.map_some]
  split_ifs with hcode
  · rw [hfound (Status.code_eq_success.1 hcode)]
  · rfl

end Told

/-! ### One request -/

section Step

variable {σ : Type} [InMemory σ] {s : DocumentStoreMixin σ} {mem : DocMemory} {name : CString}
  {mode : Mode} {ids : List UInt64} {batch : DocBatch}

open DocumentStoreMixin FiniteMapStore

/-- What has become of a request on a family of collections. -/
def RefinesDocs (r : Option (DocResponse × DocumentStoreMixin σ)) (a : DocResponse × Family) :
    Prop :=
  ∃ t, r = some (a.1, t) ∧ Coherent t ∧ t.view = a.2

/-- A client is told the status of an operation, and reads what it has found on success. -/
theorem refinesDocs_told {α : Type} {read : α → DocResponse} {found : α} {status : Status}
    {t : DocumentStoreMixin σ} {r : Status × Family} {response : DocResponse} (ht : Coherent t)
    (hview : (status, t.view) = r) (hfound : status = .OK → read found = response) :
    RefinesDocs (some (.of status.code read found, t)) (outcome r response) := by
  subst hview
  refine ⟨t, ?_, ht, rfl⟩
  unfold outcome DocResponse.of
  dsimp only
  split_ifs with hcode
  · rw [hfound (Status.code_eq_success.1 hcode)]
  · rfl

/-- A request is refused for its mode, or it is what the mixin does. -/
theorem refinesDocs_of_checked {q : DocRequest} (route : Route) (mode : Mode)
    (hq : q.mode = mode) (hs : Coherent s)
    (hrefused : (checkModeValid (route.mode mode) &&
        DocumentInterface.supportsMode (DocumentStoreMixin σ) (route.mode mode)) = false →
      q.run route mem name s = some (.failed .ERR_MODE, s))
    (hserved : (checkModeValid (route.mode mode) &&
        DocumentInterface.supportsMode (DocumentStoreMixin σ) (route.mode mode)) = true →
      RefinesDocs (q.run route mem name s) (q.effect s.view name)) :
    RefinesDocs (q.run route mem name s) (q.answer s.view name) := by
  have hchecked : (checkModeValid (route.mode mode) &&
      DocumentInterface.supportsMode (DocumentStoreMixin σ) (route.mode mode)) = _ :=
    route.checked_mode mode
  rw [hchecked] at hrefused hserved
  unfold DocRequest.answer
  rw [hq]
  split_ifs with hmode
  · exact hserved hmode
  · exact ⟨s, hrefused (Bool.eq_false_iff.2 hmode), hs, rfl⟩

/-- An operation that answers with its status. -/
theorem refinesDocs_plain (hs : Coherent s) (op : DocOp) (route : Route)
    (hwait : op.waits = false) (hsome : (s.step (name, op.via route)).isSome)
    {call : Option (Status × DocumentStoreMixin σ)} (hcall : call = s.step (name, op.via route)) :
    RefinesDocs ((plain call).map fun r => (.of r.1.code (fun _ => .done) r.2.1, r.2.2))
      (outcome (s.view.step (name, op)) .done) := by
  obtain ⟨⟨status, t⟩, hr⟩ := Option.isSome_iff_exists.1 hsome
  obtain ⟨ht, hview⟩ := step_spec hs ((op.waits_via route).trans hwait) hr
  rw [Family.step_via] at hview
  rw [hcall, hr]
  exact refinesDocs_told ht hview fun _ => rfl

/-- A question about the metadata of a collection. -/
theorem refinesDocs_asked {α : Type} (hs : Coherent s) (read : α → DocResponse)
    (value : CollectionMetadata → α) :
    let r := s.collGetMetadata name {}
    RefinesDocs (some (.of r.1.code read (value r.2.1), r.2.2))
      (asked s.view name fun metadata => read (value metadata)) := by
  intro r
  unfold asked
  split_ifs with hname
  · have hr : r = (.InvalidArg, {}, s) := by simp [r, collGetMetadata, hname]
    rw [hr]
    exact ⟨s, rfl, hs, rfl⟩
  · cases hm : (s.view name).metadata with
    | none =>
      obtain ⟨t, ht, hcoherent, hview⟩ := collGetMetadata_of_none hs hname hm {}
      rw [show r = _ from ht]
      exact ⟨t, rfl, hcoherent, hview⟩
    | some metadata =>
      obtain ⟨t, ht, hcoherent, hview⟩ := collGetMetadata_of_some hs hname hm {}
      rw [show r = _ from ht]
      exact ⟨t, rfl, hcoherent, hview⟩

/-- `docStore` assigns the ids of the abstract store. -/
theorem docStore_answers (hs : Coherent s) (route : Route) (hfit : KeysFit name ids) :
    ∃ status assigned t,
      s.docStore name (route.mode mode) batch.documents batch.sizes ids =
        some (status, assigned, t) ∧
      Coherent t ∧ (status, t.view) = s.view.step (name, .store mode batch ids) ∧
      (status = .OK → assigned = ((s.view name).store mode batch ids).2.1) := by
  obtain ⟨⟨status, assigned, t⟩, hr⟩ := Option.isSome_iff_exists.1
    (docStore_isSome hs (route.mode mode) batch.documents batch.sizes hfit)
  have hstep : s.step (name, (DocOp.store mode batch ids).via route) = some (status, t) := by
    simp only [DocOp.via, step, hr, Option.map_some]
  obtain ⟨ht, hview⟩ := step_spec hs rfl hstep
  rw [Family.step_via] at hview
  refine ⟨status, assigned, t, hr, ht, hview, fun hOK => ?_⟩
  have hname : name.bytes ≠ [] := fun hempty => by
    have hinvalid := (step_of_empty_name hempty hstep).1
    rw [hOK] at hinvalid
    cases hinvalid
  have hassigned := (docStore_spec hs hname hr).2
  simp only [Collection.store, Collection.write_mode] at hassigned ⊢
  exact hassigned

theorem length_store_ids (c : Collection) (mode : Mode) (batch : DocBatch) (ids : List UInt64) :
    (c.store mode batch ids).2.1.length = ids.length := by
  unfold Collection.store
  cases c.metadata with
  | none => rfl
  | some metadata => simp [CollectionMetadata.assigned]

/-- The sizes of some documents, whether the collection exists or not. -/
theorem docSize_eq (hs : Coherent s) (hname : name.bytes ≠ []) (hwait : mode.has .wait = false)
    (hfit : KeysFit name ids) {sizes : List ℕ} (hsizes : ids.length = sizes.length) :
    s.docSize name mode ids sizes =
      some (.OK, ids.map fun id => entrySize ((s.view name).docs id)) := by
  have hlen : (idKeySizes name ids).length = sizes.length := by rw [length_idKeySizes, hsizes]
  have hlength := length_eq hs.serving hwait (packed_keys hfit) hlen
  rw [unpack_keys, List.map_map] at hlength
  rw [docSize, if_neg hname, keysFromIds_of_fit hfit, Option.map_some, hlength]
  rfl

/-- `docLoad` reads the documents of a collection that exists, and leaves the buffers of a refused
caller alone. -/
theorem docLoad_answers (hs : Coherent s) (route : Route) (packed : Bool)
    (hwait : mode.has .wait = false) (hfit : KeysFit name ids) (documents : Bytes)
    {sizes : List ℕ} (hsizes : sizes.length = ids.length) :
    ∃ r : GetResult (DocumentStoreMixin σ),
      DocumentInterface.docLoad s name (route.mode mode) packed ids documents sizes = some r ∧
      Coherent r.db ∧
      (∀ sizes' : List ℕ, sizes'.length = ids.length →
        (r.status, r.db.view) = s.view.step (name, .load mode packed ids [] sizes')) ∧
      r.out = if r.status = .OK then
          (getWith (contents s.db) (route.mode mode) packed (ids.map (keyFromId name)).flatten
            (idKeySizes name ids) documents sizes).2
        else ⟨documents, documents.length, sizes⟩ := by
  have hwait' : (route.mode mode).has .wait = false := by
    rwa [route.has_mode mode .wait (by decide)]
  obtain ⟨⟨status, out, t⟩, hr⟩ := Option.isSome_iff_exists.1
    (@docLoad_isSome σ _ s name (route.mode mode) packed ids documents sizes hfit)
  have hstep : s.step (name, (DocOp.load mode packed ids documents sizes).via route) =
      some (status, t) := by
    simp only [DocOp.via, step, hr, Option.map_some]
  have hwaits : ((DocOp.load mode packed ids documents sizes).via route).waits = false :=
    (DocOp.waits_via route _).trans hwait
  obtain ⟨ht, hview⟩ := step_spec hs hwaits hstep
  rw [Family.step_via] at hview
  refine ⟨⟨status, t, out⟩, ?_, ht, fun sizes' hsizes' => ?_, ?_⟩
  · show (s.docLoad name (route.mode mode) packed ids documents sizes).map _ = _
    rw [hr]
    rfl
  · rw [hview]
    exact Family.step_load _ _ _ _ _ _ _ _ (hsizes.trans hsizes'.symm)
  · dsimp only
    by_cases hname : name.bytes = []
    · rw [docLoad, if_pos hname] at hr
      obtain ⟨rfl, rfl, -⟩ := Prod.mk.injEq .. ▸ Option.some.inj hr
      rfl
    · rw [docLoad, if_neg hname, collExistsImpl_spec hs hname] at hr
      cases hm : (s.view name).metadata with
      | none =>
        simp only [hm, ne_eq, not_true, if_false, Option.isSome_none, Bool.not_false, if_true,
          Option.some.injEq, Prod.mk.injEq] at hr
        obtain ⟨rfl, rfl, -⟩ := hr
        rfl
      | some metadata =>
        have hlen : (idKeySizes name ids).length = sizes.length := by
          rw [length_idKeySizes, hsizes]
        have hOK := (@get_contents σ _ (route.mode mode) packed s.db
          (ids.map (keyFromId name)).flatten documents (idKeySizes name ids) sizes hs.serving hwait'
          (packed_keys hfit) hlen).1
        have hout : (DatabaseInterface.get (route.mode mode) packed s.db
            (ids.map (keyFromId name)).flatten (idKeySizes name ids) documents sizes).out = _ :=
          InMemory.get_out packed hs.serving hwait' (packed_keys hfit) hlen
        simp only [hm, ne_eq, not_true, if_false, Option.isSome_some, Bool.not_true,
          Bool.false_eq_true, keysFromIds_of_fit hfit, Option.map_some, Option.some.injEq,
          Prod.mk.injEq, hOK, hout] at hr
        obtain ⟨rfl, rfl, -⟩ := hr
        rfl

/-- The sizes that are reported for slots fit in a `size_t`. -/
theorem slotSize_lt {slot : ℕ} (hslot : slot < 2 ^ 64) (doc : Option Bytes) :
    slotSize slot doc < 2 ^ 64 := by
  have hmissing : keyNotFound < 2 ^ 64 := by decide
  have hsmall : sizeTooSmall < 2 ^ 64 := by decide
  unfold slotSize
  split
  · exact hmissing
  · split_ifs <;> omega

/-- Called with any buffers, a packed load leaves the documents that fit at the front of the one for
documents. -/
theorem docLoad_packed (hs : Coherent s) (route : Route) (hwait : mode.has .wait = false)
    (hfit : KeysFit name ids) {documents : Bytes} {sizes : List ℕ} {room : ℕ} (hroom : room < 2 ^ 63)
    (hdocuments : documents.length = room) (hsizes : sizes.length = ids.length) :
    ∃ r, DocumentInterface.docLoad s name (route.mode mode) true ids documents sizes = some r ∧
      Coherent r.db ∧ (r.status, r.db.view) =
        s.view.step (name, .load mode true ids [] (List.replicate ids.length 0)) ∧
      r.out.vals.length = room ∧ r.out.vsizes.length = ids.length ∧ r.out.valsSize ≤ room ∧
      (r.status = .OK → (∀ size ∈ r.out.vsizes, size < 2 ^ 64) ∧
        ∀ rest, readValues r.out.vsizes (r.out.vals.take r.out.valsSize ++ rest) =
          foundIn (s.view name).docs ids room false) := by
  have hwait' : (route.mode mode).has .wait = false := by
    rwa [route.has_mode mode .wait (by decide)]
  obtain ⟨r, hr, hcoherent, hview, hout⟩ :=
    docLoad_answers hs route true hwait hfit documents hsizes
  refine ⟨r, hr, hcoherent, hview _ List.length_replicate, ?_⟩
  by_cases hOK : r.status = .OK
  · have hlen : (idKeySizes name ids).length = sizes.length := by rw [length_idKeySizes, hsizes]
    rw [if_pos hOK, getWith_packed hwait' (packed_keys hfit) hlen (lt_lastValidSize (by omega)),
      unpack_keys, hdocuments] at hout
    have hfits := length_packedValues_le (contents s.db) (ids.map (keyFromId name)) room false
    have hcounted := length_packedValues (contents s.db) (ids.map (keyFromId name)) room false
    have hsmall := packedValues_lt (contents s.db) (ids.map (keyFromId name))
      (show room < 2 ^ 64 by omega) false
    have hread := readValues_packedValues (contents s.db) (ids.map (keyFromId name))
      (lt_lastValidSize hroom) false
    rw [foundIn_map] at hread
    rw [hout]
    generalize packedValues (contents s.db) (ids.map (keyFromId name)) room false = p at *
    refine ⟨?_, ?_, hfits, fun _ => ⟨hsmall, fun rest => ?_⟩⟩
    · exact (length_blit (by omega)).trans hdocuments
    · rw [hcounted, List.length_map]
    · have htake : (blit documents 0 p.2).take p.2.length = p.2 := by simp [blit]
      refine Eq.trans ?_ (hread rest)
      dsimp only
      rw [htake]
  · -- the buffers of a load that is refused stay as they are
    rw [if_neg hOK] at hout
    rw [hout]
    exact ⟨hdocuments, hsizes, hdocuments.le, fun h => absurd h hOK⟩

/-- A load into slots leaves each document that fits at the front of its slot. -/
theorem docLoad_slots (hs : Coherent s) (route : Route) (hwait : mode.has .wait = false)
    (hfit : KeysFit name ids) {documents : Bytes} {slots : List ℕ}
    (hdocuments : documents.length = slots.sum) (hlt : slots.sum < 2 ^ 63)
    (hcount : slots.length = ids.length) :
    ∃ r, DocumentInterface.docLoad s name (route.mode mode) false ids documents slots = some r ∧
      Coherent r.db ∧
      (r.status, r.db.view) = s.view.step (name, .load mode false ids [] slots) ∧
      r.out.vals.length = slots.sum ∧ r.out.vsizes.length = ids.length ∧
      (r.status = .OK → r.out.valsSize = slots.sum ∧ (∀ size ∈ r.out.vsizes, size < 2 ^ 64) ∧
        readDocSlots r.out.vsizes (unpack r.out.vals slots) =
          foundInSlots (s.view name).docs ids slots) := by
  have hwait' : (route.mode mode).has .wait = false := by
    rwa [route.has_mode mode .wait (by decide)]
  have hkeys : (idKeySizes name ids).length = slots.length := by rw [length_idKeySizes, hcount]
  have hsnd : ((ids.map (s.view name).docs).zip slots).map Prod.snd = slots :=
    List.map_snd_zip (hcount.trans (List.length_map _).symm).le
  have hmap : (ids.map (keyFromId name)).map (contents s.db) = ids.map (s.view name).docs := by
    rw [List.map_map]
    rfl
  obtain ⟨r, hr, ht, hview, hout⟩ := docLoad_answers hs route false hwait hfit documents hcount
  refine ⟨r, hr, ht, hview _ hcount, ?_⟩
  by_cases hOK : r.status = .OK
  · have hvals := @InMemory.getWith_slots_vals (route.mode mode) (ids.map (keyFromId name)).flatten
      documents (idKeySizes name ids) slots (contents s.db) hwait' (packed_keys hfit) (by omega)
    have hvsizes := @getWith_slots_vsizes (contents s.db) (route.mode mode)
      (ids.map (keyFromId name)).flatten (idKeySizes name ids) documents slots hwait'
      (packed_keys hfit) hkeys
    rw [unpack_keys] at hvals hvsizes
    rw [hmap] at hvals
    rw [List.zipWith_map_left] at hvsizes
    rw [if_pos hOK] at hout
    have hfilled : r.out = ⟨fill ((ids.map (s.view name).docs).zip slots) 0 documents,
        documents.length,
        List.zipWith (fun id slot => slotSize slot ((s.view name).docs id)) ids slots⟩ := by
      rw [hout]
      exact congrArg₂ (fun vals vsizes => GetOutput.mk vals documents.length vsizes) hvals hvsizes
    rw [hfilled]
    refine ⟨?_, ?_, fun _ => ⟨hdocuments, fun size hsize => ?_, ?_⟩⟩
    · exact (length_fill (by rw [hsnd]; omega)).trans hdocuments
    · rw [List.length_zipWith, hcount, Nat.min_self]
    · obtain ⟨i, hi, rfl⟩ := List.mem_iff_getElem.1 hsize
      rw [List.length_zipWith] at hi
      have hslot := List.single_le_sum (l := slots) (by simp) _
        (List.getElem_mem (show i < slots.length by omega))
      rw [List.getElem_zipWith]
      exact slotSize_lt (by omega) _
    · have hread := readDocSlots_fill (s.view name).docs 0 documents hcount.symm (by omega)
        (lt_lastValidSize hlt)
      rwa [List.drop_zero] at hread
  · rw [if_neg hOK] at hout
    rw [hout]
    exact ⟨hdocuments, hcount, fun h => absurd h hOK⟩

namespace DocRequest

theorem run_create (route : Route) (hs : Coherent s) :
    RefinesDocs ((create mode).run route mem name s) ((create mode).answer s.view name) := by
  refine refinesDocs_of_checked route mode rfl hs (fun hmode => ?_) fun hmode => ?_
  all_goals simp only [run, ykCollectionCreate, ykCollCreateUlt]
  · rw [collectionCall_refused _ _ hmode]
    rfl
  · rw [collectionCall_served _ _ hmode, told_kept]
    exact refinesDocs_plain hs .create route rfl (step_isSome hs trivial) rfl

theorem run_drop (route : Route) (hs : Coherent s)
    (hfits : (drop mode).Fits name (s.view name) mem) (hwait : mode.has .wait = false) :
    RefinesDocs ((drop mode).run route mem name s) ((drop mode).answer s.view name) := by
  refine refinesDocs_of_checked route mode rfl hs (fun hmode => ?_) fun hmode => ?_
  all_goals simp only [run, ykCollectionDrop, ykCollDropUlt]
  · rw [collectionCall_refused _ _ hmode]
    rfl
  · rw [collectionCall_served _ _ hmode, told_kept]
    exact refinesDocs_plain hs (.drop mode) route hwait (step_isSome hs hfits) rfl

theorem run_existence (route : Route) (hs : Coherent s) :
    RefinesDocs ((existence mode).run route mem name s)
      ((existence mode).answer s.view name) := by
  refine refinesDocs_of_checked route mode rfl hs (fun hmode => ?_) fun hmode => ?_
  all_goals simp only [run, ykCollectionExists, ykCollExistsUlt]
  · rw [collectionCall_refused _ _ hmode]
    rfl
  · have hcall : DocumentInterface.collExists s (route.mode mode) name =
        some ((s.collExistsImpl name).1, (s.collExistsImpl name).2, s) := rfl
    rw [collectionCall_served _ _ hmode, told_kept, hcall]
    unfold effect
    split_ifs with hname
    · rw [show s.collExistsImpl name = (.InvalidArg, false) by simp [collExistsImpl, hname]]
      exact ⟨s, rfl, hs, rfl⟩
    · rw [collExistsImpl_spec hs hname]
      exact ⟨s, rfl, hs, rfl⟩

theorem run_lastId (route : Route) (hs : Coherent s) :
    RefinesDocs ((lastId mode).run route mem name s) ((lastId mode).answer s.view name) := by
  refine refinesDocs_of_checked route mode rfl hs (fun hmode => ?_) fun hmode => ?_
  all_goals simp only [run, ykCollectionLastId, ykCollLastIdUlt]
  · rw [collectionCall_refused _ _ hmode]
    rfl
  · rw [collectionCall_served _ _ hmode, told_kept]
    exact refinesDocs_asked hs .id fun metadata => metadata.nextId - 1

theorem run_size (route : Route) (hs : Coherent s) :
    RefinesDocs ((size mode).run route mem name s) ((size mode).answer s.view name) := by
  refine refinesDocs_of_checked route mode rfl hs (fun hmode => ?_) fun hmode => ?_
  all_goals simp only [run, ykCollectionSize, ykCollSizeUlt]
  · rw [collectionCall_refused _ _ hmode]
    rfl
  · rw [collectionCall_served _ _ hmode, told_kept]
    exact refinesDocs_asked hs .size fun metadata => metadata.size

/-- For the documents of a request, the client's loop ends. -/
theorem counted_docs {route : Route} (h : DocsRequest batch.documents batch.sizes mem.pooled)
    (hroute : route.layout = .multi) :
    Counted (route.mode mode) batch.docs ↔ Exposes route mode batch.sizes.length := by
  have hlength : batch.docs.length = batch.sizes.length := by
    rw [← DocBatch.map_length_docs h, List.length_map]
  unfold Counted Exposes
  rw [hlength]
  exact ⟨fun hcounted _ => hcounted, fun hexposes => hexposes hroute⟩

/-- A store goes to the database unless it is refused for incompatible flags. -/
theorem run_store_eq (h : DocsRequest batch.documents batch.sizes mem.pooled) (route : Route)
    (hexposes : Exposes route mode batch.sizes.length) (s : DocumentStoreMixin σ) :
    (store mode batch).run route mem name s =
      told .ids (if !(route.mode mode).has .noRdma && !checkModeValid (route.mode mode) then
          some (.ERR_MODE, mem.ids, s)
        else (ykDocStoreDirectUlt (route.mode mode) name batch.sizes batch.documents s).map
          (decodeInto mem.ids)) := by
  simp only [run]
  cases hroute : route.layout with
  | multi =>
    dsimp only
    rw [(DocBatch.docsRequest_docs h).ykDocStoreMulti_eq, if_pos ((counted_docs h hroute).2 hexposes),
      DocBatch.map_length_docs h, DocBatch.flatten_docs h, h.ykDocStorePacked_eq]
  | packed =>
    dsimp only
    rw [h.ykDocStorePacked_eq]

/-- The client never gets to the end of the documents. -/
theorem run_store_eq_none (h : DocsRequest batch.documents batch.sizes mem.pooled) (route : Route)
    (hexposes : ¬ Exposes route mode batch.sizes.length) (s : DocumentStoreMixin σ) :
    (store mode batch).run route mem name s = none := by
  have hroute : route.layout = .multi := (Classical.not_imp.1 hexposes).1
  simp only [run, hroute]
  rw [(DocBatch.docsRequest_docs h).ykDocStoreMulti_eq,
    if_neg ((counted_docs h hroute).not.2 hexposes)]
  rfl

/-- A store whose flags are compatible, or not looked at, in a mode that is not supported. -/
theorem run_store_refused (h : DocsRequest batch.documents batch.sizes mem.pooled) (route : Route)
    (hexposes : Exposes route mode batch.sizes.length)
    (hpass : (!(route.mode mode).has .noRdma && !checkModeValid (route.mode mode)) = false)
    (hmode : DocumentInterface.supportsMode (DocumentStoreMixin σ) (route.mode mode) = false) :
    (store mode batch).run route mem name s = some (.failed .ERR_MODE, s) := by
  rw [run_store_eq h route hexposes, hpass, if_neg Bool.false_ne_true, ykDocStoreDirectUlt,
    answerCall_refused _ hmode]
  exact told_refused .ids mem.ids s

/-- A store whose flags are compatible, or not looked at, in a mode that is supported. -/
theorem run_store_served (route : Route) (hs : Coherent s)
    (hfits : (store mode batch).Fits name (s.view name) mem)
    (hexposes : Exposes route mode batch.sizes.length)
    (hpass : (!(route.mode mode).has .noRdma && !checkModeValid (route.mode mode)) = false)
    (hmode : DocumentInterface.supportsMode (DocumentStoreMixin σ) (route.mode mode) = true) :
    RefinesDocs ((store mode batch).run route mem name s)
      ((store mode batch).effect s.view name) := by
  obtain ⟨hrequest, hids, hfit⟩ := hfits
  have hzeros : KeysFit name (List.replicate batch.sizes.length 0) := by
    unfold KeysFit at hfit ⊢
    rwa [List.length_replicate, ← hids]
  obtain ⟨status, assigned, t, hr, ht, hview, hassigned⟩ :=
    @docStore_answers σ _ s name mode (List.replicate batch.sizes.length 0) batch hs route hzeros
  have hcall : DocumentInterface.docStore s name (route.mode mode) batch.documents batch.sizes
      (List.replicate batch.sizes.length 0) = some (status, assigned, t) := hr
  rw [run_store_eq hrequest route hexposes, hpass, if_neg Bool.false_ne_true, ykDocStoreDirectUlt,
    answerCall_served _ hmode, hcall, told_decodeInto]
  · exact refinesDocs_told ht hview fun hOK => congrArg DocResponse.ids (hassigned hOK)
  · rintro r hr hOK
    obtain rfl := Option.some.inj hr
    rw [hassigned hOK, length_store_ids, List.length_replicate, hids]

theorem run_store (route : Route) (hs : Coherent s)
    (hfits : (store mode batch).Fits name (s.view name) mem)
    (hends : (store mode batch).Ends route) (hchecked : (store mode batch).Checked route) :
    RefinesDocs ((store mode batch).run route mem name s)
      ((store mode batch).answer s.view name) := by
  have hrequest := hfits.1
  have hvalid : checkModeValid (route.mode mode) = checkModeValid mode := by
    unfold Route.mode
    split_ifs
    · rfl
    · exact checkModeValid_noRdma mode
  refine refinesDocs_of_checked route mode rfl hs (fun hmode => ?_) fun hmode => ?_
  · cases hflags : checkModeValid (route.mode mode) with
    | false =>
      -- not inside the RPC, where nobody would have looked
      have hrdma : (route.mode mode).has .noRdma = false := by
        by_contra hno
        have hok := hchecked (by simpa using hno)
        rw [hvalid, hok] at hflags
        cases hflags
      rw [run_store_eq hrequest route hends, hflags, hrdma]
      rfl
    | true =>
      rw [hflags, Bool.true_and] at hmode
      exact run_store_refused hrequest route hends (by rw [hflags, Bool.not_true, Bool.and_false])
        hmode
  · obtain ⟨hflags, hsupported⟩ := Bool.and_eq_true_iff.1 hmode
    exact run_store_served route hs hfits hends (by rw [hflags, Bool.not_true, Bool.and_false])
      hsupported

/-- An update goes to the database unless it is refused for incompatible flags, or the client never
gets to the end of the documents. -/
theorem run_update_eq (h : DocsRequest batch.documents batch.sizes mem.pooled)
    (hids : ids.length = batch.sizes.length) (route : Route) (s : DocumentStoreMixin σ) :
    (Exposes route mode batch.sizes.length →
      (update mode ids batch).run route mem name s = told (fun _ => .done)
        (if !checkModeValid (route.mode mode) then some (.ERR_MODE, (), s)
          else DocRequests.ykDocUpdateDirectUlt (route.mode mode) name ids batch.sizes
            batch.documents s)) ∧
      (¬ Exposes route mode batch.sizes.length →
        (update mode ids batch).run route mem name s = none) := by
  simp only [run]
  cases hroute : route.layout with
  | multi =>
    rw [← counted_docs h hroute, (DocBatch.docsRequest_docs h).ykDocUpdateMulti_eq,
      DocBatch.map_length_docs h, DocBatch.flatten_docs h, h.ykDocUpdatePacked_eq _ _ hids]
    refine ⟨fun hcounted => ?_, fun huncounted => ?_⟩
    · rw [if_pos hcounted]
    · rw [if_neg huncounted]
      rfl
  | packed =>
    rw [h.ykDocUpdatePacked_eq _ _ hids]
    refine ⟨fun _ => rfl, fun hexposes => absurd (fun hmulti => ?_) hexposes⟩
    rw [hroute] at hmulti
    cases hmulti

/-- An update that is answered. -/
theorem run_update_of_isSome (route : Route) (hs : Coherent s)
    (hfits : (update mode ids batch).Fits name (s.view name) mem)
    (hwait : (update mode ids batch).waits = false)
    (hsome : ((update mode ids batch).run route mem name s).isSome) :
    RefinesDocs ((update mode ids batch).run route mem name s)
      ((update mode ids batch).answer s.view name) := by
  obtain ⟨hrequest, hids, -⟩ := hfits
  obtain ⟨hrun, hnone⟩ := @run_update_eq σ _ mem name mode ids batch hrequest hids route s
  by_cases hexposes : Exposes route mode batch.sizes.length
  · rw [hrun hexposes, DocRequests.ykDocUpdateDirectUlt] at hsome
    refine refinesDocs_of_checked route mode rfl hs (fun hmode => ?_) fun hmode => ?_
    all_goals rw [hrun hexposes, DocRequests.ykDocUpdateDirectUlt]
    · rw [checkedCall_refused _ hmode]
      rfl
    · rw [checkedCall_served _ hmode, told_map] at hsome ⊢
      simp only [plain, Option.isSome_map] at hsome
      exact refinesDocs_plain hs (.update mode ids batch) route hwait hsome rfl
  · rw [hnone hexposes] at hsome
    cases hsome

theorem run_update (route : Route) (hs : Coherent s)
    (hfits : (update mode ids batch).Fits name (s.view name) mem)
    (hwait : (update mode ids batch).waits = false)
    (hends : (update mode ids batch).Ends route) :
    RefinesDocs ((update mode ids batch).run route mem name s)
      ((update mode ids batch).answer s.view name) := by
  refine run_update_of_isSome route hs hfits hwait ?_
  obtain ⟨hrequest, hids, hfit⟩ := hfits
  have hexposes : Exposes route mode batch.sizes.length := fun _ => Or.inr (hids ▸ hends)
  have hupdate : (s.docUpdate name (route.mode mode) ids batch.documents batch.sizes).isSome :=
    docUpdate_isSome (route.mode mode) batch.documents batch.sizes hfit hends
  rw [(run_update_eq hrequest hids route s).1 hexposes]
  unfold told DocRequests.ykDocUpdateDirectUlt answerCall plain
  rw [Option.isSome_map]
  split_ifs
  · rfl
  · rfl
  · rw [Option.isSome_map, Option.isSome_map]
    exact hupdate

theorem run_erase (route : Route) (hs : Coherent s)
    (hfits : (erase mode ids).Fits name (s.view name) mem) (hwait : mode.has .wait = false) :
    RefinesDocs ((erase mode ids).run route mem name s) ((erase mode ids).answer s.view name) := by
  obtain ⟨hne, hfit⟩ := hfits
  refine refinesDocs_of_checked route mode rfl hs (fun hmode => ?_) fun hmode => ?_
  all_goals
    simp only [run]
    rw [ykDocEraseMulti, if_neg (by simpa using hne), ykDocEraseUlt]
  · rw [checkedCall_refused _ hmode]
    rfl
  · rw [checkedCall_served _ hmode, told_map]
    exact refinesDocs_plain hs (.erase mode ids) route hwait (step_isSome hs hfit) rfl

theorem run_length (route : Route) (hs : Coherent s)
    (hfits : (length mode ids).Fits name (s.view name) mem) (hwait : mode.has .wait = false) :
    RefinesDocs ((length mode ids).run route mem name s)
      ((length mode ids).answer s.view name) := by
  obtain ⟨hne, hsizes, hfit⟩ := hfits
  refine refinesDocs_of_checked route mode rfl hs (fun hmode => ?_) fun hmode => ?_
  all_goals
    simp only [run]
    rw [ykDocLengthMulti, if_neg (by simpa using hne), ykDocLengthUlt]
  · cases hflags : checkModeValid (route.mode mode) with
    | false => rfl
    | true =>
      rw [hflags, Bool.true_and] at hmode
      rw [answerCall_refused _ hmode]
      exact told_refused .sizes mem.sizes s
  · obtain ⟨hflags, hsupported⟩ := Bool.and_eq_true_iff.1 hmode
    have hwait' : (route.mode mode).has .wait = false := by
      rwa [route.has_mode mode .wait (by decide)]
    have hcall : DocumentInterface.docSize s name (route.mode mode) ids
        (List.replicate ids.length 0) =
          (s.docSize name (route.mode mode) ids (List.replicate ids.length 0)).map
            fun r => (r.1, r.2, s) := rfl
    rw [hflags, Bool.not_true, if_neg Bool.false_ne_true, answerCall_served _ hsupported, hcall]
    unfold effect
    split_ifs with hname
    · have hrefused : s.docSize name (route.mode mode) ids (List.replicate ids.length 0) =
          some (.InvalidArg, List.replicate ids.length 0) := by rw [docSize, if_pos hname]
      rw [hrefused, told_decodeInto]
      · exact ⟨s, rfl, hs, rfl⟩
      · rintro r hr hOK
        obtain rfl := Option.some.inj hr
        cases hOK
    · rw [docSize_eq hs hname hwait' hfit List.length_replicate.symm, told_decodeInto]
      · exact ⟨s, rfl, hs, rfl⟩
      · rintro r hr -
        obtain rfl := Option.some.inj hr
        rw [List.length_map, hsizes]

theorem run_load (route : Route) {room : ℕ} (hs : Coherent s)
    (hfits : (load mode ids room).Fits name (s.view name) mem) (hwait : mode.has .wait = false) :
    RefinesDocs ((load mode ids room).run route mem name s)
      ((load mode ids room).answer s.view name) := by
  obtain ⟨hrequest, rfl, hfit⟩ := hfits
  have hle := hrequest.pooled_le
  have hlt := hrequest.pooled_lt
  have hroom : mem.documents.length < 2 ^ 63 := by omega
  refine refinesDocs_of_checked route mode rfl hs (fun hmode => ?_) fun hmode => ?_
  all_goals simp only [run]
  · obtain ⟨arrays, harrays⟩ : ∃ arrays, ykDocLoadPacked (route.mode mode) name ids
        ⟨mem.documents, mem.sizes⟩ mem.pooled s = some (.ERR_MODE, arrays, s) :=
      LoadRequest.ykDocLoadPacked_refused hrequest.ne_nil _ hmode
    rw [harrays]
    rfl
  · cases hrdma : (route.mode mode).has .noRdma with
    | true =>
      -- inside the RPC the database loads into buffers of zeros
      have hzeros : (List.replicate mem.documents.length (0 : UInt8)).length =
          mem.documents.length := List.length_replicate
      obtain ⟨r, hr, ht, hview, hvals, hvsizes, hsize, hfound⟩ :=
        docLoad_packed hs route hwait hfit hroom hzeros List.length_replicate
      have hloads : LoadRequest.Loads (ykDocLoadDirect (route.mode mode) name ids
          ⟨mem.documents, mem.sizes⟩ s) r _ :=
        LoadRequest.ykDocLoadDirect_loads hrequest.ne_nil hrequest.sizes_eq hmode hr hvals hvsizes
          hsize
      rw [ykDocLoadPacked, if_pos hrdma, told_loads hloads]
      exact refinesDocs_told ht hview fun hOK => congrArg DocResponse.documents
        ((hfound hOK).2 _)
    | false =>
      -- through RDMA, into what the last user of the buffer has left there
      have hslice : (slice mem.pooled (8 * ids.length) mem.documents.length).length =
          mem.documents.length := length_slice_of_le hle
      obtain ⟨r, hr, ht, hview, hvals, hvsizes, -, hfound⟩ :=
        docLoad_packed hs route hwait hfit hroom hslice (length_sizesOfMemory _ mem.pooled)
      have hloads : LoadRequest.Loads (ykDocLoadPacked (route.mode mode) name ids
          ⟨mem.documents, mem.sizes⟩ mem.pooled s) r _ :=
        LoadRequest.ykDocLoadPacked_loads hrequest hrdma hmode hr hvals hvsizes fun hOK =>
          (hfound hOK).1
      rw [told_loads hloads]
      refine refinesDocs_told ht hview fun hOK => congrArg DocResponse.documents ?_
      have hread := (hfound hOK).2
      unfold LoadRequest.loadedInto
      split_ifs with hnone
      · rw [← hread (r.out.vals.drop r.out.valsSize), List.take_append_drop]
      · rw [← hread mem.documents, not_not.1 hnone, List.take_zero, List.nil_append]

theorem run_loadSlots (route : Route) {slots : List ℕ} (hs : Coherent s)
    (hfits : (loadSlots mode ids slots).Fits name (s.view name) mem)
    (hwait : mode.has .wait = false) (hends : (loadSlots mode ids slots).Ends route) :
    RefinesDocs ((loadSlots mode ids slots).run route mem name s)
      ((loadSlots mode ids slots).answer s.view name) := by
  obtain ⟨hrequest, rfl, hfit⟩ := hfits
  have hle := hrequest.pooled_le
  have hlt := hrequest.pooled_lt
  have hcount : mem.slots.length < 2 ^ 32 := by
    rw [← List.length_map List.length]
    exact hends
  have hsum : mem.slots.flatten.length = (mem.slots.map List.length).sum := List.length_flatten
  refine refinesDocs_of_checked route mode rfl hs (fun hmode => ?_) fun hmode => ?_
  all_goals simp only [run]
  · obtain ⟨arrays, harrays⟩ : ∃ arrays, ykDocLoadMulti (route.mode mode) name ids mem.slots
        mem.pooled s = some (.ERR_MODE, arrays, s) :=
      LoadRequest.ykDocLoadMulti_refused hrequest.ne_nil hcount hmode
    rw [harrays]
    rfl
  · have hslice : (slice mem.pooled (8 * ids.length) mem.slots.flatten.length).length =
        mem.slots.flatten.length := length_slice_of_le hle
    obtain ⟨r, hr, ht, hview, hvals, hvsizes, hfound⟩ := docLoad_slots hs route hwait hfit
      (hslice.trans hsum) (by omega) hrequest.sizes_eq
    have hloads := hrequest.ykDocLoadMulti_loads hcount hmode hr (hvals.trans hsum.symm) hvsizes
      fun hOK => (hfound hOK).2.1
    rw [told_loads hloads]
    refine refinesDocs_told ht hview fun hOK => congrArg DocResponse.documents ?_
    obtain ⟨hsize, -, hread⟩ := hfound hOK
    rw [← hread]
    unfold LoadRequest.loadedInto
    split_ifs with hnone
    · rfl
    · -- slots without any room are all empty
      have hnothing : (mem.slots.map List.length).sum = 0 := hsize.symm.trans (not_not.1 hnone)
      rw [List.length_eq_zero_iff.1 (hsum.trans hnothing),
        List.length_eq_zero_iff.1 (hvals.trans hnothing)]

/-- A request whose loops do not end is not answered, or the database has found a reason not to go
through all of them. -/
theorem run_of_not_ends {q : DocRequest} (route : Route) (hs : Coherent s)
    (hfits : q.Fits name (s.view name) mem) (hwait : q.waits = false) (hends : ¬ q.Ends route)
    (hsome : (q.run route mem name s).isSome) :
    RefinesDocs (q.run route mem name s) (q.answer s.view name) := by
  cases q with
  | store mode batch =>
    rw [run_store_eq_none hfits.1 route hends] at hsome
    cases hsome
  | update mode ids batch => exact run_update_of_isSome route hs hfits hwait hsome
  | loadSlots mode ids slots =>
    obtain ⟨hrequest, rfl, -⟩ := hfits
    have hcount : 2 ^ 32 ≤ mem.slots.length := by
      rw [← List.length_map List.length]
      exact Nat.not_lt.1 hends
    rw [run, LoadRequest.ykDocLoadMulti_eq_none hrequest.ne_nil hcount] at hsome
    cases hsome
  | _ => exact absurd trivial hends

end DocRequest

/-- A request that does not wait, made with any memory that fits it, whose loops end. -/
theorem run_refinesDocs {q : DocRequest} (route : Route) (hs : Coherent s)
    (hfits : q.Fits name (s.view name) mem) (hwait : q.waits = false) (hends : q.Ends route)
    (hchecked : q.Checked route) :
    RefinesDocs (q.run route mem name s) (q.answer s.view name) := by
  cases q with
  | create mode => exact DocRequest.run_create route hs
  | drop mode => exact DocRequest.run_drop route hs hfits hwait
  | existence mode => exact DocRequest.run_existence route hs
  | lastId mode => exact DocRequest.run_lastId route hs
  | size mode => exact DocRequest.run_size route hs
  | store mode batch => exact DocRequest.run_store route hs hfits hends hchecked
  | update mode ids batch => exact DocRequest.run_update route hs hfits hwait hends
  | erase mode ids => exact DocRequest.run_erase route hs hfits hwait
  | length mode ids => exact DocRequest.run_length route hs hfits hwait
  | load mode ids room => exact DocRequest.run_load route hs hfits hwait
  | loadSlots mode ids slots => exact DocRequest.run_loadSlots route hs hfits hwait hends

theorem write_ne_invalidMode (mode : Mode) (ids : List UInt64) (batch : DocBatch)
    (docs : UInt64 → Option Bytes) : (Collection.write mode ids batch docs).1 ≠ .InvalidMode := by
  have hput : ∀ ps, putStatus mode docs ps ≠ .InvalidMode := by
    intro ps
    unfold putStatus
    split
    · split_ifs <;> simp
    · simp
  unfold Collection.write
  split_ifs
  · exact hput _
  · simp

/-- No store is refused for its mode once it has come to a collection. -/
theorem effect_store_ne (v : Family) (name : CString) (mode : Mode) (batch : DocBatch) :
    ((DocRequest.store mode batch).effect v name).1 ≠ .failed .ERR_MODE := by
  have hstatus : ∀ ids, (v.step (name, .store mode batch ids)).1 ≠ .InvalidMode := by
    intro ids
    unfold Family.step
    split_ifs
    · simp
    · dsimp only [Collection.step, Collection.store]
      cases (v name).metadata with
      | none => simp
      | some metadata => exact write_ne_invalidMode _ _ _ _
  have hcode : ∀ status : Status, status.code = .ERR_MODE → status = .InvalidMode := by
    intro status
    cases status <;> simp [Status.code]
  unfold DocRequest.effect outcome DocResponse.of
  dsimp only
  split_ifs
  · simp
  · exact fun h => hstatus _ (hcode _ (DocResponse.failed.inj h))

/-- Memory that holds something else everywhere. -/
def usedMemory : DocMemory :=
  ⟨true, 9, [9], [9, 9], [9, 9, 9, 9], [[9]], List.replicate 40 9⟩

theorem usedMemory_fits_store (mode : Mode) (c : Collection) :
    (DocRequest.store mode (oneDoc 7)).Fits nameC c usedMemory := by
  refine ⟨?_, rfl, ?_⟩
  · constructor <;> decide
  · show _ < _
    decide

theorem usedMemory_fits_load (mode : Mode) (c : Collection) :
    (DocRequest.load mode [0, 1] 4).Fits nameC c usedMemory := by
  refine ⟨?_, rfl, ?_⟩
  · constructor <;> decide
  · show _ < _
    decide

/-- Through RDMA and inside the RPC, a store is answered the same and leaves the same collections if
its flags are compatible, or if the database refuses them, and only then: `yk_doc_store_direct` does
not check the mode, unlike the calls next to it. -/
theorem doc_store_agrees_iff {mem mem' : DocMemory} (hs : Coherent s)
    (hrdma : mode.has .noRdma = false)
    (hfits : (DocRequest.store mode batch).Fits name (s.view name) mem)
    (hfits' : (DocRequest.store mode batch).Fits name (s.view name) mem')
    (hcount : batch.sizes.length < 2 ^ 32) (layout layout' : Layout) :
    (∃ r t t', (DocRequest.store mode batch).run ⟨layout, true⟩ mem name s = some (r, t) ∧
        (DocRequest.store mode batch).run ⟨layout', false⟩ mem' name s = some (r, t') ∧
        t.view = t'.view) ↔
      (checkModeValid mode = true ∨ inMemorySupportsMode mode = false) := by
  have hinside : (!((Route.mk layout' false).mode mode).has .noRdma &&
      !checkModeValid ((Route.mk layout' false).mode mode)) = false := by
    rw [show (Route.mk layout' false).mode mode = mode ||| .noRdma from rfl,
      Mode.has_or_self (by decide)]
    rfl
  have hchecked : (DocRequest.store mode batch).Checked ⟨layout, true⟩ := fun h => by
    rw [show (Route.mk layout true).mode mode = mode from rfl, hrdma] at h
    cases h
  have hexposes (route : Route) : DocRequest.Exposes route mode batch.sizes.length :=
    fun _ => Or.inr hcount
  obtain ⟨t, hrun, -, hview⟩ := DocRequest.run_store ⟨layout, true⟩ hs hfits (hexposes _) hchecked
  have hsame : DocumentInterface.supportsMode (DocumentStoreMixin σ)
      ((Route.mk layout' false).mode mode) = inMemorySupportsMode mode :=
    inMemorySupportsMode_noRdma mode
  rw [hrun]
  unfold DocRequest.answer at hview ⊢
  rw [show (DocRequest.store mode batch).mode = mode from rfl] at hview ⊢
  cases hsupported : inMemorySupportsMode mode with
  | false =>
    -- both are refused
    rw [DocRequest.run_store_refused hfits'.1 _ (hexposes _) hinside (hsame.trans hsupported)]
    rw [hsupported, Bool.and_false, if_neg Bool.false_ne_true] at hview
    rw [Bool.and_false, if_neg Bool.false_ne_true]
    exact iff_of_true ⟨_, t, s, rfl, rfl, hview⟩ (Or.inr rfl)
  | true =>
    obtain ⟨t', hrun', -, hview'⟩ :=
      DocRequest.run_store_served _ hs hfits' (hexposes _) hinside (hsame.trans hsupported)
    rw [hrun']
    rw [hsupported, Bool.and_true] at hview
    rw [Bool.and_true]
    cases hflags : checkModeValid mode with
    | true =>
      rw [hflags, if_pos rfl] at hview
      exact iff_of_true ⟨_, t, t', rfl, rfl, hview.trans hview'.symm⟩ (Or.inl rfl)
    | false =>
      -- inside the RPC the collection has been written to
      rw [if_neg Bool.false_ne_true]
      refine iff_of_false ?_ (by simp)
      rintro ⟨r, u, u', hu, hu', -⟩
      obtain ⟨rfl, -⟩ := Prod.mk.inj (Option.some.inj hu)
      exact effect_store_ne _ _ _ _ (Prod.mk.inj (Option.some.inj hu')).1

/-- Appending and creating only are not compatible, and an empty map supports both. Appending alone is
compatible. -/
theorem doc_store_agrees_iff_append :
    (∃ r t t', (DocRequest.store .append (oneDoc 7)).run ⟨.packed, true⟩ usedMemory nameC
          emptyMap = some (r, t) ∧
        (DocRequest.store .append (oneDoc 7)).run ⟨.multi, false⟩ usedMemory nameC emptyMap =
          some (r, t') ∧
        t.view = t'.view) ∧
      ¬ ∃ r t t', (DocRequest.store (.append ||| .newOnly) (oneDoc 7)).run ⟨.packed, true⟩
            usedMemory nameC emptyMap = some (r, t) ∧
          (DocRequest.store (.append ||| .newOnly) (oneDoc 7)).run ⟨.multi, false⟩ usedMemory nameC
            emptyMap = some (r, t') ∧
          t.view = t'.view := by
  have hboth (mode : Mode) (hrdma : mode.has .noRdma = false) :=
    doc_store_agrees_iff fresh_emptyMap.coherent hrdma (usedMemory_fits_store mode _)
      (usedMemory_fits_store mode _) (by decide) .packed .multi
  refine ⟨(hboth .append (by decide)).2 (by decide), fun h => ?_⟩
  have hiff := (hboth (.append ||| .newOnly) (by decide)).1 h
  revert hiff
  decide

end Step

/-! ### Sessions -/

section DocSession

variable {σ τ : Type} [InMemory σ] [InMemory τ]

open Transition DocumentStoreMixin

/-- A request of a session, the way that it takes, and what the client is told. -/
structure DocExchange where
  name : CString
  request : DocRequest
  route : Route
  response : DocResponse

/-- A step of a session: a request that does not wait goes its way, with any memory that fits it. -/
def DocStep (s : DocumentStoreMixin σ) (e : DocExchange) (t : DocumentStoreMixin σ) : Prop :=
  ∃ mem : DocMemory, e.request.Fits e.name (s.view e.name) mem ∧ e.request.waits = false ∧
    e.request.Checked e.route ∧ e.request.run e.route mem e.name s = some (e.response, t)

/-- The answers of a family of collections to some requests, and the family after them. -/
def docAnswers (v : Family) : List (CString × DocRequest) → List DocResponse × Family
  | [] => ([], v)
  | q :: qs =>
    let r := q.2.answer v q.1
    let rest := docAnswers r.2 qs
    (r.1 :: rest.1, rest.2)

theorem docAnswers_concat (v : Family) (qs : List (CString × DocRequest))
    (q : CString × DocRequest) :
    docAnswers v (qs ++ [q]) =
      let r := docAnswers v qs
      (r.1 ++ [(q.2.answer r.2 q.1).1], (q.2.answer r.2 q.1).2) := by
  induction qs generalizing v with
  | nil => rfl
  | cons q' qs ih => simp only [List.cons_append, docAnswers, ih]

/-- The requests of a session. -/
def requests (es : List DocExchange) : List (CString × DocRequest) :=
  es.map fun e => (e.name, e.request)

/-- The clients of a database with documents see a family of collections: in every session, whatever
ways the requests take and whatever the buffers of the server and the memory of the clients hold, the
answers are those of the collections at its beginning, and the collections at its end are those that
the requests leave. -/
theorem doc_sessions_refine {s t : DocumentStoreMixin σ} {es : List DocExchange} (hs : Coherent s)
    (hrun : Run DocStep s es t) :
    Coherent t ∧ (es.map DocExchange.response, t.view) = docAnswers s.view (requests es) := by
  induction hrun with
  | nil => exact ⟨hs, rfl⟩
  | @snoc t u es e _ hstep ih =>
    obtain ⟨ht, hanswers⟩ := ih
    obtain ⟨mem, hfits, hwait, hchecked, hrun⟩ := hstep
    have hrefines : RefinesDocs (e.request.run e.route mem e.name t)
        (e.request.answer t.view e.name) := by
      by_cases hends : e.request.Ends e.route
      · exact run_refinesDocs e.route ht hfits hwait hends hchecked
      · exact DocRequest.run_of_not_ends e.route ht hfits hwait hends (by rw [hrun]; rfl)
    obtain ⟨u', hrun', hu, hview⟩ := hrefines
    obtain ⟨hresponse, rfl⟩ := Prod.mk.inj (Option.some.inj (hrun.symm.trans hrun'))
    refine ⟨hu, ?_⟩
    rw [requests, List.map_append, List.map_append, List.map_singleton, List.map_singleton,
      docAnswers_concat, ← requests, ← hanswers]
    exact Prod.ext (congrArg (es.map DocExchange.response ++ [·]) hresponse) hview

/-- So a client cannot tell two databases with the same collections apart, be they of different
kinds. -/
theorem doc_sessions_agree {s t : DocumentStoreMixin σ} {s' t' : DocumentStoreMixin τ}
    {es es' : List DocExchange} (hs : Coherent s) (hs' : Coherent s') (hview : s.view = s'.view)
    (hrequests : requests es = requests es') (hrun : Run DocStep s es t)
    (hrun' : Run DocStep s' es' t') :
    es.map DocExchange.response = es'.map DocExchange.response ∧ t.view = t'.view := by
  have hboth := (doc_sessions_refine hs hrun).2
  rw [hview, hrequests, ← (doc_sessions_refine hs' hrun').2] at hboth
  exact Prod.mk.inj hboth

/-- Every request that fits its memory and whose loops end is a step. -/
theorem exists_docStep {name : CString} {q : DocRequest} {mem : DocMemory}
    {s : DocumentStoreMixin σ} (route : Route) (hs : Coherent s)
    (hfits : q.Fits name (s.view name) mem) (hwait : q.waits = false) (hends : q.Ends route)
    (hchecked : q.Checked route) :
    ∃ t, DocStep s ⟨name, q, route, (q.answer s.view name).1⟩ t ∧ Coherent t ∧
      t.view = (q.answer s.view name).2 := by
  obtain ⟨t, hrun, ht, hview⟩ := run_refinesDocs route hs hfits hwait hends hchecked
  exact ⟨t, ⟨mem, hfits, hwait, hchecked, hrun⟩, ht, hview⟩

/-- A collection is created in an empty database, a document is stored in it, and asked for with one
that is missing. -/
theorem exists_docSession {s : DocumentStoreMixin σ} (hs : Fresh s) (route route' : Route) :
    ∃ t, Run DocStep s
      [⟨nameC, .create .default, route, .done⟩,
        ⟨nameC, .store .default (oneDoc 7), route, .ids [0]⟩,
        ⟨nameC, .load .default [0, 1] 4, route', .documents [.value [7], .missing]⟩] t := by
  have hchecked (route : Route) : (DocRequest.store .default (oneDoc 7)).Checked route :=
    fun _ => by decide
  obtain ⟨t, hcreate, ht, htview⟩ := @exists_docStep σ _ nameC (.create .default) usedMemory
    s route hs.coherent trivial rfl trivial trivial
  obtain ⟨u, hstored, hu, huview⟩ := exists_docStep route ht (usedMemory_fits_store _ _) rfl
    (fun _ => Or.inr (by decide)) (hchecked route)
  obtain ⟨w, hloaded, -⟩ := exists_docStep route' hu (usedMemory_fits_load .default _)
    rfl trivial trivial
  rw [huview, htview, hs.view_eq] at hloaded
  rw [htview, hs.view_eq] at hstored
  rw [hs.view_eq] at hcreate
  exact ⟨w, (((Run.nil s).snoc hcreate).snoc hstored).snoc hloaded⟩

/-- A session with a map. -/
theorem doc_sessions_refine_map :
    ∃ t : DocumentStoreMixin (MapDatabase .default), Coherent t ∧
      ([.done, .ids [0], .documents [.value [7], .missing]], t.view) =
        docAnswers emptyMap.view
          [(nameC, .create .default), (nameC, .store .default (oneDoc 7)),
            (nameC, .load .default [0, 1] 4)] := by
  obtain ⟨t, hrun⟩ := exists_docSession fresh_emptyMap ⟨.multi, true⟩ ⟨.packed, false⟩
  exact ⟨t, doc_sessions_refine fresh_emptyMap.coherent hrun⟩

end DocSession

end Yokan
