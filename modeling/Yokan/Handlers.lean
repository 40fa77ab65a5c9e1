import Yokan.DocWrites

/-!
# Yokan: handlers of the server that work on a pooled buffer

The handlers of `put`, `get`, `list_keyvals`, `doc_load` and `doc_list` (`src/server/put.cpp`,
`get.cpp`, `list_keyvals.cpp`, `doc_load.cpp`, `doc_list.cpp`). The client exposes its memory behind a bulk handle, and sees it as one region. A handler takes a buffer from
the pool of the provider, pulls a part of that region to the front of it, calls the database on
slices of the buffer, and pushes a part of the buffer back. The buffer holds what its last user
left in it; it is at least as large as asked for.

The sums of sizes that a handler computes before it knows the sizes of the client are exact here:
the buffer would not exist otherwise.
-/

namespace Yokan

open Buffer

/-- `margo_bulk_transfer`: `size` bytes of `src` are copied to `dst`. It fails beyond the end of
either. -/
def bulkTransfer (dst : Bytes) (dstOffset : ℕ) (src : Bytes) (srcOffset size : ℕ) : Option Bytes :=
  if dstOffset + size ≤ dst.length ∧ srcOffset + size ≤ src.length then
    some (blit dst dstOffset (slice src srcOffset size))
  else none

/-! ### `put` -/

section Put

variable {σ : Type} [DatabaseInterface σ]

open DatabaseInterface

/-- `yk_put_ult`. The memory of the client is `bulk`, that of the buffer `pooled`. -/
def ykPutUlt (mode : Mode) (count : ℕ) (bulk : Bytes) (offset size : ℕ) (pooled : Bytes) (s : σ) :
    ReturnCode × σ :=
  if !supportsMode σ mode then (.ERR_MODE, s)
  else if size = 0 then (.ERR_ALLOCATION, s)
  else
    match bulkTransfer pooled 0 bulk offset size with
    | none => (.ERR_FROM_MERCURY, s)
    | some buffer =>
      let ksizes := sizesOfMemory count buffer
      let vsizes := sizesOfMemory count (buffer.drop (8 * count))
      let totalKsize := accumulate ksizes
      let totalVsize := accumulate vsizes
      if 0 ∈ ksizes then (.ERR_INVALID_ARGS, s)
      else if size < addSize (addSize (2 * count * 8) totalKsize) totalVsize then
        (.ERR_INVALID_ARGS, s)
      else
        let keys := slice buffer (8 * count + 8 * count) totalKsize
        let vals := slice buffer (8 * count + 8 * count + totalKsize) totalVsize
        let (status, s) := put mode s keys ksizes vals vsizes
        (status.code, s)

/-- `yk_put_direct_ult`. -/
def ykPutDirectUlt (mode : Mode) (ksizes vsizes : List ℕ) (keys vals : Bytes) (s : σ) :
    ReturnCode × σ :=
  if !supportsMode σ mode then (.ERR_MODE, s)
  else if 0 ∈ ksizes then (.ERR_INVALID_ARGS, s)
  else
    let (status, s) := put mode s keys ksizes vals vsizes
    (status.code, s)

end Put

/-! ### `get` -/

/-- The transfers that answer `get` and `doc_load`: the items, unless there are none, and the sizes.
-/
def pushItems (bulk buffer : Bytes) (offset sizesOffset count itemsOffset itemsSize xferSize : ℕ) :
    ReturnCode × Bytes :=
  match if itemsSize ≠ 0 then bulkTransfer bulk (offset + itemsOffset) buffer itemsOffset xferSize
    else some bulk with
  | none => (.ERR_FROM_MERCURY, bulk)
  | some bulk =>
    match bulkTransfer bulk (offset + sizesOffset) buffer sizesOffset (8 * count) with
    | none => (.ERR_FROM_MERCURY, bulk)
    | some bulk => (.SUCCESS, bulk)

/-- The answer to `get` or `doc_load` when the database has filled its slices of the buffer. -/
def answerItems {σ : Type} (bulk buffer : Bytes) (offset sizesOffset count itemsOffset xferSize : ℕ)
    (r : GetResult σ) : ReturnCode × Bytes × σ :=
  let buffer := blit (blit buffer sizesOffset (sizesMemory r.out.vsizes)) itemsOffset r.out.vals
  if r.status = .OK then
    let pushed := pushItems bulk buffer offset sizesOffset count itemsOffset r.out.valsSize xferSize
    (pushed.1, pushed.2, r.db)
  else (r.status.code, bulk, r.db)

section Get

variable {σ : Type} [DatabaseInterface σ]

open DatabaseInterface

/-- `yk_get_ult`, with the memory of the client when it has answered. A single value is pushed with
its own size. -/
def ykGetUlt (mode : Mode) (packed : Bool) (count : ℕ) (bulk : Bytes) (offset size : ℕ)
    (pooled : Bytes) (s : σ) : ReturnCode × Bytes × σ :=
  let vsizesOffset := 8 * count
  let keysOffset := vsizesOffset * 2
  let sizesToTransfer := if packed then 8 * count else 8 * count * 2
  if !supportsMode σ mode then (.ERR_MODE, bulk, s)
  else if size = 0 then (.ERR_ALLOCATION, bulk, s)
  else
    match bulkTransfer pooled 0 bulk offset sizesToTransfer with
    | none => (.ERR_FROM_MERCURY, bulk, s)
    | some buffer =>
      let ksizes := sizesOfMemory count buffer
      let vsizes := sizesOfMemory count (buffer.drop vsizesOffset)
      let totalKsize := accumulate ksizes
      let valsOffset := addSize keysOffset totalKsize
      if 0 ∈ ksizes then (.ERR_INVALID_ARGS, bulk, s)
      else if size < valsOffset then (.ERR_INVALID_ARGS, bulk, s)
      else if packed = false ∧ size < addSize valsOffset (accumulate vsizes) then
        (.ERR_INVALID_ARGS, bulk, s)
      else
        match bulkTransfer buffer keysOffset bulk (offset + keysOffset) totalKsize with
        | none => (.ERR_FROM_MERCURY, bulk, s)
        | some buffer =>
          let remainingVsize := size - valsOffset
          let r := get mode packed s (slice buffer keysOffset totalKsize) ksizes
            (slice buffer valsOffset remainingVsize) vsizes
          let xferSize := if count = 1 then r.out.vsizes.headD 0 else remainingVsize
          answerItems bulk buffer offset vsizesOffset count valsOffset xferSize r

end Get

/-! ### `list_keyvals` -/

/-- What `list_keyvals` uses of a database and of `FilterFactory`. A listing only writes to its
columns, and `YOKAN_MODE_NO_RDMA` says nothing to the database. -/
structure ListingBackend where
  supportsMode : Mode → Bool
  makeKeyValueFilter : Mode → Bytes → Option KeyValueFilter
  listKeyValues : Mode → Bool → Bytes → KeyValueFilter → Bytes → List ℕ → Bytes → List ℕ →
    Status × ColumnOutput × ColumnOutput
  onlyWrites : ∀ {mode : Mode} {filterData : Bytes} {filter : KeyValueFilter},
    makeKeyValueFilter mode filterData = some filter →
      ∀ (packed : Bool) (fromKey : Bytes), OnlyWrites packed (listKeyValues mode packed fromKey filter)
  supportsMode_noRdma : ∀ mode : Mode, supportsMode (mode ||| .noRdma) = supportsMode mode
  makeKeyValueFilter_noRdma : ∀ mode : Mode,
    makeKeyValueFilter (mode ||| .noRdma) = makeKeyValueFilter mode
  listKeyValues_noRdma : ∀ mode : Mode, listKeyValues (mode ||| .noRdma) = listKeyValues mode

theorem inMemorySupportsMode_noRdma (mode : Mode) :
    inMemorySupportsMode (mode ||| .noRdma) = inMemorySupportsMode mode := by
  rw [inMemorySupportsMode, inMemorySupportsMode, Bool.eq_iff_iff, beq_iff_eq, beq_iff_eq]
  exact Mode.or_eq_and_iff (by decide) mode

theorem makeKeyValueFilter_noRdma (mode : Mode) :
    makeKeyValueFilter (mode ||| .noRdma) = makeKeyValueFilter mode := by
  have hsuffix : (mode ||| .noRdma).has .suffix = mode.has .suffix :=
    Mode.has_or_of_disjoint (by decide) mode
  have hprefix : (mode ||| .noRdma).has .noPrefix = mode.has .noPrefix :=
    Mode.has_or_of_disjoint (by decide) mode
  funext filterData
  unfold makeKeyValueFilter keySelection
  rw [hsuffix]
  split_ifs <;>
    simp only [KeySelection.sizedFilter, KeySelection.filter, keyPrefixFilter, keySuffixFilter,
      hprefix]

namespace MapDatabase

variable {c : Comparator}

theorem listKeyValuesLoop_noRdma (mode : Mode) (packed : Bool) (filter : KeyValueFilter)
    (es : List (Bytes × Bytes)) (slots : List (ℕ × ℕ)) (cols : Column × Column) :
    listKeyValuesLoop (mode ||| .noRdma) packed filter es slots cols =
      listKeyValuesLoop mode packed filter es slots cols := by
  have hignore : (mode ||| .noRdma).has .ignoreKeys = mode.has .ignoreKeys :=
    Mode.has_or_of_disjoint (by decide) mode
  have hkeep : (mode ||| .noRdma).has .keepLast = mode.has .keepLast :=
    Mode.has_or_of_disjoint (by decide) mode
  have hlast : isLast (mode ||| .noRdma) = isLast mode := by
    funext slots rest
    rw [isLast, isLast, hkeep]
  have hcopy : keyCopy (mode ||| .noRdma) = keyCopy mode := by
    funext isLast filter key dst off room
    rw [keyCopy, keyCopy, hignore, hkeep]
  induction es generalizing slots cols with
  | nil => rfl
  | cons e es ih =>
    obtain ⟨key, val⟩ := e
    obtain ⟨keys, vals⟩ := cols
    cases slots with
    | nil => rfl
    | cons slot slots =>
      obtain ⟨kslot, vslot⟩ := slot
      rw [listKeyValuesLoop, listKeyValuesLoop, hlast, hcopy, ih, ih]

/-- `list_keyvals` over a `MapDatabase`. -/
def listing (s : MapDatabase c) : ListingBackend where
  supportsMode := supportsMode
  makeKeyValueFilter mode filterData :=
    some (Yokan.makeKeyValueFilter mode filterData).toKeyValueFilter
  listKeyValues mode packed := s.listKeyValues mode packed
  onlyWrites := by
    intro mode filterData filter h packed fromKey
    obtain rfl := Option.some.inj h
    exact listKeyValues_writes (copies_makeKeyValueFilter mode filterData) mode packed s fromKey
  supportsMode_noRdma := inMemorySupportsMode_noRdma
  makeKeyValueFilter_noRdma mode := by rw [makeKeyValueFilter_noRdma]
  listKeyValues_noRdma mode := by
    funext packed fromKey filter keys ksizes vals vsizes
    have hinclusive : (mode ||| .noRdma).has .inclusive = mode.has .inclusive :=
      Mode.has_or_of_disjoint (by decide) mode
    rw [listKeyValues, listKeyValues, hinclusive, listKeyValuesLoop_noRdma]

end MapDatabase

/-- `yk_list_keyvals_ult`, with the memory of the client when it has answered. -/
def ykListKeyvalsUlt (db : ListingBackend) (mode : Mode) (packed : Bool)
    (count fromKsize filterSize : ℕ) (bulk : Bytes) (offset keysBufSize valsBufSize : ℕ)
    (pooled : Bytes) : ReturnCode × Bytes :=
  let ksizesOffset := fromKsize + filterSize
  let vsizesOffset := ksizesOffset + 8 * count
  let keysOffset := vsizesOffset + 8 * count
  let valsOffset := keysOffset + keysBufSize
  let sizeToTransfer := fromKsize + filterSize + if packed then 0 else 2 * count * 8
  if !db.supportsMode mode then (.ERR_MODE, bulk)
  else if fromKsize + filterSize + 2 * count * 8 + keysBufSize + valsBufSize = 0 then
    (.ERR_ALLOCATION, bulk)
  else
    match if 0 < sizeToTransfer then bulkTransfer pooled 0 bulk offset sizeToTransfer
      else some pooled with
    | none => (.ERR_FROM_MERCURY, bulk)
    | some buffer =>
      match db.makeKeyValueFilter mode (slice buffer fromKsize filterSize) with
      | none => (.ERR_INVALID_FILTER, bulk)
      | some filter =>
        let out := db.listKeyValues mode packed (slice buffer 0 fromKsize) filter
          (slice buffer keysOffset keysBufSize) (sizesOfMemory count (buffer.drop ksizesOffset))
          (slice buffer valsOffset valsBufSize) (sizesOfMemory count (buffer.drop vsizesOffset))
        let keys := out.2.1
        let vals := out.2.2
        let buffer := blit (blit (blit (blit buffer ksizesOffset (sizesMemory keys.sizes))
          vsizesOffset (sizesMemory vals.sizes)) keysOffset keys.buf) valsOffset vals.buf
        if out.1 = .OK then
          match bulkTransfer bulk (offset + ksizesOffset) buffer ksizesOffset
            (2 * count * 8 + keysBufSize + valsBufSize) with
          | some bulk => (.SUCCESS, bulk)
          | none => (.ERR_FROM_MERCURY, bulk)
        else (out.1.code, bulk)

/-- What `yk_list_keyvals_direct_ult` answers with: the sizes, and the bytes of keys and values. -/
structure ListKeyvalsDirectOut where
  ret : ReturnCode
  ksizes : List ℕ := []
  vsizes : List ℕ := []
  keys : Bytes := []
  vals : Bytes := []

/-- `yk_list_keyvals_direct_ult`. -/
def ykListKeyvalsDirectUlt (db : ListingBackend) (mode : Mode) (count : ℕ)
    (fromKey filterData : Bytes) (keysBufSize valsBufSize : ℕ) : ListKeyvalsDirectOut :=
  if !db.supportsMode mode then { ret := .ERR_MODE }
  else
    match db.makeKeyValueFilter mode filterData with
    | none => { ret := .ERR_INVALID_FILTER }
    | some filter =>
      let out := db.listKeyValues mode true fromKey filter (List.replicate keysBufSize 0)
        (List.replicate count 0) (List.replicate valsBufSize 0) (List.replicate count 0)
      if out.1 = .OK then
        { ret := .SUCCESS
          ksizes := out.2.1.sizes
          vsizes := out.2.2.sizes
          keys := out.2.1.buf.take out.2.1.size
          vals := out.2.2.buf.take out.2.2.size }
      else { ret := out.1.code }

/-! ### `doc_load` and `doc_list` -/

section Documents

variable {σ : Type}

/-- `yk_doc_load_ult`. The ids travel inside the RPC. -/
def ykDocLoadUlt (docs : DocBackend σ) (mode : Mode) (packed : Bool) (collName : CString)
    (ids : List UInt64) (bulk : Bytes) (offset size : ℕ) (pooled : Bytes) (s : σ) :
    Option (ReturnCode × Bytes × σ) :=
  let count := ids.length
  let docsOffset := 8 * count
  let docsSize := (size + (2 ^ 64 - docsOffset)) % 2 ^ 64
  if !docs.supportsMode mode then some (.ERR_MODE, bulk, s)
  else if size = 0 then some (.ERR_ALLOCATION, bulk, s)
  else
    match if packed then some pooled else bulkTransfer pooled 0 bulk offset docsOffset with
    | none => some (.ERR_FROM_MERCURY, bulk, s)
    | some buffer =>
      (docs.docLoad s collName mode packed ids (slice buffer docsOffset docsSize)
        (sizesOfMemory count buffer)).map
          (answerItems bulk buffer offset 0 count docsOffset docsSize)

/-- `yk_doc_list_ult`. -/
def ykDocListUlt (docs : DocBackend σ) (mode : Mode) (packed : Bool) (collName : CString)
    (fromId : UInt64) (count filterSize : ℕ) (bulk : Bytes) (offset docsBufSize : ℕ)
    (pooled : Bytes) (s : σ) : Option (ReturnCode × Bytes × σ) :=
  let docSizesOffset := filterSize
  let docIdsOffset := docSizesOffset + 8 * count
  let docsOffset := docIdsOffset + 8 * count
  let sizeToTransfer := filterSize + if packed then 0 else 8 * count
  if !docs.supportsMode mode then some (.ERR_MODE, bulk, s)
  else if filterSize + 8 * count + 8 * count + docsBufSize = 0 then
    some (.ERR_ALLOCATION, bulk, s)
  else
    match if 0 < sizeToTransfer then bulkTransfer pooled 0 bulk offset sizeToTransfer
      else some pooled with
    | none => some (.ERR_FROM_MERCURY, bulk, s)
    | some buffer =>
      match docs.makeDocFilter mode (slice buffer 0 filterSize) with
      | none => some (.ERR_INVALID_FILTER, bulk, s)
      | some filter =>
        (docs.docList s collName mode packed fromId filter
          (idsOfMemory count (buffer.drop docIdsOffset))
          (slice buffer docsOffset docsBufSize)
          (sizesOfMemory count (buffer.drop docSizesOffset))).map fun r =>
          let buffer := blit (blit (blit buffer docSizesOffset (sizesMemory r.2.1.docSizes))
            docIdsOffset (idsMemory r.2.1.ids)) docsOffset r.2.1.documents
          if r.1 = .OK then
            match bulkTransfer bulk (offset + docSizesOffset) buffer docSizesOffset
              (8 * count + 8 * count + docsBufSize) with
            | none => (.ERR_FROM_MERCURY, bulk, r.2.2)
            | some bulk => (.SUCCESS, bulk, r.2.2)
          else (r.1.code, bulk, r.2.2)

end Documents

/-! ### A part of a buffer -/

theorem bulkTransfer_front (pooled bulk : Bytes) {size : ℕ} (hbulk : size ≤ bulk.length)
    (hpooled : size ≤ pooled.length) :
    bulkTransfer pooled 0 bulk 0 size = some (bulk.take size ++ pooled.drop size) := by
  have hlen : (bulk.take size).length = size := List.length_take_of_le hbulk
  rw [bulkTransfer, if_pos ⟨by omega, by omega⟩, slice, List.drop_zero, blit, hlen, Nat.zero_add,
    List.take_zero, List.nil_append]

end Yokan
