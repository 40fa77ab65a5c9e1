import Yokan.Handlers

/-!
# Yokan: where the bulk handlers read

The handlers of `put`, `get`, `doc_store` and `doc_load` cut a buffer into arrays of sizes and
regions of items. The counts and the sizes come from the client, and what is computed from them is
computed modulo `2 ^ 64`, addresses included. Here the buffer is memory without an end, and the
handlers run up to the call of the database.

* `BackendCall.InBounds`: what a call hands to the database lies in the first bytes of the buffer;
* `ykPutCall`, `ykGetCall`, `ykDocStoreCall`, `ykDocLoadCall`: the handlers;
* `handlers_in_bounds_iff`: when they reject a request or stay in their buffer.
-/

namespace Yokan

open LittleEndian

/-! ### Memory -/

/-- `count*sizeof(size_t)`. -/
def arrayBytes (count : ℕ) : ℕ := count * 8 % 2 ^ 64

/-- The array of `count` values of type `size_t` at an offset. -/
def sizesAt (memory : ℕ → UInt8) (off count : ℕ) : List ℕ :=
  (List.range count).map fun i => decode ((List.range 8).map fun j => memory (off + 8 * i + j))

/-- The values that `std::accumulate` goes through, from the address of an array to the address
behind it. -/
def sizesBetween (memory : ℕ → UInt8) (off count : ℕ) : List ℕ :=
  sizesAt memory off (arrayBytes count / 8)

/-- A part of the buffer. -/
structure Region where
  start : ℕ
  size : ℕ

namespace Region

def Within (size : ℕ) (r : Region) : Prop := r.start + r.size ≤ size

def Disjoint (r r' : Region) : Prop :=
  r.start + r.size ≤ r'.start ∨ r'.start + r'.size ≤ r.start

end Region

/-- What a handler hands to the database: arrays of sizes, and regions that are cut by sizes, one
slice after the other. -/
structure BackendCall where
  arrays : List Region
  items : List (Region × List ℕ)

namespace BackendCall

def regions (call : BackendCall) : List Region := call.arrays ++ call.items.map Prod.fst

/-- All regions lie within the first `size` bytes and apart from each other, and the slices lie
within their regions. -/
structure InBounds (size : ℕ) (call : BackendCall) : Prop where
  within : ∀ r ∈ call.regions, r.Within size
  disjoint : call.regions.Pairwise Region.Disjoint
  slices : ∀ item ∈ call.items, item.2.sum ≤ item.1.size

end BackendCall

/-- A request is rejected before the database is called, or the call stays in its buffer. -/
def StaysIn (size : UInt64) (call : Option BackendCall) : Prop :=
  ∀ c ∈ call, c.InBounds size.toNat

/-! ### The handlers -/

/-- What the client sends: `in.mode`, `in.count` or `in.ids.count`, `in.size`, `in.offset` and
`in.packed`. -/
structure BulkRequest where
  mode : Mode
  count : UInt64
  size : UInt64
  offset : UInt64
  packed : Bool

section Handlers

/- `supportsMode` is that of the database, `pulls remote local size` tells whether `size` bytes are
transferred from an offset of the client to an offset of the buffer, and `memory` is the buffer when
the sizes are read. -/
variable (supportsMode : Mode → Bool) (pulls : ℕ → ℕ → ℕ → Bool) (memory : ℕ → UInt8)
  (req : BulkRequest)

/-- `yk_put_ult`. -/
def ykPutCall : Option BackendCall :=
  let count := req.count.toNat
  let size := req.size.toNat
  if !supportsMode req.mode then none
  else if size = 0 then none
  else if !pulls req.offset.toNat 0 size then none
  else
    let ksizes := sizesBetween memory 0 count
    let vsizesOffset := arrayBytes count
    let vsizes := sizesBetween memory vsizesOffset count
    let keysOffset := addSize vsizesOffset (arrayBytes count)
    let totalKsize := accumulate ksizes
    let totalVsize := accumulate vsizes
    if 0 ∈ ksizes then none
    else if size < addSize (addSize (2 * count * 8 % 2 ^ 64) totalKsize) totalVsize then none
    else
      let valsOffset := addSize keysOffset totalKsize
      some
        { arrays := [⟨0, 8 * count⟩, ⟨vsizesOffset, 8 * count⟩]
          items := [(⟨keysOffset, totalKsize⟩, sizesAt memory 0 count),
            (⟨valsOffset, totalVsize⟩, sizesAt memory vsizesOffset count)] }

/-- `yk_get_ult`. The slots of the values are only looked at when they are not packed. -/
def ykGetCall : Option BackendCall :=
  let count := req.count.toNat
  let size := req.size.toNat
  if !supportsMode req.mode then none
  else if size = 0 then none
  else
    let vsizesOffset := arrayBytes count
    let keysOffset := vsizesOffset * 2 % 2 ^ 64
    let sizesToTransfer := if req.packed then arrayBytes count else arrayBytes count * 2 % 2 ^ 64
    if !pulls req.offset.toNat 0 sizesToTransfer then none
    else
      let ksizes := sizesBetween memory 0 count
      let totalKsize := accumulate ksizes
      let valsOffset := addSize keysOffset totalKsize
      if 0 ∈ ksizes then none
      else if size < valsOffset then none
      else if req.packed = false ∧
          size < addSize valsOffset (accumulate (sizesBetween memory vsizesOffset count)) then none
      else if !pulls (addSize req.offset.toNat keysOffset) keysOffset totalKsize then none
      else
        some
          { arrays := [⟨0, 8 * count⟩, ⟨vsizesOffset, 8 * count⟩]
            items := [(⟨keysOffset, totalKsize⟩, sizesAt memory 0 count),
              (⟨valsOffset, size - valsOffset⟩,
                if req.packed then [] else sizesAt memory vsizesOffset count)] }

/-- `yk_doc_store_ult`. -/
def ykDocStoreCall : Option BackendCall :=
  let count := req.count.toNat
  let size := req.size.toNat
  if !supportsMode req.mode then none
  else if size = 0 then none
  else if !pulls req.offset.toNat 0 size then none
  else
    let docsOffset := arrayBytes count
    let totalDocSize := accumulate (sizesBetween memory 0 count)
    if size < addSize (arrayBytes count) totalDocSize then none
    else
      some
        { arrays := [⟨0, 8 * count⟩]
          items := [(⟨docsOffset, totalDocSize⟩, sizesAt memory 0 count)] }

/-- `yk_doc_load_ult`. -/
def ykDocLoadCall : Option BackendCall :=
  let count := req.count.toNat
  let size := req.size.toNat
  if !supportsMode req.mode then none
  else if size = 0 then none
  else
    let docsOffset := arrayBytes count
    if !req.packed && !pulls req.offset.toNat 0 docsOffset then none
    else
      some
        { arrays := [⟨0, 8 * count⟩]
          items := [(⟨docsOffset, (size + (2 ^ 64 - docsOffset)) % 2 ^ 64⟩,
            if req.packed then [] else sizesAt memory 0 count)] }

end Handlers

/-! ### The conditions -/

theorem arrayBytes_eq {count : ℕ} (h : 8 * count < 2 ^ 64) : arrayBytes count = 8 * count := by
  rw [arrayBytes, Nat.mod_eq_of_lt (by omega), Nat.mul_comm]

/-- The sum of an array that has an end in memory. -/
theorem accumulate_sizesBetween {count : ℕ} (h : 8 * count < 2 ^ 64) (memory : ℕ → UInt8)
    (off : ℕ) :
    accumulate (sizesBetween memory off count) = accumulate (sizesAt memory off count) := by
  rw [sizesBetween, arrayBytes_eq h, Nat.mul_div_cancel_left _ (by decide)]

section Conditions

variable (supportsMode : Mode → Bool) (pulls : ℕ → ℕ → ℕ → Bool) (memory : ℕ → UInt8)
  (req : BulkRequest)

/-- What `yk_put_ult` checks. -/
def PutPasses : Prop :=
  supportsMode req.mode = true ∧ req.size.toNat ≠ 0 ∧ pulls req.offset.toNat 0 req.size.toNat = true ∧
    0 ∉ sizesBetween memory 0 req.count.toNat ∧
      addSize (addSize (2 * req.count.toNat * 8 % 2 ^ 64)
        (accumulate (sizesBetween memory 0 req.count.toNat)))
          (accumulate (sizesBetween memory (arrayBytes req.count.toNat) req.count.toNat)) ≤
        req.size.toNat

/-- The bytes that a `put` needs. -/
def putExtent (count : ℕ) : ℕ :=
  16 * count + (sizesAt memory 0 count).sum + (sizesAt memory (8 * count) count).sum

/-- What `yk_get_ult` checks. -/
def GetPasses : Prop :=
  supportsMode req.mode = true ∧ req.size.toNat ≠ 0 ∧
    pulls req.offset.toNat 0 (if req.packed then arrayBytes req.count.toNat
      else arrayBytes req.count.toNat * 2 % 2 ^ 64) = true ∧
    0 ∉ sizesBetween memory 0 req.count.toNat ∧
      let keysOffset := arrayBytes req.count.toNat * 2 % 2 ^ 64
      let totalKsize := accumulate (sizesBetween memory 0 req.count.toNat)
      addSize keysOffset totalKsize ≤ req.size.toNat ∧
        (req.packed = false → addSize (addSize keysOffset totalKsize)
          (accumulate (sizesBetween memory (arrayBytes req.count.toNat) req.count.toNat)) ≤
            req.size.toNat) ∧
          pulls (addSize req.offset.toNat keysOffset) keysOffset totalKsize = true

/-- The bytes that a `get` needs. -/
def getExtent (packed : Bool) (count : ℕ) : ℕ :=
  16 * count + (sizesAt memory 0 count).sum +
    (if packed then [] else sizesAt memory (8 * count) count).sum

/-- What `yk_doc_store_ult` checks. -/
def DocStorePasses : Prop :=
  supportsMode req.mode = true ∧ req.size.toNat ≠ 0 ∧ pulls req.offset.toNat 0 req.size.toNat = true ∧
    addSize (arrayBytes req.count.toNat)
      (accumulate (sizesBetween memory 0 req.count.toNat)) ≤ req.size.toNat

/-- What `yk_doc_load_ult` checks. -/
def DocLoadPasses : Prop :=
  supportsMode req.mode = true ∧ req.size.toNat ≠ 0 ∧
    (req.packed = false → pulls req.offset.toNat 0 (arrayBytes req.count.toNat) = true)

/-- The bytes that documents need. -/
def docsExtent (packed : Bool) (count : ℕ) : ℕ :=
  8 * count + (if packed then [] else sizesAt memory 0 count).sum

variable {supportsMode pulls memory req}

theorem staysIn_some {size : UInt64} {call : BackendCall} :
    StaysIn size (some call) ↔ call.InBounds size.toNat := by simp [StaysIn]

/-- What follows a check only matters when the check passes. -/
theorem staysIn_unless {size : UInt64} {check : Prop} [Decidable check]
    {call : Option BackendCall} :
    StaysIn size (if check then none else call) ↔ (¬check → StaysIn size call) := by
  by_cases h : check <;> simp [h, StaysIn]

/-- The call of `put` stays in a buffer exactly if the buffer has room for what `put` needs. -/
theorem putCall_inBounds_iff {size count : ℕ} (hsize : size < 2 ^ 64) :
    BackendCall.InBounds size
        { arrays := [⟨0, 8 * count⟩, ⟨arrayBytes count, 8 * count⟩]
          items := [(⟨addSize (arrayBytes count) (arrayBytes count),
              accumulate (sizesBetween memory 0 count)⟩, sizesAt memory 0 count),
            (⟨addSize (addSize (arrayBytes count) (arrayBytes count))
                (accumulate (sizesBetween memory 0 count)),
              accumulate (sizesBetween memory (arrayBytes count) count)⟩,
              sizesAt memory (arrayBytes count) count)] } ↔
      putExtent memory count ≤ size := by
  have hk := accumulate_le (sizesAt memory 0 count)
  have hv := accumulate_le (sizesAt memory (8 * count) count)
  unfold putExtent
  constructor
  · rintro ⟨hwithin, -, hslices⟩
    simp only [BackendCall.regions, Region.Within, List.map_cons, List.map_nil, List.cons_append,
      List.nil_append, List.forall_mem_cons, List.not_mem_nil, false_imp_iff, implies_true,
      and_true] at hwithin hslices
    obtain ⟨hksizes, hvsizes, hkeys, hvals⟩ := hwithin
    have hcount : 8 * count < 2 ^ 64 := by omega
    rw [arrayBytes_eq hcount] at hvsizes hkeys hvals hslices
    rw [accumulate_sizesBetween hcount] at hkeys hvals hslices
    rw [accumulate_sizesBetween hcount] at hvals hslices
    have hoffset : addSize (8 * count) (8 * count) = 16 * count := by
      rw [addSize_eq (by omega)]
      omega
    rw [hoffset] at hkeys hvals
    rw [addSize_eq (by omega)] at hvals
    omega
  · -- nothing wraps below the size of the buffer
    intro hextent
    have hcount : 8 * count < 2 ^ 64 := by omega
    have hoffset : addSize (8 * count) (8 * count) = 16 * count := by
      rw [addSize_eq (by omega)]
      omega
    rw [arrayBytes_eq hcount, accumulate_sizesBetween hcount, accumulate_sizesBetween hcount,
      accumulate_eq (by omega), accumulate_eq (by omega), hoffset, addSize_eq (by omega)]
    constructor
    · simp only [BackendCall.regions, Region.Within, List.map_cons, List.map_nil, List.cons_append,
        List.nil_append, List.forall_mem_cons, List.not_mem_nil, false_imp_iff, implies_true,
      and_true]
      omega
    · simp only [BackendCall.regions, Region.Disjoint, List.map_cons, List.map_nil,
        List.cons_append, List.nil_append, List.pairwise_cons, List.forall_mem_cons,
        List.not_mem_nil, false_imp_iff, implies_true, and_true, List.Pairwise.nil]
      omega
    · simp

/-- `yk_put_ult` stays in its buffer exactly if no request that is too large passes its checks. -/
theorem ykPutCall_staysIn_iff :
    StaysIn req.size (ykPutCall supportsMode pulls memory req) ↔
      (PutPasses supportsMode pulls memory req → putExtent memory req.count.toNat ≤ req.size.toNat) := by
  have hsize := req.size.toNat_lt
  simp only [ykPutCall, staysIn_unless, staysIn_some, putCall_inBounds_iff hsize]
  constructor
  · rintro h ⟨hmode, hzero, hpull, hempty, hroom⟩
    exact h (by simpa using hmode) hzero (by simpa using hpull) hempty (Nat.not_lt.2 hroom)
  · intro h hmode hzero hpull hempty hroom
    exact h ⟨by simpa using hmode, hzero, by simpa using hpull, hempty, Nat.le_of_not_lt hroom⟩

/-- The call of `get` stays in a buffer exactly if the buffer has room for what `get` needs. -/
theorem getCall_inBounds_iff {size count : ℕ} (hsize : size < 2 ^ 64) (packed : Bool)
    (hvals : addSize (arrayBytes count * 2 % 2 ^ 64) (accumulate (sizesBetween memory 0 count)) ≤
      size) :
    BackendCall.InBounds size
        { arrays := [⟨0, 8 * count⟩, ⟨arrayBytes count, 8 * count⟩]
          items := [(⟨arrayBytes count * 2 % 2 ^ 64, accumulate (sizesBetween memory 0 count)⟩,
              sizesAt memory 0 count),
            (⟨addSize (arrayBytes count * 2 % 2 ^ 64) (accumulate (sizesBetween memory 0 count)),
              size - addSize (arrayBytes count * 2 % 2 ^ 64)
                (accumulate (sizesBetween memory 0 count))⟩,
              if packed then [] else sizesAt memory (arrayBytes count) count)] } ↔
      getExtent memory packed count ≤ size := by
  have hk := accumulate_le (sizesAt memory 0 count)
  unfold getExtent
  constructor
  · rintro ⟨hwithin, -, hslices⟩
    simp only [BackendCall.regions, Region.Within, List.map_cons, List.map_nil, List.cons_append,
      List.nil_append, List.forall_mem_cons, List.not_mem_nil, false_imp_iff, implies_true,
      and_true] at hwithin hslices
    obtain ⟨hksizes, hvsizes, hkeys, -⟩ := hwithin
    have hcount : 8 * count < 2 ^ 64 := by omega
    rw [arrayBytes_eq hcount] at hvsizes hkeys hslices hvals
    rw [accumulate_sizesBetween hcount] at hkeys hslices hvals
    have hoffset : 8 * count * 2 % 2 ^ 64 = 16 * count := by omega
    rw [hoffset] at hkeys hslices hvals
    rw [addSize_eq (by omega)] at hslices hvals
    omega
  · intro hextent
    have hcount : 8 * count < 2 ^ 64 := by omega
    have hoffset : 8 * count * 2 % 2 ^ 64 = 16 * count := by omega
    rw [arrayBytes_eq hcount, accumulate_sizesBetween hcount, accumulate_eq (by omega), hoffset,
      addSize_eq (by omega)]
    constructor
    · simp only [BackendCall.regions, Region.Within, List.map_cons, List.map_nil, List.cons_append,
        List.nil_append, List.forall_mem_cons, List.not_mem_nil, false_imp_iff, implies_true,
        and_true]
      omega
    · simp only [BackendCall.regions, Region.Disjoint, List.map_cons, List.map_nil,
        List.cons_append, List.nil_append, List.pairwise_cons, List.forall_mem_cons,
        List.not_mem_nil, false_imp_iff, implies_true, and_true, List.Pairwise.nil]
      omega
    · simp only [List.forall_mem_cons, List.not_mem_nil, false_imp_iff, implies_true, and_true]
      omega

/-- `yk_get_ult` stays in its buffer exactly if no request that is too large passes its checks. -/
theorem ykGetCall_staysIn_iff :
    StaysIn req.size (ykGetCall supportsMode pulls memory req) ↔
      (GetPasses supportsMode pulls memory req →
        getExtent memory req.packed req.count.toNat ≤ req.size.toNat) := by
  have hsize := req.size.toNat_lt
  simp only [ykGetCall, staysIn_unless, staysIn_some]
  constructor
  · rintro h ⟨hmode, hzero, hpull, hempty, hroom, hslots, hkeys⟩
    rw [← getCall_inBounds_iff hsize req.packed hroom]
    exact h (by simpa using hmode) hzero (by simpa using hpull) hempty (Nat.not_lt.2 hroom)
      (fun hsmall => absurd (hslots hsmall.1) (Nat.not_le.2 hsmall.2)) (by simpa using hkeys)
  · intro h hmode hzero hpull hempty hroom hslots hkeys
    have hvals := Nat.le_of_not_lt hroom
    refine (getCall_inBounds_iff hsize req.packed hvals).2 (h ⟨by simpa using hmode, hzero, by simpa using hpull, hempty,
      hvals, fun hpacked => ?_, by simpa using hkeys⟩)
    exact Nat.le_of_not_lt fun hsmall => hslots ⟨hpacked, hsmall⟩

/-- The call for documents stays in a buffer exactly if the buffer has room for them, whichever
region it names when there is room. -/
theorem docsCall_inBounds_iff {size count total : ℕ} {slices : List ℕ} (hsize : size < 2 ^ 64)
    (hroom : 8 * count + slices.sum ≤ size → slices.sum ≤ total ∧ 8 * count + total ≤ size) :
    BackendCall.InBounds size
        { arrays := [⟨0, 8 * count⟩]
          items := [(⟨arrayBytes count, total⟩, slices)] } ↔
      8 * count + slices.sum ≤ size := by
  constructor
  · rintro ⟨hwithin, -, hslices⟩
    simp only [BackendCall.regions, Region.Within, List.map_cons, List.map_nil, List.cons_append,
      List.nil_append, List.forall_mem_cons, List.not_mem_nil, false_imp_iff, implies_true,
      and_true] at hwithin hslices
    obtain ⟨hsizes, hdocs⟩ := hwithin
    rw [arrayBytes_eq (by omega)] at hdocs
    omega
  · intro hextent
    obtain ⟨htotal, hdocs⟩ := hroom hextent
    rw [arrayBytes_eq (by omega)]
    constructor
    · simp only [BackendCall.regions, Region.Within, List.map_cons, List.map_nil, List.cons_append,
        List.nil_append, List.forall_mem_cons, List.not_mem_nil, false_imp_iff, implies_true,
        and_true]
      omega
    · simp only [BackendCall.regions, Region.Disjoint, List.map_cons, List.map_nil,
        List.cons_append, List.nil_append, List.pairwise_cons, List.forall_mem_cons,
        List.not_mem_nil, false_imp_iff, implies_true, and_true, List.Pairwise.nil]
      omega
    · simpa using htotal

/-- `yk_doc_store_ult` stays in its buffer exactly if no request that is too large passes its
checks. -/
theorem ykDocStoreCall_staysIn_iff :
    StaysIn req.size (ykDocStoreCall supportsMode pulls memory req) ↔
      (DocStorePasses supportsMode pulls memory req →
        docsExtent memory false req.count.toNat ≤ req.size.toNat) := by
  have hsize := req.size.toNat_lt
  have hcall : BackendCall.InBounds req.size.toNat
        { arrays := [⟨0, 8 * req.count.toNat⟩]
          items := [(⟨arrayBytes req.count.toNat,
            accumulate (sizesBetween memory 0 req.count.toNat)⟩,
            sizesAt memory 0 req.count.toNat)] } ↔
      docsExtent memory false req.count.toNat ≤ req.size.toNat := by
    refine docsCall_inBounds_iff hsize fun hextent => ?_
    rw [accumulate_sizesBetween (by omega), accumulate_eq (by omega)]
    exact ⟨le_rfl, hextent⟩
  simp only [ykDocStoreCall, staysIn_unless, staysIn_some, hcall]
  constructor
  · rintro h ⟨hmode, hzero, hpull, hroom⟩
    exact h (by simpa using hmode) hzero (by simpa using hpull) (Nat.not_lt.2 hroom)
  · intro h hmode hzero hpull hroom
    exact h ⟨by simpa using hmode, hzero, by simpa using hpull, Nat.le_of_not_lt hroom⟩

/-- `yk_doc_load_ult` stays in its buffer exactly if no request that is too large passes its
checks. -/
theorem ykDocLoadCall_staysIn_iff :
    StaysIn req.size (ykDocLoadCall supportsMode pulls memory req) ↔
      (DocLoadPasses supportsMode pulls req →
        docsExtent memory req.packed req.count.toNat ≤ req.size.toNat) := by
  have hsize := req.size.toNat_lt
  have hcall : BackendCall.InBounds req.size.toNat
        { arrays := [⟨0, 8 * req.count.toNat⟩]
          items := [(⟨arrayBytes req.count.toNat,
            (req.size.toNat + (2 ^ 64 - arrayBytes req.count.toNat)) % 2 ^ 64⟩,
            if req.packed then [] else sizesAt memory 0 req.count.toNat)] } ↔
      docsExtent memory req.packed req.count.toNat ≤ req.size.toNat := by
    refine docsCall_inBounds_iff hsize fun hextent => ?_
    rw [arrayBytes_eq (by omega)]
    omega
  simp only [ykDocLoadCall, staysIn_unless, staysIn_some, hcall]
  constructor
  · rintro h ⟨hmode, hzero, hpull⟩
    refine h (by simpa using hmode) hzero ?_
    cases hpacked : req.packed <;> simp_all
  · intro h hmode hzero hpull
    refine h ⟨by simpa using hmode, hzero, fun hpacked => ?_⟩
    simpa [hpacked] using hpull

/-- The check of `put` is right where nothing in it wraps. -/
theorem PutPasses.extent_le (h : PutPasses supportsMode pulls memory req)
    (hextent : putExtent memory req.count.toNat < 2 ^ 64) :
    putExtent memory req.count.toNat ≤ req.size.toNat := by
  obtain ⟨-, -, -, -, hroom⟩ := h
  unfold putExtent at *
  have hcount : 8 * req.count.toNat < 2 ^ 64 := by omega
  have harrays : 2 * req.count.toNat * 8 % 2 ^ 64 = 16 * req.count.toNat := by omega
  have hkeys : addSize (16 * req.count.toNat) (sizesAt memory 0 req.count.toNat).sum =
      16 * req.count.toNat + (sizesAt memory 0 req.count.toNat).sum := addSize_eq (by omega)
  rwa [arrayBytes_eq hcount, accumulate_sizesBetween hcount, accumulate_sizesBetween hcount,
    accumulate_eq (by omega), accumulate_eq (by omega), harrays, hkeys,
    addSize_eq (by omega)] at hroom

/-- The checks of `get` are right where nothing in them wraps. -/
theorem GetPasses.extent_le (h : GetPasses supportsMode pulls memory req)
    (hextent : getExtent memory req.packed req.count.toNat < 2 ^ 64) :
    getExtent memory req.packed req.count.toNat ≤ req.size.toNat := by
  obtain ⟨-, -, -, -, hroom, hslots, -⟩ := h
  unfold getExtent at *
  have hcount : 8 * req.count.toNat < 2 ^ 64 := by omega
  have harrays : 8 * req.count.toNat * 2 % 2 ^ 64 = 16 * req.count.toNat := by omega
  have hkeys : addSize (16 * req.count.toNat) (sizesAt memory 0 req.count.toNat).sum =
      16 * req.count.toNat + (sizesAt memory 0 req.count.toNat).sum := addSize_eq (by omega)
  rw [arrayBytes_eq hcount, accumulate_sizesBetween hcount, accumulate_eq (by omega), harrays,
    hkeys] at hroom hslots
  rw [accumulate_sizesBetween hcount] at hslots
  cases hpacked : req.packed with
  | true => simpa using hroom
  | false =>
    simp only [hpacked, Bool.false_eq_true, ite_false] at hextent ⊢
    have hvals := hslots hpacked
    rwa [accumulate_eq (by omega), addSize_eq (by omega)] at hvals

/-- The check of `doc_store` is right where nothing in it wraps. -/
theorem DocStorePasses.extent_le (h : DocStorePasses supportsMode pulls memory req)
    (hextent : docsExtent memory false req.count.toNat < 2 ^ 64) :
    docsExtent memory false req.count.toNat ≤ req.size.toNat := by
  obtain ⟨-, -, -, hroom⟩ := h
  simp only [docsExtent, Bool.false_eq_true, ite_false] at *
  have hcount : 8 * req.count.toNat < 2 ^ 64 := by omega
  rwa [arrayBytes_eq hcount, accumulate_sizesBetween hcount, accumulate_eq (by omega),
    addSize_eq (by omega)] at hroom

end Conditions

/-- The four handlers reject a request or stay in the first `in.size` bytes of their buffer exactly
if the bytes that a request needs do not wrap when it passes the checks, and for `doc_load`, which
does not check them, if they fit. -/
theorem handlers_in_bounds_iff (supportsMode : Mode → Bool) (pulls : ℕ → ℕ → ℕ → Bool)
    (memory : ℕ → UInt8) (req : BulkRequest) :
    (StaysIn req.size (ykPutCall supportsMode pulls memory req) ↔
      (PutPasses supportsMode pulls memory req → putExtent memory req.count.toNat < 2 ^ 64)) ∧
    (StaysIn req.size (ykGetCall supportsMode pulls memory req) ↔
      (GetPasses supportsMode pulls memory req → getExtent memory req.packed req.count.toNat < 2 ^ 64)) ∧
    (StaysIn req.size (ykDocStoreCall supportsMode pulls memory req) ↔
      (DocStorePasses supportsMode pulls memory req → docsExtent memory false req.count.toNat < 2 ^ 64)) ∧
    (StaysIn req.size (ykDocLoadCall supportsMode pulls memory req) ↔
      (DocLoadPasses supportsMode pulls req →
        docsExtent memory req.packed req.count.toNat ≤ req.size.toNat)) := by
  have hsize := req.size.toNat_lt
  rw [ykPutCall_staysIn_iff, ykGetCall_staysIn_iff, ykDocStoreCall_staysIn_iff,
    ykDocLoadCall_staysIn_iff]
  refine ⟨forall_congr' fun h => ⟨fun hle => ?_, h.extent_le⟩,
    forall_congr' fun h => ⟨fun hle => ?_, h.extent_le⟩,
    forall_congr' fun h => ⟨fun hle => ?_, h.extent_le⟩, Iff.rfl⟩
  all_goals exact lt_of_le_of_lt hle hsize

/-- A request for two packed documents with a buffer for one size: the array of sizes does not fit,
and the region of the documents starts behind the buffer and has almost `2 ^ 64` bytes. -/
theorem handlers_out_of_bounds :
    ¬∀ (supportsMode : Mode → Bool) (pulls : ℕ → ℕ → ℕ → Bool) (memory : ℕ → UInt8)
      (req : BulkRequest),
      StaysIn req.size (ykPutCall supportsMode pulls memory req) ∧
        StaysIn req.size (ykGetCall supportsMode pulls memory req) ∧
          StaysIn req.size (ykDocStoreCall supportsMode pulls memory req) ∧
            StaysIn req.size (ykDocLoadCall supportsMode pulls memory req) := by
  intro h
  have hload := (h (fun _ => true) (fun _ _ _ => true) (fun _ => 0)
    { mode := .default, count := 2, size := 8, offset := 0, packed := true }).2.2.2
  rw [ykDocLoadCall_staysIn_iff] at hload
  exact absurd (hload ⟨rfl, by decide, fun hpacked => by cases hpacked⟩) (by decide)

end Yokan
