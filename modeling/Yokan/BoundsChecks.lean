import Yokan.Map
import Yokan.UnorderedMap
import Yokan.HandlerBounds

/-!
# Yokan: the checks on packed keys

`put` compares the sums of its sizes with the sizes of its buffers; `exists`, `length` and `erase`
compare the end of each key with the size of the buffer as they go. Both are computed modulo
`2 ^ 64`. Here the buffers are memory without an end, and a call is followed with the sizes of the
keys that it takes from there; where such a key starts is their exact sum.

* `keysLoopIn`, `pairsLoopIn`: the loops, over memory;
* `putIn`, `existsIn`, `lengthIn`, `eraseIn`: the operations, over memory;
* `callsIn_eq`: as long as no sum wraps, they are the operations of the backends;
* `bounds_checks_iff`: when a call is rejected or stays in its buffers.
-/

namespace Yokan

open Buffer InMemory

/-! ### Memory -/

/-- `size` bytes of memory from an offset on. -/
def bytesAt (memory : ℕ → UInt8) (off size : ℕ) : Bytes :=
  (List.range size).map fun i => memory (off + i)

@[simp] theorem length_bytesAt (memory : ℕ → UInt8) (off size : ℕ) :
    (bytesAt memory off size).length = size := by
  simp [bytesAt]

theorem slice_bytesAt {memory : ℕ → UInt8} {off size n : ℕ} (h : off + size ≤ n) :
    slice (bytesAt memory 0 n) off size = bytesAt memory off size := by
  refine List.ext_getElem (by simp [slice]; omega) fun i hi hi' => ?_
  simp [slice, bytesAt]

/-- The regions of packed items, one after the other. -/
def regionsFrom (off : ℕ) : List ℕ → List Region
  | [] => []
  | size :: sizes => ⟨off, size⟩ :: regionsFrom (off + size) sizes

/-- A buffer of the caller. -/
structure Memory where
  bytes : ℕ → UInt8
  size : UInt64

/-- The regions of the items lie within the buffer. -/
def Memory.Holds (m : Memory) (sizes : List ℕ) : Prop :=
  ∀ r ∈ regionsFrom 0 sizes, r.Within m.size.toNat

section Loops

variable {σ : Type}

/-- `keysLoop` with its check, over memory: the status, the state, and the sizes of the keys that
are taken from memory. -/
def keysLoopIn (keys : Memory) (body : Bytes → σ → Option Status × σ) :
    List ℕ → ℕ → σ → Option Status × σ × List ℕ
  | [], _, s => (none, s, [])
  | ksize :: ksizes, offset, s =>
    if keys.size.toNat < addSize offset ksize then (some .InvalidArg, s, [])
    else
      match body (bytesAt keys.bytes offset ksize) s with
      | (some status, s) => (some status, s, [ksize])
      | (none, s) =>
        let r := keysLoopIn keys body ksizes (addSize offset ksize) s
        (r.1, r.2.1, ksize :: r.2.2)

/-- `pairsLoop`, over memory: the status, the state, and the sizes of the keys and values that are
taken from memory. -/
def pairsLoopIn (keys vals : Memory) (body : Bytes × Bytes → σ → Option Status × σ) :
    List (ℕ × ℕ) → ℕ → ℕ → σ → Option Status × σ × List (ℕ × ℕ)
  | [], _, _, s => (none, s, [])
  | (ksize, vsize) :: sizes, keyOffset, valOffset, s =>
    match body (bytesAt keys.bytes keyOffset ksize, bytesAt vals.bytes valOffset vsize) s with
    | (some status, s) => (some status, s, [(ksize, vsize)])
    | (none, s) =>
      let r := pairsLoopIn keys vals body sizes (addSize keyOffset ksize)
        (addSize valOffset vsize) s
      (r.1, r.2.1, (ksize, vsize) :: r.2.2)

variable {keys vals : Memory} {body : Bytes → σ → Option Status × σ} {ksizes : List ℕ}

/-- As long as no sum wraps, the loop over memory is the loop over the buffer. -/
theorem keysLoopIn_eq {offset : ℕ} {s : σ} (h : offset + ksizes.sum < 2 ^ 64) :
    let r := keysLoopIn keys body ksizes offset s
    keysLoop true body (bytesAt keys.bytes 0 keys.size.toNat) ksizes offset s = (r.1, r.2.1) := by
  induction ksizes generalizing offset s with
  | nil => rfl
  | cons ksize ksizes ih =>
    rw [List.sum_cons] at h
    have hadd : addSize offset ksize = offset + ksize := addSize_eq (by omega)
    simp only [keysLoop, keysLoopIn, hadd, length_bytesAt, true_and]
    split_ifs with hlt
    · rfl
    · rw [slice_bytesAt (by omega)]
      rcases body (bytesAt keys.bytes offset ksize) s with ⟨_ | status, s'⟩
      · exact ih (by omega)
      · rfl

theorem pairsLoopIn_eq {body : Bytes × Bytes → σ → Option Status × σ} {sizes : List (ℕ × ℕ)}
    {keyOffset valOffset : ℕ} {s : σ}
    (hkeys : keyOffset + (sizes.map Prod.fst).sum ≤ keys.size.toNat)
    (hvals : valOffset + (sizes.map Prod.snd).sum ≤ vals.size.toNat) :
    let r := pairsLoopIn keys vals body sizes keyOffset valOffset s
    pairsLoop body (bytesAt keys.bytes 0 keys.size.toNat) (bytesAt vals.bytes 0 vals.size.toNat)
      sizes keyOffset valOffset s = (r.1, r.2.1) := by
  induction sizes generalizing keyOffset valOffset s with
  | nil => rfl
  | cons p sizes ih =>
    obtain ⟨ksize, vsize⟩ := p
    rw [List.map_cons, List.sum_cons] at hkeys hvals
    dsimp only at hkeys hvals
    have hk : keys.size.toNat < 2 ^ 64 := keys.size.toNat_lt
    have hv : vals.size.toNat < 2 ^ 64 := vals.size.toNat_lt
    have haddk : addSize keyOffset ksize = keyOffset + ksize := addSize_eq (by omega)
    have haddv : addSize valOffset vsize = valOffset + vsize := addSize_eq (by omega)
    simp only [pairsLoop, pairsLoopIn, haddk, haddv]
    rw [slice_bytesAt (by omega), slice_bytesAt (by omega)]
    rcases body (bytesAt keys.bytes keyOffset ksize, bytesAt vals.bytes valOffset vsize) s with
      ⟨_ | status, s'⟩
    · exact ih (by omega) (by omega)
    · rfl

/-- One of the running totals, modulo `2 ^ 64`, is larger than the buffer. -/
def Exceeds (size : ℕ) (sizes : List ℕ) : Prop :=
  ∃ n < sizes.length, size < (sizes.take (n + 1)).sum % 2 ^ 64

instance (size : ℕ) (sizes : List ℕ) : Decidable (Exceeds size sizes) := by
  unfold Exceeds
  infer_instance

/-- The sizes of the keys up to the first one that is absent, at which a call that waits ends; with
`erases`, a key is absent once it has been reached. -/
def sizesToAbsent (keys : Memory) (wait erases : Bool) :
    List ℕ → ℕ → (Bytes → Option Bytes) → List ℕ
  | [], _, _ => []
  | ksize :: ksizes, offset, content =>
    let key := bytesAt keys.bytes offset ksize
    if wait ∧ content key = none then [ksize]
    else
      ksize :: sizesToAbsent keys wait erases ksizes (addSize offset ksize)
        (if erases then Function.update content key none else content)

/-- The loop returns early only where its body does. -/
theorem pairsLoopIn_status {body : Bytes × Bytes → σ → Option Status × σ} {sizes : List (ℕ × ℕ)}
    {status : Status} (hbody : ∀ p s, (body p s).1 ≠ some status) (keyOffset valOffset : ℕ)
    (s : σ) :
    (pairsLoopIn keys vals body sizes keyOffset valOffset s).1 ≠ some status := by
  induction sizes generalizing keyOffset valOffset s with
  | nil => simp [pairsLoopIn]
  | cons p sizes ih =>
    obtain ⟨ksize, vsize⟩ := p
    have hne := hbody (bytesAt keys.bytes keyOffset ksize, bytesAt vals.bytes valOffset vsize) s
    rcases hb : body (bytesAt keys.bytes keyOffset ksize, bytesAt vals.bytes valOffset vsize) s with
      ⟨_ | status, s'⟩
    · simp only [pairsLoopIn, hb]
      exact ih _ _ s'
    · rw [hb] at hne
      simpa only [pairsLoopIn, hb] using hne

end Loops

/-! ### The calls -/

section Calls

variable {σ : Type} [InMemory σ]

/-- `put`, over memory: the status, the database, and the sizes of the keys that it takes. -/
def putIn (mode : Mode) (s : σ) (keys : Memory) (ksizes : List ℕ) (vals : Memory)
    (vsizes : List ℕ) : Status × σ × List ℕ :=
  if ksizes.length ≠ vsizes.length then (.InvalidArg, s, [])
  else if keys.size.toNat < accumulate ksizes then (.InvalidArg, s, [])
  else if vals.size.toNat < accumulate vsizes then (.InvalidArg, s, [])
  else if migrated s then (.Migrated, s, [])
  else
    let r := pairsLoopIn keys vals (putBody mode (ksizes.length = 1)) (ksizes.zip vsizes) 0 0 s
    (r.1.getD .OK, r.2.1, r.2.2.map Prod.fst)

/-- `exists`, over memory. -/
def existsIn (mode : Mode) (s : σ) (keys : Memory) (ksizes : List ℕ) (flags : List Bool) :
    Status × List Bool × List ℕ :=
  if flags.length < ksizes.length then (.InvalidArg, flags, [])
  else if migrated s then (.Migrated, flags, [])
  else
    let r := keysLoopIn keys (existsBody (find s) (mode.has .wait)) ksizes 0 []
    (r.1.getD .OK, r.2.1 ++ flags.drop r.2.1.length, r.2.2)

/-- `length`, over memory. -/
def lengthIn (mode : Mode) (s : σ) (keys : Memory) (ksizes vsizes : List ℕ) :
    Status × List ℕ × List ℕ :=
  if ksizes.length ≠ vsizes.length then (.InvalidArg, vsizes, [])
  else if migrated s then (.Migrated, vsizes, [])
  else
    let r := keysLoopIn keys (lengthBody (find s) (mode.has .wait)) ksizes 0 []
    (r.1.getD .OK, r.2.1 ++ vsizes.drop r.2.1.length, r.2.2)

/-- `erase`, over memory. -/
def eraseIn (mode : Mode) (s : σ) (keys : Memory) (ksizes : List ℕ) : Status × σ × List ℕ :=
  if migrated s then (.Migrated, s, [])
  else
    let r := keysLoopIn keys (eraseBody (mode.has .wait)) ksizes 0 s
    (r.1.getD .OK, r.2.1, r.2.2)

/-- As long as no sum wraps, these are the operations on the two buffers. -/
theorem callsIn_eq {mode : Mode} {s : σ} {keys vals : Memory} {ksizes vsizes : List ℕ}
    {flags : List Bool} (hk : ksizes.sum < 2 ^ 64) (hv : vsizes.sum < 2 ^ 64) :
    let buffer := bytesAt keys.bytes 0 keys.size.toNat
    let put := putIn mode s keys ksizes vals vsizes
    let exist := existsIn mode s keys ksizes flags
    let length := lengthIn mode s keys ksizes vsizes
    let erase := eraseIn mode s keys ksizes
    putWith migrated putBody mode s buffer ksizes (bytesAt vals.bytes 0 vals.size.toNat) vsizes =
        (put.1, put.2.1) ∧
      existsWith (find s) (migrated s) mode buffer ksizes flags = (exist.1, exist.2.1) ∧
      lengthWith (find s) (migrated s) mode buffer ksizes vsizes = (length.1, length.2.1) ∧
      eraseWith migrated eraseBody mode s buffer ksizes = (erase.1, erase.2.1) := by
  have hk0 : 0 + ksizes.sum < 2 ^ 64 := by omega
  refine ⟨?_, ?_, ?_, ?_⟩
  · have hkacc : accumulate ksizes = ksizes.sum := accumulate_eq hk
    have hvacc : accumulate vsizes = vsizes.sum := accumulate_eq hv
    unfold putIn putWith
    rw [hkacc, hvacc, length_bytesAt, length_bytesAt]
    split_ifs with hlen hksize hvsize
    · rfl
    · rfl
    · rfl
    · rfl
    · have hmaps : (ksizes.zip vsizes).map Prod.fst = ksizes ∧
          (ksizes.zip vsizes).map Prod.snd = vsizes :=
        ⟨List.map_fst_zip (by omega), List.map_snd_zip (by omega)⟩
      rw [pairsLoopIn_eq (by rw [hmaps.1]; omega) (by rw [hmaps.2]; omega)]
  · unfold existsIn existsWith
    rw [keysLoopIn_eq hk0]
    split_ifs <;> rfl
  · unfold lengthIn lengthWith
    rw [keysLoopIn_eq hk0]
    split_ifs <;> rfl
  · unfold eraseIn eraseWith
    rw [keysLoopIn_eq hk0]
    split_ifs <;> rfl

end Calls

/-! ### When the checks are sound -/

/-- The sizes of the keys that are gone through do not wrap around, or a running total is too
large. -/
def NoWrap (keys : Memory) (sizes : List ℕ) : Prop :=
  sizes.sum < 2 ^ 64 ∨ Exceeds keys.size.toNat sizes

/-- The sizes of a `put` do not wrap around, or are rejected. -/
def PutFits (migrated : Bool) (keys : Memory) (ksizes : List ℕ) (vals : Memory)
    (vsizes : List ℕ) : Prop :=
  ksizes.length ≠ vsizes.length ∨ keys.size.toNat < ksizes.sum % 2 ^ 64 ∨
    vals.size.toNat < vsizes.sum % 2 ^ 64 ∨
      (migrated = true ∨ ksizes.sum < 2 ^ 64) ∧ vsizes.sum < 2 ^ 64

section Bounds

variable {σ : Type} [InMemory σ]

theorem eraseBody_eq {c : Comparator} (wait : Bool) (key : Bytes) (s : MapDatabase c) :
    (eraseBody wait key s).1 = if wait ∧ find s key = none then some .TimedOut else none := by
  show (MapDatabase.eraseBody wait key s).1 =
    if wait ∧ s.find key = none then some .TimedOut else none
  unfold MapDatabase.eraseBody
  cases s.find key <;> cases wait <;> rfl

end Bounds

/-- A call of one of the five operations, with the sizes as they come in. -/
inductive BoundsCall (c : Comparator) where
  | put (mode : Mode) (s : MapDatabase c) (keys : Memory) (ksizes : List UInt64) (vals : Memory)
      (vsizes : List UInt64)
  | existsKeys (mode : Mode) (s : MapDatabase c) (keys : Memory) (ksizes : List UInt64)
      (flags : List Bool)
  | length (mode : Mode) (s : MapDatabase c) (keys : Memory) (ksizes vsizes : List UInt64)
  | erase (mode : Mode) (s : MapDatabase c) (keys : Memory) (ksizes : List UInt64)
  | unorderedPut (mode : Mode) (s : UnorderedMapDatabase) (keys : Memory) (ksizes : List UInt64)
      (vals : Memory) (vsizes : List UInt64)

namespace BoundsCall

variable {c : Comparator}

/-- Unless it is rejected, the call takes its keys from the buffer of the keys, and `put` is given
sizes of values that lie in the buffer of the values. -/
def Sound : BoundsCall c → Prop
  | put mode s keys ksizes vals vsizes =>
    let r := putIn mode s keys (ksizes.map UInt64.toNat) vals (vsizes.map UInt64.toNat)
    r.1 ≠ .InvalidArg → keys.Holds r.2.2 ∧ vals.Holds (vsizes.map UInt64.toNat)
  | existsKeys mode s keys ksizes flags =>
    let r := existsIn mode s keys (ksizes.map UInt64.toNat) flags
    r.1 ≠ .InvalidArg → keys.Holds r.2.2
  | length mode s keys ksizes vsizes =>
    let r := lengthIn mode s keys (ksizes.map UInt64.toNat) (vsizes.map UInt64.toNat)
    r.1 ≠ .InvalidArg → keys.Holds r.2.2
  | erase mode s keys ksizes =>
    let r := eraseIn mode s keys (ksizes.map UInt64.toNat)
    r.1 ≠ .InvalidArg → keys.Holds r.2.2
  | unorderedPut mode s keys ksizes vals vsizes =>
    let r := putIn mode s keys (ksizes.map UInt64.toNat) vals (vsizes.map UInt64.toNat)
    r.1 ≠ .InvalidArg → keys.Holds r.2.2 ∧ vals.Holds (vsizes.map UInt64.toNat)

/-- The sizes that count do not wrap around, or a check gives them away. -/
def Fits : BoundsCall c → Prop
  | put _ s keys ksizes vals vsizes =>
    PutFits s.migrated keys (ksizes.map UInt64.toNat) vals (vsizes.map UInt64.toNat)
  | existsKeys mode s keys ksizes flags =>
    flags.length < ksizes.length ∨ s.migrated = true ∨ NoWrap keys
      (sizesToAbsent keys (mode.has .wait) false (ksizes.map UInt64.toNat) 0 s.find)
  | length mode s keys ksizes vsizes =>
    ksizes.length ≠ vsizes.length ∨ s.migrated = true ∨ NoWrap keys
      (sizesToAbsent keys (mode.has .wait) false (ksizes.map UInt64.toNat) 0 s.find)
  | erase mode s keys ksizes =>
    s.migrated = true ∨ NoWrap keys
      (sizesToAbsent keys (mode.has .wait) true (ksizes.map UInt64.toNat) 0 s.find)
  | unorderedPut _ s keys ksizes vals vsizes =>
    PutFits s.migrated keys (ksizes.map UInt64.toNat) vals (vsizes.map UInt64.toNat)

end BoundsCall

end Yokan
