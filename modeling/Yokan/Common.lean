import Mathlib.Data.List.Basic
import Mathlib.Data.BitVec
import Mathlib.Tactic

/-!
# Yokan: statuses, sizes and modes

The vocabulary shared by the client, the server and the backends (`include/yokan/common.h`,
`include/yokan/backend.hpp`, `src/common/checks.h`).

* `Status`, the result of a backend function, and `ReturnCode`, that of a function of the client;
* the reserved sizes `keyNotFound`, `sizeTooSmall`, `noMoreKeys` and the largest proper size;
* `Mode`, the 32-bit mode word with its flags, and `checkModeValid`;
* `addSize`, `accumulate`: arithmetic on `size_t`, which wraps at `2 ^ 64`.
-/

namespace Yokan

/-- The contents of a memory region. -/
abbrev Bytes := List UInt8

/-- `yokan::Status`. -/
inductive Status
  | OK
  | InvalidType
  | InvalidConf
  | InvalidArg
  | InvalidID
  | NotFound
  | SizeError
  | KeyExists
  | NotSupported
  | Corruption
  | IOError
  | Incomplete
  | TimedOut
  | Aborted
  | Busy
  | Expired
  | TryAgain
  | System
  | Canceled
  | Permission
  | InvalidMode
  | Migrated
  | StopIteration
  | Other
  deriving DecidableEq, Repr

/-- `yk_return_t`. -/
inductive ReturnCode
  | SUCCESS
  | ERR_ALLOCATION
  | ERR_INVALID_MID
  | ERR_INVALID_ARGS
  | ERR_INVALID_PROVIDER
  | ERR_INVALID_DATABASE
  | ERR_INVALID_BACKEND
  | ERR_INVALID_CONFIG
  | ERR_INVALID_ID
  | ERR_INVALID_FILTER
  | ERR_FROM_MERCURY
  | ERR_FROM_ARGOBOTS
  | ERR_FROM_REMI
  | ERR_OP_UNSUPPORTED
  | ERR_OP_FORBIDDEN
  | ERR_KEY_NOT_FOUND
  | ERR_BUFFER_SIZE
  | ERR_KEY_EXISTS
  | ERR_CORRUPTION
  | ERR_IO
  | ERR_INCOMPLETE
  | ERR_TIMEOUT
  | ERR_ABORTED
  | ERR_BUSY
  | ERR_EXPIRED
  | ERR_TRY_AGAIN
  | ERR_SYSTEM
  | ERR_CANCELED
  | ERR_PERMISSION
  | ERR_MODE
  | ERR_NONCONTIG
  | ERR_READONLY
  | ERR_MIGRATED
  | ERR_MID_NOT_LISTENING
  | STOP_ITERATION
  | ERR_OTHER
  deriving DecidableEq, Repr

open ReturnCode in
/-- A status as a `yk_return_t`. -/
def Status.code : Status → ReturnCode
  | .OK => .SUCCESS
  | .InvalidType => .ERR_INVALID_BACKEND
  | .InvalidConf => .ERR_INVALID_CONFIG
  | .InvalidArg => .ERR_INVALID_ARGS
  | .InvalidID => .ERR_INVALID_ID
  | .NotFound => .ERR_KEY_NOT_FOUND
  | .SizeError => .ERR_BUFFER_SIZE
  | .KeyExists => .ERR_KEY_EXISTS
  | .NotSupported => .ERR_OP_UNSUPPORTED
  | .Corruption => .ERR_CORRUPTION
  | .IOError => ERR_IO
  | .Incomplete => .ERR_INCOMPLETE
  | .TimedOut => .ERR_TIMEOUT
  | .Aborted => .ERR_ABORTED
  | .Busy => .ERR_BUSY
  | .Expired => .ERR_EXPIRED
  | .TryAgain => .ERR_TRY_AGAIN
  | .System => .ERR_SYSTEM
  | .Canceled => .ERR_CANCELED
  | .Permission => .ERR_PERMISSION
  | .InvalidMode => .ERR_MODE
  | .Migrated => .ERR_MIGRATED
  | .StopIteration => .STOP_ITERATION
  | .Other => .ERR_OTHER

/-! ### Sizes -/

/-- `YOKAN_KEY_NOT_FOUND`: the size reported for an absent key. -/
def keyNotFound : ℕ := 2 ^ 64 - 1

/-- `YOKAN_SIZE_TOO_SMALL`: the size reported when the buffer cannot hold the value. -/
def sizeTooSmall : ℕ := 2 ^ 64 - 2

/-- `YOKAN_NO_MORE_KEYS`, and also `YOKAN_NO_MORE_DOCS`: the listing is exhausted. -/
def noMoreKeys : ℕ := 2 ^ 64 - 3

/-- `YOKAN_LAST_VALID_SIZE`: the largest number that is a size and not a mark. -/
def lastValidSize : ℕ := 2 ^ 64 - 4

theorem lastValidSize_lt_noMoreKeys : lastValidSize < noMoreKeys := by decide

theorem noMoreKeys_lt_sizeTooSmall : noMoreKeys < sizeTooSmall := by decide

theorem sizeTooSmall_lt_keyNotFound : sizeTooSmall < keyNotFound := by decide

/-- Addition of two values of type `size_t`. -/
def addSize (a b : ℕ) : ℕ := (a + b) % 2 ^ 64

/-- `std::accumulate` over an array of `size_t`. -/
def accumulate (sizes : List ℕ) : ℕ := sizes.foldl addSize 0

theorem addSize_eq {a b : ℕ} (h : a + b < 2 ^ 64) : addSize a b = a + b :=
  Nat.mod_eq_of_lt h

/-- Only the sum is reduced, in the end. -/
theorem accumulate_mod (sizes : List ℕ) : accumulate sizes = sizes.sum % 2 ^ 64 := by
  have hfold (a : ℕ) : sizes.foldl addSize (a % 2 ^ 64) = (a + sizes.sum) % 2 ^ 64 := by
    induction sizes generalizing a with
    | nil => simp
    | cons n ns ih =>
      rw [List.foldl_cons, addSize, Nat.mod_add_mod, ih, List.sum_cons, Nat.add_assoc]
  simpa [accumulate] using hfold 0

/-- A sum that wraps around is smaller than the sum. -/
theorem accumulate_le (sizes : List ℕ) : accumulate sizes ≤ sizes.sum := by
  rw [accumulate_mod]
  exact Nat.mod_le _ _

/-- A sum that fits a `size_t` is computed exactly. -/
theorem accumulate_eq {sizes : List ℕ} (h : sizes.sum < 2 ^ 64) : accumulate sizes = sizes.sum := by
  rw [accumulate_mod, Nat.mod_eq_of_lt h]

/-! ### Comparing memory -/

/-- `memcmp` of two regions of the same length. -/
def memcmp : Bytes → Bytes → Ordering
  | a :: as, b :: bs => if a < b then .lt else if b < a then .gt else memcmp as bs
  | _, _ => .eq

theorem memcmp_eq_iff {a b : Bytes} (h : a.length = b.length) : memcmp a b = .eq ↔ a = b := by
  induction a generalizing b with
  | nil => simp_all [memcmp, eq_comm]
  | cons x xs ih =>
    cases b with
    | nil => simp at h
    | cons y ys =>
      rw [memcmp, List.cons.injEq, ← ih (by simpa using h)]
      rcases Std.lt_trichotomy x y with hxy | rfl | hyx
      · have hne : x ≠ y := fun he => Std.lt_irrefl (he ▸ hxy)
        simp [hxy, hne]
      · simp
      · have hne : x ≠ y := fun he => Std.lt_irrefl (he ▸ hyx)
        have hnlt : ¬ x < y := fun hxy => Std.lt_irrefl (Std.lt_trans hxy hyx)
        simp [hyx, hne, hnlt]

theorem memcmp_eq_gt {a b : Bytes} (h : memcmp a b = .gt) : b < a := by
  induction a generalizing b with
  | nil => simp [memcmp] at h
  | cons x xs ih =>
    cases b with
    | nil => simp [memcmp] at h
    | cons y ys =>
      rw [memcmp] at h
      rw [List.cons_lt_cons_iff]
      split_ifs at h with hxy hyx
      · exact Or.inl hyx
      · refine Or.inr ⟨?_, ih h⟩
        exact Std.le_antisymm (Std.not_lt.1 hxy) (Std.not_lt.1 hyx)

/-- Two regions of one length compare as they do whatever follows them. -/
theorem append_lt_append {a b : Bytes} (hlen : a.length = b.length) (h : a < b) (s t : Bytes) :
    a ++ s < b ++ t := by
  induction a generalizing b with
  | nil =>
    cases b with
    | nil => exact absurd h (by simp)
    | cons y ys => simp at hlen
  | cons x xs ih =>
    cases b with
    | nil => simp at hlen
    | cons y ys =>
      rw [List.cons_lt_cons_iff] at h
      rw [List.cons_append, List.cons_append, List.cons_lt_cons_iff]
      rcases h with h | ⟨rfl, h⟩
      · exact Or.inl h
      · exact Or.inr ⟨rfl, ih (by simpa using hlen) h⟩

/-- Appending to two regions of one length makes their order lexicographic. -/
theorem append_lt_append_iff {a b : Bytes} (hlen : a.length = b.length) (s t : Bytes) :
    a ++ s < b ++ t ↔ a < b ∨ a = b ∧ s < t := by
  constructor
  · intro h
    rcases Std.lt_trichotomy a b with hab | rfl | hba
    · exact Or.inl hab
    · refine Or.inr ⟨rfl, ?_⟩
      rcases Std.lt_trichotomy s t with hst | rfl | hts
      · exact hst
      · exact absurd h Std.lt_irrefl
      · exact absurd (Std.lt_trans h (List.append_left_lt hts)) Std.lt_irrefl
    · exact absurd (Std.lt_trans h (append_lt_append hlen.symm hba t s)) Std.lt_irrefl
  · rintro (h | ⟨rfl, h⟩)
    · exact append_lt_append hlen h s t
    · exact List.append_left_lt h

/-! ### Modes -/

/-- A mode word (`int32_t`). -/
abbrev Mode := BitVec 32

namespace Mode

/-- `mode & flag`, as a condition. -/
def has (mode flag : Mode) : Bool := mode &&& flag != 0#32

def default : Mode := 0b0000000000000000#32
def inclusive : Mode := 0b0000000000000001#32
def append : Mode := 0b0000000000000010#32
def consume : Mode := 0b0000000000000100#32
/-- `YOKAN_MODE_WAIT` of the readers and `YOKAN_MODE_NOTIFY` of the writers are the same bit. -/
def wait : Mode := 0b0000000000001000#32
def notify : Mode := 0b0000000000001000#32
def newOnly : Mode := 0b0000000000010000#32
def existOnly : Mode := 0b0000000000100000#32
def noPrefix : Mode := 0b0000000001000000#32
def ignoreKeys : Mode := 0b0000000010000000#32
/-- `YOKAN_MODE_KEEP_LAST` contains the bit of `YOKAN_MODE_IGNORE_KEYS`. -/
def keepLast : Mode := 0b0000000110000000#32
def suffix : Mode := 0b0000001000000000#32
def luaFilter : Mode := 0b0000010000000000#32
def ignoreDocs : Mode := 0b0000100000000000#32
def filterValue : Mode := 0b0001000000000000#32
def libFilter : Mode := 0b0010000000000000#32
def noRdma : Mode := 0b0100000000000000#32
def updateNew : Mode := 0b1000000000000000#32

@[simp] theorem has_default (flag : Mode) : default.has flag = false := by
  simp [has, default]

/-- Setting other flags does not change a flag. -/
theorem has_or_of_disjoint {other flag : Mode} (h : other &&& flag = 0#32) (mode : Mode) :
    (mode ||| other).has flag = mode.has flag := by
  rw [has, has, BitVec.and_or_distrib_right, h, BitVec.or_zero]

theorem has_or_self {flag : Mode} (h : flag ≠ 0#32) (mode : Mode) :
    (mode ||| flag).has flag = true := by
  have hself : (mode ||| flag) &&& flag = flag := by
    ext i hi
    simpa using fun hf => Or.inr hf
  rw [has, hself]
  simpa using h

/-- A flag that is supported makes no difference to the modes that are supported. -/
theorem or_eq_and_iff {supported flag : Mode} (h : flag &&& supported = flag) (mode : Mode) :
    mode ||| flag = (mode ||| flag) &&& supported ↔ mode = mode &&& supported := by
  constructor
  · intro heq
    have habsorb : mode &&& (mode ||| flag) = mode := by
      rw [BitVec.and_or_distrib_left, BitVec.and_self]
      ext i hi
      simpa using fun hm _ => hm
    calc mode = mode &&& ((mode ||| flag) &&& supported) := by rw [← heq, habsorb]
      _ = mode &&& supported := by rw [← BitVec.and_assoc, habsorb]
  · intro heq
    rw [BitVec.and_or_distrib_right, h, ← heq]

end Mode

/-- `incompatible_modes`, without its closing pair of zeros. -/
def incompatibleModes : List (Mode × Mode) :=
  [(.append, .newOnly), (.newOnly, .existOnly), (.suffix, .luaFilter), (.libFilter, .suffix),
    (.luaFilter, .libFilter)]

/-- `CHECK_MODE_VALID`: no two incompatible flags are given together. -/
def checkModeValid (mode : Mode) : Bool :=
  incompatibleModes.all (fun p => !(mode.has p.1 && mode.has p.2))

theorem checkModeValid_append_newOnly {mode : Mode} (h : checkModeValid mode) :
    ¬ (mode.has .append ∧ mode.has .newOnly) := by
  simp only [checkModeValid, incompatibleModes, List.all_cons, Bool.and_eq_true] at h
  simpa [imp_iff_not_or] using h.1

theorem checkModeValid_newOnly_existOnly {mode : Mode} (h : checkModeValid mode) :
    ¬ (mode.has .newOnly ∧ mode.has .existOnly) := by
  simp only [checkModeValid, incompatibleModes, List.all_cons, Bool.and_eq_true] at h
  simpa [imp_iff_not_or] using h.2.1

/-- `YOKAN_MODE_NO_RDMA` is compatible with every flag. -/
theorem checkModeValid_noRdma (mode : Mode) :
    checkModeValid (mode ||| .noRdma) = checkModeValid mode := by
  have hdisjoint : ∀ p ∈ incompatibleModes,
      Mode.noRdma &&& p.1 = 0#32 ∧ Mode.noRdma &&& p.2 = 0#32 := by
    rw [incompatibleModes]
    simp only [List.forall_mem_cons, List.not_mem_nil, false_imp_iff, imp_true_iff, and_true]
    decide
  rw [checkModeValid, checkModeValid, Bool.eq_iff_iff, List.all_eq_true, List.all_eq_true]
  refine forall₂_congr fun p hp => ?_
  rw [Mode.has_or_of_disjoint (hdisjoint p hp).1, Mode.has_or_of_disjoint (hdisjoint p hp).2]

end Yokan
