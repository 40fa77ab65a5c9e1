import Yokan.Common
import Yokan.Library.Buffer
import Yokan.Library.PartialMap

/-!
# Yokan: the backend interface

`DatabaseInterface` (`include/yokan/backend.hpp`) with the key/value operations that the rest of
the model goes through. Keys and values travel packed: a buffer that holds them one after the
other, and the array of their sizes. The loops over such buffers, with the checks and the
early exits that the backends share, are stated once here; a backend instantiates them with its
own container.

`FiniteMapStore` says what it means for a backend to behave as a finite map from keys to values:
each operation, seen through `contents`, is the operation on partial maps, with the statuses the
backends return.
-/

namespace Yokan

open Buffer PartialMap

/-! ### Loops over packed keys and values -/

section Loops

variable {σ : Type}

/-- A loop over packed keys. With `checked`, a key that would end past the buffer is refused. -/
def keysLoop (checked : Bool) (body : Bytes → σ → Option Status × σ) (keys : Bytes) :
    List ℕ → ℕ → σ → Option Status × σ
  | [], _, s => (none, s)
  | ksize :: ksizes, offset, s =>
    if checked ∧ keys.length < addSize offset ksize then (some .InvalidArg, s)
    else
      match body (slice keys offset ksize) s with
      | (some status, s) => (some status, s)
      | (none, s) => keysLoop checked body keys ksizes (addSize offset ksize) s

/-- A loop over packed keys and values. -/
def pairsLoop (body : Bytes × Bytes → σ → Option Status × σ) (keys vals : Bytes) :
    List (ℕ × ℕ) → ℕ → ℕ → σ → Option Status × σ
  | [], _, _, s => (none, s)
  | (ksize, vsize) :: sizes, keyOffset, valOffset, s =>
    match body (slice keys keyOffset ksize, slice vals valOffset vsize) s with
    | (some status, s) => (some status, s)
    | (none, s) =>
      pairsLoop body keys vals sizes (addSize keyOffset ksize) (addSize valOffset vsize) s

theorem keysLoop_eq_of_offset (checked : Bool) (body : Bytes → σ → Option Status × σ)
    (keys : Bytes) (ksizes : List ℕ) (offset : ℕ) (s : σ) (hlt : offset + ksizes.sum < 2 ^ 64)
    (hle : offset + ksizes.sum ≤ keys.length) :
    keysLoop checked body keys ksizes offset s =
      eachRecord body (unpack (keys.drop offset) ksizes) s := by
  induction ksizes generalizing offset s with
  | nil => rfl
  | cons k ks ih =>
    rw [List.sum_cons] at hlt hle
    have hadd : addSize offset k = offset + k := addSize_eq (by omega)
    have hin : ¬ (checked = true ∧ keys.length < offset + k) := fun h => by omega
    simp only [keysLoop, hadd, if_neg hin, unpack_cons, eachRecord, slice, List.drop_drop]
    rcases body ((keys.drop offset).take k) s with ⟨_ | st, s'⟩
    · exact ih (offset + k) s' (by omega) (by omega)
    · rfl

/-- When the sizes do not wrap and stay within the buffer, a loop over packed keys is a loop over
the keys. -/
theorem keysLoop_eq {checked : Bool} {body : Bytes → σ → Option Status × σ} {keys : Bytes}
    {ksizes : List ℕ} {s : σ} (hlt : ksizes.sum < 2 ^ 64) (hle : ksizes.sum ≤ keys.length) :
    keysLoop checked body keys ksizes 0 s = eachRecord body (unpack keys ksizes) s := by
  have h := keysLoop_eq_of_offset checked body keys ksizes 0 s (by omega) (by omega)
  rwa [List.drop_zero] at h

theorem pairsLoop_eq_of_offset (body : Bytes × Bytes → σ → Option Status × σ) (keys vals : Bytes)
    (ksizes vsizes : List ℕ) (ko vo : ℕ) (s : σ) (hlen : ksizes.length = vsizes.length)
    (hk : ko + ksizes.sum < 2 ^ 64) (hv : vo + vsizes.sum < 2 ^ 64) :
    pairsLoop body keys vals (ksizes.zip vsizes) ko vo s =
      eachRecord body
        ((unpack (keys.drop ko) ksizes).zip (unpack (vals.drop vo) vsizes)) s := by
  induction ksizes generalizing vsizes ko vo s with
  | nil => rfl
  | cons k ks ih =>
    cases vsizes with
    | nil => simp at hlen
    | cons v vs =>
      rw [List.sum_cons] at hk hv
      have hka : addSize ko k = ko + k := addSize_eq (by omega)
      have hva : addSize vo v = vo + v := addSize_eq (by omega)
      simp only [List.zip_cons_cons, pairsLoop, hka, hva, unpack_cons, eachRecord, slice,
        List.drop_drop]
      rcases body ((keys.drop ko).take k, (vals.drop vo).take v) s with ⟨_ | st, s'⟩
      · exact ih vs (ko + k) (vo + v) s' (by simpa using hlen) (by omega) (by omega)
      · rfl

/-- When the sizes do not wrap, a loop over packed pairs is a loop over the pairs. -/
theorem pairsLoop_eq {body : Bytes × Bytes → σ → Option Status × σ} {keys vals : Bytes}
    {ksizes vsizes : List ℕ} {s : σ} (hlen : ksizes.length = vsizes.length)
    (hk : ksizes.sum < 2 ^ 64) (hv : vsizes.sum < 2 ^ 64) :
    pairsLoop body keys vals (ksizes.zip vsizes) 0 0 s =
      eachRecord body ((unpack keys ksizes).zip (unpack vals vsizes)) s := by
  have h := pairsLoop_eq_of_offset body keys vals ksizes vsizes 0 0 s hlen (by omega) (by omega)
  rwa [List.drop_zero, List.drop_zero] at h

end Loops

/-! ### What the readers report -/

/-- The size reported for an entry. -/
def entrySize : Option Bytes → ℕ
  | none => keyNotFound
  | some v => v.length

/-- Copy `src` to offset `off` of a buffer when it fits in `room` bytes, and report its size. -/
def copyOut (dst : Bytes) (off room : ℕ) (src : Bytes) : ℕ × Bytes :=
  if room < src.length then (sizeTooSmall, dst) else (src.length, blit dst off src)

/-- What a reader leaves in the caller's memory: the value buffer, `vals.size` and `vsizes`. -/
structure GetOutput where
  vals : Bytes
  valsSize : ℕ
  vsizes : List ℕ
  deriving DecidableEq

/-- A packed buffer holds the records its sizes announce, and their total size is a `size_t`. -/
def Packed (buffer : Bytes) (sizes : List ℕ) : Prop :=
  sizes.sum ≤ buffer.length ∧ sizes.sum < 2 ^ 64

instance (buffer : Bytes) (sizes : List ℕ) : Decidable (Packed buffer sizes) :=
  inferInstanceAs (Decidable (_ ∧ _))

theorem packed_singleton {b : Bytes} (h : b.length < 2 ^ 64) : Packed b [b.length] := by
  constructor
  · simp
  · simpa using h

/-- The parts of a packed buffer are no longer than a `size_t` can say. -/
theorem Packed.length_lt {buffer : Bytes} {sizes : List ℕ} (h : Packed buffer sizes) {b : Bytes}
    (hb : b ∈ unpack buffer sizes) : b.length < 2 ^ 64 := by
  have hmem : b.length ∈ sizes := by
    rw [← map_length_unpack h.1]
    exact List.mem_map_of_mem hb
  exact lt_of_le_of_lt (List.single_le_sum (by simp) _ hmem) h.2

/-- The sizes and the bytes a packed `get` reports for a list of keys: values are copied one
after the other until one does not fit in the remaining `room`. -/
def packedValues (m : Bytes → Option Bytes) : List Bytes → ℕ → Bool → List ℕ × Bytes
  | [], _, _ => ([], [])
  | k :: ks, room, full =>
    match m k with
    | none => let r := packedValues m ks room full; (keyNotFound :: r.1, r.2)
    | some v =>
      if full ∨ room < v.length then
        let r := packedValues m ks room true; (sizeTooSmall :: r.1, r.2)
      else
        let r := packedValues m ks (room - v.length) full; (v.length :: r.1, v ++ r.2)

theorem length_packedValues_le (m : Bytes → Option Bytes) (ks : List Bytes) (room : ℕ)
    (full : Bool) : (packedValues m ks room full).2.length ≤ room := by
  induction ks generalizing room full with
  | nil => simp [packedValues]
  | cons k ks ih =>
    unfold packedValues
    cases m k with
    | none => exact ih room full
    | some v =>
      simp only
      split_ifs with h
      · exact ih room true
      · have := ih (room - v.length) full
        simp only [List.length_append]
        omega

theorem length_packedValues (m : Bytes → Option Bytes) (ks : List Bytes) (room : ℕ)
    (full : Bool) : (packedValues m ks room full).1.length = ks.length := by
  induction ks generalizing room full with
  | nil => rfl
  | cons k ks ih =>
    unfold packedValues
    cases m k with
    | none => simp [ih]
    | some v => simp only; split_ifs <;> simp [ih]

/-- In a buffer that is large enough, all the values are there. -/
theorem packedValues_of_le (m : Bytes → Option Bytes) (ks : List Bytes) {room : ℕ}
    (h : (ks.filterMap m).flatten.length ≤ room) :
    packedValues m ks room false =
      (ks.map (fun k => entrySize (m k)), (ks.filterMap m).flatten) := by
  induction ks generalizing room with
  | nil => rfl
  | cons k ks ih =>
    unfold packedValues
    cases hk : m k with
    | none =>
      rw [List.filterMap_cons_none hk] at h ⊢
      simp only [ih h, List.map_cons, hk, entrySize]
    | some v =>
      rw [List.filterMap_cons_some hk, List.flatten_cons] at h ⊢
      rw [List.length_append] at h
      have hroom : ¬ (False ∨ room < v.length) := by
        rw [false_or, Nat.not_lt]
        exact le_trans (Nat.le_add_right _ _) h
      have hrest : (ks.filterMap m).flatten.length ≤ room - v.length := Nat.le_sub_of_add_le' h
      simp only [Bool.false_eq_true, hroom, if_false, ih hrest, List.map_cons, hk, entrySize]

/-- The size reported for a value that has its own slot. -/
def slotSize (slot : ℕ) : Option Bytes → ℕ
  | none => keyNotFound
  | some v => if slot < v.length then sizeTooSmall else v.length

/-! ### The interface -/

/-- The result of `get`. -/
structure GetResult (σ : Type) where
  status : Status
  db : σ
  out : GetOutput

/-- The operations of `DatabaseInterface` on keys and values, for databases with states in `σ`.
A value handed to a callback is `none` where the code passes `{nullptr, KeyNotFound}`; the
callback carries the variables it captures in `υ`. -/
class DatabaseInterface (σ : Type) where
  isSorted : Bool
  supportsMode : Mode → Bool
  existsKeys : Mode → σ → Bytes → List ℕ → List Bool → Status × List Bool
  length : Mode → σ → Bytes → List ℕ → List ℕ → Status × List ℕ
  put : Mode → σ → Bytes → List ℕ → Bytes → List ℕ → Status × σ
  get : Mode → Bool → σ → Bytes → List ℕ → Bytes → List ℕ → GetResult σ
  fetch : {υ : Type} → Mode → σ → Bytes → List ℕ → (υ → Bytes → Option Bytes → Status × υ) → υ →
    Status × σ × υ
  erase : Mode → σ → Bytes → List ℕ → Status × σ

/-! ### Behaving as a finite map -/

/-- What `put` does to one entry, by mode. `YOKAN_MODE_NEW_ONLY` is looked at first, then
`YOKAN_MODE_EXIST_ONLY`, then `YOKAN_MODE_APPEND`. -/
def putRule (mode : Mode) (old : Option Bytes) (val : Bytes) : Option Bytes :=
  if mode.has .newOnly then some (old.getD val)
  else if mode.has .existOnly then
    old.map (fun v => if mode.has .append then v ++ val else val)
  else if mode.has .append then some (old.getD [] ++ val)
  else some val

/-- The status of `put`: a batch of one pair is told when its key is in the way or missing. -/
def putStatus {κ ν : Type} (mode : Mode) (m : κ → Option ν) (ps : List (κ × ν)) : Status :=
  match ps with
  | [p] =>
    if mode.has .newOnly then if (m p.1).isSome then .KeyExists else .OK
    else if mode.has .existOnly then if (m p.1).isSome then .OK else .NotFound
    else .OK
  | _ => .OK

/-- The status of a batch of renamed keys, seen through the renaming. -/
theorem putStatus_comap {ι κ ν : Type} (f : ι → κ) (mode : Mode) (m : κ → Option ν)
    (ps : List (ι × ν)) :
    putStatus mode m (ps.map (Prod.map f id)) = putStatus mode (fun i => m (f i)) ps := by
  match ps with
  | [] => rfl
  | [p] => rfl
  | _ :: _ :: _ => rfl

/-- Neither `YOKAN_MODE_NEW_ONLY` nor a missing `YOKAN_MODE_EXIST_ONLY` lets a put create keys. -/
def onlyExisting (mode : Mode) : Bool := mode.has .existOnly && !mode.has .newOnly

theorem putRule_filling {mode : Mode} (h : onlyExisting mode = false) : Filling (putRule mode) := by
  intro old val
  unfold putRule
  by_cases hnew : mode.has .newOnly = true
  · simp [hnew]
  · have hexist : mode.has .existOnly = false := by simpa [onlyExisting, hnew] using h
    simp only [hnew, hexist, Bool.false_eq_true, if_false]
    split_ifs <;> rfl

theorem putRule_keeping {mode : Mode} (h : onlyExisting mode = true) : Keeping (putRule mode) := by
  intro old val
  simp only [onlyExisting, Bool.and_eq_true, Bool.not_eq_true'] at h
  unfold putRule
  rw [h.2, if_neg Bool.false_ne_true, if_pos h.1, Option.isSome_map]

/-- A put that is refused changes nothing. -/
theorem writeAll_of_putStatus_ne {κ : Type} [DecidableEq κ] {mode : Mode} {m : κ → Option Bytes}
    {ps : List (κ × Bytes)} (h : putStatus mode m ps ≠ .OK) :
    writeAll (putRule mode) m ps = m := by
  match ps with
  | [] => rfl
  | [p] =>
    suffices putRule mode (m p.1) p.2 = m p.1 by
      rw [writeAll_cons, writeAll_nil, this, Function.update_eq_self]
    simp only [putStatus] at h
    cases hp : m p.1 with
    | none => split_ifs at h with hn he <;> simp_all [putRule]
    | some v => split_ifs at h with hn he <;> simp_all [putRule]
  | _ :: _ :: _ => exact absurd rfl h

/-- The backends that behave as a finite map. `contents` is what a client can learn about a
database, and `Serving` the condition under which it answers at all. -/
class FiniteMapStore (σ : Type) extends DatabaseInterface σ where
  contents : σ → Bytes → Option Bytes
  Serving : σ → Prop
  existsKeys_eq {mode : Mode} {s : σ} {keys : Bytes} {ksizes : List ℕ} {flags : List Bool} :
    Serving s → mode.has .wait = false → Packed keys ksizes → ksizes.length ≤ flags.length →
    existsKeys mode s keys ksizes flags =
      (.OK, (unpack keys ksizes).map (fun k => (contents s k).isSome) ++ flags.drop ksizes.length)
  existsKeys_invalid {mode : Mode} {s : σ} {keys : Bytes} {ksizes : List ℕ} {flags : List Bool} :
    flags.length < ksizes.length → existsKeys mode s keys ksizes flags = (.InvalidArg, flags)
  length_eq {mode : Mode} {s : σ} {keys : Bytes} {ksizes vsizes : List ℕ} :
    Serving s → mode.has .wait = false → Packed keys ksizes → ksizes.length = vsizes.length →
    length mode s keys ksizes vsizes =
      (.OK, (unpack keys ksizes).map (fun k => entrySize (contents s k)))
  put_status {mode : Mode} {s : σ} {keys vals : Bytes} {ksizes vsizes : List ℕ} :
    Serving s → Packed keys ksizes → Packed vals vsizes → ksizes.length = vsizes.length →
    (put mode s keys ksizes vals vsizes).1 =
      putStatus mode (contents s) ((unpack keys ksizes).zip (unpack vals vsizes))
  put_contents {mode : Mode} {s : σ} {keys vals : Bytes} {ksizes vsizes : List ℕ} :
    Serving s → Packed keys ksizes → Packed vals vsizes → ksizes.length = vsizes.length →
    Serving (put mode s keys ksizes vals vsizes).2 ∧
      contents (put mode s keys ksizes vals vsizes).2 =
        writeAll (putRule mode) (contents s) ((unpack keys ksizes).zip (unpack vals vsizes))
  put_invalid {mode : Mode} {s : σ} {keys vals : Bytes} {ksizes vsizes : List ℕ} :
    ksizes.sum < 2 ^ 64 → vsizes.sum < 2 ^ 64 →
    ksizes.length ≠ vsizes.length ∨ vals.length < vsizes.sum →
    put mode s keys ksizes vals vsizes = (.InvalidArg, s)
  get_contents {mode : Mode} {packed : Bool} {s : σ} {keys vals : Bytes} {ksizes vsizes : List ℕ} :
    Serving s → mode.has .wait = false → Packed keys ksizes → ksizes.length = vsizes.length →
    (get mode packed s keys ksizes vals vsizes).status = .OK ∧
      Serving (get mode packed s keys ksizes vals vsizes).db ∧
      contents (get mode packed s keys ksizes vals vsizes).db =
        if mode.has .consume then eraseAll (contents s) (unpack keys ksizes) else contents s
  get_invalid {mode : Mode} {packed : Bool} {s : σ} {keys vals : Bytes} {ksizes vsizes : List ℕ} :
    ksizes.length ≠ vsizes.length →
    (get mode packed s keys ksizes vals vsizes).status = .InvalidArg ∧
      (get mode packed s keys ksizes vals vsizes).db = s
  get_packed {mode : Mode} {s : σ} {keys vals : Bytes} {ksizes vsizes : List ℕ} :
    Serving s → mode.has .wait = false → Packed keys ksizes → ksizes.length = vsizes.length →
    vals.length ≤ lastValidSize →
    let r := packedValues (contents s) (unpack keys ksizes) vals.length false
    (get mode true s keys ksizes vals vsizes).out = ⟨blit vals 0 r.2, r.2.length, r.1⟩
  fetch_eq {υ : Type} {mode : Mode} {s : σ} {keys : Bytes} {ksizes : List ℕ}
    {func : υ → Bytes → Option Bytes → Status × υ} {u : υ} :
    Serving s → mode.has .wait = false → mode.has .consume = false → Packed keys ksizes →
    (∀ u k v, (func u k v).1 = .OK) →
    fetch mode s keys ksizes func u =
      (.OK, s, (unpack keys ksizes).foldl (fun u k => (func u k (contents s k)).2) u)
  erase_eq {mode : Mode} {s : σ} {keys : Bytes} {ksizes : List ℕ} :
    Serving s → mode.has .wait = false → Packed keys ksizes →
    (erase mode s keys ksizes).1 = .OK ∧ Serving (erase mode s keys ksizes).2 ∧
      contents (erase mode s keys ksizes).2 = eraseAll (contents s) (unpack keys ksizes)

section Single

variable {σ : Type} [FiniteMapStore σ]

open DatabaseInterface FiniteMapStore

/-- Putting one pair. -/
def putOne (mode : Mode) (s : σ) (p : Bytes × Bytes) : σ :=
  (put mode s p.1 [p.1.length] p.2 [p.2.length]).2

/-- Putting the pairs of a list one by one applies the rule of the mode from left to right. -/
theorem contents_foldl_putOne (mode : Mode) (ps : List (Bytes × Bytes)) {s : σ} (hs : Serving s)
    (hps : ∀ p ∈ ps, p.1.length < 2 ^ 64 ∧ p.2.length < 2 ^ 64) :
    contents (ps.foldl (putOne mode) s) = writeAll (putRule mode) (contents s) ps := by
  induction ps generalizing s with
  | nil => rfl
  | cons p ps ih =>
    obtain ⟨hk, hv⟩ := hps p List.mem_cons_self
    have hput : Serving (putOne mode s p) ∧ contents (putOne mode s p) =
        writeAll (putRule mode) (contents s) ((unpack p.1 [p.1.length]).zip
          (unpack p.2 [p.2.length])) :=
      put_contents hs (packed_singleton hk) (packed_singleton hv) rfl
    rw [List.foldl_cons, ih hput.1 (fun q hq => hps q (List.mem_cons_of_mem p hq)), writeAll_cons,
      hput.2]
    simp

end Single

end Yokan
