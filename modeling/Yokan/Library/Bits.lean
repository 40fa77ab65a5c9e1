import Mathlib.Tactic

/-!
# Bits in bytes

A list of bytes used as an array of bits: bit `i` is in byte `i / 8`, behind the mask
`1 << (i % 8)`. `readBits` reads the first bits of such an array, `writeBits` writes some bits over
the first ones.

* `getBit_setBit`: what a bit is after a write;
* `readBits_writeBits`: bits that have been written are read back.
-/

namespace Bits

/-- `1 << (i % 8)`. -/
def mask (i : ℕ) : UInt8 := 1 <<< UInt8.ofNat (i % 8)

/-- Bit `i`; beyond the end it is `false`. -/
def getBit (bytes : List UInt8) (i : ℕ) : Bool := (bytes[i / 8]?).any fun b => b &&& mask i != 0

/-- One byte after a write to bit `i`. -/
def setByte (i : ℕ) (v : Bool) (b : UInt8) : UInt8 := if v then b ||| mask i else b &&& ~~~mask i

/-- Bit `i` set to `v`; beyond the end nothing happens. -/
def setBit (bytes : List UInt8) (i : ℕ) (v : Bool) : List UInt8 :=
  bytes.modify (i / 8) (setByte i v)

/-- The first `n` bits. -/
def readBits (n : ℕ) (bytes : List UInt8) : List Bool := (List.range n).map (getBit bytes)

/-- Bits from bit `start` on are overwritten. -/
def writeBitsFrom : List UInt8 → ℕ → List Bool → List UInt8
  | bytes, _, [] => bytes
  | bytes, start, v :: vs => writeBitsFrom (setBit bytes start v) (start + 1) vs

/-- The first bits are overwritten. -/
def writeBits (bytes : List UInt8) (vs : List Bool) : List UInt8 := writeBitsFrom bytes 0 vs

/-! ### One byte -/

theorem toBitVec_mask (i : ℕ) : (mask i).toBitVec = BitVec.twoPow 8 (i % 8) := by
  have hlt : i % 8 < 8 := Nat.mod_lt i (by decide)
  have hall : ∀ k < 8, (mask k).toBitVec = BitVec.twoPow 8 k := by decide
  have hmask : mask i = mask (i % 8) := by rw [mask, mask, Nat.mod_mod]
  rw [hmask, hall _ hlt]

/-- A mask looks at one bit of a byte. -/
theorem and_mask_ne_zero (b : UInt8) (i : ℕ) :
    (b &&& mask i != 0) = b.toBitVec.getLsbD (i % 8) := by
  have hlt : i % 8 < 8 := Nat.mod_lt i (by decide)
  have hpos : BitVec.twoPow 8 (i % 8) ≠ 0#8 := by
    have hall : ∀ k < 8, BitVec.twoPow 8 k ≠ 0#8 := by decide
    exact hall _ hlt
  have hiff : b &&& mask i = 0 ↔ b.toBitVec &&& BitVec.twoPow 8 (i % 8) = 0#8 := by
    rw [← toBitVec_mask, ← UInt8.toBitVec_and]
    exact ⟨fun h => congrArg UInt8.toBitVec h, fun h => UInt8.toBitVec_inj.1 h⟩
  rw [Bool.eq_iff_iff, bne_iff_ne, ne_eq, hiff, BitVec.and_twoPow]
  split_ifs with h <;> simp [h, hpos]

/-- The bits of a byte after a write. -/
theorem setByte_and_mask (b : UInt8) (v : Bool) (i j : ℕ) :
    (setByte i v b &&& mask j != 0) = if j % 8 = i % 8 then v else b &&& mask j != 0 := by
  have hlt : j % 8 < 8 := Nat.mod_lt j (by decide)
  rw [and_mask_ne_zero, and_mask_ne_zero, setByte]
  cases v <;>
    simp only [Bool.false_eq_true, if_false, if_true, UInt8.toBitVec_or, UInt8.toBitVec_and,
      UInt8.toBitVec_not, toBitVec_mask, BitVec.getLsbD_or, BitVec.getLsbD_and, BitVec.getLsbD_not,
      BitVec.getLsbD_twoPow] <;>
    split_ifs with h <;> simp [h, hlt] <;> omega

/-! ### An array of bits -/

@[simp] theorem length_setBit (bytes : List UInt8) (i : ℕ) (v : Bool) :
    (setBit bytes i v).length = bytes.length := List.length_modify _ _ _

/-- A write to one bit of the array leaves the others as they are. -/
theorem getBit_setBit {bytes : List UInt8} {i : ℕ} (h : i / 8 < bytes.length) (v : Bool) (j : ℕ) :
    getBit (setBit bytes i v) j = if j = i then v else getBit bytes j := by
  unfold getBit setBit
  rw [List.getElem?_modify]
  rcases Nat.lt_or_ge (j / 8) bytes.length with hj | hj
  · rw [List.getElem?_eq_getElem hj]
    by_cases hbyte : i / 8 = j / 8
    · -- two bits of one byte differ in their positions in it
      have hbit : j % 8 = i % 8 ↔ j = i := by omega
      simp only [hbyte, if_true, Option.map_eq_map, Option.map_some, Option.any_some,
        setByte_and_mask, hbit]
    · have hne : j ≠ i := fun heq => hbyte (by rw [heq])
      simp only [if_neg hbyte, if_neg hne]
      rfl
  · have hne : j ≠ i := fun heq => absurd h (by rw [← heq]; omega)
    simp [List.getElem?_eq_none hj, hne]

@[simp] theorem length_writeBitsFrom (bytes : List UInt8) (start : ℕ) (vs : List Bool) :
    (writeBitsFrom bytes start vs).length = bytes.length := by
  induction vs generalizing bytes start with
  | nil => rfl
  | cons v vs ih => rw [writeBitsFrom, ih, length_setBit]

@[simp] theorem length_writeBits (bytes : List UInt8) (vs : List Bool) :
    (writeBits bytes vs).length = bytes.length := length_writeBitsFrom bytes 0 vs

@[simp] theorem length_readBits (n : ℕ) (bytes : List UInt8) : (readBits n bytes).length = n := by
  rw [readBits, List.length_map, List.length_range]

theorem getElem?_readBits {n i : ℕ} (h : i < n) (bytes : List UInt8) :
    (readBits n bytes)[i]? = some (getBit bytes i) := by
  rw [readBits, List.getElem?_map, List.getElem?_range h, Option.map_some]

/-- The bits of an array after a write of several. -/
theorem getBit_writeBitsFrom {bytes : List UInt8} {vs : List Bool} {start : ℕ}
    (h : start + vs.length ≤ 8 * bytes.length) (j : ℕ) :
    getBit (writeBitsFrom bytes start vs) j =
      if start ≤ j ∧ j < start + vs.length then vs.getD (j - start) false else getBit bytes j := by
  induction vs generalizing bytes start with
  | nil =>
    rw [List.length_nil, Nat.add_zero, if_neg (by omega)]
    rfl
  | cons v vs ih =>
    rw [List.length_cons] at h
    rw [writeBitsFrom, ih (by rw [length_setBit]; omega), getBit_setBit (by omega), List.length_cons]
    rcases lt_trichotomy j start with hlt | rfl | hgt
    · rw [if_neg (by omega), if_neg (by omega), if_neg (by omega)]
    · rw [if_neg (by omega), if_pos rfl, if_pos (by omega), Nat.sub_self, List.getD_cons_zero]
    · by_cases hin : j < start + (vs.length + 1)
      · obtain ⟨d, rfl⟩ := Nat.exists_eq_add_of_lt hgt
        rw [if_pos (by omega), if_pos (by omega),
          show start + d + 1 - start = (start + d + 1 - (start + 1)) + 1 by omega,
          List.getD_cons_succ]
      · rw [if_neg (by omega), if_neg (by omega), if_neg (by omega)]

/-- Bits that have been written are read back. -/
theorem readBits_writeBits {bytes : List UInt8} {vs : List Bool}
    (h : vs.length ≤ 8 * bytes.length) : readBits vs.length (writeBits bytes vs) = vs := by
  apply List.ext_getElem?
  intro i
  rcases Nat.lt_or_ge i vs.length with hi | hi
  · rw [getElem?_readBits hi, writeBits, getBit_writeBitsFrom (by omega), if_pos (by omega),
      Nat.sub_zero, List.getD_eq_getElem?_getD, List.getElem?_eq_getElem hi, Option.getD_some]
  · rw [List.getElem?_eq_none (by rwa [length_readBits]), List.getElem?_eq_none hi]

/-- Only the bytes that hold the bits read matter. -/
theorem readBits_append {n : ℕ} {bytes : List UInt8} (h : n ≤ 8 * bytes.length)
    (rest : List UInt8) : readBits n (bytes ++ rest) = readBits n bytes := by
  refine List.map_congr_left fun i hi => ?_
  have hlt : i / 8 < bytes.length := by
    have := List.mem_range.1 hi
    omega
  rw [getBit, getBit, List.getElem?_append_left hlt]

end Bits
