import Mathlib.Data.Nat.Basic
import Mathlib.Tactic

/-!
# Little-endian words

The bytes of a fixed-width word in memory, least significant byte first. `encode k n` is what a
`memcpy` of a `k`-byte word holding `n` leaves behind, and `decode` reads such bytes back.
-/

namespace LittleEndian

/-- The `k` bytes of a word holding `n`, least significant first; higher bits are lost. -/
def encode : ℕ → ℕ → List UInt8
  | 0, _ => []
  | k + 1, n => UInt8.ofNat n :: encode k (n / 256)

/-- The number held by a word with the given bytes. -/
def decode : List UInt8 → ℕ
  | [] => 0
  | b :: bs => b.toNat + 256 * decode bs

@[simp] theorem length_encode (k n : ℕ) : (encode k n).length = k := by
  induction k generalizing n with
  | zero => rfl
  | succ k ih => simp [encode, ih]

theorem decode_encode (k n : ℕ) : decode (encode k n) = n % 256 ^ k := by
  induction k generalizing n with
  | zero => simp [encode, decode, Nat.mod_one]
  | succ k ih =>
    have hb : (UInt8.ofNat n).toNat = n % 256 := UInt8.toNat_ofNat'
    rw [encode, decode, ih, hb, pow_succ', Nat.mod_mul]

theorem decode_encode_of_lt {k n : ℕ} (h : n < 256 ^ k) : decode (encode k n) = n := by
  rw [decode_encode, Nat.mod_eq_of_lt h]

/-- Every byte string is the memory of the word it holds. -/
theorem encode_decode (bs : List UInt8) : encode bs.length (decode bs) = bs := by
  induction bs with
  | nil => rfl
  | cons b bs ih =>
    have hlt := b.toNat_lt
    have hhead : UInt8.ofNat (b.toNat + 256 * decode bs) = b := by
      apply UInt8.toNat_inj.1
      rw [UInt8.toNat_ofNat']
      omega
    have htail : (b.toNat + 256 * decode bs) / 256 = decode bs := by omega
    rw [List.length_cons, decode, encode, hhead, htail, ih]

theorem decode_lt (bs : List UInt8) : decode bs < 256 ^ bs.length := by
  have h := decode_encode bs.length (decode bs)
  rw [encode_decode] at h
  rw [h]
  exact Nat.mod_lt _ (Nat.pow_pos (by decide))

/-- Byte `i` of a word. -/
theorem getElem?_encode {k n i : ℕ} (hi : i < k) :
    (encode k n)[i]? = some (UInt8.ofNat (n / 256 ^ i)) := by
  induction k generalizing n i with
  | zero => omega
  | succ k ih =>
    cases i with
    | zero => simp [encode]
    | succ i =>
      rw [encode, List.getElem?_cons_succ, ih (by omega), Nat.div_div_eq_div_mul, pow_succ']

/-- Words of one width that hold different numbers have different bytes. -/
theorem encode_inj {k m n : ℕ} (hm : m < 256 ^ k) (hn : n < 256 ^ k)
    (h : encode k m = encode k n) : m = n := by
  rw [← decode_encode_of_lt hm, h, decode_encode_of_lt hn]

end LittleEndian
