import Yokan.Library.LittleEndian

/-!
# Reading a stream of bytes

A reader takes bytes off the front of a stream and returns them with the rest, if there are
enough. Words of a fixed width are little-endian; counted bytes are preceded by their number.
-/

namespace ByteStream

open LittleEndian

/-- The next `n` bytes of a stream, and the rest of it. -/
def read (n : ℕ) (stream : List UInt8) : Option (List UInt8 × List UInt8) :=
  if n ≤ stream.length then some (stream.take n, stream.drop n) else none

/-- The next word of `k` bytes. -/
def readWord (k : ℕ) (stream : List UInt8) : Option (ℕ × List UInt8) :=
  (read k stream).map (fun p => (decode p.1, p.2))

/-- Bytes preceded by their number, in a word of `k` bytes. -/
def counted (k : ℕ) (bytes : List UInt8) : List UInt8 := encode k bytes.length ++ bytes

theorem read_append (bytes rest : List UInt8) :
    read bytes.length (bytes ++ rest) = some (bytes, rest) := by
  simp [read]

/-- Reading consumes what it returns. -/
theorem length_of_read {n : ℕ} {stream bytes rest : List UInt8}
    (h : read n stream = some (bytes, rest)) : bytes.length = n ∧ rest.length + n = stream.length := by
  unfold read at h
  split_ifs at h with hn
  obtain ⟨rfl, rfl⟩ := Prod.mk.inj (Option.some.inj h)
  rw [List.length_take, List.length_drop]
  omega

theorem readWord_append {k n : ℕ} (h : n < 256 ^ k) (rest : List UInt8) :
    readWord k (encode k n ++ rest) = some (n, rest) := by
  have hread := read_append (encode k n) rest
  rw [length_encode] at hread
  rw [readWord, hread, Option.map_some, decode_encode_of_lt h]

theorem length_of_readWord {k n : ℕ} {stream rest : List UInt8}
    (h : readWord k stream = some (n, rest)) : rest.length + k = stream.length := by
  obtain ⟨⟨bytes, rest'⟩, hread, he⟩ := Option.map_eq_some_iff.1 h
  obtain ⟨-, rfl⟩ := Prod.mk.inj he
  exact (length_of_read hread).2

@[simp] theorem length_counted (k : ℕ) (bytes : List UInt8) :
    (counted k bytes).length = k + bytes.length := by
  simp [counted]

end ByteStream
