import Yokan.Backend

/-!
# Yokan: key/value filters

`KeyValueFilter` (`include/yokan/filters.hpp`) as far as the listings of the backends use it, and
the two filters a client selects with a byte string (`src/server/util/filters.cpp`). The Lua
filter and filters loaded from a library are code from outside.
-/

namespace Yokan

open Buffer

/-- A filter. `keyCopy` and `valCopy` copy to an offset of a buffer with a given room and return
the size written. -/
structure KeyValueFilter where
  requiresValue : Bool
  check : Bytes → Bytes → Bool
  keyCopy : Bytes → ℕ → ℕ → Bytes → ℕ × Bytes
  valCopy : Bytes → ℕ → ℕ → Bytes → ℕ × Bytes
  shouldStop : Bytes → Bytes → Bool := fun _ _ => false

namespace KeyValueFilter

/-- The filter hands out keys and values as they are stored. -/
def Whole (filter : KeyValueFilter) : Prop := filter.keyCopy = copyOut ∧ filter.valCopy = copyOut

/-- Stopping is sound for an order of the keys: nothing that comes later passes the filter. -/
def StopSound (filter : KeyValueFilter) (r : Bytes → Bytes → Prop) : Prop :=
  ∀ key val, filter.check key val = false → filter.shouldStop key val = true →
    ∀ key' val', r key key' → filter.check key' val' = false

end KeyValueFilter

/-- `KeyPrefixFilter`. -/
def keyPrefixFilter (fmode : Mode) (pre : Bytes) : KeyValueFilter where
  requiresValue := false
  check key _ := if key.length < pre.length then false else memcmp (key.take pre.length) pre == .eq
  keyCopy dst off room key :=
    if !fmode.has .noPrefix then copyOut dst off room key
    else copyOut dst off room (key.drop pre.length)
  valCopy := copyOut
  shouldStop key _ :=
    let n := min key.length pre.length
    memcmp (key.take n) (pre.take n) == .gt

/-- `KeySuffixFilter`. -/
def keySuffixFilter (fmode : Mode) (suf : Bytes) : KeyValueFilter where
  requiresValue := false
  check key _ :=
    if key.length < suf.length then false
    else memcmp (key.drop (key.length - suf.length)) suf == .eq
  keyCopy dst off room key :=
    if !fmode.has .noPrefix then copyOut dst off room key
    else copyOut dst off room (key.take (key.length - suf.length))
  valCopy := copyOut

/-- Where the prefix filter stops, no later key has the prefix. -/
theorem not_prefix_of_shouldStop {fmode : Mode} {pre key key' val : Bytes}
    (hstop : (keyPrefixFilter fmode pre).shouldStop key val = true) (hlt : key < key') :
    ¬ pre <+: key' := by
  rintro ⟨t, rfl⟩
  simp only [keyPrefixFilter, beq_iff_eq] at hstop
  have hgt := memcmp_eq_gt hstop
  have hlen : (pre.take (min key.length pre.length)).length =
      (key.take (min key.length pre.length)).length := by
    simp
  have hkey := append_lt_append hlen hgt (pre.drop (min key.length pre.length) ++ t)
    (key.drop (min key.length pre.length))
  rw [← List.append_assoc, List.take_append_drop, List.take_append_drop] at hkey
  exact Std.lt_irrefl (Std.lt_trans hlt hkey)

/-- What a client asks for: the keys that start, or that end, with some bytes. -/
inductive KeySelection
  | startingWith (pre : Bytes)
  | endingWith (suf : Bytes)

namespace KeySelection

/-- The keys selected. -/
def Matches : KeySelection → Bytes → Prop
  | startingWith pre, key => pre <+: key
  | endingWith suf, key => suf <:+ key

instance (sel : KeySelection) (key : Bytes) : Decidable (sel.Matches key) :=
  match sel with
  | startingWith pre => inferInstanceAs (Decidable (pre <+: key))
  | endingWith suf => inferInstanceAs (Decidable (suf <:+ key))

/-- The filter the server builds. -/
def filter (fmode : Mode) : KeySelection → KeyValueFilter
  | startingWith pre => keyPrefixFilter fmode pre
  | endingWith suf => keySuffixFilter fmode suf

@[simp] theorem requiresValue_filter (fmode : Mode) (sel : KeySelection) :
    (sel.filter fmode).requiresValue = false := by
  cases sel <;> rfl

/-- The filters accept the keys selected. -/
theorem check_filter (fmode : Mode) (sel : KeySelection) (key val : Bytes) :
    (sel.filter fmode).check key val = decide (sel.Matches key) := by
  cases sel with
  | startingWith pre =>
    by_cases h : key.length < pre.length
    · have hno : ¬ pre <+: key := fun hp => by have := hp.length_le; omega
      simp [filter, keyPrefixFilter, Matches, h, hno]
    · have hlen : (key.take pre.length).length = pre.length := by rw [List.length_take]; omega
      have hiff : memcmp (key.take pre.length) pre = .eq ↔ pre <+: key := by
        rw [memcmp_eq_iff hlen, List.prefix_iff_eq_take, eq_comm]
      simp only [filter, keyPrefixFilter, Matches, if_neg h, ← hiff]
      rfl
  | endingWith suf =>
    by_cases h : key.length < suf.length
    · have hno : ¬ suf <:+ key := fun hp => by have := hp.length_le; omega
      simp [filter, keySuffixFilter, Matches, h, hno]
    · have hlen : (key.drop (key.length - suf.length)).length = suf.length := by
        rw [List.length_drop]; omega
      have hiff : memcmp (key.drop (key.length - suf.length)) suf = .eq ↔ suf <:+ key := by
        rw [memcmp_eq_iff hlen, List.suffix_iff_eq_drop, eq_comm]
      simp only [filter, keySuffixFilter, Matches, if_neg h, ← hiff]
      rfl

/-- What the filter copies of a key: with `YOKAN_MODE_NO_PREFIX`, the key without the bytes that it
was selected by. -/
def shown (fmode : Mode) : KeySelection → Bytes → Bytes
  | startingWith pre, key => if fmode.has .noPrefix then key.drop pre.length else key
  | endingWith suf, key =>
    if fmode.has .noPrefix then key.take (key.length - suf.length) else key

theorem keyCopy_filter (fmode : Mode) (sel : KeySelection) (dst : Bytes) (off room : ℕ)
    (key : Bytes) :
    (sel.filter fmode).keyCopy dst off room key = copyOut dst off room (sel.shown fmode key) := by
  cases sel <;> simp only [filter, keyPrefixFilter, keySuffixFilter, shown] <;>
    cases fmode.has .noPrefix <;> rfl

/-- Without `YOKAN_MODE_NO_PREFIX` the filters leave keys and values whole. -/
theorem whole_filter {fmode : Mode} (h : fmode.has .noPrefix = false) (sel : KeySelection) :
    (sel.filter fmode).Whole := by
  cases sel <;>
    refine ⟨?_, rfl⟩ <;> funext dst off room key <;>
    simp [filter, keyPrefixFilter, keySuffixFilter, h]

/-- Once a key is greater than every key with the prefix, so are the keys after it. -/
theorem stopSound_filter (fmode : Mode) (sel : KeySelection) :
    (sel.filter fmode).StopSound (· < ·) := by
  cases sel with
  | startingWith pre =>
    intro key val _ hstop key' val' hlt
    rw [check_filter, decide_eq_false_iff_not]
    exact not_prefix_of_shouldStop hstop hlt
  | endingWith suf =>
    intro key val _ hstop
    exact absurd hstop Bool.false_ne_true

end KeySelection

end Yokan
