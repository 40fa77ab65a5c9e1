import Yokan.Map
import Yokan.UnorderedMap
import Yokan.Library.Slots

/-!
# Yokan: the values that `get` returns

`get` of the backends in memory, without `YOKAN_MODE_WAIT` and `YOKAN_MODE_CONSUME`.

* Packed, the values of the present keys follow each other up to the first one that does not fit
  in what remains (`FullAt`); from there on, present keys are reported as too large.
* In slots, each value that fits is at the start of its slot, which begins where the slots before
  it end, and the rest of the buffer is as before.

`get_meets_spec` states this for both backends.
-/

namespace Yokan

open Buffer

/-! ### The first value that does not fit -/

section FullAt

variable {κ : Type} {m : κ → Option Bytes}

/-- The values of the first `n` keys fit in `room` bytes, and the value of the key after them does
not fit in what they leave. -/
structure FullAt (m : κ → Option Bytes) (ks : List κ) (room n : ℕ) : Prop where
  le_length : n ≤ ks.length
  fits : ((ks.take n).filterMap m).flatten.length ≤ room
  full : ∀ k, ks[n]? = some k →
    ∃ v, m k = some v ∧ room < ((ks.take n).filterMap m).flatten.length + v.length

/-- The sizes of the first `n` keys, and the marks of the others. -/
def sizesUntil (m : κ → Option Bytes) (ks : List κ) (n : ℕ) : List ℕ :=
  (ks.take n).map (fun k => entrySize (m k)) ++
    (ks.drop n).map (fun k => if (m k).isSome then sizeTooSmall else keyNotFound)

theorem fullAt_nil {room : ℕ} : FullAt m [] room 0 := ⟨le_refl _, Nat.zero_le _, nofun⟩

theorem fullAt_cons_zero {k : κ} {ks : List κ} {room : ℕ} :
    FullAt m (k :: ks) room 0 ↔ ∃ v, m k = some v ∧ room < v.length := by
  constructor
  · intro h
    obtain ⟨v, hv, hlt⟩ := h.full k rfl
    exact ⟨v, hv, by simpa using hlt⟩
  · rintro ⟨v, hv, hlt⟩
    refine ⟨Nat.zero_le _, Nat.zero_le _, fun k' hk' => ?_⟩
    obtain rfl := Option.some.inj hk'
    exact ⟨v, hv, by simpa using hlt⟩

theorem fullAt_cons_none {k : κ} (hk : m k = none) {ks : List κ} {room n : ℕ} :
    FullAt m (k :: ks) room (n + 1) ↔ FullAt m ks room n := by
  have hvalues : ((k :: ks).take (n + 1)).filterMap m = (ks.take n).filterMap m := by
    rw [List.take_succ_cons, List.filterMap_cons_none hk]
  constructor
  · intro h
    have hfits := h.fits
    have hfull := h.full
    rw [hvalues] at hfits hfull
    exact ⟨Nat.le_of_succ_le_succ h.le_length, hfits, hfull⟩
  · intro h
    refine ⟨Nat.succ_le_succ h.le_length, ?_, ?_⟩
    · rw [hvalues]
      exact h.fits
    · rw [hvalues]
      exact h.full

theorem fullAt_cons_some {k : κ} {v : Bytes} (hk : m k = some v) {ks : List κ} {room n : ℕ} :
    FullAt m (k :: ks) room (n + 1) ↔ v.length ≤ room ∧ FullAt m ks (room - v.length) n := by
  have hvalues : (((k :: ks).take (n + 1)).filterMap m).flatten.length =
      v.length + ((ks.take n).filterMap m).flatten.length := by
    rw [List.take_succ_cons, List.filterMap_cons_some hk, List.flatten_cons, List.length_append]
  constructor
  · intro h
    have hfits := h.fits
    have hfull := h.full
    rw [hvalues] at hfits hfull
    refine ⟨by omega, Nat.le_of_succ_le_succ h.le_length, by omega, fun k' hk' => ?_⟩
    obtain ⟨w, hw, hlt⟩ := hfull k' hk'
    exact ⟨w, hw, by omega⟩
  · rintro ⟨hle, h⟩
    have hfits := h.fits
    refine ⟨Nat.succ_le_succ h.le_length, by omega, fun k' hk' => ?_⟩
    obtain ⟨w, hw, hlt⟩ := h.full k' hk'
    exact ⟨w, hw, by omega⟩

/-- A packed `get` is full at one point. -/
theorem exists_fullAt (ks : List κ) (room : ℕ) : ∃ n, FullAt m ks room n := by
  induction ks generalizing room with
  | nil => exact ⟨0, fullAt_nil⟩
  | cons k ks ih =>
    cases hk : m k with
    | none =>
      obtain ⟨n, hn⟩ := ih room
      exact ⟨n + 1, (fullAt_cons_none hk).2 hn⟩
    | some v =>
      by_cases hroom : room < v.length
      · exact ⟨0, fullAt_cons_zero.2 ⟨v, hk, hroom⟩⟩
      · obtain ⟨n, hn⟩ := ih (room - v.length)
        exact ⟨n + 1, (fullAt_cons_some hk).2 ⟨Nat.not_lt.1 hroom, hn⟩⟩

end FullAt

/-- Behind a value that does not fit, the backends in memory copy nothing. -/
theorem packedValues_full (m : Bytes → Option Bytes) (ks : List Bytes) (room : ℕ) :
    packedValues m ks room true =
      (ks.map (fun k => if (m k).isSome then sizeTooSmall else keyNotFound), []) := by
  induction ks with
  | nil => rfl
  | cons k ks ih =>
    unfold packedValues
    cases hk : m k <;> simp [ih, hk]

/-- A packed `get` reports the values before the point where the buffer is full. -/
theorem packedValues_of_fullAt {m : Bytes → Option Bytes} {ks : List Bytes} {room n : ℕ}
    (h : FullAt m ks room n) :
    packedValues m ks room false = (sizesUntil m ks n, ((ks.take n).filterMap m).flatten) := by
  induction ks generalizing room n with
  | nil =>
    obtain rfl : n = 0 := Nat.le_zero.1 h.le_length
    rfl
  | cons k ks ih =>
    unfold packedValues
    cases hk : m k with
    | none =>
      cases n with
      | zero =>
        obtain ⟨v, hv, -⟩ := fullAt_cons_zero.1 h
        rw [hk] at hv
        cases hv
      | succ n =>
        simp [ih ((fullAt_cons_none hk).1 h), sizesUntil, hk, entrySize]
    | some v =>
      cases n with
      | zero =>
        obtain ⟨w, hw, hlt⟩ := fullAt_cons_zero.1 h
        obtain rfl : v = w := Option.some.inj (hk.symm.trans hw)
        simp [hlt, packedValues_full, sizesUntil, hk]
      | succ n =>
        obtain ⟨hle, hrest⟩ := (fullAt_cons_some hk).1 h
        simp [Nat.not_lt.2 hle, ih hrest, sizesUntil, hk, entrySize]

/-! ### Values in their slots -/

section Slots

variable {find : Bytes → Option Bytes} {keys : Bytes} {ksizes : List ℕ}

/-- The loop over the slots copies the values to them. -/
theorem getSlotsLoop_vals {wait : Bool} (hwait : wait = false) (vsizes : List ℕ) (ko vo : ℕ)
    (vals : Bytes) (out : List ℕ) (hkeys : ko + ksizes.sum < 2 ^ 64)
    (hvals : vo + vsizes.sum < 2 ^ 64) :
    (getSlotsLoop find wait keys (ksizes.zip vsizes) ko vo vals out).2.1 =
      fill (((unpack (keys.drop ko) ksizes).map find).zip vsizes) vo vals := by
  subst hwait
  induction ksizes generalizing vsizes ko vo vals out with
  | nil => simp [getSlotsLoop, fill]
  | cons ksize ksizes ih =>
    obtain - | ⟨vsize, vsizes⟩ := vsizes
    · simp [getSlotsLoop, fill]
    · rw [List.sum_cons] at hkeys hvals
      have hadd : addSize ko ksize = ko + ksize := addSize_eq (by omega)
      have hnext : addSize vo vsize = vo + vsize := addSize_eq (by omega)
      have hkey : (keys.drop ko).take ksize = slice keys ko ksize := rfl
      simp only [List.zip_cons_cons, getSlotsLoop, hadd, hnext, unpack_cons, List.map_cons,
        List.drop_drop, hkey]
      cases find (slice keys ko ksize) with
      | none =>
        rw [if_neg Bool.false_ne_true, ih _ _ _ _ _ (by omega) (by omega)]
        rfl
      | some v =>
        rw [ih _ _ _ _ _ (by omega) (by omega)]
        simp only [fill, valCopy, copyOut]
        split_ifs <;> rfl

end Slots

/-! ### The specification -/

/-- What a packed `get` does: the values before the point where the buffer is full are copied one
after the other, and `vals.size` is their total size. -/
structure GetsPacked {σ : Type} (m : Bytes → Option Bytes) (ks : List Bytes) (vals : Bytes) (s : σ)
    (r : GetResult σ) : Prop where
  status : r.status = .OK
  db : r.db = s
  out : ∃ n, FullAt m ks vals.length n ∧
    r.out = ⟨blit vals 0 ((ks.take n).filterMap m).flatten,
      ((ks.take n).filterMap m).flatten.length, sizesUntil m ks n⟩

/-- What a `get` into slots does: the values that fit are copied to the start of their slots. -/
structure GetsSlots {σ : Type} (m : Bytes → Option Bytes) (ks : List Bytes) (vals : Bytes)
    (vsizes : List ℕ) (s : σ) (r : GetResult σ) : Prop where
  status : r.status = .OK
  db : r.db = s
  vsizes_eq : r.out.vsizes = List.zipWith (fun k slot => slotSize slot (m k)) ks vsizes
  copied : ∀ i k slot v, ks[i]? = some k → vsizes[i]? = some slot → m k = some v →
    v.length ≤ slot → slice r.out.vals (vsizes.take i).sum v.length = v
  kept : ∀ p, (∀ i k slot v, ks[i]? = some k → vsizes[i]? = some slot → m k = some v →
      v.length ≤ slot → ¬ ((vsizes.take i).sum ≤ p ∧ p < (vsizes.take i).sum + v.length)) →
    r.out.vals[p]? = vals[p]?
  length_eq : r.out.vals.length = vals.length ∧ r.out.valsSize = vals.length

section InMemory

variable {σ : Type} [InMemory σ] {s : σ} {mode : Mode} {keys vals : Bytes} {ksizes vsizes : List ℕ}

open InMemory

/-- Without `YOKAN_MODE_CONSUME`, `get` is its loops. -/
theorem InMemory.get_eq (packed : Bool) (hs : migrated s = false) (hwait : mode.has .wait = false)
    (hconsume : mode.has .consume = false) (hkeys : Packed keys ksizes)
    (hlen : ksizes.length = vsizes.length) :
    DatabaseInterface.get mode packed s keys ksizes vals vsizes =
      ⟨.OK, s, (getWith (find s) mode packed keys ksizes vals vsizes).2⟩ := by
  have hnone : (getWith (find s) mode packed keys ksizes vals vsizes).1 = none :=
    getWith_none hwait hkeys
  show getOrConsume find migrated _ mode packed s keys ksizes vals vsizes = _
  unfold getOrConsume
  rw [if_neg (not_not.2 hlen), hs, if_neg Bool.false_ne_true, hconsume]
  generalize getWith (find s) mode packed keys ksizes vals vsizes = r at hnone
  obtain ⟨_ | status, out⟩ := r
  · rfl
  · cases hnone

/-- What `get` writes to the caller's memory, with or without `YOKAN_MODE_CONSUME`. -/
theorem InMemory.get_out (packed : Bool) (hs : migrated s = false) (hwait : mode.has .wait = false)
    (hkeys : Packed keys ksizes) (hlen : ksizes.length = vsizes.length) :
    (DatabaseInterface.get mode packed s keys ksizes vals vsizes).out =
      (getWith (find s) mode packed keys ksizes vals vsizes).2 := by
  have hnone : (getWith (find s) mode packed keys ksizes vals vsizes).1 = none :=
    getWith_none hwait hkeys
  show (getOrConsume find migrated _ mode packed s keys ksizes vals vsizes).out = _
  unfold getOrConsume
  rw [if_neg (not_not.2 hlen), hs, if_neg Bool.false_ne_true]
  generalize getWith (find s) mode packed keys ksizes vals vsizes = r at hnone
  obtain ⟨_ | status, out⟩ := r
  · dsimp only
    split_ifs <;> rfl
  · cases hnone

/-- The values that `get` copies to their slots. -/
theorem InMemory.getWith_slots_vals (find : Bytes → Option Bytes) (hwait : mode.has .wait = false)
    (hkeys : Packed keys ksizes) (hfits : vsizes.sum < 2 ^ 64) :
    (getWith find mode false keys ksizes vals vsizes).2.vals =
      fill (((unpack keys ksizes).map find).zip vsizes) 0 vals :=
  getSlotsLoop_vals hwait vsizes 0 0 vals [] (by rw [Nat.zero_add]; exact hkeys.2)
    (by rwa [Nat.zero_add])

theorem InMemory.gets_packed (hs : migrated s = false) (hwait : mode.has .wait = false)
    (hconsume : mode.has .consume = false) (hkeys : Packed keys ksizes)
    (hlen : ksizes.length = vsizes.length) (hvals : vals.length ≤ lastValidSize) :
    GetsPacked (find s) (unpack keys ksizes) vals s
      (DatabaseInterface.get mode true s keys ksizes vals vsizes) := by
  obtain ⟨n, hn⟩ := exists_fullAt (m := find s) (unpack keys ksizes) vals.length
  rw [get_eq true hs hwait hconsume hkeys hlen]
  refine ⟨rfl, rfl, n, hn, ?_⟩
  rw [getWith_packed hwait hkeys hlen hvals, packedValues_of_fullAt hn]

theorem InMemory.gets_slots (hs : migrated s = false) (hwait : mode.has .wait = false)
    (hconsume : mode.has .consume = false) (hkeys : Packed keys ksizes)
    (hlen : ksizes.length = vsizes.length) (hfits : vsizes.sum ≤ vals.length)
    (hvals : vals.length ≤ lastValidSize) :
    GetsSlots (find s) (unpack keys ksizes) vals vsizes s
      (DatabaseInterface.get mode false s keys ksizes vals vsizes) := by
  have hlast : lastValidSize < 2 ^ 64 := by decide
  have hloop : (getWith (find s) mode false keys ksizes vals vsizes).2.vals =
      fill (((unpack keys ksizes).map (find s)).zip vsizes) 0 vals :=
    getWith_slots_vals (find s) hwait hkeys (by omega)
  have hslots : (((unpack keys ksizes).map (find s)).zip vsizes).map Prod.snd = vsizes :=
    List.map_snd_zip (by rw [List.length_map, length_unpack, hlen])
  have hsum : 0 + ((((unpack keys ksizes).map (find s)).zip vsizes).map Prod.snd).sum ≤
      vals.length := by
    rw [hslots, Nat.zero_add]
    exact hfits
  have htake : ∀ i, ((((unpack keys ksizes).map (find s)).zip vsizes).take i).map Prod.snd =
      vsizes.take i := by
    intro i
    rw [List.map_take, hslots]
  rw [get_eq false hs hwait hconsume hkeys hlen]
  refine ⟨rfl, rfl, getWith_slots_vsizes hwait hkeys hlen, ?_, ?_, ?_⟩
  · intro i k slot v hk hslot hv hfit
    have hi : (((unpack keys ksizes).map (find s)).zip vsizes)[i]? = some (some v, slot) := by
      rw [List.getElem?_zip_eq_some, List.getElem?_map, hk, Option.map_some, hv]
      exact ⟨rfl, hslot⟩
    have hslice := slice_fill hsum hi hfit
    rwa [htake, Nat.zero_add, ← hloop] at hslice
  · intro p hp
    dsimp only
    rw [hloop]
    refine getElem?_fill_of_not_copied hsum fun i v slot hi hfit => ?_
    rw [htake, Nat.zero_add]
    obtain ⟨hv, hslot⟩ : ((unpack keys ksizes).map (find s))[i]? = some (some v) ∧
        vsizes[i]? = some slot := by
      rwa [List.getElem?_zip_eq_some] at hi
    rw [List.getElem?_map, Option.map_eq_some_iff] at hv
    obtain ⟨k, hk, hv⟩ := hv
    exact hp i k slot v hk hslot hv hfit
  · refine ⟨?_, rfl⟩
    dsimp only
    rw [hloop, length_fill hsum]

end InMemory

/-- `get` in both backends, packed and in slots. -/
theorem get_meets_spec {c : Comparator} {map : MapDatabase c} {unordered : UnorderedMapDatabase}
    {mode : Mode} {keys vals : Bytes} {ksizes vsizes : List ℕ} (hmap : map.migrated = false)
    (hunordered : unordered.migrated = false) (hwait : mode.has .wait = false)
    (hconsume : mode.has .consume = false) (hkeys : Packed keys ksizes)
    (hlen : ksizes.length = vsizes.length) (hvals : vals.length ≤ lastValidSize) :
    (GetsPacked map.find (unpack keys ksizes) vals map
        (map.get mode true keys ksizes vals vsizes) ∧
      GetsPacked unordered.find (unpack keys ksizes) vals unordered
        (unordered.get mode true keys ksizes vals vsizes)) ∧
    (vsizes.sum ≤ vals.length →
      GetsSlots map.find (unpack keys ksizes) vals vsizes map
          (map.get mode false keys ksizes vals vsizes) ∧
        GetsSlots unordered.find (unpack keys ksizes) vals vsizes unordered
          (unordered.get mode false keys ksizes vals vsizes)) :=
  ⟨⟨InMemory.gets_packed (s := map) hmap hwait hconsume hkeys hlen hvals,
      InMemory.gets_packed (s := unordered) hunordered hwait hconsume hkeys hlen hvals⟩,
    fun hfits => ⟨InMemory.gets_slots (s := map) hmap hwait hconsume hkeys hlen hfits hvals,
      InMemory.gets_slots (s := unordered) hunordered hwait hconsume hkeys hlen hfits hvals⟩⟩

/-- A batch with a repeated key and an absent one. -/
theorem get_meets_spec_three :
    let map : MapDatabase .default := (MapDatabase.empty .default).assign [97] [1, 2]
    let unordered := UnorderedMapDatabase.empty.assign [97] [1, 2]
    (GetsPacked map.find (unpack [97, 98, 97] [1, 1, 1]) [0, 0, 0] map
        (map.get .default true [97, 98, 97] [1, 1, 1] [0, 0, 0] [2, 0, 1]) ∧
      GetsPacked unordered.find (unpack [97, 98, 97] [1, 1, 1]) [0, 0, 0] unordered
        (unordered.get .default true [97, 98, 97] [1, 1, 1] [0, 0, 0] [2, 0, 1])) ∧
    (([2, 0, 1] : List ℕ).sum ≤ ([0, 0, 0] : Bytes).length →
      GetsSlots map.find (unpack [97, 98, 97] [1, 1, 1]) [0, 0, 0] [2, 0, 1] map
          (map.get .default false [97, 98, 97] [1, 1, 1] [0, 0, 0] [2, 0, 1]) ∧
        GetsSlots unordered.find (unpack [97, 98, 97] [1, 1, 1]) [0, 0, 0] [2, 0, 1] unordered
          (unordered.get .default false [97, 98, 97] [1, 1, 1] [0, 0, 0] [2, 0, 1])) := by
  intro map unordered
  exact get_meets_spec rfl rfl (by decide) (by decide) (by decide) rfl (by decide)

end Yokan
