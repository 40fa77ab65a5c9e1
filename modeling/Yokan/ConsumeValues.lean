import Yokan.PackedGet

/-!
# Yokan: `get` with `YOKAN_MODE_CONSUME`

`common.h` says that `YOKAN_MODE_CONSUME` makes `get` "also remove the returned key/value pairs".
`get` first copies values and then erases the keys of the batch, whatever was copied.

* `Gathers`: what the loops of `get` copy, when everything fits and when something does not;
* `Gathers.nothingLost_iff`: erasing the whole batch loses nothing exactly if everything fits;
* `consume_loses_nothing_iff`: `get` of the two backends in memory and of LMDB.
-/

namespace Yokan

open Buffer PartialMap

/-! ### What may be erased -/

/-- Where the value at a position of the batch starts in the buffer: packed, behind the values
before it, and otherwise where its slot starts. -/
def valueOffset (packed : Bool) (slots sizes : List ℕ) (i : ℕ) : ℕ :=
  if packed then ((sizes.take i).filter (· ≤ lastValidSize)).sum else (slots.take i).sum

/-- No value is lost between two contents: a key that is gone was returned at some position, and a
key reported as too large is as it was. -/
structure NothingLost (m m' : Bytes → Option Bytes) (ks : List Bytes) (packed : Bool)
    (slots : List ℕ) (out : GetOutput) : Prop where
  returned : ∀ k v, m k = some v → m' k = none → ∃ i : ℕ, ks[i]? = some k ∧
    out.vsizes[i]? = some v.length ∧
      slice out.vals (valueOffset packed slots out.vsizes i) v.length = v
  kept : ∀ (i : ℕ) k, ks[i]? = some k → out.vsizes[i]? = some sizeTooSmall → m' k = m k

/-- The values found fit in the caller's memory: all of them together when packed, and each in its
slot otherwise. -/
def AllFit (m : Bytes → Option Bytes) (ks : List Bytes) (packed : Bool) (slots : List ℕ) (n : ℕ) :
    Prop :=
  if packed then (ks.filterMap m).flatten.length ≤ n
  else ∀ p ∈ ks.zip slots, ∀ v ∈ m p.1, v.length ≤ p.2

instance (m : Bytes → Option Bytes) (ks : List Bytes) (packed : Bool) (slots : List ℕ) (n : ℕ) :
    Decidable (AllFit m ks packed slots n) := by
  unfold AllFit
  infer_instance

/-- What `get` delivers: when everything fits, each value at its place; otherwise some key that has
a value is marked. -/
structure Gathers (m : Bytes → Option Bytes) (ks : List Bytes) (packed : Bool) (slots : List ℕ)
    (n : ℕ) (out : GetOutput) : Prop where
  copied : AllFit m ks packed slots n → ∀ (i : ℕ) k v, ks[i]? = some k → m k = some v →
    v.length ≤ lastValidSize ∧ out.vsizes[i]? = some v.length ∧
      slice out.vals (valueOffset packed slots out.vsizes i) v.length = v
  marked : ¬ AllFit m ks packed slots n → ∃ (i : ℕ) (k : Bytes), ks[i]? = some k ∧ (m k).isSome ∧
    out.vsizes[i]? = some sizeTooSmall

section Lost

variable {m : Bytes → Option Bytes} {ks : List Bytes} {packed : Bool} {slots : List ℕ} {n : ℕ}
  {out : GetOutput}

theorem nothingLost_self : NothingLost m m ks packed slots out :=
  ⟨fun k v hv hnone => (by rw [hv] at hnone; cases hnone), fun _ _ _ _ => rfl⟩

/-- Erasing the keys of the batch loses nothing when all the values fit, and only then. -/
theorem Gathers.nothingLost_iff (h : Gathers m ks packed slots n out) :
    NothingLost m (eraseAll m ks) ks packed slots out ↔ AllFit m ks packed slots n := by
  have hgone : ∀ {k}, k ∈ ks → eraseAll m ks k = none := fun {k} hk => by
    rw [eraseAll_apply, if_pos hk]
  constructor
  · intro hlost
    by_contra hfull
    obtain ⟨i, k, hk, hsome, hmark⟩ := h.marked hfull
    have hkept := hlost.kept i k hk hmark
    rw [hgone (List.mem_of_getElem? hk)] at hkept
    rw [← hkept] at hsome
    cases hsome
  · intro hfit
    refine ⟨fun k v hv hnone => ?_, fun i k hk hmark => ?_⟩
    · have hmem : k ∈ ks := by
        by_contra hnot
        rw [eraseAll_apply, if_neg hnot, hv] at hnone
        cases hnone
      obtain ⟨i, hi⟩ := List.getElem?_of_mem hmem
      exact ⟨i, hi, (h.copied hfit i k v hi hv).2⟩
    · cases hv : m k with
      | none => exact hgone (List.mem_of_getElem? hk)
      | some v =>
        -- a value that was copied is not marked
        obtain ⟨hle, hsize, -⟩ := h.copied hfit i k v hk hv
        rw [hmark] at hsize
        have hlt : lastValidSize < sizeTooSmall := by decide
        have hsame := Option.some.inj hsize
        omega

end Lost

/-! ### Packed values -/

section Packed

variable {m : Bytes → Option Bytes} {ks : List Bytes} {slots : List ℕ} {vals : Bytes}

/-- The sizes reported before a position say where its value starts. -/
theorem sum_entrySizes (ks : List Bytes) (h : (ks.filterMap m).flatten.length ≤ lastValidSize) :
    ((ks.map fun k => entrySize (m k)).filter (· ≤ lastValidSize)).sum =
      (ks.filterMap m).flatten.length := by
  induction ks with
  | nil => rfl
  | cons k ks ih =>
    cases hk : m k with
    | none =>
      rw [List.filterMap_cons_none hk] at h ⊢
      have hmark : ¬ decide (keyNotFound ≤ lastValidSize) = true := by decide
      rw [List.map_cons, hk, entrySize, List.filter_cons, if_neg hmark]
      exact ih h
    | some v =>
      rw [List.filterMap_cons_some hk, List.flatten_cons, List.length_append] at h ⊢
      have hle : v.length ≤ lastValidSize := by omega
      rw [List.map_cons, hk, entrySize, List.filter_cons, if_pos (decide_eq_true hle),
        List.sum_cons, ih (by omega)]

theorem slice_values {i : ℕ} {k v : Bytes} (hk : ks[i]? = some k) (hv : m k = some v) :
    slice (ks.filterMap m).flatten ((ks.take i).filterMap m).flatten.length v.length = v := by
  obtain ⟨hi, rfl⟩ := List.getElem?_eq_some_iff.1 hk
  have hsplit : (ks.filterMap m).flatten = ((ks.take i).filterMap m).flatten ++
      (v ++ ((ks.drop (i + 1)).filterMap m).flatten) := by
    conv_lhs => rw [← List.take_append_drop i ks, List.drop_eq_getElem_cons hi]
    rw [List.filterMap_append, List.filterMap_cons_some hv, List.flatten_append, List.flatten_cons]
  rw [hsplit]
  exact slice_middle ..

/-- All the values follow each other. -/
theorem copied_packed (hvals : vals.length ≤ lastValidSize)
    (hfit : (ks.filterMap m).flatten.length ≤ vals.length) {i : ℕ} {k v : Bytes}
    (hk : ks[i]? = some k) (hv : m k = some v) :
    let sizes := ks.map fun k => entrySize (m k)
    v.length ≤ lastValidSize ∧ sizes[i]? = some v.length ∧
      slice (blit vals 0 (ks.filterMap m).flatten) (valueOffset true slots sizes i) v.length =
        v := by
  intro sizes
  have hslice := slice_values hk hv
  have htake : ((ks.take i).filterMap m).flatten.length ≤ (ks.filterMap m).flatten.length := by
    conv_rhs => rw [← List.take_append_drop i ks, List.filterMap_append, List.flatten_append,
      List.length_append]
    exact Nat.le_add_right _ _
  have hoffset : valueOffset true slots sizes i = ((ks.take i).filterMap m).flatten.length := by
    unfold valueOffset
    rw [if_pos rfl, ← List.map_take, sum_entrySizes _ (by omega)]
  have hle := congrArg List.length hslice
  rw [length_slice] at hle
  refine ⟨by omega, ?_, ?_⟩
  · rw [List.getElem?_map, hk, Option.map_some, hv]
    rfl
  · rw [hoffset, show blit vals 0 (ks.filterMap m).flatten = (ks.filterMap m).flatten ++
      vals.drop (ks.filterMap m).flatten.length by simp [blit], slice_append_left (by omega)]
    exact hslice

theorem not_allFit_packed (h : ¬ AllFit m ks true slots vals.length) :
    vals.length < (ks.filterMap m).flatten.length := by
  unfold AllFit at h
  rw [if_pos rfl] at h
  exact Nat.not_le.1 h

/-- The backends in memory. -/
theorem delivers_packedValues (hvals : vals.length ≤ lastValidSize) :
    let r := packedValues m ks vals.length false
    Gathers m ks true slots vals.length ⟨blit vals 0 r.2, r.2.length, r.1⟩ := by
  intro r
  refine ⟨fun hfit i k v hk hv => ?_, fun hfull => ?_⟩
  · have hfit : (ks.filterMap m).flatten.length ≤ vals.length := hfit
    have hr : r = _ := packedValues_of_le m ks hfit
    rw [hr]
    exact copied_packed hvals hfit hk hv
  · obtain ⟨n, hn⟩ := exists_fullAt (m := m) ks vals.length
    have hr : r = _ := packedValues_of_fullAt hn
    obtain hlt | heq := Nat.lt_or_eq_of_le hn.le_length
    · obtain ⟨v, hv, -⟩ := hn.full _ (List.getElem?_eq_getElem hlt)
      have hsome : (m ks[n]).isSome = true := by rw [hv]; rfl
      refine ⟨n, ks[n], List.getElem?_eq_getElem hlt, hsome, ?_⟩
      rw [hr]
      have hlen : ((ks.take n).map fun k => entrySize (m k)).length = n := by
        rw [List.length_map, List.length_take, Nat.min_eq_left hn.le_length]
      show (sizesUntil m ks n)[n]? = _
      unfold sizesUntil
      rw [List.getElem?_append_right hlen.le, hlen, Nat.sub_self, List.getElem?_map,
        List.getElem?_drop, Nat.add_zero, List.getElem?_eq_getElem hlt, Option.map_some,
        if_pos hsome]
    · have hfits := hn.fits
      rw [heq, List.take_length] at hfits
      exact absurd hfits (Nat.not_le.2 (not_allFit_packed hfull))

theorem absentFit_of_le {room : ℕ} (h : (ks.filterMap m).flatten.length ≤ room) :
    AbsentFit m ks room := by
  intro i _
  refine le_trans ?_ h
  conv_rhs => rw [← List.take_append_drop i ks, List.filterMap_append, List.flatten_append,
    List.length_append]
  exact Nat.le_add_right _ _

/-- The first value that does not fit is marked. -/
theorem exists_marked_valuesUntilFull {room : ℕ} (h : room < (ks.filterMap m).flatten.length) :
    ∃ (i : ℕ) (k : Bytes), ks[i]? = some k ∧ (m k).isSome ∧
      (valuesUntilFull m ks room).1[i]? = some sizeTooSmall := by
  induction ks generalizing room with
  | nil => exact absurd h (Nat.not_lt_zero _)
  | cons k ks ih =>
    unfold valuesUntilFull
    cases hk : m k with
    | none =>
      rw [List.filterMap_cons_none hk] at h
      obtain ⟨i, k', hk', hsome, hmark⟩ := ih h
      exact ⟨i + 1, k', hk', hsome, hmark⟩
    | some v =>
      rw [List.filterMap_cons_some hk, List.flatten_cons, List.length_append] at h
      dsimp only
      split_ifs with hroom
      · exact ⟨0, k, rfl, by rw [hk]; rfl, rfl⟩
      · obtain ⟨i, k', hk', hsome, hmark⟩ := ih (show room - v.length < _ by omega)
        exact ⟨i + 1, k', hk', hsome, hmark⟩

/-- The backends over a library. -/
theorem delivers_valuesUntilFull (hvals : vals.length ≤ lastValidSize) :
    let r := valuesUntilFull m ks vals.length
    Gathers m ks true slots vals.length ⟨blit vals 0 r.2, r.2.length, r.1⟩ := by
  intro r
  refine ⟨fun hfit => ?_, fun hfull =>
    exists_marked_valuesUntilFull (not_allFit_packed hfull)⟩
  have hfit : (ks.filterMap m).flatten.length ≤ vals.length := hfit
  have hr : _ = r := (packedValues_eq_iff ks vals.length).2 (absentFit_of_le hfit)
  rw [← hr]
  exact (delivers_packedValues hvals).copied hfit

end Packed

/-! ### Values in slots -/

section Slots

variable {m : Bytes → Option Bytes} {ks : List Bytes} {slots : List ℕ} {vals : Bytes}

/-- Each value that fits is in its slot, and the others are marked. -/
theorem delivers_slots (hlen : ks.length = slots.length) (hslots : slots.sum ≤ vals.length)
    (hvals : vals.length ≤ lastValidSize) (valsSize : ℕ) :
    Gathers m ks false slots vals.length ⟨fill ((ks.map m).zip slots) 0 vals, valsSize,
      List.zipWith (fun k slot => slotSize slot (m k)) ks slots⟩ := by
  have hsizes : ∀ (i : ℕ) k slot, ks[i]? = some k → slots[i]? = some slot →
      (List.zipWith (fun k slot => slotSize slot (m k)) ks slots)[i]? =
        some (slotSize slot (m k)) := by
    intro i k slot hk hslot
    rw [List.getElem?_zipWith, hk, hslot]
  have hslot : ∀ (i : ℕ) k, ks[i]? = some k → ∃ slot, slots[i]? = some slot := by
    intro i k hk
    have hi : i < slots.length := by
      rw [← hlen]
      exact (List.getElem?_eq_some_iff.1 hk).1
    exact ⟨_, List.getElem?_eq_getElem hi⟩
  constructor
  case copied =>
    intro hfit i k v hk hv
    obtain ⟨slot, hslot⟩ := hslot i k hk
    have hmem : (k, slot) ∈ ks.zip slots :=
      List.mem_of_getElem? (List.getElem?_zip_eq_some.2 ⟨hk, hslot⟩)
    have hle : v.length ≤ slot := hfit (k, slot) hmem v hv
    have hsum : slot ≤ slots.sum :=
      List.single_le_sum (fun _ _ => Nat.zero_le _) _ (List.mem_of_getElem? hslot)
    have hmap : ((ks.map m).zip slots).map Prod.snd = slots :=
      List.map_snd_zip (by rw [List.length_map, hlen])
    have hi : ((ks.map m).zip slots)[i]? = some (some v, slot) := by
      rw [List.getElem?_zip_eq_some, List.getElem?_map, hk, Option.map_some, hv]
      exact ⟨rfl, hslot⟩
    have hslice := slice_fill (show 0 + (((ks.map m).zip slots).map Prod.snd).sum ≤ vals.length by
      rwa [hmap, Nat.zero_add]) hi hle
    rw [List.map_take, hmap, Nat.zero_add] at hslice
    refine ⟨by omega, ?_, hslice⟩
    rw [hsizes i k slot hk hslot, hv, slotSize, if_neg (Nat.not_lt.2 hle)]
  case marked =>
    intro hfull
    have hex : ∃ p ∈ ks.zip slots, ∃ v ∈ m p.1, p.2 < v.length := by
      by_contra hnone
      push Not at hnone
      exact hfull hnone
    obtain ⟨⟨k, slot⟩, hmem, v, hv, hlt⟩ := hex
    have hv : m k = some v := hv
    obtain ⟨i, hi⟩ := List.getElem?_of_mem hmem
    obtain ⟨hk, hslot⟩ := List.getElem?_zip_eq_some.1 hi
    refine ⟨i, k, hk, by rw [hv]; rfl, ?_⟩
    rw [hsizes i k slot hk hslot, hv, slotSize, if_pos hlt]

end Slots

/-! ### The backends in memory -/

section InMemory

variable {σ : Type} [InMemory σ] {s : σ} {mode : Mode} {packed : Bool} {keys vals : Bytes}
  {ksizes vsizes : List ℕ}

theorem InMemory.get_delivers (hs : migrated s = false) (hwait : mode.has .wait = false)
    (hkeys : Packed keys ksizes) (hlen : ksizes.length = vsizes.length)
    (hvals : vals.length ≤ lastValidSize) (hslots : packed = false → vsizes.sum ≤ vals.length) :
    Gathers (find s) (unpack keys ksizes) packed vsizes vals.length
      (DatabaseInterface.get mode packed s keys ksizes vals vsizes).out := by
  rw [get_out packed hs hwait hkeys hlen]
  cases packed with
  | true =>
    rw [getWith_packed hwait hkeys hlen hvals]
    exact delivers_packedValues hvals
  | false =>
    have hlast : lastValidSize < 2 ^ 64 := by decide
    have hsum := hslots rfl
    have hcount : (unpack keys ksizes).length = vsizes.length := by rw [length_unpack, hlen]
    have hdelivers := delivers_slots hcount hsum hvals
      (m := find s) (getWith (find s) mode false keys ksizes vals vsizes).2.valsSize
    rw [← getWith_slots_vsizes hwait hkeys hlen,
      ← getWith_slots_vals (find s) hwait hkeys (by omega)] at hdelivers
    exact hdelivers

/-- A `get` that consumes loses nothing when it refuses to serve, or everything fits. -/
theorem InMemory.nothingLost_iff (hwait : mode.has .wait = false) (hconsume : mode.has .consume)
    (hkeys : Packed keys ksizes) (hvals : vals.length ≤ lastValidSize)
    (hslots : packed = false → vsizes.sum ≤ vals.length) :
    let r := DatabaseInterface.get mode packed s keys ksizes vals vsizes
    NothingLost (find s) (find r.db) (unpack keys ksizes) packed vsizes r.out ↔
      (migrated s = true ∨ ksizes.length ≠ vsizes.length) ∨
        AllFit (find s) (unpack keys ksizes) packed vsizes vals.length := by
  intro r
  by_cases hserves : migrated s = true ∨ ksizes.length ≠ vsizes.length
  · have hdb : r.db = s := by
      show (getOrConsume find migrated _ mode packed s keys ksizes vals vsizes).db = s
      unfold getOrConsume
      obtain hs | hlen := hserves
      · split_ifs <;> rfl
      · rw [if_pos hlen]
    rw [hdb]
    exact iff_of_true nothingLost_self (Or.inl hserves)
  · rw [or_iff_right hserves]
    rw [not_or, Bool.not_eq_true, not_not] at hserves
    obtain ⟨hs, hlen⟩ := hserves
    have hcontents : find r.db = eraseAll (find s) (unpack keys ksizes) := by
      have hget : FiniteMapStore.contents (DatabaseInterface.get mode packed s keys ksizes vals
          vsizes).db = _ := (FiniteMapStore.get_contents hs hwait hkeys hlen).2.2
      rw [if_pos hconsume] at hget
      exact hget
    rw [hcontents]
    exact (get_delivers hs hwait hkeys hlen hvals hslots).nothingLost_iff

end InMemory

/-! ### LMDB -/

/-- What is relied on in LMDB, of the pairs it holds and the keys it accepts: transactions begin and
commit, lookups and deletions of these keys answer for the pairs and act on them, and a deletion of
any other key fails. -/
structure LMDB.Lawful (δ : Type) [LMDB δ] (held : δ → Bytes → Option Bytes)
    (accepts : Bytes → Prop) : Prop where
  txnBegin : ∀ db : δ, LMDB.txnBegin db = .OK
  get : ∀ (db : δ) k, accepts k → LMDB.get db k = .ofEntry (held db k)
  del_status : ∀ (txn : δ) k, accepts k →
    (LMDB.del txn k).1 = .OK ∨ (LMDB.del txn k).1 = .NotFound
  del_held : ∀ (txn : δ) k, accepts k →
    held (LMDB.del txn k).2 = Function.update (held txn) k none
  del_refused : ∀ (txn : δ) k, ¬ accepts k →
    (LMDB.del txn k).1 ≠ .OK ∧ (LMDB.del txn k).1 ≠ .NotFound
  txnCommit : ∀ txn : δ, (LMDB.txnCommit txn).1 = .OK ∧ held (LMDB.txnCommit txn).2 = held txn

namespace LMDBDatabase

variable {δ : Type} [LMDB δ] {held : δ → Bytes → Option Bytes} {accepts : Bytes → Prop}
  {s : LMDBDatabase δ} {mode : Mode} {packed : Bool} {keys vals : Bytes} {ksizes vsizes : List ℕ}

/-- `erase` of keys that LMDB accepts. -/
theorem held_erase (h : LMDB.Lawful δ held accepts) (hs : s.migrated = false)
    (hkeys : Packed keys ksizes) (hall : ∀ k ∈ unpack keys ksizes, accepts k) :
    held (s.erase mode keys ksizes).2.db = eraseAll (held s.db) (unpack keys ksizes) := by
  have hbody : ∀ k ∈ unpack keys ksizes, ∀ txn : δ, eraseBody k txn = (none, (LMDB.del txn k).2) := by
    intro k hk txn
    unfold eraseBody
    dsimp only
    rw [if_neg]
    rcases h.del_status txn k (hall k hk) with hdel | hdel <;> simp [hdel]
  have hsum : ¬ keys.length < accumulate ksizes := by
    rw [accumulate_eq hkeys.2]
    exact Nat.not_lt.2 hkeys.1
  have hdel : ∀ (ks : List Bytes) (txn : δ), (∀ k ∈ ks, accepts k) →
      held (ks.foldl (fun txn k => (LMDB.del txn k).2) txn) = eraseAll (held txn) ks := by
    intro ks
    induction ks with
    | nil => exact fun _ _ => rfl
    | cons k ks ih =>
      intro txn hks
      rw [List.foldl_cons, ih _ fun k' hk' => hks k' (List.mem_cons_of_mem _ hk'),
        h.del_held txn k (hks k List.mem_cons_self)]
      rfl
  unfold LMDBDatabase.erase
  rw [hs, if_neg Bool.false_ne_true, if_neg hsum, if_neg (not_not.2 (h.txnBegin s.db)),
    keysLoop_eq hkeys.2 hkeys.1, eachRecord_of_none_of_mem _ hbody]
  exact (h.txnCommit _).2.trans (hdel _ _ hall)

/-- `erase` of a batch with a key that LMDB does not accept changes nothing. -/
theorem erase_refused (h : LMDB.Lawful δ held accepts) (hkeys : Packed keys ksizes)
    (hrefused : ∃ k ∈ unpack keys ksizes, ¬ accepts k) : (s.erase mode keys ksizes).2 = s := by
  have hstops : ∃ k ∈ unpack keys ksizes, ∀ txn : δ, (eraseBody k txn).1 ≠ none := by
    obtain ⟨k, hk, hno⟩ := hrefused
    refine ⟨k, hk, fun txn => ?_⟩
    unfold eraseBody
    dsimp only
    rw [if_pos (h.del_refused txn k hno)]
    exact nofun
  unfold LMDBDatabase.erase
  split_ifs
  · rfl
  · rfl
  · rfl
  · rw [keysLoop_eq hkeys.2 hkeys.1]
    have hloop := eachRecord_stops hstops s.db
    rcases hr : eachRecord eraseBody (unpack keys ksizes) s.db with ⟨_ | status, txn⟩
    · rw [hr] at hloop
      exact absurd rfl hloop
    · rfl

/-- The loop of `get` over the slots. -/
theorem getSlotLoop_eq {m : Bytes → Option Bytes} {lookup : Bytes → Lookup} {ko vo : ℕ}
    {out : List ℕ} (hlookup : ∀ k ∈ unpack (keys.drop ko) ksizes, lookup k = .ofEntry (m k))
    (hlen : ksizes.length = vsizes.length) (hkeys : ko + ksizes.sum < 2 ^ 64)
    (hvals : vo + vsizes.sum < 2 ^ 64) :
    getSlotLoop lookup keys (ksizes.zip vsizes) ko vo vals out =
      (none, fill (((unpack (keys.drop ko) ksizes).map m).zip vsizes) vo vals,
        out ++ List.zipWith (fun k slot => slotSize slot (m k)) (unpack (keys.drop ko) ksizes)
          vsizes) := by
  induction ksizes generalizing vsizes ko vo vals out with
  | nil => simp [getSlotLoop, fill]
  | cons ksize ksizes ih =>
    obtain - | ⟨vsize, vsizes⟩ := vsizes
    · simp at hlen
    rw [List.sum_cons] at hkeys hvals
    rw [unpack_cons, List.drop_drop] at hlookup ⊢
    have hhead : lookup (slice keys ko ksize) = .ofEntry (m (slice keys ko ksize)) :=
      hlookup _ List.mem_cons_self
    have htail : ∀ k ∈ unpack (keys.drop (ko + ksize)) ksizes, lookup k = .ofEntry (m k) :=
      fun k hk => hlookup k (List.mem_cons_of_mem _ hk)
    have hadd : addSize ko ksize = ko + ksize := addSize_eq (by omega)
    have hnext : addSize vo vsize = vo + vsize := addSize_eq (by omega)
    rw [List.zip_cons_cons, getSlotLoop, hhead, hadd, hnext,
      show (keys.drop ko).take ksize = slice keys ko ksize from rfl]
    rcases hm : m (slice keys ko ksize) with _ | v
    · dsimp only [Lookup.ofEntry]
      rw [ih htail (Nat.succ.inj hlen) (by omega) (by omega)]
      simp [fill, slotSize, hm]
    · dsimp only [Lookup.ofEntry, copyOut]
      split_ifs with hfull
      · dsimp only
        rw [ih htail (Nat.succ.inj hlen) (by omega) (by omega)]
        simp [fill, slotSize, hm, hfull]
      · dsimp only
        rw [ih htail (Nat.succ.inj hlen) (by omega) (by omega)]
        simp [fill, slotSize, hm, hfull]

/-- What the loops of `get` deliver. -/
theorem getLoops_delivers {m : Bytes → Option Bytes} {lookup : Bytes → Lookup} (strict : Bool)
    (hlookup : ∀ k ∈ unpack keys ksizes, lookup k = .ofEntry (m k)) (hkeys : Packed keys ksizes)
    (hlen : ksizes.length = vsizes.length) (hvals : vals.length ≤ lastValidSize)
    (hslots : packed = false → vsizes.sum ≤ vals.length) :
    ∃ out, getLoops lookup strict packed keys ksizes vals vsizes = (none, out) ∧
      Gathers m (unpack keys ksizes) packed vsizes vals.length out := by
  have hlast : lastValidSize < 2 ^ 64 := by decide
  cases packed with
  | true =>
    exact ⟨_, getLoops_packed hlookup hkeys hlen (by omega), delivers_valuesUntilFull hvals⟩
  | false =>
    have hsum := hslots rfl
    have hcount : (unpack keys ksizes).length = vsizes.length := by rw [length_unpack, hlen]
    have hloop : getSlotLoop lookup keys (ksizes.zip vsizes) 0 0 vals [] = _ :=
      getSlotLoop_eq (by rwa [List.drop_zero]) hlen (by rw [Nat.zero_add]; exact hkeys.2) (by omega)
    have hsizes : (List.zipWith (fun k slot => slotSize slot (m k)) (unpack keys ksizes)
        vsizes).length = vsizes.length := by
      rw [List.length_zipWith, hcount, Nat.min_self]
    have hloops : getLoops lookup strict false keys ksizes vals vsizes =
        (none, ⟨fill (((unpack keys ksizes).map m).zip vsizes) 0 vals, vals.length,
          List.zipWith (fun k slot => slotSize slot (m k)) (unpack keys ksizes) vsizes⟩) := by
      unfold getLoops
      rw [if_neg Bool.false_ne_true, hloop]
      simp only [List.drop_zero, List.nil_append, hsizes, List.drop_length, List.append_nil]
    exact ⟨_, hloops, delivers_slots hcount hsum hvals _⟩

/-- A `get` that consumes loses nothing when it refuses to serve, when LMDB does not accept some
key, or when everything fits. -/
theorem nothingLost_iff (h : LMDB.Lawful δ held accepts) (hconsume : mode.has .consume)
    (hkeys : Packed keys ksizes) (hvals : vals.length ≤ lastValidSize)
    (hslots : packed = false → vsizes.sum ≤ vals.length) :
    let r := s.get mode packed keys ksizes vals vsizes
    NothingLost (held s.db) (held r.db.db) (unpack keys ksizes) packed vsizes r.out ↔
      (s.migrated = true ∨ ksizes.length ≠ vsizes.length ∨
          ∃ k ∈ unpack keys ksizes, ¬ accepts k) ∨
        AllFit (held s.db) (unpack keys ksizes) packed vsizes vals.length := by
  intro r
  by_cases hserves : s.migrated = true ∨ ksizes.length ≠ vsizes.length ∨
      ∃ k ∈ unpack keys ksizes, ¬ accepts k
  · -- nothing is erased when the call returns early, or when the erase is refused
    have hdb : r.db = s := by
      show (LMDBDatabase.get mode packed s keys ksizes vals vsizes).db = s
      unfold LMDBDatabase.get
      obtain hs | hlen | hrefused := hserves
      · rw [if_pos hs]
      · split_ifs
        · rfl
        · rfl
      · split_ifs
        · rfl
        · rfl
        · rfl
        · rcases getLoops (LMDB.get s.db) true packed keys ksizes vals vsizes with ⟨_ | status, out⟩
          · exact erase_refused h hkeys hrefused
          · rfl
    rw [hdb]
    exact iff_of_true nothingLost_self (Or.inl hserves)
  · rw [or_iff_right hserves]
    push Not at hserves
    obtain ⟨hs, hlen, hall⟩ := hserves
    have hs : s.migrated = false := Bool.eq_false_iff.2 hs
    have hlookup : ∀ k ∈ unpack keys ksizes, LMDB.get s.db k = .ofEntry (held s.db k) :=
      fun k hk => h.get s.db k (hall k hk)
    obtain ⟨out, hloops, hdelivers⟩ := getLoops_delivers true hlookup hkeys hlen hvals hslots
    have hr : r = ⟨(s.erase mode keys ksizes).1, (s.erase mode keys ksizes).2, out⟩ := by
      show LMDBDatabase.get mode packed s keys ksizes vals vsizes = _
      unfold LMDBDatabase.get
      rw [hs, if_neg Bool.false_ne_true, if_neg (not_not.2 hlen),
        if_neg (not_not.2 (h.txnBegin s.db)), hloops]
      dsimp only
      rw [if_pos hconsume]
    rw [hr]
    dsimp only
    rw [held_erase h hs hkeys hall]
    exact hdelivers.nothingLost_iff

end LMDBDatabase

/-- `get` with `YOKAN_MODE_CONSUME` loses no value when it refuses to serve, or everything it finds
fits in the caller's memory, and only then. -/
theorem consume_loses_nothing_iff {c : Comparator} {map : MapDatabase c}
    {unordered : UnorderedMapDatabase} {δ : Type} [LMDB δ] {held : δ → Bytes → Option Bytes}
    {accepts : Bytes → Prop} (hlaw : LMDB.Lawful δ held accepts) {lmdb : LMDBDatabase δ}
    {mode : Mode} {packed : Bool} {keys vals : Bytes} {ksizes vsizes : List ℕ}
    (hwait : mode.has .wait = false) (hconsume : mode.has .consume) (hkeys : Packed keys ksizes)
    (hvals : vals.length ≤ lastValidSize) (hslots : packed = false → vsizes.sum ≤ vals.length) :
    (let r := map.get mode packed keys ksizes vals vsizes
     NothingLost map.find r.db.find (unpack keys ksizes) packed vsizes r.out ↔
      (map.migrated = true ∨ ksizes.length ≠ vsizes.length) ∨
        AllFit map.find (unpack keys ksizes) packed vsizes vals.length) ∧
    (let r := unordered.get mode packed keys ksizes vals vsizes
     NothingLost unordered.find r.db.find (unpack keys ksizes) packed vsizes r.out ↔
      (unordered.migrated = true ∨ ksizes.length ≠ vsizes.length) ∨
        AllFit unordered.find (unpack keys ksizes) packed vsizes vals.length) ∧
    (let r := lmdb.get mode packed keys ksizes vals vsizes
     NothingLost (held lmdb.db) (held r.db.db) (unpack keys ksizes) packed vsizes r.out ↔
      (lmdb.migrated = true ∨ ksizes.length ≠ vsizes.length ∨
          ∃ k ∈ unpack keys ksizes, ¬ accepts k) ∨
        AllFit (held lmdb.db) (unpack keys ksizes) packed vsizes vals.length) :=
  ⟨InMemory.nothingLost_iff (s := map) hwait hconsume hkeys hvals hslots,
    InMemory.nothingLost_iff (s := unordered) hwait hconsume hkeys hvals hslots,
    LMDBDatabase.nothingLost_iff hlaw hconsume hkeys hvals hslots⟩

/-- The pairs of a table. -/
def Table.held (t : Table) (key : Bytes) : Option Bytes := t.pairs.lookup key

theorem Table.held_remove (t : Table) (key : Bytes) :
    (t.remove [key]).held = Function.update t.held key none := by
  funext key'
  unfold Table.held Table.remove
  induction t.pairs with
  | nil => simp [Function.update_apply]
  | cons p pairs ih =>
    obtain ⟨k, v⟩ := p
    by_cases hk : k = key
    · subst hk
      rw [List.filter_cons_of_neg (by simp), ih]
      by_cases hkey : key' = k
      · rw [hkey, Function.update_self, Function.update_self]
      · rw [Function.update_of_ne hkey, Function.update_of_ne hkey, List.lookup_cons,
          beq_eq_false_iff_ne.2 hkey]
    · rw [List.filter_cons_of_pos (by simpa using hk), List.lookup_cons, ih]
      by_cases hkey : key' = k
      · subst hkey
        simp [Function.update_of_ne hk]
      · rw [beq_eq_false_iff_ne.2 hkey]
        by_cases hkey' : key' = key
        · rw [hkey', Function.update_self, Function.update_self]
        · rw [Function.update_of_ne hkey', Function.update_of_ne hkey', List.lookup_cons,
            beq_eq_false_iff_ne.2 hkey]

theorem Table.lawful : LMDB.Lawful Table Table.held fun _ => True where
  txnBegin _ := rfl
  get _ _ _ := rfl
  del_status t k _ := t.removeStatus_cases k
  del_held t k _ := t.held_remove k
  del_refused _ _ hno := absurd trivial hno
  txnCommit _ := ⟨rfl, rfl⟩

/-- One value of two bytes, consumed into a buffer of three bytes. -/
theorem consume_loses_nothing_one :
    let out : GetOutput := ⟨[1, 2, 0], 2, [2]⟩
    NothingLost oneEntryMap.find
        (oneEntryMap.get .consume true [97] [1] [0, 0, 0] [0]).db.find [[97]] true [0] out ∧
      NothingLost oneEntryUnordered.find
        (oneEntryUnordered.get .consume true [97] [1] [0, 0, 0] [0]).db.find [[97]] true [0] out ∧
      NothingLost oneEntryTable.held
        (LMDBDatabase.get .consume true ⟨oneEntryTable, false⟩ [97] [1] [0, 0, 0] [0]).db.db.held
        [[97]] true [0] out := by
  obtain ⟨hmap, hunordered, hlmdb⟩ := @consume_loses_nothing_iff .default oneEntryMap
    oneEntryUnordered Table _ _ _ Table.lawful ⟨oneEntryTable, false⟩ .consume true [97] [0, 0, 0]
    [1] [0] (by decide) (by decide) (by decide) (by decide) nofun
  exact ⟨hmap.2 (Or.inr (by decide)), hunordered.2 (Or.inr (by decide)),
    hlmdb.2 (Or.inr (by decide))⟩

/-- Consumed into a buffer of one byte, the value is lost. -/
theorem consume_loses_value :
    ¬ NothingLost oneEntryMap.find (oneEntryMap.get .consume true [97] [1] [0] [0]).db.find [[97]]
        true [0] (oneEntryMap.get .consume true [97] [1] [0] [0]).out ∧
      ¬ NothingLost oneEntryUnordered.find
        (oneEntryUnordered.get .consume true [97] [1] [0] [0]).db.find [[97]] true [0]
        (oneEntryUnordered.get .consume true [97] [1] [0] [0]).out ∧
      ¬ NothingLost oneEntryTable.held
        (LMDBDatabase.get .consume true ⟨oneEntryTable, false⟩ [97] [1] [0] [0]).db.db.held [[97]]
        true [0] (LMDBDatabase.get .consume true ⟨oneEntryTable, false⟩ [97] [1] [0] [0]).out :=
  ⟨fun h => absurd (h.kept 0 [97] rfl (by decide)) (by decide),
    fun h => absurd (h.kept 0 [97] rfl (by decide)) (by decide),
    fun h => absurd (h.kept 0 [97] rfl (by decide)) (by decide)⟩

end Yokan
