import Yokan.Backend

/-!
# Yokan: the in-memory backends

What `map.cpp` and `unordered_map.cpp` have in common. Both keep the whole content in one
container behind a lock, with a flag set by a migration, and their operations have the same
shape: checks on the arguments, the flag, a loop over the packed keys, a lookup in the container
for each key. The shapes are stated here for any lookup and any loop body; a backend supplies its
own `putBody`, `eraseBody` and `fetch` over its own container.

`InMemory` collects what a backend has to show about one pass of its loops, and the instance at
the end derives from it that the backend behaves as a finite map.
-/

namespace Yokan

open Buffer PartialMap

/-! ### The readers, for any way of finding a key

`exists`, `length` and `get` of the in-memory backends only look keys up, so they are written
for a lookup function `find`. In the mode `YOKAN_MODE_WAIT` an absent key makes the caller wait
for a writer; run on its own, with no writer, such a call can only end by timing out. -/

section Readers

/-- The body of the loop of `exists`. -/
def existsBody (find : Bytes → Option Bytes) (wait : Bool) (key : Bytes) (flags : List Bool) :
    Option Status × List Bool :=
  match find key with
  | some _ => (none, flags ++ [true])
  | none => if wait then (some .TimedOut, flags) else (none, flags ++ [false])

/-- `exists`: the flags of the keys, written over the first bits of the bit field. -/
def existsWith (find : Bytes → Option Bytes) (migrated : Bool) (mode : Mode) (keys : Bytes)
    (ksizes : List ℕ) (flags : List Bool) : Status × List Bool :=
  if flags.length < ksizes.length then (.InvalidArg, flags)
  else if migrated then (.Migrated, flags)
  else
    let r := keysLoop true (existsBody find (mode.has .wait)) keys ksizes 0 []
    (r.1.getD .OK, r.2 ++ flags.drop r.2.length)

/-- The body of the loop of `length`. -/
def lengthBody (find : Bytes → Option Bytes) (wait : Bool) (key : Bytes) (vsizes : List ℕ) :
    Option Status × List ℕ :=
  match find key with
  | some v => (none, vsizes ++ [v.length])
  | none => if wait then (some .TimedOut, vsizes) else (none, vsizes ++ [keyNotFound])

/-- `length`: the sizes of the values. -/
def lengthWith (find : Bytes → Option Bytes) (migrated : Bool) (mode : Mode) (keys : Bytes)
    (ksizes vsizes : List ℕ) : Status × List ℕ :=
  if ksizes.length ≠ vsizes.length then (.InvalidArg, vsizes)
  else if migrated then (.Migrated, vsizes)
  else
    let r := keysLoop true (lengthBody find (mode.has .wait)) keys ksizes 0 []
    (r.1.getD .OK, r.2 ++ vsizes.drop r.2.length)

/-- `valCopy` of `src/common/modes.hpp`. -/
def valCopy (dst : Bytes) (off room : ℕ) (val : Bytes) : ℕ × Bytes := copyOut dst off room val

/-- The local variables of the packed branch of `get`. -/
structure PackedGet where
  vals : Bytes
  valOffset : ℕ
  valRemainingSize : ℕ
  bufTooSmall : Bool
  vsizes : List ℕ
  deriving DecidableEq

/-- The body of the loop of the packed branch of `get`. -/
def getPackedBody (find : Bytes → Option Bytes) (wait : Bool) (key : Bytes) (g : PackedGet) :
    Option Status × PackedGet :=
  match find key with
  | none =>
    if wait then (some .TimedOut, g) else (none, { g with vsizes := g.vsizes ++ [keyNotFound] })
  | some v =>
    if g.bufTooSmall then (none, { g with vsizes := g.vsizes ++ [sizeTooSmall] })
    else
      let (vsize, vals) := valCopy g.vals g.valOffset g.valRemainingSize v
      if vsize = sizeTooSmall then
        (none, { g with vals, bufTooSmall := true, vsizes := g.vsizes ++ [vsize] })
      else
        (none,
          { g with
            vals
            valOffset := addSize g.valOffset vsize
            valRemainingSize := g.valRemainingSize - vsize
            vsizes := g.vsizes ++ [vsize] })

/-- The loop of the branch of `get` where each value has its own slot. -/
def getSlotsLoop (find : Bytes → Option Bytes) (wait : Bool) (keys : Bytes) :
    List (ℕ × ℕ) → ℕ → ℕ → Bytes → List ℕ → Option Status × Bytes × List ℕ
  | [], _, _, vals, out => (none, vals, out)
  | (ksize, vsize) :: sizes, keyOffset, valOffset, vals, out =>
    match find (slice keys keyOffset ksize) with
    | none =>
      if wait then (some .TimedOut, vals, out)
      else
        getSlotsLoop find wait keys sizes (addSize keyOffset ksize) (addSize valOffset vsize) vals
          (out ++ [keyNotFound])
    | some v =>
      let (size, vals) := valCopy vals valOffset vsize v
      getSlotsLoop find wait keys sizes (addSize keyOffset ksize) (addSize valOffset vsize) vals
        (out ++ [size])

/-- The loops of `get`. -/
def getWith (find : Bytes → Option Bytes) (mode : Mode) (packed : Bool) (keys : Bytes)
    (ksizes : List ℕ) (vals : Bytes) (vsizes : List ℕ) : Option Status × GetOutput :=
  if packed then
    let r := keysLoop false (getPackedBody find (mode.has .wait)) keys ksizes 0
      ⟨vals, 0, vals.length, false, []⟩
    let vsizes := r.2.vsizes ++ vsizes.drop r.2.vsizes.length
    match r.1 with
    | some status => (some status, ⟨r.2.vals, vals.length, vsizes⟩)
    | none => (none, ⟨r.2.vals, vals.length - r.2.valRemainingSize, vsizes⟩)
  else
    let r := getSlotsLoop find (mode.has .wait) keys (ksizes.zip vsizes) 0 0 vals []
    (r.1, ⟨r.2.1, vals.length, r.2.2 ++ vsizes.drop r.2.2.length⟩)

end Readers

/-! ### The writers -/

section Writers

variable {σ : Type}

/-- `put`, from the body of its loop. The body is told whether the batch has one pair. -/
def putWith (migrated : σ → Bool) (body : Mode → Bool → Bytes × Bytes → σ → Option Status × σ)
    (mode : Mode) (s : σ) (keys : Bytes) (ksizes : List ℕ) (vals : Bytes) (vsizes : List ℕ) :
    Status × σ :=
  if ksizes.length ≠ vsizes.length then (.InvalidArg, s)
  else if keys.length < accumulate ksizes then (.InvalidArg, s)
  else if vals.length < accumulate vsizes then (.InvalidArg, s)
  else if migrated s then (.Migrated, s)
  else
    let r := pairsLoop (body mode (ksizes.length = 1)) keys vals (ksizes.zip vsizes) 0 0 s
    (r.1.getD .OK, r.2)

/-- `erase`, from the body of its loop. The body is told whether to wait for an absent key. -/
def eraseWith (migrated : σ → Bool) (body : Bool → Bytes → σ → Option Status × σ) (mode : Mode)
    (s : σ) (keys : Bytes) (ksizes : List ℕ) : Status × σ :=
  if migrated s then (.Migrated, s)
  else
    let r := keysLoop true (body (mode.has .wait)) keys ksizes 0 s
    (r.1.getD .OK, r.2)

/-- `get`: its loops, and in the mode `YOKAN_MODE_CONSUME` the erasure of the keys. -/
def getOrConsume (find : σ → Bytes → Option Bytes) (migrated : σ → Bool)
    (erase : Mode → σ → Bytes → List ℕ → Status × σ) (mode : Mode) (packed : Bool) (s : σ)
    (keys : Bytes) (ksizes : List ℕ) (vals : Bytes) (vsizes : List ℕ) : GetResult σ :=
  if ksizes.length ≠ vsizes.length then ⟨.InvalidArg, s, ⟨vals, vals.length, vsizes⟩⟩
  else if migrated s then ⟨.Migrated, s, ⟨vals, vals.length, vsizes⟩⟩
  else
    match getWith (find s) mode packed keys ksizes vals vsizes with
    | (some status, out) => ⟨status, s, out⟩
    | (none, out) =>
      if mode.has .consume then let r := erase mode s keys ksizes; ⟨r.1, r.2, out⟩
      else ⟨.OK, s, out⟩

end Writers

/-- The modes the in-memory backends accept, with Lua filters compiled in. -/
def inMemorySupportsMode (mode : Mode) : Bool :=
  mode == mode &&& (.inclusive ||| .append ||| .consume ||| .wait ||| .newOnly ||| .existOnly |||
    .noPrefix ||| .ignoreKeys ||| .keepLast ||| .suffix ||| .luaFilter ||| .ignoreDocs |||
    .filterValue ||| .libFilter ||| .noRdma ||| .updateNew)

/-! ### What the readers compute -/

section ReaderLemmas

variable {find : Bytes → Option Bytes} {mode : Mode} {keys : Bytes} {ksizes : List ℕ}

theorem existsWith_eq {flags : List Bool} (hwait : mode.has .wait = false)
    (hkeys : Packed keys ksizes) (hlen : ksizes.length ≤ flags.length) :
    existsWith find false mode keys ksizes flags =
      (.OK, (unpack keys ksizes).map (fun k => (find k).isSome) ++ flags.drop ksizes.length) := by
  have hbody : ∀ k flags, existsBody find false k flags = (none, flags ++ [(find k).isSome]) := by
    intro k flags
    unfold existsBody
    cases find k <;> rfl
  unfold existsWith
  rw [if_neg (by omega), if_neg (by decide), hwait, keysLoop_eq hkeys.2 hkeys.1,
    eachRecord_snoc _ hbody]
  simp

theorem lengthWith_eq {vsizes : List ℕ} (hwait : mode.has .wait = false)
    (hkeys : Packed keys ksizes) (hlen : ksizes.length = vsizes.length) :
    lengthWith find false mode keys ksizes vsizes =
      (.OK, (unpack keys ksizes).map (fun k => entrySize (find k))) := by
  have hbody : ∀ k vsizes,
      lengthBody find false k vsizes = (none, vsizes ++ [entrySize (find k)]) := by
    intro k vsizes
    unfold lengthBody
    cases find k <;> rfl
  unfold lengthWith
  rw [if_neg (by simp [hlen]), if_neg (by decide), hwait, keysLoop_eq hkeys.2 hkeys.1,
    eachRecord_snoc _ hbody]
  simp [hlen]

/-- The loop of the packed branch: from any point on, it appends the sizes and the bytes of the
remaining keys. -/
theorem eachRecord_getPackedBody (find : Bytes → Option Bytes) (ks : List Bytes) (g : PackedGet)
    (hroom : g.valOffset + g.valRemainingSize ≤ g.vals.length)
    (hlt : g.vals.length ≤ lastValidSize) :
    let r := packedValues find ks g.valRemainingSize g.bufTooSmall
    let e := eachRecord (getPackedBody find false) ks g
    e.1 = none ∧ e.2.vals = blit g.vals g.valOffset r.2 ∧
      e.2.valRemainingSize = g.valRemainingSize - r.2.length ∧ e.2.vsizes = g.vsizes ++ r.1 := by
  induction ks generalizing g with
  | nil => simp [eachRecord, packedValues]
  | cons k ks ih =>
    unfold packedValues
    simp only [eachRecord, getPackedBody]
    cases hk : find k with
    | none =>
      obtain ⟨h1, h2, h3, h4⟩ := ih { g with vsizes := g.vsizes ++ [keyNotFound] } hroom hlt
      exact ⟨h1, h2, h3, by simpa using h4⟩
    | some v =>
      cases hfull : g.bufTooSmall with
      | true =>
        obtain ⟨h1, h2, h3, h4⟩ := ih { g with vsizes := g.vsizes ++ [sizeTooSmall] } hroom hlt
        simp only [hfull] at h1 h2 h3 h4
        simp only [if_true, true_or]
        exact ⟨h1, h2, h3, by simpa using h4⟩
      | false =>
        -- the first value that does not fit ends the copies, not the loop
        by_cases hfit : g.valRemainingSize < v.length
        · obtain ⟨h1, h2, h3, h4⟩ := ih
            { g with bufTooSmall := true, vsizes := g.vsizes ++ [sizeTooSmall] } hroom hlt
          simp only [valCopy, copyOut, hfit, if_true, Bool.false_eq_true, if_false, false_or]
          exact ⟨h1, h2, h3, by simpa using h4⟩
        · have hne : ¬ v.length = sizeTooSmall := by
            have h1 := lastValidSize_lt_noMoreKeys
            have h2 := noMoreKeys_lt_sizeTooSmall
            omega
          have hadd : addSize g.valOffset v.length = g.valOffset + v.length := by
            have h3 : lastValidSize < 2 ^ 64 := by decide
            exact addSize_eq (by omega)
          have hblit : (blit g.vals g.valOffset v).length = g.vals.length :=
            length_blit (by omega)
          obtain ⟨h1, h2, h3, h4⟩ := ih
            { vals := blit g.vals g.valOffset v
              valOffset := g.valOffset + v.length
              valRemainingSize := g.valRemainingSize - v.length
              bufTooSmall := false
              vsizes := g.vsizes ++ [v.length] }
            (by simp only [hblit]; omega) (by simpa only [hblit] using hlt)
          simp only [valCopy, copyOut, hfit, if_false, Bool.false_eq_true, false_or, hne, hadd]
          refine ⟨h1, ?_, ?_, by simpa using h4⟩
          · rw [h2]
            exact blit_blit_adjacent (by omega)
          · refine h3.trans ?_
            dsimp only
            rw [List.length_append]
            omega

/-- The packed branch of `get`, on a buffer of a proper size. -/
theorem getWith_packed {vals : Bytes} {vsizes : List ℕ} (hwait : mode.has .wait = false)
    (hkeys : Packed keys ksizes) (hlen : ksizes.length = vsizes.length)
    (hvals : vals.length ≤ lastValidSize) :
    getWith find mode true keys ksizes vals vsizes =
      (none,
        let r := packedValues find (unpack keys ksizes) vals.length false
        ⟨blit vals 0 r.2, r.2.length, r.1⟩) := by
  have hle := length_packedValues_le find (unpack keys ksizes) vals.length false
  have hcount := length_packedValues find (unpack keys ksizes) vals.length false
  obtain ⟨h1, h2, h3, h4⟩ := eachRecord_getPackedBody find (unpack keys ksizes)
    ⟨vals, 0, vals.length, false, []⟩ (by simp) hvals
  unfold getWith
  rw [if_pos rfl, hwait, keysLoop_eq hkeys.2 hkeys.1]
  simp only [h1, h2, h3, h4, List.nil_append, hcount, length_unpack, hlen, List.drop_length,
    List.append_nil]
  rw [show vals.length - (vals.length - (packedValues find (unpack keys ksizes) vals.length
    false).2.length) = (packedValues find (unpack keys ksizes) vals.length false).2.length by omega]

theorem getSlotsLoop_none (ps : List (ℕ × ℕ)) (ko vo : ℕ) (vals : Bytes) (out : List ℕ) :
    (getSlotsLoop find false keys ps ko vo vals out).1 = none := by
  induction ps generalizing ko vo vals out with
  | nil => rfl
  | cons p ps ih =>
    obtain ⟨k, v⟩ := p
    unfold getSlotsLoop
    cases find (slice keys ko k) with
    | none => exact ih _ _ _ _
    | some w => exact ih _ _ _ _

/-- Without `YOKAN_MODE_WAIT`, the loops of `get` run to their end. -/
theorem getWith_none {packed : Bool} {vals : Bytes} {vsizes : List ℕ}
    (hwait : mode.has .wait = false) (hkeys : Packed keys ksizes) :
    (getWith find mode packed keys ksizes vals vsizes).1 = none := by
  unfold getWith
  rw [hwait]
  cases packed with
  | false => exact getSlotsLoop_none _ _ _ _ _
  | true =>
    have hbody : ∀ k g, (getPackedBody find false k g).1 = none := by
      intro k g
      unfold getPackedBody
      cases find k with
      | none => rfl
      | some v => simp only; split_ifs <;> rfl
    rw [if_pos rfl, keysLoop_eq hkeys.2 hkeys.1,
      eachRecord_of_none (fun g k => (getPackedBody find false k g).2)
        (fun k g => Prod.ext (hbody k g) rfl)]

/-- The sizes that the loop over the slots reports. -/
theorem getSlotsLoop_sizes {wait : Bool} (hwait : wait = false) (vsizes : List ℕ) (ko vo : ℕ)
    (vals : Bytes) (out : List ℕ) (hlt : ko + ksizes.sum < 2 ^ 64) :
    (getSlotsLoop find wait keys (ksizes.zip vsizes) ko vo vals out).2.2 =
      out ++ List.zipWith (fun k slot => slotSize slot (find k)) (unpack (keys.drop ko) ksizes)
        vsizes := by
  subst hwait
  induction ksizes generalizing vsizes ko vo vals out with
  | nil => simp [getSlotsLoop]
  | cons k ks ih =>
    cases vsizes with
    | nil => simp [getSlotsLoop]
    | cons v vs =>
      rw [List.sum_cons] at hlt
      have hadd : addSize ko k = ko + k := addSize_eq (by omega)
      have hkey : (keys.drop ko).take k = slice keys ko k := rfl
      simp only [List.zip_cons_cons, getSlotsLoop, hadd, unpack_cons, List.zipWith_cons_cons,
        List.drop_drop, hkey]
      cases hfind : find (slice keys ko k) with
      | none =>
        rw [if_neg Bool.false_ne_true, ih _ _ _ _ _ (by omega)]
        simp [slotSize]
      | some w =>
        have hsize : (valCopy vals vo v w).1 = slotSize v (some w) := by
          unfold valCopy copyOut slotSize
          dsimp only
          split_ifs <;> rfl
        rw [ih _ _ _ _ _ (by omega), List.append_assoc, hsize]
        rfl

/-- The sizes that `get` reports for values that have their own slots. -/
theorem getWith_slots_vsizes {vals : Bytes} {vsizes : List ℕ} (hwait : mode.has .wait = false)
    (hkeys : Packed keys ksizes) (hlen : ksizes.length = vsizes.length) :
    (getWith find mode false keys ksizes vals vsizes).2.vsizes =
      List.zipWith (fun k slot => slotSize slot (find k)) (unpack keys ksizes) vsizes := by
  have hsizes : (getSlotsLoop find (mode.has .wait) keys (ksizes.zip vsizes) 0 0 vals []).2.2 =
      _ := getSlotsLoop_sizes hwait vsizes 0 0 vals [] (by rw [Nat.zero_add]; exact hkeys.2)
  rw [List.drop_zero, List.nil_append] at hsizes
  have hcount : (List.zipWith (fun k slot => slotSize slot (find k)) (unpack keys ksizes)
      vsizes).length = vsizes.length := by
    rw [List.length_zipWith, length_unpack, hlen, Nat.min_self]
  simp only [getWith, Bool.false_eq_true, if_false, hsizes, hcount, List.drop_length,
    List.append_nil]

theorem getSlotsLoop_congr {find' : Bytes → Option Bytes} {wait : Bool} (vsizes : List ℕ)
    (ko vo : ℕ) (vals : Bytes) (out : List ℕ) (hlt : ko + ksizes.sum < 2 ^ 64)
    (h : ∀ k ∈ unpack (keys.drop ko) ksizes, find k = find' k) :
    getSlotsLoop find wait keys (ksizes.zip vsizes) ko vo vals out =
      getSlotsLoop find' wait keys (ksizes.zip vsizes) ko vo vals out := by
  induction ksizes generalizing vsizes ko vo vals out with
  | nil => rfl
  | cons k ks ih =>
    cases vsizes with
    | nil => rfl
    | cons v vs =>
      rw [List.sum_cons] at hlt
      rw [unpack_cons, List.drop_drop] at h
      have hkey : find (slice keys ko k) = find' (slice keys ko k) := h _ List.mem_cons_self
      have hrest : ∀ k' ∈ unpack (keys.drop (ko + k)) ks, find k' = find' k' := fun k' hk' =>
        h k' (List.mem_cons_of_mem _ hk')
      have hadd : addSize ko k = ko + k := addSize_eq (by omega)
      simp only [List.zip_cons_cons, getSlotsLoop, hkey, hadd]
      cases find' (slice keys ko k) with
      | none =>
        simp only
        split_ifs
        · rfl
        · exact ih _ _ _ _ _ (by omega) hrest
      | some w => exact ih _ _ _ _ _ (by omega) hrest

/-- `get` only looks up the keys of its batch. -/
theorem getWith_congr {find' : Bytes → Option Bytes} {packed : Bool} {vals : Bytes}
    {vsizes : List ℕ} (hkeys : Packed keys ksizes)
    (h : ∀ k ∈ unpack keys ksizes, find k = find' k) :
    getWith find mode packed keys ksizes vals vsizes =
      getWith find' mode packed keys ksizes vals vsizes := by
  unfold getWith
  cases packed with
  | true =>
    have hbody : ∀ k ∈ unpack keys ksizes, ∀ g, getPackedBody find (mode.has .wait) k g =
        getPackedBody find' (mode.has .wait) k g := by
      intro k hk g
      unfold getPackedBody
      rw [h k hk]
    rw [if_pos rfl, if_pos rfl, keysLoop_eq hkeys.2 hkeys.1, keysLoop_eq hkeys.2 hkeys.1,
      eachRecord_congr hbody]
  | false =>
    have hlt : 0 + ksizes.sum < 2 ^ 64 := by
      rw [Nat.zero_add]
      exact hkeys.2
    rw [if_neg Bool.false_ne_true, if_neg Bool.false_ne_true,
      getSlotsLoop_congr vsizes 0 0 vals [] hlt (by rwa [List.drop_zero])]

end ReaderLemmas

/-! ### What a backend has to show -/

/-- An in-memory backend: its lookup, the bodies of its loops and `fetch`, and what one pass of
each of them does to the content. -/
class InMemory (σ : Type) where
  isSorted : Bool
  find : σ → Bytes → Option Bytes
  migrated : σ → Bool
  putBody : Mode → Bool → Bytes × Bytes → σ → Option Status × σ
  eraseBody : Bool → Bytes → σ → Option Status × σ
  fetch : {υ : Type} → Mode → σ → Bytes → List ℕ → (υ → Bytes → Option Bytes → Status × υ) → υ →
    Status × σ × υ
  find_putBody (mode : Mode) (single : Bool) (p : Bytes × Bytes) (s : σ) :
    find (putBody mode single p s).2 =
      Function.update (find s) p.1 (putRule mode (find s p.1) p.2)
  migrated_putBody (mode : Mode) (single : Bool) (p : Bytes × Bytes) (s : σ) :
    migrated (putBody mode single p s).2 = migrated s
  putBody_single (mode : Mode) (p : Bytes × Bytes) (s : σ) :
    (putBody mode true p s).1.getD .OK = putStatus mode (find s) [p]
  putBody_many (mode : Mode) (p : Bytes × Bytes) (s : σ) : (putBody mode false p s).1 = none
  find_eraseBody (wait : Bool) (key : Bytes) (s : σ) :
    find (eraseBody wait key s).2 = Function.update (find s) key none
  migrated_eraseBody (wait : Bool) (key : Bytes) (s : σ) :
    migrated (eraseBody wait key s).2 = migrated s
  eraseBody_none (key : Bytes) (s : σ) : (eraseBody false key s).1 = none
  fetch_eq {υ : Type} {mode : Mode} {s : σ} {keys : Bytes} {ksizes : List ℕ}
    {func : υ → Bytes → Option Bytes → Status × υ} {u : υ} :
    migrated s = false → mode.has .wait = false → mode.has .consume = false →
    Packed keys ksizes → (∀ u k v, (func u k v).1 = .OK) →
    fetch mode s keys ksizes func u =
      (.OK, s, (unpack keys ksizes).foldl (fun u k => (func u k (find s k)).2) u)

namespace InMemory

variable {σ : Type} [InMemory σ]

instance : DatabaseInterface σ where
  isSorted := isSorted σ
  supportsMode := inMemorySupportsMode
  existsKeys mode s := existsWith (find s) (migrated s) mode
  length mode s := lengthWith (find s) (migrated s) mode
  put := putWith migrated putBody
  get := getOrConsume find migrated (eraseWith migrated eraseBody)
  fetch := fetch
  erase := eraseWith migrated eraseBody

/-- `put` on packed keys and values is the loop over the list of pairs. -/
theorem putWith_eq {mode : Mode} {s : σ} {keys vals : Bytes} {ksizes vsizes : List ℕ}
    (hs : migrated s = false) (hk : Packed keys ksizes) (hv : Packed vals vsizes)
    (hlen : ksizes.length = vsizes.length) :
    putWith migrated putBody mode s keys ksizes vals vsizes =
      (let ps := (unpack keys ksizes).zip (unpack vals vsizes)
       let r := eachRecord (putBody mode (ps.length = 1)) ps s
       (r.1.getD .OK, r.2)) := by
  have hk1 := hk.1
  have hv1 := hv.1
  unfold putWith
  rw [if_neg (by simp [hlen]), accumulate_eq hk.2, accumulate_eq hv.2, if_neg (by omega),
    if_neg (by omega), if_neg (by simp [hs]), pairsLoop_eq hlen hk.2 hv.2]
  simp [List.length_zip, hlen]

theorem putWith_invalid {mode : Mode} {s : σ} {keys vals : Bytes} {ksizes vsizes : List ℕ}
    (hk : ksizes.sum < 2 ^ 64) (hv : vsizes.sum < 2 ^ 64)
    (h : ksizes.length ≠ vsizes.length ∨ keys.length < ksizes.sum ∨ vals.length < vsizes.sum) :
    putWith migrated putBody mode s keys ksizes vals vsizes = (.InvalidArg, s) := by
  unfold putWith
  rw [accumulate_eq hk, accumulate_eq hv]
  split_ifs <;> first | rfl | omega

/-- The loop of `put`: its status and its effect. -/
theorem eachRecord_putBody (mode : Mode) (ps : List (Bytes × Bytes)) (s : σ) :
    let r := eachRecord (putBody mode (ps.length = 1)) ps s
    r.1.getD .OK = putStatus mode (find s) ps ∧ migrated r.2 = migrated s ∧
      find r.2 = writeAll (putRule mode) (find s) ps := by
  have hkeep : migrated (eachRecord (putBody mode (ps.length = 1)) ps s).2 = migrated s :=
    eachRecord_invariant (fun p (s' : σ) (h : migrated s' = migrated s) =>
      (migrated_putBody mode _ p s').trans h) ps rfl
  by_cases h1 : ps.length = 1
  · obtain ⟨p, rfl⟩ := List.length_eq_one_iff.1 h1
    have hs := putBody_single mode p s
    have hc := find_putBody mode true p s
    refine ⟨?_, hkeep, ?_⟩ <;>
      rcases hb : putBody mode true p s with ⟨_ | st, s'⟩ <;> rw [hb] at hs hc <;>
      simp only [List.length_singleton, decide_true, eachRecord, hb]
    · exact hs
    · exact hs
    · exact hc
    · exact hc
  · have hstatus : putStatus mode (find s) ps = .OK := by
      unfold putStatus
      split
      · simp at h1
      · rfl
    have hfold : ∀ (ps : List (Bytes × Bytes)) (s : σ),
        find (ps.foldl (fun s p => (putBody mode false p s).2) s) =
          writeAll (putRule mode) (find s) ps := by
      intro ps
      induction ps with
      | nil => exact fun s => rfl
      | cons p ps ih => intro s; rw [List.foldl_cons, ih, find_putBody, writeAll_cons]
    have hloop := eachRecord_of_none (fun s p => (putBody mode false p s).2)
      (fun p (s : σ) => Prod.ext (putBody_many mode p s) rfl) ps s
    simp only [h1, decide_false] at hkeep ⊢
    refine ⟨?_, hkeep, ?_⟩
    · rw [hstatus, hloop]
      rfl
    · rw [hloop]
      exact hfold ps s

/-- `erase` without waiting removes the keys. -/
theorem eraseWith_eq {mode : Mode} {s : σ} {keys : Bytes} {ksizes : List ℕ}
    (hs : migrated s = false) (hwait : mode.has .wait = false) (hk : Packed keys ksizes) :
    let r := eraseWith migrated eraseBody mode s keys ksizes
    r.1 = .OK ∧ migrated r.2 = false ∧ find r.2 = eraseAll (find s) (unpack keys ksizes) := by
  have hfold : ∀ (ks : List Bytes) (s : σ),
      find (ks.foldl (fun s k => (eraseBody false k s).2) s) = eraseAll (find s) ks := by
    intro ks
    induction ks with
    | nil => exact fun s => rfl
    | cons k ks ih => intro s; rw [List.foldl_cons, ih, find_eraseBody]; rfl
  have hkeep : migrated (eachRecord (eraseBody false) (unpack keys ksizes) s).2 = false :=
    eachRecord_invariant (fun k (s' : σ) (h : migrated s' = false) =>
      (migrated_eraseBody false k s').trans h) (unpack keys ksizes) hs
  have hloop := eachRecord_of_none (fun s k => (eraseBody false k s).2)
    (fun k (s : σ) => Prod.ext (eraseBody_none k s) rfl) (unpack keys ksizes) s
  unfold eraseWith
  rw [if_neg (by simp [hs]), hwait, keysLoop_eq hk.2 hk.1]
  refine ⟨?_, hkeep, ?_⟩
  · rw [hloop]
    rfl
  · dsimp only
    rw [hloop]
    exact hfold _ s

/-- What `get` returns for a batch depends on the entries of its keys alone. -/
theorem getOrConsume_congr {mode : Mode} {packed : Bool} {s t : σ} {keys vals : Bytes}
    {ksizes vsizes : List ℕ} (hs : migrated s = false) (ht : migrated t = false)
    (hwait : mode.has .wait = false) (hk : Packed keys ksizes)
    (h : ∀ k ∈ unpack keys ksizes, find s k = find t k) :
    let get := getOrConsume find migrated (eraseWith migrated eraseBody) mode packed
    (get s keys ksizes vals vsizes).status = (get t keys ksizes vals vsizes).status ∧
      (get s keys ksizes vals vsizes).out = (get t keys ksizes vals vsizes).out := by
  have hloops : getWith (find s) mode packed keys ksizes vals vsizes =
      getWith (find t) mode packed keys ksizes vals vsizes := getWith_congr hk h
  have hs' := (eraseWith_eq hs hwait hk).1
  have ht' := (eraseWith_eq ht hwait hk).1
  dsimp only at hs' ht' ⊢
  unfold getOrConsume
  by_cases hlen : ksizes.length ≠ vsizes.length
  · rw [if_pos hlen, if_pos hlen]
    exact ⟨rfl, rfl⟩
  · rw [if_neg hlen, if_neg hlen, hs, ht, if_neg Bool.false_ne_true, if_neg Bool.false_ne_true,
      hloops]
    rcases getWith (find t) mode packed keys ksizes vals vsizes with ⟨_ | st, out⟩
    · dsimp only
      split_ifs
      · exact ⟨hs'.trans ht'.symm, rfl⟩
      · exact ⟨rfl, rfl⟩
    · exact ⟨rfl, rfl⟩

/-- The sizes `get` reports for values that have their own slots. -/
theorem getOrConsume_slots {mode : Mode} {s : σ} {keys vals : Bytes} {ksizes vsizes : List ℕ}
    (hs : migrated s = false) (hwait : mode.has .wait = false) (hk : Packed keys ksizes)
    (hlen : ksizes.length = vsizes.length) :
    (getOrConsume find migrated (eraseWith migrated eraseBody) mode false s keys ksizes vals
        vsizes).out.vsizes =
      List.zipWith (fun k slot => slotSize slot (find s k)) (unpack keys ksizes) vsizes := by
  have hout : (getWith (find s) mode false keys ksizes vals vsizes).2.vsizes = _ :=
    getWith_slots_vsizes hwait hk hlen
  unfold getOrConsume
  rw [if_neg (by simp [hlen]), if_neg (by simp [hs])]
  rcases hg : getWith (find s) mode false keys ksizes vals vsizes with ⟨_ | st, out⟩
  · rw [hg] at hout
    dsimp only
    split_ifs <;> exact hout
  · rw [hg] at hout
    exact hout

/-- An in-memory backend behaves as a finite map. -/
instance : FiniteMapStore σ where
  contents := find
  Serving s := migrated s = false
  existsKeys_eq {mode s keys ksizes flags} hs hwait hk hlen := by
    show existsWith (find s) (migrated s) mode keys ksizes flags = _
    rw [hs, existsWith_eq hwait hk hlen]
  existsKeys_invalid h := if_pos h
  length_eq {mode s keys ksizes vsizes} hs hwait hk hlen := by
    show lengthWith (find s) (migrated s) mode keys ksizes vsizes = _
    rw [hs, lengthWith_eq hwait hk hlen]
  put_status {mode s keys vals ksizes vsizes} hs hk hv hlen := by
    show (putWith migrated putBody mode s keys ksizes vals vsizes).1 = _
    rw [putWith_eq hs hk hv hlen]
    exact (eachRecord_putBody mode _ s).1
  put_contents {mode s keys vals ksizes vsizes} hs hk hv hlen := by
    show migrated (putWith migrated putBody mode s keys ksizes vals vsizes).2 = false ∧
      find (putWith migrated putBody mode s keys ksizes vals vsizes).2 = _
    rw [putWith_eq hs hk hv hlen]
    have h := (eachRecord_putBody mode ((unpack keys ksizes).zip (unpack vals vsizes)) s).2
    exact ⟨h.1.trans hs, h.2⟩
  put_invalid hk hv h := putWith_invalid hk hv (h.imp id Or.inr)
  get_contents {mode packed s keys vals ksizes vsizes} hs hwait hk hlen := by
    have hnone : (getWith (find s) mode packed keys ksizes vals vsizes).1 = none :=
      getWith_none hwait hk
    have herase := eraseWith_eq hs hwait hk
    let r := getOrConsume find migrated (eraseWith migrated eraseBody) mode packed s keys ksizes
      vals vsizes
    show r.status = _ ∧ migrated r.db = false ∧ find r.db = _
    unfold r getOrConsume
    rw [if_neg (by simp [hlen]), if_neg (by simp [hs])]
    rcases hg : getWith (find s) mode packed keys ksizes vals vsizes with ⟨_ | st, out⟩
    · simp only
      split_ifs
      · exact herase
      · exact ⟨rfl, hs, rfl⟩
    · rw [hg] at hnone
      cases hnone
  get_invalid {mode packed s keys vals ksizes vsizes} hlen := by
    let r := getOrConsume find migrated (eraseWith migrated eraseBody) mode packed s keys ksizes
      vals vsizes
    show r.status = _ ∧ r.db = _
    unfold r getOrConsume
    rw [if_pos hlen]
    exact ⟨rfl, rfl⟩
  get_packed {mode s keys vals ksizes vsizes} hs hwait hk hlen hvals := by
    show (getOrConsume find migrated (eraseWith migrated eraseBody) mode true s keys ksizes
      vals vsizes).out = _
    unfold getOrConsume
    rw [if_neg (by simp [hlen]), if_neg (by simp [hs]), getWith_packed hwait hk hlen hvals]
    simp only
    split_ifs <;> rfl
  fetch_eq hs hwait hconsume hk hfunc := fetch_eq hs hwait hconsume hk hfunc
  erase_eq hs hwait hk := eraseWith_eq hs hwait hk

end InMemory

end Yokan
