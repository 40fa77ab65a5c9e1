import Yokan.Engines
import Yokan.GetValues

/-!
# Yokan: packed `get` on five backends

`database.h` says of a packed `get` that once a value does not fit in the buffer, "the rest of the
value sizes will be set to YOKAN_SIZE_TOO_SMALL". The backends over a library do that. The two in
memory go on looking the keys up, and report an absent one as `YOKAN_KEY_NOT_FOUND` wherever it
stands in the batch.

* `getPackedLoop_eq`, `TkrzwDatabase.getLoop_eq`: what the loops over a library compute;
* `packedValues_eq_iff`: it is what the backends in memory compute when the values before each
  absent key fit in the buffer, and only then;
* `packed_get_same_iff`: so the five backends give the same answer exactly in that case.
-/

namespace Yokan

open Buffer FiniteMapStore

/-! ### Stopping at the first value that does not fit -/

/-- The sizes and the bytes of a packed `get` that ends with the first value larger than the
remaining `room`. -/
def valuesUntilFull {κ : Type} (m : κ → Option Bytes) : List κ → ℕ → List ℕ × Bytes
  | [], _ => ([], [])
  | k :: ks, room =>
    match m k with
    | none => let r := valuesUntilFull m ks room; (keyNotFound :: r.1, r.2)
    | some v =>
      if room < v.length then (List.replicate (ks.length + 1) sizeTooSmall, [])
      else let r := valuesUntilFull m ks (room - v.length); (v.length :: r.1, v ++ r.2)

/-- The values of the keys that come before an absent key fit in `room` bytes. -/
def AbsentFit {κ : Type} (m : κ → Option Bytes) (ks : List κ) (room : ℕ) : Prop :=
  ∀ i : Fin ks.length, m ks[i] = none → ((ks.take i).filterMap m).flatten.length ≤ room

instance {κ : Type} (m : κ → Option Bytes) (ks : List κ) (room : ℕ) :
    Decidable (AbsentFit m ks room) :=
  inferInstanceAs (Decidable (∀ _ : Fin _, _))

section Values

variable {κ : Type} {m : κ → Option Bytes}

theorem length_valuesUntilFull (ks : List κ) (room : ℕ) :
    (valuesUntilFull m ks room).1.length = ks.length := by
  induction ks generalizing room with
  | nil => rfl
  | cons k ks ih =>
    unfold valuesUntilFull
    cases m k with
    | none => simp [ih]
    | some v => simp only; split_ifs <;> simp [ih]

theorem length_valuesUntilFull_le (ks : List κ) (room : ℕ) :
    (valuesUntilFull m ks room).2.length ≤ room := by
  induction ks generalizing room with
  | nil => exact Nat.zero_le _
  | cons k ks ih =>
    unfold valuesUntilFull
    cases m k with
    | none => exact ih room
    | some v =>
      simp only
      split_ifs with h
      · exact Nat.zero_le _
      · have hrest := ih (room - v.length)
        simp only [List.length_append]
        omega

theorem absentFit_cons (k : κ) (ks : List κ) (room : ℕ) :
    AbsentFit m (k :: ks) room ↔
      ∀ i : Fin ks.length, m ks[i] = none →
        ((m k).getD []).length + ((ks.take i).filterMap m).flatten.length ≤ room := by
  have hhead : m (k :: ks)[(0 : Fin (ks.length + 1))] = none →
      (((k :: ks).take 0).filterMap m).flatten.length ≤ room := fun _ => Nat.zero_le _
  have htail : ∀ i : Fin ks.length, (((k :: ks).take (i + 1)).filterMap m).flatten.length =
      ((m k).getD []).length + ((ks.take i).filterMap m).flatten.length := by
    intro i
    rw [List.take_succ_cons]
    cases hk : m k with
    | none => rw [List.filterMap_cons_none hk]; simp
    | some v => rw [List.filterMap_cons_some hk, List.flatten_cons, List.length_append]; rfl
  constructor
  · intro h i hi
    rw [← htail i]
    exact h i.succ hi
  · intro h
    refine (Fin.forall_fin_succ (n := ks.length)).2 ⟨hhead, fun i hi => ?_⟩
    exact (htail i).trans_le (h i hi)

theorem absentFit_cons_none {k : κ} (hk : m k = none) (ks : List κ) (room : ℕ) :
    AbsentFit m (k :: ks) room ↔ AbsentFit m ks room := by
  rw [absentFit_cons, hk]
  refine forall₂_congr fun i _ => ?_
  rw [Option.getD_none, List.length_nil, Nat.zero_add]

theorem absentFit_cons_fits {k : κ} {v : Bytes} (hk : m k = some v) (ks : List κ) {room : ℕ}
    (hfits : v.length ≤ room) : AbsentFit m (k :: ks) room ↔ AbsentFit m ks (room - v.length) := by
  rw [absentFit_cons, hk]
  refine forall₂_congr fun i _ => ?_
  rw [Option.getD_some]
  omega

theorem absentFit_cons_full {k : κ} {v : Bytes} (hk : m k = some v) (ks : List κ) {room : ℕ}
    (hfull : room < v.length) : AbsentFit m (k :: ks) room ↔ ∀ k' ∈ ks, (m k').isSome := by
  have hnone : ∀ k', (m k').isSome ↔ ¬ m k' = none := fun k' => Option.isSome_iff_ne_none
  rw [absentFit_cons, hk, Option.getD_some, List.forall_mem_iff_get]
  refine forall_congr' fun i => ?_
  rw [hnone]
  exact ⟨fun h hi => by have := h hi; omega, fun h hi => absurd hi h⟩

/-- A batch of renamed keys, seen through the renaming. -/
theorem absentFit_map {ι : Type} (f : ι → κ) (ks : List ι) (room : ℕ) :
    AbsentFit m (ks.map f) room ↔ AbsentFit (fun i => m (f i)) ks room := by
  induction ks generalizing room with
  | nil => exact ⟨fun _ i => i.elim0, fun _ i => i.elim0⟩
  | cons i ks ih =>
    rw [List.map_cons]
    cases hk : m (f i) with
    | none => rw [absentFit_cons_none hk, absentFit_cons_none (m := fun i => m (f i)) hk, ih]
    | some v =>
      by_cases hfull : room < v.length
      · rw [absentFit_cons_full hk _ hfull, absentFit_cons_full (m := fun i => m (f i)) hk ks hfull]
        exact List.forall_mem_map
      · rw [absentFit_cons_fits hk _ (Nat.not_lt.1 hfull),
          absentFit_cons_fits (m := fun i => m (f i)) hk ks (Nat.not_lt.1 hfull), ih]

theorem valuesUntilFull_map {ι : Type} (f : ι → κ) (ks : List ι) (room : ℕ) :
    valuesUntilFull m (ks.map f) room = valuesUntilFull (fun i => m (f i)) ks room := by
  induction ks generalizing room with
  | nil => rfl
  | cons i ks ih => simp only [List.map_cons, valuesUntilFull, ih, List.length_map]

end Values

section Batches

variable {m : Bytes → Option Bytes}

/-- The bytes are the same in both ways of going on. -/
theorem packedValues_snd (ks : List Bytes) (room : ℕ) :
    (packedValues m ks room false).2 = (valuesUntilFull m ks room).2 := by
  induction ks generalizing room with
  | nil => rfl
  | cons k ks ih =>
    unfold packedValues valuesUntilFull
    cases m k with
    | none => exact ih room
    | some v =>
      by_cases hfull : room < v.length
      · simp only [hfull, or_true, if_true, packedValues_full]
      · simp only [hfull, Bool.false_eq_true, or_self, if_false, ih]

/-- The two ways report the same when no key is absent behind the point where the buffer is full,
and only then. -/
theorem packedValues_eq_iff (ks : List Bytes) (room : ℕ) :
    packedValues m ks room false = valuesUntilFull m ks room ↔ AbsentFit m ks room := by
  induction ks generalizing room with
  | nil => exact ⟨fun _ i => i.elim0, fun _ => rfl⟩
  | cons k ks ih =>
    cases hk : m k with
    | none =>
      rw [absentFit_cons_none hk, ← ih room]
      simp [packedValues, valuesUntilFull, hk, Prod.ext_iff]
    | some v =>
      by_cases hfull : room < v.length
      · have hmark : ∀ k', (if (m k').isSome then sizeTooSmall else keyNotFound) = sizeTooSmall ↔
            (m k').isSome = true := by
          intro k'
          have hne : keyNotFound ≠ sizeTooSmall := by decide
          cases (m k').isSome <;> simp [hne]
        rw [absentFit_cons_full hk ks hfull]
        simp only [packedValues, valuesUntilFull, hk, hfull, or_true, if_true, packedValues_full,
          List.replicate_succ, Prod.mk.injEq, and_true, List.cons.injEq, true_and,
          List.map_eq_replicate_iff, hmark]
      · rw [absentFit_cons_fits hk ks (by omega), ← ih (room - v.length)]
        simp [packedValues, valuesUntilFull, hk, hfull, Prod.ext_iff]

end Batches

/-! ### What the loops compute -/

section Loops

variable {m : Bytes → Option Bytes} {keys : Bytes} {ksizes vsizes : List ℕ}

/-- The loop of LevelDB and LMDB, from any point on. -/
theorem getPackedLoop_eq {lookup : Bytes → Lookup} {strict : Bool} {ko : ℕ} {g : PackedFill}
    (hlookup : ∀ k ∈ unpack (keys.drop ko) ksizes, lookup k = .ofEntry (m k))
    (hlen : ksizes.length = vsizes.length) (hkeys : ko + ksizes.sum < 2 ^ 64)
    (hroom : g.valOffset + g.valRemainingSize ≤ g.vals.length) (hvals : g.vals.length < 2 ^ 64) :
    let r := valuesUntilFull m (unpack (keys.drop ko) ksizes) g.valRemainingSize
    getPackedLoop lookup strict keys (ksizes.zip vsizes) ko g =
      (none, ⟨blit g.vals g.valOffset r.2, g.valOffset + r.2.length,
        g.valRemainingSize - r.2.length, g.vsizes ++ r.1⟩) := by
  induction ksizes generalizing vsizes ko g with
  | nil => simp [getPackedLoop, valuesUntilFull]
  | cons ksize ksizes ih =>
    obtain - | ⟨vsize, vsizes⟩ := vsizes
    · simp at hlen
    rw [List.sum_cons] at hkeys
    rw [unpack_cons, List.drop_drop] at hlookup ⊢
    have hhead : lookup (slice keys ko ksize) = .ofEntry (m (slice keys ko ksize)) :=
      hlookup _ List.mem_cons_self
    have hadd : addSize ko ksize = ko + ksize := addSize_eq (by omega)
    have htail : ∀ k ∈ unpack (keys.drop (ko + ksize)) ksizes, lookup k = .ofEntry (m k) :=
      fun k hk => hlookup k (List.mem_cons_of_mem _ hk)
    have hcount : ksizes.length = vsizes.length := Nat.succ.inj hlen
    rw [List.zip_cons_cons, getPackedLoop, hhead, hadd]
    unfold valuesUntilFull
    rw [show (keys.drop ko).take ksize = slice keys ko ksize from rfl]
    rcases m (slice keys ko ksize) with _ | v
    · dsimp only [Lookup.ofEntry]
      rw [ih htail hcount (by omega) (by exact hroom) (by exact hvals)]
      simp
    · dsimp only [Lookup.ofEntry]
      by_cases hfull : g.valRemainingSize < v.length
      · rw [if_pos hfull, if_pos hfull, List.length_zip, length_unpack, ← hcount, Nat.min_self]
        simp
      · have hblit : (blit g.vals g.valOffset v).length = g.vals.length := length_blit (by omega)
        have hoffset : addSize g.valOffset v.length = g.valOffset + v.length :=
          addSize_eq (by omega)
        rw [if_neg hfull, if_neg hfull, hoffset,
          ih htail hcount (by omega) (by dsimp only; omega) (by dsimp only; omega)]
        simp only [blit_blit_adjacent (show g.valOffset + v.length ≤ g.vals.length by omega),
          List.length_append, Nat.sub_sub, Nat.add_assoc, List.append_assoc, List.singleton_append]

/-- The packed branch of `get` over a library that returns the entries of `m`. -/
theorem getLoops_packed {lookup : Bytes → Lookup} {strict : Bool} {vals : Bytes}
    (hlookup : ∀ k ∈ unpack keys ksizes, lookup k = .ofEntry (m k)) (hkeys : Packed keys ksizes)
    (hlen : ksizes.length = vsizes.length) (hvals : vals.length < 2 ^ 64) :
    let r := valuesUntilFull m (unpack keys ksizes) vals.length
    getLoops lookup strict true keys ksizes vals vsizes =
      (none, ⟨blit vals 0 r.2, r.2.length, r.1⟩) := by
  intro r
  have hle : r.2.length ≤ vals.length := length_valuesUntilFull_le _ _
  have hcount : r.1.length = vsizes.length := by
    rw [length_valuesUntilFull, length_unpack, hlen]
  have hloop : getPackedLoop lookup strict keys (ksizes.zip vsizes) 0 ⟨vals, 0, vals.length, []⟩ =
      (none, ⟨blit vals 0 r.2, r.2.length, vals.length - r.2.length, r.1⟩) := by
    have hstart : ∀ k ∈ unpack (keys.drop 0) ksizes, lookup k = .ofEntry (m k) := hlookup
    rw [getPackedLoop_eq hstart hlen (by rw [Nat.zero_add]; exact hkeys.2) (Nat.zero_add _).le hvals,
      List.drop_zero, Nat.zero_add, List.nil_append]
  unfold getLoops
  rw [if_pos rfl, hloop]
  simp only [hcount, List.drop_length, List.append_nil, Nat.sub_sub_self hle]

/-- The loop of Tkrzw, from any point on. -/
theorem TkrzwDatabase.getLoop_eq {process : Bytes → Lookup} {ko : ℕ} {g : GetValue} {out : List ℕ}
    (hprocess : ∀ k ∈ unpack (keys.drop ko) ksizes, process k = .ofEntry (m k))
    (hlen : ksizes.length = vsizes.length) (hkeys : ko + ksizes.sum < 2 ^ 64)
    (hoffset : g.offset ≤ g.values.length) (hvalues : g.values.length ≤ lastValidSize) :
    let r := valuesUntilFull m (unpack (keys.drop ko) ksizes) (g.values.length - g.offset)
    getLoop process true keys (ksizes.zip vsizes) ko g out =
      (none, ⟨blit g.values g.offset r.2, g.offset + r.2.length⟩, out ++ r.1) := by
  induction ksizes generalizing vsizes ko g out with
  | nil => simp [getLoop, valuesUntilFull]
  | cons ksize ksizes ih =>
    obtain - | ⟨vsize, vsizes⟩ := vsizes
    · simp at hlen
    rw [List.sum_cons] at hkeys
    rw [unpack_cons, List.drop_drop] at hprocess ⊢
    have hhead : process (slice keys ko ksize) = .ofEntry (m (slice keys ko ksize)) :=
      hprocess _ List.mem_cons_self
    have hadd : addSize ko ksize = ko + ksize := addSize_eq (by omega)
    have htail : ∀ k ∈ unpack (keys.drop (ko + ksize)) ksizes, process k = .ofEntry (m k) :=
      fun k hk => hprocess k (List.mem_cons_of_mem _ hk)
    have hcount : ksizes.length = vsizes.length := Nat.succ.inj hlen
    have hmark : lastValidSize < sizeTooSmall := by decide
    have hlast : lastValidSize < 2 ^ 64 := by decide
    rw [List.zip_cons_cons, getLoop, hhead, hadd]
    unfold valuesUntilFull
    rw [show (keys.drop ko).take ksize = slice keys ko ksize from rfl]
    rcases m (slice keys ko ksize) with _ | v
    · dsimp only [Lookup.ofEntry, GetValue.processEmpty]
      rw [if_pos rfl, ih htail hcount (by omega) hoffset hvalues]
      simp
    · dsimp only [Lookup.ofEntry, GetValue.processFull]
      rw [if_pos rfl]
      by_cases hfull : g.values.length - g.offset < v.length
      · rw [if_pos hfull, if_pos hfull, if_pos ⟨rfl, rfl⟩, List.length_zip, length_unpack, ← hcount,
          Nat.min_self]
        simp
      · have hblit : (blit g.values g.offset v).length = g.values.length := length_blit (by omega)
        have hnext : addSize g.offset v.length = g.offset + v.length := addSize_eq (by omega)
        have hne : ¬ (true = true ∧ v.length = sizeTooSmall) := by omega
        rw [if_neg hfull, if_neg hfull, if_neg hne, hnext,
          ih htail hcount (by omega) (by dsimp only; omega) (by dsimp only; omega)]
        simp only [blit_blit_adjacent (show g.offset + v.length ≤ g.values.length by omega), hblit,
          List.length_append, Nat.sub_sub, Nat.add_assoc, List.append_assoc, List.singleton_append]

end Loops

/-! ### The five backends -/

/-- What a caller of `get` sees: the status, the value buffer, `vals.size` and `vsizes`. -/
def GetResult.answer {σ : Type} (r : GetResult σ) : Status × GetOutput := (r.status, r.out)

/-- The answer of a packed `get` that reports the given sizes and bytes. -/
def packedAnswer (vals : Bytes) (r : List ℕ × Bytes) : Status × GetOutput :=
  (.OK, ⟨blit vals 0 r.2, r.2.length, r.1⟩)

/-- A LevelDB database that holds the entries of `m` for the keys of a batch, and can remove
them. -/
structure LevelDBDatabase.Holds {δ : Type} [LevelDB δ] (s : LevelDBDatabase δ)
    (m : Bytes → Option Bytes) (ks : List Bytes) : Prop where
  migrated : s.migrated = false
  get : ∀ k ∈ ks, LevelDB.get s.db k = .ofEntry (m k)
  write : (LevelDB.write s.db ks).1 = .OK

/-- The same for LMDB. -/
structure LMDBDatabase.Holds {δ : Type} [LMDB δ] (s : LMDBDatabase δ)
    (m : Bytes → Option Bytes) (ks : List Bytes) : Prop where
  migrated : s.migrated = false
  txnBegin : LMDB.txnBegin s.db = .OK
  get : ∀ k ∈ ks, LMDB.get s.db k = .ofEntry (m k)
  del : ∀ txn : δ, ∀ k ∈ ks, (LMDB.del txn k).1 = .OK ∨ (LMDB.del txn k).1 = .NotFound
  txnCommit : ∀ txn : δ, (LMDB.txnCommit txn).1 = .OK

/-- The same for Tkrzw. -/
structure TkrzwDatabase.Holds {δ : Type} [Tkrzw δ] (s : TkrzwDatabase δ)
    (m : Bytes → Option Bytes) (ks : List Bytes) : Prop where
  migrated : s.migrated = false
  process : ∀ k ∈ ks, Tkrzw.process s.db k = .ofEntry (m k)
  remove : ∀ db : δ, ∀ k ∈ ks, (Tkrzw.remove db k).1 = .OK ∨ (Tkrzw.remove db k).1 = .NotFound

section Answers

variable {mode : Mode} {m : Bytes → Option Bytes} {keys vals : Bytes} {ksizes vsizes : List ℕ}

/-- A backend in memory goes on after the first value that does not fit. -/
theorem FiniteMapStore.get_answer {σ : Type} [FiniteMapStore σ] {s : σ} (hs : Serving s)
    (hm : contents s = m) (hwait : mode.has .wait = false) (hkeys : Packed keys ksizes)
    (hlen : ksizes.length = vsizes.length) (hvals : vals.length ≤ lastValidSize) :
    (DatabaseInterface.get mode true s keys ksizes vals vsizes).answer =
      packedAnswer vals (packedValues m (unpack keys ksizes) vals.length false) := by
  subst hm
  exact Prod.ext (get_contents hs hwait hkeys hlen).1 (get_packed hs hwait hkeys hlen hvals)

variable {δ : Type}

theorem LevelDBDatabase.Holds.erase_status [LevelDB δ] {s : LevelDBDatabase δ}
    (h : s.Holds m (unpack keys ksizes)) (hkeys : Packed keys ksizes) :
    (s.erase mode keys ksizes).1 = .OK := by
  have hloop : keysLoop true (fun key wb => (none, wb ++ [key])) keys ksizes 0 [] =
      ((none, unpack keys ksizes) : Option Status × List Bytes) := by
    rw [keysLoop_eq hkeys.2 hkeys.1, eachRecord_snoc _ (fun _ _ => rfl)]
    simp
  unfold LevelDBDatabase.erase
  rw [h.migrated, if_neg Bool.false_ne_true, hloop]
  exact h.write

theorem LevelDBDatabase.Holds.get_answer [LevelDB δ] (mode : Mode) {s : LevelDBDatabase δ}
    (h : s.Holds m (unpack keys ksizes)) (hkeys : Packed keys ksizes)
    (hlen : ksizes.length = vsizes.length) (hvals : vals.length ≤ lastValidSize) :
    (s.get mode true keys ksizes vals vsizes).answer =
      packedAnswer vals (valuesUntilFull m (unpack keys ksizes) vals.length) := by
  have hlast : lastValidSize < 2 ^ 64 := by decide
  unfold LevelDBDatabase.get
  rw [h.migrated, if_neg Bool.false_ne_true, if_neg (not_not.2 hlen),
    getLoops_packed h.get hkeys hlen (by omega)]
  dsimp only
  split_ifs
  · exact Prod.ext (h.erase_status hkeys) rfl
  · rfl

theorem LMDBDatabase.Holds.erase_status [LMDB δ] {s : LMDBDatabase δ}
    (h : s.Holds m (unpack keys ksizes)) (hkeys : Packed keys ksizes) :
    (s.erase mode keys ksizes).1 = .OK := by
  have hbody : ∀ k ∈ unpack keys ksizes, ∀ txn : δ,
      LMDBDatabase.eraseBody k txn = (none, (LMDB.del txn k).2) := by
    intro k hk txn
    unfold LMDBDatabase.eraseBody
    dsimp only
    rw [if_neg]
    rcases h.del txn k hk with hdel | hdel <;> simp [hdel]
  have hsum : ¬ keys.length < accumulate ksizes := by
    rw [accumulate_eq hkeys.2]
    exact Nat.not_lt.2 hkeys.1
  unfold LMDBDatabase.erase
  rw [h.migrated, if_neg Bool.false_ne_true, if_neg hsum, if_neg (not_not.2 h.txnBegin),
    keysLoop_eq hkeys.2 hkeys.1, eachRecord_of_none_of_mem _ hbody]
  exact h.txnCommit _

theorem LMDBDatabase.Holds.get_answer [LMDB δ] (mode : Mode) {s : LMDBDatabase δ}
    (h : s.Holds m (unpack keys ksizes)) (hkeys : Packed keys ksizes)
    (hlen : ksizes.length = vsizes.length) (hvals : vals.length ≤ lastValidSize) :
    (s.get mode true keys ksizes vals vsizes).answer =
      packedAnswer vals (valuesUntilFull m (unpack keys ksizes) vals.length) := by
  have hlast : lastValidSize < 2 ^ 64 := by decide
  unfold LMDBDatabase.get
  rw [h.migrated, if_neg Bool.false_ne_true, if_neg (not_not.2 hlen),
    if_neg (not_not.2 h.txnBegin), getLoops_packed h.get hkeys hlen (by omega)]
  dsimp only
  split_ifs
  · exact Prod.ext (h.erase_status hkeys) rfl
  · rfl

theorem TkrzwDatabase.Holds.erase_status [Tkrzw δ] {s : TkrzwDatabase δ}
    (h : s.Holds m (unpack keys ksizes)) (hkeys : Packed keys ksizes) :
    (s.erase mode keys ksizes).1 = .OK := by
  have hbody : ∀ k ∈ unpack keys ksizes, ∀ t : TkrzwDatabase δ,
      TkrzwDatabase.eraseBody k t = (none, { t with db := (Tkrzw.remove t.db k).2 }) := by
    intro k hk t
    unfold TkrzwDatabase.eraseBody
    dsimp only
    rw [if_neg]
    rcases h.remove t.db k hk with hremove | hremove <;> simp [hremove]
  unfold TkrzwDatabase.erase
  rw [h.migrated, if_neg Bool.false_ne_true, keysLoop_eq hkeys.2 hkeys.1,
    eachRecord_of_none_of_mem _ hbody]
  rfl

theorem TkrzwDatabase.Holds.get_answer [Tkrzw δ] (mode : Mode) {s : TkrzwDatabase δ}
    (h : s.Holds m (unpack keys ksizes)) (hkeys : Packed keys ksizes)
    (hlen : ksizes.length = vsizes.length) (hvals : vals.length ≤ lastValidSize) :
    (s.get mode true keys ksizes vals vsizes).answer =
      packedAnswer vals (valuesUntilFull m (unpack keys ksizes) vals.length) := by
  have hcount : (valuesUntilFull m (unpack keys ksizes) vals.length).1.length = vsizes.length := by
    rw [length_valuesUntilFull, length_unpack, hlen]
  have hloop : TkrzwDatabase.getLoop (Tkrzw.process s.db) true keys (ksizes.zip vsizes) 0 ⟨vals, 0⟩
      [] = _ :=
    TkrzwDatabase.getLoop_eq (by exact h.process) hlen (by rw [Nat.zero_add]; exact hkeys.2)
      (Nat.zero_le _) hvals
  rw [List.drop_zero, Nat.sub_zero] at hloop
  unfold TkrzwDatabase.get
  rw [h.migrated, if_neg Bool.false_ne_true, if_neg (not_not.2 hlen)]
  simp only [hloop, List.nil_append, hcount, List.drop_length, List.append_nil, Nat.zero_add]
  split_ifs
  · exact Prod.ext (h.erase_status hkeys) rfl
  · rfl

theorem packedAnswer_eq_iff (ks : List Bytes) :
    packedAnswer vals (packedValues m ks vals.length false) =
        packedAnswer vals (valuesUntilFull m ks vals.length) ↔
      AbsentFit m ks vals.length := by
  rw [← packedValues_eq_iff, Prod.ext_iff (x := packedValues m ks vals.length false)]
  simp [packedAnswer, packedValues_snd]

end Answers

/-- The answers to one request are all the same. -/
def SameAnswers {α : Type} (answers : List α) : Prop :=
  ∀ a ∈ answers, ∀ b ∈ answers, a = b

instance {α : Type} [DecidableEq α] (answers : List α) : Decidable (SameAnswers answers) :=
  inferInstanceAs (Decidable (∀ _ ∈ _, ∀ _ ∈ _, _))

/-- The five backends give the same answer to a packed `get` when the values before each absent
key fit in the buffer together, and only then. -/
theorem packed_get_same_iff {mode : Mode} {m : Bytes → Option Bytes} {keys vals : Bytes}
    {ksizes vsizes : List ℕ} {c : Comparator} {map : MapDatabase c}
    {unordered : UnorderedMapDatabase} {δ₁ δ₂ δ₃ : Type} [LevelDB δ₁] [LMDB δ₂] [Tkrzw δ₃]
    {leveldb : LevelDBDatabase δ₁} {lmdb : LMDBDatabase δ₂} {tkrzw : TkrzwDatabase δ₃}
    (hmap : map.migrated = false ∧ map.find = m)
    (hunordered : unordered.migrated = false ∧ unordered.find = m)
    (hleveldb : leveldb.Holds m (unpack keys ksizes)) (hlmdb : lmdb.Holds m (unpack keys ksizes))
    (htkrzw : tkrzw.Holds m (unpack keys ksizes)) (hwait : mode.has .wait = false)
    (hkeys : Packed keys ksizes) (hlen : ksizes.length = vsizes.length)
    (hvals : vals.length ≤ lastValidSize) :
    SameAnswers
        [(map.get mode true keys ksizes vals vsizes).answer,
          (unordered.get mode true keys ksizes vals vsizes).answer,
          (leveldb.get mode true keys ksizes vals vsizes).answer,
          (lmdb.get mode true keys ksizes vals vsizes).answer,
          (tkrzw.get mode true keys ksizes vals vsizes).answer] ↔
      AbsentFit m (unpack keys ksizes) vals.length := by
  have hmap : (map.get mode true keys ksizes vals vsizes).answer = _ :=
    get_answer (s := map) hmap.1 hmap.2 hwait hkeys hlen hvals
  have hunordered : (unordered.get mode true keys ksizes vals vsizes).answer = _ :=
    get_answer (s := unordered) hunordered.1 hunordered.2 hwait hkeys hlen hvals
  rw [hmap, hunordered, hleveldb.get_answer mode hkeys hlen hvals,
    hlmdb.get_answer mode hkeys hlen hvals, htkrzw.get_answer mode hkeys hlen hvals,
    ← packedAnswer_eq_iff]
  constructor
  · intro h
    exact h _ (by simp) _ (by simp)
  · intro h
    rw [h]
    simp [SameAnswers]

/-! ### A batch on which they differ -/

/-- A library that keeps its pairs in a list. -/
structure Table where
  pairs : List (Bytes × Bytes)
  deriving DecidableEq

namespace Table

def get (t : Table) (key : Bytes) : Lookup := .ofEntry (t.pairs.lookup key)

theorem lawfulBEq : LawfulBEq Bytes := inferInstance

def remove (t : Table) (keys : List Bytes) : Table :=
  haveI := lawfulBEq
  ⟨t.pairs.filter (fun p => p.1 ∉ keys)⟩

/-- The status of the removal of one key. -/
def removeStatus (t : Table) (key : Bytes) : Status :=
  if (t.pairs.lookup key).isSome then .OK else .NotFound

theorem removeStatus_cases (t : Table) (key : Bytes) :
    t.removeStatus key = .OK ∨ t.removeStatus key = .NotFound := by
  unfold removeStatus
  split_ifs
  · exact Or.inl rfl
  · exact Or.inr rfl

instance : LevelDB Table where
  get := get
  write t keys := (.OK, t.remove keys)

instance : LMDB Table where
  txnBegin _ := .OK
  get := get
  del t key := (t.removeStatus key, t.remove [key])
  txnCommit t := (.OK, t)

instance : Tkrzw Table where
  process := get
  remove t key := (t.removeStatus key, t.remove [key])

end Table

/-- One key, with a value of two bytes. -/
def oneEntry : Bytes → Option Bytes := Function.update (fun _ => none) [97] (some [1, 2])

/-- The library with that key. -/
def oneEntryTable : Table := ⟨[([97], [1, 2])]⟩

def oneEntryMap : MapDatabase .default := (MapDatabase.empty .default).assign [97] [1, 2]

def oneEntryUnordered : UnorderedMapDatabase := UnorderedMapDatabase.empty.assign [97] [1, 2]

theorem oneEntryTable_get (key : Bytes) : oneEntryTable.get key = .ofEntry (oneEntry key) := by
  by_cases h : key = [97]
  · subst h
    rfl
  · have hlookup : oneEntryTable.pairs.lookup key = none := by simp [oneEntryTable, h]
    rw [Table.get, hlookup, oneEntry, Function.update_of_ne h]

section OneEntry

variable (ks : List Bytes)

theorem oneEntry_leveldb : LevelDBDatabase.Holds ⟨oneEntryTable, false⟩ oneEntry ks :=
  ⟨rfl, fun k _ => oneEntryTable_get k, rfl⟩

theorem oneEntry_lmdb : LMDBDatabase.Holds ⟨oneEntryTable, false⟩ oneEntry ks :=
  ⟨rfl, rfl, fun k _ => oneEntryTable_get k, fun t k _ => t.removeStatus_cases k, fun _ => rfl⟩

theorem oneEntry_tkrzw : TkrzwDatabase.Holds ⟨oneEntryTable, false⟩ oneEntry ks :=
  ⟨rfl, fun k _ => oneEntryTable_get k, fun t k _ => t.removeStatus_cases k⟩

theorem oneEntry_map : oneEntryMap.migrated = false ∧ oneEntryMap.find = oneEntry :=
  ⟨rfl, MapDatabase.find_assign _ _ _⟩

theorem oneEntry_unordered :
    oneEntryUnordered.migrated = false ∧ oneEntryUnordered.find = oneEntry :=
  ⟨rfl, UnorderedMapDatabase.find_assign _ _ _⟩

end OneEntry

/-- An absent key before the value that does not fit. -/
theorem packed_get_same_two :
    SameAnswers
        [(oneEntryMap.get .default true [98, 97] [1, 1] [0] [0, 0]).answer,
          (oneEntryUnordered.get .default true [98, 97] [1, 1] [0] [0, 0]).answer,
          (LevelDBDatabase.get .default true ⟨oneEntryTable, false⟩ [98, 97] [1, 1] [0] [0, 0]).answer,
          (LMDBDatabase.get .default true ⟨oneEntryTable, false⟩ [98, 97] [1, 1] [0] [0, 0]).answer,
          (TkrzwDatabase.get .default true ⟨oneEntryTable, false⟩ [98, 97] [1, 1] [0]
            [0, 0]).answer] ↔
      AbsentFit oneEntry (unpack [98, 97] [1, 1]) 1 :=
  packed_get_same_iff oneEntry_map oneEntry_unordered (oneEntry_leveldb _) (oneEntry_lmdb _)
    (oneEntry_tkrzw _) (by decide) (by decide) rfl (by decide)

/-- An absent key behind it: the backends in memory report it as absent, the others as too
large. -/
theorem packed_get_differs :
    ¬ ∀ (m : Bytes → Option Bytes) (keys vals : Bytes) (ksizes vsizes : List ℕ)
      (map : MapDatabase .default) (unordered : UnorderedMapDatabase)
      (leveldb : LevelDBDatabase Table) (lmdb : LMDBDatabase Table) (tkrzw : TkrzwDatabase Table),
      map.migrated = false ∧ map.find = m → unordered.migrated = false ∧ unordered.find = m →
      leveldb.Holds m (unpack keys ksizes) → lmdb.Holds m (unpack keys ksizes) →
      tkrzw.Holds m (unpack keys ksizes) → Packed keys ksizes → ksizes.length = vsizes.length →
      SameAnswers
        [(map.get .default true keys ksizes vals vsizes).answer,
          (unordered.get .default true keys ksizes vals vsizes).answer,
          (leveldb.get .default true keys ksizes vals vsizes).answer,
          (lmdb.get .default true keys ksizes vals vsizes).answer,
          (tkrzw.get .default true keys ksizes vals vsizes).answer] := by
  intro h
  have hsame := h oneEntry [97, 98] [0] [1, 1] [0, 0] oneEntryMap oneEntryUnordered
    ⟨oneEntryTable, false⟩ ⟨oneEntryTable, false⟩ ⟨oneEntryTable, false⟩ oneEntry_map
    oneEntry_unordered (oneEntry_leveldb _) (oneEntry_lmdb _) (oneEntry_tkrzw _) (by decide) rfl
  revert hsame
  decide

end Yokan
