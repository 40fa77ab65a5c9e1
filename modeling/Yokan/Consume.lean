import Yokan.Map
import Yokan.Library.Interleaving

/-!
# Yokan: consuming gets next to each other

In the mode `YOKAN_MODE_CONSUME`, `get` of the in-memory backends copies the values in one section
and erases the keys in a second one; the lock is released in between, and other calls of `get` and
`put` may run their sections there.

A number is kept for each key, which every write to the key increments, so that `(key, number)` is a
value that was written. It is not part of the code and nothing depends on it.

* `getCopy`: the first section of `get`, and `get_alone`: the two sections without interruption;
* `consumeSection_recorded`: what every section keeps, whatever runs in between;
* `consume_exactlyOnce_iff`: values are returned by one `get` only, and removed by the `get` that
  returned them, exactly if no `get` copies a value that another one has copied and not erased yet,
  and no `get` erases a value written since its first section.
-/

namespace Yokan

open Buffer PartialMap Transition Interleaving InMemory FiniteMapStore

/-! ### The sections -/

/-- The first section of `get`, up to the release of the lock: its status if it returns there. -/
def getCopy (find : Bytes → Option Bytes) (migrated : Bool) (mode : Mode) (packed : Bool)
    (keys : Bytes) (ksizes : List ℕ) (vals : Bytes) (vsizes : List ℕ) :
    Option Status × GetOutput :=
  if ksizes.length ≠ vsizes.length then (some .InvalidArg, ⟨vals, vals.length, vsizes⟩)
  else if migrated then (some .Migrated, ⟨vals, vals.length, vsizes⟩)
  else
    match getWith find mode packed keys ksizes vals vsizes with
    | (some status, out) => (some status, out)
    | (none, out) => (if mode.has .consume then none else some .OK, out)

/-- `get` is its first section, and `erase` if it does not return there. -/
theorem getOrConsume_eq {σ : Type} (find : σ → Bytes → Option Bytes) (migrated : σ → Bool)
    (erase : Mode → σ → Bytes → List ℕ → Status × σ) (mode : Mode) (packed : Bool) (s : σ)
    (keys : Bytes) (ksizes : List ℕ) (vals : Bytes) (vsizes : List ℕ) :
    getOrConsume find migrated erase mode packed s keys ksizes vals vsizes =
      match getCopy (find s) (migrated s) mode packed keys ksizes vals vsizes with
      | (some status, out) => ⟨status, s, out⟩
      | (none, out) => ⟨(erase mode s keys ksizes).1, (erase mode s keys ksizes).2, out⟩ := by
  unfold getOrConsume getCopy
  split_ifs
  · rfl
  · rfl
  · rcases getWith (find s) mode packed keys ksizes vals vsizes with ⟨_ | status, out⟩
    · rfl
    · rfl
  · rcases getWith (find s) mode packed keys ksizes vals vsizes with ⟨_ | status, out⟩
    · rfl
    · rfl

/-- A database, with the number of writes to each key. -/
structure Versioned (σ : Type) where
  db : σ
  version : Bytes → ℕ

/-- A call of `put` or `get`, between two of its sections. A value is a key with the number of the
write that left it; `seen` has the numbers as of the first section of a `get`. -/
inductive KeyCall
  | put (mode : Mode) (keys : Bytes) (ksizes : List ℕ) (vals : Bytes) (vsizes : List ℕ)
  | putDone (status : Status) (overwritten : List (Bytes × ℕ))
  | get (mode : Mode) (packed : Bool) (keys : Bytes) (ksizes : List ℕ) (vals : Bytes)
    (vsizes : List ℕ)
  | getDone (status : Status) (out : GetOutput)
  | copied (mode : Mode) (keys : Bytes) (ksizes : List ℕ) (out : GetOutput) (seen : Bytes → ℕ)
  | consumed (status : Status) (keys : Bytes) (ksizes : List ℕ) (out : GetOutput)
    (seen : Bytes → ℕ) (removed : List (Bytes × ℕ))

/-- Whether `put` writes to a key that is there, or not there. -/
def writes (mode : Mode) (present : Bool) : Bool :=
  if mode.has .newOnly then !present else if mode.has .existOnly then present else true

namespace Versioned

variable {σ : Type} [InMemory σ]

/-- The values under the keys of a list. -/
def values (s : Versioned σ) (ks : List Bytes) : List (Bytes × ℕ) :=
  (ks.filter fun k => (find s.db k).isSome).map fun k => (k, s.version k)

/-- The keys of its batch that a `put` writes to. -/
def written (s : Versioned σ) (mode : Mode) (status : Status) (ks : List Bytes) : List Bytes :=
  if status = .OK then ks.filter fun k => writes mode (find s.db k).isSome else []

/-- The next section of a call. -/
def consumeSection (s : Versioned σ) : KeyCall → Option (Versioned σ × KeyCall)
  | .put mode keys ksizes vals vsizes =>
    let (status, db) := DatabaseInterface.put mode s.db keys ksizes vals vsizes
    let ks := s.written mode status (unpack keys ksizes)
    some (⟨db, fun k => if k ∈ ks then s.version k + 1 else s.version k⟩,
      .putDone status (s.values ks))
  | .get mode packed keys ksizes vals vsizes =>
    match getCopy (find s.db) (migrated s.db) mode packed keys ksizes vals vsizes with
    | (some status, out) => some (s, .getDone status out)
    | (none, out) => some (s, .copied mode keys ksizes out s.version)
  | .copied mode keys ksizes out seen =>
    let (status, db) := DatabaseInterface.erase mode s.db keys ksizes
    some (⟨db, s.version⟩, .consumed status keys ksizes out seen
      ((s.values (unpack keys ksizes)).filter fun x => (find db x.1).isNone))
  | .putDone _ _ | .getDone _ _ | .consumed _ _ _ _ _ _ => none

end Versioned

namespace KeyCall

/-- The values that a `get` has copied for its caller: those of the keys with a proper size. -/
def returned : KeyCall → List (Bytes × ℕ)
  | copied _ keys ksizes out seen | consumed _ keys ksizes out seen _ =>
    (((unpack keys ksizes).zip out.vsizes).filter fun p =>
      p.2 ≠ keyNotFound ∧ p.2 ≠ sizeTooSmall).map fun p => (p.1, seen p.1)
  | _ => []

/-- The values that a `get` has removed. -/
def removed : KeyCall → List (Bytes × ℕ)
  | consumed _ _ _ _ _ removed => removed
  | _ => []

/-- The values that a `put` has written over. -/
def overwritten : KeyCall → List (Bytes × ℕ)
  | putDone _ overwritten => overwritten
  | _ => []

/-- What a `get` returns to its caller. -/
def result : KeyCall → Option (Status × GetOutput)
  | getDone status out | consumed status _ _ out _ _ => some (status, out)
  | _ => none

/-- The keys that the next section copies. -/
def toCopy : KeyCall → List Bytes
  | get _ _ keys ksizes _ vsizes => if ksizes.length = vsizes.length then unpack keys ksizes else []
  | _ => []

/-- The keys that the next section erases. -/
def toErase : KeyCall → List Bytes
  | copied _ keys ksizes _ _ => unpack keys ksizes
  | _ => []

end KeyCall

/-- The values that two calls have in common are overwritten by a `put`. -/
def OnceOnly (calls : List KeyCall) (a b : KeyCall) : Prop :=
  ∀ x ∈ a.returned, x ∈ b.returned → ∃ c ∈ calls, x ∈ c.overwritten

/-- A value that no `put` has written over is returned by one call only, and what a call has removed
it has returned. -/
structure ExactlyOnce (calls : List KeyCall) : Prop where
  once : calls.Pairwise (OnceOnly calls)
  returned : ∀ call ∈ calls, ∀ x ∈ call.removed, x ∈ call.returned

instance (calls : List KeyCall) (a b : KeyCall) : Decidable (OnceOnly calls a b) := by
  unfold OnceOnly
  infer_instance

instance (calls : List KeyCall) : Decidable (ExactlyOnce calls) :=
  decidable_of_iff (calls.Pairwise (OnceOnly calls) ∧
      ∀ call ∈ calls, ∀ x ∈ call.removed, x ∈ call.returned)
    ⟨fun h => ⟨h.1, h.2⟩, fun h => ⟨h.once, h.returned⟩⟩

section

variable {σ : Type} [InMemory σ] {s t : Versioned σ} {call call' : KeyCall} {mode : Mode}
  {packed : Bool} {keys vals : Bytes} {ksizes vsizes : List ℕ}

open Versioned

/-- The sections of a `get` that runs alone are `get`. -/
theorem Versioned.get_alone {n : ℕ} {status : Status} {out : GetOutput}
    (h : sections consumeSection n s (.get mode packed keys ksizes vals vsizes) = some (t, call'))
    (hresult : call'.result = some (status, out)) :
    DatabaseInterface.get mode packed s.db keys ksizes vals vsizes = ⟨status, t.db, out⟩ := by
  show getOrConsume find migrated (eraseWith migrated eraseBody) mode packed s.db keys ksizes vals
    vsizes = _
  rw [getOrConsume_eq]
  cases n with
  | zero =>
    obtain ⟨-, rfl⟩ := Prod.mk.inj (Option.some.inj h)
    cases hresult
  | succ n =>
  obtain ⟨r, hr, hrest⟩ := Option.bind_eq_some_iff.1 h
  rcases hcopy : getCopy (find s.db) (migrated s.db) mode packed keys ksizes vals vsizes with
    ⟨_ | st, out'⟩ <;> simp only [consumeSection, hcopy, Option.some.injEq] at hr <;> subst hr
  · cases n with
    | zero =>
      obtain ⟨-, rfl⟩ := Prod.mk.inj (Option.some.inj hrest)
      cases hresult
    | succ n =>
      obtain ⟨r, hr, hrest⟩ := Option.bind_eq_some_iff.1 hrest
      obtain rfl := Option.some.inj hr
      obtain ⟨rfl, rfl⟩ := Prod.mk.inj (sections_of_none rfl hrest).2
      obtain ⟨rfl, rfl⟩ := Prod.mk.inj (Option.some.inj hresult)
      rfl
  · obtain ⟨rfl, rfl⟩ := Prod.mk.inj (sections_of_none rfl hrest).2
    obtain ⟨rfl, rfl⟩ := Prod.mk.inj (Option.some.inj hresult)
    rfl

/-! ### What a section does to the values -/

/-- A key that is not written keeps its entry. -/
theorem writeAll_of_not_writes {m : Bytes → Option Bytes} {k : Bytes}
    (h : writes mode (m k).isSome = false) (ps : List (Bytes × Bytes)) :
    writeAll (putRule mode) m ps k = m k := by
  have hrule : ∀ val, putRule mode (m k) val = m k := by
    intro val
    unfold writes at h
    unfold putRule
    cases hk : m k <;> rw [hk] at h <;> split_ifs at h ⊢ <;> first | rfl | cases h
  rw [writeAll_apply]
  induction (ps.filter fun p => p.1 = k).map Prod.snd with
  | nil => rfl
  | cons val vals ih => rw [List.foldl_cons, hrule, ih]

/-- The numbers only grow, and a value that is there was there before or is a new one. -/
structure Versioned.Evolves (s t : Versioned σ) : Prop where
  le : ∀ k, s.version k ≤ t.version k
  old : ∀ k, (find t.db k).isSome → t.version k = s.version k → (find s.db k).isSome

theorem Versioned.mem_values {ks : List Bytes} {x : Bytes × ℕ} :
    x ∈ s.values ks ↔ x.1 ∈ ks ∧ (find s.db x.1).isSome ∧ x.2 = s.version x.1 := by
  simp only [values, List.mem_map, List.mem_filter]
  constructor
  · rintro ⟨k, ⟨hk, hsome⟩, rfl⟩
    exact ⟨hk, hsome, rfl⟩
  · rintro ⟨hk, hsome, hx⟩
    exact ⟨x.1, ⟨hk, hsome⟩, Prod.ext rfl hx.symm⟩

/-- `put` writes to the keys that it counts as written, and to no others. -/
theorem Versioned.put_spec (hs : migrated s.db = false) (hk : ksizes.sum < 2 ^ 64)
    (hv : vsizes.sum < 2 ^ 64) {status : Status} {db : σ}
    (hput : DatabaseInterface.put mode s.db keys ksizes vals vsizes = (status, db)) :
    migrated db = false ∧
      ∀ k ∉ s.written mode status (unpack keys ksizes), find db k = find s.db k := by
  by_cases hproper : ksizes.length = vsizes.length ∧ ksizes.sum ≤ keys.length ∧
      vsizes.sum ≤ vals.length
  · obtain ⟨hlen, hkeys, hvals⟩ := hproper
    have hk : Packed keys ksizes := ⟨hkeys, hk⟩
    have hv : Packed vals vsizes := ⟨hvals, hv⟩
    obtain ⟨hdb, hcontents⟩ := put_contents (σ := σ) hs hk hv hlen
    rw [hput] at hdb hcontents
    refine ⟨hdb, fun k hnot => (congrFun hcontents k).trans ?_⟩
    by_cases hok : status = .OK
    · -- the key is not in the batch, or the mode leaves it alone
      simp only [written, hok, if_true, List.mem_filter, not_and, Bool.not_eq_true] at hnot
      by_cases hmem : k ∈ unpack keys ksizes
      · exact writeAll_of_not_writes (hnot hmem) _
      · refine writeAll_of_notMem fun hk => hmem ?_
        obtain ⟨p, hp, rfl⟩ := List.mem_map.1 hk
        exact (List.of_mem_zip hp).1
    · have hstatus : (DatabaseInterface.put mode s.db keys ksizes vals vsizes).1 = _ :=
        put_status hs hk hv hlen
      rw [hput] at hstatus
      rw [writeAll_of_putStatus_ne fun h => hok (hstatus.trans h)]
      rfl
  · have hinvalid : putWith migrated putBody mode s.db keys ksizes vals vsizes = _ :=
      putWith_invalid hk hv (by omega)
    obtain ⟨rfl, rfl⟩ := Prod.mk.inj (hput.symm.trans hinvalid)
    exact ⟨hs, fun k _ => rfl⟩

/-! ### What the first section of `get` copies -/

/-- The buffers of a `get` have room for all the values under its keys. -/
def BuffersFit (find : Bytes → Option Bytes) (packed : Bool) (keys : Bytes) (ksizes : List ℕ)
    (vals : Bytes) (vsizes : List ℕ) : Prop :=
  vals.length ≤ lastValidSize ∧
    if packed then ((unpack keys ksizes).filterMap find).flatten.length ≤ vals.length
    else vsizes.sum ≤ vals.length ∧
      ∀ p ∈ (unpack keys ksizes).zip vsizes, ((find p.1).getD []).length ≤ p.2

instance (find : Bytes → Option Bytes) (packed : Bool) (keys : Bytes) (ksizes : List ℕ)
    (vals : Bytes) (vsizes : List ℕ) :
    Decidable (BuffersFit find packed keys ksizes vals vsizes) := by
  unfold BuffersFit
  infer_instance

theorem BuffersFit.length_le {find : Bytes → Option Bytes}
    (h : BuffersFit find packed keys ksizes vals vsizes) (hlen : ksizes.length = vsizes.length)
    {k val : Bytes} (hk : k ∈ unpack keys ksizes) (hval : find k = some val) :
    val.length ≤ lastValidSize := by
  obtain ⟨hmax, hfit⟩ := h
  refine le_trans ?_ hmax
  cases packed with
  | true =>
    refine le_trans ?_ hfit
    rw [List.length_flatten]
    exact List.single_le_sum (by simp) _
      (List.mem_map_of_mem (List.mem_filterMap.2 ⟨k, hk, hval⟩))
  | false =>
    obtain ⟨hsum, hslots⟩ := hfit
    obtain ⟨i, hi, rfl⟩ := List.getElem_of_mem hk
    have hi' : i < vsizes.length := by rwa [length_unpack, hlen] at hi
    have hslot := hslots ((unpack keys ksizes)[i], vsizes[i])
      (List.mem_iff_getElem.2 ⟨i, by rw [List.length_zip]; omega, by simp⟩)
    rw [hval, Option.getD_some] at hslot
    exact hslot.trans ((List.single_le_sum (by simp) _ (List.getElem_mem hi')).trans hsum)

/-- With buffers that are large enough, `get` reports the size of every value. -/
theorem getWith_vsizes {find : Bytes → Option Bytes} (hwait : mode.has .wait = false)
    (hk : Packed keys ksizes) (hlen : ksizes.length = vsizes.length)
    (hfit : BuffersFit find packed keys ksizes vals vsizes) :
    (getWith find mode packed keys ksizes vals vsizes).2.vsizes =
      (unpack keys ksizes).map fun k => entrySize (find k) := by
  obtain ⟨hmax, hfit⟩ := hfit
  cases packed with
  | true =>
    rw [getWith_packed hwait hk hlen hmax, packedValues_of_le find _ hfit]
  | false =>
    rw [getWith_slots_vsizes hwait hk hlen]
    refine List.ext_getElem (by simp [hlen]) fun i hi hi' => ?_
    rw [List.length_zipWith] at hi
    have hslot := hfit.2 ((unpack keys ksizes)[i], vsizes[i])
      (List.mem_iff_getElem.2 ⟨i, by rw [List.length_zip]; omega, by simp⟩)
    simp only [List.getElem_zipWith, List.getElem_map]
    cases hval : find (unpack keys ksizes)[i] with
    | none => rfl
    | some val =>
      rw [hval, Option.getD_some] at hslot
      exact if_neg (Nat.not_lt.2 hslot)

/-- With buffers that are large enough, the first section copies the values under the keys. -/
theorem Versioned.getCopy_spec (hs : migrated s.db = false) (hconsume : mode.has .consume = true)
    (hwait : mode.has .wait = false) (hk : Packed keys ksizes)
    (hlen : ksizes.length = vsizes.length)
    (hfit : BuffersFit (find s.db) packed keys ksizes vals vsizes) :
    ∃ out, getCopy (find s.db) (migrated s.db) mode packed keys ksizes vals vsizes = (none, out) ∧
      (KeyCall.copied mode keys ksizes out s.version).returned = s.values (unpack keys ksizes) := by
  have hvsizes := getWith_vsizes hwait hk hlen hfit
  have hnone : (getWith (find s.db) mode packed keys ksizes vals vsizes).1 = none :=
    getWith_none hwait hk
  rcases hget : getWith (find s.db) mode packed keys ksizes vals vsizes with ⟨status, out⟩
  rw [hget] at hvsizes hnone
  dsimp only at hvsizes hnone
  subst hnone
  refine ⟨out, ?_, ?_⟩
  · unfold getCopy
    rw [if_neg (by simp [hlen]), if_neg (by simp [hs]), hget]
    simp only [hconsume, if_true]
  · simp only [KeyCall.returned, values]
    rw [hvsizes, ← List.map_prod_left_eq_zip, List.filter_map, List.map_map]
    refine congrArg (List.map _) (List.filter_congr fun k hmem => ?_)
    have hsizes : lastValidSize < keyNotFound ∧ lastValidSize < sizeTooSmall := by decide
    cases hval : find s.db k with
    | none => simp [hval, entrySize]
    | some val =>
      have hle := hfit.length_le hlen hmem hval
      have hne : val.length ≠ keyNotFound ∧ val.length ≠ sizeTooSmall := by omega
      simp [hval, entrySize, hne]

/-! ### What is kept -/

namespace KeyCall

/-- The call is between its sections and lists the key, which has not been written since the first
of them. -/
def Holds (s : Versioned σ) (k : Bytes) : KeyCall → Prop
  | copied _ keys ksizes _ seen => k ∈ unpack keys ksizes ∧ s.version k = seen k
  | _ => False

/-- What is known of a call, from its arguments and its record of the values. -/
def Recorded (s : Versioned σ) : KeyCall → Prop
  | put _ _ ksizes _ vsizes => ksizes.sum < 2 ^ 64 ∧ vsizes.sum < 2 ^ 64
  | putDone _ overwritten => ∀ x ∈ overwritten, x.2 < s.version x.1
  | get mode _ keys ksizes _ _ =>
    mode.has .consume = true ∧ mode.has .wait = false ∧ Packed keys ksizes
  | getDone _ _ => True
  | copied mode keys ksizes out seen =>
    mode.has .wait = false ∧ Packed keys ksizes ∧ (∀ k, seen k ≤ s.version k) ∧
      (∀ x ∈ (copied mode keys ksizes out seen).returned,
        x.1 ∈ unpack keys ksizes ∧ x.2 = seen x.1) ∧
      ∀ k ∈ unpack keys ksizes, (find s.db k).isSome → s.version k = seen k →
        (k, seen k) ∈ (copied mode keys ksizes out seen).returned
  | consumed status keys ksizes out seen removed =>
    status = .OK ∧ ∀ x ∈ (consumed status keys ksizes out seen removed).returned,
      x.2 ≤ s.version x.1 ∧ ((find s.db x.1).isSome → s.version x.1 ≠ x.2)

/-- What is known of a call is not affected by the sections of others. -/
theorem Recorded.mono (h : call.Recorded s) (hst : s.Evolves t) : call.Recorded t := by
  cases call with
  | put mode keys ksizes vals vsizes => exact h
  | putDone status overwritten => exact fun x hx => (h x hx).trans_le (hst.le x.1)
  | get mode packed keys ksizes vals vsizes => exact h
  | getDone status out => trivial
  | copied mode keys ksizes out seen =>
    obtain ⟨hwait, hk, hseen, hreturned, hheld⟩ := h
    refine ⟨hwait, hk, fun k => (hseen k).trans (hst.le k), hreturned, fun k hmem hsome heq => ?_⟩
    have hold : t.version k = s.version k :=
      le_antisymm (heq.trans_le (hseen k)) (hst.le k)
    exact hheld k hmem (hst.old k hsome hold) (hold.symm.trans heq)
  | consumed status keys ksizes out seen removed =>
    refine ⟨h.1, fun x hx => ?_⟩
    obtain ⟨hle, hgone⟩ := h.2 x hx
    refine ⟨hle.trans (hst.le x.1), fun hsome heq => ?_⟩
    have hold : t.version x.1 = s.version x.1 :=
      le_antisymm (heq.trans_le hle) (hst.le x.1)
    exact hgone (hst.old x.1 hsome hold) (hold.symm.trans heq)

/-- A value that is there has been returned by the calls that hold its key. -/
theorem Recorded.mem_returned_iff (h : call.Recorded s) {k : Bytes} (hk : (find s.db k).isSome) :
    (k, s.version k) ∈ call.returned ↔ call.Holds s k := by
  cases call with
  | copied mode keys ksizes out seen =>
    obtain ⟨-, -, -, hreturned, hheld⟩ := h
    constructor
    · exact fun hmem => hreturned _ hmem
    · rintro ⟨hmem, heq⟩
      rw [heq]
      exact hheld k hmem hk heq
  | consumed status keys ksizes out seen removed =>
    exact ⟨fun hmem => (h.2 _ hmem).2 hk rfl, False.elim⟩
  | put mode keys ksizes vals vsizes => exact iff_of_false List.not_mem_nil id
  | putDone status overwritten => exact iff_of_false List.not_mem_nil id
  | get mode packed keys ksizes vals vsizes => exact iff_of_false List.not_mem_nil id
  | getDone status out => exact iff_of_false List.not_mem_nil id

end KeyCall

namespace KeyCall

/-- A call of `put`, or of `get` that consumes and does not wait. -/
def Arrives : KeyCall → Prop
  | put _ _ ksizes _ vsizes => ksizes.sum < 2 ^ 64 ∧ vsizes.sum < 2 ^ 64
  | get mode _ keys ksizes _ _ =>
    mode.has .consume = true ∧ mode.has .wait = false ∧ Packed keys ksizes
  | _ => False

/-- The buffers of the call are large enough when its next section runs. -/
def Fits (s : Versioned σ) : KeyCall → Prop
  | get _ packed keys ksizes vals vsizes => BuffersFit (find s.db) packed keys ksizes vals vsizes
  | _ => True

instance : Decidable call.Arrives := by
  cases call <;> unfold Arrives <;> infer_instance

instance : Decidable (call.Fits s) := by
  cases call <;> unfold Fits <;> infer_instance

instance (k : Bytes) : Decidable (call.Holds s k) := by
  cases call <;> unfold Holds <;> infer_instance

theorem Arrives.recorded (h : call.Arrives) : call.Recorded s := by
  cases call <;> first | exact h | cases h

/-- A call that has not run a section has no values. -/
theorem Arrives.values_eq (h : call.Arrives) :
    call.returned = [] ∧ call.removed = [] ∧ call.overwritten = [] := by
  cases call <;> first | exact ⟨rfl, rfl, rfl⟩ | cases h

theorem Recorded.overwritten_lt (h : call.Recorded s) {x : Bytes × ℕ} (hx : x ∈ call.overwritten) :
    x.2 < s.version x.1 := by
  cases call <;> first | exact h x hx | cases hx

end KeyCall

/-- What a section adds to the values of its call. -/
structure Section (s : Versioned σ) (call call' : KeyCall) : Prop where
  returned : call'.returned = call.returned ++ s.values call.toCopy
  removed : call'.removed = s.values call.toErase
  overwritten : call.overwritten = []
  separate : (∀ k, ¬ call.Holds s k) ∧ call'.overwritten = [] ∨ call.toCopy = []
  copiedBefore : call.toErase = [] ∨ call.toCopy = []

/-- Every section keeps what is known of the calls. -/
theorem Versioned.consumeSection_spec (hs : migrated s.db = false) (h : call.Recorded s)
    (hfit : call.Fits s) (hr : s.consumeSection call = some (t, call')) :
    (migrated t.db = false ∧ s.Evolves t ∧ call'.Recorded t) ∧ Section s call call' := by
  cases call with
  | put mode keys ksizes vals vsizes =>
    -- the keys of a put get a new version, the other ones keep theirs
    rcases hput : DatabaseInterface.put mode s.db keys ksizes vals vsizes with ⟨status, db⟩
    simp only [consumeSection, hput, Option.some.injEq, Prod.mk.injEq] at hr
    obtain ⟨rfl, rfl⟩ := hr
    obtain ⟨hdb, hkept⟩ := put_spec hs h.1 h.2 hput
    refine ⟨⟨hdb, ?_, ?_⟩, rfl, rfl, rfl, Or.inr rfl, Or.inr rfl⟩
    · constructor
      · intro k
        dsimp only
        split_ifs <;> omega
      · intro k hsome hversion
        dsimp only at hsome hversion
        split_ifs at hversion with hmem
        · omega
        · rwa [← hkept k hmem]
    · intro x hx
      obtain ⟨hmem, -, hversion⟩ := mem_values.1 hx
      dsimp only
      rw [if_pos hmem, hversion]
      exact Nat.lt_succ_self _
  | get mode packed keys ksizes vals vsizes =>
    -- the first section of a get copies, and changes nothing
    obtain ⟨hconsume, hwait, hk⟩ := h
    have hevolves : s.Evolves s := ⟨fun k => le_rfl, fun k hsome _ => hsome⟩
    by_cases hlen : ksizes.length = vsizes.length
    · obtain ⟨out, hcopy, hreturned⟩ := getCopy_spec hs hconsume hwait hk hlen hfit
      simp only [consumeSection, hcopy, Option.some.injEq, Prod.mk.injEq] at hr
      obtain ⟨rfl, rfl⟩ := hr
      refine ⟨⟨hs, hevolves, hwait, hk, fun k => le_rfl, ?_, ?_⟩, ?_, rfl, rfl,
        Or.inl ⟨fun k => id, rfl⟩, Or.inl rfl⟩
      · intro x hx
        rw [hreturned, mem_values] at hx
        exact ⟨hx.1, hx.2.2⟩
      · intro k hmem hsome _
        rw [hreturned, mem_values]
        exact ⟨hmem, hsome, rfl⟩
      · rw [hreturned, KeyCall.toCopy, if_pos hlen]
        rfl
    · have hcopy : getCopy (find s.db) (migrated s.db) mode packed keys ksizes vals vsizes = _ :=
        if_pos hlen
      simp only [consumeSection, hcopy, Option.some.injEq, Prod.mk.injEq] at hr
      obtain ⟨rfl, rfl⟩ := hr
      refine ⟨⟨hs, hevolves, trivial⟩, ?_, rfl, rfl, Or.inl ⟨fun k => id, rfl⟩, Or.inl rfl⟩
      rw [KeyCall.toCopy, if_neg hlen]
      rfl
  | copied mode keys ksizes out seen =>
    -- the second one erases what is there by then, copied or not
    obtain ⟨hwait, hk, hseen, hreturned, hheld⟩ := h
    obtain ⟨hok, hdb, hfind⟩ := erase_eq (σ := σ) hs hwait hk
    rcases herase : DatabaseInterface.erase mode s.db keys ksizes with ⟨status, db⟩
    rw [herase] at hok hdb hfind
    have hfind : find db = eraseAll (find s.db) (unpack keys ksizes) := hfind
    simp only [consumeSection, herase, Option.some.injEq, Prod.mk.injEq] at hr
    obtain ⟨rfl, rfl⟩ := hr
    refine ⟨⟨hdb, ⟨fun k => le_rfl, ?_⟩, hok, ?_⟩, ?_, ?_, rfl, Or.inr rfl, Or.inr rfl⟩
    · intro k hsome _
      dsimp only at hsome
      rw [hfind, eraseAll_apply] at hsome
      split_ifs at hsome
      · cases hsome
      · exact hsome
    · intro x hx
      obtain ⟨hmem, hversion⟩ := hreturned x hx
      refine ⟨hversion.trans_le (hseen x.1), fun hsome => ?_⟩
      dsimp only at hsome
      rw [hfind, eraseAll_apply, if_pos hmem] at hsome
      cases hsome
    · exact (List.append_nil _).symm
    · refine List.filter_eq_self.2 fun x hx => ?_
      rw [hfind, eraseAll_apply, if_pos (mem_values.1 hx).1]
      rfl
  | putDone status overwritten => cases hr
  | getDone status out => cases hr
  | consumed status keys ksizes out seen removed => cases hr

/-! ### Exactly once -/

/-- One call among others. -/
theorem exactlyOnce_middle {before after : List KeyCall} :
    ExactlyOnce (before ++ call :: after) ↔
      ((∀ b ∈ before ++ after, OnceOnly (before ++ call :: after) call b) ∧
        (before ++ after).Pairwise (OnceOnly (before ++ call :: after))) ∧
      (∀ x ∈ call.removed, x ∈ call.returned) ∧
        ∀ b ∈ before ++ after, ∀ x ∈ b.removed, x ∈ b.returned := by
  have hsymm : ∀ {a b}, OnceOnly (before ++ call :: after) a b →
      OnceOnly (before ++ call :: after) b a := fun h x hb ha => h x ha hb
  constructor
  · rintro ⟨honce, hreturned⟩
    rw [List.pairwise_middle hsymm, List.pairwise_cons] at honce
    simp only [List.forall_mem_append, List.forall_mem_cons] at hreturned
    exact ⟨honce, hreturned.2.1, List.forall_mem_append.2 ⟨hreturned.1, hreturned.2.2⟩⟩
  · rintro ⟨honce, hcall, hothers⟩
    rw [← List.pairwise_cons, ← List.pairwise_middle hsymm] at honce
    rw [List.forall_mem_append] at hothers
    refine ⟨honce, List.forall_mem_append.2 ⟨hothers.1, ?_⟩⟩
    exact List.forall_mem_cons.2 ⟨hcall, hothers.2⟩

/-- The next section of the call meets no value that another `get` has copied and not erased yet, and
none that was written since its own first section. -/
def Undisturbed (s : Versioned σ) (calls : List KeyCall) (call : KeyCall) : Prop :=
  (∀ k ∈ call.toCopy, (find s.db k).isSome → ∀ other ∈ calls, ¬ other.Holds s k) ∧
    ∀ k ∈ call.toErase, (find s.db k).isSome → call.Holds s k

instance (calls : List KeyCall) : Decidable (Undisturbed s calls call) :=
  inferInstanceAs (Decidable (_ ∧ _))

/-- A section keeps the values apart exactly if it is undisturbed. -/
theorem undisturbed_iff {before after : List KeyCall}
    (hrecorded : ∀ c ∈ before ++ call :: after, c.Recorded s) (hsection : Section s call call')
    (h : ExactlyOnce (before ++ call :: after)) :
    Undisturbed s (before ++ call :: after) call ↔ ExactlyOnce (before ++ call' :: after) := by
  rw [exactlyOnce_middle] at h ⊢
  simp only [List.forall_mem_append, List.forall_mem_cons] at hrecorded
  obtain ⟨hbefore, hcall, hafter⟩ := hrecorded
  have hothers : ∀ b ∈ before ++ after, b.Recorded s := List.forall_mem_append.2 ⟨hbefore, hafter⟩
  obtain ⟨⟨honce, hpairwise⟩, -, hreturned⟩ := h
  -- what was overwritten before is overwritten now
  have hmono : ∀ a b, OnceOnly (before ++ call :: after) a b →
      OnceOnly (before ++ call' :: after) a b := by
    intro a b hab x ha hb
    obtain ⟨c, hc, hx⟩ := hab x ha hb
    simp only [List.mem_append, List.mem_cons] at hc ⊢
    rcases hc with hc | rfl | hc
    · exact ⟨c, Or.inl hc, hx⟩
    · rw [hsection.overwritten] at hx
      cases hx
    · exact ⟨c, Or.inr (Or.inr hc), hx⟩
  constructor
  · rintro ⟨hcopy, herase⟩
    refine ⟨⟨fun b hb x hx hxb => ?_, hpairwise.imp (hmono _ _)⟩, fun x hx => ?_, hreturned⟩
    · rw [hsection.returned, List.mem_append] at hx
      rcases hx with hx | hx
      · exact hmono call b (honce b hb) x hx hxb
      · -- a value that is copied now is held by nobody else
        obtain ⟨hmem, hsome, hversion⟩ := Versioned.mem_values.1 hx
        have hholds : b.Holds s x.1 := by
          rw [← (hothers b hb).mem_returned_iff hsome, ← hversion]
          exact hxb
        refine absurd hholds (hcopy x.1 hmem hsome b ?_)
        simp only [List.mem_append, List.mem_cons] at hb ⊢
        exact hb.imp id Or.inr
    · rw [hsection.removed] at hx
      obtain ⟨hmem, hsome, hversion⟩ := Versioned.mem_values.1 hx
      rw [hsection.returned, List.mem_append]
      refine Or.inl ?_
      have hheld := (hcall.mem_returned_iff hsome).2 (herase x.1 hmem hsome)
      rwa [← hversion] at hheld
  · rintro ⟨⟨honce', -⟩, hremoved, -⟩
    refine ⟨fun k hmem hsome other hother hholds => ?_, fun k hmem hsome => ?_⟩
    · have hvalue : (k, s.version k) ∈ s.values call.toCopy :=
        Versioned.mem_values.2 ⟨hmem, hsome, rfl⟩
      rcases hsection.separate with ⟨hnot, hnone⟩ | hnil
      · have hb : other ∈ before ++ after := by
          simp only [List.mem_append, List.mem_cons] at hother ⊢
          rcases hother with hb | rfl | hb
          · exact Or.inl hb
          · exact absurd hholds (hnot k)
          · exact Or.inr hb
        have hreturned' := ((hothers other hb).mem_returned_iff hsome).2 hholds
        obtain ⟨c, hc, hx⟩ := honce' other hb (k, s.version k)
          (by rw [hsection.returned]; exact List.mem_append_right _ hvalue) hreturned'
        -- the value is still there, so that nobody has written over it
        simp only [List.mem_append, List.mem_cons] at hc
        rcases hc with hc | rfl | hc
        · exact lt_irrefl _ ((hbefore c hc).overwritten_lt hx)
        · rw [hnone] at hx
          cases hx
        · exact lt_irrefl _ ((hafter c hc).overwritten_lt hx)
      · rw [hnil] at hmem
        cases hmem
    · have hvalue : (k, s.version k) ∈ call'.removed := by
        rw [hsection.removed]
        exact Versioned.mem_values.2 ⟨hmem, hsome, rfl⟩
      have hreturned' := hremoved _ hvalue
      rcases hsection.copiedBefore with hnil | hnil
      · rw [hnil] at hmem
        cases hmem
      · rw [hsection.returned, hnil] at hreturned'
        rw [← hcall.mem_returned_iff hsome]
        exact (List.append_nil call.returned) ▸ hreturned'

/-- A call that comes in has no values yet. -/
theorem ExactlyOnce.start {calls : List KeyCall} (h : ExactlyOnce calls) (harrives : call.Arrives) :
    ExactlyOnce (calls ++ [call]) := by
  obtain ⟨hreturned, hremoved, -⟩ := harrives.values_eq
  rw [exactlyOnce_middle, List.append_nil]
  refine ⟨⟨fun b _ x hx => ?_, h.once.imp fun hab x ha hb => ?_⟩, fun x hx => ?_, h.returned⟩
  · rw [hreturned] at hx
    cases hx
  · obtain ⟨c, hc, hx⟩ := hab x ha hb
    exact ⟨c, List.mem_append_left _ hc, hx⟩
  · rw [hremoved] at hx
    cases hx

/-- Calls of `put` and consuming `get` come in, and the buffers of `get` are large enough. -/
def GetsAndPuts (u : System (Versioned σ) KeyCall) : Event KeyCall → Prop
  | .start call => call.Arrives
  | .next i => ∀ call ∈ u.calls[i]?, call.Fits u.shared

/-- The section that runs is undisturbed. -/
def NextUndisturbed (u : System (Versioned σ) KeyCall) : Event KeyCall → Prop
  | .start _ => True
  | .next i => ∀ call ∈ u.calls[i]?, Undisturbed u.shared u.calls call

instance (u : System (Versioned σ) KeyCall) (e : Event KeyCall) : Decidable (GetsAndPuts u e) := by
  unfold GetsAndPuts
  cases e <;> infer_instance

instance (u : System (Versioned σ) KeyCall) (e : Event KeyCall) :
    Decidable (NextUndisturbed u e) := by
  unfold NextUndisturbed
  cases e <;> infer_instance

/-- The database, before any call, with no write counted. -/
def Versioned.initial (s : σ) : System (Versioned σ) KeyCall := ⟨⟨s, fun _ => 0⟩, []⟩

/-- In a run of consuming gets and puts, every value is returned and removed by one `get`, in every
state on the way, exactly if every section is undisturbed. -/
theorem consume_exactlyOnce_iff {s : σ} (hs : migrated s = false)
    {v : System (Versioned σ) KeyCall} {es : List (Event KeyCall)}
    (hrun : Run (StepOption (Interleaving.step consumeSection) GetsAndPuts)
      (Versioned.initial s) es v) :
    Run (StepOption (Interleaving.step consumeSection) fun u e =>
        GetsAndPuts u e ∧ NextUndisturbed u e) (Versioned.initial s) es v ↔
      Throughout (StepOption (Interleaving.step consumeSection) GetsAndPuts)
        (fun u => ExactlyOnce u.calls) (Versioned.initial s) es := by
  refine run_guarded_iff
    (I := fun u => migrated u.shared.db = false ∧ ∀ call ∈ u.calls, call.Recorded u.shared)
    ?_ ?_ ⟨hs, by simp [Versioned.initial]⟩ ⟨List.Pairwise.nil, by simp [Versioned.initial]⟩ hrun
  · rintro ⟨s, calls⟩ e t ⟨hs, hall⟩ ⟨hok, hstep⟩
    rcases step_cases hstep with
      ⟨call, rfl, rfl⟩ | ⟨before, call, after, t, call', rfl, rfl, hr, rfl⟩
    · exact ⟨hs, List.forall_mem_append.2 ⟨hall, by simpa using hok.recorded⟩⟩
    · simp only [List.forall_mem_append, List.forall_mem_cons] at hall ⊢
      obtain ⟨⟨ht, hevolves, hcall⟩, -⟩ := consumeSection_spec hs hall.2.1 (hok call (by simp)) hr
      exact ⟨ht, fun c hc => (hall.1 c hc).mono hevolves, hcall,
        fun c hc => (hall.2.2 c hc).mono hevolves⟩
  · rintro ⟨s, calls⟩ e t ⟨hs, hall⟩ hP ⟨hok, hstep⟩
    rcases step_cases hstep with
      ⟨call, rfl, rfl⟩ | ⟨before, call, after, t, call', rfl, rfl, hr, rfl⟩
    · simpa [NextUndisturbed] using hP.start hok
    · have hsection := (consumeSection_spec hs (hall call (by simp)) (hok call (by simp)) hr).2
      rw [← undisturbed_iff hall hsection hP]
      simp [NextUndisturbed]

end

/-- Two gets of a key, one after the other, with a put of the key before them. -/
def putAndTwoGets : List (Event KeyCall) :=
  [.start (.put .default [1] [1] [7] [1]), .start (.get .consume false [1] [1] [0] [1]),
    .start (.get .consume false [1] [1] [0] [1]), .next 0]

/-- The gets run one after the other. -/
theorem consume_exactlyOnce_iff_serial :
    ∃ v, Run (StepOption (Interleaving.step Versioned.consumeSection) fun u e =>
        GetsAndPuts u e ∧ NextUndisturbed u e)
        (Versioned.initial (MapDatabase.empty .default))
        (putAndTwoGets ++ [.next 1, .next 1, .next 2, .next 2]) v ∧
      Throughout (StepOption (Interleaving.step Versioned.consumeSection) GetsAndPuts)
        (fun u => ExactlyOnce u.calls) (Versioned.initial (MapDatabase.empty .default))
        (putAndTwoGets ++ [.next 1, .next 1, .next 2, .next 2]) := by
  have hsome : (follow (Interleaving.step Versioned.consumeSection) (fun u e =>
      GetsAndPuts u e ∧ NextUndisturbed u e)
      (Versioned.initial (MapDatabase.empty .default))
      (putAndTwoGets ++ [.next 1, .next 1, .next 2, .next 2])).isSome = true := by decide
  obtain ⟨v, hv⟩ := Option.isSome_iff_exists.1 hsome
  have hrun := run_iff_follow.2 hv
  refine ⟨v, hrun, ?_⟩
  exact (consume_exactlyOnce_iff rfl (hrun.mono fun _ _ _ h => ⟨h.1.1, h.2⟩)).1 hrun

/-- When both gets copy the value before one of them erases it, both return it. When a `put` runs
between the sections of a get, the get removes a value that it has not returned. -/
theorem consume_not_exactlyOnce :
    (∃ v, Run (StepOption (Interleaving.step Versioned.consumeSection) GetsAndPuts)
        (Versioned.initial (MapDatabase.empty .default))
        (putAndTwoGets ++ [.next 1, .next 2, .next 1, .next 2]) v ∧
      v.calls.map KeyCall.returned = [[], [([1], 1)], [([1], 1)]] ∧ ¬ ExactlyOnce v.calls) ∧
    ∃ v, Run (StepOption (Interleaving.step Versioned.consumeSection) GetsAndPuts)
        (Versioned.initial (MapDatabase.empty .default))
        [.start (.get .consume false [1] [1] [0] [1]), .next 0,
          .start (.put .default [1] [1] [7] [1]), .next 1, .next 0] v ∧
      v.calls.map KeyCall.removed = [[([1], 1)], []] ∧ ¬ ExactlyOnce v.calls := by
  constructor
  · have hfacts : (follow (Interleaving.step Versioned.consumeSection) GetsAndPuts
        (Versioned.initial (MapDatabase.empty .default))
        (putAndTwoGets ++ [.next 1, .next 2, .next 1, .next 2])).map (fun v =>
          (v.calls.map KeyCall.returned, decide (ExactlyOnce v.calls))) =
        some ([[], [([1], 1)], [([1], 1)]], false) := by decide
    obtain ⟨v, hv, hfacts⟩ := Option.map_eq_some_iff.1 hfacts
    rw [Prod.mk.injEq, decide_eq_false_iff_not] at hfacts
    exact ⟨v, run_iff_follow.2 hv, hfacts⟩
  · have hfacts : (follow (Interleaving.step Versioned.consumeSection) GetsAndPuts
        (Versioned.initial (MapDatabase.empty .default))
        [.start (.get .consume false [1] [1] [0] [1]), .next 0,
          .start (.put .default [1] [1] [7] [1]), .next 1, .next 0]).map (fun v =>
          (v.calls.map KeyCall.removed, decide (ExactlyOnce v.calls))) =
        some ([[([1], 1)], []], false) := by decide
    obtain ⟨v, hv, hfacts⟩ := Option.map_eq_some_iff.1 hfacts
    rw [Prod.mk.injEq, decide_eq_false_iff_not] at hfacts
    exact ⟨v, run_iff_follow.2 hv, hfacts⟩

end Yokan
