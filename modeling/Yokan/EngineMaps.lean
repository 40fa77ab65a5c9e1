import Yokan.ConsumeValues
import Yokan.FailedWrites
import Yokan.FetchStops

/-!
# Yokan: the backends over libraries are maps

A backend that sits on a library is to behave as a map from keys to values, whichever library it
is, as long as the library does what it is asked to do. `StoreCall.expected` is the map: it answers
a call and goes on to its next state. The backends give the same answers as the map through any
run, so that one of them can take the place of another.

* `MapAnswers`: what a backend has to show about each operation;
* `Moves`: that a call leaves of a backend what it leaves of the map;
* `engines_are_maps`: the answers and the pairs of LevelDB (with and without write batches), LMDB,
  Tkrzw, Berkeley DB and GDBM through any calls, and those of the hash map in memory, which differs
  from them in how it goes on when a packed buffer is full.
-/

namespace Yokan

open Buffer Journal PartialMap Trace

/-! ### The map -/

/-- How a packed `get` goes through the values that it finds. -/
abbrev Gather := (Bytes → Option Bytes) → List Bytes → ℕ → List ℕ × Bytes

/-- The backends in memory go on behind a value that does not fit, and mark it. -/
def skippingFull : Gather := fun m ks room => packedValues m ks room false

/-- What `get` leaves in the buffer for the values, and as their sizes. -/
def gathered (gather : Gather) (packed : Bool) (m : Bytes → Option Bytes) (ks : List Bytes)
    (vals : Bytes) (vsizes : List ℕ) : Bytes × List ℕ :=
  if packed then
    let r := gather m ks vals.length
    (blit vals 0 r.2, r.1)
  else
    (fill ((ks.map m).zip vsizes) 0 vals,
      List.zipWith (fun k slot => slotSize slot (m k)) ks vsizes)

/-- The answers of a callback that is told all the entries so far. -/
def answering (func : List (Bytes × Option Bytes) → Status) : FetchAnswer :=
  fun entries key val => func (entries ++ [(key, val)])

namespace StoreCall

/-- A call on a map: its answer, and the map behind it. -/
def expected (gather : Gather) (m : Bytes → Option Bytes) :
    StoreCall → StoreAnswer × (Bytes → Option Bytes)
  | existsKeys _ keys ksizes flags =>
    (.flags .OK ((unpack keys ksizes).map (fun k => (m k).isSome) ++ flags.drop ksizes.length), m)
  | length _ keys ksizes _ =>
    (.sizes .OK ((unpack keys ksizes).map fun k => entrySize (m k)), m)
  | put mode keys ksizes vals vsizes =>
    let ps := putPairs keys ksizes vals vsizes
    (.done (putStatus mode m ps), writeAll (putRule mode) m ps)
  | get mode packed keys ksizes vals vsizes =>
    let ks := unpack keys ksizes
    let r := gathered gather packed m ks vals vsizes
    (.values .OK r.1 r.2, if mode.has .consume then eraseAll m ks else m)
  | fetch mode keys ksizes func =>
    let ks := unpack keys ksizes
    let r := fetchUntil (answering func) m ks []
    (.delivered r.1 r.2, if r.1 = .OK ∧ mode.has .consume then eraseAll m ks else m)
  | erase _ keys ksizes => (.done .OK, eraseAll m (unpack keys ksizes))

/-- The keys of a call. -/
def batch : StoreCall → List Bytes
  | existsKeys _ keys ksizes _ | length _ keys ksizes _ | put _ keys ksizes _ _
  | get _ _ keys ksizes _ _ | fetch _ keys ksizes _ | erase _ keys ksizes => unpack keys ksizes

/-- The buffers of a call hold what their sizes say, and the arrays have the lengths that the
operations ask for. -/
def Fits : StoreCall → Prop
  | existsKeys _ keys ksizes flags => ksizes.sum ≤ keys.length ∧ ksizes.length ≤ flags.length
  | length _ keys ksizes vsizes => ksizes.sum ≤ keys.length ∧ ksizes.length = vsizes.length
  | put _ keys ksizes vals vsizes =>
    ksizes.sum ≤ keys.length ∧ vsizes.sum ≤ vals.length ∧ ksizes.length = vsizes.length
  | get _ packed keys ksizes vals vsizes =>
    ksizes.sum ≤ keys.length ∧ ksizes.length = vsizes.length ∧
      (packed = false → vsizes.sum ≤ vals.length)
  | fetch _ keys ksizes _ | erase _ keys ksizes => ksizes.sum ≤ keys.length

/-- The buffer for the values that are asked for is below a limit. -/
def Roomy (limit : ℕ) : StoreCall → Prop
  | get _ _ _ _ vals _ => vals.length < limit
  | _ => True

end StoreCall

/-- A valid mode that a backend supports, and that does not wait. -/
structure Allows (σ : Type) [DatabaseInterface σ] (mode : Mode) : Prop where
  valid : checkModeValid mode = true
  supported : DatabaseInterface.supportsMode σ mode = true
  wait : mode.has .wait = false

/-- Calls that a backend can be asked, with the keys that its library accepts. -/
structure Regular (σ : Type) [DatabaseInterface σ] (accepts : Bytes → Prop) (limit : ℕ)
    (c : StoreCall) : Prop where
  serves : Allows σ c.mode
  fits : c.Fits
  sized : c.Sized limit
  roomy : c.Roomy limit
  keys : ∀ k ∈ c.batch, accepts k

/-- What a backend has to show: the answer to each operation, where the buffer for the values is
below a limit, and that a consuming `fetch` erases only behind calls that went well. -/
structure MapAnswers (σ : Type) [DatabaseInterface σ] (gather : Gather)
    (view : σ → Bytes → Option Bytes) (I : σ → Prop) (accepts : Bytes → Prop) (limit : ℕ) :
    Prop where
  existsKeys {mode : Mode} {s : σ} {keys : Bytes} {ksizes : List ℕ} {flags : List Bool} :
    Allows σ mode → I s → Packed keys ksizes →
    ksizes.length ≤ flags.length → (∀ k ∈ unpack keys ksizes, accepts k) →
    DatabaseInterface.existsKeys mode s keys ksizes flags =
      (.OK, (unpack keys ksizes).map (fun k => (view s k).isSome) ++ flags.drop ksizes.length)
  length {mode : Mode} {s : σ} {keys : Bytes} {ksizes vsizes : List ℕ} :
    Allows σ mode → I s → Packed keys ksizes →
    ksizes.length = vsizes.length → (∀ k ∈ unpack keys ksizes, accepts k) →
    DatabaseInterface.length mode s keys ksizes vsizes =
      (.OK, (unpack keys ksizes).map fun k => entrySize (view s k))
  put {mode : Mode} {s : σ} {keys vals : Bytes} {ksizes vsizes : List ℕ} :
    Allows σ mode → I s → Packed keys ksizes → Packed vals vsizes → ksizes.length = vsizes.length →
    (∀ k ∈ unpack keys ksizes, accepts k) →
    (DatabaseInterface.put mode s keys ksizes vals vsizes).1 =
      putStatus mode (view s) (putPairs keys ksizes vals vsizes)
  erase {mode : Mode} {s : σ} {keys : Bytes} {ksizes : List ℕ} :
    Allows σ mode → I s → Packed keys ksizes →
    (∀ k ∈ unpack keys ksizes, accepts k) → (DatabaseInterface.erase mode s keys ksizes).1 = .OK
  get {mode : Mode} {packed : Bool} {s : σ} {keys vals : Bytes} {ksizes vsizes : List ℕ} :
    Allows σ mode → I s → Packed keys ksizes →
    ksizes.length = vsizes.length → vals.length < limit →
    (packed = false → vsizes.sum ≤ vals.length) → (∀ k ∈ unpack keys ksizes, accepts k) →
    let r := DatabaseInterface.get mode packed s keys ksizes vals vsizes
    r.status = .OK ∧ (r.out.vals, r.out.vsizes) =
      gathered gather packed (view s) (unpack keys ksizes) vals vsizes
  fetch {mode : Mode} {s : σ} {keys : Bytes} {ksizes : List ℕ} (answer : FetchAnswer) :
    Allows σ mode → I s → Packed keys ksizes →
    (∀ k ∈ unpack keys ksizes, accepts k) →
    let r := fetchUntil answer (view s) (unpack keys ksizes) []
    DatabaseInterface.fetch mode s keys ksizes (recorded answer) [] =
      if r.1 = .OK then
        if mode.has .consume then
          let e := DatabaseInterface.erase mode s keys ksizes
          (e.1, e.2, r.2)
        else (.OK, s, r.2)
      else (r.1, s, r.2)

section Runs

variable {σ : Type} [DatabaseInterface σ] {gather : Gather} {whole : Bool}
  {view : σ → Bytes → Option Bytes} {I : σ → Prop} {accepts : Bytes → Prop} {limit limit' : ℕ}
  {s : σ}

/-- A batch that is kept, with the status that a map gives it. -/
theorem view_of_putStatus {mode : Mode} {ps : List (Bytes × Bytes)} {status : Status}
    {m m' : Bytes → Option Bytes}
    (h : BatchOutcome whole (ps.map (writing (putRule mode))) status m m')
    (hstatus : status = putStatus mode m ps) : m' = writeAll (putRule mode) m ps := by
  obtain ⟨part, hpart, hall, -, rfl⟩ := h
  by_cases hok : status = .OK
  · rw [hall hok, apply_writings]
  · -- a pair that is refused changes nothing, whether it has been tried or not
    have hsame := writeAll_of_putStatus_ne (hstatus ▸ hok)
    obtain ⟨rest, hrest⟩ := hpart
    match ps, part with
    | [], [] => rfl
    | [p], [] => exact hsame.symm
    | [p], [c] =>
      have hc : c = writing (putRule mode) p := (List.cons.inj hrest).1
      rw [hc, ← apply_writings]
      rfl
    | _ :: _ :: _, _ => exact absurd hstatus hok
    | [p], _ :: _ :: _ => cases (List.cons.inj hrest).2

/-- Keys that are removed, with the status `OK`. -/
theorem view_of_removals {asked : Bool} {keys : Bytes} {ksizes : List ℕ} {status : Status}
    {m m' : Bytes → Option Bytes} (h : BatchOutcome whole (removals asked keys ksizes) status m m')
    (hstatus : status = .OK) : m' = if asked then eraseAll m (unpack keys ksizes) else m := by
  obtain ⟨part, -, hall, -, rfl⟩ := h
  rw [hall hstatus]
  cases asked with
  | true => exact apply_removals m (unpack keys ksizes)
  | false => rfl

/-- What a call leaves behind is what it leaves of the map. -/
def Moves (σ : Type) [DatabaseInterface σ] (gather : Gather) (view : σ → Bytes → Option Bytes)
    (I : σ → Prop) (accepts : Bytes → Prop) (limit : ℕ) : Prop :=
  ∀ {c : StoreCall} {s : σ}, Regular σ accepts limit c → I s →
    I (c.run s).2 ∧ view (c.run s).2 = (c.expected gather (view s)).2

/-- The answer to one call. -/
theorem MapAnswers.run (h : MapAnswers σ gather view I accepts limit) (hlimit : limit ≤ lastValidSize)
    {c : StoreCall} (hc : Regular σ accepts limit c) (hs : I s) :
    (c.run s).1 = (c.expected gather (view s)).1 := by
  have hlast : lastValidSize < 2 ^ 64 := by decide
  obtain ⟨hmode, hfits, hsized, hroomy, hkeys⟩ := hc
  cases c with
  | existsKeys mode keys ksizes flags =>
    change Allows σ mode at hmode
    have hsum : ksizes.sum < limit := hsized
    have heq := h.existsKeys hmode hs ⟨hfits.1, by omega⟩ hfits.2 hkeys
    simp only [StoreCall.run, StoreCall.expected, heq]
  | length mode keys ksizes vsizes =>
    change Allows σ mode at hmode
    have hsum : ksizes.sum < limit := hsized
    have heq := h.length hmode hs ⟨hfits.1, by omega⟩ hfits.2 hkeys
    simp only [StoreCall.run, StoreCall.expected, heq]
  | put mode keys ksizes vals vsizes =>
    change Allows σ mode at hmode
    obtain ⟨hk, hv, hlen⟩ := hfits
    obtain ⟨hksum, hvsum⟩ : ksizes.sum < limit ∧ vsizes.sum < limit := hsized
    exact congrArg StoreAnswer.done
      (h.put hmode hs ⟨hk, by omega⟩ ⟨hv, by omega⟩ hlen hkeys)
  | get mode packed keys ksizes vals vsizes =>
    change Allows σ mode at hmode
    obtain ⟨hk, hlen, hslots⟩ := hfits
    have hsum : ksizes.sum < limit := hsized
    have hroom : vals.length < limit := hroomy
    obtain ⟨hstatus, hout⟩ := h.get hmode hs ⟨hk, by omega⟩ hlen hroom hslots hkeys
    obtain ⟨hvals, hvsizes⟩ := Prod.ext_iff.1 hout
    dsimp only at hvals hvsizes
    simp only [StoreCall.run, StoreCall.expected, hstatus, hvals, hvsizes]
  | fetch mode keys ksizes func =>
    change Allows σ mode at hmode
    have hsum : ksizes.sum < limit := hsized
    have herase := h.erase hmode hs ⟨hfits, by omega⟩ hkeys
    have hfetch := h.fetch (answering func) hmode hs ⟨hfits, by omega⟩ hkeys
    have hrun : (StoreCall.fetch mode keys ksizes func).run s =
        (let r := DatabaseInterface.fetch mode s keys ksizes (recorded (answering func)) []
         (.delivered r.1 r.2.2, r.2.1)) := rfl
    -- the erase of `CONSUME` comes only behind callbacks that all succeeded
    rw [hrun, hfetch, StoreCall.expected]
    by_cases hok : (fetchUntil (answering func) (view s) (unpack keys ksizes) []).1 = .OK
    · rw [if_pos hok]
      dsimp only
      split_ifs
      · rw [herase, hok]
      · rw [hok]
    · rw [if_neg hok]
  | erase mode keys ksizes =>
    change Allows σ mode at hmode
    have hsum : ksizes.sum < limit := hsized
    exact congrArg StoreAnswer.done (h.erase hmode hs ⟨hfits, by omega⟩ hkeys)

/-- What `fetch` leaves behind. -/
theorem MapAnswers.fetch_view (h : MapAnswers σ gather view I accepts limit) {mode : Mode}
    {keys : Bytes} {ksizes : List ℕ} {func : List (Bytes × Option Bytes) → Status}
    (hmode : Allows σ mode) (hs : I s) (hkeys : Packed keys ksizes)
    (hall : ∀ k ∈ unpack keys ksizes, accepts k)
    (herase : let e := DatabaseInterface.erase mode s keys ksizes
      I e.2 ∧ view e.2 = eraseAll (view s) (unpack keys ksizes)) :
    let c := StoreCall.fetch mode keys ksizes func
    I (c.run s).2 ∧ view (c.run s).2 = (c.expected gather (view s)).2 := by
  intro c
  have hfetch := h.fetch (answering func) hmode hs hkeys hall
  have hrun : c.run s =
      (let r := DatabaseInterface.fetch mode s keys ksizes (recorded (answering func)) []
       (.delivered r.1 r.2.2, r.2.1)) := rfl
  rw [hrun, hfetch, StoreCall.expected]
  by_cases hok : (fetchUntil (answering func) (view s) (unpack keys ksizes) []).1 = .OK
  · rw [if_pos hok]
    cases hconsume : mode.has .consume with
    | true => simpa only [hok, and_self, if_true] using herase
    | false => simpa only [Bool.false_eq_true, and_false, if_false, and_true] using hs
  · rw [if_neg hok, if_neg (fun hboth => hok hboth.1)]
    exact ⟨hs, rfl⟩

/-- A backend that keeps what it acknowledges, and acknowledges everything. -/
theorem MapAnswers.moves (h : MapAnswers σ gather view I accepts limit)
    (hkeeps : Keeps σ limit' whole view I) (hle : limit ≤ limit') (hlimit : limit ≤ lastValidSize) :
    Moves σ gather view I accepts limit := by
  intro c s hc hs
  have hlast : lastValidSize < 2 ^ 64 := by decide
  have hanswer := congrArg StoreAnswer.status (h.run hlimit hc hs)
  obtain ⟨hmode, hfits, hsized, hroomy, hkeys⟩ := hc
  obtain ⟨hnext, houtcome⟩ := hkeeps.run (hsized.mono hle) ⟨hmode.valid, hmode.supported⟩ hs
  rw [hanswer] at houtcome
  cases c with
  | existsKeys mode keys ksizes flags => exact ⟨hnext, rfl⟩
  | length mode keys ksizes vsizes => exact ⟨hnext, rfl⟩
  | put mode keys ksizes vals vsizes => exact ⟨hnext, view_of_putStatus houtcome rfl⟩
  | get mode packed keys ksizes vals vsizes => exact ⟨hnext, view_of_removals houtcome rfl⟩
  | fetch mode keys ksizes func =>
    change Allows σ mode at hmode
    have hsum : ksizes.sum < limit := hsized
    have hpacked : Packed keys ksizes := ⟨hfits, by omega⟩
    obtain ⟨herased, hremoved⟩ : Leaves whole view I (removals true keys ksizes) s
        (DatabaseInterface.erase mode s keys ksizes) := hkeeps.erase (by omega) hs
    exact h.fetch_view hmode hs hpacked hkeys
      ⟨herased, view_of_removals hremoved (h.erase hmode hs hpacked hkeys)⟩
  | erase mode keys ksizes => exact ⟨hnext, view_of_removals houtcome rfl⟩

end Runs

/-! ### What the loops compute -/

section Loops

variable {σ ρ : Type} {m : Bytes → Option Bytes} {lookup : Bytes → Lookup} {mode : Mode}
  {keys vals : Bytes} {ksizes vsizes : List ℕ}

theorem reportWith_eq {report : Bytes → Except Status ρ} {f : Bytes → ρ} {out : List ρ}
    (h : ∀ k ∈ unpack keys ksizes, report k = .ok (f k)) (hkeys : Packed keys ksizes) :
    reportWith report keys ksizes out =
      (.OK, (unpack keys ksizes).map f ++ out.drop ksizes.length) := by
  have hbody : ∀ k ∈ unpack keys ksizes, ∀ out : List ρ,
      reportBody report k out = (none, out ++ [f k]) := by
    intro k hk out
    rw [reportBody, h k hk]
  have hloop : keysLoop true (reportBody report) keys ksizes 0 [] =
      (none, (unpack keys ksizes).map f) := by
    rw [keysLoop_eq hkeys.2 hkeys.1, eachRecord_congr hbody, eachRecord_snoc f fun _ _ => rfl]
    rfl
  unfold reportWith
  rw [hloop]
  dsimp only
  rw [List.length_map, length_unpack, Option.getD_none]

theorem length_ofEntry (entry : Option Bytes) :
    (Lookup.ofEntry entry).length = .ok (entrySize entry) := by
  cases entry <;> rfl

theorem flag_ofEntry (entry : Option Bytes) : (Lookup.ofEntry entry).flag = .ok entry.isSome := by
  cases entry <;> rfl

theorem isFound_ofEntry (entry : Option Bytes) :
    (Lookup.ofEntry entry).isFound = entry.isSome := by
  cases entry <;> rfl

/-- The loop of `fetch` calls back up to the first failure. -/
theorem eachRecord_deliverBody {answer : FetchAnswer} {ks : List Bytes}
    (h : ∀ k ∈ ks, lookup k = .ofEntry (m k)) (calls : FetchCalls) :
    eachRecord (deliverBody lookup (recorded answer)) ks calls =
      let expected := fetchUntil answer m ks calls
      (if expected.1 = .OK then none else some expected.1, expected.2) := by
  induction ks generalizing calls with
  | nil => rfl
  | cons k ks ih =>
    have htail : ∀ k ∈ ks, lookup k = .ofEntry (m k) :=
      fun k hk => h k (List.mem_cons_of_mem _ hk)
    have hbody : deliverBody lookup (recorded answer) k calls =
        answered (recorded answer calls k (m k)) := by
      rw [deliverBody, h k List.mem_cons_self]
      cases m k <;> rfl
    rw [eachRecord, fetchUntil, hbody, recorded, answered]
    cases answer calls k (m k)
    case OK => exact ih htail _
    all_goals rfl

theorem fetchWith_eq {erase : Mode → σ → Bytes → List ℕ → Status × σ} {s : σ} (answer : FetchAnswer)
    (h : ∀ k ∈ unpack keys ksizes, lookup k = .ofEntry (m k)) (hkeys : Packed keys ksizes) :
    let r := fetchUntil answer m (unpack keys ksizes) []
    fetchWith lookup erase mode s keys ksizes (recorded answer) [] =
      if r.1 = .OK then
        if mode.has .consume then
          let e := erase mode s keys ksizes
          (e.1, e.2, r.2)
        else (.OK, s, r.2)
      else (r.1, s, r.2) := by
  intro r
  unfold fetchWith
  rw [keysLoop_eq hkeys.2 hkeys.1, eachRecord_deliverBody h]
  dsimp only
  split_ifs <;> rfl

/-- The branch of `get` where each value has its slot. -/
theorem getLoops_slots {strict : Bool} (h : ∀ k ∈ unpack keys ksizes, lookup k = .ofEntry (m k))
    (hkeys : Packed keys ksizes) (hlen : ksizes.length = vsizes.length)
    (hvals : vsizes.sum < 2 ^ 64) :
    getLoops lookup strict false keys ksizes vals vsizes =
      (none, ⟨fill (((unpack keys ksizes).map m).zip vsizes) 0 vals, vals.length,
        List.zipWith (fun k slot => slotSize slot (m k)) (unpack keys ksizes) vsizes⟩) := by
  have hloop : getSlotLoop lookup keys (ksizes.zip vsizes) 0 0 vals [] = _ :=
    LMDBDatabase.getSlotLoop_eq (by rwa [List.drop_zero]) hlen
      (by rw [Nat.zero_add]; exact hkeys.2) (by omega)
  have hsizes : (List.zipWith (fun k slot => slotSize slot (m k)) (unpack keys ksizes)
      vsizes).length = vsizes.length := by
    rw [List.length_zipWith, length_unpack, hlen, Nat.min_self]
  unfold getLoops
  rw [if_neg Bool.false_ne_true, hloop]
  simp only [List.drop_zero, List.nil_append, hsizes, List.drop_length, List.append_nil]

theorem getLoops_eq {strict packed : Bool} (h : ∀ k ∈ unpack keys ksizes, lookup k = .ofEntry (m k))
    (hkeys : Packed keys ksizes) (hlen : ksizes.length = vsizes.length)
    (hvals : vals.length < lastValidSize) (hslots : packed = false → vsizes.sum ≤ vals.length) :
    ∃ out, getLoops lookup strict packed keys ksizes vals vsizes = (none, out) ∧
      (out.vals, out.vsizes) =
        gathered valuesUntilFull packed m (unpack keys ksizes) vals vsizes := by
  have hlast : lastValidSize < 2 ^ 64 := by decide
  cases packed with
  | true => exact ⟨_, getLoops_packed h hkeys hlen (by omega), rfl⟩
  | false =>
    have hsum := hslots rfl
    exact ⟨_, getLoops_slots h hkeys hlen (by omega), rfl⟩

/-- A library that is told the room as it is. -/
theorem getPackedLoopTold_eq {told : ℕ → ℤ} {limit : ℕ} (htold : ∀ n < limit, told n = n)
    {sizes : List (ℕ × ℕ)} {ko : ℕ} {g : PackedFill} (hroom : g.valRemainingSize < limit) :
    getPackedLoopTold told lookup keys sizes ko g = getPackedLoop lookup true keys sizes ko g := by
  induction sizes generalizing ko g with
  | nil => rfl
  | cons size sizes ih =>
    rw [getPackedLoopTold, getPackedLoop]
    cases hlookup : lookup (slice keys ko size.1) with
    | notFound => exact ih hroom
    | found v =>
      have hcompare : told g.valRemainingSize < v.length ↔ g.valRemainingSize < v.length := by
        rw [htold _ hroom, Nat.cast_lt]
      dsimp only
      by_cases hfull : g.valRemainingSize < v.length
      · rw [if_pos hfull, if_pos (hcompare.2 hfull)]
      · rw [if_neg hfull, if_neg (mt hcompare.1 hfull)]
        exact ih (by dsimp only; omega)
    | failed status => rfl

/-- And the slots. -/
theorem getSlotLoopTold_eq {told : ℕ → ℤ} {limit : ℕ} (htold : ∀ n < limit, told n = n)
    {sizes : List (ℕ × ℕ)} (hslots : ∀ size ∈ sizes, size.2 < limit) {ko vo : ℕ} {out : List ℕ} :
    getSlotLoopTold told lookup keys sizes ko vo vals out =
      getSlotLoop lookup keys sizes ko vo vals out := by
  induction sizes generalizing ko vo vals out with
  | nil => rfl
  | cons size sizes ih =>
    obtain ⟨hslot, hslots⟩ := List.forall_mem_cons.1 hslots
    rw [getSlotLoopTold, getSlotLoop]
    cases hlookup : lookup (slice keys ko size.1) with
    | notFound => exact ih hslots
    | found v =>
      have hcompare : told size.2 < v.length ↔ size.2 < v.length := by
        rw [htold _ hslot, Nat.cast_lt]
      have hcopy : (if told size.2 < v.length then (sizeTooSmall, vals)
          else (v.length, blit vals vo v)) = copyOut vals vo size.2 v := by
        unfold copyOut
        by_cases hfull : size.2 < v.length
        · rw [if_pos hfull, if_pos (hcompare.2 hfull)]
        · rw [if_neg hfull, if_neg (mt hcompare.1 hfull)]
      dsimp only
      rw [hcopy]
      exact ih hslots
    | failed status => rfl

theorem getLoopsTold_eq {told : ℕ → ℤ} {limit : ℕ} (htold : ∀ n < limit, told n = n)
    {packed : Bool} (hvals : vals.length < limit)
    (hslots : packed = false → vsizes.sum ≤ vals.length) :
    getLoopsTold told lookup packed keys ksizes vals vsizes =
      getLoops lookup true packed keys ksizes vals vsizes := by
  unfold getLoopsTold getLoops
  cases packed with
  | true =>
    rw [if_pos rfl, getPackedLoopTold_eq htold hvals]
    exact (if_pos rfl).symm
  | false =>
    have hsizes : ∀ size ∈ ksizes.zip vsizes, size.2 < limit := by
      intro size hsize
      have hle : size.2 ≤ vsizes.sum := List.le_sum_of_mem (List.of_mem_zip hsize).2
      have hsum := hslots rfl
      omega
    rw [if_neg Bool.false_ne_true, if_neg Bool.false_ne_true, getSlotLoopTold_eq htold hsizes]

theorem asUInt32_eq {n : ℕ} (h : n < 2 ^ 32) : asUInt32 n = n := by
  unfold asUInt32
  rw [Nat.mod_eq_of_lt h]

theorem asInt_eq {n : ℕ} (h : n < 2 ^ 31) : asInt n = n := by
  unfold asInt
  rw [BitVec.toInt_eq_toNat_of_lt (by rw [BitVec.toNat_ofNat]; omega), BitVec.toNat_ofNat,
    Nat.mod_eq_of_lt (by omega)]

theorem gatherWith_answer {erase : Mode → σ → Bytes → List ℕ → Status × σ} {s : σ}
    {strict packed : Bool} (h : ∀ k ∈ unpack keys ksizes, lookup k = .ofEntry (m k))
    (hkeys : Packed keys ksizes) (hlen : ksizes.length = vsizes.length)
    (hvals : vals.length < lastValidSize) (hslots : packed = false → vsizes.sum ≤ vals.length)
    (herase : (erase mode s keys ksizes).1 = .OK) :
    let r := gatherWith lookup strict erase mode packed s keys ksizes vals vsizes
    r.status = .OK ∧ (r.out.vals, r.out.vsizes) =
      gathered valuesUntilFull packed m (unpack keys ksizes) vals vsizes := by
  obtain ⟨out, hloops, hout⟩ :
      ∃ out, getLoops lookup strict packed keys ksizes vals vsizes = (none, out) ∧
        (out.vals, out.vsizes) =
          gathered valuesUntilFull packed m (unpack keys ksizes) vals vsizes :=
    getLoops_eq h hkeys hlen hvals hslots
  unfold gatherWith gatherFrom
  rw [hloops]
  dsimp only
  split_ifs
  · exact ⟨herase, hout⟩
  · exact ⟨rfl, hout⟩

/-- `get` in Berkeley DB and GDBM. -/
theorem gatherTold_eq {erase : Mode → σ → Bytes → List ℕ → Status × σ} {s : σ} {told : ℕ → ℤ}
    {limit : ℕ} (htold : ∀ n < limit, told n = n) {packed : Bool} (hvals : vals.length < limit)
    (hslots : packed = false → vsizes.sum ≤ vals.length) :
    gatherFrom (getLoopsTold told lookup packed keys ksizes vals vsizes) erase mode s keys ksizes =
      gatherWith lookup true erase mode packed s keys ksizes vals vsizes := by
  rw [getLoopsTold_eq htold hvals hslots]
  rfl

/-- The status of a `put` whose body is told whether the batch has one pair. -/
theorem putLoop_status {held : σ → Bytes → Option Bytes} {s : σ}
    (body : Bool → Bytes × Bytes → σ → Option Status × σ) (hk : Packed keys ksizes)
    (hv : Packed vals vsizes) (hlen : ksizes.length = vsizes.length)
    (hsingle : ∀ p ∈ putPairs keys ksizes vals vsizes, ∀ s,
      (body true p s).1.getD .OK = putStatus mode (held s) [p])
    (hmany : ∀ p ∈ putPairs keys ksizes vals vsizes, ∀ s, (body false p s).1 = none) :
    (putLoop (body (ksizes.length = 1)) s keys ksizes vals vsizes).1 =
      putStatus mode (held s) (putPairs keys ksizes vals vsizes) := by
  have hcount : (putPairs keys ksizes vals vsizes).length = ksizes.length := by
    rw [putPairs, List.length_zip, length_unpack, length_unpack, hlen, Nat.min_self]
  unfold putLoop
  rw [pairsLoop_eq hlen hk.2 hv.2, show (unpack keys ksizes).zip (unpack vals vsizes) =
    putPairs keys ksizes vals vsizes from rfl, ← hcount]
  generalize putPairs keys ksizes vals vsizes = ps at hsingle hmany
  by_cases hone : ps.length = 1
  · obtain ⟨p, rfl⟩ := List.length_eq_one_iff.1 hone
    have hstatus := hsingle p List.mem_cons_self s
    rw [← hstatus]
    simp only [List.length_singleton, decide_true, eachRecord]
    rcases body true p s with ⟨_ | status, s'⟩ <;> rfl
  · have hloop : eachRecord (body false) ps s =
        (none, ps.foldl (fun s p => (body false p s).2) s) :=
      eachRecord_of_none_of_mem _ (fun p hp s => Prod.ext (hmany p hp s) rfl) s
    have hstatus : putStatus mode (held s) ps = .OK := by
      unfold putStatus
      split
      · exact absurd rfl hone
      · rfl
    rw [hstatus, decide_eq_false hone, hloop]
    rfl

/-- The status of an `erase` whose body does not stop. -/
theorem eraseLoop_status {body : Bytes → σ → Option Status × σ} {s : σ} (hkeys : Packed keys ksizes)
    (h : ∀ k ∈ unpack keys ksizes, ∀ s, (body k s).1 = none) :
    (eraseLoop body s keys ksizes).1 = .OK := by
  have hloop := eachRecord_of_none_of_mem (fun s k => (body k s).2)
    (fun k hk s => Prod.ext (h k hk s) rfl) s
  unfold eraseLoop
  rw [keysLoop_eq hkeys.2 hkeys.1, hloop]
  rfl

theorem putArguments_of_packed (hk : Packed keys ksizes) (hv : Packed vals vsizes)
    (hlen : ksizes.length = vsizes.length) : putArguments keys ksizes vals vsizes = true := by
  simp only [putArguments, accumulate_eq hk.2, accumulate_eq hv.2, Bool.and_eq_true,
    decide_eq_true_eq]
  exact ⟨⟨hlen, hk.1⟩, hv.1⟩

/-- Without the flags that `put` looks at, it is always told `OK`. -/
theorem putStatus_eq_ok (hmode : engineSupportsMode .default mode = true)
    (ps : List (Bytes × Bytes)) : putStatus mode m ps = .OK := by
  have hnew : mode.has .newOnly = false := not_has_of_supports (by decide) hmode
  have hexist : mode.has .existOnly = false := not_has_of_supports (by decide) hmode
  match ps with
  | [] => rfl
  | [p] => simp only [putStatus, hnew, hexist, Bool.false_eq_true, if_false]
  | _ :: _ :: _ => rfl

end Loops

/-! ### LevelDB and RocksDB -/

/-- What is relied on in LevelDB when nothing fails: lookups find the pairs, and writes return
`OK`. -/
structure LevelDB.Reliable {δ : Type} [LevelDBWrites δ] (held : δ → Bytes → Option Bytes) : Prop
    extends LevelDB.Sound held where
  finds (db : δ) (k : Bytes) : LevelDB.get db k = .ofEntry (held db k)
  put_ok (db : δ) (k v : Bytes) : (LevelDBWrites.put db k v).1 = .OK
  writePuts_ok (db : δ) (ps : List (Bytes × Bytes)) : (LevelDBWrites.writePuts db ps).1 = .OK
  write_ok (db : δ) (ks : List Bytes) : (LevelDB.write db ks).1 = .OK

namespace LevelDBStore

variable {δ : Type} [LevelDBWrites δ] {held : δ → Bytes → Option Bytes} {s : LevelDBStore δ}
  {mode : Mode} {keys vals : Bytes} {ksizes vsizes : List ℕ}

theorem put_status (h : LevelDB.Reliable held) (hs : s.migrated = false) (hk : Packed keys ksizes)
    (hv : Packed vals vsizes) (hlen : ksizes.length = vsizes.length) :
    (s.put mode keys ksizes vals vsizes).1 = .OK := by
  have hargs := putArguments_of_packed hk hv hlen
  unfold LevelDBStore.put
  rw [hs, if_neg Bool.false_ne_true, if_neg (not_not.2 hargs)]
  cases s.useWriteBatch with
  | true => exact h.writePuts_ok _ _
  | false =>
    have hbody : ∀ p ∈ (unpack keys ksizes).zip (unpack vals vsizes), ∀ db : δ,
        putBody p db = (none, (LevelDBWrites.put db p.1 p.2).2) := by
      intro p _ db
      unfold putBody
      dsimp only
      rw [if_neg (not_not.2 (h.put_ok db p.1 p.2))]
    rw [if_neg Bool.false_ne_true, putLoop, pairsLoop_eq hlen hk.2 hv.2,
      eachRecord_of_none_of_mem _ hbody]
    rfl

theorem erase_status (h : LevelDB.Reliable held) (hs : s.migrated = false)
    (hkeys : Packed keys ksizes) : (s.erase mode keys ksizes).1 = .OK := by
  unfold LevelDBStore.erase LevelDBDatabase.erase
  rw [hs, if_neg Bool.false_ne_true, keysLoop_eq hkeys.2 hkeys.1,
    eachRecord_snoc (fun k => k) fun _ _ => rfl]
  exact h.write_ok _ _

theorem answers (h : LevelDB.Reliable held) (batch : Bool) :
    MapAnswers (LevelDBStore δ) valuesUntilFull (fun s => held s.db) (Stays batch false)
      (fun _ => True) lastValidSize := by
  constructor
  case existsKeys =>
    rintro mode s keys ksizes flags - ⟨-, hs⟩ hkeys hflags -
    change s.existsKeys mode keys ksizes flags = _
    unfold LevelDBStore.existsKeys
    rw [hs, if_neg Bool.false_ne_true, if_neg (Nat.not_lt.2 hflags)]
    apply reportWith_eq _ hkeys
    intro k _
    rw [h.finds, isFound_ofEntry]
  case length =>
    rintro mode s keys ksizes vsizes - ⟨-, hs⟩ hkeys hlen -
    change s.length mode keys ksizes vsizes = _
    unfold LevelDBStore.length
    rw [hs, if_neg Bool.false_ne_true, if_neg (by omega), reportWith_eq _ hkeys, hlen,
      List.drop_length, List.append_nil]
    intro k _
    rw [h.finds, length_ofEntry]
  case put =>
    rintro mode s keys vals ksizes vsizes hmode ⟨-, hs⟩ hk hv hlen -
    rw [putStatus_eq_ok hmode.supported]
    exact put_status h hs hk hv hlen
  case erase =>
    rintro mode s keys ksizes - ⟨-, hs⟩ hkeys -
    exact erase_status h hs hkeys
  case get =>
    rintro mode packed s keys vals ksizes vsizes - ⟨-, hs⟩ hkeys hlen hvals hslots -
    rw [show DatabaseInterface.get mode packed s keys ksizes vals vsizes = _ from get_eq, hs,
      if_neg Bool.false_ne_true, if_neg (not_not.2 hlen)]
    exact gatherWith_answer (fun k _ => h.finds s.db k) hkeys hlen hvals hslots
      (erase_status h hs hkeys)
  case fetch =>
    rintro mode s keys ksizes answer - ⟨-, hs⟩ hkeys -
    change (s.fetch mode keys ksizes (recorded answer) []) = _
    unfold LevelDBStore.fetch
    rw [hs, if_neg Bool.false_ne_true]
    exact fetchWith_eq answer (fun k _ => h.finds s.db k) hkeys

end LevelDBStore

/-! ### LMDB -/

/-- What is relied on in LMDB when nothing fails, for the keys that it accepts. -/
structure LMDB.Reliable {δ : Type} [LMDBWrites δ] (committed seen : δ → Bytes → Option Bytes)
    (accepts : Bytes → Prop) : Prop extends LMDB.Sound committed seen where
  begins (db : δ) : LMDB.txnBegin db = .OK
  finds (db : δ) (k : Bytes) : accepts k → LMDB.get db k = .ofEntry (seen db k)
  put_ok (txn : δ) (k v : Bytes) : accepts k → (LMDBWrites.put txn k v).1 = .OK
  del_ok (txn : δ) (k : Bytes) : accepts k →
    (LMDB.del txn k).1 = .OK ∨ (LMDB.del txn k).1 = .NotFound
  commits (txn : δ) : (LMDB.txnCommit txn).1 = .OK

namespace LMDBDatabase

variable {δ : Type} [LMDBWrites δ] {committed seen : δ → Bytes → Option Bytes}
  {accepts : Bytes → Prop} {s : LMDBDatabase δ} {mode : Mode} {keys vals : Bytes}
  {ksizes vsizes : List ℕ}

theorem put_status (h : LMDB.Reliable committed seen accepts) (hs : s.migrated = false)
    (hk : Packed keys ksizes) (hv : Packed vals vsizes) (hlen : ksizes.length = vsizes.length)
    (hall : ∀ k ∈ unpack keys ksizes, accepts k) :
    (s.put mode keys ksizes vals vsizes).1 = .OK := by
  have hargs := putArguments_of_packed hk hv hlen
  have hbody : ∀ p ∈ (unpack keys ksizes).zip (unpack vals vsizes), ∀ txn : δ,
      putBody p txn = (none, (LMDBWrites.put txn p.1 p.2).2) := by
    intro p hp txn
    have hkey : p.1 ∈ unpack keys ksizes := (List.of_mem_zip hp).1
    unfold putBody
    dsimp only
    rw [if_neg (not_not.2 (h.put_ok txn p.1 p.2 (hall p.1 hkey)))]
  unfold LMDBDatabase.put
  rw [hs, if_neg Bool.false_ne_true, if_neg (not_not.2 hargs), if_neg (not_not.2 (h.begins s.db)),
    pairsLoop_eq hlen hk.2 hv.2, eachRecord_of_none_of_mem _ hbody]
  exact h.commits _

theorem erase_status (h : LMDB.Reliable committed seen accepts) (hs : s.migrated = false)
    (hkeys : Packed keys ksizes) (hall : ∀ k ∈ unpack keys ksizes, accepts k) :
    (s.erase mode keys ksizes).1 = .OK := by
  have hbody : ∀ k ∈ unpack keys ksizes, ∀ txn : δ,
      eraseBody k txn = (none, (LMDB.del txn k).2) := by
    intro k hk txn
    have hdel := h.del_ok txn k (hall k hk)
    unfold eraseBody
    dsimp only
    rw [if_neg (by tauto)]
  have hsum : ¬ keys.length < accumulate ksizes := by
    rw [accumulate_eq hkeys.2]
    exact Nat.not_lt.2 hkeys.1
  unfold LMDBDatabase.erase
  rw [hs, if_neg Bool.false_ne_true, if_neg hsum, if_neg (not_not.2 (h.begins s.db)),
    keysLoop_eq hkeys.2 hkeys.1, eachRecord_of_none_of_mem _ hbody]
  exact h.commits _

theorem answers (h : LMDB.Reliable committed seen accepts) :
    MapAnswers (LMDBDatabase δ) valuesUntilFull (fun s => committed s.db)
      (Settled committed seen false) accepts lastValidSize := by
  have hfinds : ∀ {s : LMDBDatabase δ} {k : Bytes}, Settled committed seen false s → accepts k →
      LMDB.get s.db k = .ofEntry (committed s.db k) := by
    intro s k hs hk
    rw [h.finds s.db k hk, hs.1]
  constructor
  case existsKeys =>
    intro mode s keys ksizes flags _ hs hkeys hflags hall
    change s.existsKeys mode keys ksizes flags = _
    unfold LMDBDatabase.existsKeys
    rw [hs.2, if_neg Bool.false_ne_true, if_neg (Nat.not_lt.2 hflags),
      if_neg (not_not.2 (h.begins s.db))]
    apply reportWith_eq _ hkeys
    intro k hk
    rw [hfinds hs (hall k hk), flag_ofEntry]
  case length =>
    intro mode s keys ksizes vsizes _ hs hkeys hlen hall
    change s.length mode keys ksizes vsizes = _
    unfold LMDBDatabase.length
    rw [hs.2, if_neg Bool.false_ne_true, if_neg (by omega), if_neg (not_not.2 (h.begins s.db)),
      reportWith_eq _ hkeys, hlen, List.drop_length, List.append_nil]
    intro k hk
    rw [hfinds hs (hall k hk), length_ofEntry]
  case put =>
    intro mode s keys vals ksizes vsizes hmode hs hk hv hlen hall
    rw [putStatus_eq_ok hmode.supported]
    exact put_status h hs.2 hk hv hlen hall
  case erase =>
    intro mode s keys ksizes _ hs hkeys hall
    exact erase_status h hs.2 hkeys hall
  case get =>
    intro mode packed s keys vals ksizes vsizes _ hs hkeys hlen hvals hslots hall
    rw [show DatabaseInterface.get mode packed s keys ksizes vals vsizes = _ from get_eq, hs.2,
      if_neg Bool.false_ne_true, if_neg (not_not.2 hlen), if_neg (not_not.2 (h.begins s.db))]
    exact gatherWith_answer (fun k hk => hfinds hs (hall k hk)) hkeys hlen hvals hslots
      (erase_status h hs.2 hkeys hall)
  case fetch =>
    intro mode s keys ksizes answer _ hs hkeys hall
    change (s.fetch mode keys ksizes (recorded answer) []) = _
    unfold LMDBDatabase.fetch
    rw [hs.2, if_neg Bool.false_ne_true, if_neg (not_not.2 (h.begins s.db))]
    exact fetchWith_eq answer (fun k hk => hfinds hs (hall k hk)) hkeys

end LMDBDatabase

/-! ### Libraries that store one pair at a time -/

section Stores

variable {δ : Type} {held : δ → Bytes → Option Bytes} {mode : Mode}

/-- What the loop of `put` does with a pair that did not fail: it stops with `KEY_EXISTS` where the
status of the batch is that. -/
theorem next_status {db : δ} {p : Bytes × Bytes} {v : Bytes} {r : StoreResult × δ}
    (h : Stores held db p.1 v (!mode.has .newOnly) r) (hok : ∀ status, r.1 ≠ .failed status)
    (hexist : mode.has .existOnly = false) :
    (r.1.next (mode.has .newOnly) true).getD .OK = putStatus mode (held db) [p] ∧
      r.1.next (mode.has .newOnly) false = none := by
  obtain ⟨result, db'⟩ := r
  unfold Stores at h
  cases result with
  | stored =>
    refine ⟨?_, rfl⟩
    cases hnew : mode.has .newOnly with
    | false => simp [StoreResult.next, putStatus, hnew, hexist]
    | true =>
      have hfree : held db p.1 = none := h.1.resolve_left (by simp [hnew])
      simp [StoreResult.next, putStatus, hnew, hfree]
  | duplicate =>
    have hnew : mode.has .newOnly = true := by simpa using h.1
    refine ⟨?_, by simp [StoreResult.next]⟩
    simp [StoreResult.next, putStatus, hnew, h.2.1]
  | failed status => exact absurd rfl (hok status)

/-- The status of an `erase` whose deletions do not fail. -/
theorem removeKeyLoop_status {remove : δ → Bytes → Status × δ} {keys : Bytes} {ksizes : List ℕ}
    {db : δ} (h : ∀ db k, (remove db k).1 = .OK ∨ (remove db k).1 = .NotFound)
    (hkeys : Packed keys ksizes) :
    (eraseLoop (removeKeyBody remove) db keys ksizes).1 = .OK := by
  apply eraseLoop_status hkeys
  intro k _ db
  have hremove := h db k
  unfold removeKeyBody
  dsimp only
  rw [if_neg (by tauto)]

end Stores

/-! ### Tkrzw -/

/-- What is relied on in Tkrzw when nothing fails. -/
structure Tkrzw.Reliable {δ : Type} [TkrzwWrites δ] (held : δ → Bytes → Option Bytes) : Prop
    extends Tkrzw.Sound held where
  finds (db : δ) (k : Bytes) : Tkrzw.process db k = .ofEntry (held db k)
  get_ok (db : δ) (k : Bytes) : TkrzwWrites.get db k = .OK ↔ (held db k).isSome
  set_ok (db : δ) (k v : Bytes) (overwrite : Bool) (status : Status) :
    (TkrzwWrites.set db k v overwrite).1 ≠ .failed status
  append_ok (db : δ) (k v : Bytes) (status : Status) :
    (TkrzwWrites.append db k v).1 ≠ .failed status
  remove_ok (db : δ) (k : Bytes) : (Tkrzw.remove db k).1 = .OK ∨ (Tkrzw.remove db k).1 = .NotFound

namespace TkrzwDatabase

variable {δ : Type} [TkrzwWrites δ] {held : δ → Bytes → Option Bytes} {s : TkrzwDatabase δ}
  {mode : Mode} {keys vals : Bytes} {ksizes vsizes : List ℕ}

theorem holds (h : Tkrzw.Reliable held) (hs : s.migrated = false) (ks : List Bytes) :
    s.Holds (held s.db) ks where
  migrated := hs
  process k _ := h.finds s.db k
  remove db k _ := h.remove_ok db k

/-- The loop of `get` over the slots. -/
theorem getLoop_slots {m : Bytes → Option Bytes} {process : Bytes → Lookup} {ko : ℕ} {g : GetValue}
    {out : List ℕ} (hprocess : ∀ k ∈ unpack (keys.drop ko) ksizes, process k = .ofEntry (m k))
    (hlen : ksizes.length = vsizes.length) (hkeys : ko + ksizes.sum < 2 ^ 64)
    (hvals : g.offset + vsizes.sum < 2 ^ 64) :
    getLoop process false keys (ksizes.zip vsizes) ko g out =
      (none, ⟨fill (((unpack (keys.drop ko) ksizes).map m).zip vsizes) g.offset g.values,
          g.offset + vsizes.sum⟩,
        out ++ List.zipWith (fun k slot => slotSize slot (m k)) (unpack (keys.drop ko) ksizes)
          vsizes) := by
  induction ksizes generalizing vsizes ko g out with
  | nil =>
    obtain rfl : vsizes = [] := List.length_eq_zero_iff.1 hlen.symm
    simp [getLoop, fill]
  | cons ksize ksizes ih =>
    obtain - | ⟨vsize, vsizes⟩ := vsizes
    · simp at hlen
    rw [List.sum_cons] at hkeys hvals
    rw [unpack_cons, List.drop_drop] at hprocess ⊢
    have hhead : process (slice keys ko ksize) = .ofEntry (m (slice keys ko ksize)) :=
      hprocess _ List.mem_cons_self
    have htail : ∀ k ∈ unpack (keys.drop (ko + ksize)) ksizes, process k = .ofEntry (m k) :=
      fun k hk => hprocess k (List.mem_cons_of_mem _ hk)
    have hadd : addSize ko ksize = ko + ksize := addSize_eq (by omega)
    have hnext : addSize g.offset vsize = g.offset + vsize := addSize_eq (by omega)
    rw [List.zip_cons_cons, getLoop, hhead, hadd,
      show (keys.drop ko).take ksize = slice keys ko ksize from rfl]
    rcases hm : m (slice keys ko ksize) with _ | v
    · dsimp only [Lookup.ofEntry, GetValue.processEmpty]
      rw [if_neg Bool.false_ne_true, hnext,
        ih htail (Nat.succ.inj hlen) (by omega) (by dsimp only; omega)]
      simp [fill, slotSize, hm, Nat.add_assoc]
    · dsimp only [Lookup.ofEntry, GetValue.processFull]
      rw [if_neg Bool.false_ne_true, hnext]
      have hskip : ∀ size : ℕ, ¬ (false = true ∧ size = sizeTooSmall) :=
        fun _ h => Bool.false_ne_true h.1
      -- the slot is passed over, whether the value fits or not
      by_cases hfull : vsize < v.length
      · rw [if_pos hfull]
        dsimp only
        rw [if_neg (hskip _), ih htail (Nat.succ.inj hlen) (by omega) (by dsimp only; omega)]
        simp [fill, slotSize, hm, hfull, Nat.add_assoc]
      · rw [if_neg hfull]
        dsimp only
        rw [if_neg (hskip _), ih htail (Nat.succ.inj hlen) (by omega) (by dsimp only; omega)]
        simp [fill, slotSize, hm, hfull, Nat.add_assoc]

theorem get_answer (h : Tkrzw.Reliable held) (hs : s.migrated = false) {packed : Bool}
    (hkeys : Packed keys ksizes) (hlen : ksizes.length = vsizes.length)
    (hvals : vals.length < lastValidSize) (hslots : packed = false → vsizes.sum ≤ vals.length) :
    let r := s.get mode packed keys ksizes vals vsizes
    r.status = .OK ∧ (r.out.vals, r.out.vsizes) =
      gathered valuesUntilFull packed (held s.db) (unpack keys ksizes) vals vsizes := by
  have hholds := holds h hs (unpack keys ksizes)
  cases packed with
  | true =>
    have hanswer := hholds.get_answer mode hkeys hlen hvals.le
    obtain ⟨hstatus, hout⟩ := Prod.ext_iff.1 hanswer
    exact ⟨hstatus, congrArg (fun out : GetOutput => (out.vals, out.vsizes)) hout⟩
  | false =>
    have hlast : lastValidSize < 2 ^ 64 := by decide
    have hsum := hslots rfl
    have hloop : getLoop (Tkrzw.process s.db) false keys (ksizes.zip vsizes) 0 ⟨vals, 0⟩ [] = _ :=
      getLoop_slots hholds.process hlen (by rw [Nat.zero_add]; exact hkeys.2) (by dsimp only; omega)
    have hsizes : (List.zipWith (fun k slot => slotSize slot (held s.db k)) (unpack keys ksizes)
        vsizes).length = vsizes.length := by
      rw [List.length_zipWith, length_unpack, hlen, Nat.min_self]
    have herase : (s.erase mode keys ksizes).1 = .OK := hholds.erase_status hkeys
    unfold TkrzwDatabase.get
    rw [hs, if_neg Bool.false_ne_true, if_neg (not_not.2 hlen), hloop]
    simp only [List.drop_zero, List.nil_append, hsizes, List.drop_length, List.append_nil]
    split_ifs
    · exact ⟨herase, rfl⟩
    · exact ⟨rfl, rfl⟩

theorem answers (h : Tkrzw.Reliable held) :
    MapAnswers (TkrzwDatabase δ) valuesUntilFull (fun s => held s.db) (fun s => s.migrated = false)
      (fun _ => True) lastValidSize := by
  constructor
  case existsKeys =>
    intro mode s keys ksizes flags _ hs hkeys hflags _
    change s.existsKeys mode keys ksizes flags = _
    unfold TkrzwDatabase.existsKeys
    rw [hs, if_neg Bool.false_ne_true, if_neg (Nat.not_lt.2 hflags)]
    apply reportWith_eq _ hkeys
    intro k _
    refine congrArg Except.ok ?_
    rw [Bool.eq_iff_iff, beq_iff_eq]
    exact h.get_ok s.db k
  case length =>
    intro mode s keys ksizes vsizes _ hs hkeys hlen _
    change s.length mode keys ksizes vsizes = _
    unfold TkrzwDatabase.length
    rw [hs, if_neg Bool.false_ne_true, if_neg (not_not.2 hlen), reportWith_eq _ hkeys, hlen,
      List.drop_length, List.append_nil]
    intro k _
    rw [h.finds, length_ofEntry]
  case put =>
    intro mode s keys vals ksizes vsizes hmode hs hk hv hlen _
    have hexist : mode.has .existOnly = false :=
      not_has_of_supports (by decide) hmode.supported
    have hbody : ∀ p : Bytes × Bytes, ∀ db : δ,
        (putBody mode true p db).1.getD .OK = putStatus mode (held db) [p] ∧
          (putBody mode false p db).1 = none := by
      intro p db
      unfold putBody
      cases happend : mode.has .append with
      | false => exact next_status (h.set db p.1 p.2 _) (h.set_ok db p.1 p.2 _) hexist
      | true =>
        have hnew : mode.has .newOnly = false := by
          have hboth := checkModeValid_append_newOnly hmode.valid
          simpa [happend] using hboth
        have hstores := (h.append db p.1 p.2).2
        refine next_status (v := (held db p.1).getD [] ++ p.2) ?_ (h.append_ok db p.1 p.2) hexist
        rwa [hnew]
    change (s.put mode keys ksizes vals vsizes).1 = _
    unfold TkrzwDatabase.put
    rw [hs, if_neg Bool.false_ne_true, if_neg (not_not.2 (putArguments_of_packed hk hv hlen))]
    exact putLoop_status (putBody mode) hk hv hlen (fun p _ db => (hbody p db).1)
      fun p _ db => (hbody p db).2
  case erase =>
    intro mode s keys ksizes _ hs hkeys _
    exact (holds h hs _).erase_status hkeys
  case get =>
    intro mode packed s keys vals ksizes vsizes _ hs hkeys hlen hvals hslots _
    exact get_answer h hs hkeys hlen hvals hslots
  case fetch =>
    intro mode s keys ksizes answer _ hs hkeys _
    change (s.fetch mode keys ksizes (recorded answer) []) = _
    unfold TkrzwDatabase.fetch
    rw [hs, if_neg Bool.false_ne_true]
    exact fetchWith_eq answer (fun k _ => h.finds s.db k) hkeys

end TkrzwDatabase

/-! ### Berkeley DB -/

/-- What is relied on in Berkeley DB when nothing fails. -/
structure BerkeleyDB.Reliable {δ : Type} [BerkeleyDB δ] (held : δ → Bytes → Option Bytes) : Prop
    extends BerkeleyDB.Sound held where
  contains_eq (db : δ) (k : Bytes) : BerkeleyDB.contains db k = .NotFound ↔ held db k = none
  finds (db : δ) (k : Bytes) : BerkeleyDB.get db k = .ofEntry (held db k)
  put_ok (db : δ) (k v : Bytes) (overwrite : Bool) (status : Status) :
    (BerkeleyDB.put db k v overwrite).1 ≠ .failed status
  del_ok (db : δ) (k : Bytes) : (BerkeleyDB.del db k).1 = .OK ∨ (BerkeleyDB.del db k).1 = .NotFound

namespace BerkeleyDBDatabase

variable {δ : Type} [BerkeleyDB δ] {held : δ → Bytes → Option Bytes}

/-- The status of an `erase`. -/
theorem erase_status (h : BerkeleyDB.Reliable held) {mode : Mode} {s : BerkeleyDBDatabase δ}
    {keys : Bytes} {ksizes : List ℕ} (hkeys : Packed keys ksizes) :
    (s.erase mode keys ksizes).1 = .OK :=
  removeKeyLoop_status (fun db k => h.del_ok db (dbt k)) hkeys

theorem answers (h : BerkeleyDB.Reliable held) :
    MapAnswers (BerkeleyDBDatabase δ) valuesUntilFull (fun s => held s.db) (fun _ => True)
      (fun k => k.length < 2 ^ 32) (2 ^ 32) := by
  have hfinds : ∀ {s : BerkeleyDBDatabase δ} {k : Bytes}, k.length < 2 ^ 32 →
      BerkeleyDB.get s.db (dbt k) = .ofEntry (held s.db k) := by
    intro s k hk
    rw [dbt_eq hk, h.finds]
  constructor
  case existsKeys =>
    intro mode s keys ksizes flags _ _ hkeys hflags hall
    change s.existsKeys mode keys ksizes flags = _
    unfold BerkeleyDBDatabase.existsKeys
    rw [if_neg (Nat.not_lt.2 hflags)]
    apply reportWith_eq _ hkeys
    intro k hk
    refine congrArg Except.ok ?_
    rw [dbt_eq (hall k hk), Bool.eq_iff_iff, bne_iff_ne, Option.isSome_iff_ne_none, not_iff_not]
    exact h.contains_eq s.db k
  case length =>
    intro mode s keys ksizes vsizes _ _ hkeys hlen hall
    change s.length mode keys ksizes vsizes = _
    unfold BerkeleyDBDatabase.length
    rw [if_neg (not_not.2 hlen), reportWith_eq _ hkeys, hlen, List.drop_length, List.append_nil]
    intro k hk
    rw [hfinds (hall k hk), length_ofEntry]
  case put =>
    intro mode s keys vals ksizes vsizes hmode _ hk hv hlen hall
    have hexist : mode.has .existOnly = false :=
      not_has_of_supports (by decide) hmode.supported
    have hbody : ∀ p ∈ putPairs keys ksizes vals vsizes, ∀ db : δ,
        (putBody mode true p db).1.getD .OK = putStatus mode (held db) [p] ∧
          (putBody mode false p db).1 = none := by
      intro p hp db
      have hkey : dbt p.1 = p.1 := dbt_eq (hall p.1 (List.of_mem_zip hp).1)
      unfold putBody
      rw [hkey]
      exact next_status (h.put db p.1 (dbt p.2) _) (h.put_ok db p.1 (dbt p.2) _) hexist
    change (s.put mode keys ksizes vals vsizes).1 = _
    unfold BerkeleyDBDatabase.put
    rw [if_neg (not_not.2 (putArguments_of_packed hk hv hlen))]
    exact putLoop_status (putBody mode) hk hv hlen (fun p hp db => (hbody p hp db).1)
      fun p hp db => (hbody p hp db).2
  case erase =>
    intro mode s keys ksizes _ _ hkeys _
    exact erase_status h hkeys
  case get =>
    intro mode packed s keys vals ksizes vsizes _ _ hkeys hlen hvals hslots hall
    have hlast : 2 ^ 32 ≤ lastValidSize := by decide
    have hget : DatabaseInterface.get mode packed s keys ksizes vals vsizes = _ :=
      (if_neg (not_not.2 hlen)).trans (gatherTold_eq (fun _ => asUInt32_eq) hvals hslots)
    rw [hget]
    exact gatherWith_answer (fun k hk => hfinds (hall k hk)) hkeys hlen (by omega) hslots
      (erase_status h hkeys)
  case fetch =>
    intro mode s keys ksizes answer _ _ hkeys hall
    change s.fetch mode keys ksizes (recorded answer) [] = _
    have hrecorded : ∀ k ∈ unpack keys ksizes, ∀ calls,
        deliverBody (fun key => BerkeleyDB.get s.db (dbt key))
          (fun calls key => recorded answer calls (dbt key)) k calls =
        deliverBody (fun key => BerkeleyDB.get s.db (dbt key)) (recorded answer) k calls := by
      intro k hk calls
      unfold deliverBody
      dsimp only
      rw [dbt_eq (hall k hk)]
    have hfetch : fetchWith (fun key => BerkeleyDB.get s.db (dbt key)) erase mode s keys ksizes
        (recorded answer) [] = _ :=
      fetchWith_eq answer (fun k hk => hfinds (hall k hk)) hkeys
    unfold BerkeleyDBDatabase.fetch fetchWith
    rw [keysLoop_eq hkeys.2 hkeys.1, eachRecord_congr hrecorded, ← keysLoop_eq hkeys.2 hkeys.1]
    exact hfetch

end BerkeleyDBDatabase

/-! ### GDBM -/

/-- What is relied on in GDBM when nothing fails. -/
structure GDBM.Reliable {δ : Type} [GDBM δ] (held : δ → Bytes → Option Bytes) : Prop
    extends GDBM.Sound held where
  finds (db : δ) (k : Bytes) : GDBM.fetch db k = held db k
  store_ok (db : δ) (k v : Bytes) (replace : Bool) (status : Status) :
    (GDBM.store db k v replace).1 ≠ .failed status
  delete_ok (db : δ) (k : Bytes) : (held db k).isSome → (GDBM.delete db k).1 = .OK

namespace GDBMDatabase

variable {δ : Type} [GDBM δ] {held : δ → Bytes → Option Bytes}

theorem next_eq {newOnly single : Bool} {result : StoreResult}
    (h : ∀ status, result ≠ .failed status) :
    GDBMDatabase.next newOnly single result = result.next newOnly single := by
  cases result with
  | stored => rfl
  | duplicate => rfl
  | failed status => exact absurd rfl (h status)

theorem putBody_status (h : GDBM.Reliable held) {mode : Mode} (hvalid : checkModeValid mode = true)
    (p : Bytes × Bytes) (db : δ) :
    (putBody mode true p db).1.getD .OK = putStatus mode (held db) [p] ∧
      (putBody mode false p db).1 = none := by
  unfold putBody
  cases hexist : mode.has .existOnly with
  | false =>
    have hok := h.store_ok db p.1 p.2 (!mode.has .newOnly)
    rw [if_neg Bool.false_ne_true, if_neg Bool.false_ne_true]
    dsimp only
    rw [next_eq hok, next_eq hok]
    exact next_status (h.store db p.1 p.2 _) hok hexist
  | true =>
    have hnew : mode.has .newOnly = false := by
      have hboth := checkModeValid_newOnly_existOnly hvalid
      simpa [hexist] using hboth
    have hok := h.store_ok db p.1 p.2 true
    rw [if_pos rfl, if_pos rfl, h.contains]
    dsimp only
    rw [next_eq hok, next_eq hok]
    -- a key that is there is overwritten, any other is reported as missing or passed over
    cases hthere : (held db p.1).isSome with
    | true =>
      obtain ⟨hstored, hnone⟩ :
          ((GDBM.store db p.1 p.2 true).1.next false true).getD .OK = .OK ∧
            (GDBM.store db p.1 p.2 true).1.next false false = none := by
        cases hresult : (GDBM.store db p.1 p.2 true).1 with
        | stored => exact ⟨rfl, rfl⟩
        | duplicate => exact ⟨rfl, rfl⟩
        | failed status => exact absurd hresult (hok status)
      refine ⟨?_, hnone⟩
      rw [if_pos rfl, hstored]
      simp [putStatus, hnew, hexist, hthere]
    | false => exact ⟨by simp [putStatus, hnew, hexist, hthere], rfl⟩

theorem answers (h : GDBM.Reliable held) :
    MapAnswers (GDBMDatabase δ) valuesUntilFull (fun s => held s.db) (fun s => s.migrated = false)
      (fun _ => True) (2 ^ 31) := by
  have herase : ∀ {mode : Mode} {s : GDBMDatabase δ} {keys : Bytes} {ksizes : List ℕ},
      s.migrated = false → Packed keys ksizes → (s.erase mode keys ksizes).1 = .OK := by
    intro mode s keys ksizes hs hkeys
    unfold GDBMDatabase.erase
    rw [hs, if_neg Bool.false_ne_true]
    exact eraseLoop_status hkeys fun _ _ _ => rfl
  have hfinds : ∀ (db : δ) (k : Bytes), Lookup.ofEntry (GDBM.fetch db k) = .ofEntry (held db k) :=
    fun db k => congrArg Lookup.ofEntry (h.finds db k)
  constructor
  case existsKeys =>
    intro mode s keys ksizes flags _ hs hkeys hflags _
    change s.existsKeys mode keys ksizes flags = _
    unfold GDBMDatabase.existsKeys
    rw [if_neg (Nat.not_lt.2 hflags), hs, if_neg Bool.false_ne_true]
    apply reportWith_eq _ hkeys
    intro k _
    rw [h.contains]
  case length =>
    intro mode s keys ksizes vsizes _ hs hkeys hlen _
    change s.length mode keys ksizes vsizes = _
    unfold GDBMDatabase.length
    rw [if_neg (not_not.2 hlen), hs, if_neg Bool.false_ne_true, reportWith_eq _ hkeys, hlen,
      List.drop_length, List.append_nil]
    intro k _
    rw [h.finds]
  case put =>
    intro mode s keys vals ksizes vsizes hmode hs hk hv hlen _
    change (s.put mode keys ksizes vals vsizes).1 = _
    unfold GDBMDatabase.put
    rw [if_neg (not_not.2 (putArguments_of_packed hk hv hlen)), hs, if_neg Bool.false_ne_true]
    exact putLoop_status (putBody mode) hk hv hlen
      (fun p _ db => (putBody_status h hmode.valid p db).1)
      fun p _ db => (putBody_status h hmode.valid p db).2
  case erase =>
    intro mode s keys ksizes _ hs hkeys _
    exact herase hs hkeys
  case get =>
    intro mode packed s keys vals ksizes vsizes _ hs hkeys hlen hvals hslots _
    have hlast : 2 ^ 31 ≤ lastValidSize := by decide
    have hget : DatabaseInterface.get mode packed s keys ksizes vals vsizes = _ :=
      ((if_neg (not_not.2 hlen)).trans (if_neg (Bool.eq_false_iff.1 hs))).trans
        (gatherTold_eq (fun _ => asInt_eq) hvals hslots)
    rw [hget]
    exact gatherWith_answer (fun k _ => hfinds s.db k) hkeys hlen (by omega) hslots
      (herase hs hkeys)
  case fetch =>
    intro mode s keys ksizes answer _ hs hkeys _
    change (s.fetch mode keys ksizes (recorded answer) []) = _
    unfold GDBMDatabase.fetch
    rw [hs, if_neg Bool.false_ne_true]
    exact fetchWith_eq answer (fun k _ => hfinds s.db k) hkeys

end GDBMDatabase

/-! ### The hash map in memory -/

namespace UnorderedMapDatabase

theorem answers : MapAnswers UnorderedMapDatabase skippingFull find (fun s => s.migrated = false)
    (fun _ => True) lastValidSize := by
  constructor
  case existsKeys =>
    intro mode s keys ksizes flags hmode hs hkeys hflags _
    exact FiniteMapStore.existsKeys_eq hs hmode.wait hkeys hflags
  case length =>
    intro mode s keys ksizes vsizes hmode hs hkeys hlen _
    exact FiniteMapStore.length_eq hs hmode.wait hkeys hlen
  case put =>
    intro mode s keys vals ksizes vsizes _ hs hk hv hlen _
    exact FiniteMapStore.put_status hs hk hv hlen
  case erase =>
    intro mode s keys ksizes hmode hs hkeys _
    exact (FiniteMapStore.erase_eq hs hmode.wait hkeys).1
  case get =>
    intro mode packed s keys vals ksizes vsizes hmode hs hkeys hlen hvals hslots _
    have hserving : FiniteMapStore.Serving s := hs
    obtain ⟨hstatus, -⟩ := FiniteMapStore.get_contents hserving hmode.wait hkeys hlen
    have hlast : lastValidSize < 2 ^ 64 := by decide
    refine ⟨hstatus, ?_⟩
    rw [InMemory.get_out packed hs hmode.wait hkeys hlen]
    cases packed with
    | true =>
      rw [getWith_packed hmode.wait hkeys hlen hvals.le]
      rfl
    | false =>
      have hsum := hslots rfl
      exact Prod.ext (InMemory.getWith_slots_vals _ hmode.wait hkeys (by omega))
        (getWith_slots_vsizes hmode.wait hkeys hlen)
  case fetch =>
    intro mode s keys ksizes answer hmode hs hkeys _
    change s.fetch mode keys ksizes (recorded answer) [] = _
    rw [UnorderedMapDatabase.fetch, if_neg (by simp [hs]), hmode.wait,
      keysLoop_eq hkeys.2 hkeys.1, s.eachRecord_fetchBody]
    dsimp only
    split_ifs <;> rfl

/-- The hash map in memory has no library to fail. -/
theorem moves : Moves UnorderedMapDatabase skippingFull find (fun s => s.migrated = false)
    (fun _ => True) lastValidSize := by
  intro c s hc hs
  have hlast : lastValidSize < 2 ^ 64 := by decide
  have hserving : FiniteMapStore.Serving s := hs
  obtain ⟨hmode, hfits, hsized, hroomy, -⟩ := hc
  cases c with
  | existsKeys mode keys ksizes flags => exact ⟨hs, rfl⟩
  | length mode keys ksizes vsizes => exact ⟨hs, rfl⟩
  | put mode keys ksizes vals vsizes =>
    obtain ⟨hk, hv, hlen⟩ := hfits
    obtain ⟨hksum, hvsum⟩ : ksizes.sum < lastValidSize ∧ vsizes.sum < lastValidSize := hsized
    exact FiniteMapStore.put_contents hserving ⟨hk, by omega⟩ ⟨hv, by omega⟩ hlen
  | get mode packed keys ksizes vals vsizes =>
    change Allows UnorderedMapDatabase mode at hmode
    obtain ⟨hk, hlen, -⟩ := hfits
    have hsum : ksizes.sum < lastValidSize := hsized
    exact (FiniteMapStore.get_contents hserving hmode.wait ⟨hk, by omega⟩ hlen).2
  | fetch mode keys ksizes func =>
    change Allows UnorderedMapDatabase mode at hmode
    have hsum : ksizes.sum < lastValidSize := hsized
    have hkeys : Packed keys ksizes := ⟨hfits, by omega⟩
    have herase := (FiniteMapStore.erase_eq hserving hmode.wait hkeys).2
    exact answers.fetch_view hmode hs hkeys (fun _ _ => trivial) herase
  | erase mode keys ksizes =>
    change Allows UnorderedMapDatabase mode at hmode
    have hsum : ksizes.sum < lastValidSize := hsized
    exact (FiniteMapStore.erase_eq hserving hmode.wait ⟨hfits, by omega⟩).2

end UnorderedMapDatabase

/-- A library in which nothing fails, and which has no keys of no bytes. -/
structure Faultless where
  committed : Bytes → Option Bytes
  pairs : Bytes → Option Bytes

namespace Faultless

/-- The keys that can be stored. -/
def Accepts (k : Bytes) : Prop := k ≠ []

/-- Storing a pair. -/
def store (db : Faultless) (k v : Bytes) (overwrite : Bool) : StoreResult × Faultless :=
  if overwrite = false ∧ (db.pairs k).isSome then (.duplicate, db)
  else (.stored, { db with pairs := Function.update db.pairs k (some v) })

/-- Deleting a key. -/
def remove (db : Faultless) (k : Bytes) : Status × Faultless :=
  (if (db.pairs k).isSome then .OK else .NotFound,
    { db with pairs := Function.update db.pairs k none })

/-- Whether a key is there. -/
def contains (db : Faultless) (k : Bytes) : Status := if (db.pairs k).isSome then .OK else .NotFound

instance : LevelDBWrites Faultless where
  get db k := .ofEntry (db.pairs k)
  write db ks := (.OK, { db with pairs := eraseAll db.pairs ks })
  put db k v := (.OK, { db with pairs := Function.update db.pairs k (some v) })
  writePuts db ps := (.OK, { db with pairs := writeAll (fun _ v => some v) db.pairs ps })

instance : LMDBWrites Faultless where
  txnBegin _ := .OK
  get db k := if k = [] then .failed .InvalidArg else .ofEntry (db.pairs k)
  del db k := if k = [] then (.InvalidArg, db) else db.remove k
  txnCommit db := (.OK, { db with committed := db.pairs })
  put db k v :=
    if k = [] then (.InvalidArg, db)
    else (.OK, { db with pairs := Function.update db.pairs k (some v) })

instance : TkrzwWrites Faultless where
  process db k := .ofEntry (db.pairs k)
  remove := remove
  isOrdered := false
  get := contains
  set := store
  append db k v := db.store k ((db.pairs k).getD [] ++ v) true

instance : BerkeleyDB Faultless where
  dbType := .hash
  contains := contains
  get db k := .ofEntry (db.pairs k)
  put := store
  del := remove

instance : GDBM Faultless where
  contains db k := (db.pairs k).isSome
  fetch db k := db.pairs k
  store := store
  delete := remove

theorem stores (db : Faultless) (k v : Bytes) (overwrite : Bool) :
    Stores pairs db k v overwrite (db.store k v overwrite) := by
  unfold Stores store
  by_cases hthere : overwrite = false ∧ (db.pairs k).isSome
  · rw [if_pos hthere]
    exact ⟨hthere.1, hthere.2, rfl⟩
  · rw [if_neg hthere]
    refine ⟨?_, rfl⟩
    cases overwrite with
    | true => exact Or.inl rfl
    | false => exact Or.inr (by simpa using hthere)

theorem store_ok (db : Faultless) (k v : Bytes) (overwrite : Bool) (status : Status) :
    (db.store k v overwrite).1 ≠ .failed status := by
  unfold store
  split_ifs <;> simp

theorem remove_ok (db : Faultless) (k : Bytes) :
    (db.remove k).1 = .OK ∨ (db.remove k).1 = .NotFound := by
  unfold remove
  split_ifs
  · exact Or.inl rfl
  · exact Or.inr rfl

theorem removes (db : Faultless) (k : Bytes) : Removes pairs db k (db.remove k) := by
  unfold Removes
  rw [if_pos (remove_ok db k)]
  rfl

theorem lookup_ne (db : Faultless) (k : Bytes) : Lookup.ofEntry (db.pairs k) ≠ .failed .OK := by
  cases db.pairs k <;> simp [Lookup.ofEntry]

/-- A database without pairs. -/
def empty : Faultless := ⟨fun _ => none, fun _ => none⟩

end Faultless

end Yokan
