import Yokan.EngineStores
import Yokan.Library.Journal
import Yokan.Sets

/-!
# Yokan: what failed calls leave behind

A call into a library may fail at any time: a full disk, a transaction that does not commit. What is
then left of a batch depends on the backend. LMDB writes inside a transaction, and LevelDB (like
RocksDB) can be told to write batches, so that a call which does not return `OK` changes nothing.
The loops of the other backends return at the first failure and leave what they have written; only
GDBM does not look whether a deletion has failed, and goes on.

The laws of this file say what a library does when it succeeds, and that a call that fails leaves
the pairs alone; they do not say that any call succeeds. Between two calls a library may come to
fail where it has not failed before, or the other way round.

* `Keeps`: what every operation of a backend leaves behind;
* `writes_survive`: after any run, the pairs in a database that writes in batches are those of the
  calls that returned `OK`; elsewhere a first part of the changes of each other call is there, too,
  and in GDBM any of the removals may be missing.
-/

namespace Yokan

open Buffer Journal PartialMap Trace

/-! ### Calls and their changes -/

/-- The status of an answer. -/
def StoreAnswer.status : StoreAnswer → Status
  | .done status | .flags status _ | .sizes status _ | .values status _ _ | .delivered status _ =>
    status

/-- The answer says that everything went well. -/
def StoreAnswer.acknowledges (a : StoreAnswer) : Bool := a.status == .OK

/-- The pairs that a `put` brings. -/
def putPairs (keys : Bytes) (ksizes : List ℕ) (vals : Bytes) (vsizes : List ℕ) :
    List (Bytes × Bytes) :=
  (unpack keys ksizes).zip (unpack vals vsizes)

/-- The removal of packed keys, where it is asked for. -/
def removals (asked : Bool) (keys : Bytes) (ksizes : List ℕ) : List (Change Bytes Bytes) :=
  if asked then (unpack keys ksizes).map removal else []

namespace StoreCall

/-- The changes that a call asks for. -/
def changes : StoreCall → List (Change Bytes Bytes)
  | put mode keys ksizes vals vsizes =>
    (putPairs keys ksizes vals vsizes).map (writing (putRule mode))
  | erase _ keys ksizes => removals true keys ksizes
  | get mode _ keys ksizes .. | fetch mode keys ksizes _ => removals (mode.has .consume) keys ksizes
  | existsKeys .. | length .. => []

/-- The call removes keys. -/
def removes : StoreCall → Bool
  | get mode .. | fetch mode .. => mode.has .consume
  | erase .. => true
  | existsKeys .. | length .. | put .. => false

/-- The sizes add up to less than a limit. -/
def Sized (limit : ℕ) : StoreCall → Prop
  | put _ _ ksizes _ vsizes => ksizes.sum < limit ∧ vsizes.sum < limit
  | existsKeys _ _ ksizes _ | length _ _ ksizes _ | get _ _ _ ksizes .. | fetch _ _ ksizes _
  | erase _ _ ksizes => ksizes.sum < limit

theorem Sized.mono {limit limit' : ℕ} (h : limit ≤ limit') {c : StoreCall}
    (hsized : c.Sized limit) : c.Sized limit' := by
  cases c with
  | put mode keys ksizes vals vsizes =>
    exact ⟨lt_of_lt_of_le hsized.1 h, lt_of_lt_of_le hsized.2 h⟩
  | _ => exact lt_of_lt_of_le hsized h

end StoreCall

/-- Calls in valid modes that the backend supports, with sizes that its library can take. -/
def Served (σ : Type) [DatabaseInterface σ] (limit : ℕ) (calls : List StoreCall) : Prop :=
  ∀ c ∈ calls, c.Sized limit ∧ c.Accepted σ

/-- What may be left of a batch: a first part of it, all of it with the status `OK`, and where
batches are kept whole, nothing with any other status. -/
def BatchOutcome (whole : Bool) (cs : List (Change Bytes Bytes)) (status : Status)
    (m m' : Bytes → Option Bytes) : Prop :=
  ∃ part, part <+: cs ∧ (status = .OK → part = cs) ∧ (whole = true → status ≠ .OK → part = []) ∧
    m' = apply m part

section Outcomes

variable {whole : Bool} {cs : List (Change Bytes Bytes)} {status : Status}
  {m m' : Bytes → Option Bytes}

theorem outcome_unchanged (h : status = .OK → cs = []) : BatchOutcome whole cs status m m :=
  ⟨[], List.nil_prefix, fun hok => (h hok).symm, fun _ _ => rfl, rfl⟩

theorem outcome_refused (h : status ≠ .OK) : BatchOutcome whole cs status m m :=
  outcome_unchanged fun hok => absurd hok h

theorem outcome_whole (h : m' = if status = .OK then apply m cs else m) :
    BatchOutcome whole cs status m m' := by
  subst h
  split_ifs with hok
  · exact ⟨cs, List.prefix_refl cs, fun _ => rfl, fun _ hno => absurd hok hno, rfl⟩
  · exact outcome_refused hok

theorem BatchOutcome.eq_ite (h : BatchOutcome true cs status m m') :
    m' = if status = .OK then apply m cs else m := by
  obtain ⟨part, -, hall, hnone, rfl⟩ := h
  split_ifs with hok
  · rw [hall hok]
  · rw [hnone rfl hok]
    rfl

/-- The first `n` records of a batch are changed. -/
theorem outcome_take {α : Type} {change : α → Change Bytes Bytes} {as : List α} {n : ℕ}
    (h : m' = apply m ((as.take n).map change)) (hall : status = .OK → as.length ≤ n) :
    BatchOutcome false (as.map change) status m m' := by
  refine ⟨_, ?_, fun hok => ?_, fun hfalse => (by cases hfalse), h⟩
  · apply List.IsPrefix.map
    exact List.take_prefix n as
  · rw [List.take_of_length_le (hall hok)]

end Outcomes

/-! ### Backends -/

/-- What a call leaves behind, where the pairs of a state are given by `view` and `I` holds of the
states between two calls. -/
def Leaves {σ : Type} (whole : Bool) (view : σ → Bytes → Option Bytes) (I : σ → Prop)
    (cs : List (Change Bytes Bytes)) (s : σ) (r : Status × σ) : Prop :=
  I r.2 ∧ BatchOutcome whole cs r.1 (view s) (view r.2)

theorem leaves_refused {σ : Type} {whole : Bool} {view : σ → Bytes → Option Bytes} {I : σ → Prop}
    {cs : List (Change Bytes Bytes)} {s : σ} {status : Status} (hs : I s) (h : status ≠ .OK) :
    Leaves whole view I cs s (status, s) :=
  ⟨hs, outcome_refused h⟩

/-- What the operations of a backend leave behind, with sizes below a limit. -/
structure Keeps (σ : Type) [DatabaseInterface σ] (limit : ℕ) (whole : Bool)
    (view : σ → Bytes → Option Bytes) (I : σ → Prop) : Prop where
  put {mode : Mode} {s : σ} {keys vals : Bytes} {ksizes vsizes : List ℕ} :
    checkModeValid mode = true → DatabaseInterface.supportsMode σ mode = true →
    ksizes.sum < limit → vsizes.sum < limit → I s →
    Leaves whole view I ((putPairs keys ksizes vals vsizes).map (writing (putRule mode))) s
      (DatabaseInterface.put mode s keys ksizes vals vsizes)
  erase {mode : Mode} {s : σ} {keys : Bytes} {ksizes : List ℕ} :
    ksizes.sum < limit → I s →
    Leaves whole view I (removals true keys ksizes) s (DatabaseInterface.erase mode s keys ksizes)
  get {mode : Mode} {packed : Bool} {s : σ} {keys vals : Bytes} {ksizes vsizes : List ℕ} :
    ksizes.sum < limit → I s →
    let r := DatabaseInterface.get mode packed s keys ksizes vals vsizes
    Leaves whole view I (removals (mode.has .consume) keys ksizes) s (r.status, r.db)
  fetch {υ : Type} {mode : Mode} {s : σ} {keys : Bytes} {ksizes : List ℕ}
    {func : υ → Bytes → Option Bytes → Status × υ} {u : υ} :
    ksizes.sum < limit → I s →
    let r := DatabaseInterface.fetch mode s keys ksizes func u
    Leaves whole view I (removals (mode.has .consume) keys ksizes) s (r.1, r.2.1)

section Runs

variable {σ : Type} [DatabaseInterface σ] {limit : ℕ} {whole : Bool} {view : σ → Bytes → Option Bytes}
  {I : σ → Prop} {s : σ}

/-- What one call leaves behind. -/
theorem Keeps.run (h : Keeps σ limit whole view I) {c : StoreCall} (hsized : c.Sized limit)
    (haccepted : c.Accepted σ) (hs : I s) :
    I (c.run s).2 ∧
      BatchOutcome whole c.changes (c.run s).1.status (view s) (view (c.run s).2) := by
  cases c with
  | existsKeys mode keys ksizes flags => exact ⟨hs, outcome_unchanged fun _ => rfl⟩
  | length mode keys ksizes vsizes => exact ⟨hs, outcome_unchanged fun _ => rfl⟩
  | put mode keys ksizes vals vsizes =>
    exact h.put haccepted.1 haccepted.2 hsized.1 hsized.2 hs
  | get mode packed keys ksizes vals vsizes => exact h.get hsized hs
  | fetch mode keys ksizes func => exact h.fetch hsized hs
  | erase mode keys ksizes => exact h.erase hsized hs

/-- What happens to a database between two calls leaves its pairs alone. -/
def Drifts (view : σ → Bytes → Option Bytes) (I : σ → Prop) (between : σ → σ) : Prop :=
  ∀ s, I s → I (between s) ∧ view (between s) = view s

/-- A call, behind what has happened since the one before. -/
def StoreCall.runBehind (between : σ → σ) (s : σ) (c : StoreCall) : StoreAnswer × σ :=
  c.run (between s)

/-- After the calls, the pairs are those that the calls which returned `OK` leave on their own. -/
def SurvivesWhole (view : σ → Bytes → Option Bytes) (between : σ → σ) (s : σ)
    (calls : List StoreCall) : Prop :=
  let r := trace (StoreCall.runBehind between) s calls
  view r.2 = apply (view s)
    (acknowledgedChanges StoreAnswer.acknowledges StoreCall.changes calls r.1)

/-- After the calls, the pairs are those that first parts of the calls leave, which are the whole
calls where they returned `OK`. -/
def SurvivesInParts (view : σ → Bytes → Option Bytes) (between : σ → σ) (s : σ)
    (calls : List StoreCall) : Prop :=
  let r := trace (StoreCall.runBehind between) s calls
  ∃ parts, Parts StoreAnswer.acknowledges StoreCall.changes calls r.1 parts ∧
    view r.2 = apply (view s) parts.flatten

/-- Where batches are kept whole, a run leaves the changes of the calls that returned `OK`. -/
theorem Keeps.trace_whole (h : Keeps σ limit true view I) {between : σ → σ}
    (hbetween : Drifts view I between) {calls : List StoreCall} (hcalls : Served σ limit calls)
    (hs : I s) : SurvivesWhole view between s calls := by
  refine Journal.trace_whole (fun s c hc hs => ?_) hcalls hs
  obtain ⟨hs, hview⟩ := hbetween s hs
  obtain ⟨hnext, houtcome⟩ := h.run hc.1 hc.2 hs
  refine ⟨hnext, ?_⟩
  rw [StoreCall.runBehind, houtcome.eq_ite, hview]
  simp only [StoreAnswer.acknowledges, beq_iff_eq]

/-- Elsewhere it leaves first parts of the changes of the other calls, too. -/
theorem Keeps.trace_parts (h : Keeps σ limit whole view I) {between : σ → σ}
    (hbetween : Drifts view I between) {calls : List StoreCall} (hcalls : Served σ limit calls)
    (hs : I s) : SurvivesInParts view between s calls := by
  refine Journal.trace_parts (fun s c hc hs => ?_) hcalls hs
  obtain ⟨hs, hsame⟩ := hbetween s hs
  obtain ⟨hnext, part, hpart, hall, -, hview⟩ := h.run hc.1 hc.2 hs
  rw [hsame] at hview
  exact ⟨hnext, part, hpart, fun hok => hall (eq_of_beq hok), hview⟩

end Runs

/-! ### Loops that stop half way -/

section Loops

variable {σ : Type} {view : σ → Bytes → Option Bytes} {keys vals : Bytes} {ksizes vsizes : List ℕ}
  {s : σ}

/-- What a loop over records returns has been returned by its body. -/
theorem eachRecord_result {α : Type} {body : α → σ → Option Status × σ} {as : List α}
    {status : Status} (h : (eachRecord body as s).1 = some status) :
    ∃ a s', (body a s').1 = some status := by
  induction as generalizing s with
  | nil => cases h
  | cons a as ih =>
    unfold eachRecord at h
    rcases hbody : body a s with ⟨_ | result, s'⟩
    · rw [hbody] at h
      exact ih h
    · rw [hbody] at h
      exact ⟨a, s, by rw [hbody]; exact h⟩

/-- What a loop over packed keys returns has been returned by its body, or says that a key ends past
the buffer. -/
theorem keysLoop_result {checked : Bool} {body : Bytes → σ → Option Status × σ} {offset : ℕ}
    {status : Status} (h : (keysLoop checked body keys ksizes offset s).1 = some status) :
    status = .InvalidArg ∨ ∃ k s', (body k s').1 = some status := by
  induction ksizes generalizing offset s with
  | nil => cases h
  | cons ksize ksizes ih =>
    unfold keysLoop at h
    split_ifs at h
    · exact Or.inl (Option.some.inj h).symm
    · rcases hbody : body (slice keys offset ksize) s with ⟨_ | result, s'⟩
      · rw [hbody] at h
        exact ih h
      · rw [hbody] at h
        exact Or.inr ⟨_, s, by rw [hbody]; exact h⟩

/-- A loop that checks the keys and comes to their end has found them within the buffer. -/
theorem sum_le_of_keysLoop {body : Bytes → σ → Option Status × σ} {offset : ℕ}
    (hsum : offset + ksizes.sum < 2 ^ 64) (hoffset : offset ≤ keys.length)
    (h : (keysLoop true body keys ksizes offset s).1 = none) :
    offset + ksizes.sum ≤ keys.length := by
  induction ksizes generalizing offset s with
  | nil => exact hoffset
  | cons ksize ksizes ih =>
    rw [List.sum_cons] at hsum ⊢
    have hadd : addSize offset ksize = offset + ksize := addSize_eq (by omega)
    unfold keysLoop at h
    rw [hadd] at h
    split_ifs at h with hout
    have hin : offset + ksize ≤ keys.length := by
      by_contra hlt
      exact hout ⟨rfl, Nat.not_le.1 hlt⟩
    rcases hbody : body (slice keys offset ksize) s with ⟨_ | result, s'⟩
    · rw [hbody] at h
      have hrest := ih (by omega) hin h
      omega
    · rw [hbody] at h
      cases h

/-- The arguments that `put` lets through. -/
theorem packed_of_putArguments (h : putArguments keys ksizes vals vsizes = true)
    (hk : ksizes.sum < 2 ^ 64) (hv : vsizes.sum < 2 ^ 64) :
    ksizes.length = vsizes.length ∧ Packed keys ksizes ∧ Packed vals vsizes := by
  simp only [putArguments, Bool.and_eq_true, decide_eq_true_eq, accumulate_eq hk,
    accumulate_eq hv] at h
  exact ⟨h.1.1, ⟨h.1.2, hk⟩, h.2, hv⟩

/-- The loop of `put`. -/
theorem putLoop_outcome {change : Bytes × Bytes → Change Bytes Bytes}
    {body : Bytes × Bytes → σ → Option Status × σ} (hbody : Changes view change body)
    (hne : ∀ p s, (body p s).1 ≠ some .OK) (hargs : putArguments keys ksizes vals vsizes = true)
    (hk : ksizes.sum < 2 ^ 64) (hv : vsizes.sum < 2 ^ 64) :
    let r := putLoop body s keys ksizes vals vsizes
    BatchOutcome false ((putPairs keys ksizes vals vsizes).map change) r.1 (view s) (view r.2) := by
  obtain ⟨hlen, -, -⟩ := packed_of_putArguments hargs hk hv
  unfold putLoop
  rw [pairsLoop_eq hlen hk hv]
  obtain ⟨n, hview, hall⟩ := eachRecord_prefix hbody (putPairs keys ksizes vals vsizes) s
  refine outcome_take hview fun hok => hall ?_
  -- a body does not stop with `OK`
  cases hresult : (eachRecord body (putPairs keys ksizes vals vsizes) s).1 with
  | none => rfl
  | some status =>
    obtain ⟨p, s', hp⟩ := eachRecord_result hresult
    have hstatus : status = .OK := by
      have hgetD : (eachRecord body (putPairs keys ksizes vals vsizes) s).1.getD .OK = .OK := hok
      rwa [hresult] at hgetD
    rw [hstatus] at hp
    exact absurd hp (hne p s')

/-- The loop of `erase`, from any point on. -/
theorem keysLoop_prefix (keys : Bytes) {change : Bytes → Change Bytes Bytes}
    {body : Bytes → σ → Option Status × σ} (hbody : Changes view change body)
    (hne : ∀ k s, (body k s).1 ≠ some .OK) {offset : ℕ} (hsum : offset + ksizes.sum < 2 ^ 64) :
    let r := keysLoop true body keys ksizes offset s
    ∃ n, view r.2 = apply (view s) (((unpack (keys.drop offset) ksizes).take n).map change) ∧
      (r.1.getD .OK = .OK → ksizes.length ≤ n) := by
  induction ksizes generalizing offset s with
  | nil => exact ⟨0, rfl, fun _ => le_rfl⟩
  | cons ksize ksizes ih =>
    rw [List.sum_cons] at hsum
    have hadd : addSize offset ksize = offset + ksize := addSize_eq (by omega)
    unfold keysLoop
    rw [hadd, unpack_cons, List.drop_drop]
    split_ifs
    · exact ⟨0, rfl, fun hok => (by cases hok)⟩
    · have hgoes := hbody.goes (slice keys offset ksize) s
      have hstops := hbody.stops (slice keys offset ksize) s
      rcases hstep : body (slice keys offset ksize) s with ⟨_ | status, s'⟩
      · rw [hstep] at hgoes
        have hrest : offset + ksize + ksizes.sum < 2 ^ 64 := by omega
        obtain ⟨n, hview, hall⟩ := ih (s := s') hrest
        refine ⟨n + 1, ?_, fun hok => Nat.succ_le_succ (hall hok)⟩
        dsimp only at hview ⊢
        rw [hview, hgoes rfl, ← apply_append]
        rfl
      · rw [hstep] at hstops
        refine ⟨0, hstops (by simp), fun hok => ?_⟩
        have hstatus : status = .OK := hok
        exact absurd (by rw [hstep, hstatus]) (hne (slice keys offset ksize) s)

theorem eraseLoop_outcome {change : Bytes → Change Bytes Bytes}
    {body : Bytes → σ → Option Status × σ} (hbody : Changes view change body)
    (hne : ∀ k s, (body k s).1 ≠ some .OK) (hk : ksizes.sum < 2 ^ 64) :
    let r := eraseLoop body s keys ksizes
    BatchOutcome false ((unpack keys ksizes).map change) r.1 (view s) (view r.2) := by
  obtain ⟨n, hview, hall⟩ := keysLoop_prefix keys (s := s) hbody hne
    (show 0 + ksizes.sum < 2 ^ 64 by omega)
  rw [List.drop_zero] at hview
  refine outcome_take hview fun hok => ?_
  rw [length_unpack]
  exact hall hok

/-- A loop of `erase` that goes on where a key may have been left makes some of the removals. -/
theorem keysLoop_some (keys : Bytes) {remove : Bytes → σ → σ}
    (hremove : ∀ k s, ∃ part : List (Change Bytes Bytes), part.Sublist [removal k] ∧
      view (remove k s) = apply (view s) part) {offset : ℕ} (hsum : offset + ksizes.sum < 2 ^ 64) :
    ∃ part : List (Change Bytes Bytes),
      part.Sublist ((unpack (keys.drop offset) ksizes).map removal) ∧
        view (keysLoop true (fun k s => (none, remove k s)) keys ksizes offset s).2 =
          apply (view s) part := by
  induction ksizes generalizing offset s with
  | nil => exact ⟨[], List.nil_sublist _, rfl⟩
  | cons ksize ksizes ih =>
    rw [List.sum_cons] at hsum
    have hadd : addSize offset ksize = offset + ksize := addSize_eq (by omega)
    unfold keysLoop
    rw [hadd, unpack_cons, List.drop_drop]
    split_ifs
    · exact ⟨[], List.nil_sublist _, rfl⟩
    · have hrest : offset + ksize + ksizes.sum < 2 ^ 64 := by omega
      obtain ⟨part, hpart, hview⟩ := hremove (slice keys offset ksize) s
      obtain ⟨part', hpart', hview'⟩ := ih (s := remove (slice keys offset ksize) s) hrest
      refine ⟨part ++ part', hpart.append hpart', ?_⟩
      rw [apply_append, ← hview]
      exact hview'

end Loops

/-! ### Readers that consume -/

section Consuming

variable {σ υ : Type} {whole : Bool} {view : σ → Bytes → Option Bytes} {I : σ → Prop} {s : σ}
  {mode : Mode} {packed : Bool} {keys vals : Bytes} {ksizes vsizes : List ℕ}
  {lookup : Bytes → Lookup} {erase : Mode → σ → Bytes → List ℕ → Status × σ}

/-- The end of `get` and `fetch`. -/
theorem consume_leaves (hs : I s)
    (herase : Leaves whole view I (removals true keys ksizes) s (erase mode s keys ksizes)) :
    Leaves whole view I (removals (mode.has .consume) keys ksizes) s
      (if mode.has .consume then erase mode s keys ksizes else (.OK, s)) := by
  cases mode.has .consume with
  | true => exact herase
  | false => exact ⟨hs, outcome_unchanged fun _ => rfl⟩

/-- A loop of `get` in LevelDB or LMDB stops with the status of a lookup that failed. -/
theorem getPackedLoop_failed {strict : Bool} {sizes : List (ℕ × ℕ)} {offset : ℕ} {g : PackedFill}
    {status : Status} (h : (getPackedLoop lookup strict keys sizes offset g).1 = some status) :
    ∃ k, lookup k = .failed status := by
  induction sizes generalizing offset g with
  | nil => cases h
  | cons size sizes ih =>
    unfold getPackedLoop at h
    cases hlookup : lookup (slice keys offset size.1) with
    | notFound =>
      rw [hlookup] at h
      exact ih h
    | found v =>
      rw [hlookup] at h
      dsimp only at h
      -- a value that does not fit ends the loop without a status
      split_ifs at h
      exact ih h
    | failed status' =>
      rw [hlookup] at h
      dsimp only at h
      split_ifs at h
      · exact ⟨_, hlookup.trans (congrArg Lookup.failed (Option.some.inj h))⟩
      · exact ih h

theorem getSlotLoop_failed {sizes : List (ℕ × ℕ)} {ko vo : ℕ} {out : List ℕ} {status : Status}
    (h : (getSlotLoop lookup keys sizes ko vo vals out).1 = some status) :
    ∃ k, lookup k = .failed status := by
  induction sizes generalizing ko vo vals out with
  | nil => cases h
  | cons size sizes ih =>
    unfold getSlotLoop at h
    cases hlookup : lookup (slice keys ko size.1) with
    | notFound =>
      rw [hlookup] at h
      exact ih h
    | found v =>
      rw [hlookup] at h
      exact ih h
    | failed status' =>
      rw [hlookup] at h
      exact ⟨_, hlookup.trans (congrArg Lookup.failed (Option.some.inj h))⟩

theorem getLoops_failed {strict : Bool} {status : Status}
    (h : (getLoops lookup strict packed keys ksizes vals vsizes).1 = some status) :
    ∃ k, lookup k = .failed status := by
  unfold getLoops at h
  split_ifs at h
  · dsimp only at h
    rcases hloop : getPackedLoop lookup strict keys (ksizes.zip vsizes) 0
      ⟨vals, 0, vals.length, []⟩ with ⟨_ | status', g⟩
    · rw [hloop] at h
      cases h
    · rw [hloop] at h
      have hstatus : status' = status := Option.some.inj h
      exact getPackedLoop_failed (by rw [hloop, hstatus])
  · exact getSlotLoop_failed h

/-- The loops of Berkeley DB and GDBM stop with such a status, too. -/
theorem getPackedLoopTold_failed {told : ℕ → ℤ} {sizes : List (ℕ × ℕ)} {offset : ℕ}
    {g : PackedFill} {status : Status}
    (h : (getPackedLoopTold told lookup keys sizes offset g).1 = some status) :
    ∃ k, lookup k = .failed status := by
  induction sizes generalizing offset g with
  | nil => cases h
  | cons size sizes ih =>
    unfold getPackedLoopTold at h
    cases hlookup : lookup (slice keys offset size.1) with
    | notFound =>
      rw [hlookup] at h
      exact ih h
    | found v =>
      rw [hlookup] at h
      dsimp only at h
      split_ifs at h
      exact ih h
    | failed status' =>
      rw [hlookup] at h
      exact ⟨_, hlookup.trans (congrArg Lookup.failed (Option.some.inj h))⟩

theorem getSlotLoopTold_failed {told : ℕ → ℤ} {sizes : List (ℕ × ℕ)} {ko vo : ℕ} {out : List ℕ}
    {status : Status} (h : (getSlotLoopTold told lookup keys sizes ko vo vals out).1 = some status) :
    ∃ k, lookup k = .failed status := by
  induction sizes generalizing ko vo vals out with
  | nil => cases h
  | cons size sizes ih =>
    unfold getSlotLoopTold at h
    cases hlookup : lookup (slice keys ko size.1) with
    | notFound =>
      rw [hlookup] at h
      exact ih h
    | found v =>
      rw [hlookup] at h
      exact ih h
    | failed status' =>
      rw [hlookup] at h
      exact ⟨_, hlookup.trans (congrArg Lookup.failed (Option.some.inj h))⟩

theorem getLoopsTold_failed {told : ℕ → ℤ} {status : Status}
    (h : (getLoopsTold told lookup packed keys ksizes vals vsizes).1 = some status) :
    ∃ k, lookup k = .failed status := by
  unfold getLoopsTold at h
  split_ifs at h
  · dsimp only at h
    rcases hloop : getPackedLoopTold told lookup keys (ksizes.zip vsizes) 0
      ⟨vals, 0, vals.length, []⟩ with ⟨_ | status', g⟩
    · rw [hloop] at h
      cases h
    · rw [hloop] at h
      have hstatus : status' = status := Option.some.inj h
      exact getPackedLoopTold_failed (by rw [hloop, hstatus])
  · exact getSlotLoopTold_failed h

/-- The loop of `get` in Tkrzw. -/
theorem TkrzwDatabase.getLoop_failed {sizes : List (ℕ × ℕ)} {offset : ℕ} {g : GetValue}
    {out : List ℕ} {status : Status}
    (h : (TkrzwDatabase.getLoop lookup packed keys sizes offset g out).1 = some status) :
    ∃ k, lookup k = .failed status := by
  induction sizes generalizing offset g out with
  | nil => cases h
  | cons size sizes ih =>
    unfold TkrzwDatabase.getLoop at h
    cases hlookup : lookup (slice keys offset size.1) with
    | notFound =>
      rw [hlookup] at h
      exact ih h
    | found v =>
      rw [hlookup] at h
      dsimp only at h
      -- a value that does not fit ends the loop without a status
      split_ifs at h
      exact ih h
    | failed status' =>
      rw [hlookup] at h
      exact ⟨_, hlookup.trans (congrArg Lookup.failed (Option.some.inj h))⟩

/-- `get`, where the loops do not stop with `OK`. -/
theorem gatherFrom_leaves {loops : Option Status × GetOutput} (hloops : loops.1 ≠ some .OK)
    (hs : I s)
    (herase : Leaves whole view I (removals true keys ksizes) s (erase mode s keys ksizes)) :
    let r := gatherFrom loops erase mode s keys ksizes
    Leaves whole view I (removals (mode.has .consume) keys ksizes) s (r.status, r.db) := by
  have hconsume := consume_leaves hs herase
  unfold gatherFrom
  obtain ⟨_ | status, out⟩ := loops
  · dsimp only
    split_ifs at hconsume ⊢ <;> exact hconsume
  · exact leaves_refused hs fun hok => hloops (congrArg some hok)

/-- `get`, where no lookup fails with `OK`. -/
theorem gatherWith_leaves {strict : Bool} (hlookup : ∀ k, lookup k ≠ .failed .OK) (hs : I s)
    (herase : Leaves whole view I (removals true keys ksizes) s (erase mode s keys ksizes)) :
    let r := gatherWith lookup strict erase mode packed s keys ksizes vals vsizes
    Leaves whole view I (removals (mode.has .consume) keys ksizes) s (r.status, r.db) := by
  refine gatherFrom_leaves (fun hok => ?_) hs herase
  obtain ⟨k, hk⟩ := getLoops_failed hok
  exact hlookup k hk

/-- `fetch`, where no lookup fails with `OK`. -/
theorem fetchWith_leaves {func : υ → Bytes → Option Bytes → Status × υ} {u : υ}
    (hlookup : ∀ k, lookup k ≠ .failed .OK) (hs : I s)
    (herase : Leaves whole view I (removals true keys ksizes) s (erase mode s keys ksizes)) :
    let r := fetchWith lookup erase mode s keys ksizes func u
    Leaves whole view I (removals (mode.has .consume) keys ksizes) s (r.1, r.2.1) := by
  have hanswered : ∀ r : Status × υ, (answered r).1 ≠ some .OK := by
    intro r
    unfold answered
    split_ifs with hok
    · simpa using hok
    · simp
  have hbody : ∀ k u, (deliverBody lookup func k u).1 ≠ some .OK := by
    intro k u
    unfold deliverBody
    cases hk : lookup k with
    | found v => exact hanswered _
    | notFound => exact hanswered _
    | failed status =>
      intro hok
      exact hlookup k (hk.trans (congrArg Lookup.failed (Option.some.inj hok)))
  have hconsume := consume_leaves hs herase
  unfold fetchWith
  rcases hloop : keysLoop false (deliverBody lookup func) keys ksizes 0 u with ⟨_ | status, u'⟩
  · dsimp only
    split_ifs at hconsume ⊢ <;> exact hconsume
  · refine leaves_refused hs fun hok => ?_
    subst hok
    obtain hinvalid | ⟨k, u'', hk⟩ := keysLoop_result (congrArg Prod.fst hloop)
    · cases hinvalid
    · exact hbody k u'' hk

/-- `get` leaves the database alone, or ends with `erase`. -/
theorem gatherFrom_db {loops : Option Status × GetOutput} :
    let r := gatherFrom loops erase mode s keys ksizes
    r.db = s ∨ mode.has .consume = true ∧ r.db = (erase mode s keys ksizes).2 := by
  unfold gatherFrom
  obtain ⟨_ | status, out⟩ := loops
  · dsimp only
    split_ifs with hconsume
    · exact Or.inr ⟨hconsume, rfl⟩
    · exact Or.inl rfl
  · exact Or.inl rfl

/-- So does `fetch`. -/
theorem fetchWith_db {func : υ → Bytes → Option Bytes → Status × υ} {u : υ} :
    let r := fetchWith lookup erase mode s keys ksizes func u
    r.2.1 = s ∨ mode.has .consume = true ∧ r.2.1 = (erase mode s keys ksizes).2 := by
  unfold fetchWith
  rcases keysLoop false (deliverBody lookup func) keys ksizes 0 u with ⟨_ | status, u'⟩
  · dsimp only
    split_ifs with hconsume
    · exact Or.inr ⟨hconsume, rfl⟩
    · exact Or.inl rfl
  · exact Or.inl rfl

end Consuming

/-! ### Bodies of loops -/

section Bodies

variable {δ : Type} {held : δ → Bytes → Option Bytes}

/-- A body goes on with a change made, or stops with the pairs left alone, and not with `OK`. -/
structure Makes (held : δ → Bytes → Option Bytes) (c : Change Bytes Bytes) (db : δ)
    (r : Option Status × δ) : Prop where
  goes : r.1 = none → held r.2 = apply (held db) [c]
  stops : r.1 ≠ none → held r.2 = held db
  ne_ok : r.1 ≠ some .OK

/-- A body that makes the change of each record is one that a loop can go through. -/
theorem changes_of_makes {α : Type} {change : α → Change Bytes Bytes}
    {body : α → δ → Option Status × δ} (h : ∀ a db, Makes held (change a) db (body a db)) :
    Changes held change body ∧ ∀ a db, (body a db).1 ≠ some .OK :=
  ⟨⟨fun a db => (h a db).goes, fun a db => (h a db).stops⟩, fun a db => (h a db).ne_ok⟩

end Bodies

/-! ### Modes -/

section Modes

variable {mode : Mode} {old : Option Bytes} {val : Bytes}

/-- A flag that a backend does not support is not set. -/
theorem not_has_of_supports {more flag : Mode} (hflag : (engineModes ||| more) &&& flag = 0#32)
    (h : engineSupportsMode more mode = true) : mode.has flag = false := by
  have hmask := eq_of_beq h
  unfold Mode.has
  rw [hmask, BitVec.and_assoc, hflag, bne_eq_false_iff_eq]
  exact BitVec.and_zero

theorem putRule_replace (hnew : mode.has .newOnly = false) (hexist : mode.has .existOnly = false)
    (happend : mode.has .append = false) : putRule mode old val = some val := by
  simp only [putRule, hnew, hexist, happend, Bool.false_eq_true, if_false]

theorem putRule_newOnly (hnew : mode.has .newOnly = true) :
    putRule mode old val = some (old.getD val) := by
  simp only [putRule, hnew, if_true]

theorem putRule_append (hnew : mode.has .newOnly = false) (hexist : mode.has .existOnly = false)
    (happend : mode.has .append = true) : putRule mode old val = some (old.getD [] ++ val) := by
  simp only [putRule, hnew, hexist, happend, Bool.false_eq_true, if_false, if_true]

/-- Without the flags that `put` looks at, values are replaced. -/
theorem putRule_eq_some (h : engineSupportsMode .default mode = true) :
    putRule mode = fun _ v => some v := by
  funext old val
  exact putRule_replace (not_has_of_supports (by decide) h) (not_has_of_supports (by decide) h)
    (not_has_of_supports (by decide) h)

end Modes

/-! ### LevelDB and RocksDB -/

/-- What is relied on in LevelDB: a write that returns `OK` has been made, any other has left the
pairs alone, and a lookup does not fail with `OK`. -/
structure LevelDB.Sound {δ : Type} [LevelDBWrites δ] (held : δ → Bytes → Option Bytes) : Prop where
  get (db : δ) (k : Bytes) : LevelDB.get db k ≠ .failed .OK
  put (db : δ) (k v : Bytes) : let r := LevelDBWrites.put db k v
    held r.2 = if r.1 = .OK then Function.update (held db) k (some v) else held db
  writePuts (db : δ) (ps : List (Bytes × Bytes)) : let r := LevelDBWrites.writePuts db ps
    held r.2 = if r.1 = .OK then writeAll (fun _ v => some v) (held db) ps else held db
  write (db : δ) (ks : List Bytes) : let r := LevelDB.write db ks
    held r.2 = if r.1 = .OK then eraseAll (held db) ks else held db

namespace LevelDBStore

variable {δ υ : Type} [LevelDBWrites δ] {held : δ → Bytes → Option Bytes} {s : LevelDBStore δ}
  {mode : Mode} {packed : Bool} {keys vals : Bytes} {ksizes vsizes : List ℕ}

theorem putBody_makes (h : LevelDB.Sound held) (p : Bytes × Bytes) (db : δ) :
    Makes held (writing (fun _ v => some v) p) db (putBody p db) := by
  have hput := h.put db p.1 p.2
  dsimp only at hput
  unfold putBody
  by_cases hfailed : (LevelDBWrites.put db p.1 p.2).1 ≠ .OK
  · rw [if_neg hfailed] at hput
    rw [if_pos hfailed]
    exact ⟨fun hnone => (by cases hnone), fun _ => hput, by simpa using hfailed⟩
  · rw [if_pos (not_not.1 hfailed)] at hput
    rw [if_neg hfailed]
    exact ⟨fun _ => hput, fun hsome => absurd rfl hsome, by simp⟩

/-- The batch that `put` writes. -/
theorem batch_eq (hargs : putArguments keys ksizes vals vsizes = true) (hk : ksizes.sum < 2 ^ 64)
    (hv : vsizes.sum < 2 ^ 64) :
    (pairsLoop (fun p wb => ((none : Option Status), wb ++ [p])) keys vals (ksizes.zip vsizes) 0 0
      []).2 = putPairs keys ksizes vals vsizes := by
  obtain ⟨hlen, -, -⟩ := packed_of_putArguments hargs hk hv
  rw [pairsLoop_eq hlen hk hv, eachRecord_snoc (fun p => p) fun _ _ => rfl]
  simp [putPairs]

/-- A database that writes in batches, or does not, and has been migrated, or has not. -/
def Stays (whole migrated : Bool) (s : LevelDBStore δ) : Prop :=
  s.useWriteBatch = whole ∧ s.migrated = migrated

theorem put_leaves (h : LevelDB.Sound held) {whole migrated : Bool}
    (hmode : supportsMode mode = true) (hk : ksizes.sum < 2 ^ 64) (hv : vsizes.sum < 2 ^ 64)
    (hs : s.Stays whole migrated) :
    Leaves whole (fun s => held s.db) (Stays whole migrated)
      ((putPairs keys ksizes vals vsizes).map (writing (putRule mode))) s
      (s.put mode keys ksizes vals vsizes) := by
  obtain ⟨rfl, -⟩ := id hs
  rw [putRule_eq_some hmode]
  unfold LevelDBStore.put
  split_ifs with hmigrated hargs hbatch
  · exact leaves_refused hs (by decide)
  · have hwrite := h.writePuts s.db (putPairs keys ksizes vals vsizes)
    refine ⟨hs, outcome_whole ?_⟩
    rw [apply_writings, ← batch_eq hargs hk hv]
    rw [← batch_eq hargs hk hv] at hwrite
    exact hwrite
  · refine ⟨hs, ?_⟩
    rw [Bool.not_eq_true] at hbatch
    rw [hbatch]
    obtain ⟨hchanges, hne⟩ := changes_of_makes (putBody_makes h)
    exact putLoop_outcome hchanges hne hargs hk hv
  · exact leaves_refused hs (by decide)

/-- The batch of deletions that `erase` writes has all the keys. -/
theorem erase_leaves (h : LevelDB.Sound held) {whole migrated : Bool} (hk : ksizes.sum < 2 ^ 64)
    (hs : s.Stays whole migrated) :
    Leaves whole (fun s => held s.db) (Stays whole migrated) (removals true keys ksizes) s
      (s.erase mode keys ksizes) := by
  unfold LevelDBStore.erase LevelDBDatabase.erase
  split_ifs with hmigrated
  · exact leaves_refused hs (by simp)
  · rcases hloop : keysLoop true (fun key wb => ((none : Option Status), wb ++ [key])) keys ksizes 0
      [] with ⟨_ | status, wb⟩
    · have hsum := sum_le_of_keysLoop (by omega) (Nat.zero_le _) (congrArg Prod.fst hloop)
      have hbatch : wb = unpack keys ksizes := by
        rw [keysLoop_eq hk (by omega), eachRecord_snoc (fun k => k) fun _ _ => rfl] at hloop
        have hwb := congrArg Prod.snd hloop
        simpa using hwb.symm
      subst hbatch
      refine ⟨hs, outcome_whole ?_⟩
      rw [removals, if_pos rfl, apply_removals]
      exact h.write s.db _
    · obtain rfl | ⟨k, wb', hno⟩ := keysLoop_result (congrArg Prod.fst hloop)
      · exact leaves_refused hs (by simp)
      · cases hno

/-- `get`, behind its checks. -/
theorem get_eq : s.get mode packed keys ksizes vals vsizes =
    if s.migrated then ⟨.Migrated, s, ⟨vals, vals.length, vsizes⟩⟩
    else if ksizes.length ≠ vsizes.length then ⟨.InvalidArg, s, ⟨vals, vals.length, vsizes⟩⟩
    else gatherWith (LevelDB.get s.db) false erase mode packed s keys ksizes vals vsizes := by
  unfold LevelDBStore.get LevelDBDatabase.get gatherWith gatherFrom
  by_cases hmigrated : s.migrated = true
  · rw [if_pos hmigrated, if_pos hmigrated]
  · rw [if_neg hmigrated, if_neg hmigrated]
    by_cases hlen : ksizes.length ≠ vsizes.length
    · rw [if_pos hlen, if_pos hlen]
    · rw [if_neg hlen, if_neg hlen]
      rcases getLoops (LevelDB.get s.db) false packed keys ksizes vals vsizes with ⟨_ | status, out⟩
      · cases mode.has .consume <;> rfl
      · rfl

theorem keeps (h : LevelDB.Sound held) (whole migrated : Bool) :
    Keeps (LevelDBStore δ) (2 ^ 64) whole (fun s => held s.db) (Stays whole migrated) := by
  constructor
  case put =>
    intro mode s keys vals ksizes vsizes _ hmode hk hv hs
    exact put_leaves h hmode hk hv hs
  case erase =>
    intro mode s keys ksizes hk hs
    exact erase_leaves h hk hs
  case get =>
    intro mode packed s keys vals ksizes vsizes hk hs
    rw [show DatabaseInterface.get mode packed s keys ksizes vals vsizes = _ from get_eq]
    split_ifs
    · exact leaves_refused hs (by simp)
    · exact leaves_refused hs (by simp)
    · exact gatherWith_leaves (h.get s.db) hs (erase_leaves h hk hs)
  case fetch =>
    intro υ mode s keys ksizes func u hk hs
    change let r := s.fetch mode keys ksizes func u; Leaves _ _ _ _ s (r.1, r.2.1)
    unfold LevelDBStore.fetch
    split_ifs
    · exact leaves_refused hs (by simp)
    · exact fetchWith_leaves (h.get s.db) hs (erase_leaves h hk hs)

end LevelDBStore

/-! ### LMDB -/

/-- What is relied on in LMDB. A state has the pairs that are `committed` and those that are `seen`
inside a write transaction: storing and deleting concern what is seen, and a commit makes it the
committed pairs when it returns `OK`, and drops it otherwise. -/
structure LMDB.Sound {δ : Type} [LMDBWrites δ] (committed seen : δ → Bytes → Option Bytes) :
    Prop where
  get (db : δ) (k : Bytes) : LMDB.get db k ≠ .failed .OK
  put (txn : δ) (k v : Bytes) : let r := LMDBWrites.put txn k v
    committed r.2 = committed txn ∧ (r.1 = .OK → seen r.2 = Function.update (seen txn) k (some v))
  del (txn : δ) (k : Bytes) : let r := LMDB.del txn k
    committed r.2 = committed txn ∧
      (r.1 = .OK ∨ r.1 = .NotFound → seen r.2 = Function.update (seen txn) k none)
  txnCommit (txn : δ) : let r := LMDB.txnCommit txn
    seen r.2 = committed r.2 ∧ committed r.2 = if r.1 = .OK then seen txn else committed txn

namespace LMDBDatabase

variable {δ υ : Type} [LMDBWrites δ] {committed seen : δ → Bytes → Option Bytes}
  {s : LMDBDatabase δ} {mode : Mode} {keys vals : Bytes} {ksizes vsizes : List ℕ} {migrated : Bool}

/-- Between two calls, everything that is seen is committed. -/
def Settled (committed seen : δ → Bytes → Option Bytes) (migrated : Bool) (s : LMDBDatabase δ) :
    Prop :=
  seen s.db = committed s.db ∧ s.migrated = migrated

/-- A loop inside a transaction: it is committed when the loop comes to its end, and aborted
otherwise. -/
theorem txn_leaves {α : Type} (h : LMDB.Sound committed seen) {body : α → δ → Option Status × δ}
    {change : α → Change Bytes Bytes} (hkeeps : ∀ a txn, committed (body a txn).2 = committed txn)
    (hgoes : ∀ a txn, (body a txn).1 = none → seen (body a txn).2 = apply (seen txn) [change a])
    (hne : ∀ a txn, (body a txn).1 ≠ some .OK) (hs : Settled committed seen migrated s)
    (as : List α) :
    Leaves true (fun s => committed s.db) (Settled committed seen migrated) (as.map change) s
      (match eachRecord body as s.db with
      | (some status, _) => (status, s)
      | (none, txn) => let r := LMDB.txnCommit txn; (r.1, { s with db := r.2 })) := by
  have hcommitted : committed (eachRecord body as s.db).2 = committed s.db :=
    eachRecord_invariant (P := fun txn => committed txn = committed s.db)
      (fun a txn htxn => (hkeeps a txn).trans htxn) as rfl
  have hseen : (eachRecord body as s.db).1 = none →
      seen (eachRecord body as s.db).2 = apply (seen s.db) (as.map change) := eachRecord_all hgoes
  rcases hloop : eachRecord body as s.db with ⟨_ | status, txn⟩
  · rw [hloop] at hcommitted hseen
    obtain ⟨hsettled, hcommit⟩ := h.txnCommit txn
    refine ⟨⟨hsettled, hs.2⟩, outcome_whole ?_⟩
    dsimp only at hcommitted hseen hcommit ⊢
    rw [hcommit, hseen rfl, hcommitted, hs.1]
  · refine leaves_refused hs fun hok => ?_
    obtain ⟨a, txn', hstop⟩ := eachRecord_result (congrArg Prod.fst hloop)
    have hstatus : status = .OK := hok
    rw [hstatus] at hstop
    exact hne a txn' hstop

theorem put_leaves (h : LMDB.Sound committed seen) (hmode : supportsMode mode = true)
    (hk : ksizes.sum < 2 ^ 64) (hv : vsizes.sum < 2 ^ 64) (hs : Settled committed seen migrated s) :
    Leaves true (fun s => committed s.db) (Settled committed seen migrated)
      ((putPairs keys ksizes vals vsizes).map (writing (putRule mode))) s
      (s.put mode keys ksizes vals vsizes) := by
  rw [putRule_eq_some hmode]
  unfold LMDBDatabase.put
  split_ifs with hmigrated hargs hbegin
  · exact leaves_refused hs (by decide)
  · exact leaves_refused hs hbegin
  · obtain ⟨hlen, -, -⟩ := packed_of_putArguments hargs hk hv
    rw [pairsLoop_eq hlen hk hv]
    refine txn_leaves h (fun p txn => ?_) (fun p txn hnone => ?_) (fun p txn => ?_) hs _
    · have hput := (h.put txn p.1 p.2).1
      unfold putBody
      dsimp only at hput ⊢
      split_ifs <;> exact hput
    · have hput := (h.put txn p.1 p.2).2
      unfold putBody at hnone ⊢
      dsimp only at hput hnone ⊢
      split_ifs at hnone ⊢ with hok
      exact hput (not_not.1 hok)
    · unfold putBody
      dsimp only
      split_ifs with hok
      · simpa using hok
      · simp
  · exact leaves_refused hs (by decide)

theorem erase_leaves (h : LMDB.Sound committed seen) (hk : ksizes.sum < 2 ^ 64)
    (hs : Settled committed seen migrated s) :
    Leaves true (fun s => committed s.db) (Settled committed seen migrated)
      (removals true keys ksizes) s (s.erase mode keys ksizes) := by
  unfold LMDBDatabase.erase
  split_ifs with hmigrated htotal hbegin
  · exact leaves_refused hs (by decide)
  · exact leaves_refused hs (by decide)
  · exact leaves_refused hs hbegin
  · rw [accumulate_eq hk] at htotal
    rw [keysLoop_eq hk (Nat.not_lt.1 htotal), removals, if_pos rfl]
    refine txn_leaves h (fun k txn => ?_) (fun k txn hnone => ?_) (fun k txn => ?_) hs _
    · have hdel := (h.del txn k).1
      unfold eraseBody
      dsimp only at hdel ⊢
      split_ifs <;> exact hdel
    · have hdel := (h.del txn k).2
      unfold eraseBody at hnone ⊢
      dsimp only at hdel hnone ⊢
      split_ifs at hnone ⊢ with hfailed
      exact hdel (by tauto)
    · unfold eraseBody
      dsimp only
      split_ifs with hfailed
      · simpa using hfailed.1
      · simp

/-- `get`, behind its checks. -/
theorem get_eq {packed : Bool} : s.get mode packed keys ksizes vals vsizes =
    if s.migrated then ⟨.Migrated, s, ⟨vals, vals.length, vsizes⟩⟩
    else if ksizes.length ≠ vsizes.length then ⟨.InvalidArg, s, ⟨vals, vals.length, vsizes⟩⟩
    else if LMDB.txnBegin s.db ≠ .OK then
      ⟨LMDB.txnBegin s.db, s, ⟨vals, vals.length, vsizes⟩⟩
    else gatherWith (LMDB.get s.db) true erase mode packed s keys ksizes vals vsizes := rfl

theorem keeps (h : LMDB.Sound committed seen) (migrated : Bool) :
    Keeps (LMDBDatabase δ) (2 ^ 64) true (fun s => committed s.db) (Settled committed seen migrated) := by
  constructor
  case put =>
    intro mode s keys vals ksizes vsizes _ hmode hk hv hs
    exact put_leaves h hmode hk hv hs
  case erase =>
    intro mode s keys ksizes hk hs
    exact erase_leaves h hk hs
  case get =>
    intro mode packed s keys vals ksizes vsizes hk hs
    rw [show DatabaseInterface.get mode packed s keys ksizes vals vsizes = _ from get_eq]
    split_ifs with hmigrated hlen hbegin
    · exact leaves_refused hs (by simp)
    · exact leaves_refused hs (by simp)
    · exact leaves_refused hs hbegin
    · exact gatherWith_leaves (h.get s.db) hs (erase_leaves h hk hs)
  case fetch =>
    intro υ mode s keys ksizes func u hk hs
    change let r := s.fetch mode keys ksizes func u; Leaves _ _ _ _ s (r.1, r.2.1)
    unfold LMDBDatabase.fetch
    split_ifs with hmigrated hbegin
    · exact leaves_refused hs (by simp)
    · exact leaves_refused hs hbegin
    · exact fetchWith_leaves (h.get s.db) hs (erase_leaves h hk hs)

end LMDBDatabase

/-! ### Libraries that store one pair at a time -/

section Stores

variable {δ : Type} {held : δ → Bytes → Option Bytes}

/-- The outcome of storing a pair: it is stored if it may overwrite or its key is absent, and is a
duplicate if it may not and the key is there. Otherwise the call has failed, and changed nothing. -/
def Stores (held : δ → Bytes → Option Bytes) (db : δ) (k v : Bytes) (overwrite : Bool)
    (r : StoreResult × δ) : Prop :=
  match r.1 with
  | .stored =>
    (overwrite = true ∨ held db k = none) ∧ held r.2 = Function.update (held db) k (some v)
  | .duplicate => overwrite = false ∧ (held db k).isSome ∧ held r.2 = held db
  | .failed status => status ≠ .OK ∧ held r.2 = held db

/-- The outcome of deleting a key. -/
def Removes (held : δ → Bytes → Option Bytes) (db : δ) (k : Bytes) (r : Status × δ) : Prop :=
  held r.2 = if r.1 = .OK ∨ r.1 = .NotFound then Function.update (held db) k none else held db

/-- What the loop of `put` may do with an outcome: it goes on with a pair that is stored, and a
failure ends it, though not with `OK`. -/
structure HeedsOutcome (next : StoreResult → Option Status) : Prop where
  stored : next .stored = none
  duplicate : next .duplicate ≠ some .OK
  failed (status : Status) : status ≠ .OK → ∃ status' ≠ .OK, next (.failed status) = some status'

theorem next_heeds (newOnly single : Bool) : HeedsOutcome (StoreResult.next newOnly single) := by
  constructor
  · rfl
  · unfold StoreResult.next
    dsimp only
    split_ifs <;> simp
  · exact fun status hstatus => ⟨status, hstatus, rfl⟩

theorem next_makes {next : StoreResult → Option Status} (hnext : HeedsOutcome next)
    {c : Change Bytes Bytes} {db : δ} {r : StoreResult × δ}
    (hstored : r.1 = .stored → held r.2 = apply (held db) [c])
    (hduplicate : r.1 = .duplicate → held r.2 = held db ∧ held db = apply (held db) [c])
    (hfailed : ∀ status, r.1 = .failed status → status ≠ .OK ∧ held r.2 = held db) :
    Makes held c db (next r.1, r.2) := by
  obtain ⟨result, db'⟩ := r
  cases result with
  | stored =>
    rw [hnext.stored]
    exact ⟨fun _ => hstored rfl, fun hsome => absurd rfl hsome, by simp⟩
  | duplicate =>
    obtain ⟨hsame, hchange⟩ := hduplicate rfl
    exact ⟨fun _ => hsame.trans hchange, fun _ => hsame, hnext.duplicate⟩
  | failed status =>
    obtain ⟨hstatus, hsame⟩ := hfailed status rfl
    obtain ⟨status', hstatus', hresult⟩ := hnext.failed status hstatus
    rw [hresult]
    exact ⟨fun hnone => (by cases hnone), fun _ => hsame, by simpa using hstatus'⟩

/-- The body of the loop of `put`, where `YOKAN_MODE_NEW_ONLY` is the only mode it looks at. -/
theorem storeBody_makes {store : δ → Bytes → Bytes → Bool → StoreResult × δ}
    (h : ∀ db k v overwrite, Stores held db k v overwrite (store db k v overwrite))
    {next : StoreResult → Option Status} (hnext : HeedsOutcome next) {mode : Mode}
    (hexist : mode.has .existOnly = false) (happend : mode.has .append = false)
    (p : Bytes × Bytes) (db : δ) :
    let r := store db p.1 p.2 (!mode.has .newOnly)
    Makes held (writing (putRule mode) p) db (next r.1, r.2) := by
  have hstore := h db p.1 p.2 (!mode.has .newOnly)
  have happly : apply (held db) [writing (putRule mode) p] =
      Function.update (held db) p.1 (putRule mode (held db p.1) p.2) := rfl
  unfold Stores at hstore
  refine next_makes hnext (fun hresult => ?_) (fun hresult => ?_) fun status hresult => ?_
  · rw [hresult] at hstore
    obtain ⟨hfree, hheld⟩ := hstore
    rw [hheld, happly]
    cases hnew : mode.has .newOnly with
    | false => rw [putRule_replace hnew hexist happend]
    | true =>
      rw [hnew] at hfree
      rw [putRule_newOnly hnew, hfree.resolve_left (by decide)]
      rfl
  · rw [hresult] at hstore
    obtain ⟨hoverwrite, hthere, hheld⟩ := hstore
    obtain ⟨old, hold⟩ := Option.isSome_iff_exists.1 hthere
    -- the old value is kept, which is what the rule of the mode says
    refine ⟨hheld, ?_⟩
    rw [happly, putRule_newOnly (by simpa using hoverwrite), hold, Option.getD_some, ← hold,
      Function.update_eq_self]
  · rw [hresult] at hstore
    exact hstore

/-- The body of the loop of `erase`. -/
theorem removeKeyBody_makes {remove : δ → Bytes → Status × δ}
    (h : ∀ db k, Removes held db k (remove db k)) (k : Bytes) (db : δ) :
    Makes held (removal k) db (removeKeyBody remove k db) := by
  have hremove := h db k
  unfold Removes at hremove
  unfold removeKeyBody
  by_cases hfailed : (remove db k).1 ≠ .OK ∧ (remove db k).1 ≠ .NotFound
  · rw [if_neg (not_or.2 hfailed)] at hremove
    rw [if_pos hfailed]
    exact ⟨fun hnone => (by cases hnone), fun _ => hremove, by simpa using hfailed.1⟩
  · rw [if_pos (by tauto)] at hremove
    rw [if_neg hfailed]
    exact ⟨fun _ => hremove, fun hsome => absurd rfl hsome, by simp⟩

end Stores

/-! ### Tkrzw -/

/-- What is relied on in Tkrzw. An append has no duplicates. -/
structure Tkrzw.Sound {δ : Type} [TkrzwWrites δ] (held : δ → Bytes → Option Bytes) : Prop where
  process (db : δ) (k : Bytes) : Tkrzw.process db k ≠ .failed .OK
  set (db : δ) (k v : Bytes) (overwrite : Bool) :
    Stores held db k v overwrite (TkrzwWrites.set db k v overwrite)
  append (db : δ) (k v : Bytes) : let r := TkrzwWrites.append db k v
    r.1 ≠ .duplicate ∧ Stores held db k ((held db k).getD [] ++ v) true r
  remove (db : δ) (k : Bytes) : Removes held db k (Tkrzw.remove db k)

namespace TkrzwDatabase

variable {δ υ : Type} [TkrzwWrites δ] {held : δ → Bytes → Option Bytes} {s : TkrzwDatabase δ}
  {mode : Mode} {packed : Bool} {keys vals : Bytes} {ksizes vsizes : List ℕ}

theorem putBody_makes (h : Tkrzw.Sound held) (hvalid : checkModeValid mode = true)
    (hmode : supportsMode mode = true) (single : Bool) (p : Bytes × Bytes) (db : δ) :
    Makes held (writing (putRule mode) p) db (putBody mode single p db) := by
  have hexist : mode.has .existOnly = false := not_has_of_supports (by decide) hmode
  unfold putBody
  cases happend : mode.has .append with
  | false => exact storeBody_makes h.set (next_heeds _ single) hexist happend p db
  | true =>
    have hnew : mode.has .newOnly = false := by
      have hboth := checkModeValid_append_newOnly hvalid
      simpa [happend] using hboth
    obtain ⟨hunique, hstore⟩ := h.append db p.1 p.2
    unfold Stores at hstore
    refine next_makes (next_heeds _ single) (fun hresult => ?_)
      (fun hresult => absurd hresult hunique) fun status hresult => ?_
    · rw [if_pos rfl] at hresult ⊢
      rw [hresult] at hstore
      show _ = Function.update (held db) p.1 (putRule mode (held db p.1) p.2)
      rw [putRule_append hnew hexist happend]
      exact hstore.2
    · rw [if_pos rfl] at hresult ⊢
      rw [hresult] at hstore
      exact hstore

/-- The loop of `erase` is that of a library which reports `NotFound`. -/
theorem keysLoop_eraseBody (keys : Bytes) (ksizes : List ℕ) (offset : ℕ) (s : TkrzwDatabase δ) :
    let r := keysLoop true (removeKeyBody Tkrzw.remove) keys ksizes offset s.db
    keysLoop true eraseBody keys ksizes offset s = (r.1, { s with db := r.2 }) := by
  induction ksizes generalizing offset s with
  | nil => rfl
  | cons ksize ksizes ih =>
    dsimp only at ih ⊢
    unfold keysLoop eraseBody removeKeyBody
    dsimp only
    split_ifs
    · rfl
    · rfl
    · exact ih _ _

theorem erase_leaves (h : Tkrzw.Sound held) (hk : ksizes.sum < 2 ^ 64) {migrated : Bool}
    (hs : s.migrated = migrated) :
    Leaves false (fun s => held s.db) (fun s => s.migrated = migrated) (removals true keys ksizes) s
      (s.erase mode keys ksizes) := by
  obtain ⟨hchanges, hne⟩ := changes_of_makes (removeKeyBody_makes h.remove)
  unfold TkrzwDatabase.erase
  split_ifs
  · exact leaves_refused hs (by decide)
  · rw [keysLoop_eraseBody]
    exact ⟨hs, eraseLoop_outcome hchanges hne hk⟩

theorem keeps (h : Tkrzw.Sound held) (migrated : Bool) :
    Keeps (TkrzwDatabase δ) (2 ^ 64) false (fun s => held s.db) fun s => s.migrated = migrated := by
  constructor
  case put =>
    intro mode s keys vals ksizes vsizes hvalid hmode hk hv hs
    change Leaves _ _ _ _ s (s.put mode keys ksizes vals vsizes)
    obtain ⟨hchanges, hne⟩ := changes_of_makes (putBody_makes h hvalid hmode (ksizes.length = 1))
    unfold TkrzwDatabase.put
    split_ifs with hmigrated hargs
    · exact leaves_refused hs (by decide)
    · exact ⟨hs, putLoop_outcome hchanges hne hargs hk hv⟩
    · exact leaves_refused hs (by decide)
  case erase =>
    intro mode s keys ksizes hk hs
    exact erase_leaves h hk hs
  case get =>
    intro mode packed s keys vals ksizes vsizes hk hs
    change let r := s.get mode packed keys ksizes vals vsizes; Leaves _ _ _ _ s (r.status, r.db)
    have herase : Leaves false (fun s => held s.db) (fun s => s.migrated = migrated)
        (removals true keys ksizes) s (s.erase mode keys ksizes) := erase_leaves h hk hs
    have hconsume :=
      consume_leaves (I := fun s : TkrzwDatabase δ => s.migrated = migrated) hs herase
    unfold TkrzwDatabase.get
    by_cases hmigrated : s.migrated = true
    · rw [if_pos hmigrated]
      exact leaves_refused hs (by simp)
    · rw [if_neg hmigrated]
      by_cases hlen : ksizes.length ≠ vsizes.length
      · rw [if_pos hlen]
        exact leaves_refused hs (by simp)
      · rw [if_neg hlen]
        dsimp only
        rcases hloop : getLoop (Tkrzw.process s.db) packed keys (ksizes.zip vsizes) 0 ⟨vals, 0⟩ []
          with ⟨_ | status, g, out⟩
        · dsimp only
          split_ifs at hconsume ⊢ <;> exact hconsume
        · obtain ⟨k, hk⟩ := getLoop_failed (congrArg Prod.fst hloop)
          refine leaves_refused hs fun hok => h.process s.db k ?_
          have hstatus : status = .OK := hok
          rw [hk, hstatus]
  case fetch =>
    intro υ mode s keys ksizes func u hk hs
    change let r := s.fetch mode keys ksizes func u; Leaves _ _ _ _ s (r.1, r.2.1)
    unfold TkrzwDatabase.fetch
    split_ifs with hmigrated
    · exact leaves_refused hs (by simp)
    · exact fetchWith_leaves (h.process s.db) hs (erase_leaves h hk hs)

end TkrzwDatabase

/-! ### Berkeley DB -/

/-- What is relied on in Berkeley DB. -/
structure BerkeleyDB.Sound {δ : Type} [BerkeleyDB δ] (held : δ → Bytes → Option Bytes) : Prop where
  get (db : δ) (k : Bytes) : BerkeleyDB.get db k ≠ .failed .OK
  put (db : δ) (k v : Bytes) (overwrite : Bool) :
    Stores held db k v overwrite (BerkeleyDB.put db k v overwrite)
  del (db : δ) (k : Bytes) : Removes held db k (BerkeleyDB.del db k)

namespace BerkeleyDBDatabase

variable {δ υ : Type} [BerkeleyDB δ] {held : δ → Bytes → Option Bytes} {s : BerkeleyDBDatabase δ}
  {mode : Mode} {keys vals : Bytes} {ksizes vsizes : List ℕ}

theorem dbt_eq {bytes : Bytes} (h : bytes.length < 2 ^ 32) : dbt bytes = bytes := by
  unfold dbt
  rw [Nat.mod_eq_of_lt h, List.take_length]

/-- The keys of a batch are no longer than all of them together. -/
theorem dbt_of_mem_unpack {bytes : Bytes} {sizes : List ℕ} (hsum : sizes.sum < 2 ^ 32) {k : Bytes}
    (hk : k ∈ unpack bytes sizes) : dbt k = k :=
  dbt_eq ((length_le_sum_of_mem_unpack hk).trans_lt hsum)

theorem putBody_makes (h : BerkeleyDB.Sound held) (hmode : supportsMode mode = true) (single : Bool)
    (p : Bytes × Bytes) (db : δ) :
    Makes held (writing (putRule mode) (dbt p.1, dbt p.2)) db (putBody mode single p db) :=
  storeBody_makes h.put (next_heeds (mode.has .newOnly) single)
    (not_has_of_supports (by decide) hmode) (not_has_of_supports (by decide) hmode)
    (dbt p.1, dbt p.2) db

theorem erase_leaves (h : BerkeleyDB.Sound held) (hk : ksizes.sum < 2 ^ 32) :
    Leaves false (fun s => held s.db) (fun _ => True) (removals true keys ksizes) s
      (s.erase mode keys ksizes) := by
  have hmakes : ∀ k (db : δ), Makes held (removal (dbt k)) db
      (removeKeyBody (fun db key => BerkeleyDB.del db (dbt key)) k db) := fun k db =>
    removeKeyBody_makes h.del (dbt k) db
  obtain ⟨hchanges, hne⟩ := changes_of_makes hmakes
  have hk64 : ksizes.sum < 2 ^ 64 := by omega
  have hloop := @eraseLoop_outcome δ held keys ksizes s.db _ _ hchanges hne hk64
  have hsame : (unpack keys ksizes).map (fun k => (removal (dbt k) : Change Bytes Bytes)) =
      removals true keys ksizes :=
    List.map_congr_left fun k hk' => congrArg removal (dbt_of_mem_unpack hk hk')
  rw [hsame] at hloop
  exact ⟨trivial, hloop⟩

theorem keeps (h : BerkeleyDB.Sound held) :
    Keeps (BerkeleyDBDatabase δ) (2 ^ 32) false (fun s => held s.db) fun _ => True := by
  constructor
  case put =>
    intro mode s keys vals ksizes vsizes _ hmode hk hv hs
    change Leaves _ _ _ _ s (s.put mode keys ksizes vals vsizes)
    obtain ⟨hchanges, hne⟩ := changes_of_makes (putBody_makes h hmode (ksizes.length = 1))
    have hsame : (putPairs keys ksizes vals vsizes).map
        (fun p => writing (putRule mode) (dbt p.1, dbt p.2)) =
          (putPairs keys ksizes vals vsizes).map (writing (putRule mode)) := by
      refine List.map_congr_left fun p hp => congrArg (writing (putRule mode)) ?_
      obtain ⟨hkey, hval⟩ := List.of_mem_zip hp
      exact Prod.ext (dbt_of_mem_unpack hk hkey) (dbt_of_mem_unpack hv hval)
    unfold BerkeleyDBDatabase.put
    split_ifs with hargs
    · refine ⟨trivial, ?_⟩
      rw [← hsame]
      exact putLoop_outcome hchanges hne hargs (by omega) (by omega)
    · exact leaves_refused hs (by decide)
  case erase =>
    intro mode s keys ksizes hk _
    exact erase_leaves h hk
  case get =>
    intro mode packed s keys vals ksizes vsizes hk hs
    change let r := s.get mode packed keys ksizes vals vsizes; Leaves _ _ _ _ s (r.status, r.db)
    unfold BerkeleyDBDatabase.get
    split_ifs with hlen
    · exact leaves_refused hs (by simp)
    · refine gatherFrom_leaves (fun hok => ?_) hs (erase_leaves h hk)
      obtain ⟨k, hk⟩ := getLoopsTold_failed hok
      exact h.get s.db (dbt k) hk
  case fetch =>
    intro υ mode s keys ksizes func u hk hs
    exact fetchWith_leaves (fun k => h.get s.db (dbt k)) hs (erase_leaves h hk)

end BerkeleyDBDatabase

/-! ### GDBM -/

/-- What is relied on in GDBM. -/
structure GDBM.Sound {δ : Type} [GDBM δ] (held : δ → Bytes → Option Bytes) : Prop where
  contains (db : δ) (k : Bytes) : GDBM.contains db k = (held db k).isSome
  store (db : δ) (k v : Bytes) (replace : Bool) :
    Stores held db k v replace (GDBM.store db k v replace)
  delete (db : δ) (k : Bytes) : Removes held db k (GDBM.delete db k)

/-- Deletions do not fail. -/
def GDBM.Deletes {δ : Type} [GDBM δ] (held : δ → Bytes → Option Bytes) : Prop :=
  ∀ db k, held (GDBM.delete db k).2 = Function.update (held db) k none

namespace GDBMDatabase

variable {δ υ : Type} [GDBM δ] {held : δ → Bytes → Option Bytes} {s : GDBMDatabase δ}
  {mode : Mode} {keys vals : Bytes} {ksizes vsizes : List ℕ} {migrated : Bool}

theorem next_heeds (newOnly single : Bool) : HeedsOutcome (next newOnly single) := by
  constructor
  · rfl
  · unfold next
    dsimp only
    split_ifs <;> simp
  · exact fun status _ => ⟨.Other, by decide, rfl⟩

theorem putBody_makes (h : GDBM.Sound held) (hmode : supportsMode mode = true)
    (hvalid : checkModeValid mode = true) (single : Bool) (p : Bytes × Bytes) (db : δ) :
    Makes held (writing (putRule mode) p) db (putBody mode single p db) := by
  have happend : mode.has .append = false := not_has_of_supports (by decide) hmode
  unfold putBody
  cases hexist : mode.has .existOnly with
  | false => exact storeBody_makes h.store (next_heeds _ single) hexist happend p db
  | true =>
    have hnew : mode.has .newOnly = false := by
      have hboth := checkModeValid_newOnly_existOnly hvalid
      simpa [hexist] using hboth
    have hrule : ∀ old, putRule mode old p.2 = old.map fun _ => p.2 := by
      intro old
      simp only [putRule, hnew, hexist, happend, Bool.false_eq_true, if_false, if_true]
    have happly : apply (held db) [writing (putRule mode) p] =
        Function.update (held db) p.1 (putRule mode (held db p.1) p.2) := rfl
    rw [if_pos rfl, h.contains]
    cases hold : held db p.1 with
    | some old =>
      have hstore := h.store db p.1 p.2 true
      unfold Stores at hstore
      rw [Option.isSome_some, if_pos rfl]
      refine next_makes (next_heeds false single) (fun hresult => ?_) (fun hresult => ?_)
        fun status hresult => ?_
      · rw [hresult] at hstore
        rw [happly, hrule, hold]
        exact hstore.2
      · rw [hresult] at hstore
        exact absurd hstore.1 (by decide)
      · rw [hresult] at hstore
        exact hstore
    | none =>
      have hsame : held db = apply (held db) [writing (putRule mode) p] := by
        rw [happly, hrule, hold, Option.map_none, ← hold, Function.update_eq_self]
      rw [Option.isSome_none, if_neg Bool.false_ne_true]
      cases single with
      | true => exact ⟨fun _ => hsame, fun _ => rfl, by simp⟩
      | false => exact ⟨fun _ => hsame, fun _ => rfl, by simp⟩

theorem put_leaves (h : GDBM.Sound held) (hvalid : checkModeValid mode = true)
    (hmode : supportsMode mode = true) (hk : ksizes.sum < 2 ^ 64) (hv : vsizes.sum < 2 ^ 64)
    (hs : s.migrated = migrated) :
    Leaves false (fun s => held s.db) (fun s => s.migrated = migrated)
      ((putPairs keys ksizes vals vsizes).map (writing (putRule mode))) s
      (s.put mode keys ksizes vals vsizes) := by
  obtain ⟨hchanges, hne⟩ := changes_of_makes (putBody_makes h hmode hvalid (ksizes.length = 1))
  unfold GDBMDatabase.put
  split_ifs with hargs hmigrated
  · exact leaves_refused hs (by decide)
  · exact ⟨hs, putLoop_outcome hchanges hne hargs hk hv⟩
  · exact leaves_refused hs (by decide)

theorem erase_leaves (hdeletes : GDBM.Deletes held) (hk : ksizes.sum < 2 ^ 64)
    (hs : s.migrated = migrated) :
    Leaves false (fun s => held s.db) (fun s => s.migrated = migrated) (removals true keys ksizes) s
      (s.erase mode keys ksizes) := by
  have hmakes : ∀ k (db : δ), Makes held (removal k) db (none, (GDBM.delete db k).2) := fun k db =>
    ⟨fun _ => hdeletes db k, fun hsome => absurd rfl hsome, by simp⟩
  obtain ⟨hchanges, hne⟩ := changes_of_makes hmakes
  unfold GDBMDatabase.erase
  split_ifs
  · exact leaves_refused hs (by decide)
  · exact ⟨hs, eraseLoop_outcome hchanges hne hk⟩

theorem lookup_ne (db : δ) (k : Bytes) : Lookup.ofEntry (GDBM.fetch db k) ≠ .failed .OK := by
  cases GDBM.fetch db k <;> simp [Lookup.ofEntry]

/-- What the operations leave behind while deletions do not fail. -/
theorem keeps (h : GDBM.Sound held) (hdeletes : GDBM.Deletes held) (migrated : Bool) :
    Keeps (GDBMDatabase δ) (2 ^ 31) false (fun s => held s.db) fun s => s.migrated = migrated := by
  constructor
  case put =>
    intro mode s keys vals ksizes vsizes hvalid hmode hk hv hs
    exact put_leaves h hvalid hmode (by omega) (by omega) hs
  case erase =>
    intro mode s keys ksizes hk hs
    exact erase_leaves hdeletes (by omega) hs
  case get =>
    intro mode packed s keys vals ksizes vsizes hk hs
    change let r := s.get mode packed keys ksizes vals vsizes; Leaves _ _ _ _ s (r.status, r.db)
    unfold GDBMDatabase.get
    split_ifs with hlen hmigrated
    · exact leaves_refused hs (by simp)
    · exact leaves_refused hs (by simp)
    · refine gatherFrom_leaves (fun hok => ?_) hs (erase_leaves hdeletes (by omega) hs)
      obtain ⟨k, hk⟩ := getLoopsTold_failed hok
      exact lookup_ne s.db k hk
  case fetch =>
    intro υ mode s keys ksizes func u hk hs
    change let r := s.fetch mode keys ksizes func u; Leaves _ _ _ _ s (r.1, r.2.1)
    unfold GDBMDatabase.fetch
    split_ifs with hmigrated
    · exact leaves_refused hs (by simp)
    · exact fetchWith_leaves (lookup_ne s.db) hs (erase_leaves hdeletes (by omega) hs)

/-- `erase` makes some of its removals, whatever its status. -/
theorem erase_some (h : GDBM.Sound held) (s : GDBMDatabase δ) (mode : Mode) (keys : Bytes)
    (hk : ksizes.sum < 2 ^ 64) :
    let r := s.erase mode keys ksizes
    r.2.migrated = s.migrated ∧ ∃ part : List (Change Bytes Bytes),
      part.Sublist (removals true keys ksizes) ∧ held r.2.db = apply (held s.db) part := by
  have hremove : ∀ k (db : δ), ∃ part : List (Change Bytes Bytes), part.Sublist [removal k] ∧
      held (GDBM.delete db k).2 = apply (held db) part := by
    intro k db
    have hremoves := h.delete db k
    unfold Removes at hremoves
    split_ifs at hremoves
    · exact ⟨_, List.Sublist.refl _, hremoves⟩
    · exact ⟨[], List.nil_sublist _, hremoves⟩
  unfold GDBMDatabase.erase
  split_ifs
  · exact ⟨rfl, [], List.nil_sublist _, rfl⟩
  · refine ⟨rfl, ?_⟩
    have hsum : 0 + ksizes.sum < 2 ^ 64 := by omega
    exact keysLoop_some keys hremove hsum

/-- What a call may leave behind when deletions may fail: some of its removals, and of any other
changes a first part, which is all of them with the status `OK`. -/
def MayLeave (c : StoreCall) (a : StoreAnswer) (part : List (Change Bytes Bytes)) : Prop :=
  if c.removes then part.Sublist c.changes
  else part <+: c.changes ∧ (a.acknowledges → part = c.changes)

/-- A call that has removed nothing. -/
theorem mayLeave_nil {c : StoreCall} (h : c.removes = false → c.changes = []) (a : StoreAnswer) :
    MayLeave c a [] := by
  unfold MayLeave
  split_ifs with hremoves
  · exact List.nil_sublist _
  · exact ⟨List.nil_prefix, fun _ => (h (Bool.eq_false_iff.2 hremoves)).symm⟩

/-- A call that reads, and may end with `erase`. -/
theorem mayLeave_reading (h : GDBM.Sound held) (hk : ksizes.sum < 2 ^ 64) {c : StoreCall}
    (hremoves : c.removes = mode.has .consume)
    (hchanges : c.changes = removals (mode.has .consume) keys ksizes)
    (hdb : (c.run s).2 = s ∨
      mode.has .consume = true ∧ (c.run s).2 = (s.erase mode keys ksizes).2) :
    (c.run s).2.migrated = s.migrated ∧ ∃ part, MayLeave c (c.run s).1 part ∧
      held (c.run s).2.db = apply (held s.db) part := by
  obtain hsame | ⟨hconsume, herased⟩ := hdb
  · rw [hsame]
    refine ⟨rfl, [], mayLeave_nil (fun hno => ?_) _, rfl⟩
    rw [hchanges, ← hremoves, hno]
    rfl
  · obtain ⟨hmigrated, part, hpart, hview⟩ := erase_some h s mode keys hk
    rw [herased]
    refine ⟨hmigrated, part, ?_, hview⟩
    unfold MayLeave
    rw [if_pos (hremoves.trans hconsume), hchanges, hconsume]
    exact hpart

theorem run_mayLeave (h : GDBM.Sound held) {c : StoreCall} (hsized : c.Sized (2 ^ 31))
    (haccepted : c.Accepted (GDBMDatabase δ)) :
    (c.run s).2.migrated = s.migrated ∧ ∃ part, MayLeave c (c.run s).1 part ∧
      held (c.run s).2.db = apply (held s.db) part := by
  have hsum : ∀ {n : ℕ}, n < 2 ^ 31 → n < 2 ^ 64 := fun hn => by omega
  cases c with
  | existsKeys mode keys ksizes flags => exact ⟨rfl, [], mayLeave_nil (fun _ => rfl) _, rfl⟩
  | length mode keys ksizes vsizes => exact ⟨rfl, [], mayLeave_nil (fun _ => rfl) _, rfl⟩
  | put mode keys ksizes vals vsizes =>
    have hput : Leaves false (fun s => held s.db) (fun s' => s'.migrated = s.migrated) _ s
        (s.put mode keys ksizes vals vsizes) :=
      put_leaves h haccepted.1 haccepted.2 (hsum hsized.1) (hsum hsized.2) rfl
    obtain ⟨hmigrated, part, hpart, hall, -, hview⟩ := hput
    refine ⟨hmigrated, part, ⟨hpart, fun hack => hall ?_⟩, hview⟩
    exact eq_of_beq hack
  | get mode packed keys ksizes vals vsizes =>
    refine mayLeave_reading h (hsum hsized) rfl rfl ?_
    show (s.get mode packed keys ksizes vals vsizes).db = s ∨ _ ∧
      (s.get mode packed keys ksizes vals vsizes).db = _
    unfold GDBMDatabase.get
    split_ifs
    · exact Or.inl rfl
    · exact Or.inl rfl
    · exact gatherFrom_db
  | fetch mode keys ksizes func =>
    refine mayLeave_reading h (hsum hsized) rfl rfl ?_
    change (s.fetch mode keys ksizes _ _).2.1 = s ∨ _ ∧ (s.fetch mode keys ksizes _ _).2.1 = _
    unfold GDBMDatabase.fetch
    split_ifs
    · exact Or.inl rfl
    · exact fetchWith_db
  | erase mode keys ksizes =>
    obtain ⟨hmigrated, part, hpart, hview⟩ := erase_some h s mode keys (hsum hsized)
    exact ⟨hmigrated, part, hpart, hview⟩

/-- After the calls, the pairs are those that parts of the calls leave. -/
def SurvivesButRemovals (view : GDBMDatabase δ → Bytes → Option Bytes)
    (between : GDBMDatabase δ → GDBMDatabase δ) (s : GDBMDatabase δ) (calls : List StoreCall) :
    Prop :=
  let r := trace (StoreCall.runBehind between) s calls
  ∃ parts, Remains MayLeave calls r.1 parts ∧ view r.2 = apply (view s) parts.flatten

theorem trace_mayLeave (h : GDBM.Sound held) {between : GDBMDatabase δ → GDBMDatabase δ}
    (hbetween : ∀ s, held (between s).db = held s.db) {calls : List StoreCall}
    (hcalls : Served (GDBMDatabase δ) (2 ^ 31) calls) :
    SurvivesButRemovals (fun s => held s.db) between s calls := by
  have hstep : ∀ (s : GDBMDatabase δ) (c : StoreCall),
      c.Sized (2 ^ 31) ∧ c.Accepted (GDBMDatabase δ) → True → True ∧ ∃ part,
        MayLeave c (c.runBehind between s).1 part ∧
          held (c.runBehind between s).2.db = apply (held s.db) part := by
    intro s c hc _
    rw [← hbetween s]
    exact ⟨trivial, (run_mayLeave h hc.1 hc.2).2⟩
  exact @trace_remains Bytes Bytes _ _ _ _ (StoreCall.runBehind between)
    (fun s : GDBMDatabase δ => held s.db) (fun _ => True) _ MayLeave hstep s calls hcalls trivial

end GDBMDatabase

/-! ### Runs with failures -/

/-- What may happen to a library between two calls: what it fails at, and when, but its pairs stay
as they are. -/
structure Drift {δ α : Type} (held : δ → α) where
  between : δ → δ
  held_between (db : δ) : held (between db) = held db

/-- Whatever calls into the libraries fail, and when, LevelDB (and RocksDB) with write batches and
LMDB keep exactly the calls that returned `OK`. LevelDB without batches, Tkrzw and Berkeley DB also
keep first parts of the others. So does GDBM while no deletion fails: one that does leaves its key
behind without a word. -/
theorem writes_survive {δ₁ δ₂ δ₃ δ₄ δ₅ : Type} [LevelDBWrites δ₁] [LMDBWrites δ₂] [TkrzwWrites δ₃]
    [BerkeleyDB δ₄] [GDBM δ₅] {leveldb : δ₁ → Bytes → Option Bytes}
    {committed seen : δ₂ → Bytes → Option Bytes} {tkrzw : δ₃ → Bytes → Option Bytes}
    {berkeley : δ₄ → Bytes → Option Bytes} {gdbm : δ₅ → Bytes → Option Bytes}
    (h₁ : LevelDB.Sound leveldb) (h₂ : LMDB.Sound committed seen) (h₃ : Tkrzw.Sound tkrzw)
    (h₄ : BerkeleyDB.Sound berkeley) (h₅ : GDBM.Sound gdbm) (d₁ : Drift leveldb)
    (d₂ : Drift fun db => (committed db, seen db)) (d₃ : Drift tkrzw) (d₄ : Drift berkeley)
    (d₅ : Drift gdbm) (calls : List StoreCall) :
    (∀ s : LevelDBStore δ₁, s.useWriteBatch = true → Served (LevelDBStore δ₁) (2 ^ 64) calls →
      SurvivesWhole (fun s => leveldb s.db) (fun s => { s with db := d₁.between s.db }) s calls) ∧
    (∀ s : LMDBDatabase δ₂, seen s.db = committed s.db → Served (LMDBDatabase δ₂) (2 ^ 64) calls →
      SurvivesWhole (fun s => committed s.db) (fun s => { s with db := d₂.between s.db }) s
        calls) ∧
    (∀ s : LevelDBStore δ₁, s.useWriteBatch = false → Served (LevelDBStore δ₁) (2 ^ 64) calls →
      SurvivesInParts (fun s => leveldb s.db) (fun s => { s with db := d₁.between s.db }) s
        calls) ∧
    (∀ s : TkrzwDatabase δ₃, Served (TkrzwDatabase δ₃) (2 ^ 64) calls →
      SurvivesInParts (fun s => tkrzw s.db) (fun s => { s with db := d₃.between s.db }) s calls) ∧
    (∀ s : BerkeleyDBDatabase δ₄, Served (BerkeleyDBDatabase δ₄) (2 ^ 32) calls →
      SurvivesInParts (fun s => berkeley s.db) (fun s => { s with db := d₄.between s.db }) s
        calls) ∧
    ∀ s : GDBMDatabase δ₅, Served (GDBMDatabase δ₅) (2 ^ 31) calls →
      GDBMDatabase.SurvivesButRemovals (fun s => gdbm s.db)
        (fun s => { s with db := d₅.between s.db }) s calls ∧
      (GDBM.Deletes gdbm →
        SurvivesInParts (fun s => gdbm s.db) (fun s => { s with db := d₅.between s.db }) s
          calls) := by
  refine ⟨fun s hs hcalls => ?_, fun s hs hcalls => ?_, fun s hs hcalls => ?_, fun s hcalls => ?_,
    fun s hcalls => ?_, fun s hcalls => ⟨?_, fun hdeletes => ?_⟩⟩
  · refine (LevelDBStore.keeps h₁ true s.migrated).trace_whole (fun s hs => ?_) hcalls ⟨hs, rfl⟩
    exact ⟨hs, d₁.held_between s.db⟩
  · refine (LMDBDatabase.keeps h₂ s.migrated).trace_whole (fun s hs => ?_) hcalls ⟨hs, rfl⟩
    obtain ⟨hcommitted, hseen⟩ := Prod.ext_iff.1 (d₂.held_between s.db)
    exact ⟨⟨hseen.trans (hs.1.trans hcommitted.symm), hs.2⟩, hcommitted⟩
  · refine (LevelDBStore.keeps h₁ false s.migrated).trace_parts (fun s hs => ?_) hcalls ⟨hs, rfl⟩
    exact ⟨hs, d₁.held_between s.db⟩
  · refine (TkrzwDatabase.keeps h₃ s.migrated).trace_parts (fun s hs => ?_) hcalls rfl
    exact ⟨hs, d₃.held_between s.db⟩
  · refine (BerkeleyDBDatabase.keeps h₄).trace_parts (fun s hs => ?_) hcalls trivial
    exact ⟨hs, d₄.held_between s.db⟩
  · exact GDBMDatabase.trace_mayLeave h₅ (fun s => d₅.held_between s.db) hcalls
  · refine (GDBMDatabase.keeps h₅ hdeletes s.migrated).trace_parts (fun s hs => ?_) hcalls rfl
    exact ⟨hs, d₅.held_between s.db⟩

/-- A library in which only so many writes succeed. -/
structure Failing where
  budget : ℕ
  committed : Bytes → Option Bytes
  pairs : Bytes → Option Bytes

namespace Failing

/-- A write, while the budget lasts. -/
def write (db : Failing) (pairs : Bytes → Option Bytes) : Status × Failing :=
  if db.budget = 0 then (.IOError, db) else (.OK, { db with budget := db.budget - 1, pairs })

/-- Storing a pair, while the budget lasts. -/
def store (db : Failing) (k v : Bytes) (overwrite : Bool) : StoreResult × Failing :=
  if overwrite = false ∧ (db.pairs k).isSome then (.duplicate, db)
  else if db.budget = 0 then (.failed .IOError, db)
  else
    (.stored, { db with budget := db.budget - 1, pairs := Function.update db.pairs k (some v) })

instance : LevelDBWrites Failing where
  get db k := .ofEntry (db.pairs k)
  write db ks := db.write (eraseAll db.pairs ks)
  put db k v := db.write (Function.update db.pairs k (some v))
  writePuts db ps := db.write (writeAll (fun _ v => some v) db.pairs ps)

instance : LMDBWrites Failing where
  txnBegin _ := .OK
  get db k := .ofEntry (db.pairs k)
  del db k := db.write (Function.update db.pairs k none)
  txnCommit db :=
    if db.budget = 0 then (.IOError, { db with pairs := db.committed })
    else (.OK, { db with budget := db.budget - 1, committed := db.pairs })
  put db k v := db.write (Function.update db.pairs k (some v))

instance : TkrzwWrites Failing where
  process db k := .ofEntry (db.pairs k)
  remove db k := db.write (Function.update db.pairs k none)
  isOrdered := false
  get db k := if (db.pairs k).isSome then .OK else .NotFound
  set := store
  append db k v := db.store k ((db.pairs k).getD [] ++ v) true

instance : BerkeleyDB Failing where
  dbType := .hash
  contains db k := if (db.pairs k).isSome then .OK else .NotFound
  get db k := .ofEntry (db.pairs k)
  put := store
  del db k := db.write (Function.update db.pairs k none)

instance : GDBM Failing where
  contains db k := (db.pairs k).isSome
  fetch db k := db.pairs k
  store := store
  delete db k := db.write (Function.update db.pairs k none)

theorem pairs_write (db : Failing) (pairs : Bytes → Option Bytes) :
    (db.write pairs).2.pairs = if (db.write pairs).1 = .OK then pairs else db.pairs := by
  unfold write
  split_ifs <;> simp_all

theorem write_cases (db : Failing) (pairs : Bytes → Option Bytes) :
    (db.write pairs).1 = .OK ∨ (db.write pairs).1 = .IOError := by
  unfold write
  split_ifs
  · exact Or.inr rfl
  · exact Or.inl rfl

theorem stores (db : Failing) (k v : Bytes) (overwrite : Bool) :
    Stores pairs db k v overwrite (db.store k v overwrite) := by
  unfold Stores store
  by_cases hthere : overwrite = false ∧ (db.pairs k).isSome
  · rw [if_pos hthere]
    exact ⟨hthere.1, hthere.2, rfl⟩
  · rw [if_neg hthere]
    by_cases hbudget : db.budget = 0
    · rw [if_pos hbudget]
      exact ⟨by decide, rfl⟩
    · rw [if_neg hbudget]
      refine ⟨?_, rfl⟩
      cases overwrite with
      | true => exact Or.inl rfl
      | false => exact Or.inr (by simpa using hthere)

theorem removes (db : Failing) (k : Bytes) :
    Removes pairs db k (db.write (Function.update db.pairs k none)) := by
  unfold Removes
  rw [pairs_write]
  obtain hstatus | hstatus := db.write_cases (Function.update db.pairs k none) <;>
    rw [hstatus] <;> simp

theorem lookup_ne (db : Failing) (k : Bytes) : Lookup.ofEntry (db.pairs k) ≠ .failed .OK := by
  cases db.pairs k <;> simp [Lookup.ofEntry]

theorem leveldb_sound : LevelDB.Sound pairs where
  get := lookup_ne
  put _ _ _ := pairs_write _ _
  writePuts _ _ := pairs_write _ _
  write _ _ := pairs_write _ _

theorem committed_write (db : Failing) (pairs : Bytes → Option Bytes) :
    (db.write pairs).2.committed = db.committed := by
  unfold write
  split_ifs <;> rfl

theorem lmdb_sound : LMDB.Sound committed pairs where
  get := lookup_ne
  put _ _ _ := ⟨committed_write _ _, fun hok => (pairs_write _ _).trans (if_pos hok)⟩
  del db k := by
    refine ⟨committed_write _ _, fun hstatus => ?_⟩
    have hremoves := db.removes k
    unfold Removes at hremoves
    exact hremoves.trans (if_pos hstatus)
  txnCommit db := by
    show (LMDB.txnCommit db).2.pairs = (LMDB.txnCommit db).2.committed ∧ _
    unfold LMDB.txnCommit LMDBWrites.toLMDB instLMDBWrites
    dsimp only
    split_ifs <;> simp_all

theorem tkrzw_sound : Tkrzw.Sound pairs where
  process := lookup_ne
  set := stores
  append db k v := by
    refine ⟨?_, stores db k _ true⟩
    show (db.store k _ true).1 ≠ .duplicate
    unfold store
    split_ifs <;> simp_all
  remove := removes

theorem berkeley_sound : BerkeleyDB.Sound pairs where
  get := lookup_ne
  put := stores
  del := removes

theorem gdbm_sound : GDBM.Sound pairs where
  contains _ _ := rfl
  store := stores
  delete := removes

/-- No write succeeds. -/
def empty : Failing := ⟨0, fun _ => none, fun _ => none⟩

/-- Behind a call with no writes left, one write succeeds. -/
def turn (db : Failing) : Failing := { db with budget := 1 - db.budget }

end Failing

/-- Two pairs are put, and one is erased twice, where at most one write of a call succeeds, and none
behind a call that has only read. -/
theorem writes_survive_two :
    let calls := [StoreCall.put .default [1, 2] [1, 1] [3, 4] [1, 1],
      .length .default [1] [1] [0], .erase .default [1] [1], .erase .default [1] [1]]
    SurvivesWhole (fun s : LevelDBStore Failing => s.db.pairs)
        (fun s => { s with db := s.db.turn }) ⟨⟨.empty, false⟩, true⟩ calls ∧
      SurvivesWhole (fun s : LMDBDatabase Failing => s.db.committed)
        (fun s => { s with db := s.db.turn }) ⟨.empty, false⟩ calls ∧
      SurvivesInParts (fun s : LevelDBStore Failing => s.db.pairs)
        (fun s => { s with db := s.db.turn }) ⟨⟨.empty, false⟩, false⟩ calls ∧
      SurvivesInParts (fun s : TkrzwDatabase Failing => s.db.pairs)
        (fun s => { s with db := s.db.turn }) ⟨.empty, false⟩ calls ∧
      SurvivesInParts (fun s : BerkeleyDBDatabase Failing => s.db.pairs)
        (fun s => { s with db := s.db.turn }) ⟨.hash, .empty⟩ calls ∧
      GDBMDatabase.SurvivesButRemovals (fun s : GDBMDatabase Failing => s.db.pairs)
        (fun s => { s with db := s.db.turn }) ⟨.empty, false⟩ calls := by
  intro calls
  obtain ⟨hbatch, hlmdb, hloop, htkrzw, hberkeley, hgdbm⟩ := writes_survive Failing.leveldb_sound
    Failing.lmdb_sound Failing.tkrzw_sound Failing.berkeley_sound Failing.gdbm_sound
    ⟨.turn, fun _ => rfl⟩ ⟨.turn, fun _ => rfl⟩ ⟨.turn, fun _ => rfl⟩ ⟨.turn, fun _ => rfl⟩
    ⟨.turn, fun _ => rfl⟩ calls
  have hserved : ∀ {σ : Type} [DatabaseInterface σ] {limit : ℕ}, 2 < limit →
      DatabaseInterface.supportsMode σ .default = true → Served σ limit calls := by
    intro σ _ limit hlimit hmode c hc
    have hone : 1 < limit := by omega
    simp only [calls, List.mem_cons, List.not_mem_nil, or_false] at hc
    obtain rfl | rfl | rfl | rfl := hc
    · exact ⟨⟨hlimit, hlimit⟩, by decide, hmode⟩
    · exact ⟨hone, by decide, hmode⟩
    · exact ⟨hone, by decide, hmode⟩
    · exact ⟨hone, by decide, hmode⟩
  exact ⟨hbatch _ rfl (hserved (by decide) (by decide)),
    hlmdb _ rfl (hserved (by decide) (by decide)), hloop _ rfl (hserved (by decide) (by decide)),
    htkrzw _ (hserved (by decide) (by decide)), hberkeley _ (hserved (by decide) (by decide)),
    (hgdbm _ (hserved (by decide) (by decide))).1⟩

end Yokan
