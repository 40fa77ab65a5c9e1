import Yokan.DocMixinListing

/-!
# Yokan: `fetch` with a callback that fails

`MapDatabase::fetch` and `UnorderedMapDatabase::fetch` with a callback that may return any status
at any key, and with or without `YOKAN_MODE_CONSUME`, which both files announce in `supportsMode`.

* `FetchesUntil`: a `fetch` that calls back key after key, stops at the first failure and returns
  it, and otherwise returns `OK`, with the keys of the batch erased exactly when it consumes;
* `UnorderedMapDatabase.fetchesUntil`: this is how `unordered_map.cpp` fetches;
* `fetch_alike_iff`: `map.cpp` does the same exactly if no call fails and there is nothing to erase.
-/

namespace Yokan

open Buffer PartialMap DatabaseInterface FiniteMapStore

/-! ### The calls -/

/-- The calls of a `FetchCallback` so far: each key with its value, or without one where the size is
`YOKAN_KEY_NOT_FOUND`. -/
abbrev FetchCalls := List (Bytes × Option Bytes)

/-- What a `FetchCallback` returns for a key and its value, after the calls made before. -/
abbrev FetchAnswer := FetchCalls → Bytes → Option Bytes → Status

/-- The callback with these answers, which keeps a record of its calls. -/
def recorded (answer : FetchAnswer) (calls : FetchCalls) (key : Bytes) (val : Option Bytes) :
    Status × FetchCalls :=
  (answer calls key val, calls ++ [(key, val)])

/-- Calling back for some keys, up to the first failure: the status and the calls. -/
def fetchUntil (answer : FetchAnswer) (m : Bytes → Option Bytes) :
    List Bytes → FetchCalls → Status × FetchCalls
  | [], calls => (.OK, calls)
  | key :: keys, calls =>
    match recorded answer calls key (m key) with
    | (.OK, calls) => fetchUntil answer m keys calls
    | (status, calls) => (status, calls)

/-- The callback returns `OK` for every key of the batch. -/
def AcceptsAll (answer : FetchAnswer) (m : Bytes → Option Bytes) : List Bytes → FetchCalls → Prop
  | [], _ => True
  | key :: keys, calls =>
    answer calls key (m key) = .OK ∧ AcceptsAll answer m keys (calls ++ [(key, m key)])

/-- A `fetch` from a database with the content `m` that makes the calls up to the first failure and
returns it. When no call fails, it returns `OK`, and the keys are erased exactly when it consumes.
-/
def FetchesUntil {σ : Type} [FiniteMapStore σ] (m : Bytes → Option Bytes) (mode : Mode) (s : σ)
    (keys : Bytes) (ksizes : List ℕ) (answer : FetchAnswer) : Prop :=
  let expected := fetchUntil answer m (unpack keys ksizes) []
  let r := fetch mode s keys ksizes (recorded answer) []
  r.1 = expected.1 ∧ r.2.2 = expected.2 ∧
    contents r.2.1 =
      if expected.1 = .OK ∧ mode.has .consume then eraseAll m (unpack keys ksizes) else m

section Calls

variable {answer : FetchAnswer} {m : Bytes → Option Bytes}

theorem fetchUntil_ok_iff (keys : List Bytes) (calls : FetchCalls) :
    (fetchUntil answer m keys calls).1 = .OK ↔ AcceptsAll answer m keys calls := by
  induction keys generalizing calls with
  | nil => exact iff_of_true rfl trivial
  | cons key keys ih =>
    rw [fetchUntil, AcceptsAll, recorded]
    rcases hanswer : answer calls key (m key) <;> simp [ih]

/-- A callback that returns `OK` for every key gets to see them all. -/
theorem fetchUntil_of_acceptsAll {keys : List Bytes} {calls : FetchCalls}
    (h : AcceptsAll answer m keys calls) :
    fetchUntil answer m keys calls = (.OK, calls ++ keys.map fun key => (key, m key)) := by
  induction keys generalizing calls with
  | nil => simp [fetchUntil]
  | cons key keys ih =>
    obtain ⟨hanswer, hrest⟩ := h
    rw [fetchUntil, recorded, hanswer]
    dsimp only
    rw [ih hrest, List.append_assoc]
    rfl

end Calls

/-- Erasing keys changes nothing exactly if none of them is there. -/
theorem eraseAll_eq_self_iff {m : Bytes → Option Bytes} {keys : List Bytes} :
    eraseAll m keys = m ↔ ∀ key ∈ keys, m key = none := by
  constructor
  · intro h key hkey
    have hat := congrFun h key
    rwa [eraseAll_apply, if_pos hkey, eq_comm] at hat
  · intro h
    funext key
    rw [eraseAll_apply]
    split_ifs with hkey
    · exact (h key hkey).symm
    · rfl

/-! ### The two functions -/

section Backends

variable {mode : Mode} {keys : Bytes} {ksizes : List ℕ} {answer : FetchAnswer}

/-- The loop of `UnorderedMapDatabase::fetch` ends at the first failure. -/
theorem UnorderedMapDatabase.eachRecord_fetchBody (t : UnorderedMapDatabase) (ks : List Bytes)
    (calls : FetchCalls) :
    eachRecord (t.fetchBody false (recorded answer)) ks calls =
      let expected := fetchUntil answer t.find ks calls
      (if expected.1 = .OK then none else some expected.1, expected.2) := by
  induction ks generalizing calls with
  | nil => rfl
  | cons k ks ih =>
    rw [eachRecord, fetchUntil, fetchBody, if_neg (by simp), recorded]
    rcases answer calls k (t.find k)
    case OK => exact ih _
    all_goals rfl

/-- `UnorderedMapDatabase::fetch` stops at the first failure, and otherwise erases what it was asked
to consume. -/
theorem UnorderedMapDatabase.fetchesUntil {t : UnorderedMapDatabase} (ht : t.migrated = false)
    (hwait : mode.has .wait = false) (hk : Packed keys ksizes) (answer : FetchAnswer) :
    FetchesUntil t.find mode t keys ksizes answer := by
  obtain ⟨herase, -, hcontents⟩ := erase_eq (σ := UnorderedMapDatabase) ht hwait hk
  have hfetch : DatabaseInterface.fetch mode t keys ksizes (recorded answer) [] =
      let expected := fetchUntil answer t.find (unpack keys ksizes) []
      if expected.1 = .OK then
        if mode.has .consume then
          let r := DatabaseInterface.erase mode t keys ksizes
          (r.1, r.2, expected.2)
        else (.OK, t, expected.2)
      else (expected.1, t, expected.2) := by
    change t.fetch mode keys ksizes (recorded answer) [] = _
    rw [UnorderedMapDatabase.fetch, if_neg (by simp [ht]), hwait, keysLoop_eq hk.2 hk.1,
      t.eachRecord_fetchBody]
    dsimp only
    split_ifs <;> rfl
  have hfind : contents t = t.find := rfl
  rw [hfind] at hcontents
  unfold FetchesUntil
  rw [hfetch]
  generalize fetchUntil answer t.find (unpack keys ksizes) [] = expected
  by_cases hok : expected.1 = .OK
  · cases hconsume : mode.has .consume with
    | false => simp [hok, hfind]
    | true => simp [hok, herase, hcontents]
  · simp [hok, hfind]

/-- `MapDatabase::fetch` calls back for all keys and returns `OK`. -/
theorem MapDatabase.fetch_recorded {c : Comparator} {s : MapDatabase c} (hs : s.migrated = false)
    (hwait : mode.has .wait = false) (hk : Packed keys ksizes) (answer : FetchAnswer) :
    DatabaseInterface.fetch mode s keys ksizes (recorded answer) [] =
      (.OK, s, (unpack keys ksizes).map fun key => (key, s.find key)) := by
  have hfold : ∀ (ks : List Bytes) (calls : FetchCalls),
      ks.foldl (fun u k => (recorded answer u k (s.find k)).2) calls =
        calls ++ ks.map fun key => (key, s.find key) := by
    intro ks
    induction ks with
    | nil => simp
    | cons k ks ih =>
      intro calls
      rw [List.foldl_cons, ih, recorded, List.map_cons, List.append_assoc]
      rfl
  change s.fetch mode keys ksizes (recorded answer) [] = _
  rw [MapDatabase.fetch_eq hs hwait hk, hfold, List.nil_append]

/-- `MapDatabase::fetch` does as documented exactly if no call fails and, when it consumes, there is
nothing to erase. -/
theorem MapDatabase.fetchesUntil_iff {c : Comparator} {s : MapDatabase c} (hs : s.migrated = false)
    (hwait : mode.has .wait = false) (hk : Packed keys ksizes) (answer : FetchAnswer) :
    FetchesUntil s.find mode s keys ksizes answer ↔
      AcceptsAll answer s.find (unpack keys ksizes) [] ∧
        (mode.has .consume = true → ∀ key ∈ unpack keys ksizes, s.find key = none) := by
  have hfind : contents s = s.find := rfl
  rw [← fetchUntil_ok_iff, ← eraseAll_eq_self_iff]
  unfold FetchesUntil
  rw [MapDatabase.fetch_recorded hs hwait hk]
  dsimp only
  rw [hfind]
  constructor
  · rintro ⟨hstatus, -, hcontents⟩
    refine ⟨hstatus.symm, fun hconsume => ?_⟩
    rw [if_pos ⟨hstatus.symm, hconsume⟩] at hcontents
    exact hcontents.symm
  · rintro ⟨hok, herased⟩
    refine ⟨hok.symm, ?_, ?_⟩
    · rw [fetchUntil_of_acceptsAll ((fetchUntil_ok_iff _ _).1 hok), List.nil_append]
    · split_ifs with hconsume
      · exact (herased hconsume.2).symm
      · rfl

end Backends

/-- The two files fetch alike, both as documented, exactly if the callback returns `OK` for every
key of the batch and, with `YOKAN_MODE_CONSUME`, no key of the batch is stored. -/
theorem fetch_alike_iff {c : Comparator} {s : MapDatabase c} {t : UnorderedMapDatabase}
    {m : Bytes → Option Bytes} (hs : s.migrated = false) (hsm : s.find = m)
    (ht : t.migrated = false) (htm : t.find = m) {mode : Mode} (hwait : mode.has .wait = false)
    {keys : Bytes} {ksizes : List ℕ} (hk : Packed keys ksizes) (answer : FetchAnswer) :
    FetchesUntil m mode s keys ksizes answer ∧ FetchesUntil m mode t keys ksizes answer ↔
      AcceptsAll answer m (unpack keys ksizes) [] ∧
        (mode.has .consume = true → ∀ key ∈ unpack keys ksizes, m key = none) := by
  have hmap := MapDatabase.fetchesUntil_iff hs hwait hk answer
  have hunordered := UnorderedMapDatabase.fetchesUntil ht hwait hk answer
  rw [hsm] at hmap
  rw [htm] at hunordered
  rw [hmap]
  exact and_iff_left hunordered

/-- Two databases that store the first of two keys, and a callback that takes either answer. -/
theorem fetch_alike_iff_stored :
    let s := (MapDatabase.empty .default).assign [1] [7]
    let answer : FetchAnswer := fun calls _ val =>
      if calls.length < 2 ∧ (val = some [7] ∨ val = none) then .OK else .InvalidArg
    FetchesUntil s.find .default s [1, 2] [1, 1] answer ∧
      FetchesUntil s.find .default (UnorderedMapDatabase.empty.assign [1] [7]) [1, 2] [1, 1]
        answer := by
  intro s answer
  have hfind : (UnorderedMapDatabase.empty.assign [1] [7]).find = s.find := by
    rw [UnorderedMapDatabase.find_assign, MapDatabase.find_assign]
    rfl
  have haccepts : AcceptsAll answer s.find (unpack [1, 2] [1, 1]) [] := ⟨rfl, rfl, trivial⟩
  have hpacked : Packed [1, 2] [1, 1] := by decide
  exact (fetch_alike_iff rfl rfl rfl hfind (Mode.has_default _) hpacked answer).2
    ⟨haccepts, fun hconsume => absurd hconsume (by decide)⟩

/-- The callback fails for the only key of a batch, and `MapDatabase::fetch` returns `OK`. -/
theorem fetch_ignores_failure :
    ¬ ∀ (c : Comparator) (s : MapDatabase c) (t : UnorderedMapDatabase)
      (m : Bytes → Option Bytes) (mode : Mode) (keys : Bytes) (ksizes : List ℕ)
      (answer : Bytes → Option Bytes → Status), s.migrated = false → s.find = m →
        t.migrated = false → t.find = m → mode.has .wait = false → Packed keys ksizes →
        FetchesUntil m mode s keys ksizes (fun _ => answer) ∧
          FetchesUntil m mode t keys ksizes (fun _ => answer) := by
  intro h
  have hmissing := (h .default (.empty .default) .empty (fun _ => none) .default [1] [1]
    (fun _ _ => .NotFound) rfl rfl rfl rfl (by decide) (by decide)).1
  exact absurd hmissing.1 (by decide)

end Yokan
