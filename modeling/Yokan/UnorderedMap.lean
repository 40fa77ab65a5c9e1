import Yokan.Map
import Mathlib.Data.List.AList

/-!
# Yokan: the `unordered_map` backend

`UnorderedMapDatabase` (`src/backends/unordered_map.cpp`), whose container is a
`std::unordered_map`. The model keeps it as an association list without repeated keys; nothing
observable depends on the order of the entries, which the hash table leaves unspecified.

The file was written separately from `map.cpp`. `put_agree` says that the two nevertheless
implement the same `put`: the left fold of four simple actions on single pairs.
-/

namespace Yokan

open Buffer PartialMap

/-- An `unordered_map` database. -/
structure UnorderedMapDatabase where
  db : AList (fun _ : Bytes => Bytes)
  migrated : Bool
  watcher : List Bytes

namespace UnorderedMapDatabase

/-- The database `create` makes. -/
def empty : UnorderedMapDatabase := ⟨∅, false, []⟩

/-- `m_db->find(key)`. -/
def find (s : UnorderedMapDatabase) (key : Bytes) : Option Bytes := s.db.lookup key

/-- `m_db->emplace(key, val)`: whether the key was new; one that is there keeps its value. -/
def emplace (s : UnorderedMapDatabase) (key val : Bytes) : Bool × UnorderedMapDatabase :=
  if key ∈ s.db then (false, s) else (true, { s with db := s.db.insert key val })

/-- `it->second.assign(val)` or `it->second.append(val)` on the entry of a key that is there. -/
def assign (s : UnorderedMapDatabase) (key val : Bytes) : UnorderedMapDatabase :=
  { s with db := s.db.insert key val }

/-- `m_watcher.notifyKey(key)`, in the mode `YOKAN_MODE_NOTIFY`. -/
def notifyKey (mode : Mode) (key : Bytes) (s : UnorderedMapDatabase) : UnorderedMapDatabase :=
  if mode.has .notify then { s with watcher := s.watcher ++ [key] } else s

/-- The body of the loop of `put`. -/
def putBody (mode : Mode) (single : Bool) (p : Bytes × Bytes) (s : UnorderedMapDatabase) :
    Option Status × UnorderedMapDatabase :=
  let (key, val) := p
  if mode.has .newOnly then
    match s.find key with
    | none => (none, notifyKey mode key (s.emplace key val).2)
    | some _ => if single then (some .KeyExists, s) else (none, s)
  else if mode.has .existOnly then
    match s.find key with
    | some v =>
      (none, notifyKey mode key (s.assign key (if mode.has .append then v ++ val else val)))
    | none => if single then (some .NotFound, s) else (none, s)
  else if mode.has .append then
    match s.find key with
    | some v => (none, notifyKey mode key (s.assign key (v ++ val)))
    | none => (none, notifyKey mode key (s.emplace key val).2)
  else
    let (inserted, s) := s.emplace key val
    (none, notifyKey mode key (if inserted then s else s.assign key val))

/-- `UnorderedMapDatabase::put`. -/
def put (mode : Mode) (s : UnorderedMapDatabase) (keys : Bytes) (ksizes : List ℕ) (vals : Bytes)
    (vsizes : List ℕ) : Status × UnorderedMapDatabase :=
  putWith migrated putBody mode s keys ksizes vals vsizes

/-- `UnorderedMapDatabase::exists`. -/
def existsKeys (mode : Mode) (s : UnorderedMapDatabase) (keys : Bytes) (ksizes : List ℕ)
    (flags : List Bool) : Status × List Bool :=
  existsWith s.find s.migrated mode keys ksizes flags

/-- `UnorderedMapDatabase::length`. -/
def length (mode : Mode) (s : UnorderedMapDatabase) (keys : Bytes) (ksizes vsizes : List ℕ) :
    Status × List ℕ :=
  lengthWith s.find s.migrated mode keys ksizes vsizes

/-- The body of the loop of `erase`. -/
def eraseBody (wait : Bool) (key : Bytes) (s : UnorderedMapDatabase) :
    Option Status × UnorderedMapDatabase :=
  match s.find key with
  | some _ => (none, { s with db := s.db.erase key })
  | none => if wait then (some .TimedOut, s) else (none, s)

/-- `UnorderedMapDatabase::erase`. -/
def erase (mode : Mode) (s : UnorderedMapDatabase) (keys : Bytes) (ksizes : List ℕ) :
    Status × UnorderedMapDatabase :=
  eraseWith migrated eraseBody mode s keys ksizes

/-- `UnorderedMapDatabase::get`. -/
def get (mode : Mode) (packed : Bool) (s : UnorderedMapDatabase) (keys : Bytes)
    (ksizes : List ℕ) (vals : Bytes) (vsizes : List ℕ) : GetResult UnorderedMapDatabase :=
  getOrConsume find migrated erase mode packed s keys ksizes vals vsizes

/-- The body of the loop of `fetch`: unlike in `map.cpp`, a callback that fails ends it. -/
def fetchBody {υ : Type} (s : UnorderedMapDatabase) (wait : Bool)
    (func : υ → Bytes → Option Bytes → Status × υ) (key : Bytes) (u : υ) : Option Status × υ :=
  if wait ∧ s.find key = none then (some .TimedOut, u)
  else
    match func u key (s.find key) with
    | (.OK, u) => (none, u)
    | (status, u) => (some status, u)

/-- `UnorderedMapDatabase::fetch`: unlike in `map.cpp`, `YOKAN_MODE_CONSUME` erases the keys. -/
def fetch {υ : Type} (mode : Mode) (s : UnorderedMapDatabase) (keys : Bytes) (ksizes : List ℕ)
    (func : υ → Bytes → Option Bytes → Status × υ) (u : υ) :
    Status × UnorderedMapDatabase × υ :=
  if s.migrated then (.Migrated, s, u)
  else
    match keysLoop false (s.fetchBody (mode.has .wait) func) keys ksizes 0 u with
    | (some status, u) => (status, s, u)
    | (none, u) =>
      if mode.has .consume then let r := erase mode s keys ksizes; (r.1, r.2, u)
      else (.OK, s, u)

/-- `UnorderedMapDatabase::supportsMode`. -/
def supportsMode (mode : Mode) : Bool := inMemorySupportsMode mode

/-! ### The laws -/

theorem mem_iff_find {s : UnorderedMapDatabase} {key : Bytes} :
    key ∈ s.db ↔ (s.find key).isSome := by
  rw [find, AList.lookup_isSome]

theorem find_assign (s : UnorderedMapDatabase) (key val : Bytes) :
    (s.assign key val).find = Function.update s.find key (some val) := by
  funext k
  by_cases h : k = key
  · subst h
    simp [find, assign]
  · rw [Function.update_of_ne h]
    exact AList.lookup_insert_ne h

theorem emplace_of_none {s : UnorderedMapDatabase} {key : Bytes} (val : Bytes)
    (h : s.find key = none) : s.emplace key val = (true, s.assign key val) := by
  have hmem : key ∉ s.db := by simp [mem_iff_find, h]
  rw [emplace, if_neg hmem]
  rfl

theorem emplace_of_some {s : UnorderedMapDatabase} {key v : Bytes} (val : Bytes)
    (h : s.find key = some v) : s.emplace key val = (false, s) := by
  have hmem : key ∈ s.db := by simp [mem_iff_find, h]
  rw [emplace, if_pos hmem]

@[simp] theorem find_notifyKey (mode : Mode) (key : Bytes) (s : UnorderedMapDatabase) :
    (notifyKey mode key s).find = s.find := by
  unfold notifyKey; split_ifs <;> rfl

@[simp] theorem migrated_notifyKey (mode : Mode) (key : Bytes) (s : UnorderedMapDatabase) :
    (notifyKey mode key s).migrated = s.migrated := by
  unfold notifyKey; split_ifs <;> rfl

theorem find_putBody (mode : Mode) (single : Bool) (p : Bytes × Bytes)
    (s : UnorderedMapDatabase) :
    (putBody mode single p s).2.find =
      Function.update s.find p.1 (putRule mode (s.find p.1) p.2) := by
  obtain ⟨key, val⟩ := p
  cases hk : s.find key with
  | none =>
    have hkeep : Function.update s.find key none = s.find := by
      rw [← hk, Function.update_eq_self]
    simp only [putBody, putRule, hk, emplace_of_none val hk]
    split_ifs <;> simp [find_assign, hkeep]
  | some v =>
    have hkeep : Function.update s.find key (some v) = s.find := by
      rw [← hk, Function.update_eq_self]
    simp only [putBody, putRule, hk, emplace_of_some val hk, Bool.false_eq_true, if_false]
    split_ifs <;> simp [find_assign, hkeep]

theorem migrated_putBody (mode : Mode) (single : Bool) (p : Bytes × Bytes)
    (s : UnorderedMapDatabase) : (putBody mode single p s).2.migrated = s.migrated := by
  obtain ⟨key, val⟩ := p
  cases hk : s.find key with
  | none =>
    simp only [putBody, hk, emplace_of_none val hk, if_true]
    split_ifs <;> simp [assign]
  | some v =>
    simp only [putBody, hk, emplace_of_some val hk, Bool.false_eq_true, if_false]
    split_ifs <;> simp [assign]

theorem putBody_single (mode : Mode) (p : Bytes × Bytes) (s : UnorderedMapDatabase) :
    (putBody mode true p s).1.getD .OK = putStatus mode s.find [p] := by
  obtain ⟨key, val⟩ := p
  cases hk : s.find key <;> simp only [putBody, putStatus, hk] <;> split_ifs <;> simp_all

theorem putBody_many (mode : Mode) (p : Bytes × Bytes) (s : UnorderedMapDatabase) :
    (putBody mode false p s).1 = none := by
  obtain ⟨key, val⟩ := p
  cases hk : s.find key <;> simp only [putBody, hk] <;> split_ifs <;> simp_all

theorem find_eraseBody (wait : Bool) (key : Bytes) (s : UnorderedMapDatabase) :
    (eraseBody wait key s).2.find = Function.update s.find key none := by
  unfold eraseBody
  cases hk : s.find key with
  | none =>
    have hkeep : Function.update s.find key none = s.find := by
      rw [← hk, Function.update_eq_self]
    simp only
    split_ifs <;> exact hkeep.symm
  | some v =>
    funext k
    by_cases h : k = key
    · subst h
      simp [find]
    · rw [Function.update_of_ne h]
      exact AList.lookup_erase_ne h

theorem migrated_eraseBody (wait : Bool) (key : Bytes) (s : UnorderedMapDatabase) :
    (eraseBody wait key s).2.migrated = s.migrated := by
  unfold eraseBody
  cases s.find key with
  | none => simp only; split_ifs <;> rfl
  | some v => rfl

theorem eraseBody_none (key : Bytes) (s : UnorderedMapDatabase) :
    (eraseBody false key s).1 = none := by
  unfold eraseBody
  cases s.find key <;> rfl

theorem fetch_eq {υ : Type} {mode : Mode} {s : UnorderedMapDatabase} {keys : Bytes}
    {ksizes : List ℕ} {func : υ → Bytes → Option Bytes → Status × υ} {u : υ}
    (hs : s.migrated = false) (hwait : mode.has .wait = false)
    (hconsume : mode.has .consume = false) (hk : Packed keys ksizes)
    (hfunc : ∀ u k v, (func u k v).1 = .OK) :
    fetch mode s keys ksizes func u =
      (.OK, s, (unpack keys ksizes).foldl (fun u k => (func u k (s.find k)).2) u) := by
  have hbody : ∀ k u, fetchBody s false func k u = (none, (func u k (s.find k)).2) := by
    intro k u
    have hok := hfunc u k (s.find k)
    unfold fetchBody
    rw [if_neg (by simp)]
    rcases hf : func u k (s.find k) with ⟨status, u'⟩
    rw [hf] at hok
    cases hok
    rfl
  unfold fetch
  rw [if_neg (by simp [hs]), hwait, keysLoop_eq hk.2 hk.1, eachRecord_of_none _ hbody]
  simp only [hconsume, Bool.false_eq_true, if_false]

instance : InMemory UnorderedMapDatabase where
  isSorted := false
  find := find
  migrated := migrated
  putBody := putBody
  eraseBody := eraseBody
  fetch := fetch
  find_putBody := find_putBody
  migrated_putBody := migrated_putBody
  putBody_single := putBody_single
  putBody_many := putBody_many
  find_eraseBody := find_eraseBody
  migrated_eraseBody := migrated_eraseBody
  eraseBody_none := eraseBody_none
  fetch_eq := fetch_eq

end UnorderedMapDatabase

/-! ### The two `put`s -/

/-- What a put does with one pair. -/
inductive PutAction
  | replace
  | appendOrInsert
  | insertIfAbsent
  | replaceIfPresent
  | appendIfPresent
  deriving DecidableEq

namespace PutAction

/-- The flags `YOKAN_MODE_APPEND`, `YOKAN_MODE_NEW_ONLY` and `YOKAN_MODE_EXIST_ONLY` that ask for
an action. -/
def flags : PutAction → Bool × Bool × Bool
  | replace => (false, false, false)
  | appendOrInsert => (true, false, false)
  | insertIfAbsent => (false, true, false)
  | replaceIfPresent => (false, false, true)
  | appendIfPresent => (true, false, true)

/-- The entry of a key after the action. -/
def apply : PutAction → Option Bytes → Bytes → Option Bytes
  | replace, _, val => some val
  | appendOrInsert, none, val => some val
  | appendOrInsert, some v, val => some (v ++ val)
  | insertIfAbsent, none, val => some val
  | insertIfAbsent, some v, _ => some v
  | replaceIfPresent, none, _ => none
  | replaceIfPresent, some _, val => some val
  | appendIfPresent, none, _ => none
  | appendIfPresent, some v, val => some (v ++ val)

/-- The status of a batch: only a batch of one pair reports a key that is in the way or missing. -/
def status (action : PutAction) (m : Bytes → Option Bytes) : List (Bytes × Bytes) → Status
  | [(key, _)] =>
    match action, m key with
    | insertIfAbsent, some _ => .KeyExists
    | replaceIfPresent, none => .NotFound
    | appendIfPresent, none => .NotFound
    | _, _ => .OK
  | _ => .OK

variable {mode : Mode}

/-- A valid mode asks for one of the actions. -/
theorem exists_flags (hmode : checkModeValid mode) :
    ∃ action : PutAction,
      action.flags = (mode.has .append, mode.has .newOnly, mode.has .existOnly) := by
  have h1 := checkModeValid_append_newOnly hmode
  have h2 := checkModeValid_newOnly_existOnly hmode
  cases ha : mode.has .append <;> cases hn : mode.has .newOnly <;>
    cases he : mode.has .existOnly <;> simp only [ha, hn, he] at h1 h2
  · exact ⟨replace, rfl⟩
  · exact ⟨replaceIfPresent, rfl⟩
  · exact ⟨insertIfAbsent, rfl⟩
  · simp at h2
  · exact ⟨appendOrInsert, rfl⟩
  · exact ⟨appendIfPresent, rfl⟩
  · simp at h1
  · simp at h1

variable {action : PutAction}
  (h : action.flags = (mode.has .append, mode.has .newOnly, mode.has .existOnly))

include h

theorem putRule_eq_apply (old : Option Bytes) (val : Bytes) :
    putRule mode old val = action.apply old val := by
  simp only [putRule]
  cases action <;> simp only [flags, Prod.mk.injEq] at h <;> obtain ⟨h1, h2, h3⟩ := h <;>
    cases old <;> simp [← h1, ← h2, ← h3, apply]

theorem putStatus_eq_status (m : Bytes → Option Bytes) (ps : List (Bytes × Bytes)) :
    putStatus mode m ps = action.status m ps := by
  match ps with
  | [] => rfl
  | [(key, val)] =>
    simp only [putStatus, status]
    cases action <;> simp only [flags, Prod.mk.injEq] at h <;> obtain ⟨-, h2, h3⟩ := h <;>
      cases m key <;> simp [← h2, ← h3]
  | _ :: _ :: _ => rfl

end PutAction

/-- An action that is refused leaves the content as it was. -/
theorem PutAction.apply_of_status_ne {action : PutAction} {m : Bytes → Option Bytes}
    {ps : List (Bytes × Bytes)} (h : action.status m ps ≠ .OK) :
    writeAll action.apply m ps = m := by
  match ps with
  | [] => rfl
  | [(key, val)] =>
    rw [writeAll_cons, writeAll_nil]
    suffices action.apply (m key) val = m key by rw [this, Function.update_eq_self]
    simp only [status] at h
    cases action <;> cases hk : m key <;> simp_all [apply]
  | _ :: _ :: _ => exact absurd rfl h

section Action

variable {σ : Type} [FiniteMapStore σ] {mode : Mode} {action : PutAction} {s : σ}
  {keys vals : Bytes} {ksizes vsizes : List ℕ}

open DatabaseInterface FiniteMapStore

/-- `put` of a batch applies the action of the mode from left to right, as does putting its pairs
one by one. -/
theorem put_eq_action
    (haction : action.flags = (mode.has .append, mode.has .newOnly, mode.has .existOnly))
    (hs : Serving s) (hk : Packed keys ksizes) (hv : Packed vals vsizes)
    (hlen : ksizes.length = vsizes.length) :
    let ps := (unpack keys ksizes).zip (unpack vals vsizes)
    contents (put mode s keys ksizes vals vsizes).2 = writeAll action.apply (contents s) ps ∧
      contents (ps.foldl (putOne mode) s) = writeAll action.apply (contents s) ps ∧
      (put mode s keys ksizes vals vsizes).1 = action.status (contents s) ps := by
  intro ps
  have hrule : putRule mode = action.apply := by
    funext old val
    exact PutAction.putRule_eq_apply haction old val
  have hps : ∀ p ∈ ps, p.1.length < 2 ^ 64 ∧ p.2.length < 2 ^ 64 := by
    intro p hp
    obtain ⟨hpk, hpv⟩ := List.of_mem_zip hp
    exact ⟨hk.length_lt hpk, hv.length_lt hpv⟩
  refine ⟨?_, ?_, ?_⟩
  · rw [← hrule]
    exact (put_contents hs hk hv hlen).2
  · rw [← hrule]
    exact contents_foldl_putOne mode ps hs hps
  · rw [← PutAction.putStatus_eq_status haction]
    exact put_status hs hk hv hlen

end Action

/-- The two `put`s agree. On databases with the same content, and for every valid mode and every
batch that lies within its buffers, both apply the action of the mode to each pair from left to
right, which is also what putting the pairs one by one does; a status other than `OK` is returned
only for a batch of one pair, and then the content is unchanged. -/
theorem put_agree {c : Comparator} {mode : Mode} (hmode : checkModeValid mode)
    {m : MapDatabase c} {u : UnorderedMapDatabase} (hm : m.migrated = false)
    (hu : u.migrated = false) (hsame : u.find = m.find) {keys vals : Bytes}
    {ksizes vsizes : List ℕ} (hk : Packed keys ksizes) (hv : Packed vals vsizes)
    (hlen : ksizes.length = vsizes.length) :
    ∃ action : PutAction,
      action.flags = (mode.has .append, mode.has .newOnly, mode.has .existOnly) ∧
      let ps := (unpack keys ksizes).zip (unpack vals vsizes)
      let content := ps.foldl (fun f p => Function.update f p.1 (action.apply (f p.1) p.2)) m.find
      let rm := m.put mode keys ksizes vals vsizes
      let ru := u.put mode keys ksizes vals vsizes
      rm.2.find = content ∧ ru.2.find = content ∧
        (ps.foldl (putOne mode) m).find = content ∧ (ps.foldl (putOne mode) u).find = content ∧
        rm.1 = action.status m.find ps ∧ ru.1 = action.status m.find ps ∧
        (action.status m.find ps ≠ .OK → content = m.find) := by
  obtain ⟨action, haction⟩ := PutAction.exists_flags hmode
  refine ⟨action, haction, ?_⟩
  obtain ⟨hm1, hm2, hm3⟩ := put_eq_action (s := m) haction hm hk hv hlen
  obtain ⟨hu1, hu2, hu3⟩ := put_eq_action (s := u) haction hu hk hv hlen
  have hcontents : FiniteMapStore.contents u = m.find := hsame
  rw [hcontents] at hu1 hu2 hu3
  exact ⟨hm1, hu1, hm2, hu2, hm3, hu3, PutAction.apply_of_status_ne⟩

/-- Two appends to one key in one batch, on databases that hold the key. -/
theorem put_agree_append :
    let m := (MapDatabase.empty .default).assign [7] [1]
    let u := UnorderedMapDatabase.empty.assign [7] [1]
    ∃ action : PutAction, action.flags = (true, false, false) ∧
      (m.put .append [7, 7] [1, 1] [2, 3] [1, 1]).2.find =
        Function.update (Function.update m.find [7] (action.apply (m.find [7]) [2]))
          [7] (action.apply (action.apply (m.find [7]) [2]) [3]) ∧
      (m.put .append [7, 7] [1, 1] [2, 3] [1, 1]).2.find =
        (u.put .append [7, 7] [1, 1] [2, 3] [1, 1]).2.find := by
  intro m u
  have hsame : u.find = m.find := by
    rw [UnorderedMapDatabase.find_assign, MapDatabase.find_assign]
    rfl
  have hmode : checkModeValid .append := by decide
  have hk : Packed [7, 7] [1, 1] := by decide
  have hv : Packed [2, 3] [1, 1] := by decide
  obtain ⟨action, hflags, hm, hu, -⟩ := put_agree hmode rfl rfl hsame hk hv rfl
  refine ⟨action, hflags, ?_, hm.trans hu.symm⟩
  rw [hm]
  simp [unpack]

end Yokan
