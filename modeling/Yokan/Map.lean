import Yokan.InMemory
import Std.Data.ExtTreeMap

/-!
# Yokan: the `map` backend

`MapDatabase` (`src/backends/map.cpp`), a `std::map` from keys to values under a comparator
chosen by the configuration. The container is the ordered map of the standard library; the
comparator carries the proof that it is a strict order whose equivalence is equality, which
`std::map` needs and which makes the content a finite map from byte strings.

`put`, `get`, `exists`, `length`, `fetch` and `erase` are the functions of the source, run on
their own. The instance at the end states that they behave as operations on finite maps.
-/

namespace Yokan

open Buffer PartialMap

/-! ### Comparators -/

/-- A comparator the backend may be configured with. -/
structure Comparator where
  lt : Bytes → Bytes → Bool
  irrefl : ∀ a, lt a a = false
  trans : ∀ a b c, lt a b = true → lt b c = true → lt a c = true
  eq_of_not_lt : ∀ a b, lt a b = false → lt b a = false → a = b

namespace Comparator

variable (c : Comparator)

/-- The three-way comparison of a comparator. -/
def cmp (a b : Bytes) : Ordering := if c.lt a b then .lt else if c.lt b a then .gt else .eq

theorem asymm {a b : Bytes} (h : c.lt a b = true) : c.lt b a = false := by
  by_contra hba
  have := c.trans a b a h (by simpa using hba)
  rw [c.irrefl] at this
  exact absurd this (by decide)

theorem cmp_eq_lt {a b : Bytes} : c.cmp a b = .lt ↔ c.lt a b = true := by
  unfold cmp; split_ifs <;> simp_all

theorem cmp_eq_gt {a b : Bytes} : c.cmp a b = .gt ↔ c.lt b a = true := by
  unfold cmp
  split_ifs with h1 h2
  · simp [c.asymm h1]
  · simp [h2]
  · simp [h2]

theorem cmp_eq_eq {a b : Bytes} : c.cmp a b = .eq ↔ a = b := by
  unfold cmp
  split_ifs with h1 h2
  · simp only [false_iff]
    rintro rfl
    rw [c.irrefl] at h1
    exact absurd h1 (by decide)
  · simp only [false_iff]
    rintro rfl
    rw [c.irrefl] at h2
    exact absurd h2 (by decide)
  · simp only [true_iff]
    exact c.eq_of_not_lt a b (by simpa using h1) (by simpa using h2)

theorem isLE_cmp {a b : Bytes} : (c.cmp a b).isLE = !c.lt b a := by
  unfold cmp
  split_ifs with h1 h2
  · simp [c.asymm h1]
  · simp [h2]
  · simp [h2]

instance : Std.TransCmp c.cmp where
  eq_swap {a b} := by
    cases h : c.cmp b a with
    | lt => rw [c.cmp_eq_lt] at h; exact c.cmp_eq_gt.2 h
    | gt => rw [c.cmp_eq_gt] at h; exact c.cmp_eq_lt.2 h
    | eq => rw [c.cmp_eq_eq] at h; exact c.cmp_eq_eq.2 h.symm
  isLE_trans {x y z} := by
    simp only [isLE_cmp, Bool.not_eq_true']
    intro hxy hyz
    by_contra hzx
    rw [Bool.not_eq_false] at hzx
    cases h : c.lt x y with
    | true => rw [c.trans z x y hzx h] at hyz; exact absurd hyz (by decide)
    | false =>
      have : x = y := c.eq_of_not_lt x y h hxy
      subst this
      rw [hzx] at hyz
      exact absurd hyz (by decide)

instance : Std.LawfulEqCmp c.cmp where
  eq_of_compare h := c.cmp_eq_eq.1 h
  compare_self := c.cmp_eq_eq.2 rfl

end Comparator

/-- `MapDatabaseCompare::DefaultMemCmp`. -/
def defaultMemCmp (lhs rhs : Bytes) : Bool :=
  let n := min lhs.length rhs.length
  match memcmp (lhs.take n) (rhs.take n) with
  | .lt => true
  | .gt => false
  | .eq => lhs.length < rhs.length

/-- The default comparator is the byte-lexicographic order. -/
theorem defaultMemCmp_iff {lhs rhs : Bytes} : defaultMemCmp lhs rhs = true ↔ lhs < rhs := by
  induction lhs generalizing rhs with
  | nil => cases rhs <;> simp [defaultMemCmp, memcmp]
  | cons a as ih =>
    cases rhs with
    | nil => simp [defaultMemCmp, memcmp]
    | cons b bs =>
      rw [List.cons_lt_cons_iff, ← ih]
      have hmin : min (a :: as).length (b :: bs).length = min as.length bs.length + 1 := by
        simp [Nat.add_min_add_right]
      unfold defaultMemCmp
      rw [hmin]
      simp only [List.take_succ_cons, memcmp, List.length_cons, Nat.add_lt_add_iff_right]
      rcases Std.lt_trichotomy a b with h | h | h
      · simp [h]
      · subst h; simp
      · have hab : ¬ a < b := fun h' => Std.lt_irrefl (Std.lt_trans h h')
        have hne : a ≠ b := fun h' => Std.lt_irrefl (h' ▸ h)
        simp [h, hab, hne]

/-- The default comparator, with its laws. -/
def Comparator.default : Comparator where
  lt := defaultMemCmp
  irrefl a := by rw [Bool.eq_false_iff, Ne, defaultMemCmp_iff]; exact Std.lt_irrefl
  trans a b c := by simp only [defaultMemCmp_iff]; exact Std.lt_trans
  eq_of_not_lt a b hab hba := by
    rw [Bool.eq_false_iff, Ne, defaultMemCmp_iff] at hab hba
    exact Std.le_antisymm (Std.not_lt.1 hba) (Std.not_lt.1 hab)

/-! ### The database -/

/-- A `map` database. `watcher` lists the keys passed to `KeyWatcher::notifyKey` so far. -/
structure MapDatabase (c : Comparator) where
  db : Std.ExtTreeMap Bytes Bytes c.cmp
  migrated : Bool
  watcher : List Bytes

namespace MapDatabase

variable {c : Comparator}

/-- The database `create` makes. -/
def empty (c : Comparator) : MapDatabase c := ⟨∅, false, []⟩

/-- `m_db->find(key)`. -/
def find (s : MapDatabase c) (key : Bytes) : Option Bytes := s.db[key]?

/-- `m_db->emplace(key, val)`: a key that is already there keeps its value. -/
def emplace (s : MapDatabase c) (key val : Bytes) : MapDatabase c :=
  { s with db := s.db.insertIfNew key val }

/-- `it->second.assign(val)` or `it->second.append(val)` on the entry of a key that is there. -/
def assign (s : MapDatabase c) (key val : Bytes) : MapDatabase c :=
  { s with db := s.db.insert key val }

/-- `m_watcher.notifyKey(key)`, in the mode `YOKAN_MODE_NOTIFY`. -/
def notifyKey (mode : Mode) (key : Bytes) (s : MapDatabase c) : MapDatabase c :=
  if mode.has .notify then { s with watcher := s.watcher ++ [key] } else s

/-- The body of the loop of `put`. `single` says that the batch has one pair. -/
def putBody (mode : Mode) (single : Bool) (p : Bytes × Bytes) (s : MapDatabase c) :
    Option Status × MapDatabase c :=
  let (key, val) := p
  if mode.has .newOnly then
    match s.find key with
    | none => (none, notifyKey mode key (s.emplace key val))
    | some _ => if single then (some .KeyExists, s) else (none, s)
  else if mode.has .existOnly then
    match s.find key with
    | some v =>
      (none, notifyKey mode key (s.assign key (if mode.has .append then v ++ val else val)))
    | none => if single then (some .NotFound, s) else (none, s)
  else if mode.has .append then
    match s.find key with
    | some v => (none, notifyKey mode key (s.assign key (v ++ val)))
    | none => (none, notifyKey mode key (s.emplace key val))
  else
    -- `emplace` reports whether the key was new; if it was not, its value is replaced
    match s.find key with
    | none => (none, notifyKey mode key (s.emplace key val))
    | some _ => (none, notifyKey mode key (s.assign key val))

/-- `MapDatabase::put`. -/
def put (mode : Mode) (s : MapDatabase c) (keys : Bytes) (ksizes : List ℕ) (vals : Bytes)
    (vsizes : List ℕ) : Status × MapDatabase c :=
  putWith migrated putBody mode s keys ksizes vals vsizes

/-- `MapDatabase::exists`. -/
def existsKeys (mode : Mode) (s : MapDatabase c) (keys : Bytes) (ksizes : List ℕ)
    (flags : List Bool) : Status × List Bool :=
  existsWith s.find s.migrated mode keys ksizes flags

/-- `MapDatabase::length`. -/
def length (mode : Mode) (s : MapDatabase c) (keys : Bytes) (ksizes vsizes : List ℕ) :
    Status × List ℕ :=
  lengthWith s.find s.migrated mode keys ksizes vsizes

/-- The body of the loop of `erase`. -/
def eraseBody (wait : Bool) (key : Bytes) (s : MapDatabase c) : Option Status × MapDatabase c :=
  match s.find key with
  | some _ => (none, { s with db := s.db.erase key })
  | none => if wait then (some .TimedOut, s) else (none, s)

/-- `MapDatabase::erase`. -/
def erase (mode : Mode) (s : MapDatabase c) (keys : Bytes) (ksizes : List ℕ) :
    Status × MapDatabase c :=
  eraseWith migrated eraseBody mode s keys ksizes

/-- `MapDatabase::get`. -/
def get (mode : Mode) (packed : Bool) (s : MapDatabase c) (keys : Bytes) (ksizes : List ℕ)
    (vals : Bytes) (vsizes : List ℕ) : GetResult (MapDatabase c) :=
  getOrConsume find migrated erase mode packed s keys ksizes vals vsizes

/-- The body of the loop of `fetch`; what the callback returns is not looked at. -/
def fetchBody {υ : Type} (s : MapDatabase c) (wait : Bool)
    (func : υ → Bytes → Option Bytes → Status × υ) (key : Bytes) (u : υ) : Option Status × υ :=
  match s.find key with
  | some v => (none, (func u key (some v)).2)
  | none => if wait then (some .TimedOut, u) else (none, (func u key none).2)

/-- `MapDatabase::fetch`. -/
def fetch {υ : Type} (mode : Mode) (s : MapDatabase c) (keys : Bytes) (ksizes : List ℕ)
    (func : υ → Bytes → Option Bytes → Status × υ) (u : υ) : Status × MapDatabase c × υ :=
  if s.migrated then (.Migrated, s, u)
  else
    let r := keysLoop false (s.fetchBody (mode.has .wait) func) keys ksizes 0 u
    (r.1.getD .OK, s, r.2)

/-- `MapDatabase::supportsMode`. -/
def supportsMode (mode : Mode) : Bool := inMemorySupportsMode mode

/-! ### The laws -/

theorem find_insert (s : MapDatabase c) (key val : Bytes) (s' : MapDatabase c)
    (h : s'.db = s.db.insert key val) : s'.find = Function.update s.find key (some val) := by
  funext k
  unfold find
  rw [h, Std.ExtTreeMap.getElem?_insert, Function.update_apply]
  simp only [c.cmp_eq_eq, eq_comm]

theorem find_assign (s : MapDatabase c) (key val : Bytes) :
    (s.assign key val).find = Function.update s.find key (some val) :=
  find_insert s key val _ rfl

theorem find_emplace {s : MapDatabase c} {key : Bytes} (val : Bytes) (h : s.find key = none) :
    (s.emplace key val).find = Function.update s.find key (some val) := by
  have hmem : key ∉ s.db := by
    rw [Std.ExtTreeMap.mem_iff_isSome_getElem?]
    unfold find at h
    simp [h]
  funext k
  unfold find emplace
  rw [Std.ExtTreeMap.getElem?_insertIfNew, Function.update_apply]
  simp only [c.cmp_eq_eq, hmem, not_false_eq_true, and_true, eq_comm]

@[simp] theorem find_notifyKey (mode : Mode) (key : Bytes) (s : MapDatabase c) :
    (notifyKey mode key s).find = s.find := by
  unfold notifyKey; split_ifs <;> rfl

@[simp] theorem migrated_notifyKey (mode : Mode) (key : Bytes) (s : MapDatabase c) :
    (notifyKey mode key s).migrated = s.migrated := by
  unfold notifyKey; split_ifs <;> rfl

/-- One pass of the loop of `put` changes the entry of its key by the rule of the mode. -/
theorem find_putBody (mode : Mode) (single : Bool) (p : Bytes × Bytes) (s : MapDatabase c) :
    (putBody mode single p s).2.find =
      Function.update s.find p.1 (putRule mode (s.find p.1) p.2) := by
  obtain ⟨key, val⟩ := p
  cases hk : s.find key with
  | none =>
    have hkeep : Function.update s.find key none = s.find := by
      rw [← hk, Function.update_eq_self]
    simp only [putBody, putRule, hk]
    split_ifs <;> simp [find_emplace val hk, hkeep]
  | some v =>
    have hkeep : Function.update s.find key (some v) = s.find := by
      rw [← hk, Function.update_eq_self]
    simp only [putBody, putRule, hk]
    split_ifs <;> simp [find_assign, hkeep]

theorem migrated_putBody (mode : Mode) (single : Bool) (p : Bytes × Bytes) (s : MapDatabase c) :
    (putBody mode single p s).2.migrated = s.migrated := by
  obtain ⟨key, val⟩ := p
  cases hk : s.find key <;> simp only [putBody, hk] <;> split_ifs <;> simp [emplace, assign]

theorem putBody_single (mode : Mode) (p : Bytes × Bytes) (s : MapDatabase c) :
    (putBody mode true p s).1.getD .OK = putStatus mode s.find [p] := by
  obtain ⟨key, val⟩ := p
  cases hk : s.find key <;> simp only [putBody, putStatus, hk] <;> split_ifs <;> simp_all

theorem putBody_many (mode : Mode) (p : Bytes × Bytes) (s : MapDatabase c) :
    (putBody mode false p s).1 = none := by
  obtain ⟨key, val⟩ := p
  cases hk : s.find key <;> simp only [putBody, hk] <;> split_ifs <;> simp_all

theorem find_eraseBody (wait : Bool) (key : Bytes) (s : MapDatabase c) :
    (eraseBody wait key s).2.find = Function.update s.find key none := by
  unfold eraseBody
  cases hk : s.find key with
  | none =>
    have hkeep : Function.update s.find key none = s.find := by
      rw [← hk, Function.update_eq_self]
    simp only
    split_ifs <;> exact hkeep.symm
  | some v =>
    funext k
    simp only [find]
    rw [Std.ExtTreeMap.getElem?_erase, Function.update_apply]
    simp only [c.cmp_eq_eq, eq_comm]
    rfl

theorem migrated_eraseBody (wait : Bool) (key : Bytes) (s : MapDatabase c) :
    (eraseBody wait key s).2.migrated = s.migrated := by
  unfold eraseBody
  cases s.find key with
  | none => simp only; split_ifs <;> rfl
  | some v => rfl

theorem eraseBody_none (key : Bytes) (s : MapDatabase c) : (eraseBody false key s).1 = none := by
  unfold eraseBody
  cases s.find key <;> rfl

theorem fetch_eq {υ : Type} {mode : Mode} {s : MapDatabase c} {keys : Bytes} {ksizes : List ℕ}
    {func : υ → Bytes → Option Bytes → Status × υ} {u : υ} (hs : s.migrated = false)
    (hwait : mode.has .wait = false) (hk : Packed keys ksizes) :
    fetch mode s keys ksizes func u =
      (.OK, s, (unpack keys ksizes).foldl (fun u k => (func u k (s.find k)).2) u) := by
  have hbody : ∀ k u, fetchBody s false func k u = (none, (func u k (s.find k)).2) := by
    intro k u
    unfold fetchBody
    cases s.find k <;> rfl
  unfold fetch
  rw [if_neg (by simp [hs]), hwait, keysLoop_eq hk.2 hk.1, eachRecord_of_none _ hbody]
  rfl

instance : InMemory (MapDatabase c) where
  isSorted := true
  find := find
  migrated := migrated
  putBody := putBody
  eraseBody := eraseBody
  fetch := fetch
  find_putBody := find_putBody
  migrated_putBody := migrated_putBody
  putBody_single := putBody_single
  putBody_many := putBody_many
  find_eraseBody := find_eraseBody
  migrated_eraseBody := migrated_eraseBody
  eraseBody_none := eraseBody_none
  fetch_eq hs hwait _ hk _ := fetch_eq hs hwait hk

end MapDatabase

end Yokan
