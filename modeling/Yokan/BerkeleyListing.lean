import Yokan.ListingAgreement

/-!
# Yokan: exclusive listing in Berkeley DB

`listKeys` of `berkeleydb.cpp` places its cursor with `DB_SET_RANGE`, which reads the key to search
for from the memory of `from_key` and writes the key it finds to the same memory. Whether the cursor
is on `from_key` is then decided by comparing that memory with itself; and where the key found is
too long for it, the search is repeated with a key of that length.

* `UserMem`, `Dbt`: pointers with the memory behind them;
* `BerkeleyDBCursor`: the calls on a cursor, and `Traverses`, what they are documented to do;
* `listKeys`: the function, with a bound on the passes of its loop;
* `berkeleydb_listKeys_iff`: when it returns the keys that come behind `from_key`.
-/

namespace Yokan

open Buffer Paging Cursor

/-! ### Memory -/

/-- `UserMem`: a pointer, given by the memory from there on, and a size. -/
structure UserMem where
  data : ℕ → UInt8
  size : ℕ

/-- The bytes at a pointer. -/
def readMemory (data : ℕ → UInt8) (n : ℕ) : Bytes := (List.range n).map data

/-- Write to a pointer. -/
def writeMemory (data : ℕ → UInt8) (src : Bytes) : ℕ → UInt8 := fun i => src.getD i (data i)

@[simp] theorem length_readMemory (data : ℕ → UInt8) (n : ℕ) : (readMemory data n).length = n := by
  simp [readMemory]

theorem prefix_readMemory (data : ℕ → UInt8) {n m : ℕ} (h : n ≤ m) :
    readMemory data n <+: readMemory data m := by
  obtain ⟨k, rfl⟩ := Nat.exists_eq_add_of_le h
  rw [readMemory, readMemory, List.range_add, List.map_append]
  exact List.prefix_append _ _

/-- The bytes of a `UserMem`. -/
def UserMem.bytes (mem : UserMem) : Bytes := readMemory mem.data mem.size

/-- A `Dbt` with memory of its user. It is partial if the library is to leave the memory alone, with
a `dlen` of 0. -/
structure Dbt where
  data : ℕ → UInt8
  size : ℕ
  ulen : ℕ
  isPartial : Bool

namespace Dbt

/-- The key in a `Dbt`. -/
def bytes (dbt : Dbt) : Bytes := readMemory dbt.data dbt.size

/-- A `Dbt` gets a key, if it has room for it; its size is that of the key in any case. -/
def receive (dbt : Dbt) (key : Bytes) : Bool × Dbt :=
  if dbt.isPartial then (true, { dbt with size := 0 })
  else if key.length ≤ dbt.ulen then
    (true, { dbt with data := writeMemory dbt.data key, size := key.length })
  else (false, { dbt with size := key.length })

end Dbt

/-! ### The cursor -/

/-- The flags of `Dbc::get` that only move a cursor. -/
inductive DbFlag
  | first
  | next
  | current

/-- What `Dbc::get` reports for `DB_SET_RANGE`. -/
inductive RangeResult
  | success
  | notFound
  | bufferSmall
  | failed (status : Status)
  deriving DecidableEq

/-- The calls on a Berkeley DB cursor. -/
class BerkeleyDBCursor (δ : Type) (κ : outParam Type) where
  cursor : δ → κ
  get : κ → DbFlag → CursorResult × κ
  setRange : κ → Dbt → RangeResult × Dbt × κ

/-- A cursor runs through the entries of a B-tree: `rest cursor` is what is left from its position
on. `DB_SET_RANGE` places it on the least key that is not less than the given one, unless there is
no room for that key, and then leaves it where it is. -/
structure BerkeleyDBCursor.Traverses {δ κ : Type} [BerkeleyDBCursor δ κ] (db : δ)
    (entries : List (Bytes × Bytes)) (rest : κ → List (Bytes × Bytes)) : Prop where
  sorted : Sorted (· < ·) Prod.fst entries
  first_eq :
    let r := get δ (cursor db) .first
    r.1 = .ofEntries entries ∧ rest r.2 = entries
  setRange_nil {key : Dbt} (hfound : entries.dropWhile (fun e => e.1 < key.bytes) = []) :
    (setRange δ (cursor db) key).1 = .notFound
  setRange_cons {key : Dbt} {e : Bytes × Bytes} {es : List (Bytes × Bytes)}
    (hfound : entries.dropWhile (fun e => e.1 < key.bytes) = e :: es) :
    let r := setRange δ (cursor db) key
    r.2.1 = (key.receive e.1).2 ∧
      if (key.receive e.1).1 then r.1 = .success ∧ rest r.2.2 = e :: es
      else r.1 = .bufferSmall ∧ r.2.2 = cursor db
  current_eq {cursor : κ} {e : Bytes × Bytes} {es : List (Bytes × Bytes)}
    (hrest : rest cursor = e :: es) :
    let r := get δ cursor .current
    r.1 = .ofEntries (e :: es) ∧ rest r.2 = e :: es
  next_eq {cursor : κ} {e : Bytes × Bytes} {es : List (Bytes × Bytes)}
    (hrest : rest cursor = e :: es) :
    let r := get δ cursor .next
    r.1 = .ofEntries es ∧ rest r.2 = es

/-! ### The function -/

/-- The type of a Berkeley DB database. -/
inductive DbType
  | btree
  | hash
  deriving DecidableEq

structure BerkeleyDBDatabase (δ : Type) where
  dbType : DbType
  db : δ

namespace BerkeleyDBDatabase

open BerkeleyDBCursor

variable {δ κ : Type} [BerkeleyDBCursor δ κ]

/-- The cursor after a call that may have found nothing. -/
def placed : CursorResult × κ → Option κ
  | (.notFound, _) => none
  | (_, cursor) => some cursor

/-- The cursor where a listing starts, unless nothing is found there. Other errors come back from
the first call in the loop. -/
def start (db : δ) (inclusive : Bool) (fromKey : UserMem) : Option κ :=
  if fromKey.size = 0 then placed (get δ (cursor db) .first)
  else
    let fromKeySlice : Dbt := ⟨fromKey.data, fromKey.size % 2 ^ 32, fromKey.size % 2 ^ 32, false⟩
    match setRange δ (cursor db) fromKeySlice with
    | (.success, fromKeySlice, cursor) =>
      -- `fromKey.data` is where the key found has been written to
      let fromKeyData := fromKeySlice.data
      let startKeyFound := fromKeySlice.size = fromKey.size &&
        memcmp (readMemory fromKeySlice.data fromKey.size) (readMemory fromKeyData fromKey.size) ==
          .eq
      if !inclusive && startKeyFound then placed (get δ cursor .next) else some cursor
    | (.bufferSmall, fromKeySlice, cursor) =>
      match setRange δ cursor { fromKeySlice with isPartial := true } with
      | (.notFound, _, _) => none
      | (_, _, cursor) => some cursor
    | (.notFound, _, _) => none
    | (.failed _, _, cursor) => some cursor

/-- The body of the loop of `listKeys`. Without a need for it, the filter does not get the value. -/
def listKeysBody (mode : Mode) (packed : Bool) (filter : KeyValueFilter) :
    Body (Bytes × Bytes) ℕ Column := fun (key, val) slot slots keys =>
  let val := if filter.requiresValue then val else []
  if filter.check key val then
    .fill (keys.push packed slot (keyCopy mode slots.isEmpty filter key))
  else if filter.shouldStop key val then .done keys
  else .skip

/-- The loop of `listKeys`: the status of a call that failed, and what is filled. The first call
looks at the current position. -/
def cursorLoop {τ σ : Type} (body : Body (Bytes × Bytes) τ σ) :
    ℕ → DbFlag → κ → List τ → σ → Option (Status × σ)
  | 0, _, _, _, _ => none
  | _ + 1, _, _, [], s => some (.OK, s)
  | fuel + 1, flag, cursor, slot :: slots, s =>
    match get δ cursor flag with
    | (.notFound, _) => some (.OK, s)
    | (.failed status, _) => some (status, s)
    | (.success key val, cursor) =>
      match body (key, val) slot slots s with
      | .done s => some (.OK, s)
      | .skip => cursorLoop body fuel .next cursor (slot :: slots) s
      | .fill s => cursorLoop body fuel .next cursor slots s

/-- `BerkeleyDBDatabase::listKeys`. -/
def listKeys (fuel : ℕ) (mode : Mode) (packed : Bool) (s : BerkeleyDBDatabase δ)
    (fromKey : UserMem) (filter : KeyValueFilter) (keys : Bytes) (keySizes : List ℕ) :
    Option (Status × ColumnOutput) :=
  if s.dbType ≠ .btree then some (.NotSupported, ⟨keys, keys.length, keySizes⟩)
  else
    match start s.db (mode.has .inclusive) fromKey with
    | none => some (.OK, (Column.start keys).finish keySizes.length)
    | some cursor =>
      (cursorLoop (δ := δ) (listKeysBody mode packed filter) fuel .current cursor keySizes
        (Column.start keys)).map fun r =>
          (r.1,
            if r.1 = .OK then r.2.finish keySizes.length
            else LMDBDatabase.unfinished r.2 keySizes)

end BerkeleyDBDatabase

/-! ### Where a listing starts -/

/-- The stored pairs whose keys are greater than `fromKey`. -/
def entriesBehind (entries : List (Bytes × Bytes)) (fromKey : Bytes) : List (Bytes × Bytes) :=
  entries.filter (fun e => fromKey < e.1)

/-- The keys of a page: the first `count` that are greater than `fromKey`. -/
def pageBehind (entries : List (Bytes × Bytes)) (fromKey : Bytes) (count : ℕ) : List Bytes :=
  ((entriesBehind entries fromKey).map Prod.fst).take count

/-- The stored pairs at or behind the key that the first call searches for. -/
def searched (entries : List (Bytes × Bytes)) (fromKey : UserMem) : List (Bytes × Bytes) :=
  entries.dropWhile (fun e => e.1 < readMemory fromKey.data (fromKey.size % 2 ^ 32))

/-- The stored pairs that an exclusive listing runs through. -/
def visited (entries : List (Bytes × Bytes)) (fromKey : UserMem) : List (Bytes × Bytes) :=
  match searched entries fromKey with
  | [] => []
  | e :: es =>
    if e.1.length ≤ fromKey.size % 2 ^ 32 then
      if e.1.length = fromKey.size then es else e :: es
    else entries.dropWhile (fun e' => e'.1 < readMemory fromKey.data e.1.length)

/-- The search ends behind `fromKey`: the first key found is as long as `fromKey` only if it is
equal to it; or it is shorter and greater; or it is longer than what is searched for, and the keys
that are not less than the bytes of that length at the address of `fromKey` are those greater than
`fromKey`. -/
def StartsBehind (entries : List (Bytes × Bytes)) (fromKey : UserMem) : Prop :=
  match searched entries fromKey with
  | [] => True
  | e :: _ =>
    if e.1.length ≤ fromKey.size % 2 ^ 32 then
      if e.1.length = fromKey.size then e.1 = fromKey.bytes else fromKey.bytes < e.1
    else ∀ e' ∈ entries, readMemory fromKey.data e.1.length ≤ e'.1 ↔ fromKey.bytes < e'.1

section Start

variable {entries : List (Bytes × Bytes)} {fromKey : UserMem}

theorem dropWhile_lt_eq_filter (hsorted : Sorted (· < ·) Prod.fst entries) (key : Bytes) :
    entries.dropWhile (fun e => e.1 < key) = entries.filter (fun e => key ≤ e.1) := by
  refine (dropWhile_eq_filter (hsorted.imp fun {a b} hab hb => ?_)).trans ?_
  · exact decide_eq_true (Std.lt_trans hab (of_decide_eq_true hb))
  · refine List.filter_congr fun e _ => ?_
    rw [Bool.eq_iff_iff]
    simp [Std.not_lt]

theorem entriesBehind_suffix (hsorted : Sorted (· < ·) Prod.fst entries) (key : Bytes) :
    entriesBehind entries key <:+ entries := by
  have hmono : entries.Pairwise (fun a b =>
      (!decide (key < b.1)) = true → (!decide (key < a.1)) = true) := by
    refine hsorted.imp fun {a b} hab hb => ?_
    simp only [Bool.not_eq_true', decide_eq_false_iff_not] at hb ⊢
    exact fun ha => hb (Std.lt_trans ha hab)
  have hdrop := dropWhile_eq_filter hmono
  simp only [Bool.not_not] at hdrop
  rw [entriesBehind, ← hdrop]
  exact List.dropWhile_suffix _

/-- Behind a key are all entries of a list whose first one is. -/
theorem entriesBehind_eq_self {e : Bytes × Bytes} {es : List (Bytes × Bytes)} {key : Bytes}
    (hsorted : Sorted (· < ·) Prod.fst (e :: es)) (hlt : key < e.1) :
    entriesBehind (e :: es) key = e :: es := by
  obtain ⟨hhead, -⟩ := List.pairwise_cons.1 hsorted
  refine List.filter_eq_self.2 ?_
  rw [List.forall_mem_cons]
  exact ⟨decide_eq_true hlt, fun b hb => decide_eq_true (Std.lt_trans hlt (hhead b hb))⟩

theorem visited_suffix (entries : List (Bytes × Bytes)) (fromKey : UserMem) :
    visited entries fromKey <:+ entries := by
  have hsuffix : searched entries fromKey <:+ entries := List.dropWhile_suffix _
  unfold visited
  cases hfound : searched entries fromKey with
  | nil => exact List.nil_suffix
  | cons e es =>
    rw [hfound] at hsuffix
    dsimp only
    split_ifs
    · exact (List.suffix_cons e es).trans hsuffix
    · exact hsuffix
    · exact List.dropWhile_suffix _

/-- The listing runs through the keys behind `fromKey` exactly if the search ends there. -/
theorem visited_eq_iff (hsorted : Sorted (· < ·) Prod.fst entries) :
    visited entries fromKey = entriesBehind entries fromKey.bytes ↔
      StartsBehind entries fromKey := by
  have hkey : readMemory fromKey.data (fromKey.size % 2 ^ 32) ≤ fromKey.bytes :=
    (prefix_readMemory _ (Nat.mod_le _ _)).le
  have hfilter := dropWhile_lt_eq_filter hsorted (readMemory fromKey.data (fromKey.size % 2 ^ 32))
  -- what is behind `fromKey` is among what is searched
  have hbehind : entriesBehind entries fromKey.bytes =
      entriesBehind (searched entries fromKey) fromKey.bytes := by
    rw [searched, hfilter, entriesBehind, entriesBehind, List.filter_filter]
    refine List.filter_congr fun e _ => ?_
    rw [Bool.eq_iff_iff, Bool.and_eq_true, decide_eq_true_eq, decide_eq_true_eq]
    exact ⟨fun hlt => ⟨hlt, Std.le_trans hkey (Std.le_of_lt hlt)⟩, fun h => h.1⟩
  have hmem (e : Bytes × Bytes) (he : e ∈ searched entries fromKey) :
      readMemory fromKey.data (fromKey.size % 2 ^ 32) ≤ e.1 := by
    rw [searched, hfilter] at he
    exact of_decide_eq_true (List.mem_filter.1 he).2
  have hrest : Sorted (· < ·) Prod.fst (searched entries fromKey) :=
    hsorted.sublist (List.dropWhile_sublist _)
  unfold visited StartsBehind
  cases hfound : searched entries fromKey with
  | nil => rw [hbehind, hfound]; exact iff_of_true rfl trivial
  | cons e es =>
    rw [hfound] at hrest hmem
    have hhead : entriesBehind (e :: es) fromKey.bytes =
        if fromKey.bytes < e.1 then e :: es else entriesBehind es fromKey.bytes := by
      split_ifs with hlt
      · exact entriesBehind_eq_self hrest hlt
      · exact List.filter_cons_of_neg (by simpa using hlt)
    dsimp only
    split_ifs with hle heq
    · have hsize : fromKey.size % 2 ^ 32 = fromKey.size :=
        le_antisymm (Nat.mod_le _ _) (heq ▸ hle)
      rw [hsize, List.forall_mem_cons] at hmem
      rw [hbehind, hfound, hhead]
      split_ifs with hlt
      · refine iff_of_false (fun h => List.cons_ne_self e es h.symm) fun h => ?_
        exact Std.lt_irrefl (h ▸ hlt)
      · have hkeys : e.1 = fromKey.bytes := Std.le_antisymm (Std.not_lt.1 hlt) hmem.1
        refine iff_of_true ?_ hkeys
        rw [entriesBehind, List.filter_eq_self.2]
        exact fun b hb => decide_eq_true (hkeys ▸ (List.pairwise_cons.1 hrest).1 b hb)
    · rw [hbehind, hfound, hhead]
      split_ifs with hlt
      · exact iff_of_true rfl hlt
      · refine iff_of_false (fun h => hlt ?_) hlt
        have he : e ∈ entriesBehind es fromKey.bytes := h ▸ List.mem_cons_self
        exact of_decide_eq_true (List.mem_filter.1 he).2
    · rw [dropWhile_lt_eq_filter hsorted, entriesBehind]
      exact filter_eq_filter_iff.trans (by simp)

/-- Behind a search for all of `fromKey` that finds a longer key, the search for the bytes of that
length ends behind `fromKey` exactly if they are not greater than the key found. -/
theorem startsBehind_iff_readMemory_le (hsorted : Sorted (· < ·) Prod.fst entries)
    (hsize : fromKey.size < 2 ^ 32) {e : Bytes × Bytes} {es : List (Bytes × Bytes)}
    (hfound : searched entries fromKey = e :: es) (hlong : fromKey.size < e.1.length) :
    StartsBehind entries fromKey ↔ readMemory fromKey.data e.1.length ≤ e.1 := by
  have hmod : fromKey.size % 2 ^ 32 = fromKey.size := Nat.mod_eq_of_lt hsize
  have hfilter : searched entries fromKey =
      entries.filter (fun e' => fromKey.bytes ≤ e'.1) := by
    rw [searched, hmod]
    exact dropWhile_lt_eq_filter hsorted _
  rw [hfound] at hfilter
  -- the key found is the least one that is not less than `fromKey`
  have hmem (e' : Bytes × Bytes) (he' : e' ∈ entries) (hle : fromKey.bytes ≤ e'.1) :
      e.1 ≤ e'.1 := by
    have hsearched : e' ∈ e :: es := hfilter ▸ List.mem_filter.2 ⟨he', decide_eq_true hle⟩
    have hsub : (e :: es).Sublist entries := hfound ▸ List.dropWhile_sublist _
    have hrest : Sorted (· < ·) Prod.fst (e :: es) := hsorted.sublist hsub
    rcases List.mem_cons.1 hsearched with rfl | htail
    · exact Std.le_refl _
    · exact Std.le_of_lt ((List.pairwise_cons.1 hrest).1 e' htail)
  have he : e ∈ entries ∧ fromKey.bytes ≤ e.1 := by
    have hfirst : e ∈ entries.filter (fun e' => fromKey.bytes ≤ e'.1) :=
      hfilter ▸ List.mem_cons_self
    exact ⟨(List.mem_filter.1 hfirst).1, of_decide_eq_true (List.mem_filter.1 hfirst).2⟩
  have hbytes : fromKey.bytes < readMemory fromKey.data e.1.length := by
    have hle : fromKey.bytes ≤ readMemory fromKey.data e.1.length :=
      (prefix_readMemory _ (Nat.le_of_lt hlong)).le
    refine Std.lt_of_le_of_ne hle fun heq => ?_
    have hlength := congrArg List.length heq
    rw [UserMem.bytes, length_readMemory, length_readMemory] at hlength
    omega
  have hlt : fromKey.bytes < e.1 := by
    refine Std.lt_of_le_of_ne he.2 fun heq => ?_
    have hlength := congrArg List.length heq
    rw [UserMem.bytes, length_readMemory] at hlength
    omega
  rw [StartsBehind, hfound]
  dsimp only
  rw [if_neg (by omega)]
  constructor
  · exact fun hall => (hall e he.1).2 hlt
  · intro hread e' he'
    refine ⟨fun hle => Std.lt_of_lt_of_le hbytes hle, fun hbehind => ?_⟩
    exact Std.le_trans hread (hmem e' he' (Std.le_of_lt hbehind))

end Start

/-! ### The loop -/

namespace BerkeleyDBDatabase

open BerkeleyDBCursor

section Loop

variable {δ κ : Type} [BerkeleyDBCursor δ κ] {db : δ} {entries : List (Bytes × Bytes)}
  {rest : κ → List (Bytes × Bytes)}

variable (h : BerkeleyDBCursor.Traverses db entries rest)

include h

omit h in
/-- A move that gets to the first of some entries. -/
theorem placed_spec {r : CursorResult × κ} {es : List (Bytes × Bytes)}
    (hresult : r.1 = .ofEntries es) (hrest : rest r.2 = es) :
    match placed r with
    | none => es = []
    | some cursor => es ≠ [] ∧ rest cursor = es := by
  obtain ⟨result, cursor⟩ := r
  dsimp only at hresult hrest
  subst hresult
  cases es with
  | nil => rfl
  | cons e es => exact ⟨List.cons_ne_nil _ _, hrest⟩

/-- The search that needs no room for the key. -/
theorem retry_spec (key : Dbt) (hflag : key.isPartial = true) :
    let r := setRange δ (cursor db) key
    match (match r with
      | (.notFound, _, _) => none
      | (_, _, cursor) => some cursor) with
    | none => entries.dropWhile (fun e => e.1 < key.bytes) = []
    | some cursor =>
      entries.dropWhile (fun e => e.1 < key.bytes) ≠ [] ∧
        rest cursor = entries.dropWhile (fun e => e.1 < key.bytes) := by
  cases hfound : entries.dropWhile (fun e => decide (e.1 < key.bytes)) with
  | nil =>
    have hnone := h.setRange_nil hfound
    generalize setRange δ (cursor db) key = r at hnone
    obtain ⟨result, key', cursor'⟩ := r
    obtain rfl : result = .notFound := hnone
    rfl
  | cons e es =>
    obtain ⟨-, hresult⟩ := h.setRange_cons hfound
    rw [Dbt.receive, if_pos hflag] at hresult
    generalize setRange δ (cursor db) key = r at hresult
    obtain ⟨result, key', cursor'⟩ := r
    obtain ⟨rfl, hrest⟩ := hresult
    exact ⟨List.cons_ne_nil _ _, hrest⟩

/-- A listing without the entry of `fromKey` starts with the entries it is to run through. -/
theorem start_spec {fromKey : UserMem} (hfrom : fromKey.size ≠ 0) :
    match start db false fromKey with
    | none => visited entries fromKey = []
    | some cursor => visited entries fromKey ≠ [] ∧ rest cursor = visited entries fromKey := by
  let key : Dbt := ⟨fromKey.data, fromKey.size % 2 ^ 32, fromKey.size % 2 ^ 32, false⟩
  have hsearched : entries.dropWhile (fun e => e.1 < key.bytes) = searched entries fromKey := rfl
  have hstart : start db false fromKey =
      match setRange δ (cursor db) key with
      | (.success, key', cursor) =>
        if key'.size = fromKey.size then placed (get δ cursor .next) else some cursor
      | (.bufferSmall, key', cursor) =>
        match setRange δ cursor { key' with isPartial := true } with
        | (.notFound, _, _) => none
        | (_, _, cursor) => some cursor
      | (.notFound, _, _) => none
      | (.failed _, _, cursor) => some cursor := by
    rw [start, if_neg hfrom]
    simp [key, memcmp_eq_iff]
  rw [hstart, visited]
  cases hfound : searched entries fromKey with
  | nil =>
    have hnone := h.setRange_nil (hsearched.trans hfound)
    generalize setRange δ (cursor db) key = r at hnone
    obtain ⟨result, key', cursor'⟩ := r
    obtain rfl : result = .notFound := hnone
    rfl
  | cons e es =>
    obtain ⟨hkey', hresult⟩ := h.setRange_cons (hsearched.trans hfound)
    generalize setRange δ (cursor db) key = r at hkey' hresult
    obtain ⟨result, key', cursor'⟩ := r
    dsimp only at hkey' hresult ⊢
    by_cases hle : e.1.length ≤ fromKey.size % 2 ^ 32
    · -- the key found is written over `fromKey`, which it is then compared with
      have hreceive : key.receive e.1 =
          (true, { key with data := writeMemory key.data e.1, size := e.1.length }) := by
        rw [Dbt.receive, if_neg Bool.false_ne_true, if_pos hle]
      rw [hreceive] at hkey' hresult
      obtain ⟨rfl, hrest⟩ : result = .success ∧ rest cursor' = e :: es := hresult
      subst hkey'
      rw [if_pos hle]
      dsimp only
      split_ifs
      · obtain ⟨hnext, htail⟩ := h.next_eq hrest
        exact placed_spec hnext htail
      · exact ⟨List.cons_ne_nil _ _, hrest⟩
    · -- the key is too large for the memory, and is looked up again without its bytes
      have hreceive : key.receive e.1 = (false, { key with size := e.1.length }) := by
        rw [Dbt.receive, if_neg Bool.false_ne_true, if_neg hle]
      rw [hreceive] at hkey' hresult
      obtain ⟨rfl, rfl⟩ : result = .bufferSmall ∧ cursor' = cursor db := hresult
      subst hkey'
      rw [if_neg hle]
      exact retry_spec h _ rfl

/-- The loop is the walk over the entries that its first call gets to. -/
theorem cursorLoop_eq {τ σ : Type} (body : Body (Bytes × Bytes) τ σ) {fuel : ℕ} {flag : DbFlag}
    {cursor : κ} {es : List (Bytes × Bytes)}
    (hget : (get δ cursor flag).1 = .ofEntries es ∧ rest (get δ cursor flag).2 = es)
    (hfuel : es.length < fuel) (slots : List τ) (s : σ) :
    cursorLoop (δ := δ) body fuel flag cursor slots s = some (.OK, walk body es slots s) := by
  induction fuel generalizing flag cursor es slots s with
  | zero => omega
  | succ fuel ih =>
    cases slots with
    | nil => rw [cursorLoop, walk_nil_slots]
    | cons slot slots =>
      rw [cursorLoop]
      obtain ⟨hresult, hrest⟩ := hget
      rcases hr : get δ cursor flag with ⟨result, cursor'⟩
      rw [hr] at hresult hrest
      dsimp only at hresult hrest
      subst hresult
      cases es with
      | nil => rfl
      | cons e es =>
        have hnext := h.next_eq hrest
        rw [List.length_cons] at hfuel
        rw [walk]
        change (match body e slot slots s with
          | .done s => some (Status.OK, s)
          | .skip => cursorLoop body fuel .next cursor' (slot :: slots) s
          | .fill s => cursorLoop body fuel .next cursor' slots s) = _
        cases body e slot slots s with
        | done s => rfl
        | skip => exact ih hnext (by omega) (slot :: slots) s
        | fill s => exact ih hnext (by omega) slots s

end Loop

/-- With a filter for the empty prefix, the walk writes all keys that it visits. -/
theorem walk_listKeysBody {mode : Mode} (hmode : mode.has .ignoreKeys = false) (fmode : Mode)
    (packed : Bool) (es : List (Bytes × Bytes)) (slots : List ℕ) (keys : Column) :
    walk (listKeysBody mode packed (keyPrefixFilter fmode [])) es slots keys =
      keys.pushAll packed ((es.map Prod.fst).zip slots) := by
  have hcopy (isLast : Bool) (key : Bytes) : keyCopy mode isLast (keyPrefixFilter fmode []) key =
      fun dst off room => copyOut dst off room key := by
    funext dst off room
    simp [keyCopy, hmode, keyPrefixFilter]
  induction es generalizing slots keys with
  | nil => rfl
  | cons e es ih =>
    cases slots with
    | nil => rfl
    | cons slot slots =>
      have hcheck (val : Bytes) : (keyPrefixFilter fmode []).check e.1 val = true := by
        simp [keyPrefixFilter, memcmp]
      rw [walk, listKeysBody, if_pos (hcheck _), hcopy]
      exact ih slots _

/-- An exclusive listing ends, and has gone through the entries visited. -/
theorem listKeys_endsWith {δ κ : Type} [BerkeleyDBCursor δ κ] {d : BerkeleyDBDatabase δ}
    {entries : List (Bytes × Bytes)} {rest : κ → List (Bytes × Bytes)}
    (h : BerkeleyDBCursor.Traverses d.db entries rest) (htype : d.dbType = .btree) {mode : Mode}
    (hexclusive : mode.has .inclusive = false) (hmode : mode.has .ignoreKeys = false)
    (fmode : Mode) {fromKey : UserMem} (hfrom : fromKey.size ≠ 0) (packed : Bool) (keys : Bytes)
    (keySizes : List ℕ) :
    EndsWith (fun fuel =>
        d.listKeys fuel mode packed fromKey (keyPrefixFilter fmode []) keys keySizes)
      (Status.OK, ((Column.start keys).pushAll packed
        (((visited entries fromKey).map Prod.fst).zip keySizes)).finish keySizes.length) := by
  have hspec := start_spec h hfrom
  refine .of_lt (visited entries fromKey).length fun fuel hfuel => ?_
  rw [listKeys, if_neg (not_not_intro htype), hexclusive]
  cases hstart : start d.db false fromKey with
  | none =>
    rw [hstart] at hspec
    rw [show visited entries fromKey = [] from hspec]
    rfl
  | some cursor =>
    rw [hstart] at hspec
    obtain ⟨hplaced, hrest⟩ := hspec
    obtain ⟨e, es, hvisited⟩ := List.exists_cons_of_ne_nil hplaced
    have hcurrent := h.current_eq (hrest.trans hvisited)
    rw [← hvisited] at hcurrent
    dsimp only
    rw [cursorLoop_eq h _ hcurrent hfuel, walk_listKeysBody hmode, Option.map_some, if_pos rfl]

end BerkeleyDBDatabase

/-! ### What the caller finds -/

/-- The caller of a listing finds a page: its sizes, with a mark in the slots left over, and its
keys. -/
def Shows (packed : Bool) (slots : List ℕ) (r : Status × ColumnOutput) (page : List Bytes) : Prop :=
  r.1 = .OK ∧
    r.2.sizes = page.map List.length ++ List.replicate (slots.length - page.length) noMoreKeys ∧
      readColumn packed slots r.2 = page

namespace Column

/-- The room that is left for the slots of a column. -/
def HasRoom (packed : Bool) (slots : List ℕ) (col : Column) : Prop :=
  col.buf.length ≤ lastValidSize ∧
    col.offset + (if packed then 0 else slots.sum) ≤ col.buf.length

/-- Writing an item keeps what is there, and adds a size. -/
theorem push_spec {packed : Bool} {slot : ℕ} {slots : List ℕ} {col : Column} (item : Bytes)
    (hroom : col.HasRoom packed (slot :: slots)) :
    let col' := col.push packed slot (fun dst off room => copyOut dst off room item)
    col'.HasRoom packed slots ∧ col.offset ≤ col'.offset ∧
      (∀ n ≤ col.offset, slice col'.buf 0 n = slice col.buf 0 n) ∧
        ∃ size, col'.sizes = col.sizes ++ [size] := by
  obtain ⟨hbuf, hroom⟩ := hroom
  have hmax : lastValidSize < 2 ^ 64 := by decide
  have hblit (h : col.offset + item.length ≤ col.buf.length) :
      (blit col.buf col.offset item).length = col.buf.length ∧
        ∀ n ≤ col.offset, slice (blit col.buf col.offset item) 0 n = slice col.buf 0 n :=
    ⟨length_blit h, fun n hn => slice_blit_before (by omega) (by omega)⟩
  cases packed with
  | true =>
    simp only [if_true, Nat.add_zero] at hroom
    have hmark : lastValidSize < sizeTooSmall :=
      lastValidSize_lt_noMoreKeys.trans noMoreKeys_lt_sizeTooSmall
    by_cases htoo : col.tooSmall = true
    · simp only [push, if_true, htoo]
      exact ⟨⟨hbuf, by simpa using hroom⟩, le_rfl, by simp, _, rfl⟩
    by_cases hlt : col.buf.length - col.offset < item.length
    · simp only [push, copyOut, if_true, if_neg htoo, if_pos hlt]
      exact ⟨⟨hbuf, by simpa using hroom⟩, le_rfl, by simp, _, rfl⟩
    · have hsize : item.length ≠ sizeTooSmall := by omega
      simp only [push, copyOut, if_true, if_neg htoo, if_neg hlt, if_neg hsize]
      obtain ⟨hlen, hkept⟩ := hblit (by omega)
      refine ⟨⟨hlen.trans_le hbuf, ?_⟩, Nat.le_add_right _ _, hkept, _, rfl⟩
      rw [if_pos rfl, hlen]
      dsimp only
      omega
  | false =>
    simp only [Bool.false_eq_true, if_false, List.sum_cons] at hroom
    simp only [push, copyOut, Bool.false_eq_true, if_false]
    have hadd : addSize col.offset slot = col.offset + slot := addSize_eq (by omega)
    rw [hadd]
    split_ifs with hlt
    · refine ⟨⟨hbuf, ?_⟩, Nat.le_add_right _ _, fun _ _ => rfl, _, rfl⟩
      rw [if_neg Bool.false_ne_true]
      dsimp only
      omega
    · obtain ⟨hlen, hkept⟩ := hblit (by omega)
      refine ⟨⟨hlen.trans_le hbuf, ?_⟩, Nat.le_add_right _ _, hkept, _, rfl⟩
      rw [if_neg Bool.false_ne_true, hlen]
      dsimp only
      omega

theorem pushAll_spec {packed : Bool} (items : List Bytes) (slots : List ℕ) {col : Column}
    (hroom : col.HasRoom packed slots) :
    let col' := col.pushAll packed (items.zip slots)
    (∀ n ≤ col.offset, slice col'.buf 0 n = slice col.buf 0 n) ∧ col.sizes <+: col'.sizes := by
  induction items generalizing slots col with
  | nil => exact ⟨fun _ _ => rfl, List.prefix_rfl⟩
  | cons item items ih =>
    cases slots with
    | nil => exact ⟨fun _ _ => rfl, List.prefix_rfl⟩
    | cons slot slots =>
      obtain ⟨hroom', hoffset, hkept, size, hsizes⟩ := push_spec item hroom
      obtain ⟨hkept', hsizes'⟩ := ih slots hroom'
      refine ⟨fun n hn => (hkept' n (hn.trans hoffset)).trans (hkept n hn), ?_⟩
      exact (hsizes ▸ List.prefix_append _ _).trans hsizes'

/-- What the first item of a listing leaves in its slot. -/
theorem first_spec {packed : Bool} {buf : Bytes} {slot : ℕ} {slots : List ℕ} (item : Bytes)
    (items : List Bytes) (hroom : (start buf).HasRoom packed (slot :: slots)) :
    let col := (start buf).pushAll packed ((item :: items).zip (slot :: slots))
    ∃ size, [size] <+: col.sizes ∧
      (size = sizeTooSmall ∨
        size = item.length ∧ size ≤ buf.length ∧ slice col.buf 0 size = item) := by
  obtain ⟨hnext, -, -, -⟩ := push_spec item hroom
  obtain ⟨hkept, hsizes⟩ := pushAll_spec items slots hnext
  obtain ⟨hbuf, hroom⟩ : buf.length ≤ lastValidSize ∧ _ := hroom
  have hmark : lastValidSize < sizeTooSmall :=
    lastValidSize_lt_noMoreKeys.trans noMoreKeys_lt_sizeTooSmall
  have hslot (hle : slot ≤ buf.length) : addSize 0 slot = slot := by
    have hmax : lastValidSize < 2 ^ 64 := by decide
    rw [addSize_eq (by omega), Nat.zero_add]
  let room := if packed then buf.length else slot
  have hle : room ≤ buf.length := by
    cases packed with
    | true => exact le_rfl
    | false =>
      simp only [start, Bool.false_eq_true, if_false, List.sum_cons] at hroom
      simp only [room, Bool.false_eq_true, if_false]
      omega
  have hcons : (start buf).pushAll packed ((item :: items).zip (slot :: slots)) =
      pushAll packed (items.zip slots)
        ((start buf).push packed slot (fun dst off room => copyOut dst off room item)) := rfl
  rw [hcons]
  by_cases hlt : room < item.length
  · have hpush : (start buf).push packed slot (fun dst off room => copyOut dst off room item) =
        ⟨buf, if packed then 0 else slot, packed, [sizeTooSmall]⟩ := by
      cases packed with
      | true => simp [push, start, copyOut, show buf.length < item.length from hlt]
      | false => simp [push, start, copyOut, show slot < item.length from hlt, hslot hle]
    rw [hpush] at hsizes ⊢
    exact ⟨_, hsizes, Or.inl rfl⟩
  · have hpush : (start buf).push packed slot (fun dst off room => copyOut dst off room item) =
        ⟨blit buf 0 item, if packed then item.length else slot, false, [item.length]⟩ := by
      have hne : item.length ≠ sizeTooSmall := by omega
      cases packed with
      | true => simp [push, start, copyOut, show ¬ buf.length < item.length from hlt, hne]
      | false => simp [push, start, copyOut, show ¬ slot < item.length from hlt, hslot hle]
    rw [hpush] at hsizes hkept ⊢
    refine ⟨_, hsizes, Or.inr ⟨rfl, by omega, (hkept _ ?_).trans (slice_blit_same (Nat.zero_le _))⟩⟩
    cases packed with
    | true => exact le_rfl
    | false => exact Nat.le_of_not_lt hlt

end Column

section Shows

variable {packed : Bool} {buf : Bytes} {slots : List ℕ} {items page : List Bytes}

/-- A column that is large enough for a page shows the page when its keys are written. -/
theorem shows_pushAll (hlen : page.length ≤ slots.length) (hfits : Fits packed buf slots page) :
    Shows packed slots
      (.OK, ((Column.start buf).pushAll packed (page.zip slots)).finish slots.length) page := by
  refine ⟨rfl, ?_, (Column.readColumn_pushAll hlen hfits).1⟩
  rw [Column.finish, Column.sizes_pushAll hlen hfits, List.length_map]

/-- The first item of a column. -/
theorem head_readColumn {slot size n : ℕ} {sizes : List ℕ} (h : size ≠ noMoreKeys) :
    (readColumn packed (slot :: slots) ⟨buf, n, size :: sizes⟩).head? =
      some (slice buf 0 size) := by
  rw [readColumn]
  cases packed with
  | true => simp [h, slice]
  | false => simp [readSlots, h]

/-- A page that is shown begins with the first key written. -/
theorem Shows.head_eq {slot : ℕ} (hlen : page.length ≤ (slot :: slots).length)
    (hfits : Fits packed buf (slot :: slots) page)
    (h : Shows packed (slot :: slots) (.OK, ((Column.start buf).pushAll packed
      (items.zip (slot :: slots))).finish (slot :: slots).length) page) :
    items.head? = page.head? := by
  obtain ⟨-, hsizes, hread⟩ := h
  have hmark := lastValidSize_lt_noMoreKeys
  have hmark' := noMoreKeys_lt_sizeTooSmall
  have hroom : (Column.start buf).HasRoom packed (slot :: slots) := by
    refine ⟨hfits.1, ?_⟩
    cases packed with
    | true => exact Nat.zero_le _
    | false => exact (Nat.zero_add _).trans_le hfits.2.1
  have hle (key : Bytes) (hkey : key ∈ page) : key.length ≤ buf.length :=
    Column.length_le_of_fits hlen hfits hkey
  have hbuf : buf.length ≤ lastValidSize := hfits.1
  cases items with
  | nil =>
    cases page with
    | nil => rfl
    | cons key keys =>
      have hfirst : noMoreKeys = key.length := by
        simpa [Column.finish, Column.pushAll, Column.start, List.replicate_succ] using
          congrArg List.head? hsizes
      have hkey := hle key List.mem_cons_self
      omega
  | cons item items =>
    obtain ⟨size, ⟨more, hmore⟩, hsize⟩ := Column.first_spec item items hroom
    have hsize_ne : size ≠ noMoreKeys := by omega
    simp only [Column.finish, ← hmore, List.cons_append] at hsizes hread
    cases page with
    | nil =>
      have hfirst : size = noMoreKeys := by
        simpa [List.replicate_succ] using congrArg List.head? hsizes
      exact absurd hfirst hsize_ne
    | cons key keys =>
      have hfirst : size = key.length := by simpa using congrArg List.head? hsizes
      have hkey := hle key List.mem_cons_self
      obtain ⟨-, -, hslice⟩ := hsize.resolve_left (by omega)
      have hslot := congrArg List.head? hread
      rw [head_readColumn hsize_ne, hslice, List.head?_cons] at hslot
      exact hslot

end Shows

/-- An exclusive listing of `berkeleydb.cpp` returns the first keys that are greater than `fromKey`
exactly if none is asked for, or the search ends behind `fromKey`. -/
theorem berkeleydb_listKeys_iff {δ κ : Type} [BerkeleyDBCursor δ κ] {d : BerkeleyDBDatabase δ}
    {entries : List (Bytes × Bytes)} {rest : κ → List (Bytes × Bytes)}
    (h : BerkeleyDBCursor.Traverses d.db entries rest) (htype : d.dbType = .btree) {mode : Mode}
    (hexclusive : mode.has .inclusive = false) (hmode : mode.has .ignoreKeys = false)
    (fmode : Mode) (fromKey : UserMem) (hfrom : fromKey.size ≠ 0) (packed : Bool) (keys : Bytes)
    (keySizes : List ℕ)
    (hfits : Fits packed keys keySizes (pageBehind entries fromKey.bytes keySizes.length)) :
    (∃ r, EndsWith (fun fuel =>
          d.listKeys fuel mode packed fromKey (keyPrefixFilter fmode []) keys keySizes) r ∧
        Shows packed keySizes r (pageBehind entries fromKey.bytes keySizes.length)) ↔
      keySizes = [] ∨ StartsBehind entries fromKey := by
  have hends := BerkeleyDBDatabase.listKeys_endsWith h htype hexclusive hmode fmode hfrom packed
    keys keySizes
  have hlen : (pageBehind entries fromKey.bytes keySizes.length).length ≤ keySizes.length := by
    rw [pageBehind, List.length_take]
    exact Nat.min_le_left _ _
  have hzip : (pageBehind entries fromKey.bytes keySizes.length).zip keySizes =
      ((entriesBehind entries fromKey.bytes).map Prod.fst).zip keySizes :=
    MapDatabase.zip_take_length _ _
  rw [← visited_eq_iff h.sorted]
  constructor
  · rintro ⟨r, hr, hshows⟩
    obtain rfl := hr.inj hends
    cases keySizes with
    | nil => exact Or.inl rfl
    | cons slot slots =>
      refine Or.inr ?_
      have hhead := hshows.head_eq hlen hfits
      rw [pageBehind, List.length_cons, List.head?_take, if_neg (Nat.succ_ne_zero _)] at hhead
      have hnodup : (entries.map Prod.fst).Nodup := by
        refine List.pairwise_map.2 (List.Pairwise.imp ?_ h.sorted)
        exact fun {a b} hab heq => Std.lt_irrefl (heq ▸ hab)
      have hkeys := suffix_eq_of_head hnodup ((visited_suffix entries fromKey).map Prod.fst)
        ((entriesBehind_suffix h.sorted fromKey.bytes).map Prod.fst) hhead
      have hlength := congrArg List.length hkeys
      rw [List.length_map, List.length_map] at hlength
      rw [List.suffix_iff_eq_drop.1 (visited_suffix entries fromKey),
        hlength, ← List.suffix_iff_eq_drop.1 (entriesBehind_suffix h.sorted fromKey.bytes)]
  · intro hvisited
    refine ⟨_, hends, ?_⟩
    have hwritten : ((visited entries fromKey).map Prod.fst).zip keySizes =
        (pageBehind entries fromKey.bytes keySizes.length).zip keySizes := by
      rcases hvisited with rfl | hvisited
      · rw [List.zip_nil_right, List.zip_nil_right]
      · rw [hvisited, hzip]
    rw [hwritten]
    exact shows_pushAll hlen hfits

/-! ### A cursor over a list -/

instance : BerkeleyDBCursor PairList PairCursor where
  cursor db := ⟨db.entries, []⟩
  get cursor flag :=
    let rest :=
      match flag with
      | .first => cursor.entries
      | .next => cursor.rest.tail
      | .current => cursor.rest
    (.ofEntries rest, cursor.move rest)
  setRange cursor key :=
    match cursor.entries.dropWhile (fun e => e.1 < key.bytes) with
    | [] => (.notFound, key, cursor)
    | e :: es =>
      let (received, key) := key.receive e.1
      if received then (.success, key, cursor.move (e :: es)) else (.bufferSmall, key, cursor)

theorem berkeleydb_pairList {entries : List (Bytes × Bytes)}
    (hsorted : Sorted (· < ·) Prod.fst entries) :
    BerkeleyDBCursor.Traverses (⟨entries⟩ : PairList) entries PairCursor.rest := by
  refine ⟨hsorted, ⟨rfl, rfl⟩, fun {key} hfound => ?_, fun {key e es} hfound => ?_,
    fun {cursor e es} hrest => ?_, fun {cursor e es} hrest => ?_⟩
  · simp [BerkeleyDBCursor.setRange, BerkeleyDBCursor.cursor, hfound]
  · simp only [BerkeleyDBCursor.setRange, BerkeleyDBCursor.cursor, hfound]
    rcases key.receive e.1 with ⟨received, key'⟩
    cases received <;> exact ⟨rfl, rfl, rfl⟩
  · simp [BerkeleyDBCursor.get, PairCursor.move, hrest]
  · simp [BerkeleyDBCursor.get, PairCursor.move, hrest]

/-- A key of one byte, with zeros behind it. -/
def byteKey (byte : UInt8) : UserMem := ⟨fun i => if i = 0 then byte else 0, 1⟩

/-- A B-tree with two keys. -/
def btreeTwo : BerkeleyDBDatabase PairList := ⟨.btree, ⟨[([1], []), ([2], [])]⟩⟩

theorem traverses_btreeTwo :
    BerkeleyDBCursor.Traverses btreeTwo.db [([1], []), ([2], [])] PairCursor.rest :=
  berkeleydb_pairList (by unfold Sorted; decide)

/-- Two keys, listed from the first on. -/
theorem berkeleydb_listKeys_iff_two :
    ∃ r, EndsWith (fun fuel => btreeTwo.listKeys fuel .default false (byteKey 1)
        (keyPrefixFilter .default []) [0] [1]) r ∧
      Shows false [1] r (pageBehind [([1], []), ([2], [])] (byteKey 1).bytes 1) :=
  (berkeleydb_listKeys_iff traverses_btreeTwo rfl (by decide) (by decide) _ _ (by decide) _ _ _
    (by decide)).2 (Or.inr ((visited_eq_iff traverses_btreeTwo.sorted).1 (by decide)))

/-- The key `[1]` comes right behind `[0]`; it is as long and is skipped. -/
theorem berkeleydb_listKeys_skips :
    ¬ ∀ (δ κ : Type) (_ : BerkeleyDBCursor δ κ) (d : BerkeleyDBDatabase δ)
      (entries : List (Bytes × Bytes)) (rest : κ → List (Bytes × Bytes)) (mode fmode : Mode)
      (fromKey : UserMem) (packed : Bool) (keys : Bytes) (keySizes : List ℕ),
      BerkeleyDBCursor.Traverses d.db entries rest → d.dbType = .btree →
        mode.has .inclusive = false → mode.has .ignoreKeys = false → (∀ e ∈ entries, e.1 ≠ []) →
          fromKey.size ≠ 0 →
            Fits packed keys keySizes (pageBehind entries fromKey.bytes keySizes.length) →
              ∃ r, EndsWith (fun fuel => d.listKeys fuel mode packed fromKey
                  (keyPrefixFilter fmode []) keys keySizes) r ∧
                Shows packed keySizes r (pageBehind entries fromKey.bytes keySizes.length) := by
  intro h
  obtain ⟨r, hends, hshows⟩ := h PairList PairCursor inferInstance btreeTwo _ _ .default .default
    (byteKey 0) false [0] [1] traverses_btreeTwo rfl (by decide) (by decide) (by decide)
    (by decide) (by decide)
  obtain rfl := hends.inj (BerkeleyDBDatabase.listKeys_endsWith traverses_btreeTwo rfl (by decide)
    (by decide) .default (by decide) false [0] [1])
  exact absurd hshows.2.2 (by decide)

end Yokan
