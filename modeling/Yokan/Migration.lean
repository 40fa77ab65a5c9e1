import Yokan.UnorderedMap
import Yokan.Array
import Yokan.Library.ByteStream
import Std.Data.ExtTreeSet

/-!
# Yokan: migrating key/value databases

The `map`, `unordered_map` and `set` backends migrate through a file: the constructor of the
migration handle writes the entries one after the other, each key and value preceded by its size,
and `recover` of the target reads them back into a database made by `create`. The three encoders
and the three decoders are separate functions of the source (`src/backends/map.cpp`,
`unordered_map.cpp`, `set.cpp`) of one shape.

* `recoverLoop_records`: a loop that reads records back until it has counted as many bytes as the
  file has reads exactly the records written;
* `recover_rebuilds`: `recover` reads the file of a migration to its end, and the target has the
  entries of the source.
-/

namespace Yokan

open LittleEndian ByteStream

/-! ### Reading a file back -/

/-- Why a record is not read: the stream failed, or a vector could not be resized. -/
inductive ReadError
  | failbit
  | exception
  deriving DecidableEq

/-- `ifs.read` into a `size_t`. -/
def readSize (ifs : Bytes) : Except ReadError (ℕ × Bytes) :=
  match readWord 8 ifs with
  | some r => .ok r
  | none => .error .failbit

/-- `ifs.read` into a vector after `resize(size)`. -/
def readVector (size : ℕ) (ifs : Bytes) : Except ReadError (Bytes × Bytes) :=
  if vectorMaxSize 1 < size then .error .exception
  else
    match read size ifs with
    | some r => .ok r
    | none => .error .failbit

/-- How `recover` reads one record, and by how much it then advances `size_read`. -/
structure RecordReader (ρ : Type) where
  read : Bytes → Except ReadError (ρ × Bytes)
  size : ρ → ℕ
  shrinks : ∀ {ifs record rest}, read ifs = .ok (record, rest) → rest.length < ifs.length

/-- The loop of `recover`: its status, the database and what is left of the file. It has no result
when an exception leaves it. -/
def recoverLoop {ρ σ : Type} (reader : RecordReader ρ) (emplace : σ → ρ → σ) (totalSize : ℕ)
    (ifs : Bytes) (sizeRead : ℕ) (db : σ) : Option (Status × σ × Bytes) :=
  if sizeRead < totalSize then
    match _h : reader.read ifs with
    | .error .exception => none
    | .error .failbit => some (.IOError, db, ifs)
    | .ok (record, rest) =>
      recoverLoop reader emplace totalSize rest (addSize sizeRead (reader.size record))
        (emplace db record)
  else some (.OK, db, ifs)
termination_by ifs.length
decreasing_by exact reader.shrinks _h

/-- A writer of records is undone by a reader: each record is read back before whatever follows
it, and counted with its length. -/
structure ReadsBack {ρ : Type} (reader : RecordReader ρ) (write : ρ → Bytes) (record : ρ) :
    Prop where
  read_eq : ∀ rest, reader.read (write record ++ rest) = .ok (record, rest)
  size_eq : reader.size record = (write record).length

/-- The loop of `recover` reads the records that were written, and all of them. -/
theorem recoverLoop_records {ρ σ : Type} {reader : RecordReader ρ} {write : ρ → Bytes}
    (emplace : σ → ρ → σ) {totalSize : ℕ} (htotal : totalSize < 2 ^ 64) {records : List ρ}
    (hback : ∀ record ∈ records, ReadsBack reader write record)
    (hpos : ∀ record ∈ records, 0 < (write record).length) {sizeRead : ℕ} (db : σ)
    (hsize : sizeRead + (records.flatMap write).length = totalSize) :
    recoverLoop reader emplace totalSize (records.flatMap write) sizeRead db =
      some (.OK, records.foldl emplace db, []) := by
  induction records generalizing sizeRead db with
  | nil =>
    rw [recoverLoop, if_neg (by simp at hsize; omega)]
    rfl
  | cons record records ih =>
    have hrecord := hback record List.mem_cons_self
    have hlength := hpos record List.mem_cons_self
    rw [List.flatMap_cons, List.length_append] at hsize
    have hread := hrecord.read_eq (records.flatMap write)
    have hadd : addSize sizeRead (reader.size record) = sizeRead + (write record).length := by
      rw [hrecord.size_eq]
      exact addSize_eq (by omega)
    rw [List.flatMap_cons, recoverLoop, if_pos (by omega)]
    split
    · simp_all
    · simp_all
    · next record' rest he =>
      rw [hread] at he
      obtain ⟨rfl, rfl⟩ := Prod.mk.inj (Except.ok.inj he)
      rw [hadd, ih (fun r hr => hback r (List.mem_cons_of_mem _ hr))
        (fun r hr => hpos r (List.mem_cons_of_mem _ hr)) _ (by omega), List.foldl_cons]

/-! ### Records of a key and a value, and of a key -/

/-- What the migration handles of `map` and `unordered_map` write for an entry. -/
def entryRecord (p : Bytes × Bytes) : Bytes := counted 8 p.1 ++ counted 8 p.2

/-- What the migration handle of `set` writes for a key. -/
def keyRecord (key : Bytes) : Bytes := counted 8 key

/-- The body of the loop of `recover`, up to `ifs.fail()`: a vector of bytes after its size. -/
def readCounted (ifs : Bytes) : Except ReadError (Bytes × Bytes) := do
  let (size, ifs) ← readSize ifs
  readVector size ifs

theorem readCounted_shrinks {ifs bytes rest : Bytes} (h : readCounted ifs = .ok (bytes, rest)) :
    rest.length < ifs.length := by
  unfold readCounted readSize at h
  cases hsize : readWord 8 ifs with
  | none => simp [hsize, bind, Except.bind] at h
  | some r =>
    obtain ⟨size, ifs'⟩ := r
    have hword := length_of_readWord hsize
    simp only [hsize, bind, Except.bind, readVector] at h
    split_ifs at h
    cases hread : read size ifs' with
    | none => simp [hread] at h
    | some r =>
      simp only [hread, Except.ok.injEq] at h
      subst h
      have := (length_of_read hread).2
      omega

/-- A vector that fits in memory is read back. -/
theorem readCounted_counted {bytes : Bytes} (h : bytes.length ≤ vectorMaxSize 1) (rest : Bytes) :
    readCounted (counted 8 bytes ++ rest) = .ok (bytes, rest) := by
  have hlt : bytes.length < 256 ^ 8 := by
    have hmax : vectorMaxSize 1 < 256 ^ 8 := by decide
    omega
  unfold readCounted readSize readVector
  rw [counted, List.append_assoc, readWord_append hlt]
  simp only [bind, Except.bind]
  rw [if_neg (Nat.not_lt.2 h), read_append]

/-- The records of `map` and `unordered_map`. -/
def entryReader : RecordReader (Bytes × Bytes) where
  read ifs := do
    let (key, ifs) ← readCounted ifs
    let (val, ifs) ← readCounted ifs
    return ((key, val), ifs)
  size p := addSize (addSize (2 * 8) p.1.length) p.2.length
  shrinks {ifs p rest} h := by
    cases hkey : readCounted ifs with
    | error e => simp [hkey, bind, Except.bind] at h
    | ok r =>
      cases hval : readCounted r.2 with
      | error e => simp [hkey, hval, bind, Except.bind] at h
      | ok r' =>
        simp only [hkey, hval, bind, Except.bind, pure, Except.pure, Except.ok.injEq,
          Prod.mk.injEq] at h
        obtain ⟨-, rfl⟩ := h
        exact (readCounted_shrinks hval).trans (readCounted_shrinks hkey)

/-- The records of `set`. -/
def keyReader : RecordReader Bytes where
  read := readCounted
  size key := addSize 8 key.length
  shrinks := readCounted_shrinks

theorem entryReader_readsBack {p : Bytes × Bytes} (h : (entryRecord p).length ≤ vectorMaxSize 1) :
    ReadsBack entryReader entryRecord p where
  read_eq rest := by
    simp only [entryRecord, List.length_append, length_counted] at h
    rw [entryReader, entryRecord, List.append_assoc]
    simp only [readCounted_counted (show p.1.length ≤ vectorMaxSize 1 by omega),
      readCounted_counted (show p.2.length ≤ vectorMaxSize 1 by omega), bind, Except.bind, pure,
      Except.pure]
  size_eq := by
    have hmax : vectorMaxSize 1 < 2 ^ 64 := by decide
    simp only [entryRecord, List.length_append, length_counted] at h ⊢
    rw [entryReader]
    simp only
    rw [addSize_eq (show 2 * 8 + p.1.length < 2 ^ 64 by omega), addSize_eq (by omega)]
    omega

theorem keyReader_readsBack {key : Bytes} (h : (keyRecord key).length ≤ vectorMaxSize 1) :
    ReadsBack keyReader keyRecord key where
  read_eq rest := by
    rw [keyRecord, length_counted] at h
    exact readCounted_counted (by omega) rest
  size_eq := by
    have hmax : vectorMaxSize 1 < 2 ^ 64 := by decide
    rw [keyRecord, length_counted] at h ⊢
    exact addSize_eq (by omega)

/-! ### The backends -/

/-- The entries of a container, in the order in which it is iterated over. -/
structure Enumerates (es : List (Bytes × Bytes)) (find : Bytes → Option Bytes) : Prop where
  nodup : (es.map Prod.fst).Nodup
  mem_iff : ∀ key val, (key, val) ∈ es ↔ find key = some val

/-- A file, whose size is an `off_t`. -/
def IsFile (bytes : Bytes) : Prop := bytes.length < 2 ^ 63

/-- The records of a file fit in memory. -/
theorem IsFile.length_le {ρ : Type} {records : List ρ} {write : ρ → Bytes}
    (h : IsFile (records.flatMap write)) {record : ρ} (hmem : record ∈ records) : (write record).length ≤ vectorMaxSize 1 := by
  have hle : (write record).length ≤ (records.flatMap write).length := by
    rw [List.length_flatMap]
    exact List.single_le_sum (by simp) _ (List.mem_map_of_mem hmem)
  have hmax : vectorMaxSize 1 = 2 ^ 63 - 1 := by decide
  unfold IsFile at h
  omega

/-- The file that the constructor of `MapMigrationHandle` writes. -/
def MapDatabase.snapshot {c : Comparator} (s : MapDatabase c) : Bytes :=
  s.db.toList.flatMap entryRecord

/-- The part of `MapDatabase::recover` behind `create`, on the file `ifs`. -/
def MapDatabase.recover (c : Comparator) (ifs : Bytes) :
    Option (Status × MapDatabase c × Bytes) :=
  recoverLoop entryReader (fun s p => s.emplace p.1 p.2) ifs.length ifs 0 (empty c)

/-- The file that the constructor of `UnorderedMapMigrationHandle` writes, when it finds the
entries in the order of `es`. -/
def UnorderedMapDatabase.snapshot (es : List (Bytes × Bytes)) : Bytes := es.flatMap entryRecord

/-- The part of `UnorderedMapDatabase::recover` behind `create`, on the file `ifs`. -/
def UnorderedMapDatabase.recover (ifs : Bytes) : Option (Status × UnorderedMapDatabase × Bytes) :=
  recoverLoop entryReader (fun s p => (s.emplace p.1 p.2).2) ifs.length ifs 0 empty

/-- A `set` database, which has keys without values. -/
structure SetDatabase (c : Comparator) where
  db : Std.ExtTreeSet Bytes c.cmp
  migrated : Bool
  watcher : List Bytes

namespace SetDatabase

variable {c : Comparator}

/-- The database `create` makes. -/
def empty (c : Comparator) : SetDatabase c := ⟨∅, false, []⟩

/-- `m_db->emplace(key)`. -/
def emplace (s : SetDatabase c) (key : Bytes) : SetDatabase c := { s with db := s.db.insert key }

/-- The file that the constructor of `SetMigrationHandle` writes. -/
def snapshot (s : SetDatabase c) : Bytes := s.db.toList.flatMap keyRecord

/-- The part of `SetDatabase::recover` behind `create`, on the file `ifs`. -/
def recover (c : Comparator) (ifs : Bytes) : Option (Status × SetDatabase c × Bytes) :=
  recoverLoop keyReader emplace ifs.length ifs 0 (empty c)

end SetDatabase

/-! ### The target has the entries of the source -/

theorem lookup_of_enumerates {es : List (Bytes × Bytes)} {find : Bytes → Option Bytes}
    (h : Enumerates es find) (key : Bytes) : es.lookup key = find key := by
  have hmem : ∀ (es : List (Bytes × Bytes)), (es.map Prod.fst).Nodup → ∀ val,
      es.lookup key = some val ↔ (key, val) ∈ es := by
    intro es
    induction es with
    | nil => simp
    | cons e es ih =>
      obtain ⟨k, v⟩ := e
      intro hnodup val
      rw [List.map_cons, List.nodup_cons] at hnodup
      rw [List.lookup_cons, List.mem_cons, Prod.mk.injEq]
      by_cases hk : key = k
      · subst hk
        have hno : (key, val) ∉ es := fun hin => hnodup.1 (List.mem_map.2 ⟨(key, val), hin, rfl⟩)
        simp [hno, eq_comm]
      · have hbeq : (key == k) = false := beq_eq_false_iff_ne.2 hk
        rw [hbeq]
        simp [hk, ih hnodup.2]
  cases hfind : find key with
  | none =>
    by_contra hne
    obtain ⟨val, hval⟩ := Option.ne_none_iff_exists'.1 hne
    rw [hmem es h.nodup, h.mem_iff, hfind] at hval
    cases hval
  | some val => rw [hmem es h.nodup, h.mem_iff, hfind]

/-- Emplacing entries one after the other keeps, for each key, the entry that is there first. -/
theorem find_foldl_emplace {σ : Type} {find : σ → Bytes → Option Bytes}
    {emplace : σ → Bytes × Bytes → σ}
    (hemplace : ∀ s p k, find (emplace s p) k = (find s k).or (if k = p.1 then some p.2 else none))
    (es : List (Bytes × Bytes)) (s : σ) (k : Bytes) :
    find (es.foldl emplace s) k = (find s k).or (es.lookup k) := by
  induction es generalizing s with
  | nil => simp
  | cons e es ih =>
    obtain ⟨key, val⟩ := e
    rw [List.foldl_cons, ih, hemplace, Option.or_assoc, List.lookup_cons]
    by_cases hk : k = key
    · subst hk
      simp
    · have hbeq : (k == key) = false := beq_eq_false_iff_ne.2 hk
      simp [hk, hbeq]

namespace MapDatabase

variable {c : Comparator}

theorem find_emplace_or (s : MapDatabase c) (p : Bytes × Bytes) (k : Bytes) :
    (s.emplace p.1 p.2).find k = (s.find k).or (if k = p.1 then some p.2 else none) := by
  cases hp : s.find p.1 with
  | none =>
    rw [find_emplace _ hp, Function.update_apply]
    split_ifs with hk
    · rw [hk, hp]
      rfl
    · simp
  | some v =>
    have hmem : p.1 ∈ s.db := by
      rw [Std.ExtTreeMap.mem_iff_isSome_getElem?]
      unfold find at hp
      simp [hp]
    have hsame : (s.emplace p.1 p.2).find k = s.find k := by
      unfold find emplace
      rw [Std.ExtTreeMap.getElem?_insertIfNew, if_neg fun h => h.2 hmem]
    rw [hsame]
    split_ifs with hk
    · rw [hk, hp]
      rfl
    · simp

theorem enumerates_toList (s : MapDatabase c) : Enumerates s.db.toList s.find where
  nodup := by
    refine List.pairwise_map.2 (Std.ExtTreeMap.distinct_keys_toList.imp ?_)
    intro a b hab he
    exact hab (c.cmp_eq_eq.2 he)
  mem_iff key val := Std.ExtTreeMap.mem_toList_iff_getElem?_eq_some

/-- What `recover` makes of the file of a migration is the container of its source. -/
theorem recover_snapshot {s : MapDatabase c} (hfile : IsFile s.snapshot) :
    recover c s.snapshot = some (.OK, ⟨s.db, false, []⟩, []) := by
  have hloop := recoverLoop_records (fun (s : MapDatabase c) p => s.emplace p.1 p.2)
    (show s.snapshot.length < 2 ^ 64 by unfold IsFile at hfile; omega)
    (fun p hp => entryReader_readsBack (hfile.length_le hp)) (fun p _ => by simp [entryRecord])
    (empty c) (Nat.zero_add _)
  refine hloop.trans ?_
  have hkeep : ∀ (es : List (Bytes × Bytes)) (t : MapDatabase c),
      (es.foldl (fun t p => t.emplace p.1 p.2) t).migrated = t.migrated ∧
        (es.foldl (fun t p => t.emplace p.1 p.2) t).watcher = t.watcher := by
    intro es
    induction es with
    | nil => exact fun t => ⟨rfl, rfl⟩
    | cons e es ih => exact fun t => ih _
  have hdb : (s.db.toList.foldl (fun t p => t.emplace p.1 p.2) (empty c)).db = s.db := by
    refine Std.ExtTreeMap.ext_getElem? fun k => ?_
    have hfind := find_foldl_emplace find_emplace_or s.db.toList (empty c) k
    have hnone : (empty c).find k = none := Std.ExtTreeMap.getElem?_empty
    rw [hnone, Option.none_or, lookup_of_enumerates s.enumerates_toList] at hfind
    exact hfind
  obtain ⟨hmigrated, hwatcher⟩ := hkeep s.db.toList (empty c)
  simp only [Option.some.injEq, Prod.mk.injEq, true_and, and_true]
  cases hfold : s.db.toList.foldl (fun t p => t.emplace p.1 p.2) (empty c) with
  | mk db migrated watcher =>
    rw [hfold] at hdb hmigrated hwatcher
    dsimp only at hdb hmigrated hwatcher
    rw [hdb, hmigrated, hwatcher]
    rfl

end MapDatabase

namespace UnorderedMapDatabase

theorem find_emplace_or (s : UnorderedMapDatabase) (p : Bytes × Bytes) (k : Bytes) :
    (s.emplace p.1 p.2).2.find k = (s.find k).or (if k = p.1 then some p.2 else none) := by
  cases hp : s.find p.1 with
  | none =>
    rw [emplace_of_none _ hp, find_assign, Function.update_apply]
    split_ifs with hk
    · rw [hk, hp]
      rfl
    · simp
  | some v =>
    rw [emplace_of_some _ hp]
    split_ifs with hk
    · rw [hk, hp]
      rfl
    · simp

/-- A database can be enumerated. -/
theorem enumerates_entries (s : UnorderedMapDatabase) :
    Enumerates (s.db.entries.map fun e => (e.1, e.2)) s.find where
  nodup := by
    rw [List.map_map]
    exact s.db.nodupKeys
  mem_iff key val := by
    rw [find, ← Option.mem_def, AList.mem_lookup_iff, List.mem_map]
    constructor
    · rintro ⟨e, he, heq⟩
      obtain ⟨rfl, rfl⟩ := Prod.mk.inj heq
      exact he
    · exact fun he => ⟨⟨key, val⟩, he, rfl⟩

/-- What `recover` makes of the file of a migration has the entries of its source, in whichever
order they were written. -/
theorem recover_snapshot {s : UnorderedMapDatabase} {es : List (Bytes × Bytes)}
    (hes : Enumerates es s.find) (hfile : IsFile (snapshot es)) :
    ∃ t : UnorderedMapDatabase, recover (snapshot es) = some (.OK, t, []) ∧ t.find = s.find := by
  have hloop := recoverLoop_records (fun (s : UnorderedMapDatabase) p => (s.emplace p.1 p.2).2)
    (show (snapshot es).length < 2 ^ 64 by unfold IsFile at hfile; omega)
    (fun p hp => entryReader_readsBack (hfile.length_le hp)) (fun p _ => by simp [entryRecord])
    empty (Nat.zero_add _)
  refine ⟨_, hloop, ?_⟩
  funext k
  have hnone : empty.find k = none := AList.lookup_empty k
  rw [find_foldl_emplace find_emplace_or, hnone, Option.none_or, lookup_of_enumerates hes]

end UnorderedMapDatabase

namespace SetDatabase

variable {c : Comparator}

/-- What `recover` makes of the file of a migration is the container of its source. -/
theorem recover_snapshot {s : SetDatabase c} (hfile : IsFile s.snapshot) :
    recover c s.snapshot = some (.OK, ⟨s.db, false, []⟩, []) := by
  have hloop := recoverLoop_records (SetDatabase.emplace (c := c))
    (show s.snapshot.length < 2 ^ 64 by unfold IsFile at hfile; omega)
    (fun key hkey => keyReader_readsBack (hfile.length_le hkey)) (fun key _ => by simp [keyRecord])
    (empty c) (Nat.zero_add _)
  refine hloop.trans ?_
  have hfold : ∀ (keys : List Bytes) (t : SetDatabase c),
      keys.foldl emplace t = { t with db := keys.foldl (fun db key => db.insert key) t.db } := by
    intro keys
    induction keys with
    | nil => exact fun t => rfl
    | cons key keys ih => exact fun t => ih _
  have hmem : ∀ (keys : List Bytes) (db : Std.ExtTreeSet Bytes c.cmp) (k : Bytes),
      k ∈ keys.foldl (fun db key => db.insert key) db ↔ k ∈ db ∨ k ∈ keys := by
    intro keys
    induction keys with
    | nil => simp
    | cons key keys ih =>
      intro db k
      rw [List.foldl_cons, ih, Std.ExtTreeSet.mem_insert, c.cmp_eq_eq, List.mem_cons]
      tauto
  have hdb : s.db.toList.foldl (fun db key => db.insert key) (empty c).db = s.db := by
    refine Std.ExtTreeSet.ext_mem fun k => ?_
    rw [hmem, Std.ExtTreeSet.mem_toList]
    simp [empty]
  rw [hfold, hdb]
  rfl

end SetDatabase

/-- Migrating a `map`, an `unordered_map` or a `set` database: the target's `recover` reads the file
that the source wrote to its end, returns `OK`, and has the container of the source. A hash table
is written in any order of its entries. -/
theorem recover_rebuilds {c : Comparator} :
    (∀ s : MapDatabase c, IsFile s.snapshot →
      MapDatabase.recover c s.snapshot = some (.OK, ⟨s.db, false, []⟩, [])) ∧
    (∀ (s : UnorderedMapDatabase) (es : List (Bytes × Bytes)), Enumerates es s.find →
      IsFile (UnorderedMapDatabase.snapshot es) →
      ∃ t : UnorderedMapDatabase,
        UnorderedMapDatabase.recover (UnorderedMapDatabase.snapshot es) = some (.OK, t, []) ∧
          t.find = s.find) ∧
    (∀ s : SetDatabase c, IsFile s.snapshot →
      SetDatabase.recover c s.snapshot = some (.OK, ⟨s.db, false, []⟩, [])) :=
  ⟨fun _ => MapDatabase.recover_snapshot, fun _ _ => UnorderedMapDatabase.recover_snapshot,
    fun _ => SetDatabase.recover_snapshot⟩

/-- Databases with an empty key and with an empty value. -/
theorem recover_rebuilds_three :
    MapDatabase.recover .default
        (((MapDatabase.empty .default).emplace [] [7]).emplace [1, 2] []).snapshot =
      some (.OK, ((MapDatabase.empty .default).emplace [] [7]).emplace [1, 2] [], []) ∧
    (∃ t : UnorderedMapDatabase,
      UnorderedMapDatabase.recover (UnorderedMapDatabase.snapshot [([1, 2], []), ([], [7])]) =
        some (.OK, t, []) ∧
      t.find = ((UnorderedMapDatabase.empty.emplace [] [7]).2.emplace [1, 2] []).2.find) ∧
    SetDatabase.recover .default ((SetDatabase.empty .default).emplace [3]).snapshot =
      some (.OK, (SetDatabase.empty .default).emplace [3], []) := by
  have hes : (((UnorderedMapDatabase.empty.emplace [] [7]).2.emplace [1, 2] []).2.db.entries.map
      fun e => (e.1, e.2)) = [([1, 2], []), ([], [7])] := by decide
  exact ⟨(recover_rebuilds (c := .default)).1 _ (by unfold IsFile; decide),
    (recover_rebuilds (c := .default)).2.1 _ _ (hes ▸ UnorderedMapDatabase.enumerates_entries _)
      (by unfold IsFile; decide),
    recover_rebuilds.2.2 _ (by unfold IsFile; decide)⟩

end Yokan
