import Yokan.Migration
import Yokan.LogDatabase

/-!
# Yokan: migrating the database of a provider

`yk_provider_migrate_database` (`src/server/provider.cpp`). It takes a migration handle from the
database, describes the handle's files to REMI and lets REMI transfer them. The destructor of the
handle empties the database and marks it as migrated, unless `cancel` was called before; the
function calls `cancel` when the transfer fails, and on no other return behind `startMigration`.

REMI and Mercury are the answers of an environment: a call that fails leaves the database alone.

* `migrateDatabase_atomic_iff`: an error leaves the database as it was exactly if no handle was
  taken from it, or if everything was registered with REMI.
-/

namespace Yokan

/-! ### Migration handles -/

/-- What `getRoot` and `getFiles` of a `MigrationHandle` return. -/
structure MigrationHandle where
  root : String
  files : List String

/-- A database that can be migrated. `handle` is what the constructor of its migration handle makes,
given the suffix of a temporary file; `close` is what the destructor of a handle that was not
canceled does; `contents` are the keys or documents. -/
class Migratable (σ : Type) (κ : outParam Type) where
  contents : σ → κ
  migrated : σ → Bool
  handle : σ → String → MigrationHandle
  close : σ → σ
  migrated_close (s : σ) : migrated (close s) = true

instance {c : Comparator} : Migratable (MapDatabase c) (Std.ExtTreeMap Bytes Bytes c.cmp) where
  contents := MapDatabase.db
  migrated := MapDatabase.migrated
  handle _ suffix := ⟨"/tmp", ["yokan-map-snapshot-" ++ suffix]⟩
  close s := { s with db := ∅, migrated := true }
  migrated_close _ := rfl

instance : Migratable UnorderedMapDatabase (AList fun _ : Bytes => Bytes) where
  contents := UnorderedMapDatabase.db
  migrated := UnorderedMapDatabase.migrated
  handle _ suffix := ⟨"/tmp", ["yokan-unordered-map-snapshot-" ++ suffix]⟩
  close s := { s with db := ∅, migrated := true }
  migrated_close _ := rfl

instance {c : Comparator} : Migratable (SetDatabase c) (Std.ExtTreeSet Bytes c.cmp) where
  contents := SetDatabase.db
  migrated := SetDatabase.migrated
  handle _ suffix := ⟨"/tmp", ["yokan-set-snapshot-" ++ suffix]⟩
  close s := { s with db := ∅, migrated := true }
  migrated_close _ := rfl

/-- A database that keeps its path and `m_migrated` next to its collections or files. -/
structure Located (σ : Type) where
  db : σ
  path : String
  migrated : Bool

instance : Migratable (Located ArrayDatabase) (CString → Option ArrayCollection) where
  contents s := s.db.collections
  migrated := Located.migrated
  handle _ suffix := ⟨"/tmp", ["yokan-array-snapshot-" ++ suffix]⟩
  close s := { s with db := .empty, migrated := true }
  migrated_close _ := rfl

instance : Migratable (Located LogDatabase) LogDatabase where
  contents := Located.db
  migrated := Located.migrated
  handle s _ := ⟨s.path, ["/"]⟩
  close s := { s with
    db := { s.db with collections := fun _ => none, directory := fun _ => none }
    migrated := true }
  migrated_close _ := rfl

/-- The files of a `leveldb` or a `rocksdb` database, by their names under its path. -/
abbrev Directory : Type := String → Option Bytes

instance : Migratable (Located Directory) Directory where
  contents := Located.db
  migrated := Located.migrated
  handle s _ := ⟨s.path, ["/"]⟩
  close s := { s with db := fun _ => none, migrated := true }
  migrated_close _ := rfl

/-! ### The function -/

/-- The answers of Mercury and REMI, zero where a call succeeds. `migrate` answers for the transfer
and for the callback of the target. The constructor of a handle may throw. -/
structure MigrationEnvironment where
  addrLookup : ℤ
  remiProviderId : ReturnCode
  providerHandleCreate : ℤ
  throws : Bool
  suffix : String
  filesetCreate : String → ℤ
  registerDirectory : String → ℤ
  registerFile : String → ℤ
  registerMetadata : String → ℤ
  migrate : ℤ × ℤ

/-- `remi_fileset_register_directory` or `remi_fileset_register_file`. -/
def MigrationEnvironment.register (env : MigrationEnvironment) (file : String) : ℤ :=
  if file.toList.getLast? = some '/' then env.registerDirectory file else env.registerFile file

/-- The keys of the metadata, in the order in which they are registered. -/
def metadataKeys : List String := ["db_config", "type", "migration_config"]

section

variable {σ κ : Type} [Migratable σ κ]

open Migratable

/-- `startMigration`. -/
def startMigration (env : MigrationEnvironment) (s : σ) : Except Status MigrationHandle :=
  if migrated s then .error .Migrated
  else if env.throws then .error .IOError
  else .ok (handle s env.suffix)

/-- The destructor of a migration handle. -/
def releaseHandle (canceled : Bool) (s : σ) : σ := if canceled then s else close s

/-- The part of `yk_provider_migrate_database` behind `startMigration`, with the handle `mh`. -/
def migrateHandle (env : MigrationEnvironment) (s : σ) (mh : MigrationHandle) :
    ReturnCode × Option σ :=
  if env.filesetCreate mh.root ≠ 0 then (.ERR_FROM_REMI, some (releaseHandle false s))
  else if mh.files.any (fun file => env.register file ≠ 0) then
    (.ERR_FROM_REMI, some (releaseHandle false s))
  else if metadataKeys.any (fun key => env.registerMetadata key ≠ 0) then
    (.ERR_FROM_REMI, some (releaseHandle false s))
  else if env.migrate.2 ≠ 0 then (.ERR_FROM_REMI, some (releaseHandle true s))
  else if env.migrate.1 ≠ 0 then (.ERR_FROM_REMI, some (releaseHandle true s))
  else (.SUCCESS, none)

/-- `yk_provider_migrate_database`, for a provider with the database `db`: what it returns, and the
database of the provider afterwards. -/
def migrateDatabase (env : MigrationEnvironment) (destAddr : Option String) (db : Option σ) :
    ReturnCode × Option σ :=
  match destAddr, db with
  | none, _ => (.ERR_INVALID_ARGS, db)
  | some _, none => (.ERR_INVALID_DATABASE, none)
  | some _, some s =>
    if env.addrLookup ≠ 0 then (.ERR_FROM_MERCURY, some s)
    else if env.remiProviderId ≠ .SUCCESS then (env.remiProviderId, some s)
    else if env.providerHandleCreate ≠ 0 then (.ERR_FROM_REMI, some s)
    else
      match startMigration env s with
      | .error status => (status.code, some s)
      | .ok mh => migrateHandle env s mh

/-! ### What an error leaves behind -/

/-- The function gets as far as `startMigration`. -/
def MigrationEnvironment.Reached (env : MigrationEnvironment) (destAddr : Option String) : Prop :=
  destAddr ≠ none ∧ env.addrLookup = 0 ∧ env.remiProviderId = .SUCCESS ∧
    env.providerHandleCreate = 0

/-- The fileset is created, and everything is registered with it. -/
def MigrationEnvironment.Registered (env : MigrationEnvironment) (mh : MigrationHandle) : Prop :=
  env.filesetCreate mh.root = 0 ∧ (∀ file ∈ mh.files, env.register file = 0) ∧
    ∀ key ∈ metadataKeys, env.registerMetadata key = 0

/-- The provider still has its database, with its contents, and it is not migrated. -/
def Intact (s : σ) (db : Option σ) : Prop :=
  ∃ s', db = some s' ∧ contents s' = contents s ∧ migrated s' = false

theorem intact_some_iff {s : σ} : Intact s (some s) ↔ migrated s = false := by
  constructor
  · rintro ⟨s', hs, -, hm⟩
    rw [Option.some.inj hs]
    exact hm
  · exact fun hm => ⟨s, rfl, rfl, hm⟩

/-- A handle that is released without being canceled leaves no database intact. -/
theorem not_intact_release (s : σ) : ¬ Intact s (some (releaseHandle false s)) := by
  rintro ⟨s', hs, -, hm⟩
  have hclose : migrated s' = true := by
    rw [← Option.some.inj hs]
    exact migrated_close s
  rw [hclose] at hm
  cases hm

theorem startMigration_eq_ok {env : MigrationEnvironment} {s : σ} {mh : MigrationHandle}
    (h : startMigration env s = .ok mh) : migrated s = false := by
  unfold startMigration at h
  split_ifs at h with hmigrated
  exact Bool.eq_false_iff.2 hmigrated

theorem startMigration_eq_error {env : MigrationEnvironment} {s : σ} {status : Status}
    (h : startMigration env s = .error status) : status.code ≠ .SUCCESS := by
  unfold startMigration at h
  split_ifs at h
  all_goals
    obtain rfl := Except.error.inj h
    decide

/-- Before the handle is taken, an error leaves the database alone. -/
theorem migrateDatabase_of_not_reached {env : MigrationEnvironment} {destAddr : Option String}
    {s : σ} (h : ¬ env.Reached destAddr) :
    (migrateDatabase env destAddr (some s)).1 ≠ .SUCCESS ∧
      (migrateDatabase env destAddr (some s)).2 = some s := by
  unfold migrateDatabase
  cases destAddr with
  | none => exact ⟨by simp, rfl⟩
  | some addr =>
    dsimp only
    split_ifs with haddr hid hph
    · exact ⟨by simp, rfl⟩
    · exact ⟨hid, rfl⟩
    · exact ⟨by simp, rfl⟩
    · exact absurd ⟨by simp, not_not.1 haddr, not_not.1 hid, not_not.1 hph⟩ h

theorem migrateDatabase_of_reached {env : MigrationEnvironment} {destAddr : Option String}
    (h : env.Reached destAddr) (s : σ) :
    migrateDatabase env destAddr (some s) =
      match startMigration env s with
      | .error status => (status.code, some s)
      | .ok mh => migrateHandle env s mh := by
  obtain ⟨hdest, haddr, hid, hph⟩ := h
  obtain ⟨addr, rfl⟩ := Option.ne_none_iff_exists'.1 hdest
  simp [migrateDatabase, haddr, hid, hph]

/-- Behind `startMigration`, the database is emptied unless everything is registered; if it is, the
transfer decides. -/
theorem migrateHandle_spec (env : MigrationEnvironment) (s : σ) (mh : MigrationHandle) :
    (¬ env.Registered mh → migrateHandle env s mh = (.ERR_FROM_REMI, some (releaseHandle false s))) ∧
    (env.Registered mh → migrateHandle env s mh =
      if env.migrate = (0, 0) then (.SUCCESS, none) else (.ERR_FROM_REMI, some s)) := by
  have hfiles : (mh.files.any fun file => decide (env.register file ≠ 0)) = true ↔
      ¬ ∀ file ∈ mh.files, env.register file = 0 := by simp
  have hkeys : (metadataKeys.any fun key => decide (env.registerMetadata key ≠ 0)) = true ↔
      ¬ ∀ key ∈ metadataKeys, env.registerMetadata key = 0 := by simp
  unfold migrateHandle MigrationEnvironment.Registered
  simp only [hfiles, hkeys]
  constructor
  · intro hfail
    by_cases hcreate : env.filesetCreate mh.root = 0
    · rw [if_neg (not_not.2 hcreate)]
      by_cases hfile : ∀ file ∈ mh.files, env.register file = 0
      · rw [if_neg (not_not.2 hfile), if_pos fun hkey => hfail ⟨hcreate, hfile, hkey⟩]
      · rw [if_pos hfile]
    · rw [if_pos hcreate]
  · rintro ⟨hcreate, hfile, hkey⟩
    rw [if_neg (not_not.2 hcreate), if_neg (not_not.2 hfile), if_neg (not_not.2 hkey)]
    by_cases hstatus : env.migrate.2 = 0
    · by_cases hret : env.migrate.1 = 0
      · rw [if_neg (not_not.2 hstatus), if_neg (not_not.2 hret), if_pos (Prod.ext hret hstatus)]
      · rw [if_neg (not_not.2 hstatus), if_pos hret, if_neg fun he => hret (by rw [he])]
        rfl
    · rw [if_pos hstatus, if_neg fun he => hstatus (by rw [he])]
      rfl

/-- An error leaves the database of a provider intact exactly if the database was not migrated
before and, when its handle was taken, everything was registered with REMI. -/
theorem migrateDatabase_atomic_iff (env : MigrationEnvironment) (destAddr : Option String) (s : σ) :
    ((migrateDatabase env destAddr (some s)).1 ≠ .SUCCESS →
        Intact s (migrateDatabase env destAddr (some s)).2) ↔
      migrated s = false ∧ (env.Reached destAddr → ∀ mh, startMigration env s = .ok mh →
        env.Registered mh) := by
  by_cases hreached : env.Reached destAddr
  · rw [migrateDatabase_of_reached hreached]
    cases hstart : startMigration env s with
    | error status =>
      have herr := startMigration_eq_error hstart
      dsimp only
      rw [intact_some_iff]
      exact ⟨fun h => ⟨h herr, fun _ _ hmh => nomatch hmh⟩, fun h _ => h.1⟩
    | ok mh =>
      obtain ⟨hlost, hkept⟩ := migrateHandle_spec env s mh
      have hmigrated := startMigration_eq_ok hstart
      dsimp only
      by_cases hregistered : env.Registered mh
      · rw [hkept hregistered]
        refine ⟨fun _ => ⟨hmigrated, fun _ mh' hmh' => ?_⟩, fun _ => ?_⟩
        · rwa [← Except.ok.inj hmh']
        · split_ifs
          · exact fun h => absurd rfl h
          · exact fun _ => intact_some_iff.2 hmigrated
      · rw [hlost hregistered]
        refine ⟨fun h => absurd (h (by simp)) (not_intact_release s), fun h => ?_⟩
        exact absurd (h.2 hreached mh rfl) hregistered
  · obtain ⟨herr, hsame⟩ := migrateDatabase_of_not_reached (s := s) hreached
    rw [hsame, intact_some_iff]
    exact ⟨fun h => ⟨h herr, fun h' => absurd h' hreached⟩, fun h _ => h.1⟩

end

/-- REMI refuses to create a fileset, and every other call would succeed. -/
def noFileset : MigrationEnvironment where
  addrLookup := 0
  remiProviderId := .SUCCESS
  providerHandleCreate := 0
  throws := false
  suffix := "abcdef"
  filesetCreate _ := 1
  registerDirectory _ := 0
  registerFile _ := 0
  registerMetadata _ := 0
  migrate := (0, 0)

/-- A `map` database with one key is migrated and empty after the failure. -/
theorem entries_lost_without_fileset :
    ¬ ∀ (env : MigrationEnvironment) (destAddr : Option String) (s : MapDatabase .default),
      s.migrated = false → (migrateDatabase env destAddr (some s)).1 ≠ .SUCCESS →
        Intact s (migrateDatabase env destAddr (some s)).2 := by
  intro h
  have hr : migrateDatabase noFileset (some "na+sm://1-0")
      (some ((MapDatabase.empty .default).emplace [1] [2])) =
        (.ERR_FROM_REMI, some (releaseHandle false ((MapDatabase.empty .default).emplace [1] [2]))) :=
    rfl
  have hlost := h noFileset (some "na+sm://1-0") ((MapDatabase.empty .default).emplace [1] [2]) rfl
    (by rw [hr]; simp)
  rw [hr] at hlost
  exact not_intact_release _ hlost

end Yokan
