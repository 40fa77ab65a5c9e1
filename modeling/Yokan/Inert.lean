import Yokan.ProviderMigration
import Yokan.DocMixinListing
import Yokan.LogIteration

/-!
# Yokan: what a migrated database answers

Once a migration handle is destroyed without having been canceled, the database is empty and
`m_migrated` is set, and the database is still there to be asked. A `Request` is an operation of
`DatabaseInterface` with its arguments, and `Serves.serve` runs it on a database: on a `map` database
with its documents, on an `array` database and on a `log` database.

* `MapDatabase` looks at `m_migrated` in every operation, but its document mixin answers
  `collSize` and `collLastID` from a cache that the migration does not touch;
* `ArrayDatabase` looks at `m_migrated` in `startMigration` alone, so that it creates collections
  and stores documents after its migration as before;
* `LogDatabase` does not look at `m_migrated` either, but the directory is gone, and with it the
  files of a new collection: the constructor of the collection throws.

`migrated_inert_iff` says which requests tell the three apart from a database that accepts nothing and
reports nothing.
-/

namespace Yokan

open Transition

/-! ### Requests -/

/-- An operation of `DatabaseInterface` with its arguments. -/
inductive Request : Type 1
  | count (mode : Mode) (c : UInt64)
  | existsKeys (mode : Mode) (keys : Bytes) (ksizes : List ℕ) (flags : List Bool)
  | length (mode : Mode) (keys : Bytes) (ksizes vsizes : List ℕ)
  | put (mode : Mode) (keys : Bytes) (ksizes : List ℕ) (vals : Bytes) (vsizes : List ℕ)
  | get (mode : Mode) (packed : Bool) (keys : Bytes) (ksizes : List ℕ) (vals : Bytes)
      (vsizes : List ℕ)
  | fetch {υ : Type} (mode : Mode) (keys : Bytes) (ksizes : List ℕ)
      (func : υ → Bytes → Option Bytes → Status × υ) (u : υ)
  | erase (mode : Mode) (keys : Bytes) (ksizes : List ℕ)
  | listKeys (mode : Mode) (packed : Bool) (fromKey : Bytes) (filter : KeyValueFilter)
      (keys : Bytes) (keySizes : List ℕ)
  | listKeyValues (mode : Mode) (packed : Bool) (fromKey : Bytes) (filter : KeyValueFilter)
      (keys : Bytes) (keySizes : List ℕ) (vals : Bytes) (valSizes : List ℕ)
  | iter {υ : Type} (mode : Mode) (max : ℕ) (fromKey : Bytes) (filter : KeyValueFilter)
      (ignoreValues : Bool) (func : υ → Bytes → Bytes → Status × υ) (u : υ)
  | collCreate (mode : Mode) (name : CString)
  | collDrop (mode : Mode) (name : CString)
  | collExists (mode : Mode) (name : CString)
  | collLastID (mode : Mode) (name : CString) (id : UInt64)
  | collSize (mode : Mode) (name : CString) (size : UInt64)
  | docSize (name : CString) (mode : Mode) (ids : List UInt64) (sizes : List ℕ)
  | docStore (name : CString) (mode : Mode) (documents : Bytes) (sizes : List ℕ)
      (ids : List UInt64)
  | docUpdate (name : CString) (mode : Mode) (ids : List UInt64) (documents : Bytes)
      (sizes : List ℕ)
  | docLoad (name : CString) (mode : Mode) (packed : Bool) (ids : List UInt64)
      (documents : Bytes) (sizes : List ℕ)
  | docFetch {υ : Type} (name : CString) (mode : Mode) (ids : List UInt64)
      (func : υ → UInt64 → Option Bytes → Status × υ) (u : υ)
  | docErase (name : CString) (mode : Mode) (ids : List UInt64)
  | docList (name : CString) (mode : Mode) (packed : Bool) (fromId : UInt64)
      (filter : SizedDocFilter) (ids : List UInt64) (documents : Bytes) (docSizes : List ℕ)
  | docIter {υ : Type} (name : CString) (mode : Mode) (max : ℕ) (fromId : UInt64)
      (filter : SizedDocFilter) (func : υ → UInt64 → Bytes → Status × υ) (u : υ)

/-- The operations that add content or report how much there is. -/
def Request.AddsOrCounts : Request → Prop
  | .put .. | .collCreate .. | .docStore .. | .docUpdate .. => True
  | .count .. | .collSize .. | .collLastID .. => True
  | _ => False

/-- A database that answers requests: its status and the database it leaves, given a number of
fetches for the loop of `LogDatabase::docIter`. There is no answer when an exception leaves the
operation, or when the loop needs another fetch. -/
class Serves (σ : Type) (κ : outParam Type) extends Migratable σ κ where
  serve : ℕ → σ → Request → Option (Status × σ)

/-- A request as a step, labelled with the request and the status of its answer. -/
def Answers {σ κ : Type} [Serves σ κ] (s : σ) (a : Request × Status) (t : σ) : Prop :=
  ∃ fetches, Serves.serve fetches s a.1 = some (a.2, t)

/-- What is expected of a database that was `s` when its migration handle was destroyed and is `t`
after some answers: it accepted nothing, reported no size and has no content. -/
structure Inert {σ κ : Type} [Serves σ κ] (s : σ) (answers : List (Request × Status)) (t : σ) :
    Prop where
  not_ok : ∀ a ∈ answers, a.1.AddsOrCounts → a.2 ≠ .OK
  contents_eq : Migratable.contents t = Migratable.contents (Migratable.close s)

/-! ### The `map` backend with its documents -/

/-- `MapDatabase` under any comparator. The laws about listings hold when the comparator is the
default one, whose order is the order of the bytes. -/
instance (priority := low) {c : Comparator} : ListingStore (MapDatabase c) where
  contents := MapDatabase.find
  Serving s := s.migrated = false ∧ c = .default
  existsKeys_eq hs := FiniteMapStore.existsKeys_eq (σ := MapDatabase c) hs.1
  existsKeys_invalid := FiniteMapStore.existsKeys_invalid (σ := MapDatabase c)
  length_eq hs := FiniteMapStore.length_eq (σ := MapDatabase c) hs.1
  put_status hs := FiniteMapStore.put_status (σ := MapDatabase c) hs.1
  put_contents hs hk hv hlen :=
    let h := FiniteMapStore.put_contents (σ := MapDatabase c) hs.1 hk hv hlen
    ⟨⟨h.1, hs.2⟩, h.2⟩
  put_invalid := FiniteMapStore.put_invalid (σ := MapDatabase c)
  get_contents hs hwait hk hlen :=
    let h := FiniteMapStore.get_contents (σ := MapDatabase c) hs.1 hwait hk hlen
    ⟨h.1, ⟨h.2.1, hs.2⟩, h.2.2⟩
  get_invalid := FiniteMapStore.get_invalid (σ := MapDatabase c)
  get_packed hs := FiniteMapStore.get_packed (σ := MapDatabase c) hs.1
  fetch_eq hs := FiniteMapStore.fetch_eq (σ := MapDatabase c) hs.1
  erase_eq hs hwait hk :=
    let h := FiniteMapStore.erase_eq (σ := MapDatabase c) hs.1 hwait hk
    ⟨h.1, ⟨h.2.1, hs.2⟩, h.2.2⟩
  listKeyValues mode packed s := s.listKeyValues mode packed
  iter mode max s := s.iter mode max
  entries s := s.db.toList
  sorted_entries _ hs := by
    obtain ⟨-, rfl⟩ := hs
    exact MapDatabase.sorted_toList _
  mem_entries _ _ := Std.ExtTreeMap.mem_toList_iff_getElem?_eq_some
  listKeyValues_eq hsorted hs := by
    obtain ⟨hs, rfl⟩ := hs
    exact ListingStore.listKeyValues_eq (σ := MapDatabase .default) hsorted hs
  iter_eq hsorted hs := by
    obtain ⟨hs, rfl⟩ := hs
    exact ListingStore.iter_eq (σ := MapDatabase .default) hsorted hs
  get_slots hs hwait hk hlen := InMemory.getOrConsume_slots hs.1 hwait hk hlen
  get_congr hs ht hwait hk h := InMemory.getOrConsume_congr hs.1 ht.1 hwait hk h

namespace MapDatabase

variable {c : Comparator}

/-- `MapDatabase::count`, over the caller's `n`. -/
def count (s : MapDatabase c) (n : UInt64) : Status × UInt64 :=
  if s.migrated then (.Migrated, n) else (.OK, UInt64.ofNat s.db.size)

section Migrated

variable {s : MapDatabase c} (hs : s.migrated = true)

include hs

theorem put_of_migrated (mode : Mode) (keys : Bytes) (ksizes : List ℕ) (vals : Bytes)
    (vsizes : List ℕ) :
    (DatabaseInterface.put mode s keys ksizes vals vsizes).1 ≠ .OK ∧
      (DatabaseInterface.put mode s keys ksizes vals vsizes).2 = s := by
  show (putWith migrated putBody mode s keys ksizes vals vsizes).1 ≠ .OK ∧
    (putWith migrated putBody mode s keys ksizes vals vsizes).2 = s
  unfold putWith
  split_ifs <;> exact ⟨by simp, rfl⟩

theorem get_of_migrated (mode : Mode) (packed : Bool) (keys : Bytes) (ksizes : List ℕ)
    (vals : Bytes) (vsizes : List ℕ) :
    (DatabaseInterface.get mode packed s keys ksizes vals vsizes).status ≠ .OK ∧
      (DatabaseInterface.get mode packed s keys ksizes vals vsizes).db = s := by
  show (getOrConsume find migrated erase mode packed s keys ksizes vals vsizes).status ≠ .OK ∧
    (getOrConsume find migrated erase mode packed s keys ksizes vals vsizes).db = s
  unfold getOrConsume
  split_ifs <;> exact ⟨by simp, rfl⟩

theorem fetch_of_migrated {υ : Type} (mode : Mode) (keys : Bytes) (ksizes : List ℕ)
    (func : υ → Bytes → Option Bytes → Status × υ) (u : υ) :
    DatabaseInterface.fetch mode s keys ksizes func u = (.Migrated, s, u) := if_pos hs

theorem erase_of_migrated (mode : Mode) (keys : Bytes) (ksizes : List ℕ) :
    DatabaseInterface.erase mode s keys ksizes = (.Migrated, s) := if_pos hs

theorem existsKeys_of_migrated (mode : Mode) (keys : Bytes) (ksizes : List ℕ)
    (flags : List Bool) : (DatabaseInterface.existsKeys mode s keys ksizes flags).1 ≠ .OK := by
  show (existsWith s.find s.migrated mode keys ksizes flags).1 ≠ .OK
  unfold existsWith
  split_ifs <;> simp

theorem length_of_migrated (mode : Mode) (keys : Bytes) (ksizes vsizes : List ℕ) :
    (DatabaseInterface.length mode s keys ksizes vsizes).1 ≠ .OK := by
  show (lengthWith s.find s.migrated mode keys ksizes vsizes).1 ≠ .OK
  unfold lengthWith
  split_ifs <;> simp

end Migrated

end MapDatabase

namespace DocumentStoreMixin

variable {c : Comparator}

/-- A `map` database answers a request. Its key/value operations are those of `MapDatabase`, the
others those of the mixin. -/
def serveMap (s : DocumentStoreMixin (MapDatabase c)) :
    Request → Option (Status × DocumentStoreMixin (MapDatabase c))
  | .count _ n => some ((s.db.count n).1, s)
  | .existsKeys mode keys ksizes flags => some ((s.db.existsKeys mode keys ksizes flags).1, s)
  | .length mode keys ksizes vsizes => some ((s.db.length mode keys ksizes vsizes).1, s)
  | .put mode keys ksizes vals vsizes =>
    let r := s.db.put mode keys ksizes vals vsizes
    some (r.1, { s with db := r.2 })
  | .get mode packed keys ksizes vals vsizes =>
    let r := s.db.get mode packed keys ksizes vals vsizes
    some (r.status, { s with db := r.db })
  | .fetch mode keys ksizes func u =>
    let r := s.db.fetch mode keys ksizes func u
    some (r.1, { s with db := r.2.1 })
  | .erase mode keys ksizes =>
    let r := s.db.erase mode keys ksizes
    some (r.1, { s with db := r.2 })
  | .listKeys mode packed fromKey filter keys keySizes =>
    some ((s.db.listKeys mode packed fromKey filter keys keySizes).1, s)
  | .listKeyValues mode packed fromKey filter keys keySizes vals valSizes =>
    some ((s.db.listKeyValues mode packed fromKey filter keys keySizes vals valSizes).1, s)
  | .iter mode max fromKey filter ignoreValues func u =>
    some ((s.db.iter mode max fromKey filter ignoreValues func u).1, s)
  | .collCreate _ name => some (s.collCreate name)
  | .collDrop mode name => s.collDrop mode name
  | .collExists _ name => some ((s.collExists name).1, s)
  | .collLastID _ name _ =>
    let (status, _, s) := s.collLastID name
    some (status, s)
  | .collSize _ name _ =>
    let (status, _, s) := s.collSize name
    some (status, s)
  | .docSize name mode ids sizes => (s.docSize name mode ids sizes).map fun r => (r.1, s)
  | .docStore name mode documents sizes ids =>
    (s.docStore name mode documents sizes ids).map fun r => (r.1, r.2.2)
  | .docUpdate name mode ids documents sizes => s.docUpdate name mode ids documents sizes
  | .docLoad name mode packed ids documents sizes =>
    (s.docLoad name mode packed ids documents sizes).map fun r => (r.1, r.2.2)
  | .docFetch name mode ids func u =>
    (s.docFetch name mode ids func u).map fun r => (r.1, r.2.1)
  | .docErase name mode ids => s.docErase name mode ids
  | .docList name mode packed fromId filter ids documents docSizes =>
    let (status, _, s) :=
      s.docList name mode packed fromId filter.toDocFilter ids documents docSizes
    some (status, s)
  | .docIter name mode max fromId filter func u =>
    let (status, s, _) := s.docIter name mode max fromId filter.toDocFilter func u
    some (status, s)

instance : Serves (DocumentStoreMixin (MapDatabase c)) (Std.ExtTreeMap Bytes Bytes c.cmp) where
  contents s := s.db.db
  migrated s := s.db.migrated
  handle s := Migratable.handle s.db
  close s := { s with db := Migratable.close s.db }
  migrated_close _ := rfl
  serve _ := serveMap

/-! ### After the migration of a `map` database -/

/-- What a migrated database keeps: its store, and which collections are in its cache. -/
structure Lingers (s t : DocumentStoreMixin (MapDatabase c)) : Prop where
  db_eq : t.db = s.db
  cached_iff (name : Bytes) : t.cached name = none ↔ s.cached name = none

theorem Lingers.refl (s : DocumentStoreMixin (MapDatabase c)) : Lingers s s :=
  ⟨rfl, fun _ => Iff.rfl⟩

theorem Lingers.trans {s t u : DocumentStoreMixin (MapDatabase c)} (hst : Lingers s t)
    (htu : Lingers t u) : Lingers s u :=
  ⟨htu.db_eq.trans hst.db_eq, fun name => (htu.cached_iff name).trans (hst.cached_iff name)⟩

section Migrated

variable {s : DocumentStoreMixin (MapDatabase c)} (hs : s.db.migrated = true)

include hs

theorem collExistsImpl_of_migrated (name : CString) : (s.collExistsImpl name).1 ≠ .OK := by
  unfold collExistsImpl
  split_ifs
  · simp
  · exact MapDatabase.length_of_migrated hs _ _ _ _

/-- The metadata of a collection is found if it is in the cache, and nowhere else. -/
theorem collGetMetadata_of_migrated (name : CString) (metadata : CollectionMetadata) :
    (s.collGetMetadata name metadata).2.2 = s ∧
      ((s.collGetMetadata name metadata).1 = .OK ↔
        name.bytes ≠ [] ∧ s.cached name.bytes ≠ none) := by
  unfold collGetMetadata
  split_ifs with hname
  · simp [hname]
  · cases hcached : s.cached name.bytes with
    | some cached => simp [hname]
    | none =>
      obtain ⟨hstatus, hdb⟩ := MapDatabase.get_of_migrated hs .default true name.bytes
        [name.bytes.length] metadata.bytes [CollectionMetadata.sizeof]
      simp [hstatus, hdb]

theorem collCreate_of_migrated (name : CString) :
    (s.collCreate name).1 ≠ .OK ∧ (s.collCreate name).2 = s := by
  unfold collCreate
  simp only [collExistsImpl_of_migrated hs name, ne_eq, not_false_eq_true, if_true, and_self]

theorem collDrop_of_migrated {mode : Mode} {name : CString}
    {r : Status × DocumentStoreMixin (MapDatabase c)} (h : s.collDrop mode name = some r) :
    r.2 = s := by
  unfold collDrop at h
  simp only [collExistsImpl_of_migrated hs name, ne_eq, not_false_eq_true, if_true,
    Option.some.injEq] at h
  exact h ▸ rfl

/-- A store counts its documents in the cache before the `put` is refused. -/
theorem docStore_of_migrated {name : CString} {mode : Mode} {documents : Bytes}
    {sizes : List ℕ} {ids : List UInt64}
    {r : Status × List UInt64 × DocumentStoreMixin (MapDatabase c)}
    (h : s.docStore name mode documents sizes ids = some r) :
    r.1 ≠ .OK ∧ Lingers s r.2.2 := by
  obtain ⟨hsame, hok⟩ := collGetMetadata_of_migrated hs name {}
  rcases hget : s.collGetMetadata name {} with ⟨status, metadata, s'⟩
  rw [hget] at hsame hok
  dsimp only at hsame hok
  subst hsame
  unfold docStore at h
  rw [hget] at h
  dsimp only at h
  by_cases hstatus : status = .OK
  · obtain ⟨hname, hcached⟩ := hok.1 hstatus
    rw [if_neg (not_not.2 hstatus), collPutMetadata, if_neg hname] at h
    simp only [Bool.false_eq_true, if_false, ne_eq, not_true] at h
    split at h
    · cases h
    · next keys _ =>
      have hput := MapDatabase.put_of_migrated hs mode keys (idKeySizes name
        ((List.range ids.length).map fun i => metadata.nextId + UInt64.ofNat i)) documents sizes
      rw [if_pos hput.1, Option.some.injEq] at h
      subst h
      refine ⟨hput.1, hput.2, fun name' => ?_⟩
      dsimp only
      by_cases hname' : name' = name.bytes
      · subst hname'
        simp [hcached]
      · rw [Function.update_of_ne hname']
  · rw [if_pos hstatus, Option.some.injEq] at h
    subst h
    exact ⟨hstatus, .refl _⟩

theorem docUpdate_of_migrated {name : CString} {mode : Mode} {ids : List UInt64}
    {documents : Bytes} {sizes : List ℕ} {r : Status × DocumentStoreMixin (MapDatabase c)}
    (h : s.docUpdate name mode ids documents sizes = some r) : r.1 ≠ .OK ∧ r.2 = s := by
  obtain ⟨hsame, -⟩ := collGetMetadata_of_migrated hs name {}
  rcases hget : s.collGetMetadata name {} with ⟨status, metadata, s'⟩
  rw [hget] at hsame
  dsimp only at hsame
  subst hsame
  unfold docUpdate at h
  rw [hget] at h
  by_cases hname : name.bytes = []
  · rw [if_pos hname, Option.some.injEq] at h
    subst h
    exact ⟨by simp, rfl⟩
  rw [if_neg hname] at h
  split at h
  · cases h
  · next keys _ =>
    have hput := MapDatabase.put_of_migrated hs mode keys (idKeySizes name ids) documents sizes
    have hexists := MapDatabase.existsKeys_of_migrated hs mode keys (idKeySizes name ids)
      (List.replicate sizes.length false)
    dsimp only at h
    rw [if_pos hexists] at h
    split_ifs at h with hstatus
    · rw [Option.some.injEq] at h
      subst h
      exact ⟨hstatus, rfl⟩
    · rw [Option.some.injEq] at h
      subst h
      exact ⟨hexists, rfl⟩
    · obtain ⟨known, -, rfl⟩ := Option.map_eq_some_iff.1 h
      cases known with
      | false => exact ⟨by simp, rfl⟩
      | true => exact ⟨hput.1, by rw [hput.2]; rfl⟩

theorem docLoad_of_migrated {name : CString} {mode : Mode} {packed : Bool} {ids : List UInt64}
    {documents : Bytes} {sizes : List ℕ}
    {r : Status × GetOutput × DocumentStoreMixin (MapDatabase c)}
    (h : s.docLoad name mode packed ids documents sizes = some r) : r.2.2 = s := by
  unfold docLoad at h
  split_ifs at h
  · exact Option.some.inj h ▸ rfl
  · dsimp only at h
    rw [if_pos (collExistsImpl_of_migrated hs name)] at h
    exact Option.some.inj h ▸ rfl

theorem docFetch_of_migrated {υ : Type} {name : CString} {mode : Mode} {ids : List UInt64}
    {func : υ → UInt64 → Option Bytes → Status × υ} {u : υ}
    {r : Status × DocumentStoreMixin (MapDatabase c) × υ}
    (h : s.docFetch name mode ids func u = some r) : r.2.1 = s := by
  unfold docFetch at h
  split_ifs at h
  · exact Option.some.inj h ▸ rfl
  · dsimp only at h
    rw [if_pos (collExistsImpl_of_migrated hs name)] at h
    exact Option.some.inj h ▸ rfl

theorem docErase_of_migrated {name : CString} {mode : Mode} {ids : List UInt64}
    {r : Status × DocumentStoreMixin (MapDatabase c)}
    (h : s.docErase name mode ids = some r) : r.2 = s := by
  unfold docErase at h
  split_ifs at h
  · exact Option.some.inj h ▸ rfl
  · split at h
    · cases h
    · dsimp only at h
      rw [if_pos (MapDatabase.existsKeys_of_migrated hs _ _ _ _)] at h
      exact Option.some.inj h ▸ rfl

theorem docList_of_migrated (name : CString) (mode : Mode) (packed : Bool) (fromId : UInt64)
    (filter : DocFilter) (ids : List UInt64) (documents : Bytes) (docSizes : List ℕ) :
    (s.docList name mode packed fromId filter ids documents docSizes).2.2 = s := by
  have hsame := (collGetMetadata_of_migrated hs name {}).1
  unfold docList
  dsimp only
  split_ifs
  · rfl
  · rfl
  · exact hsame
  · exact hsame
  · exact absurd rfl ‹_›

theorem docIter_of_migrated {υ : Type} (name : CString) (mode : Mode) (max : ℕ)
    (fromId : UInt64) (filter : DocFilter) (func : υ → UInt64 → Bytes → Status × υ) (u : υ) :
    (s.docIter name mode max fromId filter func u).2.1 = s := by
  have hsame := (collGetMetadata_of_migrated hs name {}).1
  unfold docIter
  dsimp only
  split_ifs
  · rfl
  · exact hsame
  · exact hsame
  · exact absurd rfl ‹_›

end Migrated

/-- A request that the mixin answers from its cache. -/
def ReadsCache (s : DocumentStoreMixin (MapDatabase c)) : Request → Prop
  | .collLastID _ name _ | .collSize _ name _ => name.bytes ≠ [] ∧ s.cached name.bytes ≠ none
  | _ => False

/-- A migrated database refuses everything it does not answer from the cache. -/
theorem serveMap_of_migrated {s t : DocumentStoreMixin (MapDatabase c)}
    (hs : s.db.migrated = true) {r : Request} {status : Status}
    (h : s.serveMap r = some (status, t)) :
    Lingers s t ∧ (r.AddsOrCounts → (status = .OK ↔ s.ReadsCache r)) := by
  -- the requests that leave `s` as it is
  have hkept : ∀ {t}, t = s → Lingers s t := by
    rintro _ rfl
    exact .refl _
  -- a watched request that is refused is not one for the cache
  have hrefused : ∀ {P : Prop}, status ≠ .OK → ¬ P → (True → (status = .OK ↔ P)) :=
    fun hstatus hP _ => iff_of_false hstatus hP
  cases r with
  | count mode n =>
    obtain ⟨rfl, rfl⟩ := Prod.mk.inj (Option.some.inj h)
    refine ⟨.refl _, hrefused ?_ id⟩
    simp [MapDatabase.count, hs]
  | existsKeys | length | listKeys | listKeyValues | iter | collExists =>
    obtain ⟨rfl, rfl⟩ := Prod.mk.inj (Option.some.inj h)
    exact ⟨.refl _, fun hfalse => hfalse.elim⟩
  | put mode keys ksizes vals vsizes =>
    obtain ⟨hne, hdb⟩ := MapDatabase.put_of_migrated hs mode keys ksizes vals vsizes
    obtain ⟨rfl, rfl⟩ := Prod.mk.inj (Option.some.inj h)
    exact ⟨⟨hdb, fun _ => Iff.rfl⟩, hrefused hne id⟩
  | get mode packed keys ksizes vals vsizes =>
    obtain ⟨rfl, rfl⟩ := Prod.mk.inj (Option.some.inj h)
    exact ⟨⟨(MapDatabase.get_of_migrated hs mode packed keys ksizes vals vsizes).2,
      fun _ => Iff.rfl⟩, fun hfalse => hfalse.elim⟩
  | fetch mode keys ksizes func u =>
    obtain ⟨rfl, rfl⟩ := Prod.mk.inj (Option.some.inj h)
    exact ⟨⟨congrArg (·.2.1) (MapDatabase.fetch_of_migrated hs mode keys ksizes func u),
      fun _ => Iff.rfl⟩, fun hfalse => hfalse.elim⟩
  | erase mode keys ksizes =>
    obtain ⟨rfl, rfl⟩ := Prod.mk.inj (Option.some.inj h)
    exact ⟨⟨congrArg Prod.snd (MapDatabase.erase_of_migrated hs mode keys ksizes),
      fun _ => Iff.rfl⟩, fun hfalse => hfalse.elim⟩
  | collCreate mode name =>
    obtain ⟨hne, hsame⟩ := collCreate_of_migrated hs name
    have h : s.collCreate name = (status, t) := Option.some.inj h
    rw [h] at hne hsame
    exact ⟨hkept hsame, hrefused hne id⟩
  | collDrop => exact ⟨hkept (collDrop_of_migrated hs h), fun hfalse => hfalse.elim⟩
  | collLastID mode name id =>
    obtain ⟨hsame, hok⟩ := collGetMetadata_of_migrated hs name {}
    obtain ⟨rfl, rfl⟩ := Prod.mk.inj (Option.some.inj h)
    exact ⟨hkept hsame, fun _ => hok⟩
  | collSize mode name size =>
    obtain ⟨hsame, hok⟩ := collGetMetadata_of_migrated hs name {}
    obtain ⟨rfl, rfl⟩ := Prod.mk.inj (Option.some.inj h)
    exact ⟨hkept hsame, fun _ => hok⟩
  | docSize =>
    obtain ⟨r, -, hr⟩ := Option.map_eq_some_iff.1 h
    obtain ⟨rfl, rfl⟩ := Prod.mk.inj hr
    exact ⟨.refl _, fun hfalse => hfalse.elim⟩
  | docStore =>
    obtain ⟨r, hstore, hr⟩ := Option.map_eq_some_iff.1 h
    obtain ⟨rfl, rfl⟩ := Prod.mk.inj hr
    obtain ⟨hne, hlingers⟩ := docStore_of_migrated hs hstore
    exact ⟨hlingers, hrefused hne id⟩
  | docUpdate =>
    obtain ⟨hne, hsame⟩ := docUpdate_of_migrated hs h
    exact ⟨hkept hsame, hrefused hne id⟩
  | docLoad =>
    obtain ⟨r, hload, hr⟩ := Option.map_eq_some_iff.1 h
    obtain ⟨rfl, rfl⟩ := Prod.mk.inj hr
    exact ⟨hkept (docLoad_of_migrated hs hload), fun hfalse => hfalse.elim⟩
  | docFetch =>
    obtain ⟨r, hfetch, hr⟩ := Option.map_eq_some_iff.1 h
    obtain ⟨rfl, rfl⟩ := Prod.mk.inj hr
    exact ⟨hkept (docFetch_of_migrated hs hfetch), fun hfalse => hfalse.elim⟩
  | docErase => exact ⟨hkept (docErase_of_migrated hs h), fun hfalse => hfalse.elim⟩
  | docList =>
    obtain ⟨rfl, rfl⟩ := Prod.mk.inj (Option.some.inj h)
    exact ⟨hkept (docList_of_migrated hs _ _ _ _ _ _ _ _), fun hfalse => hfalse.elim⟩
  | docIter =>
    obtain ⟨rfl, rfl⟩ := Prod.mk.inj (Option.some.inj h)
    exact ⟨hkept (docIter_of_migrated hs _ _ _ _ _ _ _), fun hfalse => hfalse.elim⟩

/-- A request for the cache asks for a size or an id. -/
theorem ReadsCache.addsOrCounts {s : DocumentStoreMixin (MapDatabase c)} {r : Request}
    (h : s.ReadsCache r) : r.AddsOrCounts := by
  cases r <;> first | exact h.elim | trivial

theorem Lingers.readsCache_iff {s t : DocumentStoreMixin (MapDatabase c)} (h : Lingers s t)
    (r : Request) : t.ReadsCache r ↔ s.ReadsCache r := by
  cases r <;> simp only [ReadsCache, ne_eq, h.cached_iff]

/-- A migrated `map` database is inert as long as nobody asks it for the size or the last id of a
collection that was in the cache when it was migrated. -/
theorem inert_iff (s : DocumentStoreMixin (MapDatabase c)) {answers : List (Request × Status)}
    {t : DocumentStoreMixin (MapDatabase c)}
    (hrun : Run Answers (Migratable.close s) answers t) :
    Inert s answers t ↔ ∀ a ∈ answers, ¬ s.ReadsCache a.1 := by
  let s₀ : DocumentStoreMixin (MapDatabase c) := Migratable.close s
  have hstep : ∀ t (a : Request × Status) u, Lingers s₀ t → Answers t a u →
      Lingers s₀ u ∧ (a.1.AddsOrCounts → (a.2 = .OK ↔ s.ReadsCache a.1)) := by
    rintro t ⟨r, status⟩ u hlingers ⟨_, h⟩
    have hmigrated : t.db.migrated = true := by rw [hlingers.db_eq]; rfl
    obtain ⟨hnext, hok⟩ := serveMap_of_migrated hmigrated h
    have hread : t.ReadsCache r ↔ s.ReadsCache r := by
      rw [hlingers.readsCache_iff]
      cases r <;> rfl
    exact ⟨hlingers.trans hnext, fun hr => (hok hr).trans hread⟩
  obtain ⟨hiff, hkeep⟩ := hrun.labels_iff (I := Lingers s₀)
    (G := fun a => a.1.AddsOrCounts → a.2 ≠ .OK) (B := fun a => s.ReadsCache a.1)
    (fun t a u ht h hbad => ⟨(hstep t a u ht h).1, fun hr hok =>
      hbad (((hstep t a u ht h).2 hr).1 hok)⟩)
    (fun t a u ht h hbad hgood => hgood hbad.addsOrCounts
      (((hstep t a u ht h).2 hbad.addsOrCounts).2 hbad))
    (.refl _)
  refine ⟨fun h => hiff.1 h.not_ok, fun h => ⟨hiff.2 h, ?_⟩⟩
  show t.db.db = s₀.db.db
  rw [(hkeep h).db_eq]

end DocumentStoreMixin

/-! ### The `array` backend -/

namespace ArrayDatabase

/-- An `array` database answers a request. The key/value operations are those of
`DatabaseInterface`, which supports none. -/
def serve (s : Located ArrayDatabase) : Request → Option (Status × Located ArrayDatabase)
  | .collCreate _ name =>
    let (status, db) := s.db.collCreate name
    some (status, { s with db })
  | .collDrop _ name =>
    let (status, db) := s.db.collDrop name
    some (status, { s with db })
  | .collExists _ name => some ((s.db.collExists name).1, s)
  | .collLastID _ name id => some ((s.db.collLastID name id).1, s)
  | .collSize _ name size => some ((s.db.collSize name size).1, s)
  | .docSize name _ ids sizes => some ((s.db.docSize name ids sizes).1, s)
  | .docStore name _ documents sizes ids =>
    (s.db.docStore name documents sizes ids).map fun (status, _, db) => (status, { s with db })
  | .docUpdate name mode ids documents sizes =>
    (s.db.docUpdate name mode ids documents sizes).map fun (status, db) => (status, { s with db })
  | .docLoad name _ packed ids documents sizes =>
    some ((s.db.docLoad name packed ids documents sizes).1, s)
  | .docFetch name _ ids func u => some ((s.db.docFetch name ids func u).1, s)
  | .docErase name _ ids =>
    let (status, db) := s.db.docErase name ids
    some (status, { s with db })
  | .docList name _ packed fromId filter ids documents docSizes =>
    (s.db.docList name packed fromId filter ids documents docSizes).map fun r => (r.1, s)
  | .docIter name _ max fromId filter func u =>
    (s.db.docIter name max fromId filter func u).map fun r => (r.1, s)
  | _ => some (.NotSupported, s)

instance : Serves (Located ArrayDatabase) (CString → Option ArrayCollection) where
  serve _ := serve

/-- A request for a new collection. -/
def Creates : Request → Prop
  | .collCreate .. => True
  | _ => False

/-- Without collections, every other request is refused or leaves the database as it is. -/
theorem serve_of_empty {s t : Located ArrayDatabase} (hs : s.db = .empty) {r : Request}
    {status : Status} (h : serve s r = some (status, t)) (hr : ¬ Creates r) :
    t = s ∧ (r.AddsOrCounts → status ≠ .OK) := by
  obtain ⟨db, path, migrated⟩ := s
  subst hs
  cases r with
  | collCreate => exact absurd trivial hr
  | _ =>
    obtain ⟨rfl, rfl⟩ := Prod.mk.inj (Option.some.inj h)
    refine ⟨rfl, fun hwatched => ?_⟩
    first | exact hwatched.elim | simp [collLastID, collSize, empty]

/-- Without collections, a collection is created, migrated or not. -/
theorem serve_creates {s t : Located ArrayDatabase} (hs : s.db = .empty) {r : Request}
    {status : Status} (h : serve s r = some (status, t)) (hr : Creates r) :
    r.AddsOrCounts ∧ status = .OK := by
  obtain ⟨db, path, migrated⟩ := s
  subst hs
  cases r with
  | collCreate mode name =>
    obtain ⟨rfl, rfl⟩ := Prod.mk.inj (Option.some.inj h)
    exact ⟨trivial, rfl⟩
  | _ => exact hr.elim

/-- A migrated `array` database is inert as long as nobody asks it for a collection. -/
theorem inert_iff (s : Located ArrayDatabase) {answers : List (Request × Status)}
    {t : Located ArrayDatabase} (hrun : Run Answers (Migratable.close s) answers t) :
    Inert s answers t ↔ ∀ a ∈ answers, ¬ Creates a.1 := by
  obtain ⟨hiff, hkeep⟩ := hrun.labels_iff (I := fun t => t = Migratable.close s)
    (G := fun a => a.1.AddsOrCounts → a.2 ≠ .OK) (B := fun a => Creates a.1)
    (fun t a u ht ⟨_, h⟩ hother =>
      let hstep := serve_of_empty (by rw [ht]; rfl) h hother
      ⟨hstep.1.trans ht, hstep.2⟩)
    (fun t a u ht ⟨_, h⟩ hcreates hgood =>
      let hstep := serve_creates (by rw [ht]; rfl) h hcreates
      hgood hstep.1 hstep.2)
    rfl
  exact ⟨fun h => hiff.1 h.not_ok, fun h => ⟨hiff.2 h, by rw [hkeep h]⟩⟩

end ArrayDatabase

/-! ### The `log` backend -/

/-- A `log` database and its directory, which is `present` until `destroy` removes it. No collection
is open while it is missing. -/
structure LogStore extends Located LogDatabase where
  present : Bool

namespace LogStore

/-- A `log` database answers a request. The constructor of a collection throws when it cannot open
its files; the key/value operations are those of `DatabaseInterface`. -/
def serve (fetches : ℕ) (s : LogStore) : Request → Option (Status × LogStore)
  | .collCreate _ name =>
    let (status, db) := s.db.collCreate name
    if !s.present && status == .OK then none else some (status, { s with db })
  | .collDrop _ name =>
    let (status, db) := s.db.collDrop name
    some (status, { s with db })
  | .collExists _ name => some ((s.db.collExists name).1, s)
  | .collLastID _ name id => some ((s.db.collLastID name id).1, s)
  | .collSize _ name size => some ((s.db.collSize name size).1, s)
  | .docSize name _ ids sizes => some ((s.db.docSize name ids sizes).1, s)
  | .docStore name _ documents sizes ids =>
    (s.db.docStore name documents sizes ids).toOption.map
      fun (status, _, db) => (status, { s with db })
  | .docUpdate name mode ids documents sizes =>
    (s.db.docUpdate name mode ids documents sizes).toOption.map
      fun (status, db) => (status, { s with db })
  | .docLoad name _ packed ids documents sizes =>
    (s.db.docLoad name packed ids documents sizes).toOption.map
      fun (status, _, _, db) => (status, { s with db })
  | .docFetch name _ ids func u =>
    (s.db.docFetch name ids func u).toOption.map fun (status, _, db) => (status, { s with db })
  | .docErase name _ ids =>
    (s.db.docErase name ids).toOption.map fun (status, db) => (status, { s with db })
  | .docList name _ packed fromId filter ids documents docSizes => do
    let r ← s.db.docList name packed fromId filter ids documents docSizes fetches
    let (answer, db) ← r.toOption
    answer.map fun (status, _) => (status, { s with db })
  | .docIter name _ max fromId filter func u => do
    let r ← s.db.docIter name max fromId filter func fetches u
    let (answer, db) ← r.toOption
    answer.map fun (status, _) => (status, { s with db })
  | _ => some (.NotSupported, s)

instance : Serves LogStore LogDatabase where
  contents s := s.db
  migrated s := s.migrated
  handle s := Migratable.handle s.toLocated
  close s := { toLocated := Migratable.close s.toLocated, present := false }
  migrated_close _ := rfl
  serve := serve

/-- Without collections and without a directory, every request is refused or leaves the database as
it is. -/
theorem serve_of_missing {fetches : ℕ} {s t : LogStore}
    (hopen : ∀ name, s.db.collections name = none) (hmissing : s.present = false) {r : Request} {status : Status}
    (h : serve fetches s r = some (status, t)) :
    t = s ∧ (r.AddsOrCounts → status ≠ .OK) := by
  cases r with
  | collCreate mode name => simp [serve, LogDatabase.collCreate, hopen, hmissing] at h
  | _ =>
    simp [serve, LogDatabase.collDrop, LogDatabase.collLastID, LogDatabase.collSize,
      LogDatabase.docSize, LogDatabase.docStore, LogDatabase.docUpdate, LogDatabase.docLoad,
      LogDatabase.docFetch, LogDatabase.docErase, LogDatabase.docList, LogDatabase.docIter, hopen,
      Except.toOption] at h
    obtain ⟨rfl, rfl⟩ := h
    refine ⟨rfl, fun hwatched => ?_⟩
    first | exact hwatched.elim | simp

/-- A migrated `log` database is inert. -/
theorem inert (s : LogStore) {answers : List (Request × Status)} {t : LogStore}
    (hrun : Run Answers (Migratable.close s) answers t) : Inert s answers t := by
  obtain ⟨hiff, hkeep⟩ := hrun.labels_iff (I := fun t => t = Migratable.close s)
    (G := fun a => a.1.AddsOrCounts → a.2 ≠ .OK) (B := fun _ => False)
    (fun t a u ht ⟨_, h⟩ _ =>
      let hstep := serve_of_missing (by rw [ht]; exact fun _ => rfl) (by rw [ht]; rfl) h
      ⟨hstep.1.trans ht, hstep.2⟩)
    (fun _ _ _ _ _ hfalse => hfalse.elim)
    rfl
  exact ⟨hiff.2 fun _ _ => id, by rw [hkeep fun _ _ => id]⟩

end LogStore

/-! ### The three backends -/

/-- After any sequence of requests, a migrated `map` database is inert if and only if it was not
asked for the size or the last id of a collection it had in its cache; an `array` database if and
only if it was not asked for a collection; a `log` database always. -/
theorem migrated_inert_iff {c : Comparator} {map map' : DocumentStoreMixin (MapDatabase c)}
    {array array' : Located ArrayDatabase} {log log' : LogStore}
    {ofMap ofArray ofLog : List (Request × Status)}
    (hmap : Run Answers (Migratable.close map) ofMap map')
    (harray : Run Answers (Migratable.close array) ofArray array')
    (hlog : Run Answers (Migratable.close log) ofLog log') :
    (Inert map ofMap map' ↔ ∀ a ∈ ofMap, ¬ map.ReadsCache a.1) ∧
      (Inert array ofArray array' ↔ ∀ a ∈ ofArray, ¬ ArrayDatabase.Creates a.1) ∧
      Inert log ofLog log' :=
  ⟨map.inert_iff hmap, ArrayDatabase.inert_iff array harray, log.inert hlog⟩

/-- A `map` database with one collection. -/
def oneCollection : DocumentStoreMixin (MapDatabase .default) :=
  (DocumentStoreMixin.collCreate ⟨.empty .default, fun _ => none⟩ nameC).2

/-- An `array` database with one collection. -/
def oneArray : Located ArrayDatabase := ⟨(ArrayDatabase.empty.collCreate nameC).2, "", false⟩

/-- A `log` database with one collection. -/
def oneLog : LogStore where
  db := ((LogDatabase.ofDirectory 16 16 fun _ => none).collCreate nameC).2
  path := "db"
  migrated := false
  present := true

theorem migrated_inert_iff_refused :
    Inert oneCollection
      [(.put .default [1] [1] [2] [1], .Migrated),
        (.docUpdate nameC .updateNew [0] [5] [1], .Migrated)]
      (Migratable.close oneCollection) ∧
    Inert oneArray [(.docStore nameC .default [5] [1] [0], .NotFound)]
      (Migratable.close oneArray) ∧
    Inert oneLog [(.collSize .default nameC 7, .NotFound)] (Migratable.close oneLog) := by
  have hmap : Run Answers (Migratable.close oneCollection)
      [(.put .default [1] [1] [2] [1], .Migrated),
        (.docUpdate nameC .updateNew [0] [5] [1], .Migrated)] (Migratable.close oneCollection) :=
    ((Run.nil _).snoc ⟨0, rfl⟩).snoc ⟨0, rfl⟩
  have harray : Run Answers (Migratable.close oneArray)
      [(.docStore nameC .default [5] [1] [0], .NotFound)] (Migratable.close oneArray) :=
    (Run.nil _).snoc ⟨0, rfl⟩
  have hlog : Run Answers (Migratable.close oneLog) [(.collSize .default nameC 7, .NotFound)]
      (Migratable.close oneLog) := (Run.nil _).snoc ⟨0, rfl⟩
  obtain ⟨hinertMap, hinertArray, hinertLog⟩ := migrated_inert_iff hmap harray hlog
  exact ⟨hinertMap.2 (by simp [DocumentStoreMixin.ReadsCache]),
    hinertArray.2 (by simp [ArrayDatabase.Creates]), hinertLog⟩

/-- After its migration, a `map` database still tells the size of its collection, and an `array`
database creates the collection anew. -/
theorem migrated_answers :
    (¬ ∀ (s : DocumentStoreMixin (MapDatabase .default)) (answers : List (Request × Status))
        (t : DocumentStoreMixin (MapDatabase .default)),
      Run Answers (Migratable.close s) answers t → Inert s answers t) ∧
    ¬ ∀ (s : Located ArrayDatabase) (answers : List (Request × Status))
        (t : Located ArrayDatabase),
      Run Answers (Migratable.close s) answers t → Inert s answers t := by
  constructor
  · intro h
    have hrun : Run Answers (Migratable.close oneCollection)
        [(.collSize .default nameC 0, .OK)] (Migratable.close oneCollection) :=
      (Run.nil _).snoc ⟨0, rfl⟩
    exact (h _ _ _ hrun).not_ok _ List.mem_cons_self trivial rfl
  · intro h
    have hrun : Run Answers (Migratable.close oneArray) [(.collCreate .default nameC, .OK)]
        { Migratable.close oneArray with db := (ArrayDatabase.empty.collCreate nameC).2 } :=
      (Run.nil _).snoc ⟨0, rfl⟩
    exact (h _ _ _ hrun).not_ok _ List.mem_cons_self trivial rfl

end Yokan
