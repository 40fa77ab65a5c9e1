import Yokan.Collections
import Yokan.Library.Transition

/-!
# Yokan: the mixin implements collections

Over a database that behaves as a finite map, a `DocumentStoreMixin` is a family of collections:
`view` reads off each name its metadata, from the cache or from the database, and its documents.
`Coherent` says that the entries under names are metadata and that the cache only holds names
that have an entry. Each operation keeps `Coherent` and is the abstract operation on the view of
its collection; the other collections are untouched. `step_spec` collects the operations and
`run_spec` their runs.
-/

namespace Yokan

open Buffer Counting PartialMap Transition DatabaseInterface FiniteMapStore

namespace DocumentStoreMixin

variable {σ : Type} [FiniteMapStore σ]

/-! ### Views -/

/-- The collection under a name. -/
def view (s : DocumentStoreMixin σ) : Family := fun name =>
  { metadata := (s.cached name.bytes).or
      ((contents s.db name.bytes).map CollectionMetadata.ofBytes)
    docs := fun id => contents s.db (keyFromId name id) }

/-- The entries under names are metadata, and the cache only holds names with an entry. -/
structure Coherent (s : DocumentStoreMixin σ) : Prop where
  serving : Serving s.db
  stored : ∀ (name : CString) (v : Bytes), contents s.db name.bytes = some v →
    v.length = CollectionMetadata.sizeof
  cached : ∀ name : CString, (s.cached name.bytes).isSome → (contents s.db name.bytes).isSome

/-- A database without entries, and an empty cache. -/
structure Fresh (s : DocumentStoreMixin σ) : Prop where
  serving : Serving s.db
  contents_eq : contents s.db = fun _ => none
  cached_eq : s.cached = fun _ => none

theorem Fresh.coherent {s : DocumentStoreMixin σ} (h : Fresh s) : Coherent s where
  serving := h.serving
  stored name v hv := by rw [h.contents_eq] at hv; cases hv
  cached name hn := by rw [h.cached_eq] at hn; cases hn

theorem Fresh.view_eq {s : DocumentStoreMixin σ} (h : Fresh s) :
    s.view = fun _ => ⟨none, fun _ => none⟩ := by
  funext name
  simp only [view, h.contents_eq, h.cached_eq]
  rfl

section

variable {s t : DocumentStoreMixin σ} {name : CString}

theorem Coherent.isSome_metadata (h : Coherent s) (name : CString) :
    (s.view name).metadata.isSome = (contents s.db name.bytes).isSome := by
  have hc := h.cached name
  cases hs : s.cached name.bytes with
  | none => simp [view, hs]
  | some metadata => simp [view, hs, hc (by rw [hs]; rfl)]

/-- A change of the cache that the view does not see. -/
theorem view_eq_of_contents (hcontents : contents t.db = contents s.db)
    (hmetadata : ∀ n : CString, (t.view n).metadata = (s.view n).metadata) : t.view = s.view := by
  funext n
  have hdocs : (t.view n).docs = (s.view n).docs := by
    funext id
    exact congrFun hcontents _
  cases htn : t.view n with
  | mk m d => cases hsn : s.view n with
    | mk m' d' =>
      have hm := hmetadata n
      rw [htn, hsn] at hm hdocs
      exact congrArg₂ Collection.mk hm hdocs

/-- A change of the documents of one collection. -/
theorem view_eq_update_docs (hcached : t.cached = s.cached)
    (hnames : ∀ n : CString, contents t.db n.bytes = contents s.db n.bytes)
    (hother : ∀ n ≠ name, ∀ id, contents t.db (keyFromId n id) = contents s.db (keyFromId n id)) :
    t.view = Function.update s.view name
      { s.view name with docs := fun id => contents t.db (keyFromId name id) } := by
  funext n
  by_cases hn : n = name
  · subst hn
    simp [view, hcached, hnames]
  · rw [Function.update_of_ne hn]
    simp only [view, hcached, hnames, hother n hn]

theorem Coherent.of_names (h : Coherent s) (hserving : Serving t.db) (hcached : t.cached = s.cached)
    (hnames : ∀ n : CString, contents t.db n.bytes = contents s.db n.bytes) : Coherent t where
  serving := hserving
  stored n v hv := h.stored n v (by rwa [hnames] at hv)
  cached n hn := by
    rw [hnames]
    exact h.cached n (by rwa [hcached] at hn)

end

/-! ### Metadata -/

section Metadata

variable {s : DocumentStoreMixin σ} {name : CString}

theorem packed_name (name : CString) : Packed name.bytes [name.bytes.length] :=
  packed_singleton name.length_lt

theorem packed_metadata (metadata : CollectionMetadata) :
    Packed metadata.bytes [CollectionMetadata.sizeof] := by
  have h := packed_singleton (b := metadata.bytes)
    (by rw [CollectionMetadata.length_bytes]; decide)
  rwa [CollectionMetadata.length_bytes] at h

@[simp] theorem unpack_name (name : CString) :
    unpack name.bytes [name.bytes.length] = [name.bytes] := by
  simp

@[simp] theorem unpack_metadata (metadata : CollectionMetadata) :
    unpack metadata.bytes [CollectionMetadata.sizeof] = [metadata.bytes] := by
  rw [← CollectionMetadata.length_bytes metadata]
  simp

/-- `_collExists` tells whether the collection exists. -/
theorem collExistsImpl_spec (h : Coherent s) (hname : name.bytes ≠ []) :
    s.collExistsImpl name = (.OK, (s.view name).metadata.isSome) := by
  have hone : ([name.bytes.length] : List ℕ).length = ([0] : List ℕ).length := rfl
  have hlength := length_eq h.serving (Mode.has_default .wait) (packed_name name) hone
  rw [unpack_name] at hlength
  unfold collExistsImpl
  rw [if_neg hname, hlength, h.isSome_metadata]
  cases hc : contents s.db name.bytes with
  | none => simp [entrySize, hc, keyNotFound, CollectionMetadata.sizeof]
  | some v => simp [entrySize, hc, h.stored name v hc]

/-- The database is asked for the metadata of a collection. -/
theorem get_metadata (h : Coherent s) (name : CString) (metadata : CollectionMetadata) :
    let r := get .default true s.db name.bytes [name.bytes.length] metadata.bytes
      [CollectionMetadata.sizeof]
    r.status = .OK ∧ Serving r.db ∧ contents r.db = contents s.db ∧
      (contents s.db name.bytes = none →
        r.out.vsizes = [keyNotFound] ∧ r.out.vals = metadata.bytes) ∧
      ∀ v, contents s.db name.bytes = some v →
        r.out.vsizes = [CollectionMetadata.sizeof] ∧ r.out.vals = v := by
  have hone : ([name.bytes.length] : List ℕ).length =
      ([CollectionMetadata.sizeof] : List ℕ).length := rfl
  have hsmall : metadata.bytes.length ≤ lastValidSize := by
    rw [CollectionMetadata.length_bytes]
    decide
  have hwait := Mode.has_default .wait
  obtain ⟨hstatus, hserving, hcontents⟩ : _ ∧ Serving (get .default true s.db name.bytes
      [name.bytes.length] metadata.bytes [CollectionMetadata.sizeof]).db ∧ _ :=
    get_contents h.serving hwait (packed_name name) hone
  have hout := get_packed h.serving hwait (packed_name name) hone hsmall
  rw [Mode.has_default, if_neg Bool.false_ne_true] at hcontents
  rw [unpack_name] at hout
  refine ⟨hstatus, hserving, hcontents, ?_, ?_⟩
  · intro hc
    rw [hout]
    simp [packedValues, hc, blit]
  · intro v hc
    have hv := h.stored name v hc
    rw [hout]
    simp only [packedValues, hc, CollectionMetadata.length_bytes, hv]
    simp [blit_of_length_eq, hv]

/-- `_collGetMetadata` finds the metadata of a collection that exists, and leaves the variable alone
if there is none. It may fill the cache, which no view sees. -/
theorem collGetMetadata_spec (h : Coherent s) (hname : name.bytes ≠ [])
    (metadata : CollectionMetadata) :
    let r := s.collGetMetadata name metadata
    Coherent r.2.2 ∧ r.2.2.view = s.view ∧
      r.1 = (if (s.view name).metadata.isSome then .OK else .NotFound) ∧
      r.2.1 = (s.view name).metadata.getD metadata := by
  unfold collGetMetadata
  rw [if_neg hname]
  cases hcached : s.cached name.bytes with
  | some m =>
    have hview : (s.view name).metadata = some m := by simp [view, hcached]
    exact ⟨h, rfl, by simp [hview], by simp [hview]⟩
  | none =>
    obtain ⟨hstatus, hserving, hcontents, hnone, hsome⟩ := get_metadata h name metadata
    have hview : (s.view name).metadata =
        (contents s.db name.bytes).map CollectionMetadata.ofBytes := by simp [view, hcached]
    simp only [hstatus, ne_eq, not_true, if_false]
    cases hc : contents s.db name.bytes with
    | none =>
      rw [hc] at hview
      obtain ⟨hsize, hvals⟩ := hnone hc
      simp only [hsize, hvals, if_true, hview]
      refine ⟨?_, view_eq_of_contents hcontents fun n => ?_, rfl,
        CollectionMetadata.ofBytes_bytes metadata⟩
      · exact h.of_names hserving rfl fun n => congrFun hcontents _
      · simp only [view, hcontents]
    | some v =>
      rw [hc] at hview
      obtain ⟨hsize, hvals⟩ := hsome v hc
      have hne : ([CollectionMetadata.sizeof] : List ℕ) ≠ [keyNotFound] := by decide
      simp only [hsize, hvals, hne, if_false, not_true, hview]
      refine ⟨⟨hserving, ?_, ?_⟩, view_eq_of_contents hcontents fun n => ?_, rfl, ?_⟩
      · intro n w hw
        exact h.stored n w (by rwa [hcontents] at hw)
      · intro n hn
        rw [hcontents]
        by_cases hnn : n.bytes = name.bytes
        · rw [hnn, hc]
          rfl
        · dsimp only at hn
          exact h.cached n (by rwa [Function.update_of_ne hnn] at hn)
      · by_cases hnn : n.bytes = name.bytes
        · simp [view, hnn, hcached, hcontents, hc]
        · simp [view, Function.update_of_ne hnn, hcontents]
      · rfl

/-- `_collPutMetadata` sets the metadata of a collection; without a flush the collection must
exist. -/
theorem collPutMetadata_spec (h : Coherent s) (hname : name.bytes ≠ [])
    (metadata : CollectionMetadata) (flushToDisk : Bool)
    (hflush : flushToDisk = true ∨ (s.view name).metadata.isSome) :
    let r := s.collPutMetadata name metadata flushToDisk
    r.1 = .OK ∧ Coherent r.2 ∧
      r.2.view = Function.update s.view name { s.view name with metadata := some metadata } := by
  have hbytes : ∀ n : CString, n ≠ name → n.bytes ≠ name.bytes := fun n hn he =>
    hn (CString.ext he)
  unfold collPutMetadata
  rw [if_neg hname]
  cases flushToDisk with
  | false =>
    -- only the cache has the new metadata
    have hexists : (contents s.db name.bytes).isSome := by
      rw [← h.isSome_metadata]
      exact hflush.resolve_left Bool.false_ne_true
    simp only [Bool.false_eq_true, if_false, ne_eq, not_true]
    refine ⟨trivial, ⟨h.serving, h.stored, ?_⟩, ?_⟩
    · intro n hn
      by_cases hnn : n = name
      · rw [hnn]
        exact hexists
      · dsimp only at hn
        exact h.cached n (by rwa [Function.update_of_ne (hbytes n hnn)] at hn)
    · funext n
      by_cases hnn : n = name
      · subst hnn
        simp [view]
      · rw [Function.update_of_ne hnn]
        simp [view, Function.update_of_ne (hbytes n hnn)]
  | true =>
    -- the cache and the key of the collection have it
    have hone : ([name.bytes.length] : List ℕ).length =
        ([CollectionMetadata.sizeof] : List ℕ).length := rfl
    have hk := packed_name name
    have hv := packed_metadata metadata
    have hstatus : (put .default s.db name.bytes [name.bytes.length] metadata.bytes
        [CollectionMetadata.sizeof]).1 = _ := put_status h.serving hk hv hone
    obtain ⟨hserving, hcontents⟩ : Serving (put .default s.db name.bytes [name.bytes.length]
        metadata.bytes [CollectionMetadata.sizeof]).2 ∧ _ := put_contents h.serving hk hv hone
    rw [unpack_name, unpack_metadata] at hstatus hcontents
    have hput : contents (put .default s.db name.bytes [name.bytes.length] metadata.bytes
        [CollectionMetadata.sizeof]).2 =
          Function.update (contents s.db) name.bytes (some metadata.bytes) := by
      rw [hcontents]
      simp [putRule]
    have hok : (put .default s.db name.bytes [name.bytes.length] metadata.bytes
        [CollectionMetadata.sizeof]).1 = .OK := by
      rw [hstatus]
      simp [putStatus]
    simp only [if_true, hok, ne_eq, not_true, if_false]
    refine ⟨trivial, ⟨hserving, ?_, ?_⟩, ?_⟩
    · intro n v hv
      rw [hput] at hv
      by_cases hnn : n.bytes = name.bytes
      · rw [hnn, Function.update_self] at hv
        obtain rfl := Option.some.inj hv
        exact CollectionMetadata.length_bytes metadata
      · exact h.stored n v (by rwa [Function.update_of_ne hnn] at hv)
    · intro n hn
      rw [hput]
      by_cases hnn : n.bytes = name.bytes
      · rw [hnn, Function.update_self]
        rfl
      · dsimp only at hn
        rw [Function.update_of_ne hnn] at hn ⊢
        exact h.cached n hn
    · funext n
      have hdocs : ∀ id, contents (put .default s.db name.bytes [name.bytes.length] metadata.bytes
          [CollectionMetadata.sizeof]).2 (keyFromId n id) = contents s.db (keyFromId n id) := by
        intro id
        rw [hput, Function.update_of_ne (keyFromId_ne_name n name id)]
      by_cases hnn : n = name
      · subst hnn
        simp [view, hdocs]
      · rw [Function.update_of_ne hnn]
        simp [view, Function.update_of_ne (hbytes n hnn), hdocs, hput]

theorem collGetMetadata_of_some (h : Coherent s) (hname : name.bytes ≠ [])
    {m : CollectionMetadata} (hm : (s.view name).metadata = some m)
    (metadata : CollectionMetadata) :
    ∃ t, s.collGetMetadata name metadata = (.OK, m, t) ∧ Coherent t ∧ t.view = s.view := by
  obtain ⟨ht, hview, hstatus, hvar⟩ := collGetMetadata_spec h hname metadata
  rw [hm] at hstatus hvar
  exact ⟨_, Prod.ext hstatus (Prod.ext hvar rfl), ht, hview⟩

theorem collGetMetadata_of_none (h : Coherent s) (hname : name.bytes ≠ [])
    (hm : (s.view name).metadata = none) (metadata : CollectionMetadata) :
    ∃ t, s.collGetMetadata name metadata = (.NotFound, metadata, t) ∧ Coherent t ∧
      t.view = s.view := by
  obtain ⟨ht, hview, hstatus, hvar⟩ := collGetMetadata_spec h hname metadata
  rw [hm] at hstatus hvar
  exact ⟨_, Prod.ext hstatus (Prod.ext hvar rfl), ht, hview⟩

theorem collPutMetadata_ok (h : Coherent s) (hname : name.bytes ≠ [])
    (metadata : CollectionMetadata) (flushToDisk : Bool)
    (hflush : flushToDisk = true ∨ (s.view name).metadata.isSome) :
    ∃ t, s.collPutMetadata name metadata flushToDisk = (.OK, t) ∧ Coherent t ∧
      t.view = Function.update s.view name { s.view name with metadata := some metadata } := by
  obtain ⟨hstatus, ht, hview⟩ := collPutMetadata_spec h hname metadata flushToDisk hflush
  exact ⟨_, Prod.ext hstatus rfl, ht, hview⟩

end Metadata

/-! ### Documents -/

section Documents

variable {s : DocumentStoreMixin σ} {name : CString} {mode : Mode} {ids : List UInt64}

/-- Putting documents under their keys writes to the documents of one collection. -/
theorem put_docs (h : Coherent s) (hfit : KeysFit name ids) (mode : Mode) (batch : DocBatch) :
    let r := put mode s.db (ids.map (keyFromId name)).flatten (idKeySizes name ids)
      batch.documents batch.sizes
    let w := Collection.write mode ids batch (s.view name).docs
    let t : DocumentStoreMixin σ := { s with db := r.2 }
    r.1 = w.1 ∧ Coherent t ∧
      t.view = Function.update s.view name { s.view name with docs := w.2 } := by
  by_cases hholds : batch.Holds ids.length
  · have hlen : (idKeySizes name ids).length = batch.sizes.length := by
      rw [length_idKeySizes, hholds.1]
    have hk := packed_keys hfit
    have hv := batch.packed hholds
    have hstatus : (put mode s.db (ids.map (keyFromId name)).flatten (idKeySizes name ids)
        batch.documents batch.sizes).1 = _ := put_status h.serving hk hv hlen
    obtain ⟨hserving, hcontents⟩ : Serving (put mode s.db (ids.map (keyFromId name)).flatten
        (idKeySizes name ids) batch.documents batch.sizes).2 ∧ _ :=
      put_contents h.serving hk hv hlen
    have hpairs : (ids.map (keyFromId name)).zip batch.docs =
        (ids.zip batch.docs).map (Prod.map (keyFromId name) id) := by
      rw [List.zip_map_left]
    rw [unpack_keys] at hstatus hcontents
    rw [Collection.write, if_pos hholds]
    refine ⟨(hstatus.trans (congrArg _ hpairs)).trans (putStatus_comap _ _ _ _), ?_⟩
    generalize (put mode s.db (ids.map (keyFromId name)).flatten (idKeySizes name ids)
      batch.documents batch.sizes).2 = db at hserving hcontents ⊢
    -- a key that is not the key of an id of this collection is not written
    have hframe : ∀ key, (∀ id, key ≠ keyFromId name id) → contents db key = contents s.db key := by
      intro key hkey
      rw [hcontents]
      refine writeAll_of_notMem fun hmem => ?_
      obtain ⟨p, hp, rfl⟩ := List.mem_map.1 hmem
      obtain ⟨id, -, hid⟩ := List.mem_map.1 (List.of_mem_zip hp).1
      exact hkey id hid.symm
    have hnames : ∀ n : CString, contents db n.bytes = contents s.db n.bytes := fun n =>
      hframe _ fun id => (keyFromId_ne_name name n id).symm
    have hother : ∀ n ≠ name, ∀ id, contents db (keyFromId n id) =
        contents s.db (keyFromId n id) := fun n hn id =>
      hframe _ fun id' he => hn (keyFromId_inj he).1
    have hdocs : (fun id => contents db (keyFromId name id)) =
        writeAll (putRule mode) (s.view name).docs (ids.zip batch.docs) := by
      rw [hcontents]
      refine (congrArg (fun ps => fun id => writeAll (putRule mode) (contents s.db) ps
        (keyFromId name id)) hpairs).trans ?_
      exact writeAll_comap (keyFromId_injective name) _ _ _
    refine ⟨h.of_names hserving rfl hnames, ?_⟩
    dsimp only
    rw [← hdocs]
    exact view_eq_update_docs (t := ⟨db, s.cached⟩) rfl hnames hother
  · -- the put checks its arrays before the first key
    have hinvalid : (idKeySizes name ids).length ≠ batch.sizes.length ∨
        batch.documents.length < batch.sizes.sum := by
      rw [length_idKeySizes]
      by_contra hno
      push Not at hno
      exact hholds hno
    have hput : put mode s.db (ids.map (keyFromId name)).flatten (idKeySizes name ids)
        batch.documents batch.sizes = (.InvalidArg, s.db) :=
      put_invalid (packed_keys hfit).2 batch.sum_lt hinvalid
    rw [hput, Collection.write, if_neg hholds]
    refine ⟨rfl, h, ?_⟩
    rw [Function.update_eq_self]

/-- The flags of the ids that hold a document. -/
theorem existsKeys_docs (h : Coherent s) (hwait : mode.has .wait = false)
    (hfit : KeysFit name ids) (flags : List Bool) (hlen : ids.length ≤ flags.length) :
    existsKeys mode s.db (ids.map (keyFromId name)).flatten (idKeySizes name ids) flags =
      (.OK, ids.map (fun id => ((s.view name).docs id).isSome) ++ flags.drop ids.length) := by
  have hle : (idKeySizes name ids).length ≤ flags.length := by
    rw [length_idKeySizes]
    exact hlen
  have hexists := existsKeys_eq h.serving hwait (packed_keys hfit) hle
  rw [hexists, unpack_keys, List.map_map, length_idKeySizes]
  rfl

/-- Erasing the keys of documents, and possibly names, erases documents of one collection. -/
theorem view_eraseAll {t : DocumentStoreMixin σ}
    (hcontents : contents t.db = eraseAll (contents s.db) (ids.map (keyFromId name)))
    (hcached : t.cached = s.cached) :
    (∀ n : CString, contents t.db n.bytes = contents s.db n.bytes) ∧
      t.view = Function.update s.view name
        { s.view name with docs := eraseAll (s.view name).docs ids } := by
  have hframe : ∀ key, (∀ id, key ≠ keyFromId name id) → contents t.db key = contents s.db key := by
    intro key hkey
    rw [hcontents, eraseAll_apply, if_neg]
    intro hmem
    obtain ⟨id, -, hid⟩ := List.mem_map.1 hmem
    exact hkey id hid.symm
  have hnames : ∀ n : CString, contents t.db n.bytes = contents s.db n.bytes := fun n =>
    hframe _ fun id => (keyFromId_ne_name name n id).symm
  refine ⟨hnames, ?_⟩
  have hother : ∀ n ≠ name, ∀ id, contents t.db (keyFromId n id) =
      contents s.db (keyFromId n id) := fun n hn id =>
    hframe _ fun id' he => hn (keyFromId_inj he).1
  have hdocs : (fun id => contents t.db (keyFromId name id)) =
      eraseAll (s.view name).docs ids := by
    rw [hcontents]
    exact eraseAll_comap (keyFromId_injective name) _ _
  rw [← hdocs]
  exact view_eq_update_docs hcached hnames hother

end Documents

/-! ### Counting -/

/-- The flags of an `exists` bit field give the number of ids without document, and the ids give
the largest one. -/
theorem extraKeysAndMaxID_eq (docs : UInt64 → Option Bytes) (ids : List UInt64)
    (rest : List Bool) :
    extraKeysAndMaxID ids (ids.map (fun id => (docs id).isSome) ++ rest) =
      (UInt64.ofNat (absentIn docs ids).length, maxID ids) := by
  have hloop : ∀ (ids : List UInt64) (extra : ℕ) (max' : UInt64),
      (ids.zip (ids.map (fun id => (docs id).isSome) ++ rest)).foldl
        (fun acc p => (if p.2 then acc.1 else acc.1 + 1, max acc.2 p.1))
        (UInt64.ofNat extra, max') =
      (UInt64.ofNat (extra + (absentIn docs ids).length), ids.foldl max max') := by
    intro ids
    induction ids with
    | nil => intro extra max'; rfl
    | cons id ids ih =>
      intro extra max'
      rw [List.map_cons, List.cons_append, List.zip_cons_cons, List.foldl_cons, List.foldl_cons]
      cases hid : docs id with
      | none =>
        have habsent : absentIn docs (id :: ids) = id :: absentIn docs ids :=
          List.filter_cons_of_pos (by simp [hid])
        have hsucc : UInt64.ofNat extra + 1 = UInt64.ofNat (extra + 1) := by
          rw [UInt64.ofNat_add]
          rfl
        simp only [Option.isSome_none, Bool.false_eq_true, if_false, hsucc]
        rw [ih, habsent, List.length_cons, Nat.add_assoc, Nat.add_comm 1]
      | some v =>
        have habsent : absentIn docs (id :: ids) = absentIn docs ids :=
          List.filter_cons_of_neg (by simp [hid])
        simp only [Option.isSome_some, if_true]
        rw [ih, habsent]
  have h := hloop ids 0 0
  rw [Nat.zero_add] at h
  exact h

theorem count_present (docs : UInt64 → Option Bytes) (ids : List UInt64) :
    (ids.map (fun id => (docs id).isSome)).count true = (presentIn docs ids).length := by
  rw [List.count, List.countP_map, List.countP_eq_length_filter]
  refine congrArg List.length (List.filter_congr ?_)
  intro id _
  simp

/-! ### The operations -/

section Operations

variable {s t : DocumentStoreMixin σ} {name : CString} {mode : Mode} {ids : List UInt64}
  {batch : DocBatch} {status : Status}

/-- An operation that went from `s` to `t` did to the collection `name` what an abstract operation
with outcome `r` does, and nothing to the others. -/
structure Implements (s t : DocumentStoreMixin σ) (name : CString) (status : Status)
    (r : Status × Collection) : Prop where
  coherent : Coherent t
  status_eq : status = r.1
  view_eq : t.view = Function.update s.view name r.2

theorem Implements.unchanged (ht : Coherent t) (hview : t.view = s.view) (status : Status) :
    Implements s t name status (status, s.view name) where
  coherent := ht
  status_eq := rfl
  view_eq := by rw [hview, Function.update_eq_self]

theorem collCreate_spec (h : Coherent s) (hname : name.bytes ≠ []) :
    Implements s (s.collCreate name).2 name (s.collCreate name).1 (s.view name).create := by
  unfold collCreate Collection.create
  rw [collExistsImpl_spec h hname]
  cases hm : (s.view name).metadata with
  | some m => exact Implements.unchanged h rfl _
  | none =>
    obtain ⟨t, ht, hcoherent, hview⟩ := collPutMetadata_ok h hname {} true (Or.inl rfl)
    simp only [ne_eq, not_true, if_false, Option.isSome_none, Bool.false_eq_true, ht]
    exact ⟨hcoherent, rfl, hview⟩

theorem collDrop_spec (h : Coherent s) (hname : name.bytes ≠ []) (hwait : mode.has .wait = false)
    (hr : s.collDrop mode name = some (status, t)) :
    Implements s t name status (s.view name).drop := by
  unfold collDrop at hr
  unfold Collection.drop
  rw [collExistsImpl_spec h hname] at hr
  cases hm : (s.view name).metadata with
  | none =>
    obtain ⟨u, hget, hu, hview⟩ := collGetMetadata_of_none h hname hm {}
    simp only [hget, ne_eq, not_true, if_false, reduceCtorEq, not_false_eq_true, if_true,
      Option.some.injEq, Prod.mk.injEq] at hr
    obtain ⟨rfl, rfl⟩ := hr
    exact Implements.unchanged hu hview _
  | some m =>
    obtain ⟨u, hget, hu, hview⟩ := collGetMetadata_of_some h hname hm {}
    simp only [hget, ne_eq, not_true, if_false] at hr
    have hids : (List.range m.nextId.toNat).map UInt64.ofNat = m.idsBelow := rfl
    rw [hids] at hr
    cases hkeys : keysFromIds name m.idsBelow with
    | none => rw [hkeys] at hr; cases hr
    | some keys =>
      obtain ⟨hfit, rfl⟩ := keysFromIds_eq hkeys
      rw [hkeys] at hr
      simp only at hr
      split_ifs at hr with hroom
      -- the keys of the documents and the name make one packed buffer
      have hflat : (m.idsBelow.map (keyFromId name) ++ [name.bytes]).flatten =
          (m.idsBelow.map (keyFromId name)).flatten ++ name.bytes := by simp
      have hsizes : (m.idsBelow.map (keyFromId name) ++ [name.bytes]).map List.length =
          idKeySizes name m.idsBelow ++ [name.bytes.length] := by
        rw [List.map_append, map_length_keyFromId]
        rfl
      have hpacked : Packed ((m.idsBelow.map (keyFromId name)).flatten ++ name.bytes)
          (idKeySizes name m.idsBelow ++ [name.bytes.length]) := by
        rw [← hflat, ← hsizes]
        refine ⟨le_of_eq (List.length_flatten).symm, ?_⟩
        rw [← List.length_flatten, hflat, List.length_append]
        omega
      obtain ⟨hok, hserving, hcontents⟩ := erase_eq hu.serving hwait hpacked
      rw [← hflat, ← hsizes, unpack_flatten] at hcontents
      rw [hsizes, hflat] at hcontents
      obtain ⟨hst, rfl⟩ := Prod.mk.inj (Option.some.inj hr)
      generalize (erase mode u.db ((m.idsBelow.map (keyFromId name)).flatten ++ name.bytes)
        (idKeySizes name m.idsBelow ++ [name.bytes.length])).2 = db at hserving hcontents ⊢
      have hname' : ∀ n : CString, contents db n.bytes =
          if n = name then none else contents u.db n.bytes := by
        intro n
        rw [hcontents, eraseAll_apply]
        by_cases hn : n = name
        · simp [hn]
        · have hne : n.bytes ≠ name.bytes := fun he => hn (CString.ext he)
          have hkey : ∀ id, keyFromId name id ≠ n.bytes := keyFromId_ne_name name n
          simp [hn, hne, hkey]
      have hdocs : ∀ (n : CString) (id : UInt64), contents db (keyFromId n id) =
          if n = name ∧ id ∈ m.idsBelow then none else contents u.db (keyFromId n id) := by
        intro n id
        have hmem : keyFromId n id ∈ m.idsBelow.map (keyFromId name) ++ [name.bytes] ↔
            n = name ∧ id ∈ m.idsBelow := by
          rw [List.mem_append, List.mem_singleton, List.mem_map]
          constructor
          · rintro (⟨id', hid', he⟩ | he)
            · obtain ⟨rfl, rfl⟩ := keyFromId_inj he
              exact ⟨rfl, hid'⟩
            · exact absurd he (keyFromId_ne_name n name id)
          · rintro ⟨rfl, hid⟩
            exact Or.inl ⟨id, hid, rfl⟩
        rw [hcontents, eraseAll_apply]
        simp only [hmem]
      refine ⟨⟨hserving, ?_, ?_⟩, by rw [← hst, hok], ?_⟩
      · intro n v hv
        dsimp only at hv
        rw [hname'] at hv
        split_ifs at hv
        exact hu.stored n v hv
      · intro n hn
        dsimp only at hn ⊢
        by_cases hnn : n = name
        · rw [hnn, Function.update_self] at hn
          cases hn
        · rw [Function.update_of_ne fun he => hnn (CString.ext he)] at hn
          rw [hname', if_neg hnn]
          exact hu.cached n hn
      · rw [← hview]
        funext n
        by_cases hnn : n = name
        · subst hnn
          rw [Function.update_self]
          refine congrArg₂ Collection.mk ?_ ?_
          · simp [hname']
          · funext id
            simp only [hdocs, true_and, eraseAll_apply]
            rfl
        · have hne : n.bytes ≠ name.bytes := fun he => hnn (CString.ext he)
          rw [Function.update_of_ne hnn]
          simp [view, hname', hdocs, hnn, Function.update_of_ne hne]

theorem reserveIds_of_none (h : Coherent s) (hname : name.bytes ≠ [])
    (hm : (s.view name).metadata = none) (ids : List UInt64) :
    ∃ t, s.reserveIds name ids = (.NotFound, ids, {}, t) ∧ Coherent t ∧ t.view = s.view := by
  obtain ⟨t, hget, ht, hview⟩ := collGetMetadata_of_none h hname hm {}
  exact ⟨t, by simp [reserveIds, hget], ht, hview⟩

/-- The first section of `docStore` moves `next_id` past the ids. -/
theorem reserveIds_of_some (h : Coherent s) (hname : name.bytes ≠ []) {m : CollectionMetadata}
    (hm : (s.view name).metadata = some m) (ids : List UInt64) :
    ∃ t, s.reserveIds name ids = (.OK, m.assigned ids.length, m.reserve ids.length, t) ∧
      Coherent t ∧ t.view = Function.update s.view name
        { s.view name with metadata := some (m.reserve ids.length) } := by
  obtain ⟨u, hget, hu, hview⟩ := collGetMetadata_of_some h hname hm {}
  have hum : (u.view name).metadata.isSome := by rw [hview, hm]; rfl
  obtain ⟨t, hput, ht, htview⟩ := collPutMetadata_ok hu hname (m.reserve ids.length) false
    (Or.inr hum)
  have hreserve : { m with nextId := m.nextId + UInt64.ofNat ids.length } =
      m.reserve ids.length := rfl
  refine ⟨t, ?_, ht, by rw [htview, hview]⟩
  simp only [reserveIds, hget, ne_eq, not_true, if_false, hreserve, hput]
  rfl

theorem putDocuments_spec (h : Coherent s)
    (hr : s.putDocuments name mode batch.documents batch.sizes ids = some (status, t)) :
    let w := Collection.write mode ids batch (s.view name).docs
    status = w.1 ∧ Coherent t ∧
      t.view = Function.update s.view name { s.view name with docs := w.2 } := by
  unfold putDocuments at hr
  obtain ⟨keys, hkeys, hr⟩ := Option.map_eq_some_iff.1 hr
  obtain ⟨hfit, rfl⟩ := keysFromIds_eq hkeys
  obtain ⟨hstatus, ht, hview⟩ := put_docs h hfit mode batch
  obtain ⟨rfl, rfl⟩ := Prod.mk.inj hr
  exact ⟨hstatus, ht, hview⟩

/-- The last section of `docStore`. Without a collection it creates one from the metadata that the
first section left. -/
theorem countDocuments_spec (h : Coherent s) (hname : name.bytes ≠ [])
    (metadata : CollectionMetadata) (count : ℕ) :
    ∃ t, s.countDocuments name metadata count = (.OK, t) ∧ Coherent t ∧
      t.view = Function.update s.view name { s.view name with
        metadata := some (((s.view name).metadata.getD metadata).grow count) } := by
  obtain ⟨hu, hview, -, hvar⟩ := collGetMetadata_spec h hname metadata
  obtain ⟨t, hput, ht, htview⟩ := collPutMetadata_ok hu hname
    (((s.view name).metadata.getD metadata).grow count) true (Or.inl rfl)
  refine ⟨t, ?_, ht, by rw [htview, hview]⟩
  rw [← hput, countDocuments, ← hvar]
  rfl

theorem docStore_spec (h : Coherent s) (hname : name.bytes ≠ []) {assigned : List UInt64}
    (hr : s.docStore name mode batch.documents batch.sizes ids = some (status, assigned, t)) :
    let r := (s.view name).store mode batch ids
    Implements s t name status (r.1, r.2.2) ∧ assigned = r.2.1 := by
  rw [docStore_eq] at hr
  unfold Collection.store
  cases hm : (s.view name).metadata with
  | none =>
    obtain ⟨u, hreserve, hu, hview⟩ := reserveIds_of_none h hname hm ids
    simp only [hreserve, ne_eq, reduceCtorEq, not_false_eq_true, if_true, Option.some.injEq,
      Prod.mk.injEq] at hr
    obtain ⟨rfl, rfl, rfl⟩ := hr
    exact ⟨Implements.unchanged hu hview _, rfl⟩
  | some m =>
    obtain ⟨u, hreserve, hu, huview⟩ := reserveIds_of_some h hname hm ids
    simp only [hreserve, ne_eq, not_true, if_false] at hr
    obtain ⟨⟨written, v⟩, hput, hr⟩ := Option.map_eq_some_iff.1 hr
    obtain ⟨rfl, hv, hvview⟩ := putDocuments_spec hu hput
    rw [huview, Function.update_self, Function.update_idem] at hvview
    simp only [huview, Function.update_self] at hr
    by_cases hok : (Collection.write mode (m.assigned ids.length) batch (s.view name).docs).1 = .OK
    · obtain ⟨w, hcount, hw, hwview⟩ := countDocuments_spec hv hname (m.reserve ids.length)
        ids.length
      simp only [hok, not_true, if_false, hcount, Prod.mk.injEq] at hr
      obtain ⟨rfl, rfl, rfl⟩ := hr
      refine ⟨⟨hw, hok.symm, ?_⟩, rfl⟩
      rw [hwview, hvview, Function.update_self, Function.update_idem]
      simp only [hok, if_true]
      rfl
    · simp only [hok, not_false_eq_true, if_true, Prod.mk.injEq] at hr
      obtain ⟨rfl, rfl, rfl⟩ := hr
      refine ⟨⟨hv, rfl, ?_⟩, rfl⟩
      simp only [hvview, hok, if_false]
      rfl

/-- When the loop over the ids ends, it has seen all of them. -/
theorem knownIds_eq_some {nextId : UInt64} {ids : List UInt64} {known : Bool}
    (h : knownIds nextId ids = some known) : known = !ids.any fun id => nextId ≤ id := by
  rw [countAll_eq_some h, any_range_getD ids 0 fun id => decide (nextId ≤ id)]

theorem docUpdate_spec (h : Coherent s) (hname : name.bytes ≠ [])
    (hwait : mode.has .updateNew = true → mode.has .wait = false)
    (hr : s.docUpdate name mode ids batch.documents batch.sizes = some (status, t)) :
    Implements s t name status ((s.view name).update mode ids batch) := by
  unfold docUpdate at hr
  rw [if_neg hname] at hr
  cases hkeys : keysFromIds name ids with
  | none => rw [hkeys] at hr; cases hr
  | some keys =>
    obtain ⟨hfit, rfl⟩ := keysFromIds_eq hkeys
    simp only [hkeys] at hr
    unfold Collection.update
    cases hm : (s.view name).metadata with
    | none =>
      obtain ⟨u, hget, hu, hview⟩ := collGetMetadata_of_none h hname hm {}
      simp only [hget, ne_eq, reduceCtorEq, not_false_eq_true, if_true, Option.some.injEq,
        Prod.mk.injEq] at hr
      obtain ⟨rfl, rfl⟩ := hr
      exact Implements.unchanged hu hview _
    | some m =>
      obtain ⟨u, hget, hu, hview⟩ := collGetMetadata_of_some h hname hm {}
      obtain ⟨hst, hw, hwview⟩ := put_docs hu hfit mode batch
      rw [hview] at hst hwview
      have hmd : { s.view name with metadata := some m } = s.view name := by
        rw [← hm]
      simp only [hget, ne_eq, not_true, if_false, hst] at hr
      generalize (put mode u.db (ids.map (keyFromId name)).flatten (idKeySizes name ids)
        batch.documents batch.sizes).2 = db at hr hw hwview
      cases hnew : mode.has .updateNew with
      | true =>
        simp only [hnew, if_true] at hr ⊢
        by_cases hflags : batch.sizes.length < ids.length
        · -- `exists` refuses a bit field with fewer bits than there are keys
          have hbits : (List.replicate batch.sizes.length false).length <
              (idKeySizes name ids).length := by
            rw [List.length_replicate, length_idKeySizes]
            exact hflags
          have hexists : existsKeys mode u.db (ids.map (keyFromId name)).flatten
              (idKeySizes name ids) (List.replicate batch.sizes.length false) = _ :=
            existsKeys_invalid hbits
          have hholds : ¬ batch.Holds ids.length := fun hb => by
            have := hb.1
            omega
          simp only [hexists, reduceCtorEq, not_false_eq_true, if_true, Option.some.injEq,
            Prod.mk.injEq] at hr
          obtain ⟨rfl, rfl⟩ := hr
          simp only [Collection.write, if_neg hholds, reduceCtorEq, if_false, hmd]
          exact Implements.unchanged hu hview _
        · have hexists := existsKeys_docs hu (hwait hnew) hfit
            (List.replicate batch.sizes.length false) (by rw [List.length_replicate]; omega)
          rw [hview] at hexists
          simp only [hexists, not_true, if_false, extraKeysAndMaxID_eq] at hr
          obtain ⟨-, -, hr⟩ := Option.map_eq_some_iff.1 hr
          by_cases hok : (Collection.write mode ids batch (s.view name).docs).1 = .OK
          · obtain ⟨x, hput, hx, hxview⟩ := collPutMetadata_ok hw hname
              ⟨m.size + UInt64.ofNat (absentIn (s.view name).docs ids).length, maxID ids + 1⟩
              true (Or.inl rfl)
            simp only [hok, not_true, if_false, hput, Prod.mk.injEq] at hr
            obtain ⟨rfl, rfl⟩ := hr
            refine ⟨hx, hok.symm, ?_⟩
            rw [hxview, hwview, Function.update_self, Function.update_idem]
            simp [hok]
          · simp only [hok, not_false_eq_true, if_true, Prod.mk.injEq] at hr
            obtain ⟨rfl, rfl⟩ := hr
            refine ⟨hw, rfl, ?_⟩
            rw [hwview]
            simp [hok, hm]
      | false =>
        -- ids from `next_id` on are refused before anything is put
        simp only [hnew, Bool.false_eq_true, if_false] at hr ⊢
        obtain ⟨known, hknown, hr⟩ := Option.map_eq_some_iff.1 hr
        rw [knownIds_eq_some hknown, Bool.not_not] at hr
        by_cases hany : ids.any (fun id => m.nextId ≤ id) = true
        · simp only [hany, if_true, Prod.mk.injEq] at hr ⊢
          obtain ⟨rfl, rfl⟩ := hr
          exact Implements.unchanged hu hview _
        · simp only [hany, Bool.false_eq_true, if_false, Prod.mk.injEq] at hr ⊢
          obtain ⟨rfl, rfl⟩ := hr
          exact ⟨hw, rfl, by rw [hwview, ← hm]⟩

theorem docErase_spec (h : Coherent s) (hname : name.bytes ≠ []) (hwait : mode.has .wait = false)
    (hr : s.docErase name mode ids = some (status, t)) :
    Implements s t name status ((s.view name).erase ids) := by
  unfold docErase at hr
  rw [if_neg hname] at hr
  cases hkeys : keysFromIds name ids with
  | none => rw [hkeys] at hr; cases hr
  | some keys =>
    obtain ⟨hfit, rfl⟩ := keysFromIds_eq hkeys
    have hexists := existsKeys_docs h hwait hfit (List.replicate ids.length false)
      (by rw [List.length_replicate])
    rw [List.drop_replicate, Nat.sub_self, List.replicate_zero, List.append_nil] at hexists
    simp only [hkeys, hexists, ne_eq, not_true, if_false, count_present] at hr
    unfold Collection.erase
    cases hm : (s.view name).metadata with
    | none =>
      obtain ⟨u, hget, hu, hview⟩ := collGetMetadata_of_none h hname hm {}
      simp only [hget, reduceCtorEq, not_false_eq_true, if_true, Option.some.injEq,
        Prod.mk.injEq] at hr
      obtain ⟨rfl, rfl⟩ := hr
      exact Implements.unchanged hu hview _
    | some m =>
      obtain ⟨u, hget, hu, hview⟩ := collGetMetadata_of_some h hname hm {}
      obtain ⟨hok, hserving, hcontents⟩ := erase_eq hu.serving hwait (packed_keys hfit)
      rw [unpack_keys] at hcontents
      simp only [hget, not_true, if_false, hok] at hr
      generalize (erase mode u.db (ids.map (keyFromId name)).flatten (idKeySizes name ids)).2 = db
        at hr hserving hcontents
      obtain ⟨hnames, hwview⟩ := view_eraseAll (t := ⟨db, u.cached⟩) hcontents rfl
      have hw : Coherent (⟨db, u.cached⟩ : DocumentStoreMixin σ) :=
        hu.of_names hserving rfl hnames
      obtain ⟨x, hput, hx, hxview⟩ := collPutMetadata_ok hw hname
        ⟨m.size - UInt64.ofNat (presentIn (s.view name).docs ids).length, m.nextId⟩ true
        (Or.inl rfl)
      simp only [hput, Option.some.injEq, Prod.mk.injEq] at hr
      obtain ⟨rfl, rfl⟩ := hr
      refine ⟨hx, rfl, ?_⟩
      rw [hxview, hwview, Function.update_self, Function.update_idem, hview]

/-- `docLoad`, as far as it changes the database. -/
theorem docLoad_spec (h : Coherent s) (hname : name.bytes ≠ []) (hwait : mode.has .wait = false)
    {packed : Bool} {documents : Bytes} {sizes : List ℕ} {out : GetOutput}
    (hr : s.docLoad name mode packed ids documents sizes = some (status, out, t)) :
    Implements s t name status ((s.view name).load mode ids sizes) := by
  unfold docLoad at hr
  rw [if_neg hname, collExistsImpl_spec h hname] at hr
  unfold Collection.load
  cases hm : (s.view name).metadata with
  | none =>
    simp only [hm, ne_eq, not_true, if_false, Option.isSome_none, Bool.not_false, if_true,
      Option.some.injEq, Prod.mk.injEq] at hr
    obtain ⟨rfl, -, rfl⟩ := hr
    exact Implements.unchanged h rfl _
  | some m =>
    simp only [hm, ne_eq, not_true, if_false, Option.isSome_some, Bool.not_true,
      Bool.false_eq_true] at hr
    cases hkeys : keysFromIds name ids with
    | none => rw [hkeys] at hr; cases hr
    | some keys =>
      obtain ⟨hfit, rfl⟩ := keysFromIds_eq hkeys
      simp only [hkeys, Option.map_some, Option.some.injEq, Prod.mk.injEq] at hr
      obtain ⟨rfl, -, rfl⟩ := hr
      by_cases hlen : ids.length = sizes.length
      · have hksizes : (idKeySizes name ids).length = sizes.length := by
          rw [length_idKeySizes, hlen]
        obtain ⟨hok, hserving, hcontents⟩ : (get mode packed s.db
            (ids.map (keyFromId name)).flatten (idKeySizes name ids) documents sizes).status = .OK ∧
              _ := get_contents h.serving hwait (packed_keys hfit) hksizes
        rw [unpack_keys] at hcontents
        simp only [hlen, ne_eq, not_true, if_false]
        generalize (get mode packed s.db (ids.map (keyFromId name)).flatten
          (idKeySizes name ids) documents sizes).db = db at hserving hcontents ⊢
        cases hconsume : mode.has .consume with
        | true =>
          rw [hconsume, if_pos rfl] at hcontents
          obtain ⟨hnames, hwview⟩ := view_eraseAll (t := ⟨db, s.cached⟩) hcontents rfl
          exact ⟨h.of_names hserving rfl hnames, hok, by rw [hwview, if_pos rfl, ← hm]⟩
        | false =>
          rw [hconsume, if_neg Bool.false_ne_true] at hcontents
          have hview : (⟨db, s.cached⟩ : DocumentStoreMixin σ).view = s.view :=
            view_eq_of_contents hcontents fun n => by simp only [view, hcontents]
          have hself : (⟨some m, (s.view name).docs⟩ : Collection) = s.view name := by rw [← hm]
          refine ⟨h.of_names hserving rfl fun n => congrFun hcontents _, hok, ?_⟩
          rw [hview, if_neg Bool.false_ne_true, hself, Function.update_eq_self]
      · have hksizes : (idKeySizes name ids).length ≠ sizes.length := by
          rwa [length_idKeySizes]
        obtain ⟨hinvalid, hdb⟩ : (get mode packed s.db (ids.map (keyFromId name)).flatten
            (idKeySizes name ids) documents sizes).status = .InvalidArg ∧ _ := get_invalid hksizes
        rw [hinvalid, hdb]
        simp only [ne_eq, hlen, not_false_eq_true, if_true]
        exact Implements.unchanged h rfl _

end Operations

/-! ### Runs -/

section Runs

variable {s t : DocumentStoreMixin σ}

/-- An operation as a step: its status and the state it leaves, if it returns. -/
def step (s : DocumentStoreMixin σ) : CString × DocOp → Option (Status × DocumentStoreMixin σ)
  | (name, .create) => some (s.collCreate name)
  | (name, .drop mode) => s.collDrop mode name
  | (name, .store mode batch ids) =>
    (s.docStore name mode batch.documents batch.sizes ids).map (fun r => (r.1, r.2.2))
  | (name, .update mode ids batch) => s.docUpdate name mode ids batch.documents batch.sizes
  | (name, .erase mode ids) => s.docErase name mode ids
  | (name, .load mode packed ids documents sizes) =>
    (s.docLoad name mode packed ids documents sizes).map (fun r => (r.1, r.2.2))

theorem step_of_empty_name {name : CString} (hname : name.bytes = []) {op : DocOp}
    {status : Status} (hr : s.step (name, op) = some (status, t)) : status = .InvalidArg ∧ t = s := by
  cases op <;>
    simp only [step, collCreate, collDrop, docStore, docUpdate, docErase, docLoad, collExistsImpl,
      collGetMetadata, hname, if_true, ne_eq, reduceCtorEq, not_false_eq_true, Option.map_some,
      Option.some.injEq, Prod.mk.injEq] at hr <;>
    exact ⟨hr.1.symm, hr.2.symm⟩

/-- The mixin refines the family of collections: an operation that returns is the abstract
operation on the view. -/
theorem step_spec (h : Coherent s) {name : CString} {op : DocOp} (hwaits : op.waits = false)
    {status : Status} (hr : s.step (name, op) = some (status, t)) :
    Coherent t ∧ (status, t.view) = s.view.step (name, op) := by
  unfold Family.step
  by_cases hname : name.bytes = []
  · obtain ⟨rfl, rfl⟩ := step_of_empty_name hname hr
    exact ⟨h, by rw [if_pos hname]⟩
  · suffices hspec : Implements s t name status ((s.view name).step op) by
      refine ⟨hspec.coherent, ?_⟩
      rw [if_neg hname, hspec.status_eq, hspec.view_eq]
    cases op with
    | create =>
      obtain ⟨rfl, rfl⟩ := Prod.mk.inj (Option.some.inj hr)
      exact collCreate_spec h hname
    | drop mode => exact collDrop_spec h hname hwaits hr
    | store mode batch ids =>
      obtain ⟨⟨status', assigned, t'⟩, hstore, he⟩ := Option.map_eq_some_iff.1 hr
      obtain ⟨rfl, rfl⟩ := Prod.mk.inj he
      exact (docStore_spec h hname hstore).1
    | update mode ids batch =>
      refine docUpdate_spec h hname (fun hnew => ?_) hr
      simpa [DocOp.waits, hnew] using hwaits
    | erase mode ids => exact docErase_spec h hname hwaits hr
    | load mode packed ids documents sizes =>
      obtain ⟨⟨status', out, t'⟩, hload, he⟩ := Option.map_eq_some_iff.1 hr
      obtain ⟨rfl, rfl⟩ := Prod.mk.inj he
      exact docLoad_spec h hname hwaits hload

/-- The keys of an operation fit in the address space, and `docUpdate` can count them. -/
def Fits (name : CString) (c : Collection) : DocOp → Prop
  | .create => True
  | .drop _ => ∀ m, c.metadata = some m →
      m.nextId.toNat * (name.bytes.length + 1 + 8) + name.bytes.length < 2 ^ 64
  | .store _ _ ids => KeysFit name ids
  | .update _ ids _ => KeysFit name ids ∧ ids.length < 2 ^ 32
  | .erase _ ids => KeysFit name ids
  | .load _ _ ids _ _ => KeysFit name ids

theorem collDrop_isSome (h : Coherent s) {name : CString} (mode : Mode)
    (hfits : Fits name (s.view name) (.drop mode)) : (s.collDrop mode name).isSome := by
  unfold collDrop
  by_cases hname : name.bytes = []
  · simp [collExistsImpl, hname]
  · rw [collExistsImpl_spec h hname]
    cases hm : (s.view name).metadata with
    | none =>
      obtain ⟨u, hget, -⟩ := collGetMetadata_of_none h hname hm {}
      simp [hget]
    | some m =>
      obtain ⟨u, hget, -⟩ := collGetMetadata_of_some h hname hm {}
      have hroom := hfits m hm
      have hlen : m.idsBelow.length = m.nextId.toNat := by simp [CollectionMetadata.idsBelow]
      have hfit : KeysFit name m.idsBelow := by
        unfold KeysFit
        rw [hlen]
        omega
      have hids : (List.range m.nextId.toNat).map UInt64.ofNat = m.idsBelow := rfl
      have hbuffer : (m.idsBelow.map (keyFromId name)).flatten.length =
          m.nextId.toNat * (name.bytes.length + 1 + 8) := by
        rw [List.length_flatten, map_length_keyFromId, sum_idKeySizes, hlen]
      simp only [hget, ne_eq, not_true, if_false, hids, keysFromIds_of_fit hfit, hbuffer,
        if_neg (Nat.not_le.2 hroom), Option.isSome_some]

theorem docStore_isSome (h : Coherent s) {name : CString} (mode : Mode) (documents : Bytes)
    (sizes : List ℕ) {ids : List UInt64} (hfit : KeysFit name ids) :
    (s.docStore name mode documents sizes ids).isSome := by
  unfold docStore
  by_cases hname : name.bytes = []
  · simp [collGetMetadata, hname]
  · cases hm : (s.view name).metadata with
    | none =>
      obtain ⟨u, hget, -⟩ := collGetMetadata_of_none h hname hm {}
      simp [hget]
    | some m =>
      obtain ⟨u, hget, -⟩ := collGetMetadata_of_some h hname hm {}
      have hassigned : KeysFit name
          ((List.range ids.length).map (fun i => m.nextId + UInt64.ofNat i)) := by
        simpa [KeysFit] using hfit
      simp only [hget, ne_eq, not_true, if_false, keysFromIds_of_fit hassigned]
      split_ifs <;> rfl

theorem docUpdate_isSome {name : CString} (mode : Mode) {ids : List UInt64} (documents : Bytes)
    (sizes : List ℕ) (hfit : KeysFit name ids) (hcount : ids.length < 2 ^ 32) :
    (s.docUpdate name mode ids documents sizes).isSome := by
  unfold docUpdate knownIds
  simp only [keysFromIds_of_fit hfit, countAll_of_lt hcount, Option.map_some]
  split_ifs <;> rfl

theorem docErase_isSome {name : CString} (mode : Mode) {ids : List UInt64} (hfit : KeysFit name ids) :
    (s.docErase name mode ids).isSome := by
  unfold docErase
  rw [keysFromIds_of_fit hfit]
  split_ifs
  · rfl
  · dsimp only
    split_ifs <;> rfl

theorem docLoad_isSome {name : CString} (mode : Mode) (packed : Bool) {ids : List UInt64}
    (documents : Bytes) (sizes : List ℕ) (hfit : KeysFit name ids) :
    (s.docLoad name mode packed ids documents sizes).isSome := by
  unfold docLoad
  rw [keysFromIds_of_fit hfit]
  split_ifs
  · rfl
  · dsimp only
    split_ifs <;> rfl

/-- An operation whose keys fit in the address space, and can be counted, returns. -/
theorem step_isSome (h : Coherent s) {name : CString} {op : DocOp}
    (hfits : Fits name (s.view name) op) : (s.step (name, op)).isSome := by
  cases op with
  | create => rfl
  | drop mode => exact collDrop_isSome h mode hfits
  | store mode batch ids =>
    rw [step, Option.isSome_map]
    exact docStore_isSome h mode batch.documents batch.sizes hfits
  | update mode ids batch => exact docUpdate_isSome mode batch.documents batch.sizes hfits.1 hfits.2
  | erase mode ids => exact docErase_isSome mode hfits
  | load mode packed ids documents sizes =>
    rw [step, Option.isSome_map]
    exact docLoad_isSome mode packed documents sizes hfits

/-- A step of the mixin by an operation that does not wait and that meets a condition on its
collection. -/
def StepWhen (ok : Collection → DocOp → Prop) :
    DocumentStoreMixin σ → CString × DocOp → DocumentStoreMixin σ → Prop :=
  fun s op t => op.2.waits = false ∧ ok (s.view op.1) op.2 ∧ ∃ status, s.step op = some (status, t)

/-- A run of the mixin keeps what the abstract operations keep of each collection. -/
theorem run_invariant {ok : Collection → DocOp → Prop} {J : Collection → Prop}
    (hstep : ∀ c op, J c → ok c op → J (c.step op).2) {ops : List (CString × DocOp)}
    (hrun : Run (StepWhen ok) s ops t) (hs : Coherent s) (hJ : ∀ name, J (s.view name)) :
    Coherent t ∧ ∀ name, J (t.view name) := by
  have hkeep : ∀ (s : DocumentStoreMixin σ) op t, (Coherent s ∧ ∀ name, J (s.view name)) → StepWhen ok s op t →
      Coherent t ∧ ∀ name, J (t.view name) := by
    rintro s ⟨name, op⟩ t ⟨hs, hJ⟩ ⟨hwaits, hok, status, hr⟩
    obtain ⟨ht, hview⟩ := step_spec hs hwaits hr
    have hview : t.view = (s.view.step (name, op)).2 := congrArg Prod.snd hview
    refine ⟨ht, fun n => ?_⟩
    rw [hview, Family.step_apply]
    split_ifs
    · exact hstep _ _ (hJ name) hok
    · exact hJ n
  exact hrun.invariant hkeep ⟨hs, hJ⟩

/-- A run of the mixin is a run of the family. -/
theorem run_view {ok : Collection → DocOp → Prop} {ops : List (CString × DocOp)}
    (hrun : Run (StepWhen ok) s ops t) (hs : Coherent s) :
    Coherent t ∧ t.view = ops.foldl (fun v op => (v.step op).2) s.view := by
  have hrel : ∀ (s : DocumentStoreMixin σ) op t v, (Coherent s ∧ s.view = v) → StepWhen ok s op t →
      Coherent t ∧ t.view = (v.step op).2 := by
    rintro s op t v ⟨hs, rfl⟩ ⟨hwaits, -, status, hr⟩
    obtain ⟨ht, hview⟩ := step_spec hs hwaits hr
    exact ⟨ht, congrArg Prod.snd hview⟩
  exact hrun.simulation hrel ⟨hs, rfl⟩

/-- The operations of a list meet a condition, do not wait and fit in the address space, each on
the family that the ones before it leave. -/
def Permits (ok : Collection → DocOp → Prop) : Family → List (CString × DocOp) → Prop
  | _, [] => True
  | v, op :: ops =>
    (op.2.waits = false ∧ ok (v op.1) op.2 ∧ Fits op.1 (v op.1) op.2) ∧
      Permits ok (v.step op).2 ops

/-- Operations that are permitted on the family have a run of the mixin. -/
theorem exists_run {ok : Collection → DocOp → Prop} (hs : Coherent s)
    {ops : List (CString × DocOp)} (hpermits : Permits ok s.view ops) :
    ∃ t, Run (StepWhen ok) s ops t ∧ Coherent t ∧
      t.view = ops.foldl (fun v op => (v.step op).2) s.view := by
  suffices ∃ t, Run (StepWhen ok) s ops t by
    obtain ⟨t, hrun⟩ := this
    exact ⟨t, hrun, run_view hrun hs⟩
  induction ops generalizing s with
  | nil => exact ⟨s, Run.nil s⟩
  | cons op ops ih =>
    obtain ⟨name, op⟩ := op
    obtain ⟨⟨hwaits, hok, hfits⟩, hrest⟩ := hpermits
    obtain ⟨⟨status, t⟩, hr⟩ := Option.isSome_iff_exists.1 (step_isSome hs hfits)
    obtain ⟨ht, hview⟩ := step_spec hs hwaits hr
    have hview : t.view = (s.view.step (name, op)).2 := congrArg Prod.snd hview
    obtain ⟨u, hrun⟩ := ih ht (by rwa [hview])
    exact ⟨u, Run.cons ⟨hwaits, hok, status, hr⟩ hrun⟩

/-- The steps of the mixin are those of a function. -/
theorem stepWhen_eq (ok : Collection → DocOp → Prop) : StepWhen (σ := σ) ok =
    StepOption (fun s op => (s.step op).map Prod.snd) fun s op =>
      op.2.waits = false ∧ ok (s.view op.1) op.2 := by
  funext s op t
  simp only [StepWhen, StepOption, Option.map_eq_some_iff, Prod.exists, exists_eq_right, and_assoc]

/-- When a condition on the operations is what keeps `J` of each collection, the runs whose
operations meet it are those in which `J` holds throughout. -/
theorem run_when_iff {fits ok : Collection → DocOp → Prop} {J : Collection → Prop}
    (hok : ∀ c op, J c → fits c op → (ok c op ↔ J (c.step op).2))
    (hempty : ∀ op, ok ⟨none, fun _ => none⟩ op) (hnone : J ⟨none, fun _ => none⟩) (hs : Fresh s)
    {ops : List (CString × DocOp)} (hrun : Run (StepWhen fits) s ops t) :
    Run (StepWhen fun c op => fits c op ∧ ok c op) s ops t ↔
      Throughout (StepWhen fits) (fun u => ∀ name, J (u.view name)) s ops := by
  have hstart : ∀ name, s.view name = ⟨none, fun _ => none⟩ := fun name => by rw [hs.view_eq]
  simp only [stepWhen_eq, ← and_assoc] at hrun ⊢
  -- the empty name has no collection
  refine run_guarded_iff
    (I := fun s => Coherent s ∧ ∀ n : CString, n.bytes = [] → s.view n = ⟨none, fun _ => none⟩)
    ?_ ?_ ⟨hs.coherent, fun n _ => hstart n⟩ (fun n => (hstart n).symm ▸ hnone) hrun
  · rintro s ⟨name, op⟩ t ⟨hs, hunnamed⟩ ⟨⟨hwaits, -⟩, hr⟩
    obtain ⟨⟨status, u⟩, hstep, rfl⟩ := Option.map_eq_some_iff.1 hr
    obtain ⟨ht, hview⟩ := step_spec hs hwaits hstep
    refine ⟨ht, fun n hn => ?_⟩
    rw [show u.view = (s.view.step (name, op)).2 from congrArg Prod.snd hview, Family.step_apply,
      if_neg fun h => h.1 (h.2 ▸ hn)]
    exact hunnamed n hn
  · rintro s ⟨name, op⟩ t ⟨hs, hunnamed⟩ hJ ⟨⟨hwaits, hfits⟩, hr⟩
    obtain ⟨⟨status, u⟩, hstep, rfl⟩ := Option.map_eq_some_iff.1 hr
    obtain ⟨-, hview⟩ := step_spec hs hwaits hstep
    have hview : u.view = (s.view.step (name, op)).2 := congrArg Prod.snd hview
    have hiff := hok _ op (hJ name) hfits
    simp only [hview, Family.step_apply]
    by_cases hname : name.bytes = []
    · refine iff_of_true (hunnamed name hname ▸ hempty op) fun n => ?_
      rw [if_neg fun h => h.1 hname]
      exact hJ n
    · rw [hiff]
      refine ⟨fun hnext n => ?_, fun hall => ?_⟩
      · split_ifs
        · exact hnext
        · exact hJ n
      · have hnext := hall name
        rwa [if_pos ⟨hname, rfl⟩] at hnext

end Runs

end DocumentStoreMixin

end Yokan
