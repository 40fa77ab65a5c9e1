import Yokan.ArrayRefinement
import Yokan.DocMixinListing
import Yokan.Migration

/-!
# Yokan: migrating an `array` database

`ArrayMigrationHandle` writes the collections of an `array` database to a file, and `recover` of
the target reads them back (`src/backends/array.cpp`). A hole is written as a size without bytes,
and neither the offsets nor `m_count` are written: the target lays the documents out anew, and
nothing sets its `m_count`.

* `recover_snapshot`: the target has the collections of the source, with the same documents and
  holes, and a count of zero;
* `recover_answersAlike_iff`: it answers like the source exactly if no collection has a document.
-/

namespace Yokan

open Buffer LittleEndian ByteStream PartialMap Transition

/-- `resize` on a vector of bytes. -/
def resize (n : ℕ) (v : Bytes) : Option Bytes :=
  if vectorMaxSize 1 < n then none else some (v.take n ++ List.replicate (n - v.length) 0)

/-- The local variables of `ArrayDatabase::docList`, and the caller's memory. -/
structure ArrayListing where
  offset : ℕ
  i : ℕ
  ids : List UInt64
  documents : Bytes
  docSizes : List ℕ

/-- The callback that `ArrayDatabase::docList` gives to `docIter`. -/
def ArrayListing.callback (packed : Bool) (st : ArrayListing) (id : UInt64) (doc : Bytes) :
    Status × ArrayListing :=
  let slot := st.docSizes.getD st.i 0
  if packed ∧ st.documents.length < addSize st.offset doc.length then (.StopIteration, st)
  else if !packed ∧ slot < doc.length then
    (.OK, { st with i := st.i + 1, docSizes := st.docSizes.set st.i sizeTooSmall })
  else
    (.OK, { offset := addSize st.offset (if packed then doc.length else slot)
            i := st.i + 1
            ids := st.ids.set st.i id
            documents := blit st.documents st.offset doc
            docSizes := st.docSizes.set st.i doc.length })

namespace ArrayCollection

/-- The loop of `docIter` over the ids left. It has no result when the buffer cannot be resized. -/
def iterLoop {υ : Type} (coll : ArrayCollection) (name : CString) (max : ℕ)
    (filter : SizedDocFilter) (func : υ → UInt64 → Bytes → Status × υ) :
    List UInt64 → ℕ → Bytes → υ → Option (Status × υ)
  | [], _, _, u => some (.OK, u)
  | id :: rest, i, docBuffer, u =>
    if i < max then
      match coll.record id with
      | none => iterLoop coll name max filter func rest i docBuffer u
      | some (offset, size) =>
        let doc := slice coll.data offset size
        if !filter.check name id doc then
          if filter.shouldStop name doc then some (.OK, u)
          else iterLoop coll name max filter func rest i docBuffer u
        else
          match resize (filter.docSizeFrom name doc) docBuffer with
          | none => none
          | some docBuffer =>
            let (filteredSize, docBuffer) :=
              filter.docCopy name docBuffer 0 (filter.docSizeFrom name doc) doc
            let (status, u) := func u id (slice docBuffer 0 filteredSize)
            if status ≠ .OK then some (status, u)
            else iterLoop coll name max filter func rest (i + 1) docBuffer u
    else some (.OK, u)

/-- What the constructor of `ArrayMigrationHandle` writes for a document. -/
def documentRecord (data : Bytes) (p : ℕ × ℕ) : Bytes :=
  encode 8 p.1 ++ if p.1 = keyNotFound then [] else slice data p.2 p.1

/-- What it writes for a collection. -/
def collectionRecord (p : CString × ArrayCollection) : Bytes :=
  counted 8 p.1.bytes ++ encode 8 p.2.sizes.length ++
    (p.2.sizes.zip p.2.offsets).flatMap (documentRecord p.2.data)

/-- The loop of `recover` over the documents of a collection. It has no result when the file ends
early, which leaves the size it reads without a value, or when an exception leaves it. -/
def recoverDocuments : ℕ → Bytes → ℕ → ArrayCollection → Option (ArrayCollection × Bytes)
  | 0, ifs, _, coll => some (coll, ifs)
  | n + 1, ifs, docOffset, coll => do
    let (docSize, ifs) ← readWord 8 ifs
    let sizes ← pushBack coll.sizes docSize
    let offsets ← pushBack coll.offsets docOffset
    let coll := { coll with sizes, offsets }
    if docSize = keyNotFound then recoverDocuments n ifs docOffset coll
    else
      let data ← resize (docOffset + docSize) coll.data
      let (doc, ifs) ← read docSize ifs
      recoverDocuments n ifs (docOffset + docSize) { coll with data := blit data docOffset doc }

end ArrayCollection

namespace ArrayDatabase

/-- `docIter`. -/
def docIter {υ : Type} (s : ArrayDatabase) (name : CString) (max : ℕ) (fromId : UInt64)
    (filter : SizedDocFilter) (func : υ → UInt64 → Bytes → Status × υ) (u : υ) :
    Option (Status × υ) :=
  match s.collections name with
  | none => some (.NotFound, u)
  | some coll =>
    coll.iterLoop name max filter func
      (DocumentStoreMixin.idsFrom fromId (UInt64.ofNat coll.sizes.length)) 0 [] u

/-- `docList`. The arrays `ids` and `docSizes` have one slot for each document asked for. -/
def docList (s : ArrayDatabase) (name : CString) (packed : Bool) (fromId : UInt64)
    (filter : SizedDocFilter) (ids : List UInt64) (documents : Bytes) (docSizes : List ℕ) :
    Option (Status × List UInt64 × Bytes × List ℕ) := do
  let (status, st) ← s.docIter name ids.length fromId filter (ArrayListing.callback packed)
    ⟨0, 0, ids, documents, docSizes⟩
  let left := ids.length - st.i
  return (status, st.ids.take st.i ++ List.replicate left noMoreDocs, st.documents,
    st.docSizes.take st.i ++ List.replicate left noMoreKeys)

/-- The file that the constructor of `ArrayMigrationHandle` writes, when it finds the collections in
the order of `entries`. -/
def snapshot (entries : List (CString × ArrayCollection)) : Bytes :=
  encode 8 entries.length ++ entries.flatMap ArrayCollection.collectionRecord

/-- The loop of `recover` over the collections of the file. -/
def recoverCollections : ℕ → Bytes → (Bytes → Option ArrayCollection) →
    Option ((Bytes → Option ArrayCollection) × Bytes)
  | 0, ifs, collections => some (collections, ifs)
  | n + 1, ifs, collections => do
    let (nameSize, ifs) ← readWord 8 ifs
    if vectorMaxSize 1 < nameSize then none
    else
      let (name, ifs) ← read nameSize ifs
      let (collSize, ifs) ← readWord 8 ifs
      let (coll, ifs) ← ArrayCollection.recoverDocuments collSize ifs 0
        ((collections name).getD {})
      recoverCollections n ifs (Function.update collections name (some coll))

/-- The part of `recover` behind `create`, on the file `ifs`. Collections are found by the bytes of
their names. -/
def recover (ifs : Bytes) : Option (Status × ArrayDatabase × Bytes) := do
  let (numCollections, ifs) ← readWord 8 ifs
  let (collections, ifs) ← recoverCollections numCollections ifs fun _ => none
  return (.OK, ⟨fun name => collections name.bytes⟩, ifs)

end ArrayDatabase

/-! ### Collections with the same documents -/

namespace ArrayCollection

/-- Two collections with the same ids, whose records lead to the same bytes. -/
structure Alike (coll coll' : ArrayCollection) : Prop where
  sizes_eq : coll'.sizes = coll.sizes
  record : ∀ id, Option.Rel (fun r r' => r'.2 = r.2 ∧
    slice coll'.data r'.1 r'.2 = slice coll.data r.1 r.2) (coll.record id) (coll'.record id)

variable {coll coll' : ArrayCollection}

theorem Alike.loadPackedLoop_eq (h : Alike coll coll') (ids : List UInt64) (docPtr remaining : ℕ)
    (documents : Bytes) (sizes : List ℕ) :
    coll'.loadPackedLoop ids docPtr remaining documents sizes =
      coll.loadPackedLoop ids docPtr remaining documents sizes := by
  induction ids generalizing docPtr remaining documents sizes with
  | nil => rfl
  | cons id ids ih =>
    have hrecord := h.record id
    unfold loadPackedLoop
    generalize coll.record id = r, coll'.record id = r' at hrecord
    cases hrecord with
    | none => exact ih _ _ _ _
    | some hr =>
      dsimp only
      rw [hr.2, hr.1, ih]

theorem Alike.loadSlotsLoop_eq (h : Alike coll coll') (slots : List (UInt64 × ℕ)) (docPtr : ℕ)
    (documents : Bytes) (sizes : List ℕ) :
    coll'.loadSlotsLoop slots docPtr documents sizes =
      coll.loadSlotsLoop slots docPtr documents sizes := by
  induction slots generalizing docPtr documents sizes with
  | nil => rfl
  | cons slot slots ih =>
    obtain ⟨id, bufferSize⟩ := slot
    have hrecord := h.record id
    unfold loadSlotsLoop
    generalize coll.record id = r, coll'.record id = r' at hrecord
    cases hrecord with
    | none => exact ih _ _ _
    | some hr =>
      dsimp only
      rw [hr.2, hr.1, ih, ih]

theorem Alike.iterLoop_eq {υ : Type} (h : Alike coll coll') (name : CString) (max : ℕ)
    (filter : SizedDocFilter) (func : υ → UInt64 → Bytes → Status × υ) (ids : List UInt64) (i : ℕ)
    (docBuffer : Bytes) (u : υ) :
    coll'.iterLoop name max filter func ids i docBuffer u =
      coll.iterLoop name max filter func ids i docBuffer u := by
  induction ids generalizing i docBuffer u with
  | nil => rfl
  | cons id ids ih =>
    have hrecord := h.record id
    unfold iterLoop
    generalize coll.record id = r, coll'.record id = r' at hrecord
    cases hrecord with
    | none => simp only [ih]
    | some hr => simp only [hr.2, ih]

/-! ### A collection is read back -/

/-- The documents read back from the records of a collection lie one after the other. -/
theorem recoverDocuments_records (data : Bytes) (records : List (ℕ × ℕ))
    (hdata : ∀ p ∈ records, p.1 ≠ keyNotFound → p.2 + p.1 ≤ data.length)
    {t : ArrayCollection} (rest : Bytes)
    (hsizes : t.sizes.length + records.length ≤ vectorMaxSize 8)
    (hoffsets : t.offsets.length + records.length ≤ vectorMaxSize 8)
    (hbytes : t.data.length + (records.flatMap (documentRecord data)).length ≤ vectorMaxSize 1) :
    ∃ payload offsets,
      recoverDocuments records.length (records.flatMap (documentRecord data) ++ rest)
          t.data.length t =
        some (⟨t.data ++ payload, t.count, t.offsets ++ offsets, t.sizes ++ records.map Prod.fst⟩,
          rest) ∧
      List.Forall₂ (fun p offset => p.1 ≠ keyNotFound →
        slice (t.data ++ payload) offset p.1 = slice data p.2 p.1) records offsets := by
  induction records generalizing t with
  | nil => exact ⟨[], [], by simp [recoverDocuments], List.Forall₂.nil⟩
  | cons p records ih =>
    obtain ⟨size, offset⟩ := p
    have hmax : vectorMaxSize 1 < keyNotFound ∧ keyNotFound < 256 ^ 8 := by decide
    rw [List.length_cons] at hsizes hoffsets
    rw [List.flatMap_cons, List.length_append] at hbytes
    have htail : ∀ p ∈ records, p.1 ≠ keyNotFound → p.2 + p.1 ≤ data.length :=
      fun p hp => hdata p (List.mem_cons_of_mem _ hp)
    have hpushed := pushBack_of_lt (v := t.sizes) (by omega) size
    have hpushed' := pushBack_of_lt (v := t.offsets) (by omega) t.data.length
    by_cases hhole : size = keyNotFound
    · -- a hole has no bytes in the file
      obtain ⟨payload, offsets, hr, hall⟩ := ih htail
        (t := ⟨t.data, t.count, t.offsets ++ [t.data.length], t.sizes ++ [size]⟩)
        (by simp only [List.length_append, List.length_singleton]; omega)
        (by simp only [List.length_append, List.length_singleton]; omega)
        (by dsimp only; omega)
      have hword : documentRecord data (size, offset) = encode 8 size := by
        simp [documentRecord, hhole]
      refine ⟨payload, t.data.length :: offsets, ?_,
        List.Forall₂.cons (fun hne => absurd hhole hne) hall⟩
      rw [List.length_cons, recoverDocuments, List.flatMap_cons, hword, List.append_assoc,
        readWord_append (by omega)]
      simp only [Option.bind_eq_bind, Option.bind_some, hpushed, hpushed', if_pos hhole]
      rw [hr]
      simp
    · -- the document is read behind those that came before it
      have hin := hdata _ List.mem_cons_self hhole
      have hlen : (slice data offset size).length = size := length_slice_of_le hin
      have hword : documentRecord data (size, offset) = encode 8 size ++ slice data offset size := by
        simp [documentRecord, hhole]
      rw [hword, List.length_append, length_encode, hlen] at hbytes
      obtain ⟨payload, offsets, hr, hall⟩ := ih htail
        (t := ⟨t.data ++ slice data offset size, t.count, t.offsets ++ [t.data.length],
          t.sizes ++ [size]⟩)
        (by simp only [List.length_append, List.length_singleton]; omega)
        (by simp only [List.length_append, List.length_singleton]; omega)
        (by simp only [List.length_append, hlen]; omega)
      have hresize : resize (t.data.length + size) t.data =
          some (t.data ++ List.replicate size 0) := by
        rw [resize, if_neg (by omega), List.take_of_length_le (by omega), Nat.add_sub_cancel_left]
      have hread := read_append (slice data offset size)
        (records.flatMap (documentRecord data) ++ rest)
      have hblit : blit (t.data ++ List.replicate size 0) t.data.length (slice data offset size) =
          t.data ++ slice data offset size := by
        simp [blit, hlen]
      rw [List.append_assoc] at hr hall
      refine ⟨slice data offset size ++ payload, t.data.length :: offsets, ?_,
        List.Forall₂.cons (fun _ => ?_) hall⟩
      · rw [hlen] at hread
        rw [List.length_cons, recoverDocuments, List.flatMap_cons, hword, List.append_assoc,
          List.append_assoc, readWord_append (by omega)]
        simp only [Option.bind_eq_bind, Option.bind_some, hpushed, hpushed', if_neg hhole, hresize,
          hread, hblit]
        rw [List.length_append, hlen] at hr
        rw [hr]
        simp
      · have hslice := slice_append_right t.data (slice data offset size ++ payload) 0 size
        have hfull := slice_full (slice data offset size) payload
        rw [hlen] at hfull
        rw [Nat.add_zero, hfull] at hslice
        exact hslice

/-- What `recover` makes of a collection: the same documents, and a count of zero. -/
structure Recovered (coll coll' : ArrayCollection) : Prop where
  alike : Alike coll coll'
  count_eq : coll'.count = 0

theorem alike_of_forall₂ (hlen : coll.offsets.length = coll.sizes.length)
    (hsizes : coll'.sizes = coll.sizes)
    (hall : List.Forall₂ (fun p offset => p.1 ≠ keyNotFound →
      slice coll'.data offset p.1 = slice coll.data p.2 p.1) (coll.sizes.zip coll.offsets)
      coll'.offsets) : Alike coll coll' where
  sizes_eq := hsizes
  record id := by
    obtain ⟨hlength, hget⟩ := List.forall₂_iff_get.1 hall
    rw [List.length_zip, hlen, min_self] at hlength
    unfold record
    rw [hsizes]
    by_cases hid : id.toNat < coll.sizes.length
    · have hoffset := List.getElem?_eq_getElem (l := coll.offsets) (i := id.toNat) (by omega)
      have hoffset' := List.getElem?_eq_getElem (l := coll'.offsets) (i := id.toNat) (by omega)
      rw [hoffset, hoffset', List.getElem?_eq_getElem hid]
      dsimp only
      by_cases hhole : coll.sizes[id.toNat] = keyNotFound
      · rw [if_pos hhole, if_pos hhole]
        exact Option.Rel.none
      · rw [if_neg hhole, if_neg hhole]
        have hslice := hget id.toNat (by rw [List.length_zip]; omega) (by omega)
        simp only [List.get_eq_getElem, List.getElem_zip] at hslice
        exact Option.Rel.some ⟨rfl, hslice hhole⟩
    · have hoffset := List.getElem?_eq_none (l := coll.offsets) (i := id.toNat) (by omega)
      have hoffset' := List.getElem?_eq_none (l := coll'.offsets) (i := id.toNat) (by omega)
      rw [hoffset, hoffset']
      exact Option.Rel.none

end ArrayCollection

namespace ArrayDatabase

open ArrayCollection

variable {s t : ArrayDatabase}

/-- The collections of a database, in the order in which they are iterated over. -/
structure Enumerates (entries : List (CString × ArrayCollection)) (s : ArrayDatabase) : Prop where
  nodup : (entries.map Prod.fst).Nodup
  mem_iff : ∀ name coll, (name, coll) ∈ entries ↔ s.collections name = some coll

/-- The collections of a file are read back under their names. -/
theorem recoverCollections_records {entries : List (CString × ArrayCollection)}
    (hnodup : (entries.map Prod.fst).Nodup)
    (hholds : ∀ p ∈ entries, ∃ m, Holds p.2 m)
    (hbytes : (entries.flatMap collectionRecord).length ≤ vectorMaxSize 1)
    (collections : Bytes → Option ArrayCollection)
    (hnew : ∀ p ∈ entries, collections p.1.bytes = none) :
    ∃ collections', recoverCollections entries.length (entries.flatMap collectionRecord)
        collections = some (collections', []) ∧
      (∀ p ∈ entries, ∃ coll', collections' p.1.bytes = some coll' ∧ Recovered p.2 coll') ∧
      ∀ bytes, (∀ p ∈ entries, p.1.bytes ≠ bytes) → collections' bytes = collections bytes := by
  induction entries generalizing collections with
  | nil => exact ⟨collections, rfl, by simp, fun _ _ => rfl⟩
  | cons p entries ih =>
    obtain ⟨name, coll⟩ := p
    have hmax : vectorMaxSize 1 < 256 ^ 8 ∧ vectorMaxSize 8 < 256 ^ 8 := by decide
    obtain ⟨m, hm⟩ : ∃ m, Holds coll m := hholds _ List.mem_cons_self
    have hrep := hm.represents
    rw [List.map_cons, List.nodup_cons] at hnodup
    rw [List.flatMap_cons, List.length_append] at hbytes
    have hrecord : (collectionRecord (name, coll)).length = 8 + name.bytes.length + 8 +
        ((coll.sizes.zip coll.offsets).flatMap (documentRecord coll.data)).length := by
      simp only [collectionRecord, List.length_append, length_counted, length_encode]
    have hzip : (coll.sizes.zip coll.offsets).length = coll.sizes.length := by
      rw [List.length_zip, hrep.length_offsets, min_self]
    have hle := hrep.length_le
    obtain ⟨payload, offsets, hr, hall⟩ := recoverDocuments_records coll.data
      (coll.sizes.zip coll.offsets) (t := {}) (fun p hp hhole => by
        obtain ⟨i, hi, rfl⟩ := List.getElem_of_mem hp
        rw [List.length_zip] at hi
        rw [List.getElem_zip] at hhole ⊢
        exact hm.wellFormed.in_data i _ _ (List.getElem?_eq_getElem _)
          (List.getElem?_eq_getElem _) hhole)
      (entries.flatMap collectionRecord) (by rw [hzip]; simpa using hle)
      (by rw [hzip]; simpa using hle) (by simp only [List.length_nil]; omega)
    have hfst : (coll.sizes.zip coll.offsets).map Prod.fst = coll.sizes :=
      List.map_fst_zip (by rw [hrep.length_offsets])
    rw [hzip, hfst] at hr
    simp only [List.nil_append, List.length_nil] at hr hall
    -- the names that are left differ from this one
    have hother : ∀ q ∈ entries, q.1.bytes ≠ name.bytes := fun q hq he =>
      hnodup.1 (List.mem_map.2 ⟨q, hq, CString.ext he⟩)
    obtain ⟨collections', hcols, hmem, hrest⟩ := ih hnodup.2
      (fun q hq => hholds q (List.mem_cons_of_mem _ hq)) (by omega)
      (Function.update collections name.bytes (some ⟨payload, 0, offsets, coll.sizes⟩)) (fun q hq => by
        rw [Function.update_of_ne (hother q hq)]
        exact hnew q (List.mem_cons_of_mem _ hq))
    refine ⟨collections', ?_, ?_, ?_⟩
    · rw [List.length_cons, recoverCollections, List.flatMap_cons, collectionRecord, counted]
      simp only [List.append_assoc]
      rw [readWord_append (by omega)]
      simp only [Option.bind_eq_bind, Option.bind_some]
      rw [if_neg (by omega), read_append, Option.bind_some,
        readWord_append (show coll.sizes.length < 256 ^ 8 by omega)]
      simp only [Option.bind_some, hnew _ List.mem_cons_self, Option.getD_none]
      rw [hr]
      exact hcols
    · intro q hq
      rcases List.mem_cons.1 hq with rfl | hq
      · refine ⟨⟨payload, 0, offsets, coll.sizes⟩, ?_, ?_, rfl⟩
        · rw [hrest _ hother]
          exact Function.update_self ..
        · exact alike_of_forall₂ hrep.length_offsets rfl hall
      · exact hmem q hq
    · intro bytes hne
      rw [hrest _ fun q hq => hne q (List.mem_cons_of_mem _ hq)]
      exact Function.update_of_ne (hne _ List.mem_cons_self).symm ..

/-- Every collection of a database is recovered, and nothing else. -/
def AllRecovered (s t : ArrayDatabase) : Prop :=
  ∀ name, Option.Rel Recovered (s.collections name) (t.collections name)

/-- `recover` reads the file of a migration to its end, and returns `OK`. -/
theorem recover_snapshot {f : CString → Option (IdMap Bytes)} (h : Refines s f)
    {entries : List (CString × ArrayCollection)} (hes : Enumerates entries s)
    (hfile : IsFile (snapshot entries)) :
    ∃ t, recover (snapshot entries) = some (.OK, t, []) ∧ AllRecovered s t := by
  unfold IsFile at hfile
  have hmax : vectorMaxSize 1 = 2 ^ 63 - 1 := by decide
  rw [snapshot, List.length_append, length_encode] at hfile
  have hcount : entries.length ≤ (entries.flatMap collectionRecord).length := by
    have hone := List.length_le_sum_of_one_le (entries.map fun p => (collectionRecord p).length)
      (fun n hn => by
        obtain ⟨p, -, rfl⟩ := List.mem_map.1 hn
        simp only [collectionRecord, List.length_append, length_counted]
        omega)
    rw [List.length_flatMap]
    rwa [List.length_map] at hone
  obtain ⟨collections, hr, hmem, hrest⟩ := recoverCollections_records hes.nodup
    (fun p hp => by
      have hcoll := (hes.mem_iff p.1 p.2).1 hp
      have hname := h p.1
      generalize f p.1 = m at hname
      rw [hcoll] at hname
      cases hname with
      | some hm => exact ⟨_, hm⟩) (by omega) (fun _ => none) fun _ _ => rfl
  refine ⟨⟨fun name => collections name.bytes⟩, ?_, fun name => ?_⟩
  · rw [recover, snapshot, readWord_append (by omega)]
    simp only [Option.bind_eq_bind, Option.bind_some]
    rw [hr]
    rfl
  · cases hcoll : s.collections name with
    | none =>
      have hno : ∀ p ∈ entries, p.1.bytes ≠ name.bytes := by
        intro p hp he
        have hp' := (hes.mem_iff p.1 p.2).1 hp
        rw [CString.ext he, hcoll] at hp'
        cases hp'
      dsimp only
      rw [hrest _ hno]
      exact Option.Rel.none
    | some coll =>
      obtain ⟨coll', hcoll', hrec⟩ := hmem _ ((hes.mem_iff name coll).2 hcoll)
      dsimp only at hcoll' hrec ⊢
      rw [hcoll']
      exact Option.Rel.some hrec

/-! ### What the target answers -/

/-- Two databases answer every query alike, the numbers of documents apart. -/
structure DocumentsAlike (s t : ArrayDatabase) : Prop where
  collExists : ∀ name, t.collExists name = s.collExists name
  collLastID : ∀ name id, t.collLastID name id = s.collLastID name id
  docSize : ∀ name ids sizes, t.docSize name ids sizes = s.docSize name ids sizes
  docLoad : ∀ name packed ids documents sizes,
    t.docLoad name packed ids documents sizes = s.docLoad name packed ids documents sizes
  docIter : ∀ {υ : Type} name max fromId filter (func : υ → UInt64 → Bytes → Status × υ) u,
    t.docIter name max fromId filter func u = s.docIter name max fromId filter func u
  docList : ∀ name packed fromId filter ids documents docSizes,
    t.docList name packed fromId filter ids documents docSizes =
      s.docList name packed fromId filter ids documents docSizes

/-- Two databases answer every query alike. -/
structure AnswersAlike (s t : ArrayDatabase) : Prop extends DocumentsAlike s t where
  collSize : ∀ name size, t.collSize name size = s.collSize name size

theorem AllRecovered.docIter_eq (h : AllRecovered s t) {υ : Type} (name : CString) (max : ℕ)
    (fromId : UInt64) (filter : SizedDocFilter) (func : υ → UInt64 → Bytes → Status × υ) (u : υ) :
    t.docIter name max fromId filter func u = s.docIter name max fromId filter func u := by
  have hname := h name
  unfold docIter
  generalize s.collections name = coll, t.collections name = coll' at hname
  cases hname with
  | none => rfl
  | some hrec =>
    dsimp only
    rw [hrec.alike.sizes_eq, hrec.alike.iterLoop_eq]

theorem AllRecovered.documentsAlike (h : AllRecovered s t) : DocumentsAlike s t := by
  constructor
  case collExists =>
    intro name
    have hname := h name
    unfold ArrayDatabase.collExists
    generalize s.collections name = coll, t.collections name = coll' at hname
    cases hname <;> rfl
  case collLastID =>
    intro name id
    have hname := h name
    unfold ArrayDatabase.collLastID
    generalize s.collections name = coll, t.collections name = coll' at hname
    cases hname with
    | none => rfl
    | some hrec =>
      dsimp only
      rw [hrec.alike.sizes_eq]
  case docSize =>
    intro name ids sizes
    have hname := h name
    unfold ArrayDatabase.docSize
    generalize s.collections name = coll, t.collections name = coll' at hname
    cases hname with
    | none => rfl
    | some hrec =>
      dsimp only
      rw [hrec.alike.sizes_eq]
  case docLoad =>
    intro name packed ids documents sizes
    have hname := h name
    unfold ArrayDatabase.docLoad
    generalize s.collections name = coll, t.collections name = coll' at hname
    cases hname with
    | none => rfl
    | some hrec =>
      dsimp only
      rw [hrec.alike.loadPackedLoop_eq, hrec.alike.loadSlotsLoop_eq]
  case docIter => exact fun name max fromId filter func u => h.docIter_eq name max fromId filter func u
  case docList =>
    intro name packed fromId filter ids documents docSizes
    unfold ArrayDatabase.docList
    rw [h.docIter_eq]

/-- No collection of the database has a document. -/
def NoDocuments (s : ArrayDatabase) : Prop :=
  ∀ name coll, s.collections name = some coll → ∀ size ∈ coll.sizes, size = keyNotFound

/-- After any run, the target of a migration has the documents of its source, and it also answers
`collSize` like its source exactly if the source has no document. -/
theorem recover_answersAlike_iff {ops : List (CString × DocOp)} (hrun : Run Step empty ops s)
    {entries : List (CString × ArrayCollection)} (hes : Enumerates entries s)
    (hfile : IsFile (snapshot entries)) :
    ∃ t, recover (snapshot entries) = some (.OK, t, []) ∧ DocumentsAlike s t ∧
      (AnswersAlike s t ↔ NoDocuments s) := by
  have hrefines := run_refines hrun
  obtain ⟨t, hr, hall⟩ := recover_snapshot hrefines hes hfile
  refine ⟨t, hr, hall.documentsAlike, fun halike => ?_, fun hno => ⟨hall.documentsAlike, ?_⟩⟩
  · intro name coll hcoll
    have hsize := halike.collSize name 0
    have hname := hall name
    have hholds := hrefines name
    unfold collSize at hsize
    generalize t.collections name = coll', List.foldl docFamilyStep _ ops name = m
      at hname hholds hsize
    rw [hcoll] at hname hholds hsize
    cases hname with
    | some hrec =>
      cases hholds with
      | some hm =>
        have hzero : coll.sizes.countP (· ≠ keyNotFound) = 0 := by
          rw [← hm.represents.count_eq, ← (Prod.mk.inj hsize).2, hrec.count_eq]
          rfl
        simpa using List.countP_eq_zero.1 hzero
  · intro name size
    have hname := hall name
    have hholds := hrefines name
    have hnone := hno name
    unfold collSize
    generalize s.collections name = coll, t.collections name = coll',
      List.foldl docFamilyStep _ ops name = m at hname hholds hnone
    cases hname with
    | none => rfl
    | some hrec =>
      cases hholds with
      | some hm =>
        have hcount := hm.represents.count_eq
        rw [List.countP_eq_zero.2 fun size hsize => by simpa using hnone _ rfl size hsize]
          at hcount
        dsimp only
        rw [hrec.count_eq, UInt64.toNat_inj.1 (hcount.trans UInt64.toNat_zero.symm)]

/-- A database with one collection, which has one document. -/
def oneDocument : ArrayCollection := ⟨[7], 1, [0], [1]⟩

theorem run_oneDocument :
    Run Step empty [(nameC, .create), (nameC, .store .default (oneDoc 7) [0])]
      ⟨Function.update (fun _ => none) nameC (some oneDocument)⟩ := by
  have hcreate : Run Step empty [(nameC, .create)] ⟨Function.update (fun _ => none) nameC (some {})⟩ :=
    Run.snoc (Run.nil empty) ⟨trivial, _, rfl⟩
  have hstore : step ⟨Function.update (fun _ => none) nameC (some {})⟩
      (nameC, .store .default (oneDoc 7) [0]) =
        some (.OK, ⟨Function.update (Function.update (fun _ => none) nameC (some {})) nameC
          (some oneDocument)⟩) := rfl
  rw [Function.update_idem] at hstore
  exact Run.snoc hcreate ⟨⟨rfl, rfl⟩, .OK, hstore⟩

theorem enumerates_one (name : CString) (coll : ArrayCollection) :
    Enumerates [(name, coll)] ⟨Function.update (fun _ => none) name (some coll)⟩ where
  nodup := by simp
  mem_iff name' coll' := by
    by_cases h : name' = name
    · subst h
      simp [eq_comm]
    · simp [h]

/-- The same collection after the document has been erased. -/
def erasedDocument : ArrayCollection := ⟨[7], 0, [keyNotFound], [keyNotFound]⟩

theorem run_erasedDocument :
    Run Step empty [(nameC, .create), (nameC, .store .default (oneDoc 7) [0]),
        (nameC, .erase .default [0])]
      ⟨Function.update (fun _ => none) nameC (some erasedDocument)⟩ := by
  have herase : step ⟨Function.update (fun _ => none) nameC (some oneDocument)⟩
      (nameC, .erase .default [0]) =
        some (.OK, ⟨Function.update (Function.update (fun _ => none) nameC (some oneDocument)) nameC
          (some erasedDocument)⟩) := rfl
  rw [Function.update_idem] at herase
  exact Run.snoc run_oneDocument ⟨trivial, .OK, herase⟩

/-- The targets for a source with one document, and for one whose document has been erased. -/
theorem recover_answersAlike_iff_one :
    (∃ t, recover (snapshot [(nameC, oneDocument)]) = some (.OK, t, []) ∧
      DocumentsAlike ⟨Function.update (fun _ => none) nameC (some oneDocument)⟩ t ∧
      ¬ AnswersAlike ⟨Function.update (fun _ => none) nameC (some oneDocument)⟩ t) ∧
    ∃ t, recover (snapshot [(nameC, erasedDocument)]) = some (.OK, t, []) ∧
      AnswersAlike ⟨Function.update (fun _ => none) nameC (some erasedDocument)⟩ t := by
  constructor
  · obtain ⟨t, hr, hdocuments, hiff⟩ := recover_answersAlike_iff run_oneDocument
      (enumerates_one nameC oneDocument) (by unfold IsFile; decide)
    refine ⟨t, hr, hdocuments, fun halike => ?_⟩
    have hcoll := ((enumerates_one nameC oneDocument).mem_iff _ _).1 (List.mem_singleton.2 rfl)
    exact absurd (hiff.1 halike nameC oneDocument hcoll 1 (by decide)) (by decide)
  · obtain ⟨t, hr, -, hiff⟩ := recover_answersAlike_iff run_erasedDocument
      (enumerates_one nameC erasedDocument) (by unfold IsFile; decide)
    refine ⟨t, hr, hiff.2 fun name coll hcoll size hsize => ?_⟩
    have hentry := ((enumerates_one nameC erasedDocument).mem_iff _ _).2 hcoll
    obtain ⟨rfl, rfl⟩ := Prod.mk.inj (List.mem_singleton.1 hentry)
    exact List.mem_singleton.1 hsize

/-- A collection with one document is recovered as one of size zero. -/
theorem count_not_recovered :
    ¬ ∀ (ops : List (CString × DocOp)) (s : ArrayDatabase)
      (entries : List (CString × ArrayCollection)), Run Step empty ops s → Enumerates entries s →
      IsFile (snapshot entries) →
      ∃ t, recover (snapshot entries) = some (.OK, t, []) ∧ AnswersAlike s t := by
  intro h
  obtain ⟨t, hr, halike⟩ := h _ _ _ run_oneDocument (enumerates_one nameC oneDocument)
    (by unfold IsFile; decide)
  have hsize : (recover (snapshot [(nameC, oneDocument)])).map (fun r => r.2.1.collSize nameC 0) =
      some (.OK, 0) := by decide
  rw [hr, Option.map_some, halike.collSize] at hsize
  simp [collSize, oneDocument] at hsize

end ArrayDatabase

end Yokan
