import Yokan.LogStatus

/-!
# Yokan: what an update of the `log` backend reports

The status of `update` (`src/backends/log.cpp`) against what a later `read` finds, and against what
was written while it ran, in the collections that calls lead to, opened again or not. `update`
reports success whatever its second pass did.

* `Visits`: the states that an update goes through;
* `every_iff`: which documents are stored at some time;
* `last_iff`: which documents are read afterwards;
* `update_truthful_iff`: when the status is what it should be.
-/

namespace Yokan

open Buffer Transition

namespace LogCollection

variable {c c' : LogCollection} {m : IdMap Bytes}

/-- The entry of an id has a region. -/
def Placed (c : LogCollection) (id : ℕ) : Prop :=
  id < c.header.nextId ∧ (c.entries id).offset ≠ keyNotFound

instance (c : LogCollection) (id : ℕ) : Decidable (c.Placed id) :=
  inferInstanceAs (Decidable (_ ∧ _))

theorem Stands.placed_iff (h : Stands c m) (id : ℕ) : c.Placed id ↔ (m.docs id).isSome := by
  constructor
  · rintro ⟨hid, hoffset⟩
    cases hdoc : m.docs id with
    | none => exact absurd (h.lost id hid hdoc) hoffset
    | some doc => rfl
  · intro hsome
    obtain ⟨doc, hdoc⟩ := Option.isSome_iff_exists.1 hsome
    exact ⟨h.represents.lt_next hsome, h.placed id doc hdoc⟩

/-- The passes write the document: one that fits in the space of its entry, if the entry has a
region, and any other one if it leaves room for the first word of a chunk. -/
def Storable (c : LogCollection) (p : ℕ × Bytes) : Prop :=
  if p.2.length ≤ c.allocatedFor p.1 then c.Placed p.1 else p.2.length + 8 ≤ c.chunkSize

instance (c : LogCollection) (p : ℕ × Bytes) : Decidable (c.Storable p) := by
  unfold Storable
  infer_instance

/-- The document listed last for an id is written last: it does not fit in the space of the entry,
or all documents listed for the id do. -/
def LastStays (c : LogCollection) (docs : List (ℕ × Bytes)) (id : ℕ) : Prop :=
  (∃ doc ∈ (IdMap.listed id docs).getLast?, c.allocatedFor id < doc.length) ∨
    ∀ doc ∈ IdMap.listed id docs, doc.length ≤ c.allocatedFor id

instance (c : LogCollection) (docs : List (ℕ × Bytes)) (id : ℕ) :
    Decidable (c.LastStays docs id) := by
  unfold LastStays
  infer_instance

/-- The documents that do not fit in the space of their entry. -/
def moved (c : LogCollection) (docs : List (ℕ × Bytes)) : List (ℕ × Bytes) :=
  docs.filter fun p => !reuses c.allocatedFor p

/-- The chunk of an entry, which is the last one when the entry is new. -/
def chunkFor (c : LogCollection) (id : ℕ) : ℕ :=
  if id < c.header.nextId then (c.entries id).chunk else c.header.lastChunkId

/-- When the documents have been written, the chunk of the entry is the last one. -/
def InLastChunk (c : LogCollection) (docs : List (ℕ × Bytes)) (id : ℕ) : Prop :=
  (IdMap.listed id (((c.moved docs).map Prod.fst).zip (c.chunksOf (c.moved docs)))).getLastD
    (c.chunkFor id) = (c.chunksOf (c.moved docs)).getLastD c.header.lastChunkId

instance (c : LogCollection) (docs : List (ℕ × Bytes)) (id : ℕ) :
    Decidable (c.InLastChunk docs id) :=
  inferInstanceAs (Decidable (_ = _))

/-- The collection while an `update` runs, before or after a document. -/
inductive Visits (c : LogCollection) (ids : List UInt64) (batch : DocBatch) : LogCollection → Prop
  | inPlace {c₁ c' : LogCollection} {es : List EntryMetadata} (k : ℕ) :
      createEntries ((maxID ids).toNat + 1 - c.header.nextId) c = .ok (.OK, c₁) →
      inPlacePass batch.documents ((ids.zip batch.sizes).take k) 0 c₁ [] = .ok (.OK, es, c') →
      Visits c ids batch c'
  | appended {c₁ c₂ c' : LogCollection} {es : List EntryMetadata} {next : ℕ}
      {status : Option Status} (k : ℕ) :
      createEntries ((maxID ids).toNat + 1 - c.header.nextId) c = .ok (.OK, c₁) →
      inPlacePass batch.documents (ids.zip batch.sizes) 0 c₁ [] = .ok (.OK, es, c₂) →
      c₂.nextOffset = .ok (.OK, next) →
      appendPass batch.documents (((ids.zip batch.sizes).zip es).take k) 0 next c₂ =
        .ok (status, c') → Visits c ids batch c'

/-- A document of the batch was stored: at some time its entry pointed to it. -/
def Stored (c : LogCollection) (ids : List UInt64) (batch : DocBatch) (p : ℕ × Bytes) : Prop :=
  ∃ c', Visits c ids batch c' ∧ c'.PointsTo (c'.entries p.1) p.2

/-- What the status of an `update` should mean: if it is OK, the last document given for each id of
the batch can be read, and all documents of the batch were stored. -/
structure ReportsTruthfully (c : LogCollection) (ids : List UInt64) (batch : DocBatch)
    (r : Status × LogCollection) : Prop where
  last : r.1 = .OK → ∀ id ∈ ids, ∀ doc,
    (IdMap.listed id.toNat (under ids batch)).getLast? = some doc → r.2.Reads id doc
  every : r.1 = .OK → ∀ p ∈ under ids batch, Stored c ids batch p

/-! ### What an update goes through -/

theorem docsAt_take (data : Bytes) (docOffset k : ℕ) (docs : List (UInt64 × ℕ)) :
    docsAt data docOffset (docs.take k) = (docsAt data docOffset docs).take k := by
  induction docs generalizing docOffset k with
  | nil => rw [List.take_nil, docsAt, List.map_nil, List.zip_nil_left, List.take_nil]
  | cons p docs ih =>
    obtain ⟨id, size⟩ := p
    cases k with
    | zero => rfl
    | succ k => rw [List.take_succ_cons, docsAt_cons, docsAt_cons, List.take_succ_cons, ih]

section Passing

variable {batch : DocBatch} {ids : List UInt64}

/-- A collection in which an update makes its passes. -/
structure Ready (c : LogCollection) (m : IdMap Bytes) (ids : List UInt64) (batch : DocBatch) :
    Prop where
  kept : Kept c m
  holds : batch.Holds ids.length
  lt_next : ∀ id ∈ ids, id.toNat < c.header.nextId
  maps : ∀ id ∈ ids, c.Maps id.toNat
  sizes_le : ∀ size ∈ batch.sizes, size ≤ c.chunkSize

namespace Ready

theorem sum_take_le (h : Ready c m ids batch) (k : ℕ) :
    (((ids.zip batch.sizes).take k).map Prod.snd).sum ≤ batch.documents.length := by
  obtain ⟨hcount, hsum⟩ := h.holds
  have hsnd : (ids.zip batch.sizes).map Prod.snd = batch.sizes := List.map_snd_zip hcount.ge
  refine le_trans ?_ hsum
  rw [List.map_take, hsnd]
  exact List.Sublist.sum_le_sum (List.take_sublist k _) fun _ _ => Nat.zero_le _

theorem docsAt_eq (h : Ready c m ids batch) :
    docsAt batch.documents 0 (ids.zip batch.sizes) = under ids batch := docsAt_zip h.holds.1

/-- The first pass, up to some document. -/
theorem inPlacePass_take (h : Ready c m ids batch) (k : ℕ) :
    Ensures (fun _ => True) (inPlacePass batch.documents ((ids.zip batch.sizes).take k) 0 c [])
      (fun r => r.1 = .OK ∧
        r.2.1.map EntryMetadata.allocated =
          ((ids.zip batch.sizes).take k).map (fun p => c.allocatedFor p.1.toNat) ∧
        r.2.2.metaSize = c.metaSize ∧ r.2.2.chunkSize = c.chunkSize ∧
        r.2.2.header.nextId = c.header.nextId ∧
        Kept r.2.2 (m.write (inPlace c.allocatedFor m ((under ids batch).take k)))) := by
  have hmem : ∀ p ∈ (ids.zip batch.sizes).take k, p.1 ∈ ids := fun p hp =>
    (List.of_mem_zip (List.mem_of_mem_take hp)).1
  refine (inPlacePass_kept h.kept (fun p hp => h.lt_next _ (hmem p hp))
    (fun p hp => h.maps _ (hmem p hp)) (h.sum_take_le k)).mono ?_
  rintro r hr
  rw [docsAt_take, h.docsAt_eq] at hr
  exact hr

end Ready

namespace Ready

/-- The second pass, up to some document. -/
theorem appendPass_take (h : Ready c m ids batch) {es : List EntryMetadata}
    (hfirst : inPlacePass batch.documents (ids.zip batch.sizes) 0 c [] = .ok (.OK, es, c'))
    (k : ℕ) : c'.nextOffset = .ok (.OK, c'.used) ∧
      ∃ c'', appendPass batch.documents (((ids.zip batch.sizes).zip es).take k) 0 c'.used c' =
          .ok (none, c'') ∧ c''.header.nextId = c.header.nextId ∧
        c''.chunkSize = c.chunkSize ∧
        Kept c'' ((m.write (inPlace c.allocatedFor m (under ids batch))).write
          (appended c.allocatedFor c.chunkSize ((under ids batch).take k))) := by
  have hlen : (under ids batch).length ≤ (ids.zip batch.sizes).length := by
    rw [← h.docsAt_eq, docsAt, List.length_zip, List.length_map]
    exact Nat.min_le_left _ _
  have hpass := h.inPlacePass_take (ids.zip batch.sizes).length
  rw [List.take_length, List.take_of_length_le hlen] at hpass
  obtain ⟨-, hes, hsize, hchunkSize, hnext, hkept⟩ := hpass.of_eq_ok hfirst
  have hsize : c'.metaSize = c.metaSize := hsize
  have hchunkSize : c'.chunkSize = c.chunkSize := hchunkSize
  have hnext : c'.header.nextId = c.header.nextId := hnext
  have hkept : Kept c' (m.write (inPlace c.allocatedFor m (under ids batch))) := hkept
  have hmem : ∀ p ∈ (ids.zip batch.sizes).take k, p.1 ∈ ids ∧ p.2 ∈ batch.sizes := fun p hp =>
    List.of_mem_zip (List.mem_of_mem_take hp)
  have hlt : ∀ p ∈ (ids.zip batch.sizes).take k, p.1.toNat < c'.header.nextId := fun p hp => by
    rw [hnext]
    exact h.lt_next _ (hmem p hp).1
  have hes' : (es.take k).map EntryMetadata.allocated =
      ((ids.zip batch.sizes).take k).map (fun p => c.allocatedFor p.1.toNat) := by
    rw [List.map_take, List.map_take]
    exact congrArg (List.take k) hes
  obtain ⟨c'', happend, hchunkSize', hnext', hstands, -⟩ := appendPass_stands 0 hkept.stands hes'
    hlt (fun p hp => by
      show p.2 ≤ c'.chunkSize
      rw [hchunkSize]
      exact h.sizes_le _ (hmem p hp).2)
    (by rw [Nat.zero_add]; exact h.sum_take_le k)
  rw [docsAt_take, h.docsAt_eq, show c'.covered.chunkSize = c.chunkSize from hchunkSize] at hstands
  have hzip : ((ids.zip batch.sizes).zip es).take k =
      ((ids.zip batch.sizes).take k).zip (es.take k) := List.take_zipWith
  have hdocs : ∀ d ∈ ((ids.zip batch.sizes).take k).zip (es.take k),
      d.1 ∈ (ids.zip batch.sizes).take k := fun d hd => (List.of_mem_zip hd).1
  have hsame : appendPass batch.documents (((ids.zip batch.sizes).take k).zip (es.take k)) 0
      c'.used c' = (appendPass batch.documents
        (((ids.zip batch.sizes).take k).zip (es.take k)) 0 c'.used c'.covered).map
          (remap c'.metaSize) :=
    @appendPass_mapping c'.covered c'.metaSize _ _ 0 c'.used
      (fun d hd => covered_maps (hlt _ (hdocs d hd))) fun d hd => by
        show _ ≤ c'.metaSize
        rw [hsize]
        exact h.maps _ (hmem _ (hdocs d hd)).1
  rw [hzip, hsame]
  refine ⟨nextOffset_eq hkept.chunked, c''.mapping c'.metaSize, ?_, hnext'.trans hnext,
    hchunkSize'.trans hchunkSize, ?_⟩
  · exact congrArg (Except.map (remap c'.metaSize)) happend
  · exact hkept.of_covered hstands hnext'

variable {c₀ : LogCollection}

/-- What the collection holds while an update runs. -/
theorem visited (h : Ready c m ids batch)
    (hcreate : createEntries ((maxID ids).toNat + 1 - c₀.header.nextId) c₀ = .ok (.OK, c))
    (hvisits : Visits c₀ ids batch c') : c'.header.nextId = c.header.nextId ∧
      c'.chunkSize = c.chunkSize ∧ ∃ k j,
      Kept c' ((m.write (inPlace c.allocatedFor m ((under ids batch).take k))).write
        (appended c.allocatedFor c.chunkSize ((under ids batch).take j))) := by
  cases hvisits with
  | inPlace k hcreate' hfirst =>
    obtain rfl := (Prod.mk.inj (Except.ok.inj (hcreate.symm.trans hcreate'))).2
    obtain ⟨-, -, -, hchunkSize, hnext, hkept⟩ := (h.inPlacePass_take k).of_eq_ok hfirst
    exact ⟨hnext, hchunkSize, k, 0, hkept⟩
  | appended k hcreate' hfirst hoffset happend =>
    obtain rfl := (Prod.mk.inj (Except.ok.inj (hcreate.symm.trans hcreate'))).2
    obtain ⟨hoffset', c'', happend', hnext, hchunkSize, hkept⟩ := h.appendPass_take hfirst k
    obtain rfl := (Prod.mk.inj (Except.ok.inj (hoffset.symm.trans hoffset'))).2
    obtain rfl := (Prod.mk.inj (Except.ok.inj (happend.symm.trans happend'))).2
    refine ⟨hnext, hchunkSize, (under ids batch).length, k, ?_⟩
    rw [List.take_length]
    exact hkept

end Ready

/-- An entry points to the document that there is. -/
theorem Kept.docs_of_pointsTo (h : Kept c m) {id : ℕ} {doc : Bytes} (hid : id < c.header.nextId)
    (hp : c.PointsTo (c.entries id) doc) : m.docs id = some doc := by
  cases hdoc : m.docs id with
  | none =>
    have hlost : (c.entries id).offset = keyNotFound := h.stands.lost id hid hdoc
    have hlimit := limit_le h.chunked (c.entries id).chunk
    have hle := hp.allocated_le
    have hlt := h.chunked.chunkSize_lt
    have hmax : (2 : ℕ) ^ 63 < keyNotFound := by decide
    omega
  | some old =>
    have hold : c.PointsTo (c.entries id) old := (h.stands.pointsTo hdoc).mapping c.metaSize
    have hlen : doc.length = old.length := hp.size_eq.symm.trans hold.size_eq
    have hslice := hp.slice_eq
    rw [hlen, hold.slice_eq] at hslice
    rw [hslice]

theorem appended_of_appendable {docs : List (ℕ × Bytes)}
    (hall : Appendable c.allocatedFor c.chunkSize docs) :
    appended c.allocatedFor c.chunkSize docs = c.moved docs := by
  have htake : docs.takeWhile (fun p =>
      reuses c.allocatedFor p || decide (p.2.length + 8 ≤ c.chunkSize)) = docs := by
    rw [List.takeWhile_eq_self_iff]
    intro p hp
    cases hreuses : reuses c.allocatedFor p with
    | false => exact decide_eq_true (hall p hp hreuses)
    | true => rfl
  unfold appended
  rw [htake]
  rfl

theorem appendable_of_storable {docs : List (ℕ × Bytes)} (hall : ∀ p ∈ docs, c.Storable p) :
    Appendable c.allocatedFor c.chunkSize docs := by
  intro p hp hreuses
  have hstorable := hall p hp
  unfold Storable at hstorable
  rwa [if_neg (of_decide_eq_false hreuses)] at hstorable

theorem listed_concat (id : ℕ) (docs : List (ℕ × Bytes)) (doc : Bytes) :
    IdMap.listed id (docs ++ [(id, doc)]) = IdMap.listed id docs ++ [doc] := by
  simp [IdMap.listed]

namespace Ready

theorem placed_iff (h : Ready c m ids batch) (id : ℕ) : c.Placed id ↔ (m.docs id).isSome :=
  h.kept.stands.placed_iff id

/-- A document that the passes do not write is never stored. -/
theorem not_stored (h : Ready c m ids batch)
    (hcreate : createEntries ((maxID ids).toNat + 1 - c₀.header.nextId) c₀ = .ok (.OK, c))
    {p : ℕ × Bytes} (hp : p ∈ under ids batch) (hnot : ¬ c.Storable p) :
    ¬ Stored c₀ ids batch p := by
  rintro ⟨c', hvisits, hpoints⟩
  obtain ⟨hnext, hchunkSize, k, j, hkept⟩ := h.visited hcreate hvisits
  have hid : p.1 < c'.header.nextId := by
    obtain ⟨id, hid, heq⟩ := List.mem_map.1 (List.of_mem_zip hp).1
    rw [hnext, ← heq]
    exact h.lt_next id hid
  have hdoc := hkept.docs_of_pointsTo hid hpoints
  unfold Storable at hnot
  split_ifs at hnot with hfit
  · -- there is no region, and what is appended for the id is longer than the document
    have hnone : m.docs p.1 = none := by
      rwa [h.placed_iff, Bool.not_eq_true, Option.isSome_eq_false_iff,
        Option.isNone_iff_eq_none] at hnot
    have hfirst : IdMap.listed p.1 (inPlace c.allocatedFor m ((under ids batch).take k)) = [] := by
      refine List.eq_nil_iff_forall_not_mem.2 fun v hv => ?_
      have hpass := (List.mem_filter.1 (IdMap.mem_listed.1 hv)).2
      rw [hnone] at hpass
      simp at hpass
    rw [IdMap.docs_write_listed, IdMap.docs_write_listed, hfirst, hnone, List.getLast?_nil,
      Option.none_or, Option.or_none] at hdoc
    have hmem := IdMap.mem_listed.1 (List.mem_of_getLast? hdoc)
    have hlarge := (List.mem_filter.1 hmem).2
    rw [Bool.not_eq_true', reuses, decide_eq_false_iff_not] at hlarge
    exact hlarge hfit
  · -- no place of a chunk is large enough
    have hle := hpoints.allocated_le
    have hge := hpoints.offset_ge
    have hsize := hpoints.size_le
    have hlimit := limit_le hkept.chunked (c'.entries p.1).chunk
    omega

/-- A document that the passes write is stored, unless an earlier one stops them. -/
theorem stored (h : Ready c m ids batch)
    (hcreate : createEntries ((maxID ids).toNat + 1 - c₀.header.nextId) c₀ = .ok (.OK, c))
    {r : Status × LogCollection} (hr : c.passes ids batch.documents batch.sizes = .ok r)
    (hall : ∀ p ∈ under ids batch, c.Storable p) {p : ℕ × Bytes} (hp : p ∈ under ids batch) :
    Stored c₀ ids batch p := by
  -- the first pass comes to its end
  have hpass := h.inPlacePass_take (ids.zip batch.sizes).length
  rw [List.take_length] at hpass
  obtain ⟨es, c₂, hfirst⟩ : ∃ es c₂,
      inPlacePass batch.documents (ids.zip batch.sizes) 0 c [] = .ok (.OK, es, c₂) := by
    unfold passes at hr
    cases hfirst : inPlacePass batch.documents (ids.zip batch.sizes) 0 c [] with
    | error e => rw [hfirst] at hr; cases hr
    | ok r₁ =>
      obtain ⟨status, es, c₂⟩ := r₁
      obtain rfl : status = .OK := (hpass.of_eq_ok hfirst).1
      exact ⟨es, c₂, rfl⟩
  obtain ⟨i, hi, rfl⟩ := List.getElem_of_mem hp
  have htake : (under ids batch).take (i + 1) =
      (under ids batch).take i ++ [(under ids batch)[i]] := (List.take_append_getElem hi).symm
  have hstorable := hall _ hp
  unfold Storable at hstorable
  by_cases hfit : (under ids batch)[i].2.length ≤ c.allocatedFor (under ids batch)[i].1
  · rw [if_pos hfit, h.placed_iff] at hstorable
    -- the state after the document in the first pass
    obtain ⟨es', c', hvisit⟩ : ∃ es' c', inPlacePass batch.documents
        ((ids.zip batch.sizes).take (i + 1)) 0 c [] = .ok (.OK, es', c') := by
      have hsplit := hfirst
      rw [← List.take_append_drop (i + 1) (ids.zip batch.sizes), inPlacePass_append] at hsplit
      cases hfront : inPlacePass batch.documents ((ids.zip batch.sizes).take (i + 1)) 0 c [] with
      | error e => rw [hfront] at hsplit; cases hsplit
      | ok r₁ =>
        obtain ⟨status, es', c'⟩ := r₁
        obtain rfl : status = .OK := ((h.inPlacePass_take (i + 1)).of_eq_ok hfront).1
        exact ⟨es', c', rfl⟩
    obtain ⟨-, -, -, -, -, hkept⟩ := (h.inPlacePass_take (i + 1)).of_eq_ok hvisit
    refine ⟨c', .inPlace (i + 1) hcreate hvisit, ?_⟩
    have hkept : Kept c' _ := hkept
    refine (hkept.stands.pointsTo ?_).mapping c'.metaSize
    have hpass : [(under ids batch)[i]].filter (fun p =>
        reuses c.allocatedFor p && (m.docs p.1).isSome) = [(under ids batch)[i]] := by
      refine List.filter_cons_of_pos ?_
      rw [hstorable, Bool.and_true]
      exact decide_eq_true hfit
    rw [IdMap.docs_write_listed, inPlace, htake, List.filter_append, hpass, listed_concat,
      List.getLast?_concat]
    rfl
  · obtain ⟨hoffset, c', happend, -, -, hkept⟩ := h.appendPass_take hfirst (i + 1)
    refine ⟨c', .appended (i + 1) hcreate hfirst hoffset happend, ?_⟩
    refine (hkept.stands.pointsTo ?_).mapping c'.metaSize
    have happendable : Appendable c.allocatedFor c.chunkSize ((under ids batch).take (i + 1)) :=
      appendable_of_storable fun p hp => hall p (List.mem_of_mem_take hp)
    have hpass : [(under ids batch)[i]].filter (fun p => !reuses c.allocatedFor p) =
        [(under ids batch)[i]] := by
      refine List.filter_cons_of_pos ?_
      rw [Bool.not_eq_true']
      exact decide_eq_false hfit
    rw [IdMap.docs_write_listed, appended_of_appendable happendable, moved, htake,
      List.filter_append, hpass, listed_concat, List.getLast?_concat]
    rfl

/-- All documents are stored exactly if the passes write each of them. -/
theorem every_iff (h : Ready c m ids batch)
    (hcreate : createEntries ((maxID ids).toNat + 1 - c₀.header.nextId) c₀ = .ok (.OK, c))
    {r : Status × LogCollection} (hr : c.passes ids batch.documents batch.sizes = .ok r) :
    (∀ p ∈ under ids batch, Stored c₀ ids batch p) ↔ ∀ p ∈ under ids batch, c.Storable p := by
  refine ⟨fun hall p hp => ?_, fun hall p hp => h.stored hcreate hr hall hp⟩
  by_contra hnot
  exact h.not_stored hcreate hp hnot (hall p hp)

end Ready

/-! ### The last document of each id -/

theorem listed_moved (id : ℕ) (docs : List (ℕ × Bytes)) :
    IdMap.listed id (c.moved docs) =
      (IdMap.listed id docs).filter fun doc => !reuses c.allocatedFor (id, doc) :=
  IdMap.listed_filter ..

/-- When all documents are written, an id holds the last one listed for it exactly if that one
stays. -/
theorem docs_iff_lastStays {docs : List (ℕ × Bytes)} {id : ℕ} {doc : Bytes}
    (hplaced : doc.length ≤ c.allocatedFor id → (m.docs id).isSome)
    (hlast : (IdMap.listed id docs).getLast? = some doc) :
    ((m.write (inPlace c.allocatedFor m docs)).write (c.moved docs)).docs id = some doc ↔
      c.LastStays docs id := by
  obtain ⟨vs, hvs⟩ := List.getLast?_eq_some_iff.1 hlast
  rw [IdMap.docs_write_listed, IdMap.docs_write_listed, listed_moved]
  unfold LastStays
  rw [hlast]
  -- the document goes to the first pass or to the second one, which has the last word
  by_cases hfit : doc.length ≤ c.allocatedFor id
  · have hone : [doc].filter (fun doc => reuses c.allocatedFor (id, doc) && (m.docs id).isSome) =
        [doc] := by
      refine List.filter_cons_of_pos ?_
      rw [hplaced hfit, Bool.and_true]
      exact decide_eq_true hfit
    have hfirst : (IdMap.listed id (inPlace c.allocatedFor m docs)).getLast? = some doc := by
      have hlisted : IdMap.listed id (inPlace c.allocatedFor m docs) =
          (IdMap.listed id docs).filter fun doc =>
            reuses c.allocatedFor (id, doc) && (m.docs id).isSome := IdMap.listed_filter ..
      rw [hlisted, hvs, List.filter_append, hone, List.getLast?_concat]
    rw [hfirst]
    constructor
    · -- what is appended for the id is longer than the document
      intro hdoc
      refine Or.inr fun v hv => ?_
      by_contra hlarge
      have hmem : v ∈ (IdMap.listed id docs).filter
          fun doc => !reuses c.allocatedFor (id, doc) := by
        rw [List.mem_filter, Bool.not_eq_true']
        exact ⟨hv, decide_eq_false hlarge⟩
      cases hw : ((IdMap.listed id docs).filter fun doc =>
          !reuses c.allocatedFor (id, doc)).getLast? with
      | none =>
        rw [List.getLast?_eq_none_iff.1 hw] at hmem
        cases hmem
      | some w =>
        rw [hw] at hdoc
        obtain rfl : w = doc := Option.some.inj hdoc
        have hno := (List.mem_filter.1 (List.mem_of_getLast? hw)).2
        rw [Bool.not_eq_true', reuses, decide_eq_false_iff_not] at hno
        exact hno hfit
    · rintro (⟨doc', hdoc', hlarge⟩ | hall)
      · obtain rfl := Option.mem_some_iff.1 hdoc'
        exact absurd hfit (Nat.not_le.2 hlarge)
      · have hnone : (IdMap.listed id docs).filter (fun doc => !reuses c.allocatedFor (id, doc)) =
            [] := by
          refine List.filter_eq_nil_iff.2 fun v hv => ?_
          rw [Bool.not_eq_true', Bool.not_eq_false]
          exact decide_eq_true (hall v hv)
        rw [hnone]
        rfl
  · have hone : [doc].filter (fun doc => !reuses c.allocatedFor (id, doc)) = [doc] := by
      refine List.filter_cons_of_pos ?_
      rw [Bool.not_eq_true']
      exact decide_eq_false hfit
    rw [hvs, List.filter_append, hone, List.getLast?_concat]
    exact iff_of_true rfl (Or.inl ⟨doc, rfl, Nat.not_le.1 hfit⟩)

namespace Ready

/-- The last document of each id can be read exactly if it stays, in a chunk that can be got at. -/
theorem last_iff (h : Ready c m ids batch) (hne : ids ≠ []) {r : Status × LogCollection}
    (hr : c.passes ids batch.documents batch.sizes = .ok r)
    (hall : ∀ p ∈ under ids batch, c.Storable p) {id : UInt64} (hid : id ∈ ids) {doc : Bytes}
    (hlast : (IdMap.listed id.toNat (under ids batch)).getLast? = some doc) :
    r.2.Reads id doc ↔ c.LastStays (under ids batch) id.toNat ∧
      (c.HasRoom ∨ c.InLastChunk (under ids batch) id.toNat) := by
  have happendable := appendable_of_storable hall
  obtain ⟨-, -, -, hsize, hkept, hbehind⟩ :=
    (passes_kept h.kept h.holds h.lt_next hne h.sizes_le h.maps).of_eq_ok hr
  have hbehind := hbehind happendable
  rw [appended_of_appendable happendable] at hkept hbehind
  have hmaps : r.2.Maps id.toNat := by
    unfold Maps
    rw [hsize]
    exact h.maps id hid
  have hplaced : doc.length ≤ c.allocatedFor id.toNat → (m.docs id.toNat).isSome := by
    intro hfit
    have hstorable := hall (id.toNat, doc) (IdMap.mem_listed.1 (List.mem_of_getLast? hlast))
    unfold Storable at hstorable
    rw [if_pos hfit] at hstorable
    exact (h.placed_iff _).1 hstorable
  have hroom : r.2.HasRoom ↔ c.HasRoom := by
    unfold HasRoom
    rw [hbehind.cacheSize_eq]
  have hchunk : c.chunkFor id.toNat = (c.entries id.toNat).chunk := if_pos (h.lt_next id hid)
  rw [hkept.reads_iff, docs_iff_lastStays hplaced hlast, and_iff_right hmaps]
  unfold Reaches InLastChunk
  rw [hbehind.chunk_eq, hbehind.lastChunkId_eq, hroom, hchunk, or_comm]

end Ready

end Passing

/-! ### New entries -/

namespace Created

variable {k : ℕ}

theorem allocatedFor_eq (h : Created c c' k) : c'.allocatedFor = c.allocatedFor := by
  have hnext : c'.header.nextId = c.header.nextId + k := congrArg MetadataHeader.nextId h.header_eq
  funext id
  unfold allocatedFor
  by_cases hid : id < c.header.nextId
  · rw [if_pos hid, if_pos (by omega), h.entries_eq id hid]
  · rw [if_neg hid]
    split_ifs with hnew
    · rw [h.entries_new id (hnext ▸ hnew) (Nat.not_lt.1 hid)]
    · rfl

theorem placed_iff (h : Created c c' k) (id : ℕ) : c'.Placed id ↔ c.Placed id := by
  have hnext : c'.header.nextId = c.header.nextId + k := congrArg MetadataHeader.nextId h.header_eq
  unfold Placed
  by_cases hid : id < c.header.nextId
  · rw [h.entries_eq id hid, hnext]
    exact and_congr_left fun _ => iff_of_true (by omega) hid
  · refine iff_of_false (fun hplaced => hplaced.2 ?_) fun hplaced => hid hplaced.1
    rw [h.entries_new id (hnext ▸ hplaced.1) (Nat.not_lt.1 hid)]

theorem storable_iff (h : Created c c' k) (p : ℕ × Bytes) : c'.Storable p ↔ c.Storable p := by
  unfold Storable
  rw [h.allocatedFor_eq, h.chunkSize_eq]
  split_ifs
  · exact h.placed_iff p.1
  · exact Iff.rfl

theorem lastStays_iff (h : Created c c' k) (docs : List (ℕ × Bytes)) (id : ℕ) :
    c'.LastStays docs id ↔ c.LastStays docs id := by
  unfold LastStays
  rw [h.allocatedFor_eq]

theorem hasRoom_iff (h : Created c c' k) : c'.HasRoom ↔ c.HasRoom := by
  unfold HasRoom
  rw [h.cacheSize_eq]

theorem inLastChunk_iff (h : Created c c' k) (docs : List (ℕ × Bytes)) {id : ℕ}
    (hid : id < c'.header.nextId) : c'.InLastChunk docs id ↔ c.InLastChunk docs id := by
  have hnext : c'.header.nextId = c.header.nextId + k := congrArg MetadataHeader.nextId h.header_eq
  have hlast : c'.header.lastChunkId = c.header.lastChunkId := by rw [h.header_eq]
  have hchunk : c'.chunkFor id = c.chunkFor id := by
    unfold chunkFor
    rw [if_pos hid]
    split_ifs with hold
    · rw [h.entries_eq id hold]
    · rw [h.entries_new id (hnext ▸ hid) (Nat.not_lt.1 hold)]
  have hmoved : c'.moved docs = c.moved docs := by
    unfold moved
    rw [h.allocatedFor_eq]
  have hchunks : c'.chunksOf (c.moved docs) = c.chunksOf (c.moved docs) := by
    unfold chunksOf used
    rw [h.chunkSize_eq, hlast, h.chunks_eq]
  unfold InLastChunk
  rw [hmoved, hchunks, hchunk, hlast]

end Created

/-- Each id of a batch has a last document. -/
theorem exists_last {batch : DocBatch} {ids : List UInt64} (hholds : batch.Holds ids.length)
    {id : UInt64} (hid : id ∈ ids) :
    ∃ doc, (IdMap.listed id.toNat (under ids batch)).getLast? = some doc := by
  have hlen : (ids.map UInt64.toNat).length ≤ batch.docs.length := by
    rw [DocBatch.docs, length_unpack, List.length_map]
    exact hholds.1.le
  have hfst : (under ids batch).map Prod.fst = ids.map UInt64.toNat := List.map_fst_zip hlen
  have hmem : id.toNat ∈ (under ids batch).map Prod.fst := by
    rw [hfst]
    exact List.mem_map_of_mem hid
  obtain ⟨p, hp, heq⟩ := List.mem_map.1 hmem
  have hlisted : p.2 ∈ IdMap.listed id.toNat (under ids batch) := by
    rw [IdMap.mem_listed, ← heq]
    exact hp
  exact Option.isSome_iff_exists.1 (List.getLast?_isSome.2 (List.ne_nil_of_mem hlisted))

/-- Whether an `update` reports truthfully, in a collection that may have been opened again. -/
theorem Kept.reportsTruthfully_iff (h : Kept c m) {batch : DocBatch} {ids : List UInt64}
    (hholds : batch.Holds ids.length) {r : Status × LogCollection}
    (hr : c.update ids batch.documents batch.sizes = .ok r) :
    ReportsTruthfully c ids batch r ↔
      (∃ size ∈ batch.sizes, c.chunkSize < size) ∨ ¬ c.CanMap ids ∨
        (∀ p ∈ under ids batch, c.Storable p) ∧
        (∀ id ∈ ids, c.LastStays (under ids batch) id.toNat) ∧
        (c.HasRoom ∨ ∀ id ∈ ids, c.InLastChunk (under ids batch) id.toNat) := by
  have hfailed : r.1 ≠ .OK → ReportsTruthfully c ids batch r := fun hne =>
    ⟨fun hok => absurd hok hne, fun hok => absurd hok hne⟩
  by_cases hlarge : ∃ size ∈ batch.sizes, c.chunkSize < size
  · rw [update_refused hlarge] at hr
    obtain rfl := Except.ok.inj hr
    exact iff_of_true (hfailed fun hok => (by cases hok)) (Or.inl hlarge)
  rw [or_iff_right hlarge]
  have hadmitted : ∀ size ∈ batch.sizes, size ≤ c.chunkSize := fun size hsize =>
    Nat.not_lt.1 fun hlt => hlarge ⟨size, hsize, hlt⟩
  have hne : ids ≠ [] := by
    rintro rfl
    rw [update_nil hadmitted] at hr
    cases hr
  obtain ⟨hnot, hfails, -⟩ | ⟨hcan, c₁, hcreate, hcreated, h₁, hmaps, hpasses⟩ :=
    (update_kept h hholds hne hadmitted).of_eq_ok hr
  · exact iff_of_true (hfailed hfails) (Or.inl hnot)
  rw [or_iff_right (not_not.2 hcan)]
  -- the passes start with every entry of the batch mapped
  have hready : Ready c₁ (m.reach (maxID ids).toNat) ids batch :=
    ⟨h₁, hholds, fun id hid => hcreated.lt_next (UInt64.le_iff_toNat_le.1 (le_maxID hid)), hmaps,
      by rw [hcreated.chunkSize_eq]; exact hadmitted⟩
  have hok : r.1 = .OK := ((passes_kept h₁ hholds hready.lt_next hne hready.sizes_le
    hmaps).of_eq_ok hpasses).1
  have hevery := hready.every_iff hcreate hpasses
  simp only [hcreated.storable_iff] at hevery
  -- the status is OK, so both halves are promised
  have htruthful : ReportsTruthfully c ids batch r ↔ (∀ p ∈ under ids batch, c.Storable p) ∧
      ∀ id ∈ ids, ∀ doc, (IdMap.listed id.toNat (under ids batch)).getLast? = some doc →
        r.2.Reads id doc := by
    rw [← hevery]
    exact ⟨fun hall => ⟨hall.every hok, hall.last hok⟩,
      fun hall => ⟨fun _ => hall.2, fun _ => hall.1⟩⟩
  rw [htruthful]
  refine and_congr_right fun hall => ?_
  have hlast : ∀ id ∈ ids, ∀ doc,
      (IdMap.listed id.toNat (under ids batch)).getLast? = some doc →
        (r.2.Reads id doc ↔ c.LastStays (under ids batch) id.toNat ∧
          (c.HasRoom ∨ c.InLastChunk (under ids batch) id.toNat)) := by
    intro id hid doc hdoc
    rw [hready.last_iff hne hpasses (fun p hp => (hcreated.storable_iff p).2 (hall p hp)) hid hdoc,
      hcreated.lastStays_iff, hcreated.hasRoom_iff,
      hcreated.inLastChunk_iff _ (hready.lt_next id hid)]
  constructor
  · intro hreads
    have hboth : ∀ id ∈ ids, c.LastStays (under ids batch) id.toNat ∧
        (c.HasRoom ∨ c.InLastChunk (under ids batch) id.toNat) := by
      intro id hid
      obtain ⟨doc, hdoc⟩ := exists_last hholds hid
      exact (hlast id hid doc hdoc).1 (hreads id hid doc hdoc)
    exact ⟨fun id hid => (hboth id hid).1,
      or_iff_not_imp_left.2 fun hnot id hid => (hboth id hid).2.resolve_left hnot⟩
  · rintro ⟨hstays, hchunks⟩ id hid doc hdoc
    exact (hlast id hid doc hdoc).2 ⟨hstays id hid, hchunks.imp_right fun hall => hall id hid⟩

/-- An `update` that returns reports truthfully exactly if it fails, as chunks have no room for
their first word, some document is larger than a chunk, or an entry cannot be mapped, or it writes
each document, and the last one for each id stays, in a chunk that can be got at. -/
theorem update_truthful_iff {chunkSize : ℕ} {cacheSize : UInt64} {events : List LogEvent}
    (hlt : chunkSize < 2 ^ 63) (hrun : Run Happens (ofFiles chunkSize cacheSize {}) events c)
    {batch : DocBatch} {ids : List UInt64} (hholds : batch.Holds ids.length)
    {r : Status × LogCollection} (hr : c.update ids batch.documents batch.sizes = .ok r) :
    ReportsTruthfully c ids batch r ↔
      chunkSize < 8 ∨ (∃ size ∈ batch.sizes, chunkSize < size) ∨ ¬ c.CanMap ids ∨
        (∀ p ∈ under ids batch, c.Storable p) ∧
        (∀ id ∈ ids, c.LastStays (under ids batch) id.toNat) ∧
        (c.HasRoom ∨ ∀ id ∈ ids, c.InLastChunk (under ids batch) id.toNat) := by
  obtain hsmall | hge := Nat.lt_or_ge chunkSize 8
  · have hfails := ((update_sized hsmall (run_sized hsmall hrun) ids _ _).of_eq_ok hr).2
    exact iff_of_true ⟨fun hok => absurd hok hfails, fun hok => absurd hok hfails⟩ (Or.inl hsmall)
  · obtain ⟨rfl, m, h⟩ := run_kept hge hlt hrun
    rw [or_iff_right (Nat.not_lt.2 hge)]
    exact h.reportsTruthfully_iff hholds hr

/-- In a collection that was opened again, a document of one byte becomes one of seven bytes. -/
theorem update_truthful_seven :
    ∃ c r, Run Happens (ofFiles 16 16 {}) [.op (.append [0] (oneDoc 7)), .reopen 8] c ∧
      c.update [0] sevenBytes.documents sevenBytes.sizes = .ok r ∧
        ReportsTruthfully c [0] sevenBytes r := by
  have hstore : Run Happens (ofFiles 16 16 {}) [.op (.append [0] (oneDoc 7))] _ :=
    Run.snoc (Run.nil _) ⟨⟨rfl, le_refl _⟩, _, rfl⟩
  have hreopen : Run Happens (ofFiles 16 16 {}) [.op (.append [0] (oneDoc 7)), .reopen 8] _ :=
    Run.snoc hstore rfl
  refine ⟨_, _, hreopen, rfl, (update_truthful_iff (by decide) hreopen ⟨rfl, le_refl _⟩ rfl).2
    (Or.inr (Or.inr (Or.inr ⟨by decide, fun id hid => ?_, Or.inl (by decide)⟩)))⟩
  obtain rfl := List.mem_singleton.1 hid
  exact Or.inl ⟨[1, 2, 3, 4, 5, 6, 7], rfl, by decide⟩

/-- Nine bytes and one byte. -/
def nineAndOne : DocBatch := ⟨[1, 2, 3, 4, 5, 6, 7, 8, 9, 10], [9, 1], by decide⟩

/-- Chunks of sixteen bytes have no room for nine bytes. An update to them reports success with the
old document still there, and so does one that gives the id another byte after them. -/
theorem update_not_truthful :
    ∃ c r r', Run Happens (ofFiles 16 16 {}) [.op (.append [0] (oneDoc 7))] c ∧
      (c.update [0] nineBytes.documents nineBytes.sizes = .ok r ∧ r.1 = .OK ∧
        ¬ ReportsTruthfully c [0] nineBytes r) ∧
      c.update [0, 0] nineAndOne.documents nineAndOne.sizes = .ok r' ∧ r'.1 = .OK ∧
        ¬ ReportsTruthfully c [0, 0] nineAndOne r' := by
  have hstore : Run Happens (ofFiles 16 16 {}) [.op (.append [0] (oneDoc 7))] _ :=
    Run.snoc (Run.nil _) ⟨⟨rfl, le_refl _⟩, _, rfl⟩
  obtain ⟨-, m, h⟩ := run_kept (by decide) (by decide) hstore
  refine ⟨_, _, _, hstore, ⟨rfl, rfl, ?_⟩, rfl, rfl, ?_⟩
  · exact (h.reportsTruthfully_iff ⟨rfl, le_refl _⟩ rfl).not.2 (by decide)
  · exact (h.reportsTruthfully_iff ⟨rfl, le_refl _⟩ rfl).not.2 (by decide)

end LogCollection

end Yokan
