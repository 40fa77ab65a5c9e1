import Yokan.DocMixin

/-!
# Yokan: collections of documents, abstractly

What the document operations mean without keys, buffers and caches. A `Collection` is its metadata,
if it exists, and a partial map from ids to documents; the operations of `DocumentStoreMixin` act
on one collection at a time, and a `Family` holds a collection for every name.
`Yokan.DocMixinRefinement` connects the mixin to this level.
-/

namespace Yokan

open Buffer PartialMap

/-- The documents of a request, one after the other, with their sizes. The sizes are sizes of
documents in memory, so that their sum does not wrap. -/
structure DocBatch where
  documents : Bytes
  sizes : List ℕ
  sum_le : sizes.sum ≤ lastValidSize

namespace DocBatch

/-- The documents themselves. -/
def docs (batch : DocBatch) : List Bytes := unpack batch.documents batch.sizes

/-- The request is well formed for `count` documents. -/
def Holds (batch : DocBatch) (count : ℕ) : Prop :=
  count = batch.sizes.length ∧ batch.sizes.sum ≤ batch.documents.length

instance (batch : DocBatch) (count : ℕ) : Decidable (batch.Holds count) :=
  inferInstanceAs (Decidable (_ ∧ _))

@[simp] theorem length_docs (batch : DocBatch) : batch.docs.length = batch.sizes.length := by
  simp [docs]

theorem sum_lt (batch : DocBatch) : batch.sizes.sum < 2 ^ 64 :=
  lt_of_le_of_lt batch.sum_le (by decide)

theorem packed {batch : DocBatch} {count : ℕ} (h : batch.Holds count) :
    Packed batch.documents batch.sizes := ⟨h.2, batch.sum_lt⟩

end DocBatch

/-- The ids `docStore` assigns to `count` documents. -/
def CollectionMetadata.assigned (metadata : CollectionMetadata) (count : ℕ) : List UInt64 :=
  (List.range count).map (fun i => metadata.nextId + UInt64.ofNat i)

/-- The ids below `next_id`. -/
def CollectionMetadata.idsBelow (metadata : CollectionMetadata) : List UInt64 :=
  (List.range metadata.nextId.toNat).map UInt64.ofNat

/-- Move `next_id` past the ids of `count` documents. -/
def CollectionMetadata.reserve (metadata : CollectionMetadata) (count : ℕ) : CollectionMetadata :=
  { metadata with nextId := metadata.nextId + UInt64.ofNat count }

/-- Count `count` more documents. -/
def CollectionMetadata.grow (metadata : CollectionMetadata) (count : ℕ) : CollectionMetadata :=
  { metadata with size := metadata.size + UInt64.ofNat count }

/-- The largest id of a list, or zero. -/
def maxID (ids : List UInt64) : UInt64 := ids.foldl max 0

theorem toNat_max (a b : UInt64) : (max a b).toNat = max a.toNat b.toNat := by
  have hdef : max a b = if a ≤ b then b else a := rfl
  rw [hdef]
  split_ifs with hle
  · rw [UInt64.le_iff_toNat_le] at hle
    rw [max_eq_right hle]
  · rw [UInt64.le_iff_toNat_le] at hle
    rw [max_eq_left (by omega)]

theorem toNat_maxID (ids : List UInt64) : (maxID ids).toNat = (ids.map UInt64.toNat).foldl max 0 := by
  have hfold : ∀ (ids : List UInt64) (acc : UInt64),
      (ids.foldl max acc).toNat = (ids.map UInt64.toNat).foldl max acc.toNat := by
    intro ids
    induction ids with
    | nil => intro acc; rfl
    | cons id ids ih =>
      intro acc
      rw [List.foldl_cons, ih, toNat_max]
      rfl
  exact hfold ids 0

theorem le_maxID {ids : List UInt64} {id : UInt64} (h : id ∈ ids) : id ≤ maxID ids := by
  have hfold : ∀ (l : List ℕ) (acc : ℕ), acc ≤ l.foldl max acc ∧ ∀ n ∈ l, n ≤ l.foldl max acc := by
    intro l
    induction l with
    | nil => exact fun acc => ⟨le_refl _, fun n hn => absurd hn List.not_mem_nil⟩
    | cons a l ih =>
      intro acc
      obtain ⟨hacc, hl⟩ := ih (max acc a)
      refine ⟨(le_max_left acc a).trans hacc, fun n hn => ?_⟩
      rcases List.mem_cons.1 hn with rfl | hn
      · exact (le_max_right acc n).trans hacc
      · exact hl n hn
  rw [UInt64.le_iff_toNat_le, toNat_maxID]
  exact (hfold _ 0).2 _ (List.mem_map_of_mem h)

theorem maxID_mem {ids : List UInt64} (h : ids ≠ []) : maxID ids ∈ ids := by
  have hfold : ∀ (ids : List UInt64) (acc : UInt64), ids.foldl max acc = acc ∨
      ids.foldl max acc ∈ ids := by
    intro ids
    induction ids with
    | nil => exact fun acc => Or.inl rfl
    | cons id ids ih =>
      intro acc
      rcases ih (max acc id) with heq | hmem
      · rw [List.foldl_cons, heq]
        have hdef : max acc id = if acc ≤ id then id else acc := rfl
        rw [hdef]
        split_ifs
        · exact Or.inr List.mem_cons_self
        · exact Or.inl rfl
      · exact Or.inr (List.mem_cons_of_mem _ hmem)
  obtain ⟨id, ids, rfl⟩ := List.exists_cons_of_ne_nil h
  have hzero : max 0 id = id := if_pos (UInt64.le_iff_toNat_le.2 (Nat.zero_le _))
  unfold maxID
  rw [List.foldl_cons, hzero]
  rcases hfold ids id with heq | hmem
  · rw [heq]
    exact List.mem_cons_self
  · exact List.mem_cons_of_mem _ hmem

/-- A collection: its metadata when it exists, and its documents. -/
structure Collection where
  metadata : Option CollectionMetadata
  docs : UInt64 → Option Bytes

/-- An operation on a collection. The ids of `store` are the caller's array, which the operation
overwrites. -/
inductive DocOp
  | create
  | drop (mode : Mode)
  | store (mode : Mode) (batch : DocBatch) (ids : List UInt64)
  | update (mode : Mode) (ids : List UInt64) (batch : DocBatch)
  | erase (mode : Mode) (ids : List UInt64)
  | load (mode : Mode) (packed : Bool) (ids : List UInt64) (documents : Bytes) (sizes : List ℕ)

/-- The operation looks keys up in the mode `YOKAN_MODE_WAIT`. -/
def DocOp.waits : DocOp → Bool
  | create => false
  | store _ _ _ => false
  | drop mode => mode.has .wait
  | update mode _ _ => mode.has .updateNew && mode.has .wait
  | erase mode _ => mode.has .wait
  | load mode _ _ _ _ => mode.has .wait

namespace Collection

/-- The status of putting the documents of a batch under the given ids, and the documents then. -/
def write (mode : Mode) (ids : List UInt64) (batch : DocBatch) (docs : UInt64 → Option Bytes) :
    Status × (UInt64 → Option Bytes) :=
  if batch.Holds ids.length then
    let ps := ids.zip batch.docs
    (putStatus mode docs ps, writeAll (putRule mode) docs ps)
  else (.InvalidArg, docs)

def create (c : Collection) : Status × Collection :=
  match c.metadata with
  | some _ => (.KeyExists, c)
  | none => (.OK, { c with metadata := some {} })

def drop (c : Collection) : Status × Collection :=
  match c.metadata with
  | none => (.NotFound, c)
  | some metadata => (.OK, ⟨none, eraseAll c.docs metadata.idsBelow⟩)

/-- `store` also returns the ids. -/
def store (mode : Mode) (batch : DocBatch) (ids : List UInt64) (c : Collection) :
    Status × List UInt64 × Collection :=
  match c.metadata with
  | none => (.NotFound, ids, c)
  | some metadata =>
    let count := UInt64.ofNat ids.length
    let ids := metadata.assigned ids.length
    let w := write mode ids batch c.docs
    let size := if w.1 = .OK then metadata.size + count else metadata.size
    (w.1, ids, ⟨some ⟨size, metadata.nextId + count⟩, w.2⟩)

def update (mode : Mode) (ids : List UInt64) (batch : DocBatch) (c : Collection) :
    Status × Collection :=
  match c.metadata with
  | none => (.NotFound, c)
  | some metadata =>
    let w := write mode ids batch c.docs
    if mode.has .updateNew then
      let extraKeys := UInt64.ofNat (absentIn c.docs ids).length
      let metadata' := if w.1 = .OK then ⟨metadata.size + extraKeys, maxID ids + 1⟩ else metadata
      (w.1, ⟨some metadata', w.2⟩)
    else if ids.any (fun id => metadata.nextId ≤ id) then (.InvalidID, c)
    else (w.1, { c with docs := w.2 })

def erase (ids : List UInt64) (c : Collection) : Status × Collection :=
  match c.metadata with
  | none => (.NotFound, c)
  | some metadata =>
    let erased := UInt64.ofNat (presentIn c.docs ids).length
    (.OK, ⟨some { metadata with size := metadata.size - erased }, eraseAll c.docs ids⟩)

/-- `load`, as far as it changes the collection. -/
def load (mode : Mode) (ids : List UInt64) (sizes : List ℕ) (c : Collection) :
    Status × Collection :=
  match c.metadata with
  | none => (.NotFound, c)
  | some _ =>
    if ids.length ≠ sizes.length then (.InvalidArg, c)
    else (.OK, { c with docs := if mode.has .consume then eraseAll c.docs ids else c.docs })

/-- The operations as the steps of one machine. -/
def step (c : Collection) : DocOp → Status × Collection
  | .create => c.create
  | .drop _ => c.drop
  | .store mode batch ids => let r := c.store mode batch ids; (r.1, r.2.2)
  | .update mode ids batch => c.update mode ids batch
  | .erase _ ids => c.erase ids
  | .load mode _ ids _ sizes => c.load mode ids sizes

end Collection

/-- A collection for every name. -/
abbrev Family := CString → Collection

/-- A step of a family. The empty name is refused. -/
def Family.step (v : Family) (op : CString × DocOp) : Status × Family :=
  if op.1.bytes = [] then (.InvalidArg, v)
  else
    let r := (v op.1).step op.2
    (r.1, Function.update v op.1 r.2)

/-- A step of a family is a step of one collection, or none. -/
theorem Family.step_apply (v : Family) (name n : CString) (op : DocOp) :
    (v.step (name, op)).2 n =
      if name.bytes ≠ [] ∧ n = name then ((v name).step op).2 else v n := by
  unfold Family.step
  by_cases hname : name.bytes = []
  · simp [hname]
  · by_cases hn : n = name
    · subst hn
      simp [hname]
    · simp [hname, hn]

/-! ### A name and a document -/

/-- The name `c`. -/
def nameC : CString := ⟨[99], by decide, by decide⟩

/-- One document of one byte. -/
def oneDoc (b : UInt8) : DocBatch := ⟨[b], [1], by decide⟩

end Yokan
