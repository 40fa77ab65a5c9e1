import Yokan.Delivery
import Yokan.DocIteration

/-!
# Yokan: how often a document filter copies

`yk_doc_iter` gives the filter to `docIter` of the database and has a callback that copies each
document with `docCopy` into the batch for the client (`src/server/doc_iter.cpp`). The loops of
`ArrayDatabase::docIter` and `LogDatabase::docIter` call `docCopy` as well, on the way to that
callback; the mixin hands over what is stored.

* `SizedDocFilter.Transforms`: what `docCopy` makes of a document;
* `batchedDocuments`: the documents in the batches of the handler;
* `filter_applied_once_iff`: when these are the copies of the stored documents.
-/

namespace Yokan

open Buffer ArrayCollection

/-- `docCopy` writes a function of the document, which has room where `docSizeFrom` says so. -/
structure SizedDocFilter.Transforms (filter : SizedDocFilter) (name : CString)
    (transform : Bytes → Bytes) : Prop where
  length_le : ∀ doc, (transform doc).length ≤ filter.docSizeFrom name doc
  docCopy_eq : ∀ dst off room doc, (transform doc).length ≤ room →
    filter.docCopy name dst off room doc =
      ((transform doc).length, blit dst off (transform doc))

/-- A document as a filter shows it. -/
def transformed (transform : Bytes → Bytes) (p : UInt64 × Bytes) : UInt64 × Bytes :=
  (p.1, transform p.2)

/-! ### The handler -/

/-- The documents in a batch of the server. -/
def DocIterBatch.documents (b : DocIterBatch) : List (UInt64 × Bytes) :=
  b.ids.zip (unpack b.docs b.docSizes)

theorem DocIterBatch.length_push (filter : SizedDocFilter) (collName : CString) (b : DocIterBatch)
    (x : UInt64 × Bytes) : (b.push filter collName x).ids.length = b.ids.length + 1 := by
  rw [DocIterBatch.push]
  exact List.length_append

theorem DocIterBatch.length_documents (b : DocIterBatch) : b.documents.length = b.ids.length := by
  rw [DocIterBatch.documents, List.length_zip, length_unpack, b.length_eq, Nat.min_self]

theorem DocIterBatch.length_nil : ([] : List ℕ).length = ([] : List UInt64).length := rfl

theorem DocIterBatch.length_ids_nil :
    (DocIterBatch.mk [] [] [] DocIterBatch.length_nil).ids.length = 0 := rfl

/-- The batches of `yk_doc_iter_ult` and `yk_doc_iter_direct_ult`, as the server fills them. -/
def docCollecting (filter : SizedDocFilter) (collName : CString) :
    Batching (UInt64 × Bytes) DocIterBatch (UInt64 × Bytes) where
  empty := ⟨[], [], [], DocIterBatch.length_nil⟩
  push := DocIterBatch.push filter collName
  size b := b.ids.length
  advance b := b.ids.length
  items _ b := b.documents
  size_empty := DocIterBatch.length_ids_nil
  size_push := DocIterBatch.length_push filter collName
  length_items _ := DocIterBatch.length_documents

/-- What `doc_iter_func` does to a batch, on a vector that has a `max_size`: there is no result when
`docs` cannot be resized. -/
def DocIterBatch.append (filter : SizedDocFilter) (collName : CString) (b : DocIterBatch)
    (x : UInt64 × Bytes) : Option DocIterBatch :=
  let currentSize := b.docs.length
  let docSize := filter.docSizeFrom collName x.2
  (resize (currentSize + docSize) b.docs).bind fun docs =>
    let r := filter.docCopy collName docs currentSize docSize x.2
    (resize (currentSize + r.1) r.2).map fun docs =>
      { ids := b.ids ++ [x.1]
        docSizes := b.docSizes ++ [r.1]
        docs := docs
        length_eq := by rw [List.length_append, List.length_append, b.length_eq]; rfl }

/-- `doc_iter_func`. -/
def docIterFunc (filter : SizedDocFilter) (collName : CString) (cb : Callback (UInt64 × Bytes))
    (batchSize : ℕ) (st : IterState DocIterBatch (UInt64 × Bytes)) (x : UInt64 × Bytes) :
    Option (ReturnCode × IterState DocIterBatch (UInt64 × Bytes)) :=
  match st.pending.append filter collName x with
  | none => none
  | some pending =>
    if pending.ids.length = batchSize then
      some (sendBatch (docCollecting filter collName) cb { st with pending })
    else some (.SUCCESS, { st with pending })

/-- A database that hands a sequence of results to a callback until that refuses one or throws. -/
def feedUntilThrow {α γ τ : Type} [DecidableEq γ] (ok final : γ) (func : τ → α → Option (γ × τ)) :
    List α → τ → Option (γ × τ)
  | [], t => some (final, t)
  | x :: xs, t =>
    match func t x with
    | none => none
    | some r => if r.1 = ok then feedUntilThrow ok final func xs r.2 else some r

/-- The documents that the handler puts in its batches, one batch after the other, when `docIter`
hands over some results and the client takes every batch. -/
def batchedDocuments (filter : SizedDocFilter) (collName : CString) (batchSize : UInt32) (count : ℕ)
    (results : List (UInt64 × Bytes)) : Option (List (UInt64 × Bytes)) :=
  let b := (effectiveBatchSize batchSize count).toNat
  (feedUntilThrow .SUCCESS .SUCCESS (docIterFunc filter collName (fun _ _ => .SUCCESS) b) results
    ⟨(docCollecting filter collName).empty, 0, {}⟩).map fun r =>
      (finishIter (docCollecting filter collName) (fun _ _ => .SUCCESS) r).2.map Prod.fst

/-- Every document has room behind those of its batch, which are there as `transform` makes them; in
the first batch there are `n` already, of `bytes` bytes together. -/
def BatchesFit (filter : SizedDocFilter) (name : CString) (transform : Bytes → Bytes)
    (batchSize : ℕ) : List (UInt64 × Bytes) → ℕ → ℕ → Prop
  | [], _, _ => True
  | p :: docs, n, bytes =>
    bytes + filter.docSizeFrom name p.2 ≤ vectorMaxSize 1 ∧
      if n + 1 = batchSize then BatchesFit filter name transform batchSize docs 0 0
      else BatchesFit filter name transform batchSize docs (n + 1)
        (bytes + (transform p.2).length)

/-- A function that does not look at the index. -/
theorem mapIdx_map {α β : Type} (f : α → β) (xs : List α) :
    (xs.mapIdx fun _ x => f x) = xs.map f :=
  List.ext_getElem (by simp) fun i _ _ => by simp

section Handler

variable {filter : SizedDocFilter} {name : CString} {transform : Bytes → Bytes}

/-- The callback of the handler puts the copy of a document behind those that are there. -/
theorem SizedDocFilter.Transforms.push (h : filter.Transforms name transform) (b : DocIterBatch)
    (x : UInt64 × Bytes) :
    let b' := b.push filter name x
    b'.ids = b.ids ++ [x.1] ∧ b'.docSizes = b.docSizes ++ [(transform x.2).length] ∧
      b'.docs = b.docs ++ transform x.2 := by
  have hfit := h.length_le x.2
  have hroom : resizeTo (b.docs.length + filter.docSizeFrom name x.2) b.docs =
      b.docs ++ List.replicate (filter.docSizeFrom name x.2) 0 := by
    rw [resizeTo_of_le (by omega), Nat.add_sub_cancel_left]
  unfold DocIterBatch.push
  simp only [hroom, h.docCopy_eq _ _ _ _ hfit, blit_append_right]
  refine ⟨trivial, trivial, ?_⟩
  rw [resizeTo, ← List.append_assoc, ← List.length_append, List.take_left,
    Nat.sub_eq_zero_of_le (by simp), List.replicate_zero, List.append_nil]

/-- A batch holds the copies of the documents that were collected. -/
theorem SizedDocFilter.Transforms.sound (h : filter.Transforms name transform) :
    (docCollecting filter name).Sound (fun _ => True) (fun _ => transformed transform)
      List.length where
  items start xs _ := by
    have hcollect : let b := (docCollecting filter name).collect xs
        b.ids = xs.map Prod.fst ∧ b.docSizes = (xs.map fun x => transform x.2).map List.length ∧
          b.docs = (xs.map fun x => transform x.2).flatten := by
      induction xs using List.reverseRecOn with
      | nil => exact ⟨rfl, rfl, rfl⟩
      | append_singleton xs x ih =>
        obtain ⟨hids, hsizes, hdocs⟩ := ih fun _ _ => trivial
        obtain ⟨hids', hsizes', hdocs'⟩ := h.push ((docCollecting filter name).collect xs) x
        rw [Batching.collect_concat]
        refine ⟨hids'.trans ?_, hsizes'.trans ?_, hdocs'.trans ?_⟩
        · rw [hids, List.map_append]
          rfl
        · rw [hsizes, List.map_append, List.map_append]
          rfl
        · rw [hdocs, List.map_append, List.flatten_append]
          simp
    obtain ⟨hids, hsizes, hdocs⟩ := hcollect
    show DocIterBatch.documents _ = _
    rw [DocIterBatch.documents, hids, hsizes, hdocs, unpack_flatten, List.zip_map', mapIdx_map]
    rfl
  advance_collect xs _ := Batching.size_collect (docCollecting _ _) xs
  advance_append xs ys := List.length_append

/-- `doc_iter_func` does what the handler with unlimited vectors does, where the copy has room. -/
theorem SizedDocFilter.Transforms.append (h : filter.Transforms name transform) (b : DocIterBatch)
    (x : UInt64 × Bytes) :
    b.append filter name x =
      if b.docs.length + filter.docSizeFrom name x.2 ≤ vectorMaxSize 1 then
        some (b.push filter name x)
      else none := by
  have hfit := h.length_le x.2
  unfold DocIterBatch.append
  split_ifs with hroom
  · have hcopied : b.docs.length + (transform x.2).length ≤ vectorMaxSize 1 := by omega
    simp only [resize_of_le hroom, h.docCopy_eq _ _ _ _ hfit, resize_of_le hcopied]
    unfold DocIterBatch.push resizeTo
    simp only [h.docCopy_eq _ _ _ _ hfit, Option.bind_some, Option.map_some]
  · have hnone : resize (b.docs.length + filter.docSizeFrom name x.2) b.docs = none :=
      if_pos (Nat.lt_of_not_le hroom)
    dsimp only
    rw [hnone]
    rfl

/-- The results go to the callback of the handler as to one with unlimited vectors, unless one of
them finds no room. -/
theorem SizedDocFilter.Transforms.feedUntilThrow_eq (h : filter.Transforms name transform)
    (b : ℕ) (results : List (UInt64 × Bytes)) (st : IterState DocIterBatch (UInt64 × Bytes))
    (hclear : st.rpc.Clear) :
    let fed := feedUntilThrow .SUCCESS .SUCCESS (docIterFunc filter name (fun _ _ => .SUCCESS) b)
      results st
    let fits := BatchesFit filter name transform b results st.pending.ids.length
      st.pending.docs.length
    (fits → fed = some (feed .SUCCESS .SUCCESS
        (iterFunc (docCollecting filter name) (fun _ _ => .SUCCESS) b) results st)) ∧
      (¬ fits → fed = none) := by
  induction results generalizing st with
  | nil => exact ⟨fun _ => rfl, fun hno => absurd trivial hno⟩
  | cons x results ih =>
    obtain ⟨-, -, hdocs⟩ := h.push st.pending x
    have hlength := DocIterBatch.length_push filter name st.pending x
    have hpush : (docCollecting filter name).push st.pending x = st.pending.push filter name x := rfl
    dsimp only
    rw [feedUntilThrow, docIterFunc, h.append, BatchesFit, feed_cons]
    by_cases hroom : st.pending.docs.length + filter.docSizeFrom name x.2 ≤ vectorMaxSize 1
    case neg => exact ⟨fun hyes => absurd hyes.1 hroom, fun _ => by rw [if_neg hroom]⟩
    rw [if_pos hroom, and_iff_right hroom]
    dsimp only
    by_cases hfull : (st.pending.push filter name x).ids.length = b
    · have hsize : (docCollecting filter name).size (st.pending.push filter name x) ≠ 0 := by
        show (st.pending.push filter name x).ids.length ≠ 0
        omega
      have hsent := sendBatch_of_clear (fun _ _ => .SUCCESS)
        { st with pending := st.pending.push filter name x } hsize hclear
      rw [iterFunc_of_full _ hfull, hpush, if_pos hfull, if_pos (hlength ▸ hfull), hsent]
      dsimp only
      rw [if_pos rfl, if_pos rfl]
      refine ih ⟨(docCollecting filter name).empty, _, _⟩ ?_
      rw [BackRpc.forward, invoke_of_succeeds fun _ _ => rfl]
      rfl
    · rw [iterFunc_of_room _ hfull, hpush, if_neg hfull, if_neg (hlength ▸ hfull)]
      dsimp only
      rw [if_pos rfl, if_pos rfl]
      have hrest := ih { st with pending := st.pending.push filter name x } hclear
      dsimp only at hrest
      rwa [hlength, hdocs, List.length_append] at hrest

/-- The batches hold the copies of the results, in order, when these have room. -/
theorem SizedDocFilter.Transforms.batchedDocuments_eq_some_iff (h : filter.Transforms name transform)
    (batchSize : UInt32) (count : ℕ) (results docs : List (UInt64 × Bytes)) :
    batchedDocuments filter name batchSize count results = some docs ↔
      BatchesFit filter name transform (effectiveBatchSize batchSize count).toNat results 0 0 ∧
        results.map (transformed transform) = docs := by
  obtain ⟨hfits, hthrows⟩ := h.feedUntilThrow_eq (effectiveBatchSize batchSize count).toNat results
    ⟨(docCollecting filter name).empty, 0, {}⟩ rfl
  have hbatches := @iterUlt_of_succeeds _ _ _ (docCollecting filter name) (fun _ _ => .SUCCESS)
    (fun _ _ => rfl) batchSize count .SUCCESS results
  rw [h.sound.flatten_batches fun _ _ => trivial, mapIdx_map] at hbatches
  unfold iterUlt at hbatches
  unfold batchedDocuments
  dsimp only
  by_cases hroom : BatchesFit filter name transform (effectiveBatchSize batchSize count).toNat
      results 0 0
  · rw [and_iff_right hroom, hfits hroom, Option.map_some, Option.some_inj, hbatches, List.map_map]
    rw [Function.comp_def, List.map_id']
  · rw [hthrows hroom]
    constructor
    · intro hfalse
      cases hfalse
    · exact fun hyes => absurd hyes.1 hroom

theorem BatchesFit.nil (filter : SizedDocFilter) (name : CString) (transform : Bytes → Bytes)
    (batchSize : ℕ) : BatchesFit filter name transform batchSize [] 0 0 := trivial

end Handler

/-! ### What `docIter` hands over -/

/-- A callback gets some results, until it refuses one. -/
def handOver {υ : Type} (func : υ → UInt64 → Bytes → Status × υ) (results : List (UInt64 × Bytes))
    (u : υ) : Status × υ :=
  feed .OK .OK (fun u x => func u x.1 x.2) results u

/-- A callback that takes everything gets the results. -/
theorem handOver_record (results : List (UInt64 × Bytes)) :
    handOver (fun calls id doc => (.OK, calls ++ [(id, doc)])) results [] = (.OK, results) := by
  have hrecord := MapDatabase.feed_record Status.OK .OK results []
  rwa [List.nil_append] at hrecord

theorem handOver_cons {υ : Type} (func : υ → UInt64 → Bytes → Status × υ) (x : UInt64 × Bytes)
    (results : List (UInt64 × Bytes)) (u : υ) :
    handOver func (x :: results) u =
      if (func u x.1 x.2).1 = .OK then handOver func results (func u x.1 x.2).2
      else func u x.1 x.2 := rfl

/-- The handler's batches hold some documents, whichever of the three backends serves `docIter`. -/
structure BatchesHold (array : ArrayDatabase) (log : LogDatabase)
    (mixin : DocumentStoreMixin (MapDatabase .default)) (name : CString) (mode : Mode) (count : ℕ)
    (fromId : UInt64) (filter : SizedDocFilter) (batchSize : UInt32)
    (docs : List (UInt64 × Bytes)) : Prop where
  array : ∃ results, (∀ (υ : Type) (func : υ → UInt64 → Bytes → Status × υ) (u : υ),
      array.docIter name count fromId filter func u = some (handOver func results u)) ∧
    batchedDocuments filter name batchSize count results = some docs
  log : ∃ results, (∀ (υ : Type) (func : υ → UInt64 → Bytes → Status × υ) (u : υ),
      ∃ fetches log', log.docIter name count fromId filter func fetches u =
        some (.ok (some (handOver func results u), log'))) ∧
    batchedDocuments filter name batchSize count results = some docs
  mixin : ∃ results, (∀ (υ : Type) (func : υ → UInt64 → Bytes → Status × υ) (u : υ),
      ∃ mixin', mixin.docIter name mode count fromId filter.toDocFilter func u =
        ((handOver func results u).1, mixin', (handOver func results u).2)) ∧
    batchedDocuments filter name batchSize count results = some docs

section HandOver

variable {υ : Type} {name : CString} {max : ℕ} {filter : SizedDocFilter}
  {transform : Bytes → Bytes}

/-- The loops of the array and the log hand over copies. -/
theorem handCopies_eq_handOver (hcopy : filter.Transforms name transform)
    (func : υ → UInt64 → Bytes → Status × υ) (docs : List (UInt64 × Bytes)) {i : ℕ}
    (hfits : ∀ p ∈ docs.take (max - i), CopyFits filter name p) (docBuffer : Bytes) (u : υ) :
    handCopies name max filter func docs i docBuffer u =
      some (handOver func ((docs.take (max - i)).map (transformed transform)) u) := by
  induction docs generalizing i docBuffer u with
  | nil =>
    rw [List.take_nil]
    rfl
  | cons p docs ih =>
    obtain ⟨id, doc⟩ := p
    by_cases hmax : i < max
    · have hsucc : max - i = max - (i + 1) + 1 := by omega
      rw [hsucc, List.take_succ_cons] at hfits ⊢
      obtain ⟨hfit, hfits⟩ := List.forall_mem_cons.1 hfits
      rw [handCopies, if_pos hmax, resize_of_le hfit]
      simp only [hcopy.docCopy_eq _ _ _ _ (hcopy.length_le doc), slice_blit_same (Nat.zero_le _),
        ih hfits]
      rw [List.map_cons, handOver_cons]
      by_cases hOK : (func u id (transform doc)).1 = .OK
      · rw [if_neg (not_not.2 hOK), if_pos (by exact hOK)]
        rfl
      · rw [if_pos hOK, if_neg (by exact hOK)]
        rfl
    · rw [handCopies_of_max_le (Nat.le_of_not_lt hmax),
        Nat.sub_eq_zero_of_le (Nat.le_of_not_lt hmax)]
      rfl

/-- The mixin hands over what is stored. -/
theorem deliver_eq_handOver (func : υ → UInt64 → Bytes → Status × υ)
    (docs : List (UInt64 × Bytes)) (i : ℕ) (u : υ) :
    deliver max func docs i u =
      handOver func (if max = 0 then docs else docs.take (max - i)) u := by
  induction docs generalizing i u with
  | nil => simp [deliver, handOver, feed]
  | cons p docs ih =>
    obtain ⟨id, doc⟩ := p
    by_cases hgo : max = 0 ∨ i < max
    · have hpage : (if max = 0 then (id, doc) :: docs else ((id, doc) :: docs).take (max - i)) =
          (id, doc) :: (if max = 0 then docs else docs.take (max - (i + 1))) := by
        split_ifs with hzero
        · rfl
        · rw [show max - i = max - (i + 1) + 1 by omega, List.take_succ_cons]
      rw [deliver, if_pos hgo, hpage, handOver_cons]
      rcases func u id doc with ⟨status, u'⟩
      cases status <;> first | rfl | exact ih (i + 1) u'
    · rw [deliver, if_neg hgo, if_neg (by omega), Nat.sub_eq_zero_of_le (by omega)]
      rfl

end HandOver

/-- What the array hands over: copies that fit in a vector. -/
theorem SameDocuments.array_results {array : ArrayDatabase} {log : LogDatabase}
    {mixin : DocumentStoreMixin (MapDatabase .default)} {name : CString} {m : IdMap Bytes}
    (h : SameDocuments array log mixin name m) {filter : SizedDocFilter}
    (hstop : ∀ n val, filter.shouldStop n val = false) {transform : Bytes → Bytes}
    (hcopy : filter.Transforms name transform) {count : ℕ} {fromId : UInt64}
    {results : List (UInt64 × Bytes)}
    (hresults : ∀ (υ : Type) (func : υ → UInt64 → Bytes → Status × υ) (u : υ),
      array.docIter name count fromId filter func u = some (handOver func results u)) :
    let page := (documentsFrom (filter.select name (docOf m)) fromId).take count
    (∀ p ∈ page, CopyFits filter name p) ∧ results = page.map (transformed transform) := by
  have hrecord := hresults _ (fun calls id doc => (.OK, calls ++ [(id, doc)])) []
  rw [h.array_docIter hstop] at hrecord
  have hfits := (handCopies_isSome_iff (fun _ _ _ => rfl) _ 0 [] []).1 (by rw [hrecord]; rfl)
  rw [handCopies_eq_handOver hcopy _ _ hfits, handOver_record, handOver_record] at hrecord
  exact ⟨hfits, (Prod.mk.inj (Option.some.inj hrecord)).2.symm⟩

/-- What the mixin hands over: what is stored. -/
theorem SameDocuments.mixin_results {array : ArrayDatabase} {log : LogDatabase}
    {mixin : DocumentStoreMixin (MapDatabase .default)} {name : CString} {m : IdMap Bytes}
    (h : SameDocuments array log mixin name m) {filter : SizedDocFilter}
    (hstop : ∀ n val, filter.shouldStop n val = false) {mode : Mode} {count : ℕ} {fromId : UInt64}
    {results : List (UInt64 × Bytes)}
    (hresults : ∀ (υ : Type) (func : υ → UInt64 → Bytes → Status × υ) (u : υ),
      ∃ mixin', mixin.docIter name mode count fromId filter.toDocFilter func u =
        ((handOver func results u).1, mixin', (handOver func results u).2)) :
    results = firstDocs count (documentsFrom (filter.select name (docOf m)) fromId) := by
  obtain ⟨mixin', hr⟩ := hresults _ (fun calls id doc => (.OK, calls ++ [(id, doc)])) []
  obtain ⟨mixin'', hr'⟩ := h.mixin_docIter hstop mode count fromId
    (fun calls id doc => (.OK, calls ++ [(id, doc)])) ([] : List (UInt64 × Bytes))
  rw [hr, handOver_record, deliver_eq_handOver, handOver_record] at hr'
  exact (Prod.mk.inj (Prod.mk.inj hr').2).2

/-- The batches hold the filtered documents, each copied once, in two cases: without a limit, when
no document is accepted; with one, when the log has assigned an id and gets at the documents that it
fetches, the copies fit in a vector of the backend and in those of the handler, and copying a copy
changes nothing. -/
theorem filter_applied_once_iff {array : ArrayDatabase} {log : LogDatabase}
    {mixin : DocumentStoreMixin (MapDatabase .default)} {name : CString} {m : IdMap Bytes}
    (h : SameDocuments array log mixin name m) {filter : SizedDocFilter}
    (hstop : ∀ n val, filter.shouldStop n val = false) {transform : Bytes → Bytes}
    (hcopy : filter.Transforms name transform) (mode : Mode) (count : ℕ) (fromId : UInt64)
    (batchSize : UInt32) :
    let accepted := documentsFrom (filter.select name (docOf m)) fromId
    let page := accepted.take count
    let b := (effectiveBatchSize batchSize count).toNat
    BatchesHold array log mixin name mode count fromId filter batchSize
        ((firstDocs count accepted).map (transformed transform)) ↔
      if count = 0 then accepted = []
      else 0 < m.next ∧
        (∀ p ∈ fetchedDocs filter.toDocFilter name count (documentsFrom (docOf m) fromId),
          log.Reaches name p.1) ∧
        (∀ p ∈ page, CopyFits filter name p ∧ transform (transform p.2) = transform p.2) ∧
        BatchesFit filter name transform b page 0 0 ∧
        BatchesFit filter name transform b (page.map (transformed transform)) 0 0 := by
  intro accepted page b
  -- what the batches hold when a backend hands over some results
  have hbatched : ∀ results docs, batchedDocuments filter name batchSize count results = some docs ↔
      BatchesFit filter name transform b results 0 0 ∧ results.map (transformed transform) = docs :=
    hcopy.batchedDocuments_eq_some_iff batchSize count
  have hmixin : ∀ (υ : Type) (func : υ → UInt64 → Bytes → Status × υ) (u : υ),
      ∃ mixin', mixin.docIter name mode count fromId filter.toDocFilter func u =
        ((handOver func (firstDocs count accepted) u).1, mixin',
          (handOver func (firstDocs count accepted) u).2) := by
    intro υ func u
    have hr := h.mixin_docIter hstop mode count fromId func u
    rwa [deliver_eq_handOver] at hr
  by_cases hcount : count = 0
  · subst hcount
    rw [if_pos rfl]
    have hzero : ∀ (υ : Type) (func : υ → UInt64 → Bytes → Status × υ) (u : υ),
        array.docIter name 0 fromId filter func u = some (handOver func [] u) := by
      intro υ func u
      rw [h.array_docIter hstop, handCopies_of_max_le le_rfl]
      rfl
    constructor
    · rintro ⟨⟨results, hresults, hdocs⟩, -, -⟩
      obtain ⟨-, rfl⟩ := h.array_results hstop hcopy hresults
      have hnil := ((hbatched _ _).1 hdocs).2
      rw [List.take_zero] at hnil
      exact List.map_eq_nil_iff.1 hnil.symm
    · intro hnil
      have hpage : firstDocs 0 accepted = [] := hnil
      have hempty : batchedDocuments filter name batchSize 0 [] =
          some ((firstDocs 0 accepted).map (transformed transform)) := by
        rw [hpage]
        exact (hbatched _ _).2 ⟨.nil filter name transform b, rfl⟩
      rw [hpage] at hmixin
      exact ⟨⟨[], hzero, hempty⟩,
        ⟨[], fun υ func u => ⟨0, h.log_docIter_zero fromId filter func u⟩, hempty⟩,
        ⟨[], hmixin, hempty⟩⟩
  · rw [if_neg hcount]
    have hpage : firstDocs count accepted = page := if_neg hcount
    have harray : (∀ p ∈ page, CopyFits filter name p) →
        ∀ (υ : Type) (func : υ → UInt64 → Bytes → Status × υ) (u : υ),
          handCopies name count filter func accepted 0 [] u =
            some (handOver func (page.map (transformed transform)) u) :=
      fun hfits υ func u => handCopies_eq_handOver hcopy func accepted (i := 0) hfits [] u
    constructor
    · rintro ⟨⟨results, hresults, hdocs⟩, ⟨results', hlog, -⟩, ⟨results'', hresults'', hdocs''⟩⟩
      obtain ⟨fetches, log', hr⟩ := hlog _ (fun calls id doc => (.OK, calls ++ [(id, doc)])) []
      have hpos : 0 < m.next := by
        by_contra hempty
        rw [h.log_docIter_empty (Nat.eq_zero_of_not_pos hempty) (Nat.pos_of_ne_zero hcount)] at hr
        cases hr
      obtain ⟨hfits, rfl⟩ := h.array_results hstop hcopy hresults
      obtain rfl := h.mixin_results hstop hresults''
      obtain ⟨hroom, htwice⟩ := (hbatched _ _).1 hdocs
      obtain ⟨hroom', -⟩ := (hbatched _ _).1 hdocs''
      rw [hpage] at htwice hroom'
      rw [List.map_map] at htwice
      refine ⟨hpos, ?_, fun p hp => ⟨hfits p hp, ?_⟩, hroom', hroom⟩
      · by_contra hreaches
        have hall := harray hfits _ (fun calls id doc => (.OK, calls ++ [(id, doc)])) []
        rw [handOver_record] at hall
        exact h.log_docIter_unreached hpos hstop hreaches hall fetches _ hr
      · exact (Prod.mk.inj (List.map_inj_left.1 htwice p hp)).2
    · rintro ⟨hpos, hreaches, hall, hroom, hroom'⟩
      have hfits : ∀ p ∈ page, CopyFits filter name p := fun p hp => (hall p hp).1
      have hdocs : batchedDocuments filter name batchSize count (page.map (transformed transform)) =
          some (page.map (transformed transform)) := by
        refine (hbatched _ _).2 ⟨hroom', ?_⟩
        rw [List.map_map]
        exact List.map_congr_left fun p hp => Prod.ext rfl (hall p hp).2
      rw [hpage] at hmixin ⊢
      refine ⟨⟨_, fun υ func u => ?_, hdocs⟩, ⟨_, fun υ func u => ⟨m.next, ?_⟩, hdocs⟩,
        ⟨_, hmixin, (hbatched _ _).2 ⟨hroom, rfl⟩⟩⟩
      · rw [h.array_docIter hstop, ← harray hfits]
      · rw [← harray hfits]
        exact h.log_docIter hpos hstop hreaches func u le_rfl

/-- A filter that accepts every document and copies a function of it. -/
def copyFilter (transform : Bytes → Bytes) : SizedDocFilter where
  check _ _ _ := true
  docCopy _ dst off room doc := copyOut dst off room (transform doc)
  docSizeFrom _ doc := (transform doc).length

theorem transforms_copyFilter (name : CString) (transform : Bytes → Bytes) :
    (copyFilter transform).Transforms name transform where
  length_le _ := le_rfl
  docCopy_eq _ _ _ _ h := if_neg (Nat.not_lt.2 h)

/-- The filter that keeps the first byte, on the first two documents. -/
theorem filter_applied_once_iff_two :
    ∃ array log mixin, BatchesHold array log mixin nameC .default 2 0 (copyFilter (List.take 1)) 1
      ((firstDocs 2 (documentsFrom ((copyFilter (List.take 1)).select nameC
        (docOf (DocWrite.stored DocWrite.storeThree))) 0)).map (transformed (List.take 1))) := by
  obtain ⟨array, log, mixin, h, hreaches⟩ := exists_storeThree
  refine ⟨array, log, mixin, (filter_applied_once_iff h (fun _ _ => rfl)
    (transforms_copyFilter nameC (List.take 1)) .default 2 0 1).2 ?_⟩
  rw [if_neg (by decide)]
  have hmax : 1 ≤ vectorMaxSize 1 := by decide
  have hone : ∀ doc : Bytes, (copyFilter (List.take 1)).docSizeFrom nameC doc ≤ vectorMaxSize 1 :=
    fun doc => (List.length_take_le 1 doc).trans hmax
  -- every batch has one document
  have hbatches : ∀ docs, BatchesFit (copyFilter (List.take 1)) nameC (List.take 1) 1 docs 0 0 := by
    intro docs
    induction docs with
    | nil => exact .nil _ _ _ _
    | cons p docs ih => exact ⟨(Nat.zero_add _).le.trans (hone p.2), ih⟩
  exact ⟨by decide, fun p _ => hreaches p.1,
    fun p _ => ⟨hone p.2, by rw [List.take_take, Nat.min_self]⟩, hbatches _, hbatches _⟩

/-- A filter that puts a byte in front of a document puts two there. -/
theorem filter_applied_twice :
    ¬ ∀ (array : ArrayDatabase) (log : LogDatabase)
      (mixin : DocumentStoreMixin (MapDatabase .default)) (name : CString) (m : IdMap Bytes),
      SameDocuments array log mixin name m →
        ∀ (filter : SizedDocFilter) (transform : Bytes → Bytes),
          (∀ n val, filter.shouldStop n val = false) → filter.Transforms name transform →
          ∀ (mode : Mode) (count : ℕ) (fromId : UInt64) (batchSize : UInt32),
            BatchesHold array log mixin name mode count fromId filter batchSize
              ((firstDocs count (documentsFrom (filter.select name (docOf m)) fromId)).map
                (transformed transform)) := by
  intro hall
  obtain ⟨array, log, mixin, h, -⟩ := exists_storeThree
  have hcopy := transforms_copyFilter nameC (9 :: ·)
  obtain ⟨⟨results, hresults, hdocs⟩, -, -⟩ := hall array log mixin nameC _ h
    (copyFilter (9 :: ·)) (9 :: ·) (fun _ _ => rfl) hcopy .default 1 0 0
  obtain ⟨-, rfl⟩ := h.array_results (fun _ _ => rfl) hcopy hresults
  have hdocs := ((hcopy.batchedDocuments_eq_some_iff 0 1 _ _).1 hdocs).2
  have hmem : ((0 : UInt64), ([1, 2] : Bytes)) ∈ documentsFrom ((copyFilter (9 :: ·)).select nameC
      (docOf (DocWrite.stored DocWrite.storeThree))) 0 :=
    mem_documentsFrom.2 ⟨UInt64.le_refl 0, DocFilter.select_eq_some.2 ⟨rfl, rfl⟩⟩
  generalize documentsFrom _ 0 = accepted at hdocs hmem
  obtain - | ⟨p, accepted⟩ := accepted
  · cases hmem
  · have htwice := congrArg (List.map fun q => q.2.length) hdocs
    simp [firstDocs, transformed] at htwice

end Yokan
