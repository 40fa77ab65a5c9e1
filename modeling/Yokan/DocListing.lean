import Yokan.DocCopies
import Yokan.DocLoad

/-!
# Yokan: `docList` on three backends

`docList` of `ArrayDatabase`, of `LogDatabase` and of the document mixin over a `MapDatabase`, with
the default document filter, on databases that hold the same documents. The first two fill the
caller's arrays from a callback of `docIter`, the last one from a listing of keys and values.

* Packed, the callback stops the iteration at the first document that does not fit, and the status
  says so; the listing goes on with marks.
* In slots, the callback leaves out the id of a document that does not fit, and does not move on to
  the next slot; the listing does both.
* The log fetches each document, which fails for a chunk behind the last one when there is no room
  to map it.

`doc_list_same_iff` states when the three agree all the same.
-/

namespace Yokan

open Buffer ArrayCollection

/-- The documents of a page have room: in the buffer when they are packed, otherwise each in its
slot. -/
def PageFits (packed : Bool) (slots : List ℕ) (n : ℕ) (page : List (UInt64 × Bytes)) : Prop :=
  if packed then (page.map fun p => p.2.length).sum ≤ n
  else ∀ q ∈ page.zip slots, q.1.2.length ≤ q.2

/-! ### The callback of the array and the log -/

namespace ArrayListing

/-- A listing in the middle of a walk: what is done, and what is left of the caller's arrays. -/
def midway (offset : ℕ) (documents : Bytes) (done left : List UInt64) (sizes slots : List ℕ) :
    ArrayListing :=
  ⟨offset, done.length, done ++ left, documents, sizes ++ slots⟩

variable {offset slot : ℕ} {documents : Bytes} {done left : List UInt64} {sizes slots : List ℕ}

/-- The callback copies a document that has room. -/
theorem callback_midway (packed : Bool) (hdone : sizes.length = done.length) (id old : UInt64)
    {doc : Bytes} (hpacked : packed = true → addSize offset doc.length ≤ documents.length)
    (hslot : packed = false → doc.length ≤ slot) :
    callback packed (midway offset documents done (old :: left) sizes (slot :: slots)) id doc =
      (.OK, midway (addSize offset (if packed then doc.length else slot))
        (blit documents offset doc) (done ++ [id]) left (sizes ++ [doc.length]) slots) := by
  have hget : (sizes ++ slot :: slots).getD done.length 0 = slot := by simp [← hdone]
  have hids : (done ++ old :: left).set done.length id = done ++ [id] ++ left := by simp
  have hsizes : (sizes ++ slot :: slots).set done.length doc.length =
      sizes ++ [doc.length] ++ slots := by simp [← hdone]
  have hcount : (done ++ [id]).length = done.length + 1 := List.length_append
  unfold midway
  rw [hcount]
  cases packed with
  | true =>
    rw [callback_packed, if_neg (Nat.not_lt.2 (hpacked rfl))]
    simp only [hids, hsizes, if_true]
  | false =>
    rw [callback_slots]
    simp only [hget, hids, hsizes, if_neg (Nat.not_lt.2 (hslot rfl)), Bool.false_eq_true, if_false]

/-- In a slot that is too small, it leaves a mark and nothing else. -/
theorem callback_midway_of_lt (hdone : sizes.length = done.length) (id old : UInt64) {doc : Bytes}
    (hslot : slot < doc.length) :
    callback false (midway offset documents done (old :: left) sizes (slot :: slots)) id doc =
      (.OK, midway offset documents (done ++ [old]) left (sizes ++ [sizeTooSmall]) slots) := by
  have hget : (sizes ++ slot :: slots).getD done.length 0 = slot := by simp [← hdone]
  have hids : done ++ old :: left = done ++ [old] ++ left := by simp
  have hsizes : (sizes ++ slot :: slots).set done.length sizeTooSmall =
      sizes ++ [sizeTooSmall] ++ slots := by simp [← hdone]
  have hcount : (done ++ [old]).length = done.length + 1 := List.length_append
  unfold midway
  rw [hcount, callback_slots]
  simp only [hget, hsizes, if_pos hslot, ← hids]

end ArrayListing

open ArrayListing

/-- A page that fits goes to the caller's memory as a listing of keys and values takes it there. -/
theorem handOver_of_fits (packed : Bool) (page : List (UInt64 × Bytes)) {offset : ℕ}
    {documents : Bytes} {done left : List UInt64} {sizes slots : List ℕ}
    (hlen : page.length ≤ slots.length) (hleft : left.length = slots.length)
    (hdone : sizes.length = done.length) (hpacked : packed = true →
      documents.length < 2 ^ 63 ∧ offset + (page.map fun p => p.2.length).sum ≤ documents.length)
    (hslots : packed = false → ∀ q ∈ page.zip slots, q.1.2.length ≤ q.2) :
    let col := Column.pushAll packed ((page.map Prod.snd).zip slots)
      ⟨documents, offset, false, sizes⟩
    handOver (callback packed) page (midway offset documents done left sizes slots) =
        (.OK, midway col.offset col.buf (done ++ page.map Prod.fst) (left.drop page.length)
          col.sizes (slots.drop page.length)) ∧
      col.sizes.length = sizes.length + page.length := by
  -- `done` has what was handed over, and `slots` what is left for the rest of the page
  induction page generalizing offset documents done left sizes slots with
  | nil => exact ⟨by simp [handOver, feed, Column.pushAll], rfl⟩
  | cons p page ih =>
    obtain ⟨id, doc⟩ := p
    obtain - | ⟨slot, slots⟩ := slots
    · simp at hlen
    obtain - | ⟨old, left⟩ := left
    · simp at hleft
    simp only [List.length_cons, List.map_cons, List.sum_cons, Nat.add_le_add_iff_right,
      Nat.add_right_cancel_iff] at hlen hleft hpacked
    have hsound : packed = true → addSize offset doc.length = offset + doc.length := fun hp =>
      addSize_eq (by have hsum := hpacked hp; omega)
    have hfits : packed = false → doc.length ≤ slot ∧
        ∀ q ∈ page.zip slots, q.1.2.length ≤ q.2 := by
      intro hp
      have hall := hslots hp
      rwa [List.zip_cons_cons, List.forall_mem_cons] at hall
    have hstep : callback packed (midway offset documents done (old :: left) sizes (slot :: slots))
        id doc = _ := callback_midway packed hdone id old
      (fun hp => by rw [hsound hp]; have hsum := hpacked hp; omega) (fun hp => (hfits hp).1)
    have hpush : Column.push packed slot (fun dst off room => copyOut dst off room doc)
        ⟨documents, offset, false, sizes⟩ =
          ⟨blit documents offset doc, addSize offset (if packed then doc.length else slot), false,
            sizes ++ [doc.length]⟩ := by
      cases packed with
      | true =>
        have hsum := hpacked rfl
        have hmark : sizeTooSmall = 2 ^ 64 - 2 := rfl
        simp [Column.push, copyOut, hsound rfl,
          show ¬ documents.length - offset < doc.length by omega,
          show doc.length ≠ sizeTooSmall by omega]
      | false => simp [Column.push, copyOut, Nat.not_lt.2 (hfits rfl).1]
    have hnext : packed = true → (blit documents offset doc).length < 2 ^ 63 ∧
        addSize offset (if packed then doc.length else slot) +
          (page.map fun p => p.2.length).sum ≤ (blit documents offset doc).length := by
      intro hp
      have hsum := hpacked hp
      rw [if_pos hp, hsound hp, length_blit (by omega)]
      omega
    have hdone' : (sizes ++ [doc.length]).length = (done ++ [id]).length := by simp [hdone]
    obtain ⟨hrest, hcount⟩ := ih hlen hleft hdone' hnext fun hp => (hfits hp).2
    have hpushAll : Column.pushAll packed ((((id, doc) :: page).map Prod.snd).zip (slot :: slots))
        ⟨documents, offset, false, sizes⟩ = Column.pushAll packed ((page.map Prod.snd).zip slots)
          (Column.push packed slot (fun dst off room => copyOut dst off room doc)
            ⟨documents, offset, false, sizes⟩) := rfl
    rw [hpushAll, hpush]
    rw [List.length_append] at hcount
    refine ⟨?_, hcount.trans ?_⟩
    · rw [handOver_cons, hstep, if_pos rfl]
      dsimp only
      rw [hrest, List.append_assoc]
      rfl
    · simp only [List.length_cons, List.length_nil]
      omega

/-- Packed, the callback stops the iteration when the documents are too large. -/
theorem handOver_stops (page : List (UInt64 × Bytes))
    (hdocs : ∀ p ∈ page, p.2.length ≤ vectorMaxSize 1) (st : ArrayListing)
    (hbuf : st.documents.length < 2 ^ 63) (hoffset : st.offset ≤ st.documents.length)
    (hlarge : st.documents.length < st.offset + (page.map fun p => p.2.length).sum) :
    (handOver (callback true) page st).1 = .StopIteration := by
  induction page generalizing st with
  | nil => exact absurd hlarge (by simpa using hoffset)
  | cons p page ih =>
    obtain ⟨id, doc⟩ := p
    obtain ⟨hdoc, hdocs⟩ := List.forall_mem_cons.1 hdocs
    have hdoc : doc.length ≤ 2 ^ 63 - 1 := hdoc
    have hsound : addSize st.offset doc.length = st.offset + doc.length := addSize_eq (by omega)
    simp only [List.map_cons, List.sum_cons] at hlarge
    rw [handOver_cons]
    dsimp only
    rw [callback_packed, hsound]
    by_cases hfull : st.documents.length < st.offset + doc.length
    · rw [if_pos hfull]
      rfl
    · rw [if_neg hfull, if_pos rfl]
      have hblit : (blit st.documents st.offset doc).length = st.documents.length :=
        length_blit (Nat.le_of_not_lt hfull)
      refine ih hdocs _ ?_ ?_ ?_
      · rwa [hblit]
      · rw [hblit]
        exact Nat.le_of_not_lt hfull
      · rw [hblit]
        dsimp only
        omega

/-- In slots, the callback leaves out the ids of documents that are too large. -/
theorem ids_handOver (page : List (UInt64 × Bytes)) (offset : ℕ) (documents : Bytes)
    {done left : List UInt64} {sizes slots : List ℕ} (hlen : page.length ≤ slots.length)
    (hleft : left.length = slots.length) (hdone : sizes.length = done.length) :
    ∃ offset' documents' sizes', handOver (callback false) page
        (midway offset documents done left sizes slots) =
      (.OK, midway offset' documents' (done ++ List.zipWith
        (fun q old => if q.2 < q.1.2.length then old else q.1.1) (page.zip slots) left)
          (left.drop page.length) sizes' (slots.drop page.length)) := by
  induction page generalizing offset documents done left sizes slots with
  | nil => exact ⟨offset, documents, sizes, by simp [handOver, feed]⟩
  | cons p page ih =>
    obtain ⟨id, doc⟩ := p
    obtain - | ⟨slot, slots⟩ := slots
    · simp at hlen
    obtain - | ⟨old, left⟩ := left
    · simp at hleft
    simp only [List.length_cons, Nat.add_le_add_iff_right, Nat.add_right_cancel_iff] at hlen hleft
    have hnext : ∀ (id : UInt64) (size : ℕ),
        (sizes ++ [size]).length = (done ++ [id]).length := by simp [hdone]
    by_cases hslot : slot < doc.length
    · obtain ⟨offset', documents', sizes', hrest⟩ := ih offset documents hlen hleft
        (hnext old sizeTooSmall)
      refine ⟨offset', documents', sizes', ?_⟩
      rw [handOver_cons, callback_midway_of_lt hdone id old hslot, if_pos rfl]
      dsimp only
      rw [hrest, List.append_assoc, List.zip_cons_cons, List.zipWith_cons_cons, if_pos hslot]
      rfl
    · obtain ⟨offset', documents', sizes', hrest⟩ := ih (addSize offset slot)
        (blit documents offset doc) hlen hleft (hnext id doc.length)
      refine ⟨offset', documents', sizes', ?_⟩
      rw [handOver_cons, callback_midway false hdone id old (fun hfalse => by cases hfalse) fun _ =>
        Nat.le_of_not_lt hslot, if_pos rfl]
      dsimp only
      rw [if_neg Bool.false_ne_true, hrest, List.append_assoc, List.zip_cons_cons,
        List.zipWith_cons_cons, if_neg hslot]
      rfl

/-! ### The three backends -/

/-- What the three backends answer: the status, the ids, the document buffer and the sizes. -/
def listAnswers (array : ArrayDatabase) (log : LogDatabase)
    (mixin : DocumentStoreMixin (MapDatabase .default)) (name : CString) (mode : Mode)
    (packed : Bool) (fromId : UInt64) (ids : List UInt64) (documents : Bytes) (docSizes : List ℕ)
    (fetches : ℕ) : List (Option (Status × List UInt64 × Bytes × List ℕ)) :=
  let r := mixin.docList name mode packed fromId defaultDocFilter ids documents docSizes
  [array.docList name packed fromId makeDocFilter ids documents docSizes,
    (log.docList name packed fromId makeDocFilter ids documents docSizes fetches).bind fun r =>
      r.toOption.bind Prod.fst,
    some (r.1, r.2.1.ids, r.2.1.documents, r.2.1.docSizes)]

/-- The three backends answer alike, whatever the arrays and the buffer of the caller hold. -/
def ListsAlike (array : ArrayDatabase) (log : LogDatabase)
    (mixin : DocumentStoreMixin (MapDatabase .default)) (name : CString) (mode : Mode)
    (packed : Bool) (fromId : UInt64) (docSizes : List ℕ) (n : ℕ) : Prop :=
  ∀ (ids : List UInt64) (documents : Bytes), ids.length = docSizes.length → documents.length = n →
    ∃ fetches, SameAnswers
      (listAnswers array log mixin name mode packed fromId ids documents docSizes fetches)

/-- The answer that the array and the log give for a page. -/
def callbackAnswer (packed : Bool) (page : List (UInt64 × Bytes)) (ids : List UInt64)
    (documents : Bytes) (docSizes : List ℕ) : Status × List UInt64 × Bytes × List ℕ :=
  let r := handOver (callback packed) page (midway 0 documents [] ids [] docSizes)
  let left := ids.length - r.2.i
  (r.1, r.2.ids.take r.2.i ++ List.replicate left noMoreDocs, r.2.documents,
    r.2.docSizes.take r.2.i ++ List.replicate left noMoreKeys)

/-- The answer that the mixin gives for a page. -/
def listingAnswer (packed : Bool) (page : List (UInt64 × Bytes)) (count : ℕ) (documents : Bytes)
    (docSizes : List ℕ) : Status × List UInt64 × Bytes × List ℕ :=
  let col := (Column.start documents).pushAll packed ((page.map Prod.snd).zip docSizes)
  (.OK, page.map Prod.fst ++ List.replicate (count - page.length) noMoreDocs, col.buf,
    col.sizes ++ List.replicate (count - col.sizes.length) noMoreKeys)

theorem transforms_makeDocFilter (name : CString) : makeDocFilter.Transforms name id where
  length_le _ := le_rfl
  docCopy_eq _ _ _ _ h := if_neg (Nat.not_lt.2 h)

namespace SameDocuments

variable {array : ArrayDatabase} {log : LogDatabase}
  {mixin : DocumentStoreMixin (MapDatabase .default)} {name : CString} {m : IdMap Bytes}
  (packed : Bool) (fromId : UInt64) {ids : List UInt64} (documents : Bytes) (docSizes : List ℕ)

theorem handCopies_callback (h : SameDocuments array log mixin name m) (count : ℕ)
    (st : ArrayListing) :
    let page := (documentsFrom (docOf m) fromId).take count
    handCopies name count makeDocFilter (callback packed) (documentsFrom (docOf m) fromId) 0 [] st =
      some (handOver (callback packed) page st) := by
  have hfits : ∀ p ∈ (documentsFrom (docOf m) fromId).take count, CopyFits makeDocFilter name p :=
    fun p hp => h.length_le (mem_documentsFrom.1 (List.mem_of_mem_take hp)).2
  have hsame : ∀ docs : List (UInt64 × Bytes), docs.map (transformed id) = docs :=
    fun docs => List.map_id' docs
  have hhand := handCopies_eq_handOver (transforms_makeDocFilter name) (callback packed)
    (documentsFrom (docOf m) fromId) (i := 0) hfits [] st
  rwa [hsame] at hhand

theorem array_docList (h : SameDocuments array log mixin name m) (ids : List UInt64) :
    array.docList name packed fromId makeDocFilter ids documents docSizes =
      some (callbackAnswer packed ((documentsFrom (docOf m) fromId).take ids.length) ids documents
        docSizes) := by
  have hselect : makeDocFilter.select name (docOf m) = docOf m := select_defaultDocFilter name _
  unfold ArrayDatabase.docList
  rw [h.array_docIter fun _ _ => rfl, hselect, h.handCopies_callback packed fromId]
  rfl

/-- With the default filter, the log fetches the documents of the page. -/
theorem fetchedDocs_default (count : ℕ) :
    fetchedDocs makeDocFilter.toDocFilter name count (documentsFrom (docOf m) fromId) =
      (documentsFrom (docOf m) fromId).take count :=
  fetchedDocs_of_accepts (fun _ _ _ => rfl) count _

theorem log_docList (h : SameDocuments array log mixin name m) (hpos : 0 < m.next)
    (hreaches : ∀ p ∈ (documentsFrom (docOf m) fromId).take ids.length, log.Reaches name p.1) :
    ∃ log', log.docList name packed fromId makeDocFilter ids documents docSizes m.next =
      some (.ok (some (callbackAnswer packed ((documentsFrom (docOf m) fromId).take ids.length) ids
        documents docSizes), log')) := by
  have hselect : makeDocFilter.select name (docOf m) = docOf m := select_defaultDocFilter name _
  rw [← fetchedDocs_default] at hreaches
  obtain ⟨log', hlog⟩ := h.log_docIter hpos
    (fun _ _ => rfl : ∀ n val, makeDocFilter.shouldStop n val = false) hreaches
    (callback packed) ⟨0, 0, ids, documents, docSizes⟩ (le_refl m.next)
  rw [hselect, h.handCopies_callback packed fromId] at hlog
  refine ⟨log', ?_⟩
  unfold LogDatabase.docList
  rw [hlog]
  rfl

/-- When the callback takes the whole page and the log does not get at it, `docList` of the log has
no result. -/
theorem log_docList_unreached (h : SameDocuments array log mixin name m) (hpos : 0 < m.next)
    (hreaches : ¬ ∀ p ∈ (documentsFrom (docOf m) fromId).take ids.length, log.Reaches name p.1)
    (hOK : (callbackAnswer packed ((documentsFrom (docOf m) fromId).take ids.length) ids documents
      docSizes).1 = .OK) (fetches : ℕ)
    (r : Option (Status × List UInt64 × Bytes × List ℕ) × LogDatabase) :
    log.docList name packed fromId makeDocFilter ids documents docSizes fetches ≠ some (.ok r) := by
  have hselect : makeDocFilter.select name (docOf m) = docOf m := select_defaultDocFilter name _
  have hall := h.handCopies_callback packed fromId ids.length ⟨0, 0, ids, documents, docSizes⟩
  dsimp only at hall
  generalize hr : handOver (callback packed) _ _ = r at hall
  obtain ⟨status, st⟩ := r
  obtain rfl : status = .OK := (congrArg Prod.fst hr).symm.trans hOK
  nth_rewrite 1 [← hselect] at hall
  rw [← fetchedDocs_default] at hreaches
  have hlog := h.log_docIter_unreached hpos
    (fun _ _ => rfl : ∀ n val, makeDocFilter.shouldStop n val = false) hreaches hall fetches
  unfold LogDatabase.docList
  cases hr : log.docIter name ids.length fromId makeDocFilter (callback packed) fetches
    ⟨0, 0, ids, documents, docSizes⟩ with
  | none => exact fun hfalse => by cases hfalse
  | some answer =>
    cases answer with
    | error fault => exact fun hfalse => by cases hfalse
    | ok answer => exact absurd hr (hlog answer)

/-- Asked for no document, `docList` of the log answers whatever was assigned. -/
theorem log_docList_nil (h : SameDocuments array log mixin name m) :
    ∃ log', log.docList name packed fromId makeDocFilter [] documents docSizes 0 =
      some (.ok (some (callbackAnswer packed [] [] documents docSizes), log')) := by
  obtain ⟨log', hlog⟩ := h.log_docIter_zero fromId makeDocFilter (callback packed)
    ⟨0, 0, [], documents, docSizes⟩
  refine ⟨log', ?_⟩
  unfold LogDatabase.docList
  rw [List.length_nil, hlog]
  rfl

theorem mixin_docList (h : SameDocuments array log mixin name m) (mode : Mode)
    {docSizes : List ℕ} (hlen : docSizes.length = ids.length)
    (hfit : ids.length * 8 ≤ lastValidSize) :
    let r := mixin.docList name mode packed fromId defaultDocFilter ids documents docSizes
    (r.1, r.2.1.ids, r.2.1.documents, r.2.1.docSizes) =
      listingAnswer packed ((documentsFrom (docOf m) fromId).take ids.length) ids.length documents
        docSizes := by
  obtain ⟨metadata, hmetadata⟩ := h.exists_metadata
  obtain ⟨t, hlist, -⟩ := DocumentStoreMixin.docList_sorted rfl rfl h.coherent h.nonempty mode
    packed fromId ⟨ids, docSizes, hlen, hfit⟩ documents
  dsimp only at hlist ⊢
  rw [hlist]
  simp only [Collection.list, hmetadata, h.docs_eq]
  rfl

end SameDocuments

section Answers

variable {packed : Bool} {page : List (UInt64 × Bytes)} {ids : List UInt64} {documents : Bytes}
  {docSizes : List ℕ}

/-- The answers for a page that fits. -/
theorem callbackAnswer_of_fits (hpage : page.length ≤ docSizes.length)
    (hids : ids.length = docSizes.length) (hbuf : documents.length < 2 ^ 63)
    (hfits : PageFits packed docSizes documents.length page) :
    callbackAnswer packed page ids documents docSizes =
      listingAnswer packed page ids.length documents docSizes := by
  have hpacked : packed = true → documents.length < 2 ^ 63 ∧
      0 + (page.map fun p => p.2.length).sum ≤ documents.length := by
    intro hp
    rw [PageFits, if_pos hp] at hfits
    omega
  have hslots : packed = false → ∀ q ∈ page.zip docSizes, q.1.2.length ≤ q.2 := by
    intro hp
    rwa [PageFits, if_neg (by rw [hp]; exact Bool.false_ne_true)] at hfits
  have hdone : ([] : List ℕ).length = ([] : List UInt64).length := rfl
  obtain ⟨hwalk, hcount⟩ := handOver_of_fits packed page hpage hids hdone hpacked hslots
  have hlength : (page.map Prod.fst).length = page.length := List.length_map _
  rw [List.length_nil, Nat.zero_add] at hcount
  unfold callbackAnswer listingAnswer
  rw [hwalk]
  simp only [midway, Column.start, hcount, List.nil_append]
  rw [← hlength, List.take_left, hlength, ← hcount, List.take_left]

/-- The ids of a page are all written exactly if each document fits in its slot. -/
theorem slots_fit_of_ids (rest : List UInt64) {slots : List ℕ} (hlen : page.length ≤ slots.length)
    (hids : List.zipWith (fun q old => if q.2 < q.1.2.length then old else q.1.1) (page.zip slots)
      (page.map (fun p => p.1 + 1) ++ rest) = page.map Prod.fst) :
    ∀ q ∈ page.zip slots, q.1.2.length ≤ q.2 := by
  induction page generalizing slots with
  | nil => simp
  | cons p page ih =>
    obtain - | ⟨slot, slots⟩ := slots
    · simp at hlen
    rw [List.zip_cons_cons, List.map_cons, List.map_cons, List.cons_append,
      List.zipWith_cons_cons] at hids
    obtain ⟨hhead, htail⟩ := List.cons.inj hids
    rw [List.zip_cons_cons, List.forall_mem_cons]
    refine ⟨Nat.le_of_not_lt fun hslot => ?_, ih (Nat.le_of_succ_le_succ hlen) htail⟩
    rw [if_pos hslot] at hhead
    exact absurd hhead (by simp)

/-- The ids that the caller finds tell the answers for a page that does not fit. -/
theorem fits_of_callbackAnswer (hpage : page.length ≤ docSizes.length)
    (hdocs : ∀ p ∈ page, p.2.length ≤ vectorMaxSize 1) {n : ℕ} (hn : n < 2 ^ 63)
    (hsame : ∀ (ids : List UInt64) (documents : Bytes), ids.length = docSizes.length →
      documents.length = n → callbackAnswer packed page ids documents docSizes =
        listingAnswer packed page ids.length documents docSizes) :
    PageFits packed docSizes n page := by
  -- ids that no document of the page has at its position
  let ids := page.map (fun p => p.1 + 1) ++ List.replicate (docSizes.length - page.length) 0
  have hids : ids.length = docSizes.length := by
    rw [List.length_append, List.length_map, List.length_replicate]
    omega
  have hanswer := hsame ids (List.replicate n 0) hids List.length_replicate
  unfold PageFits
  cases packed with
  | true =>
    rw [if_pos rfl]
    by_contra hlarge
    have hstop := handOver_stops page hdocs
      (midway 0 (List.replicate n 0) [] ids [] docSizes)
      (by rw [midway, List.length_replicate]; exact hn) (Nat.zero_le _)
      (by simpa [midway] using Nat.lt_of_not_le hlarge)
    have hstatus := congrArg Prod.fst hanswer
    rw [callbackAnswer] at hstatus
    dsimp only at hstatus
    rw [hstop] at hstatus
    cases hstatus
  | false =>
    rw [if_neg Bool.false_ne_true]
    have hdone : ([] : List ℕ).length = ([] : List UInt64).length := rfl
    obtain ⟨offset, buf, sizes, hwalk⟩ := ids_handOver page 0 (List.replicate n 0) hpage hids hdone
    have hwritten := congrArg (fun answer => answer.2.1) hanswer
    rw [callbackAnswer] at hwritten
    dsimp only at hwritten
    rw [hwalk] at hwritten
    simp only [midway, List.nil_append, List.take_left, listingAnswer] at hwritten
    have hcount : (List.zipWith (fun q old => if q.2 < q.1.2.length then old else q.1.1)
        (page.zip docSizes) ids).length = (page.map Prod.fst).length := by
      rw [List.length_zipWith, List.length_zip, List.length_map]
      omega
    exact slots_fit_of_ids _ hpage (List.append_inj_left hwritten hcount)

end Answers

section SameLists

variable {array : ArrayDatabase} {log : LogDatabase}
  {mixin : DocumentStoreMixin (MapDatabase .default)} {name : CString} {m : IdMap Bytes}
  {mode : Mode} {packed : Bool} {fromId : UInt64} {docSizes : List ℕ} {n : ℕ}

/-- The page fits when the array answers like the mixin. -/
theorem SameDocuments.fits_of_listsAlike (h : SameDocuments array log mixin name m)
    (hcount : docSizes.length * 8 ≤ lastValidSize) (hn : n < 2 ^ 63)
    (hall : ListsAlike array log mixin name mode packed fromId docSizes n) :
    PageFits packed docSizes n ((documentsFrom (docOf m) fromId).take docSizes.length) := by
  refine fits_of_callbackAnswer (List.length_take_le _ _) (fun p hp => ?_) hn
    fun ids documents hids hdocuments => ?_
  · exact h.length_le (mem_documentsFrom.1 (List.mem_of_mem_take hp)).2
  · obtain ⟨fetches, hsame⟩ := hall ids documents hids hdocuments
    have harray := hsame _ List.mem_cons_self _ (List.mem_cons_of_mem _
      (List.mem_cons_of_mem _ List.mem_cons_self))
    have hmixin := h.mixin_docList packed fromId documents mode hids.symm (by rwa [hids])
    rw [h.array_docList packed fromId documents docSizes ids, hmixin, hids] at harray
    rw [hids]
    exact Option.some.inj harray

/-- The three backends answer alike when the page fits. -/
theorem SameDocuments.listsAlike_of_fits (h : SameDocuments array log mixin name m)
    (hcount : docSizes.length * 8 ≤ lastValidSize) (hn : n < 2 ^ 63)
    (hassigned : docSizes = [] ∨ 0 < m.next)
    (hreaches : ∀ p ∈ (documentsFrom (docOf m) fromId).take docSizes.length, log.Reaches name p.1)
    (hfits : PageFits packed docSizes n ((documentsFrom (docOf m) fromId).take docSizes.length)) :
    ListsAlike array log mixin name mode packed fromId docSizes n := by
  intro ids documents hids hdocuments
  have hpage := List.length_take_le docSizes.length (documentsFrom (docOf m) fromId)
  have hanswer : callbackAnswer packed ((documentsFrom (docOf m) fromId).take docSizes.length)
      ids documents docSizes = _ := callbackAnswer_of_fits hpage hids (by rwa [hdocuments])
    (by rwa [hdocuments])
  have harray := h.array_docList packed fromId documents docSizes ids
  have hmixin := h.mixin_docList packed fromId documents mode hids.symm (by rwa [hids])
  have hlog : ∃ fetches log', log.docList name packed fromId makeDocFilter ids documents docSizes
      fetches = some (.ok (some (callbackAnswer packed ((documentsFrom (docOf m) fromId).take
        docSizes.length) ids documents docSizes), log')) := by
    obtain rfl | hpos := hassigned
    · obtain rfl := List.length_eq_zero_iff.1 hids
      exact ⟨0, h.log_docList_nil packed fromId documents []⟩
    · rw [← hids] at hreaches ⊢
      exact ⟨m.next, h.log_docList packed fromId documents docSizes hpos hreaches⟩
  obtain ⟨fetches, log', hlog⟩ := hlog
  rw [hids] at harray hmixin
  refine ⟨fetches, ?_⟩
  unfold listAnswers
  rw [harray, hlog, hanswer, hids]
  dsimp only at hmixin ⊢
  rw [hmixin]
  simp [SameAnswers, Except.toOption]

end SameLists

/-- `docList` does the same on the three backends, whatever the caller's memory holds, when the page
asked for fits, and the log gets at its documents and has assigned an id or is asked for nothing; and
only then. -/
theorem doc_list_same_iff {array : ArrayDatabase} {log : LogDatabase}
    {mixin : DocumentStoreMixin (MapDatabase .default)} {name : CString} {m : IdMap Bytes}
    (h : SameDocuments array log mixin name m) (mode : Mode) (packed : Bool) (fromId : UInt64)
    {docSizes : List ℕ} (hcount : docSizes.length * 8 ≤ lastValidSize) {n : ℕ} (hn : n < 2 ^ 63) :
    let page := (documentsFrom (docOf m) fromId).take docSizes.length
    ListsAlike array log mixin name mode packed fromId docSizes n ↔
      (docSizes = [] ∨ 0 < m.next) ∧ (∀ p ∈ page, log.Reaches name p.1) ∧
        PageFits packed docSizes n page := by
  intro page
  refine ⟨fun hall => ?_, fun ⟨hassigned, hreaches, hfits⟩ =>
    h.listsAlike_of_fits hcount hn hassigned hreaches hfits⟩
  have hids : (List.replicate docSizes.length (0 : UInt64)).length = docSizes.length :=
    List.length_replicate
  have hdocuments : (List.replicate n (0 : UInt8)).length = n := List.length_replicate
  have hfits := h.fits_of_listsAlike hcount hn hall
  obtain ⟨fetches, hsame⟩ := hall _ _ hids hdocuments
  have hlog := hsame _ (List.mem_cons_of_mem _ List.mem_cons_self) _ (List.mem_cons_of_mem _
    (List.mem_cons_of_mem _ List.mem_cons_self))
  have hassigned : docSizes = [] ∨ 0 < m.next := by
    by_contra hnone
    rw [not_or] at hnone
    have hempty := h.log_docIter_empty (Nat.eq_zero_of_not_pos hnone.2)
      (List.length_pos_iff.2 hnone.1) fromId makeDocFilter (ArrayListing.callback packed)
      ⟨0, 0, List.replicate docSizes.length 0, List.replicate n 0, docSizes⟩ fetches
    unfold LogDatabase.docList at hlog
    rw [hids, hempty] at hlog
    cases hlog
  refine ⟨hassigned, ?_, hfits⟩
  by_contra hreaches
  have hpos : 0 < m.next := by
    obtain rfl | hpos := hassigned
    · exact absurd (fun p hp => absurd hp List.not_mem_nil) hreaches
    · exact hpos
  have hanswer := callbackAnswer_of_fits (List.length_take_le _ _) hids (hdocuments ▸ hn)
    (hdocuments.symm ▸ hfits)
  have hreaches : ¬ ∀ p ∈ (documentsFrom (docOf m) fromId).take
      (List.replicate docSizes.length (0 : UInt64)).length, log.Reaches name p.1 := by
    rwa [hids]
  have hnone := h.log_docList_unreached packed fromId _ docSizes hpos hreaches
    (by rw [hids, hanswer]; rfl) fetches
  generalize log.docList name packed fromId makeDocFilter _ _ docSizes fetches = r at hlog hnone
  obtain - | fault | ⟨answer, log'⟩ := r
  · cases hlog
  · cases hlog
  · exact hnone _ rfl

/-- The documents of the run. -/
theorem documentsFrom_storeThree :
    documentsFrom (docOf (DocWrite.stored DocWrite.storeThree)) 0 = [(0, [1, 2]), (2, [4])] := by
  obtain ⟨_, _, _, h, -⟩ := exists_storeThree
  obtain ⟨c, -, hrep⟩ := h.log
  rw [documentsFrom_stored hrep.fresh h.next_lt]
  rfl

/-- Two slots of two bytes each, or a buffer of two bytes for both documents. -/
theorem doc_list_same_storeThree :
    ∃ array log mixin, ListsAlike array log mixin nameC .default false 0 [2, 2] 4 ∧
      ¬ ListsAlike array log mixin nameC .default true 0 [0, 0] 2 := by
  obtain ⟨array, log, mixin, h, hreaches⟩ := exists_storeThree
  refine ⟨array, log, mixin, (doc_list_same_iff h .default false 0 (by decide) (by decide)).2
    ⟨Or.inr (by decide), fun p _ => hreaches p.1, ?_⟩, fun hall => ?_⟩
  · rw [documentsFrom_storeThree]
    unfold PageFits
    decide
  · have hfits := ((doc_list_same_iff h .default true 0 (by decide) (by decide)).1 hall).2.2
    rw [documentsFrom_storeThree] at hfits
    exact absurd (show 3 ≤ 2 from hfits) (by decide)

/-- A packed document of two bytes does not fit in a buffer of one, and the array answers with
another status than the mixin. -/
theorem doc_list_differs :
    ¬ ∀ (array : ArrayDatabase) (log : LogDatabase)
      (mixin : DocumentStoreMixin (MapDatabase .default)) (name : CString) (m : IdMap Bytes),
      SameDocuments array log mixin name m → ∀ (mode : Mode) (packed : Bool) (fromId : UInt64)
        (docSizes : List ℕ) (n : ℕ), docSizes.length * 8 ≤ lastValidSize → n < 2 ^ 63 →
          (packed = false → docSizes.sum ≤ n) →
            ListsAlike array log mixin name mode packed fromId docSizes n := by
  intro hall
  obtain ⟨array, log, mixin, h, -⟩ := exists_storeThree
  have hlists := hall array log mixin nameC _ h .default true 0 [0] 1 (by decide) (by decide)
    (fun hfalse => by cases hfalse)
  have hfits := h.fits_of_listsAlike (by decide) (by decide) hlists
  rw [documentsFrom_storeThree] at hfits
  exact absurd (show 2 ≤ 1 from hfits) (by decide)

end Yokan
