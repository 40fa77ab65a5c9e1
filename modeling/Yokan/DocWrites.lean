import Yokan.GetWrites
import Yokan.ArrayMigration

/-!
# Yokan: what the document operations write

`docLoad` and `docList` on two buffers. Whatever the buffers hold, the sizes are the same, and the
buffers agree on the documents that the sizes announce.

* `DocsAlike`: the relation that the loops of the `array` backend keep between two buffers;
* `DocBackend`: a database with documents, and what two calls of it have in common;
* `ArrayDatabase.documents`, `DocumentStoreMixin.documents`: the `array` backend, and the documents
  over a `MapDatabase`.
-/

namespace Yokan

open Buffer

/-! ### Announced documents -/

/-- Position `p` belongs to a document that the sizes announce. Of the documents in slots, only
those are meant that come before one that did not fit. -/
def AnnouncedDoc (packed : Bool) (slots sizes : List ℕ) (p : ℕ) : Prop :=
  ∃ i size, sizes[i]? = some size ∧ size ≤ lastValidSize ∧
    (packed = false → sizeTooSmall ∉ sizes.take i) ∧
    itemStart packed slots sizes i ≤ p ∧ p < itemStart packed slots sizes i + size

theorem AnnouncedDoc.announced {packed : Bool} {slots sizes : List ℕ} {p : ℕ}
    (h : AnnouncedDoc packed slots sizes p) : Announced packed slots sizes p := by
  obtain ⟨i, size, hsize, hle, -, hp⟩ := h
  exact ⟨i, size, hsize, hle, hp⟩

theorem SameFill.mono {announced announced' : List ℕ → ℕ → Prop} {n count : ℕ}
    {a b : ColumnOutput} (h : SameFill announced n count a b)
    (himp : ∀ sizes p, announced' sizes p → announced sizes p) :
    SameFill announced' n count a b where
  length_left := h.length_left
  length_right := h.length_right
  size_eq := h.size_eq
  sizes_eq := h.sizes_eq
  length_sizes := h.length_sizes
  sizes_lt := h.sizes_lt
  agree p hp := h.agree p (himp _ p hp)

section Snoc

variable {packed : Bool} {slots sizes : List ℕ} {size : ℕ}

/-- The items before a new one stay where they are. -/
theorem itemStart_snoc {i : ℕ} (h : i ≤ sizes.length) :
    itemStart packed slots (sizes ++ [size]) i = itemStart packed slots sizes i := by
  cases packed with
  | true =>
    simp only [itemStart, strides, if_true]
    rw [List.map_append, List.take_append_of_le_length (by simpa using h)]
  | false => rfl

/-- The next item starts behind the new one. -/
theorem itemStart_snoc_succ {slot : ℕ} (hslot : slots[sizes.length]? = some slot) :
    itemStart packed slots (sizes ++ [size]) (sizes.length + 1) =
      itemStart packed slots sizes sizes.length +
        if packed then (if size ≤ lastValidSize then size else 0) else slot := by
  cases packed with
  | true =>
    simp only [itemStart, strides, if_true]
    rw [List.take_of_length_le (by simp), List.take_of_length_le (by simp), List.map_append,
      List.sum_append, List.map_singleton, List.sum_singleton]
  | false =>
    simp only [itemStart, strides, Bool.false_eq_true, if_false]
    rw [List.take_add_one, hslot, List.sum_append, Option.toList_some, List.sum_singleton]

theorem AnnouncedDoc.of_snoc {p : ℕ} (h : AnnouncedDoc packed slots (sizes ++ [size]) p) :
    AnnouncedDoc packed slots sizes p ∨
      size ≤ lastValidSize ∧ (packed = false → sizeTooSmall ∉ sizes) ∧
        itemStart packed slots sizes sizes.length ≤ p ∧
        p < itemStart packed slots sizes sizes.length + size := by
  obtain ⟨i, size', hsize, hle, hfits, hp⟩ := h
  rcases Nat.lt_or_ge i sizes.length with hi | hi
  · rw [List.getElem?_append_left hi] at hsize
    rw [List.take_append_of_le_length (by omega)] at hfits
    rw [itemStart_snoc (by omega)] at hp
    exact Or.inl ⟨i, size', hsize, hle, hfits, hp⟩
  · obtain rfl : i = sizes.length := by
      have hlt := (List.getElem?_eq_some_iff.1 hsize).1
      rw [List.length_append, List.length_singleton] at hlt
      omega
    rw [List.getElem?_append_right le_rfl, Nat.sub_self] at hsize
    obtain rfl : size = size' := by simpa using hsize
    rw [List.take_left] at hfits
    rw [itemStart_snoc le_rfl] at hp
    exact Or.inr ⟨hle, hfits, hp⟩

end Snoc

/-! ### Two buffers in a loop -/

/-- Two buffers after some documents: `sizes` is what has been reported of them, and the next one
goes to `offset`. -/
structure DocsAlike (packed : Bool) (n : ℕ) (slots sizes : List ℕ) (offset : ℕ) (a b : Bytes) :
    Prop where
  length_left : a.length = n
  length_right : b.length = n
  length_sizes : sizes.length ≤ slots.length
  sizes_lt : ∀ size ∈ sizes, size < 2 ^ 64
  offset_in : packed = true → offset ≤ n
  offset_le : offset ≤ itemStart packed slots sizes sizes.length
  offset_eq : (packed = false → sizeTooSmall ∉ sizes) →
    offset = itemStart packed slots sizes sizes.length
  agree : ∀ p, AnnouncedDoc packed slots sizes p → SameAt a b p

namespace DocsAlike

variable {packed : Bool} {n offset slot size : ℕ} {slots sizes : List ℕ} {a b : Bytes}

theorem start {packed : Bool} {n : ℕ} {slots : List ℕ} {a b : Bytes} (ha : a.length = n)
    (hb : b.length = n) : DocsAlike packed n slots [] 0 a b where
  length_left := ha
  length_right := hb
  length_sizes := Nat.zero_le _
  sizes_lt := nofun
  offset_in _ := Nat.zero_le _
  offset_le := Nat.zero_le _
  offset_eq _ := by simp [itemStart]
  agree p h := by
    obtain ⟨i, size, hsize, -⟩ := h
    cases hsize

/-- One more document. Its size may announce bytes that both buffers have got. -/
theorem snoc {a' b' : Bytes} {offset' : ℕ} (h : DocsAlike packed n slots sizes offset a b)
    (hslot : slots[sizes.length]? = some slot) (hsize : size < 2 ^ 64) (ha : a'.length = n)
    (hb : b'.length = n) (hkeep : ∀ p : ℕ, SameAt a b p → SameAt a' b' p)
    (hnew : size ≤ lastValidSize → ∀ p, offset ≤ p → p < offset + size → SameAt a' b' p)
    (hin : packed = true → offset' ≤ n)
    (hle : offset' ≤ offset + if packed then (if size ≤ lastValidSize then size else 0) else slot)
    (heq : (packed = false → size ≠ sizeTooSmall) →
      offset' = offset + if packed then (if size ≤ lastValidSize then size else 0) else slot) :
    DocsAlike packed n slots (sizes ++ [size]) offset' a' b' := by
  have hlt := (List.getElem?_eq_some_iff.1 hslot).1
  have hnext := @itemStart_snoc_succ packed slots sizes size slot hslot
  have hlen : (sizes ++ [size]).length = sizes.length + 1 := by simp
  constructor
  · exact ha
  · exact hb
  · rw [hlen]
    exact hlt
  · intro k hk
    rcases List.mem_append.1 hk with hk | hk
    · exact h.sizes_lt k hk
    · rwa [List.mem_singleton.1 hk]
  · exact hin
  · rw [hlen, hnext]
    exact hle.trans (Nat.add_le_add_right h.offset_le _)
  · intro hfits
    rw [hlen, hnext, heq fun hp hsmall => hfits hp (by simp [hsmall]),
      h.offset_eq fun hp hmem => hfits hp (by simp [hmem])]
  · intro p hp
    rcases hp.of_snoc with hp | ⟨hproper, hfits, hstart, hend⟩
    · exact hkeep p (h.agree p hp)
    · rw [← h.offset_eq hfits] at hstart hend
      exact hnew hproper p hstart hend

/-- A size that is a mark. -/
theorem mark (h : DocsAlike packed n slots sizes offset a b)
    (hslot : slots[sizes.length]? = some slot) (hsize : size < 2 ^ 64)
    (hmark : lastValidSize < size) :
    DocsAlike packed n slots (sizes ++ [size]) (offset + if packed then 0 else slot) a b := by
  have hnot : ¬ size ≤ lastValidSize := by omega
  refine h.snoc hslot hsize h.length_left h.length_right (fun p hp => hp) (fun hle => absurd hle hnot)
    (fun hp => ?_) ?_ fun _ => ?_
  · rw [hp]
    exact h.offset_in hp
  · rw [if_neg hnot]
  · rw [if_neg hnot]

/-- A document that did not fit, and that did not use up its slot. -/
theorem tooSmall (h : DocsAlike packed n slots sizes offset a b)
    (hslot : slots[sizes.length]? = some slot) :
    DocsAlike packed n slots (sizes ++ [sizeTooSmall]) offset a b := by
  have hnot : ¬ sizeTooSmall ≤ lastValidSize := by decide
  refine h.snoc hslot (by decide) h.length_left h.length_right (fun p hp => hp)
    (fun hle => absurd hle hnot) h.offset_in (Nat.le_add_right _ _) fun hne => ?_
  cases packed with
  | true => simp [hnot]
  | false => exact absurd rfl (hne rfl)

/-- Nothing more fits. -/
theorem allTooSmall (h : DocsAlike packed n slots sizes offset a b) (k : ℕ)
    (hk : sizes.length + k = slots.length) :
    DocsAlike packed n slots (sizes ++ List.replicate k sizeTooSmall) offset a b := by
  induction k generalizing sizes with
  | zero => simpa using h
  | succ k ih =>
    have hslot : slots[sizes.length]? = some slots[sizes.length] :=
      List.getElem?_eq_getElem (by omega)
    have hrest := ih (h.tooSmall hslot) (by rw [List.length_append, List.length_singleton]; omega)
    rwa [List.append_assoc, List.singleton_append, ← List.replicate_succ] at hrest

/-- The sizes left over are marks. -/
theorem marks (h : DocsAlike packed n slots sizes offset a b) (hsize : size < 2 ^ 64)
    (hmark : lastValidSize < size) (k : ℕ) (hk : sizes.length + k = slots.length) :
    ∃ offset', DocsAlike packed n slots (sizes ++ List.replicate k size) offset' a b := by
  induction k generalizing sizes offset with
  | zero => exact ⟨offset, by simpa using h⟩
  | succ k ih =>
    have hslot : slots[sizes.length]? = some slots[sizes.length] :=
      List.getElem?_eq_getElem (by omega)
    obtain ⟨offset', hrest⟩ := ih (h.mark hslot hsize hmark)
      (by rw [List.length_append, List.length_singleton]; omega)
    rw [List.append_assoc, List.singleton_append, ← List.replicate_succ] at hrest
    exact ⟨offset', hrest⟩

/-- The same document is written to both buffers. -/
theorem write (h : DocsAlike packed n slots sizes offset a b)
    (hslot : slots[sizes.length]? = some slot) (hn : n ≤ lastValidSize) (doc : Bytes)
    (hroom : offset + doc.length ≤ n) :
    DocsAlike packed n slots (sizes ++ [doc.length]) (offset + if packed then doc.length else slot)
      (blit a offset doc) (blit b offset doc) := by
  have ha : offset + doc.length ≤ a.length := by rwa [h.length_left]
  have hb : offset + doc.length ≤ b.length := by rwa [h.length_right]
  have hproper : doc.length ≤ lastValidSize := by omega
  have hlast : lastValidSize < 2 ^ 64 := by decide
  refine h.snoc hslot (by omega) ((length_blit ha).trans h.length_left)
    ((length_blit hb).trans h.length_right) (fun p hp => ?_) (fun _ p hstart hend => ?_)
    (fun hp => ?_) ?_ fun _ => ?_
  · unfold SameAt
    rw [getElem?_blit ha, getElem?_blit hb]
    split_ifs with hin
    · exact ⟨_, List.getElem?_eq_getElem (by omega), List.getElem?_eq_getElem (by omega)⟩
    · exact hp
  · unfold SameAt
    rw [getElem?_blit ha, getElem?_blit hb, if_pos ⟨hstart, hend⟩, if_pos ⟨hstart, hend⟩]
    exact ⟨_, List.getElem?_eq_getElem (by omega), List.getElem?_eq_getElem (by omega)⟩
  · rwa [hp]
  · rw [if_pos hproper]
  · rw [if_pos hproper]

/-- The slot of the next document lies in the buffers. -/
theorem offset_add_slot_le (h : DocsAlike false n slots sizes offset a b)
    (hslot : slots[sizes.length]? = some slot) (hsum : slots.sum ≤ n) : offset + slot ≤ n := by
  obtain ⟨hlt, hget⟩ := List.getElem?_eq_some_iff.1 hslot
  have hoff : offset ≤ (slots.take sizes.length).sum := h.offset_le
  rw [← List.sum_take_add_sum_drop slots sizes.length, List.drop_eq_getElem_cons hlt,
    List.sum_cons, hget] at hsum
  omega

/-- After the last document, the buffers are filled alike. -/
theorem sameFill (h : DocsAlike packed n slots sizes offset a b)
    (hlen : sizes.length = slots.length) (size : ℕ) :
    SameFill (AnnouncedDoc packed slots) n slots.length ⟨a, size, sizes⟩ ⟨b, size, sizes⟩ :=
  ⟨h.length_left, h.length_right, rfl, rfl, hlen, h.sizes_lt, h.agree⟩

end DocsAlike

/-! ### The loops of the `array` backend -/

/-- The filter copies bytes that depend on the collection and the document alone. -/
def DocFilter.Copies (filter : DocFilter) : Prop :=
  ∃ docBytes : CString → Bytes → Bytes, ∀ name dst off room doc,
    filter.docCopy name dst off room doc = copyOut dst off room (docBytes name doc)

theorem copies_makeDocFilter : makeDocFilter.Copies := ⟨fun _ => id, fun _ _ _ _ _ => rfl⟩

theorem length_resize {n : ℕ} {v v' : Bytes} (h : resize n v = some v') :
    v'.length = n ∧ n ≤ vectorMaxSize 1 := by
  unfold resize at h
  split_ifs at h with hmax
  obtain rfl := Option.some.inj h
  rw [List.length_append, List.length_take, List.length_replicate]
  omega

theorem length_copyOut {dst src : Bytes} {room : ℕ} (h : dst.length = room) :
    (copyOut dst 0 room src).2.length = room := by
  unfold copyOut
  split_ifs with hroom
  · exact h
  · rw [length_blit (by omega), h]

namespace ArrayCollection

variable {n : ℕ} {slots sizes : List ℕ} {documents documents' : Bytes}

/-- The records of a collection lie in its data. -/
def InData (coll : ArrayCollection) : Prop :=
  ∀ id offset size, coll.record id = some (offset, size) → offset + size ≤ coll.data.length

theorem loadPackedLoop_alike {coll : ArrayCollection} (hdata : coll.InData) (hn : n ≤ lastValidSize)
    (ids : List UInt64) {docPtr remaining : ℕ}
    (h : DocsAlike true n slots sizes docPtr documents documents') (hrem : docPtr + remaining = n)
    (hlen : sizes.length + ids.length = slots.length) :
    ∃ offset loaded a b, loaded.length = slots.length ∧ DocsAlike true n slots loaded offset a b ∧
      coll.loadPackedLoop ids docPtr remaining documents sizes = (a, loaded) ∧
      coll.loadPackedLoop ids docPtr remaining documents' sizes = (b, loaded) := by
  induction ids generalizing docPtr remaining documents documents' sizes with
  | nil => exact ⟨docPtr, sizes, documents, documents', hlen, h, rfl, rfl⟩
  | cons id ids ih =>
    rw [List.length_cons] at hlen
    have hslot : slots[sizes.length]? = some slots[sizes.length] :=
      List.getElem?_eq_getElem (by omega)
    have hnext : ∀ size : ℕ, (sizes ++ [size]).length + ids.length = slots.length := by
      intro size
      rw [List.length_append, List.length_singleton]
      omega
    unfold loadPackedLoop
    rcases hrecord : coll.record id with _ | ⟨offset, size⟩
    · exact ih (h.mark hslot (by decide) (by decide)) hrem (hnext _)
    · dsimp only
      split_ifs with hroom
      · exact ⟨docPtr, _, _, _, by rw [List.length_append, List.length_replicate]; omega,
          h.allTooSmall _ hlen, rfl, rfl⟩
      · have hsize : (slice coll.data offset size).length = size :=
          length_slice_of_le (hdata id offset size hrecord)
        have hwrite := h.write hslot hn (slice coll.data offset size) (by rw [hsize]; omega)
        rw [hsize] at hwrite
        exact ih hwrite (by omega) (hnext _)

theorem loadSlotsLoop_alike {coll : ArrayCollection} (hdata : coll.InData) (hn : n ≤ lastValidSize)
    (hsum : slots.sum ≤ n) (ids : List UInt64) {docPtr : ℕ}
    (h : DocsAlike false n slots sizes docPtr documents documents')
    (hlen : sizes.length + ids.length = slots.length) :
    ∃ offset loaded a b, loaded.length = slots.length ∧ DocsAlike false n slots loaded offset a b ∧
      coll.loadSlotsLoop (ids.zip (slots.drop sizes.length)) docPtr documents sizes = (a, loaded) ∧
      coll.loadSlotsLoop (ids.zip (slots.drop sizes.length)) docPtr documents' sizes =
        (b, loaded) := by
  induction ids generalizing docPtr documents documents' sizes with
  | nil => exact ⟨docPtr, sizes, documents, documents', hlen, h, rfl, rfl⟩
  | cons id ids ih =>
    rw [List.length_cons] at hlen
    have hlt : sizes.length < slots.length := by omega
    have hslot : slots[sizes.length]? = some slots[sizes.length] := List.getElem?_eq_getElem hlt
    have hin := h.offset_add_slot_le hslot hsum
    have hnext : ∀ size : ℕ, (sizes ++ [size]).length + ids.length = slots.length := by
      intro size
      rw [List.length_append, List.length_singleton]
      omega
    have hrest : ∀ size : ℕ, slots.drop (sizes.length + 1) = slots.drop (sizes ++ [size]).length := by
      intro size
      rw [List.length_append, List.length_singleton]
    rw [List.drop_eq_getElem_cons hlt, List.zip_cons_cons]
    unfold loadSlotsLoop
    rcases hrecord : coll.record id with _ | ⟨offset, size⟩
    · rw [hrest keyNotFound]
      exact ih (h.mark hslot (by decide) (by decide)) (hnext _)
    · dsimp only
      split_ifs with hroom
      · rw [hrest sizeTooSmall]
        exact ih (h.tooSmall hslot) (hnext _)
      · have hsize : (slice coll.data offset size).length = size :=
          length_slice_of_le (hdata id offset size hrecord)
        have hwrite := h.write hslot hn (slice coll.data offset size) (by rw [hsize]; omega)
        rw [hsize] at hwrite
        rw [hrest size]
        exact ih hwrite (hnext _)

/-- Two runs of `docIter` whose callbacks answer the same, as long as the relation `R` holds between
what they have captured. -/
theorem iterLoop_rel {υ : Type} {R : ℕ → υ → υ → Prop} {max : ℕ}
    {func : υ → UInt64 → Bytes → Status × υ}
    (hfunc : ∀ i u u' id doc, doc.length ≤ vectorMaxSize 1 → i < max → R i u u' →
      (func u id doc).1 = (func u' id doc).1 ∧
        ((func u id doc).1 = .OK → R (i + 1) (func u id doc).2 (func u' id doc).2))
    {filter : SizedDocFilter} (hfilter : filter.Copies) (coll : ArrayCollection) (name : CString)
    (ids : List UInt64) {i : ℕ} (docBuffer : Bytes) {u u' : υ} (hi : i ≤ max) (h : R i u u') :
    Option.Rel (fun r r' => r.1 = r'.1 ∧ (r.1 = .OK → ∃ j ≤ max, R j r.2 r'.2))
      (coll.iterLoop name max filter func ids i docBuffer u)
      (coll.iterLoop name max filter func ids i docBuffer u') := by
  induction ids generalizing i docBuffer u u' with
  | nil => exact .some ⟨rfl, fun _ => ⟨i, hi, h⟩⟩
  | cons id ids ih =>
    unfold iterLoop
    split_ifs with hlt
    · rcases coll.record id with _ | ⟨offset, size⟩
      · exact ih docBuffer hi h
      · dsimp only
        split_ifs with hcheck hstop
        · exact .some ⟨rfl, fun _ => ⟨i, hi, h⟩⟩
        · exact ih docBuffer hi h
        · rcases hresize : resize (filter.docSizeFrom name (slice coll.data offset size)) docBuffer
            with _ | docBuffer
          · exact .none
          · dsimp only
            generalize filter.docSizeFrom name (slice coll.data offset size) = room at hresize
            obtain ⟨hbuffer, hmax⟩ := length_resize hresize
            have hlen : (filter.docCopy name docBuffer 0 room (slice coll.data offset size)).2.length =
                room := by
              obtain ⟨docBytes, hcopy⟩ := hfilter
              rw [hcopy, length_copyOut hbuffer]
            obtain ⟨hstatus, hnext⟩ := hfunc i u u' id
              (slice (filter.docCopy name docBuffer 0 room (slice coll.data offset size)).2 0
                (filter.docCopy name docBuffer 0 room (slice coll.data offset size)).1)
              (by rw [length_slice, hlen]; omega) hlt h
            rw [← hstatus]
            split_ifs with hOK
            · exact .some ⟨rfl, fun h => absurd h hOK⟩
            · exact ih _ hlt (hnext (not_not.1 hOK))
    · exact .some ⟨rfl, fun _ => ⟨i, hi, h⟩⟩

end ArrayCollection

theorem ArrayListing.callback_packed (st : ArrayListing) (id : UInt64) (doc : Bytes) :
    callback true st id doc =
      if st.documents.length < addSize st.offset doc.length then (.StopIteration, st)
      else (.OK, ⟨addSize st.offset doc.length, st.i + 1, st.ids.set st.i id,
        blit st.documents st.offset doc, st.docSizes.set st.i doc.length⟩) := by
  simp [callback]

theorem ArrayListing.callback_slots (st : ArrayListing) (id : UInt64) (doc : Bytes) :
    callback false st id doc =
      if st.docSizes.getD st.i 0 < doc.length then
        (.OK, ⟨st.offset, st.i + 1, st.ids, st.documents, st.docSizes.set st.i sizeTooSmall⟩)
      else (.OK, ⟨addSize st.offset (st.docSizes.getD st.i 0), st.i + 1, st.ids.set st.i id,
        blit st.documents st.offset doc, st.docSizes.set st.i doc.length⟩) := by
  simp [callback]

/-- What two listings have captured after `i` documents. -/
structure ArrayListing.Alike (packed : Bool) (n : ℕ) (slots : List ℕ) (i : ℕ)
    (st st' : ArrayListing) : Prop where
  i_eq : st.i = i ∧ st'.i = i
  offset_eq : st.offset = st'.offset
  length_ids : st.ids.length = slots.length ∧ st'.ids.length = slots.length
  length_docSizes : st.docSizes.length = slots.length ∧ st'.docSizes.length = slots.length
  sizes_eq : st.docSizes.take i = st'.docSizes.take i
  slots_eq : packed = false → ∀ j, i ≤ j → st.docSizes[j]? = slots[j]? ∧ st'.docSizes[j]? = slots[j]?
  docs : DocsAlike packed n slots (st.docSizes.take i) st.offset st.documents st'.documents
  ids_eq : ∀ j < i, st.docSizes[j]? ≠ some sizeTooSmall → st.ids[j]? = st'.ids[j]?

theorem ArrayListing.Alike.start {packed : Bool} {n : ℕ} {slots : List ℕ} {ids ids' : List UInt64}
    {documents documents' : Bytes} {docSizes docSizes' : List ℕ}
    (h : SameRequest packed n slots documents documents' docSizes docSizes')
    (hids : ids.length = slots.length) (hids' : ids'.length = slots.length) :
    Alike packed n slots 0 ⟨0, 0, ids, documents, docSizes⟩ ⟨0, 0, ids', documents', docSizes'⟩ := by
  refine ⟨⟨rfl, rfl⟩, rfl, ⟨hids, hids'⟩, ⟨h.length_sizes, h.length_sizes'⟩, rfl, ?_,
    DocsAlike.start h.length_left h.length_right, nofun⟩
  intro hp j _
  obtain ⟨rfl, hsizes⟩ := h.slots_eq hp
  exact ⟨rfl, by rw [hsizes]⟩

/-- The callback of `docList` goes on alike. -/
theorem ArrayListing.callback_alike {packed : Bool} {n : ℕ} {slots : List ℕ} {i : ℕ}
    {st st' : ArrayListing} (hmax : n < 2 ^ 63) (hsum : packed = false → slots.sum ≤ n)
    (hi : i < slots.length) (h : Alike packed n slots i st st') (id : UInt64) {doc : Bytes}
    (hdoc : doc.length ≤ vectorMaxSize 1) :
    (callback packed st id doc).1 = (callback packed st' id doc).1 ∧
      ((callback packed st id doc).1 = .OK →
        Alike packed n slots (i + 1) (callback packed st id doc).2
          (callback packed st' id doc).2) := by
  have hn : n ≤ lastValidSize := hmax.le.trans (by decide)
  obtain ⟨⟨hi₁, hi₂⟩, hoffset, ⟨hids, hids'⟩, ⟨hsizes, hsizes'⟩, htake, hslots, hdocs, heq⟩ := h
  subst hi₁
  have hslot : slots[st.i]? = some slots[st.i] := List.getElem?_eq_getElem hi
  have hlen : (st.docSizes.take st.i).length = st.i := List.length_take_of_le (by omega)
  have hslot' : slots[(st.docSizes.take st.i).length]? = some slots[st.i] := by rw [hlen]; exact hslot
  have htake' : ∀ (l : List ℕ) (size : ℕ), l.length = slots.length →
      (l.set st.i size).take (st.i + 1) = l.take st.i ++ [size] := by
    intro l size hl
    rw [List.take_add_one, List.take_set_of_le le_rfl, List.getElem?_set_self (by omega)]
    rfl
  have hset : ∀ (size : ℕ) (j : ℕ), packed = false → st.i + 1 ≤ j →
      (st.docSizes.set st.i size)[j]? = slots[j]? ∧ (st'.docSizes.set st.i size)[j]? = slots[j]? := by
    intro size j hp hj
    rw [List.getElem?_set_ne (by omega), List.getElem?_set_ne (by omega)]
    exact hslots hp j (by omega)
  have hwords : ∀ j < st.i + 1, j ≠ st.i → j < st.i := by omega
  -- the document is copied to both buffers
  have hwrite : st.offset + doc.length ≤ n → addSize st.offset (if packed then doc.length
        else slots[st.i]) = st.offset + (if packed then doc.length else slots[st.i]) →
      Alike packed n slots (st.i + 1)
        ⟨addSize st.offset (if packed then doc.length else slots[st.i]), st.i + 1,
          st.ids.set st.i id, blit st.documents st.offset doc, st.docSizes.set st.i doc.length⟩
        ⟨addSize st.offset (if packed then doc.length else slots[st.i]), st.i + 1,
          st'.ids.set st.i id, blit st'.documents st.offset doc,
          st'.docSizes.set st.i doc.length⟩ := by
    intro hroom hadd
    constructor
    · exact ⟨rfl, rfl⟩
    · rfl
    · exact ⟨by rw [List.length_set, hids], by rw [List.length_set, hids']⟩
    · exact ⟨by rw [List.length_set, hsizes], by rw [List.length_set, hsizes']⟩
    · rw [htake' _ _ hsizes, htake' _ _ hsizes', htake]
    · exact fun hp j hj => hset _ j hp hj
    · rw [htake' _ _ hsizes, hadd]
      exact hdocs.write hslot' hn doc hroom
    · intro j hj hfit
      by_cases hjeq : j = st.i
      · rw [hjeq, List.getElem?_set_self (by omega), List.getElem?_set_self (by omega)]
      · rw [List.getElem?_set_ne (Ne.symm hjeq)] at hfit ⊢
        rw [List.getElem?_set_ne (Ne.symm hjeq)]
        exact heq j (hwords j hj hjeq) hfit
  have hvector : vectorMaxSize 1 < 2 ^ 63 := by decide
  have hdlen := hdocs.length_left
  have hdlen' := hdocs.length_right
  cases packed with
  | true =>
    have hoff := hdocs.offset_in rfl
    have hadd : addSize st.offset doc.length = st.offset + doc.length := addSize_eq (by omega)
    rw [callback_packed, callback_packed, hdlen, hdlen', ← hoffset, hi₂]
    by_cases hroom : n < addSize st.offset doc.length
    · rw [if_pos hroom, if_pos hroom]
      exact ⟨rfl, nofun⟩
    · rw [if_neg hroom, if_neg hroom]
      exact ⟨rfl, fun _ => hwrite (by omega) hadd⟩
  | false =>
    have hin := hdocs.offset_add_slot_le hslot' (hsum rfl)
    have hadd : addSize st.offset slots[st.i] = st.offset + slots[st.i] := addSize_eq (by omega)
    have hgiven : st.docSizes.getD st.i 0 = slots[st.i] := by
      rw [List.getD_eq_getElem?_getD, (hslots rfl st.i le_rfl).1, hslot]
      rfl
    have hgiven' : st'.docSizes.getD st'.i 0 = slots[st.i] := by
      rw [hi₂, List.getD_eq_getElem?_getD, (hslots rfl st.i le_rfl).2, hslot]
      rfl
    rw [callback_slots, callback_slots, hgiven, hgiven', ← hoffset, hi₂]
    by_cases hroom : slots[st.i] < doc.length
    · rw [if_pos hroom, if_pos hroom]
      refine ⟨rfl, fun _ => ?_⟩
      -- the document does not fit, and its id is not written
      constructor
      · exact ⟨rfl, rfl⟩
      · rfl
      · exact ⟨hids, hids'⟩
      · exact ⟨by rw [List.length_set, hsizes], by rw [List.length_set, hsizes']⟩
      · rw [htake' _ _ hsizes, htake' _ _ hsizes', htake]
      · exact fun hp j hj => hset _ j hp hj
      · rw [htake' _ _ hsizes]
        exact hdocs.tooSmall hslot'
      · intro j hj hfit
        by_cases hjeq : j = st.i
        · rw [hjeq, List.getElem?_set_self (by omega)] at hfit
          exact absurd rfl hfit
        · rw [List.getElem?_set_ne (Ne.symm hjeq)] at hfit
          exact heq j (hwords j hj hjeq) hfit
    · rw [if_neg hroom, if_neg hroom]
      exact ⟨rfl, fun _ => hwrite (by omega) hadd⟩

/-! ### Databases with documents -/

/-- Two listings of documents. The id of a document that did not fit is not written. -/
structure SameListing (packed : Bool) (n : ℕ) (slots : List ℕ) (out out' : DocListOutput) : Prop where
  docs : SameFill (AnnouncedDoc packed slots) n slots.length
    ⟨out.documents, out.documentsSize, out.docSizes⟩
    ⟨out'.documents, out'.documentsSize, out'.docSizes⟩
  length_ids : out.ids.length = slots.length ∧ out'.ids.length = slots.length
  ids_eq : ∀ i : ℕ, out.docSizes[i]? ≠ some sizeTooSmall → out.ids[i]? = out'.ids[i]?

/-- Two callers of `docList` find the same listing. -/
theorem ArrayListing.Alike.sameListing {packed : Bool} {n : ℕ} {slots : List ℕ} {j : ℕ}
    {st st' : ArrayListing} (h : Alike packed n slots j st st') (hj : j ≤ slots.length) :
    SameListing packed n slots
      ⟨st.ids.take st.i ++ List.replicate (slots.length - st.i) noMoreDocs, st.documents, n,
        st.docSizes.take st.i ++ List.replicate (slots.length - st.i) noMoreKeys⟩
      ⟨st'.ids.take st'.i ++ List.replicate (slots.length - st'.i) noMoreDocs, st'.documents, n,
        st'.docSizes.take st'.i ++ List.replicate (slots.length - st'.i) noMoreKeys⟩ := by
  obtain ⟨⟨hi₁, hi₂⟩, hoffset, hids, ⟨hsizes, hsizes'⟩, htake, hslots, hdocs, heq⟩ := h
  have hj₁ : (st.docSizes.take j).length = j := List.length_take_of_le (by omega)
  obtain ⟨offset, hfinal⟩ := hdocs.marks (show noMoreKeys < 2 ^ 64 by decide) (by decide)
    (slots.length - j) (by rw [hj₁]; omega)
  have hfill := hfinal.sameFill (by rw [List.length_append, hj₁, List.length_replicate]; omega) n
  have hlen : ∀ l : List UInt64, l.length = slots.length →
      (l.take j ++ List.replicate (slots.length - j) noMoreDocs).length = slots.length := by
    intro l hl
    rw [List.length_append, List.length_take_of_le (by omega), List.length_replicate]
    omega
  simp only [hi₁, hi₂]
  refine ⟨?_, ⟨hlen _ hids.1, hlen _ hids.2⟩, fun k hk => ?_⟩
  · rw [htake] at hfill ⊢
    exact hfill
  · rcases Nat.lt_or_ge k j with hkj | hkj
    · rw [List.getElem?_append_left (by omega), List.getElem?_take_of_lt hkj] at hk
      rw [List.getElem?_append_left (by rw [List.length_take_of_le (by omega)]; exact hkj),
        List.getElem?_append_left (by rw [List.length_take_of_le (by omega)]; exact hkj),
        List.getElem?_take_of_lt hkj, List.getElem?_take_of_lt hkj]
      exact heq k hkj hk
    · rw [List.getElem?_append_right (by rw [List.length_take_of_le (by omega)]; exact hkj),
        List.getElem?_append_right (by rw [List.length_take_of_le (by omega)]; exact hkj),
        List.length_take_of_le (by omega), List.length_take_of_le (by omega)]

/-- What `doc_load` and `doc_list` use of a database and of `FilterFactory`. Two calls that differ in
what their buffers hold answer alike. -/
structure DocBackend (σ : Type) where
  Valid : σ → Prop
  supportsMode : Mode → Bool
  makeDocFilter : Mode → Bytes → Option SizedDocFilter
  docLoad : σ → CString → Mode → Bool → List UInt64 → Bytes → List ℕ → Option (GetResult σ)
  docList : σ → CString → Mode → Bool → UInt64 → SizedDocFilter → List UInt64 → Bytes → List ℕ →
    Option (Status × DocListOutput × σ)
  docLoad_alike : ∀ {s : σ} {packed : Bool} {ids : List UInt64} {n : ℕ} {slots : List ℕ}
    {documents documents' : Bytes} {sizes sizes' : List ℕ}, Valid s → ids.length = slots.length →
    SameRequest packed n slots documents documents' sizes sizes' → ∀ (name : CString) (mode : Mode),
    Option.Rel (SameGet (AnnouncedDoc packed slots) n slots.length)
      (docLoad s name mode packed ids documents sizes)
      (docLoad s name mode packed ids documents' sizes')
  docList_alike : ∀ {s : σ} {packed : Bool} {ids ids' : List UInt64} {n : ℕ} {slots : List ℕ}
    {documents documents' : Bytes} {docSizes docSizes' : List ℕ} {mode : Mode} {filterData : Bytes}
    {filter : SizedDocFilter}, Valid s → makeDocFilter mode filterData = some filter →
    8 * slots.length < 2 ^ 63 → ids.length = slots.length → ids'.length = slots.length →
    SameRequest packed n slots documents documents' docSizes docSizes' →
    ∀ (name : CString) (fromId : UInt64),
    Option.Rel (fun r r' => r.1 = r'.1 ∧ r.2.2 = r'.2.2 ∧
        (r.1 = .OK → SameListing packed n slots r.2.1 r'.2.1))
      (docList s name mode packed fromId filter ids documents docSizes)
      (docList s name mode packed fromId filter ids' documents' docSizes')

/-- `doc_load` and `doc_list` over the `array` backend. -/
def ArrayDatabase.documents (makeDocFilter : Mode → Bytes → Option SizedDocFilter)
    (hfilter : ∀ mode filterData filter, makeDocFilter mode filterData = some filter →
      filter.Copies) : DocBackend ArrayDatabase where
  Valid s := ∀ name coll, s.collections name = some coll → coll.InData
  supportsMode := ArrayDatabase.supportsMode
  makeDocFilter := makeDocFilter
  docLoad s name _ packed ids documents sizes :=
    let r := s.docLoad name packed ids documents sizes
    some ⟨r.1, s, ⟨r.2.1, documents.length, r.2.2⟩⟩
  docList s name _ packed fromId filter ids documents docSizes :=
    (s.docList name packed fromId filter ids documents docSizes).map fun r =>
      (r.1, ⟨r.2.1, r.2.2.1, documents.length, r.2.2.2⟩, s)
  docLoad_alike := by
    intro s packed ids n slots documents documents' sizes sizes' hvalid hids h name mode
    refine .some ⟨?_, rfl, ?_⟩
    · unfold ArrayDatabase.docLoad
      rcases s.collections name with _ | coll <;> rfl
    · unfold ArrayDatabase.docLoad
      rcases hcoll : s.collections name with _ | coll
      · exact nofun
      intro _
      have hlen := h.length_sizes
      have hlen' := h.length_sizes'
      cases packed with
      | true =>
        obtain ⟨offset, loaded, a, b, hloaded, halike, hleft, hright⟩ :=
          ArrayCollection.loadPackedLoop_alike (hvalid name coll hcoll) h.le_lastValidSize ids
            (DocsAlike.start h.length_left h.length_right) (Nat.zero_add n) (by simpa using hids)
        simp only [GetOutput.column, if_true, h.length_left, h.length_right, hleft, hright]
        rw [List.drop_of_length_le (by omega), List.drop_of_length_le (by omega), List.append_nil]
        exact halike.sameFill hloaded n
      | false =>
        obtain ⟨rfl, rfl⟩ := h.slots_eq rfl
        obtain ⟨offset, loaded, a, b, hloaded, halike, hleft, hright⟩ :=
          ArrayCollection.loadSlotsLoop_alike (hvalid name coll hcoll) h.le_lastValidSize
            (h.sum_le rfl) ids (DocsAlike.start h.length_left h.length_right) (by simpa using hids)
        simp only [List.length_nil, List.drop_zero] at hleft hright
        simp only [GetOutput.column, Bool.false_eq_true, if_false, h.length_left, h.length_right,
          hleft, hright]
        rw [List.drop_of_length_le (by omega), List.append_nil]
        exact halike.sameFill hloaded n
  docList_alike := by
    intro s packed ids ids' n slots documents documents' docSizes docSizes' mode filterData filter
      hvalid hmake hcount hids hids' h name fromId
    unfold ArrayDatabase.docList ArrayDatabase.docIter
    rcases s.collections name with _ | coll
    · exact .some ⟨rfl, rfl, nofun⟩
    have hstart := ArrayListing.Alike.start h hids hids'
    have hcallback : ∀ (i : ℕ) (u u' : ArrayListing) (id : UInt64) (doc : Bytes),
        doc.length ≤ vectorMaxSize 1 → i < slots.length → ArrayListing.Alike packed n slots i u u' →
        _ ∧ _ := fun i u u' id doc hdoc hi halike =>
      ArrayListing.callback_alike h.lt_max h.sum_le hi halike id hdoc
    have hrun := ArrayCollection.iterLoop_rel hcallback (hfilter mode filterData filter hmake) coll
      name (DocumentStoreMixin.idsFrom fromId (UInt64.ofNat coll.sizes.length)) [] (Nat.zero_le _)
      hstart
    rw [hids, hids']
    dsimp only
    revert hrun
    generalize coll.iterLoop name slots.length filter (ArrayListing.callback packed)
      (DocumentStoreMixin.idsFrom fromId (UInt64.ofNat coll.sizes.length)) 0 []
      ⟨0, 0, ids, documents, docSizes⟩ = run
    generalize coll.iterLoop name slots.length filter (ArrayListing.callback packed)
      (DocumentStoreMixin.idsFrom fromId (UInt64.ofNat coll.sizes.length)) 0 []
      ⟨0, 0, ids', documents', docSizes'⟩ = run'
    rintro (@⟨⟨status, st⟩, ⟨status', st'⟩, hstatus, halike⟩ | _)
    · obtain rfl : status = status' := hstatus
      refine .some ⟨rfl, rfl, fun hOK => ?_⟩
      obtain ⟨j, hj, hlisting⟩ := halike hOK
      rw [h.length_left, h.length_right]
      exact hlisting.sameListing hj
    · exact .none

/-! ### Documents over a `MapDatabase` -/

/-- A listing with keys of eight bytes each, and room for them, finds only such keys. -/
theorem MapDatabase.listKeyValuesLoop_words {mode : Mode} {filter : KeyValueFilter}
    {keyBytes : Bytes → Bytes} (hmode : mode.has .ignoreKeys = false)
    (hcopy : ∀ dst off room key, filter.keyCopy dst off room key = copyOut dst off room (keyBytes key))
    (hword : ∀ key val, filter.check key val = true → (keyBytes key).length = 8) (packed : Bool)
    (es : List (Bytes × Bytes)) (slots : List (ℕ × ℕ)) (cols : Column × Column)
    (hslots : ∀ p ∈ slots, p.1 = 8) (hsmall : cols.1.tooSmall = false)
    (hroom : packed = true → cols.1.offset + 8 * slots.length ≤ cols.1.buf.length)
    (hsizes : ∀ size ∈ cols.1.sizes, size = 8) :
    ∀ size ∈ (listKeyValuesLoop mode packed filter es slots cols).1.sizes, size = 8 := by
  induction es generalizing slots cols with
  | nil => exact hsizes
  | cons e es ih =>
    obtain ⟨key, val⟩ := e
    obtain ⟨keys, vals⟩ := cols
    rcases slots with _ | ⟨⟨kslot, vslot⟩, slots⟩
    · exact hsizes
    obtain rfl : kslot = 8 := hslots _ List.mem_cons_self
    have hrest : ∀ p ∈ slots, p.1 = 8 := fun p hp => hslots p (List.mem_cons_of_mem _ hp)
    unfold listKeyValuesLoop
    split_ifs with hcheck hstop
    · exact hsizes
    · exact ih _ _ hslots hsmall hroom hsizes
    · have hlen : (keyBytes key).length = 8 := hword key val (by simpa using hcheck)
      have hkey : keyCopy mode (isLast mode (slots.map Prod.fst) es) filter key =
          fun dst off room => copyOut dst off room (keyBytes key) := by
        funext dst off room
        rw [keyCopy, hmode, Bool.false_and, if_neg Bool.false_ne_true, hcopy]
      have hsnoc : ∀ size ∈ keys.sizes ++ [8], size = 8 := by
        intro size hsize
        rcases List.mem_append.1 hsize with h | h
        · exact hsizes size h
        · exact List.mem_singleton.1 h
      rw [hkey]
      dsimp only at hsmall hroom
      -- there is room for all the words, so that none is ever too large
      cases packed with
      | true =>
        have hfit := hroom rfl
        rw [List.length_cons] at hfit
        have hpush : keys.push true 8 (fun dst off room => copyOut dst off room (keyBytes key)) =
            ⟨blit keys.buf keys.offset (keyBytes key), keys.offset + 8, keys.tooSmall,
              keys.sizes ++ [8]⟩ := by
          have hne : (8 : ℕ) ≠ sizeTooSmall := by decide
          simp [Column.push, hsmall, copyOut, hlen, hne,
            show ¬ keys.buf.length - keys.offset < 8 by omega]
        rw [hpush]
        refine ih _ _ hrest hsmall (fun _ => ?_) hsnoc
        dsimp only
        rw [length_blit (by omega)]
        omega
      | false =>
        have hpush : keys.push false 8 (fun dst off room => copyOut dst off room (keyBytes key)) =
            ⟨blit keys.buf keys.offset (keyBytes key), addSize keys.offset 8, keys.tooSmall,
              keys.sizes ++ [8]⟩ := by
          simp [Column.push, copyOut, hlen]
        rw [hpush]
        exact ih _ _ hrest hsmall (fun hfalse => by cases hfalse) hsnoc

namespace DocumentStoreMixin

theorem copies_collectionFilterWrapper (name : CString) {filter : DocFilter}
    (hfilter : filter.Copies) : (collectionFilterWrapper name filter).Copies := by
  obtain ⟨docBytes, hdoc⟩ := hfilter
  refine ⟨fun key => key.drop (name.bytes.length + 1), docBytes name, ?_, hdoc name⟩
  intro dst off room key
  have hmode : Mode.has .noPrefix .noPrefix = true := rfl
  simp [collectionFilterWrapper, keyPrefixFilter, hmode]

/-- The keys that a listing of documents finds: the eight bytes of an id each. -/
theorem listKeyValues_words {s : MapDatabase .default} (hs : s.migrated = false) (name : CString)
    (filter : DocFilter) (packed : Bool) (fromKey keys vals : Bytes) {count : ℕ} {vsizes : List ℕ}
    (hkeys : keys.length = 8 * count) (hlen : vsizes.length = count) :
    ∃ found, (s.listKeyValues (.inclusive ||| .noPrefix) packed fromKey
        (collectionFilterWrapper name filter) keys (List.replicate count 8) vals vsizes).2.1.sizes =
      List.replicate found 8 ++ List.replicate (count - found) noMoreKeys := by
  have hprefix : Mode.has .noPrefix .noPrefix = true := rfl
  have hmode : Mode.has (.inclusive ||| .noPrefix) .ignoreKeys = false := rfl
  have hcopy : ∀ dst off room key, (collectionFilterWrapper name filter).keyCopy dst off room key =
      copyOut dst off room (key.drop (name.bytes.length + 1)) := by
    intro dst off room key
    simp [collectionFilterWrapper, keyPrefixFilter, hprefix]
  have hword : ∀ key val, (collectionFilterWrapper name filter).check key val = true →
      (key.drop (name.bytes.length + 1)).length = 8 := by
    intro key val hcheck
    obtain ⟨id, rfl, -⟩ := (check_collectionFilterWrapper key val).1 hcheck
    rw [List.length_drop, length_keyFromId]
    omega
  have hslots : ∀ p ∈ (List.replicate count 8).zip vsizes, p.1 = 8 := by
    rintro ⟨kslot, vslot⟩ hp
    exact List.eq_of_mem_replicate (List.of_mem_zip hp).1
  have hroom : packed = true → (Column.start keys).offset +
      8 * ((List.replicate count 8).zip vsizes).length ≤ (Column.start keys).buf.length := by
    intro _
    rw [List.length_zip, List.length_replicate, hlen, Nat.min_self, Column.start, hkeys,
      Nat.zero_add]
  have hall := MapDatabase.listKeyValuesLoop_words hmode hcopy hword packed
    (s.entriesFrom true fromKey) ((List.replicate count 8).zip vsizes)
    (Column.start keys, Column.start vals) hslots rfl hroom
    (fun size hsize => absurd hsize List.not_mem_nil)
  have hinclusive : Mode.has (.inclusive ||| .noPrefix) .inclusive = true := rfl
  unfold MapDatabase.listKeyValues
  rw [hs, if_neg Bool.false_ne_true, hinclusive]
  dsimp only [Column.finish]
  rw [List.length_replicate]
  exact ⟨_, congrArg (· ++ _) (List.eq_replicate_of_mem hall)⟩

/-- The ids that a listing leaves. -/
def idsOfKeys (count : ℕ) (keys : ColumnOutput) : List UInt64 :=
  List.zipWith (fun ksize id => if ksize = noMoreKeys then noMoreDocs else ensureBigEndian id)
    keys.sizes (idsOfMemory count keys.buf)

theorem getElem?_idsOfMemory (memory : Bytes) {n i : ℕ} (h : i < n) :
    (idsOfMemory n memory)[i]? = some (UInt64.ofNat (LittleEndian.decode (slice memory (8 * i) 8))) := by
  rw [idsOfMemory, List.getElem?_map, getElem?_unpack_replicate _ _ h]
  rfl

theorem length_idsOfMemory (n : ℕ) (memory : Bytes) : (idsOfMemory n memory).length = n := by
  rw [idsOfMemory, List.length_map, length_unpack, List.length_replicate]

/-- Two columns of keys with the same words lead to the same ids. -/
theorem idsOfKeys_congr {packed : Bool} {count found : ℕ} {a b : ColumnOutput}
    (h : SameFill (Announced packed (List.replicate count 8)) (8 * count) count a b)
    (hsizes : a.sizes = List.replicate found 8 ++ List.replicate (count - found) noMoreKeys) :
    idsOfKeys count a = idsOfKeys count b := by
  have hcount : found ≤ count := by
    have hlen := h.length_sizes
    rw [hsizes, List.length_append, List.length_replicate, List.length_replicate] at hlen
    omega
  have hstart : ∀ i < found, itemStart packed (List.replicate count 8) a.sizes i = 8 * i := by
    intro i hi
    cases packed with
    | true =>
      have height : (8 : ℕ) ≤ lastValidSize := by decide
      simp only [itemStart, strides, if_true, hsizes]
      rw [List.map_append, List.take_append_of_le_length (by simp; omega), List.map_replicate,
        if_pos height, List.take_replicate, List.sum_replicate_nat, Nat.min_eq_left hi.le,
        Nat.mul_comm]
    | false =>
      simp only [itemStart, strides, Bool.false_eq_true, if_false]
      rw [List.take_replicate, List.sum_replicate_nat, Nat.min_eq_left (by omega), Nat.mul_comm]
  refine List.ext_getElem? fun i => ?_
  rw [idsOfKeys, idsOfKeys, List.getElem?_zipWith, List.getElem?_zipWith, ← h.sizes_eq]
  rcases Nat.lt_or_ge i count with hi | hi
  · rw [getElem?_idsOfMemory _ hi, getElem?_idsOfMemory _ hi]
    rcases Nat.lt_or_ge i found with hfound | hfound
    · have hsize : a.sizes[i]? = some 8 := by
        rw [hsizes, List.getElem?_append_left (by rwa [List.length_replicate]),
          List.getElem?_replicate_of_lt hfound]
      have hwords : slice a.buf (8 * i) 8 = slice b.buf (8 * i) 8 := by
        apply List.ext_getElem?
        intro j
        rcases Nat.lt_or_ge j 8 with hj | hj
        · rw [slice, slice, List.getElem?_take_of_lt hj, List.getElem?_take_of_lt hj,
            List.getElem?_drop, List.getElem?_drop]
          refine (h.agree _ ⟨i, 8, hsize, by decide, ?_⟩).eq
          rw [hstart i hfound]
          omega
        · rw [slice, slice, List.getElem?_take_eq_none hj, List.getElem?_take_eq_none hj]
      rw [hwords]
    · have hsize : a.sizes[i]? = some noMoreKeys := by
        rw [hsizes, List.getElem?_append_right (by rwa [List.length_replicate]),
          List.length_replicate, List.getElem?_replicate_of_lt (by omega)]
      simp only [hsize, if_true]
  · rw [List.getElem?_eq_none (show (idsOfMemory count a.buf).length ≤ i by
        rwa [length_idsOfMemory]),
      List.getElem?_eq_none (show (idsOfMemory count b.buf).length ≤ i by rwa [length_idsOfMemory])]

theorem length_idsOfKeys {count : ℕ} {keys : ColumnOutput} (h : keys.sizes.length = count) :
    (idsOfKeys count keys).length = count := by
  rw [idsOfKeys, List.length_zipWith, length_idsOfMemory, h, Nat.min_self]

theorem length_idsMemory (ids : List UInt64) : (idsMemory ids).length = 8 * ids.length := by
  rw [idsMemory, List.length_flatten, List.map_map]
  simp [Function.comp_def, List.map_const', Nat.mul_comm]

theorem docListSorted_of_eq {s : DocumentStoreMixin (MapDatabase .default)} {name : CString}
    {packed : Bool} {fromId : UInt64} {filter : DocFilter} {ids : List UInt64} {documents : Bytes}
    {docSizes : List ℕ} {status : Status} {keys docs : ColumnOutput}
    (h : s.db.listKeyValues (.inclusive ||| .noPrefix) packed (keyFromId name fromId)
      (collectionFilterWrapper name filter) (idsMemory ids) (List.replicate ids.length 8) documents
      docSizes = (status, keys, docs)) :
    s.docListSorted name packed fromId filter ids documents docSizes =
      (status, ⟨if status = .OK then idsOfKeys ids.length keys else idsOfMemory ids.length keys.buf,
        docs.buf, docs.size, docs.sizes⟩) := by
  have hlist : ListingStore.listKeyValues (.inclusive ||| .noPrefix) packed s.db
      (keyFromId name fromId) (collectionFilterWrapper name filter) (idsMemory ids)
      (List.replicate ids.length 8) documents docSizes = (status, keys, docs) := h
  simp only [docListSorted, hlist]
  split_ifs
  · rfl
  · rfl

/-- Two listings over a `MapDatabase`. -/
theorem docListSorted_alike (s : DocumentStoreMixin (MapDatabase .default)) (name : CString)
    (fromId : UInt64) {filter : DocFilter} (hfilter : filter.Copies) {packed : Bool} {n : ℕ}
    {slots docSizes docSizes' : List ℕ} {ids ids' : List UInt64} {documents documents' : Bytes}
    (hcount : 8 * slots.length < 2 ^ 63) (hids : ids.length = slots.length)
    (hids' : ids'.length = slots.length)
    (h : SameRequest packed n slots documents documents' docSizes docSizes') :
    (s.docListSorted name packed fromId filter ids documents docSizes).1 =
        (s.docListSorted name packed fromId filter ids' documents' docSizes').1 ∧
      ((s.docListSorted name packed fromId filter ids documents docSizes).1 = .OK →
        SameListing packed n slots
          (s.docListSorted name packed fromId filter ids documents docSizes).2
          (s.docListSorted name packed fromId filter ids' documents' docSizes').2) := by
  have hwords : 8 * slots.length ≤ lastValidSize := hcount.le.trans (by decide)
  have hlen : (List.replicate slots.length 8).length = slots.length := List.length_replicate
  obtain ⟨status, k, v, hk, hv, hlist⟩ := MapDatabase.listKeyValues_writes
    (copies_collectionFilterWrapper name hfilter) (.inclusive ||| .noPrefix) packed s.db
    (keyFromId name fromId) (8 * slots.length) n (List.replicate slots.length 8) slots hwords
    h.le_lastValidSize hlen fun hp =>
      ⟨by rw [List.sum_replicate_nat, Nat.mul_comm], h.sum_le hp⟩
  obtain ⟨hstatus, hout⟩ := hlist (idsMemory ids) (List.replicate slots.length 8) documents docSizes
    (by rw [length_idsMemory, hids]) h.length_left rfl h.length_sizes
    fun hp => ⟨rfl, (h.slots_eq hp).1⟩
  obtain ⟨hstatus', hout'⟩ := hlist (idsMemory ids') (List.replicate slots.length 8) documents'
    docSizes' (by rw [length_idsMemory, hids']) h.length_right rfl h.length_sizes'
    fun hp => ⟨rfl, (h.slots_eq hp).2⟩
  rcases hr : s.db.listKeyValues (.inclusive ||| .noPrefix) packed (keyFromId name fromId)
    (collectionFilterWrapper name filter) (idsMemory ids) (List.replicate slots.length 8) documents
    docSizes with ⟨st, keys, docs⟩
  rcases hr' : s.db.listKeyValues (.inclusive ||| .noPrefix) packed (keyFromId name fromId)
    (collectionFilterWrapper name filter) (idsMemory ids') (List.replicate slots.length 8)
    documents' docSizes' with ⟨st', keys', docs'⟩
  rw [hr] at hstatus hout
  rw [hr'] at hstatus' hout'
  obtain rfl : st = status := hstatus
  obtain rfl : st' = st := hstatus'
  rw [← hids] at hr
  rw [← hids'] at hr'
  rw [docListSorted_of_eq hr, docListSorted_of_eq hr']
  refine ⟨rfl, fun hOK => ?_⟩
  obtain rfl : st' = .OK := hOK
  obtain ⟨rfl, rfl⟩ := Prod.mk.inj (hout rfl)
  obtain ⟨rfl, rfl⟩ := Prod.mk.inj (hout' rfl)
  have hkeys : SameFill (Announced packed (List.replicate slots.length 8)) (8 * slots.length)
      (List.replicate slots.length 8).length (k.output (idsMemory ids)) (k.output (idsMemory ids')) :=
    hk.sameFill (by rw [length_idsMemory, hids]) (by rw [length_idsMemory, hids'])
  have hdocs := hv.sameFill h.length_left h.length_right
  rw [hlen] at hkeys
  -- a database that answered has not been migrated
  have hserving : s.db.migrated = false := by
    by_contra hmigrated
    unfold MapDatabase.listKeyValues at hr
    rw [if_pos (by simpa using hmigrated)] at hr
    cases hr
  rw [hids] at hr
  obtain ⟨found, hfound⟩ := listKeyValues_words hserving name filter packed (keyFromId name fromId)
    (idsMemory ids) documents (by rw [length_idsMemory, hids]) h.length_sizes
  rw [hr] at hfound
  have hids_eq := idsOfKeys_congr hkeys hfound
  rw [if_pos rfl, if_pos rfl, hids, hids']
  refine ⟨hdocs.mono fun sizes p hp => hp.announced, ⟨?_, ?_⟩, fun i _ => ?_⟩
  · exact length_idsOfKeys hkeys.length_sizes
  · exact length_idsOfKeys (by rw [← hkeys.sizes_eq]; exact hkeys.length_sizes)
  · exact congrArg (·[i]?) hids_eq

/-- `doc_load` and `doc_list` over the documents of a `MapDatabase`. -/
def documents (makeDocFilter : Mode → Bytes → Option SizedDocFilter)
    (hfilter : ∀ mode filterData filter, makeDocFilter mode filterData = some filter →
      filter.Copies) : DocBackend (DocumentStoreMixin (MapDatabase .default)) where
  Valid _ := True
  supportsMode := MapDatabase.supportsMode
  makeDocFilter := makeDocFilter
  docLoad s name mode packed ids documents sizes :=
    (s.docLoad name mode packed ids documents sizes).map fun r => ⟨r.1, r.2.2, r.2.1⟩
  docList s name mode packed fromId filter ids documents docSizes :=
    some (s.docList name mode packed fromId filter.toDocFilter ids documents docSizes)
  docLoad_alike := by
    intro s packed ids n slots documents documents' sizes sizes' _ hids h name mode
    unfold DocumentStoreMixin.docLoad
    by_cases hname : name.bytes = []
    · rw [if_pos hname, if_pos hname]
      exact .some ⟨rfl, rfl, nofun⟩
    rw [if_neg hname, if_neg hname]
    rcases s.collExistsImpl name with ⟨status, e⟩
    dsimp only
    split_ifs with hstatus he
    · exact .some ⟨rfl, rfl, fun hOK => absurd hOK hstatus⟩
    · exact .some ⟨rfl, rfl, nofun⟩
    rcases hkeys : keysFromIds name ids with _ | keys
    · exact .none
    obtain ⟨hfit, rfl⟩ := keysFromIds_eq hkeys
    have hlen : (idKeySizes name ids).length = slots.length := by
      rw [idKeySizes, List.length_replicate, hids]
    obtain ⟨hsame, hdb, hout⟩ := GetFills.sameFill mode s.db (packed_keys hfit) hlen h
    exact .some ⟨hsame, congrArg (fun db => { s with db }) hdb, fun hOK =>
      (hout hOK).mono fun sizes p hp => hp.announced⟩
  docList_alike := by
    intro s packed ids ids' n slots documents documents' docSizes docSizes' mode filterData filter
      _ hmake hcount hids hids' h name fromId
    have hsorted : DatabaseInterface.isSorted (MapDatabase .default) = true := rfl
    unfold DocumentStoreMixin.docList
    simp only [hsorted, if_true]
    rcases s.collGetMetadata name {} with ⟨status, metadata, t⟩
    split_ifs with hname hsupports hstatus
    · exact .some ⟨rfl, rfl, nofun⟩
    · exact .some ⟨rfl, rfl, nofun⟩
    · exact .some ⟨rfl, rfl, fun hOK => absurd hOK hstatus⟩
    · obtain ⟨hsame, hlisting⟩ := t.docListSorted_alike name fromId
        (hfilter mode filterData filter hmake) hcount hids hids' h
      exact .some ⟨hsame, rfl, hlisting⟩

end DocumentStoreMixin

end Yokan
