import Yokan.BufferReuse
import Yokan.LogDirectUpdate
import Yokan.LogIteration

/-!
# Yokan: the `log` backend and used buffers

`docLoad` and `docList` of `LogDatabase` on two buffers that differ in what they held before. They
read the same documents from the same chunks, and write them to the same places.

* `loadPackedLoop_alike`, `loadSlotsLoop_alike`: the loops of `docLoad`;
* `iterLoop_alike`: the loop of `docIter`, with two callbacks that answer alike;
* `LogDatabase.documents`: what the handlers use of the backend;
* `log_buffer_reuse`: the replies of the two handlers of documents.
-/

namespace Yokan

open Buffer

namespace LogCollection

variable {c : LogCollection} {n : ℕ} {slots sizes : List ℕ} {documents documents' : Bytes}

/-! ### The loops of `docLoad` -/

/-- What `read` copies fits in the buffer. -/
theorem length_le_of_read {id : UInt64} {bufSize : ℕ} {doc : Bytes} {c' : LogCollection}
    (h : c.read id bufSize = .ok (.OK, doc, c')) : doc.length ≤ bufSize := by
  unfold LogCollection.read at h
  split_ifs at h with hge
  · cases h
  generalize c.readEntryMetadata id.toNat = r at h
  obtain ⟨status, entry⟩ := r
  dsimp only at h
  split_ifs at h with hstatus hhole hroom
  · exact absurd (Prod.mk.inj (Except.ok.inj h)).1 hstatus
  · cases h
  · cases h
  cases hchunk : c.derefChunk entry.chunk with
  | error e => rw [hchunk] at h; cases h
  | ok c₁ =>
    rw [hchunk] at h
    unfold readChunk at h
    dsimp only [bind, Except.bind] at h
    split_ifs at h
    · cases h
    · cases h
      show (slice _ _ _).length ≤ bufSize
      rw [length_slice]
      omega

/-- Two loops of `docLoad` that end alike. -/
def LoadsAlike (packed : Bool) (n : ℕ) (slots : List ℕ)
    (x y : Outcome (Status × Bytes × List ℕ × LogCollection)) : Prop :=
  Option.Rel (fun r r' => r.1 = r'.1 ∧ r.2.2 = r'.2.2 ∧ (r.1 = .OK →
      r.2.2.1.length = slots.length ∧
        ∃ offset, DocsAlike packed n slots r.2.2.1 offset r.2.1 r'.2.1))
    x.toOption y.toOption

/-- The callers of `docLoad` find the same documents. -/
theorem LoadsAlike.sameGet {packed : Bool} {sizes' : List ℕ}
    {x y : Outcome (Status × Bytes × List ℕ × LogCollection)} (hloads : LoadsAlike packed n slots x y)
    (h : SameRequest packed n slots documents documents' sizes sizes') (s : LogDatabase)
    (name : CString) :
    Option.Rel (SameGet (AnnouncedDoc packed slots) n slots.length)
      ((x.bind fun r => .ok (r.1, r.2.1, r.2.2.1 ++ sizes.drop r.2.2.1.length,
        s.put name r.2.2.2)).toOption.map fun r => ⟨r.1, r.2.2.2, ⟨r.2.1, n, r.2.2.1⟩⟩)
      ((y.bind fun r => .ok (r.1, r.2.1, r.2.2.1 ++ sizes'.drop r.2.2.1.length,
        s.put name r.2.2.2)).toOption.map fun r => ⟨r.1, r.2.2.2, ⟨r.2.1, n, r.2.2.1⟩⟩) := by
  rcases x with e | ⟨status, loaded, left, c₁⟩ <;> rcases y with e' | ⟨status', loaded', left', c₂⟩
  · exact .none
  · cases hloads
  · cases hloads
  rcases hloads with ⟨hstatus, hout, halike⟩
  obtain rfl : status = status' := hstatus
  obtain ⟨rfl, rfl⟩ := Prod.mk.inj hout
  refine .some ⟨rfl, rfl, fun hOK => ?_⟩
  obtain ⟨hleft, offset, hdocs⟩ : left.length = slots.length ∧ _ := halike hOK
  have hlen := h.length_sizes
  have hlen' := h.length_sizes'
  show SameFill _ _ _ ⟨loaded, n, left ++ sizes.drop left.length⟩
    ⟨loaded', n, left ++ sizes'.drop left.length⟩
  rw [List.drop_of_length_le (by omega), List.drop_of_length_le (by omega), List.append_nil]
  exact hdocs.sameFill hleft n

theorem loadPackedLoop_alike (hn : n ≤ lastValidSize) (ids : List UInt64) {docPtr remaining : ℕ}
    (h : DocsAlike true n slots sizes docPtr documents documents') (hrem : docPtr + remaining = n)
    (hlen : sizes.length + ids.length = slots.length) :
    LoadsAlike true n slots (c.loadPackedLoop ids docPtr remaining documents sizes)
      (c.loadPackedLoop ids docPtr remaining documents' sizes) := by
  induction ids generalizing c docPtr remaining documents documents' sizes with
  | nil => exact .some ⟨rfl, rfl, fun _ => ⟨hlen, docPtr, h⟩⟩
  | cons id ids ih =>
    rw [List.length_cons] at hlen
    have hslot : slots[sizes.length]? = some slots[sizes.length] :=
      List.getElem?_eq_getElem (by omega)
    have hnext : ∀ size : ℕ, (sizes ++ [size]).length + ids.length = slots.length := by
      intro size
      rw [List.length_append, List.length_singleton]
      omega
    unfold LogCollection.loadPackedLoop
    cases hread : c.read id remaining with
    | error e => exact .none
    | ok r =>
      obtain ⟨status, doc, c'⟩ := r
      dsimp only [bind, Except.bind]
      split_ifs with hsmall hnone hstatus
      · refine .some ⟨rfl, rfl, fun _ => ⟨?_, docPtr, h.allTooSmall _ hlen⟩⟩
        rw [List.length_append, List.length_replicate, hlen]
      · exact ih (h.mark hslot (by decide) (by decide)) hrem (hnext _)
      · exact .some ⟨rfl, rfl, fun hOK => absurd hOK hstatus⟩
      · obtain rfl := not_not.1 hstatus
        have hdoc := length_le_of_read hread
        exact ih (h.write hslot hn doc (by omega)) (by omega) (hnext _)

theorem loadSlotsLoop_alike (hn : n ≤ lastValidSize) (hsum : slots.sum ≤ n) (ids : List UInt64)
    {docPtr : ℕ} (h : DocsAlike false n slots sizes docPtr documents documents')
    (hlen : sizes.length + ids.length = slots.length) :
    LoadsAlike false n slots
      (c.loadSlotsLoop (ids.zip (slots.drop sizes.length)) docPtr documents sizes)
      (c.loadSlotsLoop (ids.zip (slots.drop sizes.length)) docPtr documents' sizes) := by
  induction ids generalizing c docPtr documents documents' sizes with
  | nil => exact .some ⟨rfl, rfl, fun _ => ⟨hlen, docPtr, h⟩⟩
  | cons id ids ih =>
    rw [List.length_cons] at hlen
    have hlt : sizes.length < slots.length := by omega
    have hslot : slots[sizes.length]? = some slots[sizes.length] := List.getElem?_eq_getElem hlt
    have hin := h.offset_add_slot_le hslot hsum
    have hnext : ∀ size : ℕ, (sizes ++ [size]).length + ids.length = slots.length := by
      intro size
      rw [List.length_append, List.length_singleton]
      omega
    have hrest : ∀ size : ℕ, slots.drop (sizes.length + 1) = slots.drop (sizes ++ [size]).length := by
      intro size
      rw [List.length_append, List.length_singleton]
    rw [List.drop_eq_getElem_cons hlt, List.zip_cons_cons]
    unfold LogCollection.loadSlotsLoop
    cases hread : c.read id slots[sizes.length] with
    | error e => exact .none
    | ok r =>
      obtain ⟨status, doc, c'⟩ := r
      dsimp only [bind, Except.bind]
      split_ifs with hstatus hnone hsmall
      · subst hstatus
        have hdoc := length_le_of_read hread
        rw [hrest doc.length]
        exact ih (h.write hslot hn doc (by omega)) (hnext _)
      · rw [hrest keyNotFound]
        exact ih (h.mark hslot (by decide) (by decide)) (hnext _)
      · rw [hrest sizeTooSmall]
        exact ih (h.mark hslot (by decide) (by decide)) (hnext _)
      · exact .some ⟨rfl, rfl, fun hOK => absurd hOK hstatus⟩

/-! ### The loop of `docIter` -/

/-- A fetch crashes, fails, or calls back, whatever its callback is. -/
theorem fetch_alike {υ : Type} (id : UInt64) (cb cb' : υ → UInt64 → Option Bytes → Status × υ)
    (u u' : υ) :
    (∃ e, c.fetch id cb u = .error e ∧ c.fetch id cb' u' = .error e) ∨
      (∃ status c', c.fetch id cb u = .ok (status, u, c') ∧
        c.fetch id cb' u' = .ok (status, u', c')) ∨
      ∃ doc c', c.fetch id cb u = .ok ((cb u id doc).1, (cb u id doc).2, c') ∧
        c.fetch id cb' u' = .ok ((cb' u' id doc).1, (cb' u' id doc).2, c') := by
  unfold LogCollection.fetch
  split_ifs with hge
  · exact Or.inr (Or.inr ⟨none, c, rfl, rfl⟩)
  generalize c.readEntryMetadata id.toNat = r
  obtain ⟨status, entry⟩ := r
  dsimp only
  split_ifs with hhole
  · exact Or.inr (Or.inr ⟨none, c, rfl, rfl⟩)
  cases c.derefChunk entry.chunk with
  | error e => exact Or.inl ⟨e, rfl, rfl⟩
  | ok c' =>
    dsimp only [bind, Except.bind]
    cases c'.readChunk entry.chunk entry.offset entry.size with
    | error e => exact Or.inl ⟨e, rfl, rfl⟩
    | ok r =>
      dsimp only
      split_ifs
      · exact Or.inr (Or.inl ⟨r.1, c', rfl, rfl⟩)
      · exact Or.inr (Or.inr ⟨some r.2, c', rfl, rfl⟩)

end LogCollection

/-- Two iterations at the same place. `R` holds between what their users have captured, as long as no
callback has failed. -/
structure LogIteration.Alike {υ : Type} (R : ℕ → υ → υ → Prop) (max : ℕ)
    (st st' : LogIteration υ) : Prop where
  id_eq : st.id = st'.id
  i_eq : st.i = st'.i
  docBuffer_eq : st.docBuffer = st'.docBuffer
  status_eq : st.status = st'.status
  user : st.status = .OK → ∃ j ≤ max, (st.i < max → j = st.i) ∧ R j st.user st'.user

namespace LogIteration

variable {υ : Type} {R : ℕ → υ → υ → Prop} {name : CString} {max : ℕ} {filter : SizedDocFilter}
  {func : υ → UInt64 → Bytes → Status × υ}

/-- The callback of `docIter` goes on alike. -/
theorem fetchCallback_alike
    (hfunc : ∀ i u u' id doc, doc.length ≤ vectorMaxSize 1 → i < max → R i u u' →
      (func u id doc).1 = (func u' id doc).1 ∧
        ((func u id doc).1 = .OK → R (i + 1) (func u id doc).2 (func u' id doc).2))
    (hfilter : filter.Copies) {st st' : LogIteration υ} (h : Alike R max st st')
    (hOK : st.status = .OK) (hlt : st.i < max) (id : UInt64) (doc : Option Bytes) :
    Option.Rel (Alike R max) (fetchCallback name max filter func (some st) id doc).2
      (fetchCallback name max filter func (some st') id doc).2 := by
  obtain ⟨hid, hi, hbuffer, hstatus, huser⟩ := h
  obtain ⟨j, hj, hji, hR⟩ := huser hOK
  obtain rfl := hji hlt
  cases doc with
  | none =>
    exact .some ⟨congrArg (· + 1) hid, hi, hbuffer, hstatus, fun _ => ⟨st.i, hj, fun _ => rfl, hR⟩⟩
  | some doc =>
    dsimp only [fetchCallback]
    rw [← hid, ← hi, ← hbuffer]
    split_ifs with hcheck hstop
    · exact .some ⟨rfl, rfl, rfl, hstatus,
        fun _ => ⟨st.i, hj, fun hmax => absurd hmax (Nat.lt_irrefl max), hR⟩⟩
    · exact .some ⟨rfl, rfl, rfl, hstatus, fun _ => ⟨st.i, hj, fun _ => rfl, hR⟩⟩
    · cases hresize : resize (filter.docSizeFrom name doc) st.docBuffer with
      | none => exact .none
      | some docBuffer =>
        dsimp only
        generalize filter.docSizeFrom name doc = room at hresize
        obtain ⟨hroom, hmax⟩ := length_resize hresize
        have hlen : (filter.docCopy name docBuffer 0 room doc).2.length = room := by
          obtain ⟨docBytes, hcopy⟩ := hfilter
          rw [hcopy, length_copyOut hroom]
        obtain ⟨hanswer, hnext⟩ := hfunc st.i st.user st'.user st.id
          (slice (filter.docCopy name docBuffer 0 room doc).2 0
            (filter.docCopy name docBuffer 0 room doc).1)
          (by rw [length_slice, hlen]; omega) hlt hR
        rw [← hanswer]
        split_ifs with hfailed
        · exact .some ⟨rfl, rfl, rfl, rfl, fun h => absurd h hfailed⟩
        · exact .some ⟨rfl, rfl, rfl, rfl,
            fun h => ⟨st.i + 1, hlt, fun _ => rfl, hnext h⟩⟩

/-- Two loops of `docIter` that end alike. -/
def LoopsAlike (R : ℕ → υ → υ → Prop) (max : ℕ)
    (x y : Outcome (Option (LogIteration υ) × LogCollection)) : Prop :=
  Option.Rel (fun r r' => Option.Rel (Alike R max) r.1 r'.1 ∧ r.2 = r'.2) x.toOption y.toOption

theorem iterLoop_alike
    (hfunc : ∀ i u u' id doc, doc.length ≤ vectorMaxSize 1 → i < max → R i u u' →
      (func u id doc).1 = (func u' id doc).1 ∧
        ((func u id doc).1 = .OK → R (i + 1) (func u id doc).2 (func u' id doc).2))
    (hfilter : filter.Copies) (c : LogCollection) (fetches : ℕ) {st st' : LogIteration υ}
    (h : Alike R max st st') (hOK : st.status = .OK) :
    Option.Rel (LoopsAlike R max) (c.iterLoop name max filter func fetches st)
      (c.iterLoop name max filter func fetches st') := by
  induction fetches generalizing c st st' with
  | zero =>
    unfold LogCollection.iterLoop
    rw [← h.i_eq, ← h.id_eq]
    split_ifs
    · exact .none
    · exact .some (.some ⟨.some h, rfl⟩)
  | succ fetches ih =>
    unfold LogCollection.iterLoop
    rw [← h.i_eq, ← h.id_eq]
    split_ifs with hgo
    swap
    · exact .some (.some ⟨.some h, rfl⟩)
    rcases c.fetch_alike st.id (fetchCallback name max filter func)
      (fetchCallback name max filter func) (some st) (some st') with
      ⟨e, he, he'⟩ | ⟨status, c', hc, hc'⟩ | ⟨doc, c', hc, hc'⟩
    · rw [he, he']
      exact .some .none
    · rw [hc, hc']
      dsimp only
      rw [← h.status_eq, if_neg (not_not.2 hOK), if_neg (not_not.2 hOK)]
      exact ih c' h hOK
    · rw [hc, hc']
      have hnext : Option.Rel (Alike R max)
          (fetchCallback name max filter func (some st) st.id doc).2
          (fetchCallback name max filter func (some st') st.id doc).2 :=
        fetchCallback_alike hfunc hfilter h hOK hgo.1 st.id doc
      revert hnext
      generalize (fetchCallback name max filter func (some st) st.id doc).2 = next
      generalize (fetchCallback name max filter func (some st') st.id doc).2 = next'
      rintro (@⟨next, next', hnext⟩ | _)
      · dsimp only
        rw [← hnext.status_eq]
        split_ifs with hfailed
        · exact .some (.some ⟨.some hnext, rfl⟩)
        · exact ih c' hnext (not_not.1 hfailed)
      · exact .some (.some ⟨.none, rfl⟩)

end LogIteration

/-! ### The backend -/

/-- `doc_load` and `doc_list` over the `log` backend, for calls of `docList` with a number of fetches.
A call that crashes, throws or needs another fetch has no answer. -/
def LogDatabase.documents (makeDocFilter : Mode → Bytes → Option SizedDocFilter)
    (hfilter : ∀ mode filterData filter, makeDocFilter mode filterData = some filter →
      filter.Copies) (fetches : ℕ) : DocBackend LogDatabase where
  Valid _ := True
  supportsMode := LogDatabase.supportsMode
  makeDocFilter := makeDocFilter
  docLoad s name _ packed ids documents sizes :=
    (s.docLoad name packed ids documents sizes).toOption.map fun r =>
      ⟨r.1, r.2.2.2, ⟨r.2.1, documents.length, r.2.2.1⟩⟩
  docList s name _ packed fromId filter ids documents docSizes :=
    (s.docList name packed fromId filter ids documents docSizes fetches).bind fun r =>
      r.toOption.bind fun r => r.1.map fun a =>
        (a.1, ⟨a.2.1, a.2.2.1, documents.length, a.2.2.2⟩, r.2)
  docLoad_alike := by
    intro s packed ids n slots documents documents' sizes sizes' _ hids h name mode
    unfold LogDatabase.docLoad
    rcases s.collections name with _ | c
    · exact .some ⟨rfl, rfl, fun hOK => by cases hOK⟩
    cases packed with
    | true =>
      have hloads := LogCollection.loadPackedLoop_alike (c := c) h.le_lastValidSize ids
        (DocsAlike.start h.length_left h.length_right) (Nat.zero_add n) (by simpa using hids)
      dsimp only
      rw [if_pos rfl, if_pos rfl, h.length_left, h.length_right]
      exact hloads.sameGet h s name
    | false =>
      obtain ⟨rfl, rfl⟩ := h.slots_eq rfl
      have hloads := LogCollection.loadSlotsLoop_alike (c := c) h.le_lastValidSize (h.sum_le rfl) ids
        (DocsAlike.start h.length_left h.length_right) (by simpa using hids)
      dsimp only
      rw [if_neg Bool.false_ne_true, if_neg Bool.false_ne_true, h.length_left, h.length_right]
      exact hloads.sameGet h s name
  docList_alike := by
    intro s packed ids ids' n slots documents documents' docSizes docSizes' mode filterData filter
      _ hmake _ hids hids' h name fromId
    unfold LogDatabase.docList LogDatabase.docIter
    rcases s.collections name with _ | c
    · exact .some ⟨rfl, rfl, fun hOK => by cases hOK⟩
    have hcallback : ∀ (i : ℕ) (u u' : ArrayListing) (id : UInt64) (doc : Bytes),
        doc.length ≤ vectorMaxSize 1 → i < slots.length → ArrayListing.Alike packed n slots i u u' →
        _ ∧ _ := fun i u u' id doc hdoc hi halike =>
      ArrayListing.callback_alike h.lt_max h.sum_le hi halike id hdoc
    have hstart : LogIteration.Alike (ArrayListing.Alike packed n slots) slots.length
        ⟨fromId, 0, [], .OK, ⟨0, 0, ids, documents, docSizes⟩⟩
        ⟨fromId, 0, [], .OK, ⟨0, 0, ids', documents', docSizes'⟩⟩ :=
      ⟨rfl, rfl, rfl, rfl,
        fun _ => ⟨0, Nat.zero_le _, fun _ => rfl, ArrayListing.Alike.start h hids hids'⟩⟩
    have hrun : Option.Rel _
        (c.iterLoop name slots.length filter (ArrayListing.callback packed) fetches
          ⟨fromId, 0, [], .OK, ⟨0, 0, ids, documents, docSizes⟩⟩)
        (c.iterLoop name slots.length filter (ArrayListing.callback packed) fetches
          ⟨fromId, 0, [], .OK, ⟨0, 0, ids', documents', docSizes'⟩⟩) :=
      LogIteration.iterLoop_alike hcallback (hfilter mode filterData filter hmake) c fetches hstart
        rfl
    rw [hids, hids']
    dsimp only
    revert hrun
    generalize c.iterLoop name slots.length filter (ArrayListing.callback packed) fetches
      ⟨fromId, 0, [], .OK, ⟨0, 0, ids, documents, docSizes⟩⟩ = run
    generalize c.iterLoop name slots.length filter (ArrayListing.callback packed) fetches
      ⟨fromId, 0, [], .OK, ⟨0, 0, ids', documents', docSizes'⟩⟩ = run'
    rintro (@⟨x, y, hloops⟩ | _)
    swap
    · exact .none
    rcases x with e | ⟨st, c₁⟩ <;> rcases y with e' | ⟨st', c₂⟩
    · exact .none
    · cases hloops
    · cases hloops
    rcases hloops with ⟨hst, hc⟩
    obtain rfl : c₁ = c₂ := hc
    rcases hst with @⟨st, st', hst⟩ | _
    · refine .some ⟨hst.status_eq, rfl, fun hOK => ?_⟩
      obtain ⟨j, hj, -, hlisting⟩ := hst.user hOK
      rw [h.length_left, h.length_right]
      exact hlisting.sameListing hj
    · exact .none

theorem copies_of_makeDocFilter (_ : Mode) (_ : Bytes) (filter : SizedDocFilter)
    (h : some makeDocFilter = some filter) : filter.Copies := by
  obtain rfl := Option.some.inj h
  exact copies_makeDocFilter

/-- The handlers of documents over a `log` database. -/
def logDocuments (fetches : ℕ) : DocBackend LogDatabase :=
  LogDatabase.documents (fun _ _ => some makeDocFilter) copies_of_makeDocFilter fetches

/-- Over the `log` backend, in any state of its collections, two executions of `doc_load` and of
`doc_list` that differ in what their pooled buffer held end alike. When they answer, they answer with
the same code, and the client finds the same bytes in what the sizes announce. -/
theorem log_buffer_reuse (fetches : ℕ) (s : LogDatabase) (mode : Mode) (packed : Bool) (bulk : Bytes)
    (offset : ℕ) {pooled pooled' : Bytes} (hlen : pooled'.length = pooled.length)
    (hmax : pooled.length < 2 ^ 63) (collName : CString) :
    (∀ (ids : List UInt64) (size : ℕ), DocLoadRequest packed ids.length bulk offset size →
      size ≤ pooled.length →
      Option.Rel (AnsweredAlike
          (Told (AnnouncedDoc packed (sizesOfMemory ids.length (bulk.drop offset))) ids.length offset
            (offset + 8 * ids.length) (size - 8 * ids.length)))
        (ykDocLoadUlt (logDocuments fetches) mode packed collName ids bulk offset size pooled s)
        (ykDocLoadUlt (logDocuments fetches) mode packed collName ids bulk offset size pooled' s)) ∧
    ∀ (fromId : UInt64) (count filterSize docsBufSize : ℕ),
      DocListRequest packed count filterSize bulk offset docsBufSize →
      filterSize + 16 * count + docsBufSize ≤ pooled.length →
      Option.Rel (AnsweredAlike fun memory p =>
          Told (AnnouncedDoc packed (sizesOfMemory count (bulk.drop (offset + filterSize)))) count
              (offset + filterSize) (offset + filterSize + 16 * count) docsBufSize memory p ∧
            IdTold count (offset + filterSize) (offset + filterSize + 8 * count) memory p)
        (ykDocListUlt (logDocuments fetches) mode packed collName fromId count filterSize bulk offset
          docsBufSize pooled s)
        (ykDocListUlt (logDocuments fetches) mode packed collName fromId count filterSize bulk offset
          docsBufSize pooled' s) := by
  constructor
  · intro ids size hreq hsize
    exact ykDocLoadUlt_alike (logDocuments fetches) trivial mode hreq hlen hsize hmax collName
  · intro fromId count filterSize docsBufSize hreq hsize
    exact ykDocListUlt_alike (logDocuments fetches) trivial mode hreq hlen hsize hmax collName fromId

end Yokan
