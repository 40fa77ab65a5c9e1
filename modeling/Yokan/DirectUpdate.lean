import Yokan.ArrayRefinement
import Yokan.HandlerBounds
import Yokan.Library.Ensures
import Yokan.Library.Transition

/-!
# Yokan: direct updates of documents

`yk_doc_update_direct_ult` (`src/server/doc_update.cpp`) hands the ids, the sizes and the documents
of a request to `docUpdate` as they come in, so that their numbers need not agree. Here an update
is followed with the lengths of these arrays and of the memory that it writes to. An access beyond
one of them is a `Fault`, and so is whatever else keeps an update from returning.

* `InBounds`: an update runs into none of the faults that a validated request excludes;
* `ArrayCollection.updateIn`: the update of the `array` backend;
* `docUpdateIn_eq`: in bounds, it is the one of the model of the backend;
* `updateIn_settles`: when it stays in bounds.
-/

namespace Yokan

open Buffer Transition

/-- What an update can run into. -/
inductive Fault
  | sizes
  | documents
  | data
  | chunk
  | ids
  | nullChunk
  | emptyCache
  | fileTooLarge
  | exception
  deriving DecidableEq

namespace Fault

/-- The accesses that a validated request excludes: reading beyond `sizes` or `documents`, writing
beyond the region reserved in `m_data` or beyond the end of a chunk. -/
def overruns : Fault → Bool
  | sizes | documents | data | chunk => true
  | ids | nullChunk | emptyCache | fileTooLarge | exception => false

end Fault

abbrev Checked (α : Type) := Except Fault α

/-- The program makes none of these accesses. -/
def InBounds {α : Type} (x : Checked α) : Prop :=
  Ensures (fun e => e.overruns = false) x fun _ => True

/-- The program is in bounds exactly if `F`, and its result satisfies `P`. -/
def Settles {α : Type} (F : Prop) (x : Checked α) (P : α → Prop) : Prop :=
  Ensures (fun e => e.overruns = false ↔ F) x fun a => F ∧ P a

theorem Settles.inBounds_iff {α : Type} {F : Prop} {x : Checked α} {P : α → Prop}
    (h : Settles F x P) : InBounds x ↔ F := by
  cases x with
  | ok a => exact iff_of_true trivial h.1
  | error e => exact h

theorem Settles.congr {α : Type} {F G : Prop} {x : Checked α} {P : α → Prop} (h : Settles F x P)
    (hFG : F ↔ G) : Settles G x P := by
  cases x with
  | ok a => exact ⟨hFG.1 h.1, h.2⟩
  | error e => exact h.trans hFG

theorem Settles.overrun {α : Type} {F : Prop} {e : Fault} {P : α → Prop} (he : e.overruns = true)
    (hF : ¬ F) : Settles F (.error e : Checked α) P :=
  iff_of_false (fun hfalse => Bool.false_ne_true (hfalse.symm.trans he)) hF

theorem Settles.stopped {α : Type} {F : Prop} {e : Fault} {P : α → Prop} (he : e.overruns = false)
    (hF : F) : Settles F (.error e : Checked α) P :=
  iff_of_true he hF

/-- `doc_update_direct_in_t`. -/
structure UpdateRequest where
  mode : Mode
  collName : CString
  ids : List UInt64
  sizes : List UInt64
  docs : Bytes

/-- The sizes as numbers. -/
def UpdateRequest.docSizes (req : UpdateRequest) : List ℕ := req.sizes.map UInt64.toNat

/-- `yk_doc_update_direct_ult`, over the `supportsMode` and the `docUpdate` of a database. -/
def ykDocUpdateDirectUlt {σ : Type} (supportsMode : Mode → Bool)
    (docUpdate : σ → CString → Mode → List UInt64 → Bytes → List ℕ → Checked (Status × σ)) (s : σ)
    (req : UpdateRequest) : Checked (ReturnCode × σ) :=
  if !supportsMode req.mode then .ok (.ERR_MODE, s)
  else do
    let (status, s) ← docUpdate s req.collName req.mode req.ids req.docs req.docSizes
    .ok (status.code, s)

theorem inBounds_bind_ok {α β : Type} {x : Checked α} {f : α → β} :
    InBounds (x >>= fun a => .ok (f a)) ↔ InBounds x := by
  cases x <;> exact Iff.rfl

/-- The handler is in bounds exactly if the update is, in a mode that is supported. -/
theorem ykDocUpdateDirectUlt_inBounds_iff {σ : Type} {supportsMode : Mode → Bool}
    {docUpdate : σ → CString → Mode → List UInt64 → Bytes → List ℕ → Checked (Status × σ)} {s : σ}
    {req : UpdateRequest} : InBounds (ykDocUpdateDirectUlt supportsMode docUpdate s req) ↔
      (supportsMode req.mode = true →
        InBounds (docUpdate s req.collName req.mode req.ids req.docs req.docSizes)) := by
  unfold ykDocUpdateDirectUlt
  cases supportsMode req.mode with
  | false => exact iff_of_true trivial nofun
  | true =>
    rw [forall_prop_of_true (p := true = true) (Eq.refl true)]
    exact inBounds_bind_ok

/-- The check of the ids lets a request through if the mode permits new ids, or there are none. -/
theorem not_refused_iff {updateNew : Bool} {new : UInt64 → Bool} {ids : List UInt64} :
    ¬ (updateNew = false ∧ ids.any new = true) ↔ updateNew = true ∨ ∀ id ∈ ids, new id = false := by
  rw [not_and_or, Bool.not_eq_false, List.any_eq_true]
  simp

/-! ### The `array` backend -/

namespace ArrayCollection

/-- `updateLoop`, over the arrays of a request. -/
def updateLoopIn (documents : Bytes) : List UInt64 → List ℕ → ℕ → ℕ → ArrayCollection →
    Checked ArrayCollection
  | [], _, _, _, coll => .ok coll
  | _ :: _, [], _, _, _ => .error .sizes
  | id :: ids, docSize :: docSizes, docPtr, offset, coll =>
    match createMissing (id.toNat + 1 - coll.sizes.length) coll with
    | none => .error .exception
    | some coll =>
      if documents.length < docPtr + docSize then .error .documents
      else if coll.data.length < offset + docSize then .error .data
      else
        let count := if coll.sizes[id.toNat]? = some keyNotFound then coll.count + 1 else coll.count
        let data := blit coll.data offset (slice documents docPtr docSize)
        updateLoopIn documents ids docSizes (docPtr + docSize) (offset + docSize)
          ⟨data, count, coll.offsets.set id.toNat offset, coll.sizes.set id.toNat docSize⟩

/-- The part of `docUpdate` behind its check of the ids. -/
def updateIn (coll : ArrayCollection) (ids : List UInt64) (documents : Bytes) (sizes : List ℕ) :
    Checked ArrayCollection :=
  match coll.grow documents.length with
  | none => .error .exception
  | some grown => grown.updateLoopIn documents ids sizes 0 coll.data.length

end ArrayCollection

/-- `docUpdate`, over the arrays of a request. -/
def ArrayDatabase.docUpdateIn (s : ArrayDatabase) (name : CString) (mode : Mode)
    (ids : List UInt64) (documents : Bytes) (sizes : List ℕ) : Checked (Status × ArrayDatabase) :=
  match s.collections name with
  | none => .ok (.NotFound, s)
  | some coll =>
    if mode.has .updateNew = false ∧ ids.any (fun id => coll.sizes.length ≤ id.toNat) then
      .ok (.InvalidID, s)
    else do
      let coll ← coll.updateIn ids documents sizes
      .ok (.OK, ⟨Function.update s.collections name (some coll)⟩)

namespace ArrayCollection

variable {coll coll' : ArrayCollection} {documents : Bytes}

/-- In bounds, the loop is the one of the model. -/
theorem updateLoopIn_eq (ids : List UInt64) (sizes : List ℕ) (docPtr offset : ℕ) :
    Ensures (fun e => e = .exception →
        updateLoop documents (ids.zip sizes) docPtr offset coll = none)
      (updateLoopIn documents ids sizes docPtr offset coll) (fun coll' =>
        updateLoop documents (ids.zip sizes) docPtr offset coll = some coll') := by
  induction ids generalizing sizes docPtr offset coll with
  | nil => exact rfl
  | cons id ids ih =>
    cases sizes with
    | nil => exact fun hfalse => by cases hfalse
    | cons size sizes =>
      unfold updateLoopIn
      rw [List.zip_cons_cons, updateLoop]
      cases createMissing (id.toNat + 1 - coll.sizes.length) coll with
      | none => exact fun _ => rfl
      | some coll₁ =>
        by_cases hdocuments : documents.length < docPtr + size
        · simp only [if_pos hdocuments]
          exact fun hfalse => by cases hfalse
        by_cases hdata : coll₁.data.length < offset + size
        · simp only [if_neg hdocuments, if_pos hdata]
          exact fun hfalse => by cases hfalse
        simp only [if_neg hdocuments, if_neg hdata]
        exact ih sizes _ _

/-- The vectors of a collection have one length. -/
structure Matched (coll : ArrayCollection) : Prop where
  length_offsets : coll.offsets.length = coll.sizes.length
  length_le : coll.sizes.length ≤ vectorMaxSize 8

theorem data_createMissing {n : ℕ} (hr : coll.createMissing n = some coll') :
    coll'.data = coll.data := by
  induction n generalizing coll with
  | zero =>
    obtain rfl := Option.some.inj hr
    rfl
  | succ n ih =>
    simp only [createMissing, Option.bind_eq_bind, Option.bind_eq_some_iff] at hr
    obtain ⟨sizes, -, offsets, -, hr⟩ := hr
    have hdata := ih hr
    exact hdata

theorem room_of_createMissing {n : ℕ} (hle : coll.sizes.length ≤ vectorMaxSize 8)
    (hr : coll.createMissing n = some coll') : coll.sizes.length + n ≤ vectorMaxSize 8 := by
  induction n generalizing coll with
  | zero => exact hle
  | succ n ih =>
    simp only [createMissing, Option.bind_eq_bind, Option.bind_eq_some_iff, pushBack_eq_some] at hr
    obtain ⟨sizes, ⟨hroom, rfl⟩, offsets, -, hr⟩ := hr
    have hrest := ih (by rw [List.length_append, List.length_singleton]; omega) hr
    rw [List.length_append, List.length_singleton] at hrest
    omega

/-- The ids up to `id` can be created if the vectors can become large enough. -/
theorem createMissing_cases (h : Matched coll) (id : ℕ) :
    (id < vectorMaxSize 8 ∧ ∃ coll', coll.createMissing (id + 1 - coll.sizes.length) = some coll' ∧
        Matched coll' ∧ coll'.data = coll.data) ∨
      vectorMaxSize 8 ≤ id ∧ coll.createMissing (id + 1 - coll.sizes.length) = none := by
  have hle := h.length_le
  rcases Nat.lt_or_ge id (vectorMaxSize 8) with hid | hid
  · obtain ⟨coll', hr⟩ := Option.isSome_iff_exists.1
      (@createMissing_isSome coll (id + 1 - coll.sizes.length) h.length_offsets (by omega))
    obtain ⟨hoffsets, hsizes⟩ := length_createMissing h.length_offsets hr
    exact Or.inl ⟨hid, coll', hr, ⟨hoffsets, by omega⟩, data_createMissing hr⟩
  · refine Or.inr ⟨hid, Option.eq_none_iff_forall_ne_some.2 fun coll' hr => ?_⟩
    have hroom := room_of_createMissing hle hr
    omega

/-- The ids of an update, up to the first one that the vectors cannot become large enough for. -/
def creatable (ids : List UInt64) : List UInt64 :=
  ids.takeWhile fun id => id.toNat < vectorMaxSize 8

/-- There is a size for each id that is reached, and the documents under the creatable ids lie in
memory of the given size, from an offset on. -/
def Covers (ids : List UInt64) (sizes : List ℕ) (docPtr size : ℕ) : Prop :=
  min ((creatable ids).length + 1) ids.length ≤ sizes.length ∧
    docPtr + (sizes.take (creatable ids).length).sum ≤ size

theorem covers_cons_creatable {id : UInt64} (hid : id.toNat < vectorMaxSize 8) (ids : List UInt64)
    (size : ℕ) (sizes : List ℕ) (docPtr n : ℕ) :
    Covers (id :: ids) (size :: sizes) docPtr n ↔ Covers ids sizes (docPtr + size) n := by
  have hcreatable : creatable (id :: ids) = id :: creatable ids :=
    List.takeWhile_cons_of_pos (decide_eq_true hid)
  unfold Covers
  rw [hcreatable, List.length_cons, List.length_cons, List.length_cons, List.take_succ_cons,
    List.sum_cons]
  omega

theorem covers_cons_of_le {id : UInt64} (hid : vectorMaxSize 8 ≤ id.toNat) (ids : List UInt64)
    (size : ℕ) (sizes : List ℕ) (docPtr n : ℕ) :
    Covers (id :: ids) (size :: sizes) docPtr n ↔ docPtr ≤ n := by
  have hcreatable : creatable (id :: ids) = [] :=
    List.takeWhile_cons_of_neg (by rw [decide_eq_true_eq]; exact Nat.not_lt.2 hid)
  unfold Covers
  rw [hcreatable]
  simp

/-- The loop is in bounds exactly if the request covers it. -/
theorem updateLoopIn_settles {ids : List UInt64} {sizes : List ℕ} {docPtr offset : ℕ}
    (h : Matched coll) (hdocPtr : docPtr ≤ documents.length)
    (hdata : offset + (documents.length - docPtr) ≤ coll.data.length) :
    Settles (Covers ids sizes docPtr documents.length)
      (updateLoopIn documents ids sizes docPtr offset coll) Matched := by
  induction ids generalizing coll sizes docPtr offset with
  | nil => exact ⟨⟨by simp, by simpa [creatable] using hdocPtr⟩, h⟩
  | cons id ids ih =>
    cases sizes with
    | nil =>
      refine Settles.overrun rfl fun hcovers => ?_
      have hcount := hcovers.1
      rw [List.length_cons, List.length_nil] at hcount
      omega
    | cons size sizes =>
      unfold updateLoopIn
      rcases createMissing_cases h id.toNat with ⟨hid, coll₁, hr, h₁, hsame⟩ | ⟨hid, hr⟩
      · rw [hr]
        refine Settles.congr ?_ (covers_cons_creatable hid ids size sizes docPtr _).symm
        by_cases hdocuments : documents.length < docPtr + size
        · simp only [if_pos hdocuments]
          refine Settles.overrun rfl fun hcovers => ?_
          have hsum := hcovers.2
          omega
        have hroom : ¬ coll₁.data.length < offset + size := by
          rw [hsame]
          omega
        simp only [if_neg hdocuments, if_neg hroom]
        have hlen : (slice documents docPtr size).length = size :=
          length_slice_of_le (Nat.not_lt.1 hdocuments)
        refine ih ⟨?_, ?_⟩ (Nat.not_lt.1 hdocuments) ?_
        · simpa only [List.length_set] using h₁.length_offsets
        · simpa only [List.length_set] using h₁.length_le
        · dsimp only
          rw [length_blit (by rw [hlen]; exact Nat.not_lt.1 hroom), hsame]
          omega
      · rw [hr]
        exact Settles.stopped rfl ((covers_cons_of_le hid ids size sizes docPtr _).2 hdocPtr)

/-- `m_data` can grow by `n` bytes. -/
def CanGrow (coll : ArrayCollection) (n : ℕ) : Prop :=
  max (2 * coll.data.length) (coll.data.length + n) ≤ vectorMaxSize 1

theorem updateIn_settles {ids : List UInt64} {sizes : List ℕ} (h : Matched coll) :
    Settles (coll.CanGrow documents.length → Covers ids sizes 0 documents.length)
      (coll.updateIn ids documents sizes) Matched := by
  unfold updateIn grow
  split_ifs with hgrow
  · refine Settles.congr (updateLoopIn_settles ⟨h.length_offsets, h.length_le⟩ (Nat.zero_le _) ?_)
      ⟨fun hcovers _ => hcovers, fun hcovers => hcovers hgrow⟩
    rw [List.length_append, List.length_replicate]
    omega
  · exact Settles.stopped rfl fun hcan => absurd hcan hgrow

end ArrayCollection

/-- In bounds, `docUpdate` is the one of the model. -/
theorem ArrayDatabase.docUpdateIn_eq (s : ArrayDatabase) (name : CString) (mode : Mode)
    (ids : List UInt64) (documents : Bytes) (sizes : List ℕ) :
    Ensures (fun e => e = .exception → s.docUpdate name mode ids documents sizes = none)
      (s.docUpdateIn name mode ids documents sizes)
      (fun r => s.docUpdate name mode ids documents sizes = some r) := by
  unfold docUpdateIn docUpdate
  cases s.collections name with
  | none => exact rfl
  | some coll =>
    dsimp only
    split_ifs with hinvalid
    · exact rfl
    · unfold ArrayCollection.updateIn
      cases coll.grow documents.length with
      | none => exact fun _ => rfl
      | some grown =>
        have hloop := @ArrayCollection.updateLoopIn_eq grown documents ids sizes 0 coll.data.length
        dsimp only [Option.bind_eq_bind, Option.bind_some]
        cases hr : grown.updateLoopIn documents ids sizes 0 coll.data.length with
        | error e =>
          rw [hr] at hloop
          intro he
          rw [hloop he]
          rfl
        | ok coll' =>
          rw [hr] at hloop
          have hsome : grown.updateLoop documents (ids.zip sizes) 0 coll.data.length = some coll' :=
            hloop
          rw [hsome]
          exact rfl

/-! ### Runs -/

/-- A call for a collection. -/
inductive CollectionCall
  | store (batch : DocBatch) (ids : List UInt64)
  | update (ids : List UInt64) (documents : Bytes) (sizes : List ℕ)
  | erase (ids : List UInt64)

namespace ArrayCollection

/-- A call that returns. The update is a direct one, whatever its request. -/
def Serves (coll : ArrayCollection) : CollectionCall → ArrayCollection → Prop
  | .store batch ids, coll' => batch.Holds ids.length ∧
    ∃ grown r, coll.grow batch.documents.length = some grown ∧
      grown.storeLoop batch.documents batch.sizes coll.sizes.length 0 coll.data.length [] =
        some (coll', r)
  | .update ids documents sizes, coll' => coll.updateIn ids documents sizes = .ok coll'
  | .erase ids, coll' => coll.eraseLoop ids = coll'

variable {coll coll' : ArrayCollection}

theorem storeLoop_matched {documents : Bytes} {sizes : List ℕ} {id docPtr offset : ℕ}
    {ids : List UInt64} {r : ArrayCollection × List UInt64} (h : Matched coll)
    (hr : storeLoop documents sizes id docPtr offset coll ids = some r) : Matched r.1 := by
  induction sizes generalizing coll id docPtr offset ids with
  | nil =>
    obtain rfl := Option.some.inj hr
    exact h
  | cons size sizes ih =>
    simp only [storeLoop, Option.bind_eq_bind, Option.bind_eq_some_iff, pushBack_eq_some] at hr
    obtain ⟨sizes', ⟨hroom, rfl⟩, offsets, ⟨-, rfl⟩, hr⟩ := hr
    refine ih ⟨?_, ?_⟩ hr
    · simp only [List.length_append, List.length_singleton, h.length_offsets]
    · rw [List.length_append, List.length_singleton]
      exact hroom

theorem eraseLoop_matched (ids : List UInt64) (h : Matched coll) :
    Matched (coll.eraseLoop ids) := by
  induction ids generalizing coll with
  | nil => exact h
  | cons id ids ih =>
    unfold eraseLoop
    by_cases hid : coll.sizes.length ≤ id.toNat
    · rw [if_pos hid]
      exact ih h
    · rw [if_neg hid]
      refine ih ⟨?_, ?_⟩
      · simpa only [List.length_set] using h.length_offsets
      · simpa only [List.length_set] using h.length_le

theorem serves_matched {call : CollectionCall} (h : Matched coll)
    (hserves : Serves coll call coll') : Matched coll' := by
  cases call with
  | store batch ids =>
    obtain ⟨-, grown, r, hgrow, hr⟩ := hserves
    unfold grow at hgrow
    split_ifs at hgrow
    obtain rfl := Option.some.inj hgrow
    have hgrown : Matched
        { coll with data := coll.data ++ List.replicate batch.documents.length 0 } :=
      ⟨h.length_offsets, h.length_le⟩
    exact storeLoop_matched hgrown hr
  | update ids documents sizes =>
    have hsettles := @updateIn_settles coll documents ids sizes h
    rw [show coll.updateIn ids documents sizes = .ok coll' from hserves] at hsettles
    exact hsettles.2
  | erase ids =>
    obtain rfl : coll.eraseLoop ids = coll' := hserves
    exact eraseLoop_matched ids h

/-- After any run, the vectors of the collection have one length. -/
theorem run_matched {calls : List CollectionCall} (hrun : Run Serves {} calls coll) :
    Matched coll :=
  hrun.invariant (fun _ _ _ h hserves => serves_matched h hserves) ⟨rfl, Nat.zero_le _⟩

end ArrayCollection

namespace ArrayDatabase

/-- Each collection is one that a run leads to. -/
def Reached (s : ArrayDatabase) : Prop :=
  ∀ name coll, s.collections name = some coll →
    ∃ calls, Run ArrayCollection.Serves {} calls coll

/-- A request that gets as far as the loop covers it. -/
def Validates (s : ArrayDatabase) (req : UpdateRequest) : Prop :=
  ∀ coll, s.collections req.collName = some coll → supportsMode req.mode = true →
    (req.mode.has .updateNew = true ∨ ∀ id ∈ req.ids, id.toNat < coll.sizes.length) →
    coll.CanGrow req.docs.length →
    ArrayCollection.Covers req.ids req.docSizes 0 req.docs.length

/-- The handler is in bounds exactly if the request covers what it gets through to. -/
theorem docUpdate_inBounds_iff {s : ArrayDatabase} (h : s.Reached) (req : UpdateRequest) :
    InBounds (ykDocUpdateDirectUlt supportsMode docUpdateIn s req) ↔ s.Validates req := by
  refine ykDocUpdateDirectUlt_inBounds_iff.trans ?_
  unfold docUpdateIn Validates
  cases hcoll : s.collections req.collName with
  | none => exact iff_of_true (fun _ => trivial) nofun
  | some coll =>
    obtain ⟨calls, hrun⟩ := h _ _ hcoll
    have hupdate := (@ArrayCollection.updateIn_settles coll req.docs req.ids req.docSizes
      (ArrayCollection.run_matched hrun)).inBounds_iff
    simp only [Option.some.injEq, forall_eq']
    refine imp_congr_right fun _ => ?_
    have hadmitted := @not_refused_iff (req.mode.has .updateNew)
      (fun id => coll.sizes.length ≤ id.toNat) req.ids
    simp only [decide_eq_false_iff_not, Nat.not_le] at hadmitted
    rw [← hadmitted]
    split_ifs with hrefused
    · exact iff_of_true trivial fun hnot => absurd hrefused hnot
    · rw [forall_prop_of_true hrefused, ← hupdate]
      exact inBounds_bind_ok

end ArrayDatabase

end Yokan
