import Yokan.SharedDocuments
import Yokan.PackedGet

/-!
# Yokan: `docLoad` on three backends

`docLoad` of `ArrayDatabase`, of `LogDatabase` and of the document mixin over a `MapDatabase`, on
databases that hold the same documents.

* Packed, the array and the log stop at the first document that does not fit, and the map goes on
  reporting absent ids;
* in slots, the log and the map go on to the next slot after a document that does not fit, and the
  array stays where it is;
* the log does not get at a document of a chunk that its cache has no room for.

`doc_load_same_iff` states when the three agree all the same.
-/

namespace Yokan

open Buffer ArrayCollection

/-! ### The documents that are copied -/

/-- Packed, each document that fits in `room` bytes together with those before it can be got at. -/
def PackedReach (reaches : UInt64 → Prop) (docs : UInt64 → Option Bytes) (ids : List UInt64)
    (room : ℕ) : Prop :=
  ∀ i : Fin ids.length, (docs ids[i]).isSome →
    ((ids.take (i + 1)).filterMap docs).flatten.length ≤ room → reaches ids[i]

/-- In slots, each document that fits in its slot can be got at. -/
def SlotsReach (reaches : UInt64 → Prop) (docs : UInt64 → Option Bytes) (ids : List UInt64)
    (slots : List ℕ) : Prop :=
  ∀ p ∈ ids.zip slots, ∀ doc, docs p.1 = some doc → doc.length ≤ p.2 → reaches p.1

/-- Each document that `docLoad` copies can be got at. -/
def CopiesReach (reaches : UInt64 → Prop) (docs : UInt64 → Option Bytes) (packed : Bool)
    (ids : List UInt64) (sizes : List ℕ) (n : ℕ) : Prop :=
  if packed then PackedReach reaches docs ids n else SlotsReach reaches docs ids sizes

section Reach

variable {reaches : UInt64 → Prop} {docs : UInt64 → Option Bytes}

theorem packedReach_cons (id : UInt64) (ids : List UInt64) (room : ℕ) :
    PackedReach reaches docs (id :: ids) room ↔
      ((docs id).isSome → ((docs id).getD []).length ≤ room → reaches id) ∧
        ∀ i : Fin ids.length, (docs ids[i]).isSome →
          ((docs id).getD []).length + ((ids.take (i + 1)).filterMap docs).flatten.length ≤ room →
            reaches ids[i] := by
  have htake : ∀ k, (((id :: ids).take (k + 1)).filterMap docs).flatten.length =
      ((docs id).getD []).length + ((ids.take k).filterMap docs).flatten.length := by
    intro k
    rw [List.take_succ_cons]
    cases hdoc : docs id with
    | none => rw [List.filterMap_cons_none hdoc]; simp
    | some doc =>
      rw [List.filterMap_cons_some hdoc, List.flatten_cons, List.length_append]
      rfl
  unfold PackedReach
  simp only [htake]
  constructor
  · intro h
    exact ⟨fun hsome hle => h ⟨0, Nat.succ_pos _⟩ hsome hle,
      fun i hsome hle => h i.succ hsome hle⟩
  · rintro ⟨hhead, htail⟩ ⟨i, hi⟩ hsome hle
    cases i with
    | zero => exact hhead hsome hle
    | succ i => exact htail ⟨i, Nat.lt_of_succ_lt_succ hi⟩ hsome hle

theorem packedReach_cons_none {id : UInt64} (hdoc : docs id = none) (ids : List UInt64)
    (room : ℕ) : PackedReach reaches docs (id :: ids) room ↔ PackedReach reaches docs ids room := by
  rw [packedReach_cons, hdoc]
  simp [PackedReach]

theorem packedReach_cons_fits {id : UInt64} {doc : Bytes} (hdoc : docs id = some doc)
    (ids : List UInt64) {room : ℕ} (hfits : doc.length ≤ room) :
    PackedReach reaches docs (id :: ids) room ↔
      reaches id ∧ PackedReach reaches docs ids (room - doc.length) := by
  rw [packedReach_cons, hdoc]
  refine and_congr (by simp [hfits]) (forall₂_congr fun i _ => imp_congr_left ?_)
  rw [Option.getD_some]
  omega

theorem packedReach_cons_full {id : UInt64} {doc : Bytes} (hdoc : docs id = some doc)
    (ids : List UInt64) {room : ℕ} (hfull : room < doc.length) :
    PackedReach reaches docs (id :: ids) room := by
  rw [packedReach_cons, hdoc]
  refine ⟨fun _ hle => absurd hle (Nat.not_le.2 hfull), fun i _ hle => ?_⟩
  rw [Option.getD_some] at hle
  omega

theorem slotsReach_cons (id : UInt64) (slot : ℕ) (ids : List UInt64) (slots : List ℕ) :
    SlotsReach reaches docs (id :: ids) (slot :: slots) ↔
      (∀ doc, docs id = some doc → doc.length ≤ slot → reaches id) ∧
        SlotsReach reaches docs ids slots := by
  unfold SlotsReach
  rw [List.zip_cons_cons, List.forall_mem_cons]

end Reach

/-! ### The array -/

namespace ArrayCollection

variable {coll : ArrayCollection} {used : ℕ} {m : IdMap Bytes}

/-- Packed, the array stops at the first document that does not fit. -/
theorem loadPackedLoop_until (h : Represents coll used m) {ids : List UInt64}
    {docPtr remaining : ℕ} {documents : Bytes} {sizes : List ℕ}
    (hptr : docPtr + remaining ≤ documents.length) :
    coll.loadPackedLoop ids docPtr remaining documents sizes =
      (blit documents docPtr (valuesUntilFull (docOf m) ids remaining).2,
        sizes ++ (valuesUntilFull (docOf m) ids remaining).1) := by
  induction ids generalizing docPtr remaining documents sizes with
  | nil => simp [loadPackedLoop, valuesUntilFull]
  | cons id ids ih =>
    unfold valuesUntilFull
    rcases h.record_eq id with ⟨hrecord, hdoc⟩ | ⟨offset, doc, hrecord, hdoc, hslice⟩
    · simp only [loadPackedLoop, hrecord, hdoc]
      rw [ih hptr, List.append_assoc]
      rfl
    · simp only [loadPackedLoop, hrecord, hdoc, hslice]
      by_cases hfull : remaining < doc.length
      · simp only [hfull, if_true, blit_nil]
      · have hrest : docPtr + doc.length ≤ documents.length := by omega
        simp only [hfull, if_false]
        rw [ih (by rw [length_blit hrest]; omega), blit_blit_adjacent hrest, List.append_assoc]
        rfl

/-- In slots, the array stays where it is after a document that does not fit. -/
theorem loadSlotsLoop_eq (h : Represents coll used m) {ids : List UInt64} {slots : List ℕ}
    {docPtr : ℕ} {documents : Bytes} {sizes : List ℕ} :
    coll.loadSlotsLoop (ids.zip slots) docPtr documents sizes =
      (fillStuck ((ids.map (docOf m)).zip slots) docPtr documents,
        sizes ++ List.zipWith (fun id slot => slotSize slot (docOf m id)) ids slots) := by
  induction ids generalizing slots docPtr documents sizes with
  | nil => simp [loadSlotsLoop, fillStuck]
  | cons id ids ih =>
    obtain - | ⟨slot, slots⟩ := slots
    · simp [loadSlotsLoop, fillStuck]
    · rcases h.record_eq id with ⟨hrecord, hdoc⟩ | ⟨offset, doc, hrecord, hdoc, hslice⟩
      · simp only [List.zip_cons_cons, List.map_cons, loadSlotsLoop, hrecord, hdoc, ih, fillStuck,
          List.zipWith_cons_cons, slotSize, List.append_assoc, List.singleton_append]
      · by_cases hfull : slot < doc.length
        · simp [loadSlotsLoop, hrecord, hfull, ih, hdoc, fillStuck, slotSize]
        · simp [loadSlotsLoop, hrecord, hslice, hfull, ih, hdoc, fillStuck, slotSize]

end ArrayCollection

/-! ### The log -/

namespace LogCollection

variable {c : LogCollection} {m : IdMap Bytes}

theorem read_cases (h : Represents c m ∅) (id : UInt64) (bufSize : ℕ) :
    (docOf m id = none ∧ ∃ status, (status = .NotFound ∨ status = .InvalidID) ∧
        c.read id bufSize = .ok (status, [], c)) ∨
      ∃ doc, docOf m id = some doc ∧
        (bufSize < doc.length ∧ c.read id bufSize = .ok (.SizeError, [], c) ∨
          doc.length ≤ bufSize ∧ c.read id bufSize =
            if c.Reaches (c.entries id.toNat).chunk then .ok (.OK, doc, c)
            else .error .emptyCache) := by
  have htorn := Set.notMem_empty id.toNat
  cases hdoc : m.docs id.toNat with
  | none =>
    refine Or.inl ⟨hdoc, ?_⟩
    rw [read_eq h htorn fun doc hsome => by rw [hdoc] at hsome; cases hsome]
    unfold readAnswer
    rw [hdoc]
    split_ifs
    · exact ⟨.InvalidID, Or.inr rfl, rfl⟩
    · exact ⟨.NotFound, Or.inl rfl, rfl⟩
  | some doc =>
    refine Or.inr ⟨doc, hdoc, ?_⟩
    obtain hfull | hfits := Nat.lt_or_ge bufSize doc.length
    · refine Or.inl ⟨hfull, ?_⟩
      have hlt : id.toNat < c.header.nextId := h.lt_next (by rw [hdoc]; rfl)
      rw [read_eq h htorn fun doc' hsome hle => ?_]
      · unfold readAnswer
        rw [h.next_eq, if_neg (Nat.not_le.2 hlt), hdoc]
        dsimp only
        rw [if_pos hfull]
      · rw [hdoc] at hsome
        cases hsome
        exact absurd hle (Nat.not_le.2 hfull)
    · exact Or.inr ⟨hfits, read_of_some h htorn hdoc hfits⟩

/-- Packed, the log stops at the first document that does not fit, if it gets so far. -/
theorem loadPackedLoop_until (h : Represents c m ∅) {ids : List UInt64} {docPtr remaining : ℕ}
    {documents : Bytes} {sizes : List ℕ} (hptr : docPtr + remaining ≤ documents.length) :
    let reach := PackedReach (fun id => c.Reaches (c.entries id.toNat).chunk) (docOf m) ids remaining
    reach ∧ loadPackedLoop ids docPtr remaining documents sizes c =
        .ok (.OK, blit documents docPtr (valuesUntilFull (docOf m) ids remaining).2,
          sizes ++ (valuesUntilFull (docOf m) ids remaining).1, c) ∨
      ¬ reach ∧ loadPackedLoop ids docPtr remaining documents sizes c = .error .emptyCache := by
  intro reach
  induction ids generalizing docPtr remaining documents sizes with
  | nil => exact Or.inl ⟨fun i => i.elim0, by simp [loadPackedLoop, valuesUntilFull]⟩
  | cons id ids ih =>
    unfold valuesUntilFull
    rcases read_cases h id remaining with ⟨hdoc, status, hstatus, hread⟩ | ⟨doc, hdoc, hread⟩
    · have hne : status ≠ .SizeError := by rcases hstatus with rfl | rfl <;> decide
      have hreach : reach ↔ _ := packedReach_cons_none hdoc ids remaining
      rw [hreach, loadPackedLoop, hread, hdoc]
      dsimp only [bind, Except.bind]
      rw [if_neg hne, if_pos hstatus]
      have hrest := @ih docPtr remaining documents (sizes ++ [keyNotFound]) hptr
      rw [List.append_assoc] at hrest
      exact hrest
    · obtain ⟨hfull, hread⟩ | ⟨hfits, hread⟩ := hread
      · refine Or.inl ⟨packedReach_cons_full hdoc ids hfull, ?_⟩
        rw [loadPackedLoop, hread, hdoc]
        simp [hfull, bind, Except.bind]
      · have hreach : reach ↔ _ := packedReach_cons_fits hdoc ids hfits
        have hrest : docPtr + doc.length ≤ documents.length := by omega
        rw [hreach, loadPackedLoop, hread, hdoc]
        by_cases hcached : c.Reaches (c.entries id.toNat).chunk
        · rw [and_iff_right hcached, if_pos hcached]
          simp only [Nat.not_lt.2 hfits, if_false, bind, Except.bind, reduceCtorEq, or_self, ne_eq,
            not_true]
          have hloop := @ih (docPtr + doc.length) (remaining - doc.length)
            (blit documents docPtr doc) (sizes ++ [doc.length])
            (by rw [length_blit hrest]; omega)
          rw [blit_blit_adjacent hrest, List.append_assoc] at hloop
          exact hloop
        · rw [if_neg hcached]
          exact Or.inr ⟨fun hall => hcached hall.1, rfl⟩

theorem loadSlotsLoop_eq (h : Represents c m ∅) {ids : List UInt64} {slots : List ℕ}
    {docPtr : ℕ} {documents : Bytes} {sizes : List ℕ} :
    let reach := SlotsReach (fun id => c.Reaches (c.entries id.toNat).chunk) (docOf m) ids slots
    reach ∧ loadSlotsLoop (ids.zip slots) docPtr documents sizes c =
        .ok (.OK, fill ((ids.map (docOf m)).zip slots) docPtr documents,
          sizes ++ List.zipWith (fun id slot => slotSize slot (docOf m id)) ids slots, c) ∨
      ¬ reach ∧ loadSlotsLoop (ids.zip slots) docPtr documents sizes c = .error .emptyCache := by
  intro reach
  induction ids generalizing slots docPtr documents sizes with
  | nil => exact Or.inl ⟨fun p hp => (by cases hp), by simp [loadSlotsLoop, fill]⟩
  | cons id ids ih =>
    obtain - | ⟨slot, slots⟩ := slots
    · exact Or.inl ⟨fun p hp => (by cases hp), by simp [loadSlotsLoop, fill]⟩
    · have hreach : reach ↔ _ := slotsReach_cons id slot ids slots
      rw [hreach, List.zip_cons_cons, loadSlotsLoop]
      rcases read_cases h id slot with ⟨hdoc, status, hstatus, hread⟩ | ⟨doc, hdoc, hread⟩
      · have hne : status ≠ .OK := by rcases hstatus with rfl | rfl <;> decide
        have hnone : ∀ doc, docOf m id = some doc → doc.length ≤ slot →
            c.Reaches (c.entries id.toNat).chunk := fun doc hsome => by rw [hdoc] at hsome; cases hsome
        rw [and_iff_right hnone, hread]
        dsimp only [bind, Except.bind]
        rw [if_neg hne, if_pos hstatus.symm]
        have hrest := @ih slots (docPtr + slot) documents (sizes ++ [keyNotFound])
        simp only [List.append_assoc, List.singleton_append] at hrest
        simpa only [List.map_cons, List.zip_cons_cons, hdoc, fill, List.zipWith_cons_cons,
          slotSize] using hrest
      · obtain ⟨hfull, hread⟩ | ⟨hfits, hread⟩ := hread
        · have hlarge : ∀ doc, docOf m id = some doc → doc.length ≤ slot →
              c.Reaches (c.entries id.toNat).chunk := by
            intro doc' hsome hle
            obtain rfl := Option.some.inj (hdoc.symm.trans hsome)
            exact absurd hle (Nat.not_le.2 hfull)
          have hrest := @ih slots (docPtr + slot) documents (sizes ++ [sizeTooSmall])
          simp only [List.append_assoc, List.singleton_append] at hrest
          rw [and_iff_right hlarge, hread]
          simpa [hfull, bind, Except.bind, hdoc, fill, slotSize] using hrest
        · have hone : (∀ doc, docOf m id = some doc → doc.length ≤ slot →
              c.Reaches (c.entries id.toNat).chunk) ↔ c.Reaches (c.entries id.toNat).chunk :=
            ⟨fun hall => hall doc hdoc hfits, fun hcached _ _ _ => hcached⟩
          have hrest := @ih slots (docPtr + slot) (blit documents docPtr doc)
            (sizes ++ [doc.length])
          simp only [List.append_assoc, List.singleton_append] at hrest
          rw [hone, hread]
          by_cases hcached : c.Reaches (c.entries id.toNat).chunk
          · rw [and_iff_right hcached, if_pos hcached]
            simpa [Nat.not_lt.2 hfits, bind, Except.bind, hdoc, fill, slotSize] using hrest
          · rw [if_neg hcached]
            exact Or.inr ⟨fun hall => hcached hall.1, rfl⟩

end LogCollection

/-! ### The mixin -/

namespace DocumentStoreMixin

open DatabaseInterface FiniteMapStore

variable {s : DocumentStoreMixin (MapDatabase .default)} {name : CString} {mode : Mode}
  {ids : List UInt64} {documents : Bytes} {sizes : List ℕ}

/-- `docLoad` is a `get` of the keys of the ids. -/
theorem docLoad_eq_get (documents : Bytes) (h : Coherent s) (hname : name.bytes ≠ []) {metadata : CollectionMetadata}
    (hmetadata : (s.view name).metadata = some metadata) (hwait : mode.has .wait = false)
    (packed : Bool) (hfit : KeysFit name ids) (hsizes : ids.length = sizes.length) :
    (s.docLoad name mode packed ids documents sizes).map (fun r => (r.1, r.2.1)) =
      some (.OK, (getWith (contents s.db) mode packed (ids.map (keyFromId name)).flatten
        (idKeySizes name ids) documents sizes).2) := by
  have hlen : (idKeySizes name ids).length = sizes.length := by rw [length_idKeySizes, hsizes]
  have hstatus : (get mode packed s.db (ids.map (keyFromId name)).flatten (idKeySizes name ids)
      documents sizes).status = .OK := (get_contents h.serving hwait (packed_keys hfit) hlen).1
  have hout : (get mode packed s.db (ids.map (keyFromId name)).flatten (idKeySizes name ids)
      documents sizes).out = _ := InMemory.get_out packed h.serving hwait (packed_keys hfit) hlen
  rw [docLoad, if_neg hname, collExistsImpl_spec h hname, hmetadata]
  simp only [ne_eq, not_true, if_false, Option.isSome_some, Bool.not_true, Bool.false_eq_true,
    keysFromIds_of_fit hfit, Option.map_some, hstatus, hout]
  rfl

theorem contents_keyFromId (s : DocumentStoreMixin (MapDatabase .default)) (name : CString) :
    (fun id => contents s.db (keyFromId name id)) = (s.view name).docs := rfl

end DocumentStoreMixin

/-! ### The three backends -/

/-- What the three backends answer: the status, the document buffer and the sizes. -/
def loadAnswers (array : ArrayDatabase) (log : LogDatabase)
    (mixin : DocumentStoreMixin (MapDatabase .default)) (name : CString) (mode : Mode)
    (packed : Bool) (ids : List UInt64) (documents : Bytes) (sizes : List ℕ) :
    List (Option (Status × Bytes × List ℕ)) :=
  [some (array.docLoad name packed ids documents sizes),
    (log.docLoad name packed ids documents sizes).toOption.map fun r => (r.1, r.2.1, r.2.2.1),
    (mixin.docLoad name mode packed ids documents sizes).map fun r => (r.1, r.2.1.vals, r.2.1.vsizes)]

/-- Each document that fits in the slot of its id is in `documents` after the slots of the ids
before it. -/
def InSlots (docs : UInt64 → Option Bytes) (ids : List UInt64) (sizes : List ℕ)
    (documents : Bytes) : Prop :=
  ∀ i id slot doc, ids[i]? = some id → sizes[i]? = some slot → docs id = some doc →
    doc.length ≤ slot → slice documents (sizes.take i).sum doc.length = doc

/-- Packed, the documents before each absent id fit together; in slots, no document is copied
after one that was left out of a slot with some room. -/
def LoadsAlike (docs : UInt64 → Option Bytes) (packed : Bool) (ids : List UInt64)
    (sizes : List ℕ) (n : ℕ) : Prop :=
  if packed then AbsentFit docs ids n
  else ((ids.map docs).zip sizes).Pairwise fun p q => Overflows p → ¬ Fills q

instance (docs : UInt64 → Option Bytes) (packed : Bool) (ids : List UInt64) (sizes : List ℕ)
    (n : ℕ) : Decidable (LoadsAlike docs packed ids sizes n) := by
  unfold LoadsAlike
  infer_instance

namespace SameDocuments

variable {array : ArrayDatabase} {log : LogDatabase}
  {mixin : DocumentStoreMixin (MapDatabase .default)} {name : CString} {m : IdMap Bytes}
  {mode : Mode} {ids : List UInt64} {documents : Bytes} {sizes : List ℕ}

open InMemory FiniteMapStore

/-- The answers when the documents are packed: the bytes are the same, and the sizes of the mixin
are those of `get`. The log has an answer if it gets at each document that it copies. -/
theorem loadAnswers_packed (h : SameDocuments array log mixin name m)
    (hwait : mode.has .wait = false) (hfit : KeysFit name ids)
    (hsizes : ids.length = sizes.length) (hdocuments : documents.length ≤ lastValidSize) :
    let r := valuesUntilFull (docOf m) ids documents.length
    let reach := PackedReach (log.Reaches name) (docOf m) ids documents.length
    ∃ answer, (reach ∧ answer = some (.OK, blit documents 0 r.2, r.1) ∨ ¬ reach ∧ answer = none) ∧
      loadAnswers array log mixin name mode true ids documents sizes =
        [some (.OK, blit documents 0 r.2, r.1), answer,
          some (.OK, blit documents 0 r.2, (packedValues (contents mixin.db)
            (ids.map (keyFromId name)) documents.length false).1)] := by
  intro r reach
  obtain ⟨coll, hcoll, hholds⟩ := h.array
  obtain ⟨c, hc, hrep⟩ := h.log
  obtain ⟨metadata, hmetadata⟩ := h.exists_metadata
  have hcount : r.1.length = sizes.length := by rw [length_valuesUntilFull, hsizes]
  have hkeys : (idKeySizes name ids).length = sizes.length := by rw [length_idKeySizes, hsizes]
  have hsnd : (packedValues (contents mixin.db) (ids.map (keyFromId name)) documents.length
      false).2 = r.2 := by
    rw [packedValues_snd, valuesUntilFull_map, DocumentStoreMixin.contents_keyFromId, h.docs_eq]
  have hmixin := DocumentStoreMixin.docLoad_eq_get documents h.coherent h.nonempty
    hmetadata hwait true hfit hsizes
  rw [getWith_packed hwait (packed_keys hfit) hkeys hdocuments, unpack_keys] at hmixin
  obtain ⟨⟨status, out, after⟩, hanswer, hout⟩ := Option.map_eq_some_iff.1 hmixin
  obtain ⟨rfl, rfl⟩ := Prod.mk.inj hout
  have hreach : reach ↔ PackedReach (fun id => c.Reaches (c.entries id.toNat).chunk) (docOf m) ids
      documents.length := by
    have hiff : log.Reaches name = fun id => c.Reaches (c.entries id.toNat).chunk :=
      funext fun id => propext (LogDatabase.reaches_iff hc id)
    unfold reach
    rw [hiff]
  have hloop := @LogCollection.loadPackedLoop_until c m hrep ids 0 documents.length documents []
    (Nat.zero_add _).le
  dsimp only at hloop
  rw [← hreach] at hloop
  unfold loadAnswers ArrayDatabase.docLoad LogDatabase.docLoad
  rw [hcoll, hc, hanswer]
  simp only [if_true, ArrayCollection.loadPackedLoop_until hholds.represents (Nat.zero_add _).le,
    List.nil_append, hcount, List.drop_length, List.append_nil, hsnd, r]
  refine ⟨_, ?_, rfl⟩
  obtain ⟨hyes, hloop⟩ | ⟨hno, hloop⟩ := hloop
  · rw [List.nil_append] at hloop
    have hdrop : sizes.drop (valuesUntilFull (docOf m) ids documents.length).1.length = [] := by
      rw [show (valuesUntilFull (docOf m) ids documents.length).1.length = sizes.length from hcount,
        List.drop_length]
    refine Or.inl ⟨hyes, ?_⟩
    simp only [hloop, bind, Except.bind, Except.toOption, Option.map_some, hdrop, List.append_nil]
  · refine Or.inr ⟨hno, ?_⟩
    simp only [hloop, bind, Except.bind, Except.toOption, Option.map_none]

/-- The sizes of the mixin are those of the other two when the documents before each absent id fit
together, and only then. -/
theorem marks_eq_iff (h : SameDocuments array log mixin name m) {n : ℕ} :
    (packedValues (contents mixin.db) (ids.map (keyFromId name)) n false).1 =
        (valuesUntilFull (docOf m) ids n).1 ↔
      AbsentFit (docOf m) ids n := by
  have hdocs : (fun id => contents mixin.db (keyFromId name id)) = docOf m := h.docs_eq
  have hiff := packedValues_eq_iff (m := contents mixin.db) (ids.map (keyFromId name)) n
  rw [Prod.ext_iff, packedValues_snd, valuesUntilFull_map, absentFit_map, hdocs] at hiff
  rw [← hiff]
  exact (and_iff_left rfl).symm

/-- The answers in slots: the array stays where it is after a document that does not fit, and the
log has an answer if it gets at each document that it copies. -/
theorem loadAnswers_slots (h : SameDocuments array log mixin name m)
    (hwait : mode.has .wait = false) (hfit : KeysFit name ids)
    (hsizes : ids.length = sizes.length) (hsum : sizes.sum < 2 ^ 64) :
    let slots := (ids.map (docOf m)).zip sizes
    let marks := List.zipWith (fun id slot => slotSize slot (docOf m id)) ids sizes
    let reach := SlotsReach (log.Reaches name) (docOf m) ids sizes
    ∃ answer,
      (reach ∧ answer = some (.OK, fill slots 0 documents, marks) ∨ ¬ reach ∧ answer = none) ∧
        loadAnswers array log mixin name mode false ids documents sizes =
          [some (.OK, fillStuck slots 0 documents, marks), answer,
            some (.OK, fill slots 0 documents, marks)] := by
  intro slots marks reach
  obtain ⟨coll, hcoll, hholds⟩ := h.array
  obtain ⟨c, hc, hrep⟩ := h.log
  obtain ⟨metadata, hmetadata⟩ := h.exists_metadata
  have hcount : marks.length = sizes.length := by simp [marks, hsizes]
  have hkeys : (idKeySizes name ids).length = sizes.length := by rw [length_idKeySizes, hsizes]
  have hdocs : ∀ id, contents mixin.db (keyFromId name id) = docOf m id := congrFun h.docs_eq
  have hmap : (ids.map (keyFromId name)).map (contents mixin.db) = ids.map (docOf m) := by
    rw [List.map_map]
    exact List.map_congr_left fun id _ => hdocs id
  have hmixin := DocumentStoreMixin.docLoad_eq_get documents h.coherent h.nonempty
    hmetadata hwait false hfit hsizes
  obtain ⟨⟨status, out, after⟩, hanswer, hout⟩ := Option.map_eq_some_iff.1 hmixin
  obtain ⟨rfl, rfl⟩ := Prod.mk.inj hout
  have hreach : reach ↔ SlotsReach (fun id => c.Reaches (c.entries id.toNat).chunk) (docOf m) ids
      sizes := by
    have hiff : log.Reaches name = fun id => c.Reaches (c.entries id.toNat).chunk :=
      funext fun id => propext (LogDatabase.reaches_iff hc id)
    unfold reach
    rw [hiff]
  have hloop := @LogCollection.loadSlotsLoop_eq c m hrep ids sizes 0 documents []
  dsimp only at hloop
  rw [← hreach] at hloop
  unfold loadAnswers ArrayDatabase.docLoad LogDatabase.docLoad
  rw [hcoll, hc, hanswer]
  simp only [Bool.false_eq_true, if_false, ArrayCollection.loadSlotsLoop_eq hholds.represents,
    List.nil_append, getWith_slots_vals (contents mixin.db) hwait (packed_keys hfit) hsum,
    getWith_slots_vsizes hwait (packed_keys hfit) hkeys, unpack_keys, hmap, hdocs,
    List.zipWith_map_left, Option.map_some]
  have hdrop : sizes.drop
      (List.zipWith (fun id slot => slotSize slot (docOf m id)) ids sizes).length = [] := by
    rw [hcount, List.drop_length]
  rw [hdrop, List.append_nil]
  refine ⟨_, ?_, rfl⟩
  obtain ⟨hyes, hloop⟩ | ⟨hno, hloop⟩ := hloop
  · rw [List.nil_append] at hloop
    refine Or.inl ⟨hyes, ?_⟩
    simp only [hloop, bind, Except.bind, Except.toOption, Option.map_some, hdrop, List.append_nil,
      slots, marks]
  · refine Or.inr ⟨hno, ?_⟩
    simp only [hloop, bind, Except.bind, Except.toOption, Option.map_none]

/-- Copied to their slots, the documents are where the slots begin. -/
theorem inSlots_fill {docs : UInt64 → Option Bytes} (hsizes : ids.length = sizes.length)
    (hsum : sizes.sum ≤ documents.length) :
    InSlots docs ids sizes (fill ((ids.map docs).zip sizes) 0 documents) := by
  intro i id slot doc hid hslot hdoc hle
  have hslots : ((ids.map docs).zip sizes).map Prod.snd = sizes :=
    List.map_snd_zip (by rw [List.length_map, hsizes])
  have hi : ((ids.map docs).zip sizes)[i]? = some (some doc, slot) := by
    rw [List.getElem?_zip_eq_some, List.getElem?_map, hid, Option.map_some, hdoc]
    exact ⟨rfl, hslot⟩
  have hslice := slice_fill (show 0 + (((ids.map docs).zip sizes).map Prod.snd).sum ≤
    documents.length by rwa [hslots, Nat.zero_add]) hi hle
  rwa [List.map_take, hslots, Nat.zero_add] at hslice

end SameDocuments

/-- `docLoad` does the same on the three backends, for every content of the document buffer, when
the documents and the slots satisfy `LoadsAlike` and the log gets at each document that it copies,
and only then. -/
theorem doc_load_same_iff {array : ArrayDatabase} {log : LogDatabase}
    {mixin : DocumentStoreMixin (MapDatabase .default)} {name : CString} {m : IdMap Bytes}
    (h : SameDocuments array log mixin name m) {mode : Mode} (hwait : mode.has .wait = false)
    {ids : List UInt64} (hfit : KeysFit name ids) {sizes : List ℕ}
    (hsizes : ids.length = sizes.length) {packed : Bool} {n : ℕ} (hn : n ≤ lastValidSize)
    (hroom : packed = false → sizes.sum ≤ n) :
    (∀ documents : Bytes, documents.length = n →
      SameAnswers (loadAnswers array log mixin name mode packed ids documents sizes) ∧
        (packed = false →
          ∀ answer ∈ loadAnswers array log mixin name mode packed ids documents sizes,
            ∃ status out marks, answer = some (status, out, marks) ∧
              InSlots (docOf m) ids sizes out)) ↔
      LoadsAlike (docOf m) packed ids sizes n ∧
        CopiesReach (log.Reaches name) (docOf m) packed ids sizes n := by
  have hlast : lastValidSize < 2 ^ 64 := by decide
  have hlen : (List.replicate n (0 : UInt8)).length = n := List.length_replicate
  unfold LoadsAlike CopiesReach
  cases packed with
  | true =>
    -- packed: the backends that answer differ in the sizes only, whatever the buffer holds
    rw [if_pos rfl, if_pos rfl, ← h.marks_eq_iff]
    constructor
    · intro hsame
      have hsame := (hsame _ hlen).1
      obtain ⟨answer, hanswer, hanswers⟩ := @SameDocuments.loadAnswers_packed array log mixin name m mode ids
        (List.replicate n 0) sizes h hwait hfit hsizes (by rwa [hlen])
      rw [hanswers] at hsame
      rw [hlen] at hsame hanswer
      constructor
      · have hlast := hsame _ (List.mem_cons_of_mem _ (List.mem_cons_of_mem _ List.mem_cons_self)) _
          List.mem_cons_self
        simpa using hlast
      · obtain ⟨hreach, -⟩ | ⟨-, rfl⟩ := hanswer
        · exact hreach
        · have hlog := hsame _ List.mem_cons_self _ (List.mem_cons_of_mem _ List.mem_cons_self)
          cases hlog
    · rintro ⟨hmarks, hreach⟩ documents hlen
      obtain ⟨answer, hanswer, hanswers⟩ := @SameDocuments.loadAnswers_packed array log mixin name m mode ids
        documents sizes h hwait hfit hsizes (by rwa [hlen])
      rw [hlen] at hanswer hanswers
      obtain ⟨-, rfl⟩ | ⟨hno, -⟩ := hanswer
      · rw [hanswers, hmarks]
        exact ⟨by simp [SameAnswers], fun hfalse => by cases hfalse⟩
      · exact absurd hreach hno
  | false =>
    -- slots: the buffers agree, whatever they held, exactly if `fillStuck` fills as `fill` does
    have : Nontrivial UInt8 := ⟨0, 1, by decide⟩
    have hsum : sizes.sum ≤ n := hroom rfl
    have hslots : ((ids.map (docOf m)).zip sizes).map Prod.snd = sizes :=
      List.map_snd_zip (by rw [List.length_map, hsizes])
    rw [if_neg Bool.false_ne_true, if_neg Bool.false_ne_true, ← fillStuck_eq_iff (show 0 +
      (((ids.map (docOf m)).zip sizes).map Prod.snd).sum ≤ n by rwa [hslots, Nat.zero_add])]
    have hanswers : ∀ documents, ∃ answer, _ ∧ loadAnswers array log mixin name mode false ids
        documents sizes = [_, answer, _] := fun documents =>
      @SameDocuments.loadAnswers_slots array log mixin name m mode ids documents sizes h hwait hfit hsizes
        (by omega)
    constructor
    · intro hall
      refine ⟨fun documents hlen => ?_, ?_⟩
      · have hsame := (hall documents hlen).1
        obtain ⟨answer, -, hanswers⟩ := hanswers documents
        rw [hanswers] at hsame
        have hsame := hsame _ List.mem_cons_self _ (List.mem_cons_of_mem _
          (List.mem_cons_of_mem _ List.mem_cons_self))
        simpa using hsame
      · have hsame := (hall _ hlen).1
        obtain ⟨answer, hanswer, hanswers⟩ := hanswers (List.replicate n 0)
        rw [hanswers] at hsame
        obtain ⟨hreach, -⟩ | ⟨-, rfl⟩ := hanswer
        · exact hreach
        · have hlog := hsame _ List.mem_cons_self _ (List.mem_cons_of_mem _ List.mem_cons_self)
          cases hlog
    · rintro ⟨hfill, hreach⟩ documents hlen
      obtain ⟨answer, hanswer, hanswers⟩ := hanswers documents
      obtain ⟨-, rfl⟩ | ⟨hno, -⟩ := hanswer
      · rw [hanswers, hfill documents hlen]
        refine ⟨by simp [SameAnswers], fun _ answer hanswer => ?_⟩
        simp only [List.mem_cons, List.not_mem_nil, or_false, or_self] at hanswer
        subst hanswer
        exact ⟨_, _, _, rfl, SameDocuments.inSlots_fill hsizes (by rwa [hlen])⟩
      · exact absurd hreach hno

/-- Two documents in slots of two bytes, packed in a buffer of three bytes, and packed with an absent
id behind the one that does not fit. -/
theorem doc_load_same_storeThree :
    ∃ array log mixin,
      (∀ documents : Bytes, documents.length = 4 →
        SameAnswers (loadAnswers array log mixin nameC .default false [0, 2] documents [2, 2])) ∧
      (∀ documents : Bytes, documents.length = 3 →
        SameAnswers (loadAnswers array log mixin nameC .default true [0, 1, 2] documents
          [0, 0, 0])) ∧
      ¬ ∀ documents : Bytes, documents.length = 1 →
        SameAnswers (loadAnswers array log mixin nameC .default true [0, 1] documents [0, 0]) := by
  obtain ⟨array, log, mixin, h, hreaches⟩ := exists_storeThree
  have hfit : ∀ ids : List UInt64, ids.length ≤ 3 → KeysFit nameC ids := by
    intro ids hlen
    have hsize : ids.length * (nameC.bytes.length + 1 + 8) ≤ 3 * (nameC.bytes.length + 1 + 8) :=
      Nat.mul_le_mul_right _ hlen
    exact lt_of_le_of_lt hsize (by decide)
  -- the equivalence on these databases, for the ids and the sizes of a request
  have hiff := fun ids sizes packed n hfit hsizes =>
    @doc_load_same_iff array log mixin nameC _ h .default (by decide) ids hfit sizes hsizes packed n
  refine ⟨array, log, mixin, fun documents hlen => ?_, fun documents hlen => ?_, fun hall => ?_⟩
  · refine ((hiff [0, 2] [2, 2] false 4 (hfit _ (by decide)) rfl (by decide) fun _ => by decide).2
      ⟨by decide, fun p _ _ _ _ => hreaches p.1⟩ documents hlen).1
  · refine ((hiff [0, 1, 2] [0, 0, 0] true 3 (hfit _ (by decide)) rfl (by decide)
      (fun hfalse => by cases hfalse)).2 ⟨by decide, fun i _ _ => hreaches _⟩ documents hlen).1
  · have halike := ((hiff [0, 1] [0, 0] true 1 (hfit _ (by decide)) rfl (by decide)
      (fun hfalse => by cases hfalse)).1 fun documents hlen =>
        ⟨hall documents hlen, fun hfalse => by cases hfalse⟩).1
    exact absurd halike (by decide)

/-- The array writes the second of two documents to the slot of the first, and the others to its
own. -/
theorem doc_load_differs :
    ¬ ∀ (array : ArrayDatabase) (log : LogDatabase)
      (mixin : DocumentStoreMixin (MapDatabase .default)) (name : CString) (m : IdMap Bytes),
      SameDocuments array log mixin name m →
        ∀ (packed : Bool) (ids : List UInt64) (documents : Bytes) (sizes : List ℕ),
          KeysFit name ids → ids.length = sizes.length →
            (packed = false → sizes.sum ≤ documents.length) →
              SameAnswers (loadAnswers array log mixin name .default packed ids documents sizes) := by
  intro hall
  obtain ⟨array, log, mixin, h, -⟩ := exists_storeThree
  have hfit : KeysFit nameC [0, 2] := by
    show _ < _
    decide
  have hsame := hall array log mixin nameC _ h false [0, 2] [0, 0] [1, 1] hfit rfl fun _ => by decide
  obtain ⟨answer, -, hanswers⟩ := @SameDocuments.loadAnswers_slots array log mixin nameC _ .default
    [0, 2] [0, 0] [1, 1] h (by decide) hfit rfl (by decide)
  rw [hanswers] at hsame
  have hfill := hsame _ List.mem_cons_self _ (List.mem_cons_of_mem _ (List.mem_cons_of_mem _
    List.mem_cons_self))
  revert hfill
  decide

end Yokan
