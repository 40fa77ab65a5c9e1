import Yokan.Array
import Yokan.Library.IdMap
import Yokan.Library.Transition

/-!
# Yokan: the `array` backend refines maps from ids to documents

`Represents` relates a collection to an `IdMap` of documents: the two vectors have one entry for
each id handed out, an entry that is not a hole lies inside the part of `m_data` in use and holds
the document of its id, and `m_count` counts these entries. The bodies of the loops keep it, with
the part in use growing by each document; `array_serves_documents` is what remains of it after any
run.
-/

namespace Yokan

open Buffer PartialMap Transition

namespace ArrayCollection

/-- The collection holds the documents of `m` in the first `used` bytes of `m_data`. -/
structure Represents (coll : ArrayCollection) (used : ℕ) (m : IdMap Bytes) : Prop where
  length_offsets : coll.offsets.length = coll.sizes.length
  length_le : coll.sizes.length ≤ vectorMaxSize 8
  used_le : used ≤ coll.data.length
  next_eq : m.next = coll.sizes.length
  count_eq : coll.count.toNat = coll.sizes.countP (· ≠ keyNotFound)
  fresh : m.Fresh
  entry : ∀ id offset size, coll.offsets[id]? = some offset → coll.sizes[id]? = some size →
    if size = keyNotFound then m.docs id = none
    else offset + size ≤ used ∧ m.docs id = some (slice coll.data offset size)

variable {coll coll' : ArrayCollection} {used : ℕ} {m : IdMap Bytes} {documents : Bytes}

theorem represents_empty : Represents {} 0 .empty where
  length_offsets := rfl
  length_le := Nat.zero_le _
  used_le := Nat.zero_le _
  next_eq := rfl
  count_eq := rfl
  fresh _ _ := rfl
  entry _ _ _ h := by simp at h

/-! ### One entry -/

/-- An id without document at the end. -/
theorem Represents.reach (h : Represents coll used m) (hroom : coll.sizes.length < vectorMaxSize 8) :
    Represents { coll with
      offsets := coll.offsets ++ [keyNotFound]
      sizes := coll.sizes ++ [keyNotFound] } used (m.reach coll.sizes.length) where
  length_offsets := by simp [h.length_offsets]
  length_le := by simpa using hroom
  used_le := h.used_le
  next_eq := by simp [IdMap.reach, h.next_eq]
  count_eq := by simp [h.count_eq]
  fresh id hid := h.fresh id (by simp only [IdMap.reach] at hid; omega)
  entry id offset size hoffset hsize := by
    dsimp only at hoffset hsize
    by_cases hid : id < coll.sizes.length
    · rw [List.getElem?_append_left (by rwa [h.length_offsets])] at hoffset
      rw [List.getElem?_append_left hid] at hsize
      exact h.entry id offset size hoffset hsize
    · have hlt : id < (coll.sizes ++ [keyNotFound]).length :=
        (List.getElem?_eq_some_iff.1 hsize).1
      have hlast : id = coll.sizes.length := by
        rw [List.length_append, List.length_singleton] at hlt
        omega
      rw [hlast, List.getElem?_concat_length, Option.some.injEq] at hsize
      rw [if_pos hsize.symm]
      exact h.fresh id (by rw [h.next_eq]; omega)

/-- `m_count` after an entry of the vector of sizes is overwritten. -/
theorem count_set (h : coll.count.toNat = coll.sizes.countP (· ≠ keyNotFound))
    (hlen : coll.sizes.length ≤ vectorMaxSize 8) {id size : ℕ} (hid : id < coll.sizes.length)
    (hsize : size ≠ keyNotFound) :
    (if coll.sizes[id]? = some keyNotFound then coll.count + 1 else coll.count).toNat =
      (coll.sizes.set id size).countP (· ≠ keyNotFound) := by
  have hle := List.countP_le_length (p := fun x => decide (x ≠ keyNotFound)) (l := coll.sizes)
  have hmax : vectorMaxSize 8 < 2 ^ 64 - 1 := by decide
  rw [List.countP_set hid, List.getElem?_eq_getElem hid]
  by_cases hold : coll.sizes[id] = keyNotFound
  · simp only [hold, if_true, ne_eq, not_true, decide_false, hsize, not_false_eq_true,
      decide_true, Bool.false_eq_true, if_false]
    rw [UInt64.toNat_add, UInt64.toNat_one, h, Nat.mod_eq_of_lt (by omega)]
    rfl
  · have hpos : 0 < coll.sizes.countP (· ≠ keyNotFound) :=
      List.countP_pos_iff.2 ⟨coll.sizes[id], List.getElem_mem hid, by simpa using hold⟩
    simp only [Option.some.injEq, hold, if_false, ne_eq, not_false_eq_true, decide_true, hsize,
      if_true, h]
    simp only [ne_eq] at hpos
    omega

/-- A document written behind the part in use. -/
theorem Represents.put (h : Represents coll used m) {id : ℕ} (hid : id < coll.sizes.length)
    {doc : Bytes} (hdoc : doc.length ≠ keyNotFound) (hroom : used + doc.length ≤ coll.data.length) :
    Represents ⟨blit coll.data used doc,
      if coll.sizes[id]? = some keyNotFound then coll.count + 1 else coll.count,
      coll.offsets.set id used, coll.sizes.set id doc.length⟩ (used + doc.length) (m.put id doc) where
  length_offsets := by simp [h.length_offsets]
  length_le := by simpa using h.length_le
  used_le := by rwa [length_blit hroom]
  next_eq := by
    rw [List.length_set, ← h.next_eq]
    simp only [IdMap.put]
    rw [← h.next_eq] at hid
    omega
  count_eq := count_set h.count_eq h.length_le hid hdoc
  fresh := IdMap.fresh_put h.fresh id doc
  entry id' offset size hoffset hsize := by
    dsimp only at hoffset hsize
    by_cases hid' : id' = id
    · subst hid'
      rw [List.getElem?_set_self (by rwa [h.length_offsets]), Option.some.injEq] at hoffset
      rw [List.getElem?_set_self hid, Option.some.injEq] at hsize
      subst hoffset hsize
      rw [if_neg hdoc, IdMap.docs_put, Function.update_self, slice_blit_same h.used_le]
      exact ⟨le_refl _, rfl⟩
    · rw [List.getElem?_set_ne (Ne.symm hid')] at hoffset hsize
      have hentry := h.entry id' offset size hoffset hsize
      rw [IdMap.docs_put, Function.update_of_ne hid']
      by_cases hhole : size = keyNotFound
      · rw [if_pos hhole] at hentry ⊢
        exact hentry
      · rw [if_neg hhole] at hentry ⊢
        rw [slice_blit_before h.used_le hentry.1]
        exact ⟨hentry.1.trans (Nat.le_add_right _ _), hentry.2⟩

/-- An entry turned into a hole. -/
theorem Represents.eraseOne (h : Represents coll used m) {id : ℕ} (hid : id < coll.sizes.length) :
    Represents { coll with
      count := if coll.sizes[id]? ≠ some keyNotFound then coll.count - 1 else coll.count
      sizes := coll.sizes.set id keyNotFound
      offsets := coll.offsets.set id keyNotFound } used (m.erase [id]) where
  length_offsets := by simp [h.length_offsets]
  length_le := by simpa using h.length_le
  used_le := h.used_le
  next_eq := by simp [h.next_eq]
  count_eq := by
    dsimp only
    rw [List.countP_set hid, List.getElem?_eq_getElem hid]
    by_cases hold : coll.sizes[id] = keyNotFound
    · simp [hold, h.count_eq]
    · have hpos : 0 < coll.sizes.countP (· ≠ keyNotFound) :=
        List.countP_pos_iff.2 ⟨coll.sizes[id], List.getElem_mem hid, by simpa using hold⟩
      have hone : (1 : UInt64) ≤ coll.count := by
        rw [UInt64.le_iff_toNat_le, h.count_eq, UInt64.toNat_one]
        omega
      simp only [ne_eq, Option.some.injEq, hold, not_false_eq_true, if_true, decide_true, not_true,
        decide_false, Bool.false_eq_true, if_false, Nat.add_zero]
      rw [UInt64.toNat_sub_of_le _ _ hone, h.count_eq, UInt64.toNat_one]
  fresh := IdMap.fresh_erase h.fresh [id]
  entry id' offset size hoffset hsize := by
    dsimp only at hoffset hsize
    have hdocs : (m.erase [id]).docs = Function.update m.docs id none := rfl
    rw [hdocs]
    by_cases hid' : id' = id
    · subst hid'
      rw [List.getElem?_set_self hid, Option.some.injEq] at hsize
      rw [if_pos hsize.symm, Function.update_self]
    · rw [List.getElem?_set_ne (Ne.symm hid')] at hoffset hsize
      rw [Function.update_of_ne hid']
      exact h.entry id' offset size hoffset hsize

/-! ### The loops -/

theorem pushBack_eq_some {v w : List ℕ} {x : ℕ} :
    pushBack v x = some w ↔ v.length < vectorMaxSize 8 ∧ v ++ [x] = w := by
  unfold pushBack
  split_ifs with h <;> simp [h]

theorem createMissing_represents {n : ℕ} (h : Represents coll used m)
    (hr : coll.createMissing n = some coll') :
    Represents coll' used ⟨m.next + n, m.docs⟩ ∧ coll'.data = coll.data := by
  induction n generalizing coll m with
  | zero =>
    obtain rfl := Option.some.inj hr
    exact ⟨h, rfl⟩
  | succ n ih =>
    simp only [createMissing, Option.bind_eq_bind, Option.bind_eq_some_iff, pushBack_eq_some] at hr
    obtain ⟨sizes, ⟨hroom, rfl⟩, offsets, ⟨-, rfl⟩, hr⟩ := hr
    obtain ⟨hrep, hdata⟩ := ih (h.reach hroom) hr
    have hnext : (m.reach coll.sizes.length).next + n = m.next + (n + 1) := by
      rw [IdMap.next_reach, ← h.next_eq]
      omega
    rw [hnext] at hrep
    exact ⟨hrep, hdata⟩

/-- The ids up to `id` exist after the inner loop of `docUpdate`. -/
theorem createMissing_reach {id : ℕ} (h : Represents coll used m)
    (hr : coll.createMissing (id + 1 - coll.sizes.length) = some coll') :
    Represents coll' used (m.reach id) ∧ coll'.data = coll.data ∧ id < coll'.sizes.length := by
  obtain ⟨hrep, hdata⟩ := createMissing_represents h hr
  have hnext : m.next + (id + 1 - coll.sizes.length) = max m.next (id + 1) := by
    rw [← h.next_eq]
    omega
  rw [hnext] at hrep
  refine ⟨hrep, hdata, ?_⟩
  rw [← hrep.next_eq]
  dsimp only
  omega

theorem updateLoop_represents {docs : List (UInt64 × ℕ)} {docPtr offset : ℕ}
    (h : Represents coll offset m) (hroom : offset + (docs.map Prod.snd).sum ≤ coll.data.length)
    (hdocuments : docPtr + (docs.map Prod.snd).sum ≤ documents.length)
    (hdata : coll.data.length ≤ vectorMaxSize 1)
    (hr : updateLoop documents docs docPtr offset coll = some coll') :
    Represents coll' (offset + (docs.map Prod.snd).sum)
      (m.write ((docs.map (fun p => p.1.toNat)).zip
        (unpack (documents.drop docPtr) (docs.map Prod.snd)))) ∧
      coll'.data.length = coll.data.length := by
  induction docs generalizing docPtr offset coll m with
  | nil =>
    obtain rfl := Option.some.inj hr
    exact ⟨h, rfl⟩
  | cons p docs ih =>
    obtain ⟨id, size⟩ := p
    simp only [List.map_cons, List.sum_cons] at hroom hdocuments ⊢
    simp only [updateLoop, Option.bind_eq_bind, Option.bind_eq_some_iff] at hr
    obtain ⟨coll₁, hmissing, hr⟩ := hr
    obtain ⟨hreach, hsame, hid⟩ := createMissing_reach h hmissing
    have hlen : (slice documents docPtr size).length = size := length_slice_of_le (by omega)
    have hsize : (slice documents docPtr size).length ≠ keyNotFound := by
      have hmax : vectorMaxSize 1 < keyNotFound := by decide
      rw [hlen]
      omega
    have hput := hreach.put hid hsize (by rw [hlen, hsame]; omega)
    rw [IdMap.put_reach, hlen] at hput
    have hlength : (blit coll₁.data offset (slice documents docPtr size)).length =
        coll.data.length := by
      rw [length_blit (by rw [hlen, hsame]; omega), hsame]
    obtain ⟨hrep, hlength'⟩ := ih hput (by rw [hlength]; omega) (by omega)
      (by rw [hlength]; exact hdata) hr
    refine ⟨?_, hlength'.trans hlength⟩
    rw [Nat.add_assoc] at hrep
    rw [unpack_cons, List.drop_drop, List.zip_cons_cons]
    exact hrep

theorem storeLoop_represents {docSizes : List ℕ} {id docPtr offset : ℕ} {ids ids' : List UInt64}
    (h : Represents coll offset m) (hid : id = coll.sizes.length)
    (hroom : offset + docSizes.sum ≤ coll.data.length)
    (hdocuments : docPtr + docSizes.sum ≤ documents.length)
    (hdata : coll.data.length ≤ vectorMaxSize 1)
    (hr : storeLoop documents docSizes id docPtr offset coll ids = some (coll', ids')) :
    Represents coll' (offset + docSizes.sum)
      (m.append (unpack (documents.drop docPtr) docSizes)) ∧
      coll'.data.length = coll.data.length ∧
      ids' = ids ++ (List.range' id docSizes.length).map UInt64.ofNat := by
  induction docSizes generalizing id docPtr offset coll m ids with
  | nil =>
    obtain ⟨rfl, rfl⟩ := Prod.mk.inj (Option.some.inj hr)
    exact ⟨h, rfl, by simp⟩
  | cons size docSizes ih =>
    simp only [List.sum_cons] at hroom hdocuments ⊢
    simp only [storeLoop, Option.bind_eq_bind, Option.bind_eq_some_iff, pushBack_eq_some] at hr
    obtain ⟨sizes, ⟨hlt, rfl⟩, offsets, ⟨-, rfl⟩, hr⟩ := hr
    subst hid
    have hlen : (slice documents docPtr size).length = size := length_slice_of_le (by omega)
    have hsize : (slice documents docPtr size).length ≠ keyNotFound := by
      have hmax : vectorMaxSize 1 < keyNotFound := by decide
      rw [hlen]
      omega
    -- a document at the end is an id without document that is then written to
    have hput : Represents _ _
        ((m.reach coll.sizes.length).put coll.sizes.length (slice documents docPtr size)) :=
      (h.reach hlt).put (by simp) hsize (by rw [hlen]; dsimp only; omega)
    rw [IdMap.put_reach, hlen] at hput
    have hset : ∀ (l : List ℕ) (n x : ℕ), n = l.length → (l ++ [keyNotFound]).set n x = l ++ [x] := by
      rintro l _ x rfl
      rw [List.set_append_right _ _ (le_refl _), Nat.sub_self]
      rfl
    rw [hset _ _ _ h.length_offsets.symm, hset _ _ _ rfl, List.getElem?_concat_length,
      if_pos rfl] at hput
    have hlength : (blit coll.data offset (slice documents docPtr size)).length =
        coll.data.length := length_blit (by rw [hlen]; omega)
    obtain ⟨hrep, hlength', hids⟩ := ih hput (by simp) (by rw [hlength]; omega) (by omega)
      (by rw [hlength]; exact hdata) hr
    refine ⟨?_, hlength'.trans hlength, ?_⟩
    · rw [Nat.add_assoc] at hrep
      rw [unpack_cons, List.drop_drop]
      rw [← h.next_eq] at hrep
      exact hrep
    · rw [hids, List.length_cons, List.range'_succ, List.map_cons, List.append_assoc]
      rfl

theorem eraseLoop_represents {ids : List UInt64} (h : Represents coll used m) :
    Represents (coll.eraseLoop ids) used (m.erase (ids.map UInt64.toNat)) ∧
      (coll.eraseLoop ids).data = coll.data := by
  induction ids generalizing coll m with
  | nil => exact ⟨h, rfl⟩
  | cons id ids ih =>
    have hcons : m.erase ((id :: ids).map UInt64.toNat) =
        (m.erase [id.toNat]).erase (ids.map UInt64.toNat) := rfl
    rw [eraseLoop, hcons]
    by_cases hlt : coll.sizes.length ≤ id.toNat
    · rw [if_pos hlt]
      have hnone : m.docs id.toNat = none := h.fresh _ (by rw [h.next_eq]; exact hlt)
      have hsame : m.erase [id.toNat] = m := by
        show (⟨m.next, Function.update m.docs id.toNat none⟩ : IdMap Bytes) = m
        rw [← hnone, Function.update_eq_self]
      rw [hsame]
      exact ih h
    · rw [if_neg hlt]
      exact ih (h.eraseOne (Nat.not_le.1 hlt))

/-! ### The loops end -/

theorem pushBack_of_lt {v : List ℕ} (h : v.length < vectorMaxSize 8) (x : ℕ) :
    pushBack v x = some (v ++ [x]) := if_pos h

theorem storeLoop_isSome {docSizes : List ℕ} {id docPtr offset : ℕ} {ids : List UInt64}
    (hlen : coll.offsets.length = coll.sizes.length)
    (hroom : coll.sizes.length + docSizes.length ≤ vectorMaxSize 8) :
    (storeLoop documents docSizes id docPtr offset coll ids).isSome := by
  induction docSizes generalizing id docPtr offset coll ids with
  | nil => rfl
  | cons size docSizes ih =>
    rw [List.length_cons] at hroom
    have hsizes := pushBack_of_lt (v := coll.sizes) (by omega) size
    have hoffsets := pushBack_of_lt (v := coll.offsets) (by omega) offset
    simp only [storeLoop, hsizes, hoffsets, Option.bind_eq_bind, Option.bind_some]
    refine ih ?_ ?_
    · simp [hlen]
    · rw [List.length_append, List.length_singleton]
      omega

theorem createMissing_isSome {n : ℕ} (hlen : coll.offsets.length = coll.sizes.length)
    (hroom : coll.sizes.length + n ≤ vectorMaxSize 8) : (coll.createMissing n).isSome := by
  induction n generalizing coll with
  | zero => rfl
  | succ n ih =>
    have hsizes := pushBack_of_lt (v := coll.sizes) (by omega) keyNotFound
    have hoffsets := pushBack_of_lt (v := coll.offsets) (by omega) keyNotFound
    simp only [createMissing, hsizes, hoffsets, Option.bind_eq_bind, Option.bind_some]
    refine ih ?_ ?_
    · simp [hlen]
    · rw [List.length_append, List.length_singleton]
      omega

theorem length_createMissing {n : ℕ} (hlen : coll.offsets.length = coll.sizes.length)
    (hr : coll.createMissing n = some coll') :
    coll'.offsets.length = coll'.sizes.length ∧
      coll'.sizes.length = coll.sizes.length + n := by
  induction n generalizing coll with
  | zero =>
    obtain rfl := Option.some.inj hr
    exact ⟨hlen, rfl⟩
  | succ n ih =>
    simp only [createMissing, Option.bind_eq_bind, Option.bind_eq_some_iff, pushBack_eq_some] at hr
    obtain ⟨sizes, ⟨-, rfl⟩, offsets, ⟨-, rfl⟩, hr⟩ := hr
    obtain ⟨hlen', hsizes⟩ := ih (by simp [hlen]) hr
    refine ⟨hlen', ?_⟩
    rw [hsizes, List.length_append, List.length_singleton]
    omega

theorem updateLoop_isSome {docs : List (UInt64 × ℕ)} {docPtr offset : ℕ}
    (hlen : coll.offsets.length = coll.sizes.length) (hle : coll.sizes.length ≤ vectorMaxSize 8)
    (hids : ∀ p ∈ docs, p.1.toNat < vectorMaxSize 8) :
    (updateLoop documents docs docPtr offset coll).isSome := by
  induction docs generalizing docPtr offset coll with
  | nil => rfl
  | cons p docs ih =>
    have hid := hids p List.mem_cons_self
    obtain ⟨coll₁, hmissing⟩ := Option.isSome_iff_exists.1
      (createMissing_isSome (n := p.1.toNat + 1 - coll.sizes.length) hlen (by omega))
    obtain ⟨hlen₁, hsizes₁⟩ := length_createMissing hlen hmissing
    simp only [updateLoop, hmissing, Option.bind_eq_bind, Option.bind_some]
    refine ih ?_ ?_ fun q hq => hids q (List.mem_cons_of_mem p hq)
    · simp [hlen₁]
    · rw [List.length_set]
      omega

/-! ### Reading -/

/-- The document under a 64-bit id. -/
def docOf (m : IdMap Bytes) (id : UInt64) : Option Bytes := m.docs id.toNat

/-- The record of an id is where its document is. -/
theorem Represents.record_eq (h : Represents coll used m) (id : UInt64) :
    (coll.record id = none ∧ docOf m id = none) ∨
      ∃ offset doc, coll.record id = some (offset, doc.length) ∧ docOf m id = some doc ∧
        slice coll.data offset doc.length = doc := by
  unfold record
  by_cases hid : id.toNat < coll.sizes.length
  · have hlt : id.toNat < coll.offsets.length := by rwa [h.length_offsets]
    have hoffset : coll.offsets[id.toNat]? = some coll.offsets[id.toNat] :=
      List.getElem?_eq_getElem hlt
    have hsize : coll.sizes[id.toNat]? = some coll.sizes[id.toNat] := List.getElem?_eq_getElem hid
    have hentry := h.entry _ _ _ hoffset hsize
    rw [hoffset, hsize]
    by_cases hhole : coll.sizes[id.toNat] = keyNotFound
    · rw [if_pos hhole] at hentry
      exact Or.inl ⟨if_pos hhole, hentry⟩
    · rw [if_neg hhole] at hentry
      obtain ⟨hle, hdoc⟩ := hentry
      have hlen := length_slice_of_le (hle.trans h.used_le)
      refine Or.inr ⟨_, _, ?_, hdoc, by rw [hlen]⟩
      simp only [hhole, if_false, hlen]
  · refine Or.inl ⟨?_, h.fresh _ (by rw [h.next_eq]; omega)⟩
    rw [List.getElem?_eq_none (by rw [h.length_offsets]; omega)]

theorem Represents.size_eq (h : Represents coll used m) (id : UInt64) :
    coll.sizes.getD id.toNat keyNotFound = entrySize (docOf m id) := by
  rw [List.getD_eq_getElem?_getD]
  cases hsize : coll.sizes[id.toNat]? with
  | none =>
    have hdoc : docOf m id = none := h.fresh _ (by
      rw [h.next_eq]
      exact List.getElem?_eq_none_iff.1 hsize)
    rw [hdoc]
    rfl
  | some size =>
    have hlt : id.toNat < coll.offsets.length := by
      rw [h.length_offsets]
      exact (List.getElem?_eq_some_iff.1 hsize).1
    have hrecord : coll.record id = if size = keyNotFound then none
        else some (coll.offsets[id.toNat], size) := by
      unfold record
      rw [List.getElem?_eq_getElem hlt, hsize]
    rcases h.record_eq id with ⟨hnone, hdoc⟩ | ⟨offset, doc, hsome, hdoc, -⟩
    · rw [hrecord, ite_eq_left_iff] at hnone
      rw [hdoc]
      exact not_not.1 fun hne => Option.some_ne_none _ (hnone hne)
    · rw [hrecord, Option.ite_none_left_eq_some, Option.some.injEq, Prod.mk.injEq] at hsome
      rw [hdoc]
      exact hsome.2.2

theorem loadPackedLoop_eq {ids : List UInt64} (h : Represents coll used m) {docPtr remaining : ℕ}
    {documents : Bytes} {sizes : List ℕ} (hptr : docPtr + remaining ≤ documents.length)
    (hroom : (ids.filterMap (docOf m)).flatten.length ≤ remaining) :
    coll.loadPackedLoop ids docPtr remaining documents sizes =
      (blit documents docPtr (ids.filterMap (docOf m)).flatten,
        sizes ++ ids.map (fun id => entrySize (docOf m id))) := by
  induction ids generalizing docPtr remaining documents sizes with
  | nil => simp [loadPackedLoop]
  | cons id ids ih =>
    rcases h.record_eq id with ⟨hrecord, hdoc⟩ | ⟨offset, doc, hrecord, hdoc, hslice⟩
    · rw [List.filterMap_cons_none hdoc] at hroom ⊢
      simp only [loadPackedLoop, hrecord]
      rw [ih hptr hroom, List.map_cons, hdoc, List.append_assoc]
      rfl
    · rw [List.filterMap_cons_some hdoc, List.flatten_cons] at hroom ⊢
      rw [List.length_append] at hroom
      have hfit : ¬ remaining < doc.length := Nat.not_lt.2 (le_of_add_le_left hroom)
      have hrest : docPtr + doc.length ≤ documents.length := by omega
      simp only [loadPackedLoop, hrecord, hfit, if_false, hslice]
      rw [ih (by rw [length_blit hrest]; omega) (Nat.le_sub_of_add_le' hroom),
        blit_blit_adjacent hrest, List.map_cons, hdoc, List.append_assoc]
      rfl

/-- The representation between two operations: all of `m_data` is in use. -/
structure Holds (coll : ArrayCollection) (m : IdMap Bytes) : Prop where
  represents : Represents coll coll.data.length m
  length_le : coll.data.length ≤ vectorMaxSize 1

theorem holds_empty : Holds {} .empty := ⟨represents_empty, Nat.zero_le _⟩

/-- `grow` leaves the documents where they are. -/
theorem Holds.grow (h : Holds coll m) {n : ℕ} (hr : coll.grow n = some coll') :
    Represents coll' coll.data.length m ∧ coll'.sizes = coll.sizes ∧
      coll'.data.length = coll.data.length + n ∧ coll'.data.length ≤ vectorMaxSize 1 := by
  unfold ArrayCollection.grow at hr
  split_ifs at hr with hroom
  obtain rfl := Option.some.inj hr
  have hlen : (coll.data ++ List.replicate n 0).length = coll.data.length + n := by simp
  have hrep := h.represents
  refine ⟨⟨hrep.length_offsets, hrep.length_le, ?_, hrep.next_eq, hrep.count_eq, hrep.fresh, ?_⟩,
    rfl, hlen, ?_⟩
  · rw [hlen]
    exact Nat.le_add_right _ _
  · intro id offset size hoffset hsize
    have hentry := hrep.entry id offset size hoffset hsize
    by_cases hhole : size = keyNotFound
    · rwa [if_pos hhole] at hentry ⊢
    · rw [if_neg hhole] at hentry ⊢
      rw [slice_append_left hentry.1]
      exact hentry
  · rw [hlen]
    exact le_trans (le_max_right _ _) hroom

end ArrayCollection

/-- As many sizes as documents, and the sizes sum to the size of the buffer. -/
def DocBatch.Exact (batch : DocBatch) (count : ℕ) : Prop :=
  count = batch.sizes.length ∧ batch.sizes.sum = batch.documents.length

/-- The operation passes as many sizes as ids, and exactly the documents. -/
def DocOp.Exact : DocOp → Prop
  | .store _ batch ids => batch.Exact ids.length
  | .update _ ids batch => batch.Exact ids.length
  | _ => True

/-- What an operation means for the documents of a collection that may not exist. -/
def docStep : Option (IdMap Bytes) → DocOp → Option (IdMap Bytes)
  | none, .create => some .empty
  | none, _ => none
  | some m, .create => some m
  | some _, .drop _ => none
  | some m, .store _ batch _ => some (m.append batch.docs)
  | some m, .update mode ids batch =>
    if mode.has .updateNew = false ∧ ids.any (fun id => m.next ≤ id.toNat) then some m
    else some (m.write ((ids.map UInt64.toNat).zip batch.docs))
  | some m, .erase _ ids => some (m.erase (ids.map UInt64.toNat))
  | some m, .load _ _ _ _ _ => some m

/-- What an operation means for a family of collections. -/
def docFamilyStep (f : CString → Option (IdMap Bytes)) (op : CString × DocOp) :
    CString → Option (IdMap Bytes) :=
  Function.update f op.1 (docStep (f op.1) op.2)

namespace ArrayDatabase

variable {s t : ArrayDatabase} {f : CString → Option (IdMap Bytes)} {name : CString}

open ArrayCollection

/-! ### Operations -/

/-- Every collection holds its documents. -/
def Refines (s : ArrayDatabase) (f : CString → Option (IdMap Bytes)) : Prop :=
  ∀ name, Option.Rel Holds (s.collections name) (f name)

theorem Refines.update (h : Refines s f) {coll : Option ArrayCollection} {m : Option (IdMap Bytes)}
    (hm : Option.Rel Holds coll m) :
    Refines ⟨Function.update s.collections name coll⟩ (Function.update f name m) := by
  intro n
  by_cases hn : n = name
  · subst hn
    simpa using hm
  · simpa [hn] using h n

theorem Refines.unchanged (h : Refines s f) (name : CString) :
    Refines s (Function.update f name (f name)) := by
  rwa [Function.update_eq_self]

theorem docStore_spec {coll : ArrayCollection} {m : IdMap Bytes} (h : Holds coll m)
    (hcoll : s.collections name = some coll) {batch : DocBatch} {ids assigned : List UInt64}
    (hexact : batch.Exact ids.length) {status : Status}
    (hr : s.docStore name batch.documents batch.sizes ids = some (status, assigned, t)) :
    status = .OK ∧ assigned = (List.range' coll.sizes.length ids.length).map UInt64.ofNat ∧
      ∃ coll', t = ⟨Function.update s.collections name (some coll')⟩ ∧
        Holds coll' (m.append batch.docs) := by
  obtain ⟨hcount, hsum⟩ := hexact
  simp only [docStore, hcoll, Option.bind_eq_bind, Option.bind_eq_some_iff, Option.some.injEq,
    Prod.mk.injEq] at hr
  obtain ⟨coll₁, hgrow, ⟨coll₂, assigned₂⟩, hloop, rfl, rfl, rfl⟩ := hr
  obtain ⟨hrep, hsizes, hlength, hmax⟩ := h.grow hgrow
  obtain ⟨hrep', hlength', rfl⟩ := storeLoop_represents hrep (by rw [hsizes])
    (by rw [hlength, hsum]) (by rw [Nat.zero_add, hsum]) hmax hloop
  refine ⟨rfl, ?_, coll₂, rfl, ?_, by rwa [hlength']⟩
  · rw [← hcount]
    simp
  · rw [hsum, ← hlength, ← hlength'] at hrep'
    exact hrep'

theorem docUpdate_spec {coll : ArrayCollection} {m : IdMap Bytes} (h : Holds coll m)
    (hcoll : s.collections name = some coll) {mode : Mode} {batch : DocBatch} {ids : List UInt64}
    (hexact : batch.Exact ids.length) {status : Status}
    (hr : s.docUpdate name mode ids batch.documents batch.sizes = some (status, t)) :
    if mode.has .updateNew = false ∧ ids.any (fun id => m.next ≤ id.toNat) then
      status = .InvalidID ∧ t = s
    else status = .OK ∧ ∃ coll', t = ⟨Function.update s.collections name (some coll')⟩ ∧
        Holds coll' (m.write ((ids.map UInt64.toNat).zip batch.docs)) := by
  obtain ⟨hcount, hsum⟩ := hexact
  simp only [docUpdate, hcoll, ← h.represents.next_eq] at hr
  split_ifs at hr ⊢ with hinvalid
  · obtain ⟨rfl, rfl⟩ := Prod.mk.inj (Option.some.inj hr)
    exact ⟨rfl, rfl⟩
  · simp only [Option.bind_eq_bind, Option.bind_eq_some_iff, Option.some.injEq,
      Prod.mk.injEq] at hr
    obtain ⟨coll₁, hgrow, coll₂, hloop, rfl, rfl⟩ := hr
    obtain ⟨hrep, hsizes, hlength, hmax⟩ := h.grow hgrow
    have hfst : (ids.zip batch.sizes).map (fun p => p.1.toNat) = ids.map UInt64.toNat := by
      have hcomp : (fun p : UInt64 × ℕ => p.1.toNat) = UInt64.toNat ∘ Prod.fst := rfl
      rw [hcomp, ← List.map_map, List.map_fst_zip (le_of_eq hcount)]
    have hsnd : (ids.zip batch.sizes).map Prod.snd = batch.sizes :=
      List.map_snd_zip (le_of_eq hcount.symm)
    obtain ⟨hrep', hlength'⟩ := updateLoop_represents hrep (by rw [hsnd, hlength, hsum])
      (by rw [hsnd, Nat.zero_add, hsum]) hmax hloop
    rw [hfst, hsnd, hsum, ← hlength, ← hlength'] at hrep'
    exact ⟨rfl, coll₂, rfl, hrep', by rwa [hlength']⟩

theorem docErase_spec {coll : ArrayCollection} {m : IdMap Bytes} (h : Holds coll m)
    (ids : List UInt64) : Holds (coll.eraseLoop ids) (m.erase (ids.map UInt64.toNat)) := by
  obtain ⟨hrep, hdata⟩ := eraseLoop_represents h.represents
  exact ⟨by rwa [hdata], by rw [hdata]; exact h.length_le⟩

/-! ### Runs -/

/-- A step of the database by an operation that passes exactly its documents. -/
def Step (s : ArrayDatabase) (op : CString × DocOp) (t : ArrayDatabase) : Prop :=
  op.2.Exact ∧ ∃ status, s.step op = some (status, t)

/-- Each operation acts on the documents of its collection. -/
theorem step_refines {op : CString × DocOp} (h : Refines s f) (hr : Step s op t) :
    Refines t (docFamilyStep f op) := by
  obtain ⟨name, op⟩ := op
  obtain ⟨hexact, status, hr⟩ := hr
  have hname := h name
  unfold docFamilyStep
  generalize hcoll : s.collections name = coll, hm : f name = m at hname
  cases hname with
  | none =>
    -- without the collection each call but `collCreate` returns before it does anything
    cases op with
    | create =>
      obtain ⟨-, rfl⟩ := Prod.mk.inj (Option.some.inj hr)
      simp only [hcoll, docStep]
      exact h.update (Option.Rel.some holds_empty)
    | _ =>
      simp only [step, collDrop, docStore, docUpdate, docErase, docLoad, hcoll, Option.map_some,
        Option.some.injEq, Prod.mk.injEq] at hr
      obtain ⟨-, rfl⟩ := hr
      simp only [docStep]
      rw [← hm]
      exact h.unchanged name
  | @some coll m hholds =>
    cases op with
    | create =>
      obtain ⟨-, rfl⟩ := Prod.mk.inj (Option.some.inj hr)
      simp only [hcoll, docStep]
      rw [← hm]
      exact h.unchanged name
    | drop mode =>
      obtain ⟨-, rfl⟩ := Prod.mk.inj (Option.some.inj hr)
      simp only [hcoll, docStep]
      exact h.update Option.Rel.none
    | store mode batch ids =>
      obtain ⟨⟨status', assigned, t'⟩, hstore, he⟩ := Option.map_eq_some_iff.1 hr
      obtain ⟨rfl, rfl⟩ := Prod.mk.inj he
      obtain ⟨-, -, coll', rfl, hholds'⟩ := docStore_spec hholds hcoll hexact hstore
      simp only [docStep]
      exact h.update (Option.Rel.some hholds')
    | update mode ids batch =>
      have hspec := docUpdate_spec hholds hcoll hexact hr
      simp only [docStep]
      split_ifs at hspec ⊢ with hinvalid
      · obtain ⟨-, rfl⟩ := hspec
        rw [← hm]
        exact h.unchanged name
      · obtain ⟨-, coll', rfl, hholds'⟩ := hspec
        exact h.update (Option.Rel.some hholds')
    | erase mode ids =>
      obtain ⟨-, rfl⟩ := Prod.mk.inj (Option.some.inj hr)
      simp only [hcoll, docStep]
      exact h.update (Option.Rel.some (docErase_spec hholds ids))
    | load mode packed ids documents sizes =>
      obtain ⟨-, rfl⟩ := Prod.mk.inj (Option.some.inj hr)
      simp only [docStep]
      rw [← hm]
      exact h.unchanged name

/-- A run of the database is a run of the documents of its collections. -/
theorem run_refines {ops : List (CString × DocOp)} (hrun : Run Step empty ops t) :
    Refines t (ops.foldl docFamilyStep (fun _ => none)) := by
  have hstep : ∀ s op t f, Refines s f → Step s op t → Refines t (docFamilyStep f op) :=
    fun _ _ _ _ => step_refines
  exact hrun.simulation hstep fun _ => Option.Rel.none

end ArrayDatabase

/-! ### What the operations answer -/

namespace ArrayCollection

/-- Vectors of one length, documents inside `m_data`, and a count of the documents. -/
structure WellFormed (coll : ArrayCollection) : Prop where
  length_offsets : coll.offsets.length = coll.sizes.length
  in_data : ∀ id offset size : ℕ, coll.offsets[id]? = some offset → coll.sizes[id]? = some size →
    size ≠ keyNotFound → offset + size ≤ coll.data.length
  count_eq : coll.count.toNat = coll.sizes.countP (· ≠ keyNotFound)

/-- The vectors of a collection can take `bytes` more bytes and `count` more ids. -/
def HasRoom (coll : ArrayCollection) (bytes count : ℕ) : Prop :=
  max (2 * coll.data.length) (coll.data.length + bytes) ≤ vectorMaxSize 1 ∧
    coll.sizes.length + count ≤ vectorMaxSize 8

theorem Holds.wellFormed {coll : ArrayCollection} {m : IdMap Bytes} (h : Holds coll m) :
    WellFormed coll where
  length_offsets := h.represents.length_offsets
  in_data id offset size hoffset hsize hhole := by
    have hentry := h.represents.entry id offset size hoffset hsize
    rw [if_neg hhole] at hentry
    exact hentry.1
  count_eq := h.represents.count_eq

/-- The ids from the length of the vectors on hold no document. -/
theorem Holds.docOf_assigned {coll : ArrayCollection} {m : IdMap Bytes} (h : Holds coll m) {n : ℕ}
    (hn : coll.sizes.length + n ≤ vectorMaxSize 8) {id : UInt64}
    (hid : id ∈ (List.range' coll.sizes.length n).map UInt64.ofNat) : docOf m id = none := by
  obtain ⟨i, hi, rfl⟩ := List.mem_map.1 hid
  rw [List.mem_range'_1] at hi
  have hmax : vectorMaxSize 8 < 2 ^ 64 := by decide
  refine h.represents.fresh _ ?_
  rw [h.represents.next_eq, UInt64.toNat_ofNat', Nat.mod_eq_of_lt (by omega)]
  exact hi.1

end ArrayCollection

namespace ArrayDatabase

variable {s t : ArrayDatabase} {name : CString}

open ArrayCollection

/-- The operations on a collection answer what the documents in `m` say. -/
structure ServesAs (s : ArrayDatabase) (name : CString) (coll : ArrayCollection)
    (m : IdMap Bytes) : Prop where
  wellFormed : WellFormed coll
  docStore : ∀ (batch : DocBatch) ids, batch.Exact ids.length →
    (HasRoom coll batch.documents.length ids.length →
      (s.docStore name batch.documents batch.sizes ids).isSome) ∧
    ∀ status assigned t,
      s.docStore name batch.documents batch.sizes ids = some (status, assigned, t) →
      status = .OK ∧ assigned = (List.range' coll.sizes.length ids.length).map UInt64.ofNat ∧
        ∀ id ∈ assigned, docOf m id = none
  docUpdate : ∀ mode ids (batch : DocBatch), batch.Exact ids.length →
    HasRoom coll batch.documents.length 0 → (∀ id ∈ ids, id.toNat < vectorMaxSize 8) →
      (s.docUpdate name mode ids batch.documents batch.sizes).isSome
  docSize : ∀ ids sizes, s.docSize name ids sizes =
    (.OK, ids.map (fun id => entrySize (docOf m id)) ++ sizes.drop ids.length)
  docLoad : ∀ ids documents sizes, (ids.filterMap (docOf m)).flatten.length ≤ documents.length →
    s.docLoad name true ids documents sizes =
      (.OK, blit documents 0 (ids.filterMap (docOf m)).flatten,
        ids.map (fun id => entrySize (docOf m id)) ++ sizes.drop ids.length)
  docFetch : ∀ {υ : Type} ids (func : υ → UInt64 → Option Bytes → Status × υ) (u : υ),
    s.docFetch name ids func u = (.OK, ids.foldl (fun u id => (func u id (docOf m id)).2) u)

theorem servesAs_of_holds {coll : ArrayCollection} {m : IdMap Bytes} (h : Holds coll m)
    (hcoll : s.collections name = some coll) : ServesAs s name coll m := by
  have hgrow : ∀ {bytes count}, HasRoom coll bytes count →
      coll.grow bytes = some { coll with data := coll.data ++ List.replicate bytes 0 } :=
    fun hroom => if_pos hroom.1
  constructor
  case wellFormed => exact h.wellFormed
  case docStore =>
    intro batch ids hexact
    refine ⟨fun hroom => ?_, fun status assigned t hstore => ?_⟩
    · have hloop : (storeLoop batch.documents batch.sizes coll.sizes.length 0 coll.data.length
          { coll with data := coll.data ++ List.replicate batch.documents.length 0 } []).isSome :=
        storeLoop_isSome h.represents.length_offsets (by rw [← hexact.1]; exact hroom.2)
      obtain ⟨r, hr⟩ := Option.isSome_iff_exists.1 hloop
      simp only [ArrayDatabase.docStore, hcoll, hgrow hroom, Option.bind_eq_bind, Option.bind_some,
        hr, Option.isSome_some]
    · obtain ⟨rfl, rfl, coll', -, hholds⟩ := docStore_spec h hcoll hexact hstore
      refine ⟨rfl, rfl, fun id hid => h.docOf_assigned ?_ hid⟩
      have hnext := hholds.represents.next_eq
      rw [IdMap.next_append, h.represents.next_eq, DocBatch.length_docs, ← hexact.1] at hnext
      rw [hnext]
      exact hholds.represents.length_le
  case docUpdate =>
    intro mode ids batch hexact hroom hids
    have hloop : (updateLoop batch.documents (ids.zip batch.sizes) 0 coll.data.length
        { coll with data := coll.data ++ List.replicate batch.documents.length 0 }).isSome :=
      updateLoop_isSome h.represents.length_offsets h.represents.length_le
        fun p hp => hids p.1 (List.of_mem_zip hp).1
    obtain ⟨r, hr⟩ := Option.isSome_iff_exists.1 hloop
    simp only [ArrayDatabase.docUpdate, hcoll]
    split_ifs
    · rfl
    · simp only [hgrow hroom, Option.bind_eq_bind, Option.bind_some, hr, Option.isSome_some]
  case docSize =>
    intro ids sizes
    simp only [ArrayDatabase.docSize, hcoll, h.represents.size_eq]
  case docLoad =>
    intro ids documents sizes hroom
    have hload : coll.loadPackedLoop ids 0 documents.length documents [] = _ :=
      loadPackedLoop_eq h.represents (by rw [Nat.zero_add]) hroom
    simp only [ArrayDatabase.docLoad, hcoll, if_true, hload, List.nil_append, List.length_map]
  case docFetch =>
    intro υ ids func u
    have hrecord : ∀ id, (coll.record id).map (fun r => slice coll.data r.1 r.2) = docOf m id := by
      intro id
      rcases h.represents.record_eq id with ⟨hnone, hdoc⟩ | ⟨offset, doc, hsome, hdoc, hslice⟩
      · rw [hnone, hdoc]
        rfl
      · rw [hsome, hdoc, Option.map_some, hslice]
    simp only [ArrayDatabase.docFetch, hcoll, hrecord]

/-- After any run, each collection has the documents of its map, and every operation answers what
the map says. -/
theorem array_serves_documents {ops : List (CString × DocOp)} (hrun : Run Step empty ops t)
    (name : CString) :
    Option.Rel (ServesAs t name) (t.collections name)
      (ops.foldl docFamilyStep (fun _ => none) name) := by
  have hname := run_refines hrun name
  generalize hcoll : t.collections name = coll, ops.foldl docFamilyStep (fun _ => none) name = m
    at hname ⊢
  cases hname with
  | none => exact Option.Rel.none
  | some hholds => exact Option.Rel.some (servesAs_of_holds hholds hcoll)

/-- A run that updates a document past the end, erases it, and stores a document. -/
theorem array_serves_documents_erased :
    ∃ t, Run Step empty [(nameC, .create), (nameC, .update .updateNew [2] (oneDoc 7)),
        (nameC, .erase .default [2]), (nameC, .store .default (oneDoc 8) [0])] t ∧
      Option.Rel (ServesAs t nameC) (t.collections nameC)
        ([(nameC, .create), (nameC, .update .updateNew [2] (oneDoc 7)),
          (nameC, .erase .default [2]),
          (nameC, .store .default (oneDoc 8) [0])].foldl docFamilyStep (fun _ => none) nameC) ∧
      t.docSize nameC [2, 3] [0, 0] = (.OK, [keyNotFound, 1]) := by
  have hcreate : Run Step empty [(nameC, .create)] _ :=
    Run.snoc (Run.nil empty) ⟨trivial, _, rfl⟩
  have hupdate : Run Step empty [(nameC, .create), (nameC, .update .updateNew [2] (oneDoc 7))] _ :=
    Run.snoc hcreate ⟨⟨rfl, rfl⟩, _, rfl⟩
  have herase : Run Step empty [(nameC, .create), (nameC, .update .updateNew [2] (oneDoc 7)),
      (nameC, .erase .default [2])] _ := Run.snoc hupdate ⟨trivial, _, rfl⟩
  have hstore : Run Step empty [(nameC, .create), (nameC, .update .updateNew [2] (oneDoc 7)),
      (nameC, .erase .default [2]), (nameC, .store .default (oneDoc 8) [0])] _ :=
    Run.snoc herase ⟨⟨rfl, rfl⟩, _, rfl⟩
  exact ⟨_, hstore, array_serves_documents hstore nameC, rfl⟩

end ArrayDatabase

end Yokan
