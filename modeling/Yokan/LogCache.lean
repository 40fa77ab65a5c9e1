import Yokan.LogDatabase
import Yokan.Library.Ensures

/-!
# Yokan: the chunks of a collection behind its cache

`getChunkFromID` takes a chunk that is not the last one from the cache of the collection. Whatever
chunks were asked for before, the cache has the chunk or maps it, unless it has room for none, in
which case it fails.

* `getChunkFromID_eq_cache`: so the size of the cache is all that matters of it;
* `cacheSize_append`, `cacheSize_update`, `cacheSize_erase`: and no operation changes it.
-/

namespace Yokan

namespace LRUCache

variable {α : Type} {c : LRUCache α} {make : UInt64 → α}

/-- What is made in a call is made for its id. -/
theorem get_made {id : UInt64} {r : Access α × LRUCache α} (h : c.get id make = some r) :
    r.1.id = id ∧ ∀ obj, r.1.made = some obj → obj = make id := by
  unfold get at h
  split at h <;> obtain ⟨x, -, rfl⟩ := Option.map_eq_some_iff.1 h
  · exact ⟨rfl, fun obj hmade => (Option.some.inj hmade).symm⟩
  · exact ⟨rfl, fun obj hmade => by cases hmade⟩

/-- Objects that are a function of their ids: in a sequence of calls, only these are made. -/
theorem gets_made {ids : List UInt64} {accesses : List (Access α)} {c' : LRUCache α}
    (h : c.gets (ids.map fun id => (id, make id)) = some (accesses, c')) :
    ∀ a ∈ accesses, ∀ obj, a.made = some obj → obj = make a.id := by
  induction ids using List.reverseRecOn generalizing accesses c' with
  | nil =>
    obtain ⟨rfl, -⟩ := Prod.mk.inj (Option.some.inj h)
    exact fun a ha => absurd ha List.not_mem_nil
  | append_singleton ids id ih =>
    rw [List.map_append, List.map_singleton, gets_concat] at h
    obtain ⟨⟨front, before⟩, hgets, hlast⟩ := Option.bind_eq_some_iff.1 h
    obtain ⟨r, hget, hr⟩ := Option.map_eq_some_iff.1 hlast
    obtain ⟨rfl, -⟩ := Prod.mk.inj hr
    obtain ⟨hid, hmade⟩ := get_made hget
    intro a ha obj hobj
    rcases List.mem_append.1 ha with ha | ha
    · exact ih hgets a ha obj hobj
    · rw [List.mem_singleton.1 ha] at hobj ⊢
      rw [hmade obj hobj, hid]

theorem lastMade_eq {accesses : List (Access α)}
    (h : ∀ a ∈ accesses, ∀ obj, a.made = some obj → obj = make a.id) {id : UInt64} {obj : α}
    (hlast : lastMade accesses id = some obj) : obj = make id := by
  obtain ⟨a, ha, hmade⟩ := List.exists_of_findSome?_eq_some hlast
  rw [List.mem_reverse] at ha
  split_ifs at hmade with hid
  rw [h a ha obj hmade, hid]

/-- A cache with room finds the object of an id, and a cache without room does not get so far. -/
theorem get_after_gets {cacheSize : UInt64} (make : UInt64 → α) (ids : List UInt64) (id : UInt64) :
    (((create cacheSize).gets (ids.map fun id => (id, make id))).bind fun s => s.2.get id make).map
        (fun r => r.1.result) =
      if cacheSizeOf cacheSize ≠ 0 then some (make id) else none := by
  split_ifs with hsize
  · obtain ⟨accesses, c, hgets, hmax, hcaches, -⟩ := gets_spec (Nat.pos_of_ne_zero hsize)
      (ids.map fun id => (id, make id))
    obtain ⟨a, c', hget, hid, -, -, hresult, -⟩ :=
      get_spec hcaches (hmax ▸ Nat.pos_of_ne_zero hsize) id make
    have hmade : ∀ a' ∈ accesses ++ [a], ∀ obj, a'.made = some obj → obj = make a'.id := by
      intro a' ha' obj hobj
      rcases List.mem_append.1 ha' with ha' | ha'
      · exact gets_made hgets a' ha' obj hobj
      · rw [List.mem_singleton.1 ha'] at hobj ⊢
        rw [(get_made hget).2 obj hobj, hid]
    rw [hgets, Option.bind_some, hget, Option.map_some, lastMade_eq hmade hresult]
  · cases ids with
    | nil =>
      show (((create cacheSize).get id make).map fun r => r.1.result) = none
      rw [get_create_eq_none (not_not.1 hsize)]
      rfl
    | cons first rest =>
      have hfirst : (create cacheSize).gets ((first :: rest).map fun id => (id, make id)) = none := by
        rw [gets, List.map_cons, List.foldlM_cons,
          get_create_eq_none (not_not.1 hsize) first fun _ => make first]
        rfl
      rw [hfirst]
      rfl

end LRUCache

namespace LogCollection

variable {c : LogCollection}

theorem hasRoom_iff : c.HasRoom ↔ c.cacheSize.toNat % 2 ^ 32 ≠ 0 :=
  Nat.pos_iff_ne_zero.symm.trans LRUCache.cacheSizeOf_pos_iff

/-- Whatever chunks were asked for before, the cache finds the file of a chunk, or it fails. -/
theorem getChunkFromID_eq_cache {k : ℕ} (hk : k < c.header.lastChunkId) (hlt : k < 2 ^ 64)
    (before : List UInt64) :
    c.getChunkFromID k =
      match (((LRUCache.create c.cacheSize).gets (before.map fun id => (id, id.toNat))).bind fun s =>
          s.2.get (UInt64.ofNat k) UInt64.toNat).map (fun r => r.1.result) with
      | some file => .ok (some (c.mapChunk file))
      | none => .error .emptyCache := by
  have hfile : (UInt64.ofNat k).toNat = k := by
    rw [UInt64.toNat_ofNat', Nat.mod_eq_of_lt hlt]
  rw [LRUCache.get_after_gets, hfile]
  unfold getChunkFromID
  rw [if_neg (Nat.ne_of_lt hk), if_neg (by omega), if_pos hk]
  by_cases hroom : c.HasRoom
  · have hsize : LRUCache.cacheSizeOf c.cacheSize ≠ 0 := hroom
    rw [if_pos hroom, if_pos hsize]
  · have hsize : ¬ LRUCache.cacheSizeOf c.cacheSize ≠ 0 := hroom
    rw [if_neg hroom, if_neg hsize]

/-! ### The size of the cache -/

/-- A chunk that is found, if any, does not change the size of the cache. -/
theorem cacheSize_getChunkFromID (k : ℕ) :
    Ensures (fun _ => True) (c.getChunkFromID k)
      (fun r => ∀ c', r = some c' → c'.cacheSize = c.cacheSize) := by
  unfold getChunkFromID
  split_ifs
  · exact fun c' hc' => Option.some.inj hc' ▸ rfl
  · exact fun c' hc' => Option.some.inj hc' ▸ rfl
  · exact fun c' hc' => Option.some.inj hc' ▸ rfl
  · exact trivial
  · exact fun c' hc' => by cases hc'

theorem cacheSize_derefChunk (k : ℕ) :
    Ensures (fun _ => True) (c.derefChunk k) (fun c' => c'.cacheSize = c.cacheSize) := by
  refine Ensures.bind (cacheSize_getChunkFromID k) fun r hr => ?_
  cases r with
  | none => exact trivial
  | some c' => exact hr c' rfl

theorem cacheSize_extend (newSize : ℕ) :
    Ensures (fun _ => True) (c.extend newSize) (fun c' => c'.cacheSize = c.cacheSize) := by
  unfold extend
  split_ifs <;> trivial

theorem cacheSize_writeEntryMetadata (id : ℕ) (e : EntryMetadata) :
    Ensures (fun _ => True) (c.writeEntryMetadata id e)
      (fun r => r.2.cacheSize = c.cacheSize) := by
  have hwrite : ∀ c' : LogCollection, c'.cacheSize = c.cacheSize →
      Ensures (fun _ => True)
        (if c'.metaSize < sizeofEntry + id * sizeofEntry + sizeofEntry then .ok (.SizeError, c')
          else .ok (.OK, { c' with entries := Function.update c'.entries id e }) :
            Outcome (Status × LogCollection))
        (fun r => r.2.cacheSize = c.cacheSize) := by
    intro c' hc'
    split_ifs <;> exact hc'
  unfold writeEntryMetadata
  dsimp only
  split_ifs with hgrow
  · exact Ensures.bind (cacheSize_extend _) hwrite
  · exact hwrite c rfl

theorem cacheSize_writeChunk (k offset : ℕ) (bytes : Bytes) :
    Ensures (fun _ => True) (c.writeChunk k offset bytes)
      (fun r => r.2.cacheSize = c.cacheSize) := by
  unfold writeChunk
  split_ifs <;> trivial

theorem cacheSize_makeSpace (nextOffset size : ℕ) :
    Ensures (fun _ => True) (c.makeSpace nextOffset size)
      (fun r => r.2.cacheSize = c.cacheSize) := by
  unfold makeSpace
  split_ifs
  · refine Ensures.bind (cacheSize_getChunkFromID _) fun r hr => ?_
    cases r with
    | none => exact rfl
    | some c' => exact hr c' rfl
  · exact rfl

theorem cacheSize_writeDocument (nextOffset : ℕ) (doc : Bytes) :
    Ensures (fun _ => True) (c.writeDocument nextOffset doc)
      (fun r => r.2.2.cacheSize = c.cacheSize) := by
  unfold writeDocument
  refine Ensures.bind (cacheSize_makeSpace _ _) ?_
  rintro ⟨offset, c₁⟩ h₁
  refine Ensures.bind (cacheSize_writeChunk _ _ _) ?_
  rintro ⟨status, c₂⟩ h₂
  dsimp only
  split_ifs
  · exact h₂.trans h₁
  · refine Ensures.bind (cacheSize_writeChunk _ _ _) ?_
    rintro ⟨status', c₃⟩ h₃
    exact h₃.trans (h₂.trans h₁)

theorem cacheSize_appendLoop (data : Bytes) (sizes : List ℕ) (docOffset nextOffset : ℕ)
    (ids : List UInt64) :
    Ensures (fun _ => True) (appendLoop data sizes docOffset nextOffset c ids)
      (fun r => r.2.2.cacheSize = c.cacheSize) := by
  induction sizes generalizing c docOffset nextOffset ids with
  | nil => exact rfl
  | cons size sizes ih =>
    unfold appendLoop
    refine Ensures.bind (cacheSize_writeDocument _ _) ?_
    rintro ⟨status, offset, c₁⟩ h₁
    dsimp only
    split_ifs
    · exact h₁
    · refine Ensures.bind (cacheSize_writeEntryMetadata _ _) ?_
      rintro ⟨status', c₂⟩ h₂
      dsimp only
      split_ifs
      · exact h₂.trans h₁
      · exact Ensures.mono (ih _ _ _) fun r hr => hr.trans (h₂.trans h₁)

theorem cacheSize_append (data : Bytes) (sizes : List ℕ) (ids : List UInt64) :
    Ensures (fun _ => True) (c.append data sizes ids) (fun r => r.2.2.cacheSize = c.cacheSize) := by
  unfold append
  split_ifs
  · exact rfl
  · have hnext : Ensures (fun _ => True) c.nextOffset (fun _ => True) := by
      cases c.nextOffset <;> trivial
    refine Ensures.bind hnext ?_
    rintro ⟨status, next⟩ -
    dsimp only
    split_ifs
    · exact rfl
    · refine Ensures.bind (cacheSize_appendLoop _ _ _ _ _) ?_
      rintro ⟨status', assigned, c₁⟩ h₁
      exact h₁

theorem cacheSize_createEntries (n : ℕ) :
    Ensures (fun _ => True) (createEntries n c) (fun r => r.2.cacheSize = c.cacheSize) := by
  induction n generalizing c with
  | zero => exact rfl
  | succ n ih =>
    unfold createEntries
    refine Ensures.bind (cacheSize_writeEntryMetadata _ _) ?_
    rintro ⟨status, c₁⟩ h₁
    dsimp only
    split_ifs
    · exact h₁
    · exact Ensures.mono ih fun r hr => hr.trans h₁

theorem cacheSize_countDocument (increment : Bool) :
    (c.countDocument increment).cacheSize = c.cacheSize := by
  cases increment <;> rfl

theorem cacheSize_overwrite (e : EntryMetadata) (doc : Bytes) :
    Ensures (fun _ => True) (c.overwrite e doc) (fun r => r.2.cacheSize = c.cacheSize) := by
  unfold overwrite
  split_ifs
  · refine Ensures.bind (cacheSize_derefChunk _) fun c' hc' => ?_
    exact Ensures.mono (cacheSize_writeChunk _ _ _) fun r hr => hr.trans hc'
  · exact rfl

theorem cacheSize_resizeEntry (id : ℕ) (e : EntryMetadata) (size : ℕ) :
    Ensures (fun _ => True) (c.resizeEntry id e size) (fun r => r.2.cacheSize = c.cacheSize) := by
  unfold resizeEntry
  split_ifs
  · exact cacheSize_writeEntryMetadata _ _
  · exact rfl

theorem cacheSize_inPlacePass (data : Bytes) (docs : List (UInt64 × ℕ)) (docOffset : ℕ)
    (es : List EntryMetadata) :
    Ensures (fun _ => True) (inPlacePass data docs docOffset c es)
      (fun r => r.2.2.cacheSize = c.cacheSize) := by
  induction docs generalizing c docOffset es with
  | nil => exact rfl
  | cons p docs ih =>
    obtain ⟨id, size⟩ := p
    unfold inPlacePass
    dsimp only
    split_ifs
    · exact rfl
    · exact ih _ _
    · refine Ensures.bind (cacheSize_overwrite _ _) ?_
      rintro ⟨status, c₁⟩ h₁
      dsimp only
      split_ifs
      · exact h₁
      · refine Ensures.bind (cacheSize_resizeEntry _ _ _) ?_
        rintro ⟨status', c₂⟩ h₂
        dsimp only
        split_ifs
        · exact h₂.trans h₁
        · refine Ensures.mono (ih _ _) fun r hr => ?_
          rw [hr, cacheSize_countDocument]
          exact h₂.trans h₁

theorem cacheSize_appendPass (data : Bytes) (docs : List ((UInt64 × ℕ) × EntryMetadata))
    (docOffset nextOffset : ℕ) :
    Ensures (fun _ => True) (appendPass data docs docOffset nextOffset c)
      (fun r => r.2.cacheSize = c.cacheSize) := by
  induction docs generalizing c docOffset nextOffset with
  | nil => exact rfl
  | cons p docs ih =>
    obtain ⟨⟨id, size⟩, e⟩ := p
    unfold appendPass
    split_ifs
    · exact ih _ _
    · refine Ensures.bind (cacheSize_writeDocument _ _) ?_
      rintro ⟨status, offset, c₁⟩ h₁
      dsimp only
      split_ifs
      · exact h₁
      · refine Ensures.bind (cacheSize_writeEntryMetadata _ _) ?_
        rintro ⟨status', c₂⟩ h₂
        dsimp only
        split_ifs
        · exact h₂.trans h₁
        · refine Ensures.mono (ih _ _) fun r hr => ?_
          rw [hr, cacheSize_countDocument]
          exact h₂.trans h₁

theorem cacheSize_update (ids : List UInt64) (data : Bytes) (sizes : List ℕ) :
    Ensures (fun _ => True) (c.update ids data sizes) (fun r => r.2.cacheSize = c.cacheSize) := by
  unfold update
  dsimp only
  split_ifs
  · exact rfl
  · exact trivial
  · refine Ensures.bind (cacheSize_createEntries _) ?_
    rintro ⟨status, c₁⟩ h₁
    dsimp only
    split_ifs
    · exact h₁
    · refine Ensures.bind (cacheSize_inPlacePass _ _ _ _) ?_
      rintro ⟨status', entries, c₂⟩ h₂
      dsimp only
      split_ifs
      · exact h₂.trans h₁
      · have hnext : Ensures (fun _ => True) c₂.nextOffset (fun _ => True) := by
          cases c₂.nextOffset <;> trivial
        refine Ensures.bind hnext ?_
        rintro ⟨status'', next⟩ -
        dsimp only
        split_ifs
        · exact h₂.trans h₁
        · refine Ensures.bind (cacheSize_appendPass _ _ _ _) ?_
          rintro ⟨last, c₃⟩ h₃
          exact h₃.trans (h₂.trans h₁)

theorem cacheSize_erase (id : UInt64) :
    Ensures (fun _ => True) (c.erase id) (fun r => r.2.cacheSize = c.cacheSize) := by
  unfold erase
  dsimp only
  split_ifs
  · exact rfl
  · exact rfl
  · exact rfl
  · refine Ensures.bind (cacheSize_writeEntryMetadata _ _) ?_
    rintro ⟨status, c₁⟩ h₁
    dsimp only
    split_ifs
    · exact h₁
    · exact h₁

end LogCollection

end Yokan
