import Yokan.Common

/-!
# Yokan: the key watcher

`KeyWatcher` (`include/yokan/watcher.hpp`), through which the readers of the in-memory backends wait
for a key. A reader registers the key (`addKey`) and then waits for it (`waitKey`); a writer marks
the entries of the keys that it stores (`notifyKey`).

Each function runs under the mutex of the watcher, which `waitKey` gives up while it is blocked on
the condition of its entry, so `waitKey` is two sections: `waitKey` up to the first wait, and `wake`
from a wakeup to the next wait. The destructor, which is where the status `Timeout` comes from, is
left out.

* `Watches`: the entries are in order, and no two of them have the same key or the same place;
* `lookup_eq`: with at most one entry for a key, `waitKey` finds the entry of its caller;
* `addKey_watches`, `notifyKey_watches`, `Watches.block`, `Watches.remove`: what each function does
  to the entries;
* `entriesOf_addKey`, `entriesOf_notifyKey`: the entries of other keys stay as they are.
-/

namespace Yokan

/-- `KeyWatcher::Status`. -/
inductive WatchStatus
  | Pending
  | KeyPresent
  | Timeout
  | LogicError
  deriving DecidableEq, Repr

/-- An entry of `m_expected_keys`, with the bytes and the address of its key. `node` is the place of
the entry, and `blocked` says that a thread is blocked on its condition. -/
structure WatchEntry where
  node : ℕ
  key : Bytes
  data : ℕ
  status : WatchStatus
  blocked : Bool
  deriving DecidableEq

/-- The place of an entry, and the key it is for. -/
structure Ticket where
  node : ℕ
  key : Bytes
  data : ℕ
  deriving DecidableEq

def WatchEntry.ticket (e : WatchEntry) : Ticket := ⟨e.node, e.key, e.data⟩

/-- `KeyWatcher`. The entries have the places below `nodes`. -/
structure KeyWatcher where
  expectedKeys : List WatchEntry
  nodes : ℕ
  deriving DecidableEq

/-- How a section of `waitKey` ends: blocked on the condition of an entry, or with a status. -/
inductive Waited
  | blocked (node : ℕ)
  | returned (status : WatchStatus)
  deriving DecidableEq

namespace KeyWatcher

/-- The watcher without entries. -/
def empty : KeyWatcher := ⟨[], 0⟩

/-- `KeyWatcher::addKey`: the multimap puts the entry after those of the same key. -/
def addKey (w : KeyWatcher) (key : Bytes) (data : ℕ) : KeyWatcher :=
  ⟨w.expectedKeys.orderedInsert (fun e f => e.key < f.key) ⟨w.nodes, key, data, .Pending, false⟩,
    w.nodes + 1⟩

/-- `KeyWatcher::notifyKey`: the entries of the key are marked, and the threads blocked on them may
go on. -/
def notifyKey (w : KeyWatcher) (key : Bytes) : KeyWatcher :=
  { w with
    expectedKeys := w.expectedKeys.map fun e =>
      if e.key = key then { e with status := .KeyPresent, blocked := false } else e }

/-- The entry that `waitKey` settles on, if any: the first one of its range. The loop over the range
does not advance; it has no result when the first entry of the key is at another address. An empty
range is only told from the end of the map. -/
def lookup (w : KeyWatcher) (key : Bytes) (data : ℕ) : Option (Option WatchEntry) :=
  match w.expectedKeys.dropWhile fun e => e.key < key with
  | [] => some none
  | e :: _ => if e.key = key ∧ e.data ≠ data then none else some (some e)

/-- The loop of `waitKey` on an entry, up to the next wait, or to its end and the removal of the
entry. -/
def wait (w : KeyWatcher) (e : WatchEntry) : KeyWatcher × Waited :=
  if e.status = .Pending then
    ({ w with
      expectedKeys := w.expectedKeys.map fun f =>
        if f.node = e.node then { f with blocked := true } else f }, .blocked e.node)
  else
    ({ w with expectedKeys := w.expectedKeys.eraseP fun f => f.node = e.node },
      .returned e.status)

/-- The first section of `KeyWatcher::waitKey`. -/
def waitKey (w : KeyWatcher) (key : Bytes) (data : ℕ) : Option (KeyWatcher × Waited) :=
  (w.lookup key data).map fun
    | none => (w, .returned .LogicError)
    | some e => w.wait e

/-- The section of `KeyWatcher::waitKey` after a wakeup. -/
def wake (w : KeyWatcher) (node : ℕ) : Option (KeyWatcher × Waited) :=
  (w.expectedKeys.find? fun e => e.node = node).bind fun e =>
    if e.blocked then none else some (w.wait e)

/-- The entries of a key. -/
def entriesOf (w : KeyWatcher) (key : Bytes) : List WatchEntry :=
  w.expectedKeys.filter fun e => e.key = key

/-! ### The entries -/

/-- The entries are in the order of their keys, each at a place of its own, and none of those that
are marked has a thread blocked on it. -/
structure Watches (w : KeyWatcher) : Prop where
  sorted : w.expectedKeys.Pairwise fun e f => ¬ f.key < e.key
  nodes : (w.expectedKeys.map WatchEntry.node).Nodup
  lt : ∀ e ∈ w.expectedKeys, e.node < w.nodes
  status : ∀ e ∈ w.expectedKeys, e.status = .Pending ∨ e.status = .KeyPresent ∧ e.blocked = false

variable {w : KeyWatcher} {e : WatchEntry} {key : Bytes} {data : ℕ}

theorem empty_watches : empty.Watches where
  sorted := List.Pairwise.nil
  nodes := List.nodup_nil
  lt e he := by cases he
  status e he := by cases he

/-- An entry among the others, which are at other places. -/
theorem exists_split (hnodes : (w.expectedKeys.map WatchEntry.node).Nodup)
    (he : e ∈ w.expectedKeys) :
    ∃ before after, w.expectedKeys = before ++ e :: after ∧
      ∀ f ∈ before ++ after, f.node ≠ e.node := by
  obtain ⟨before, after, heq⟩ := List.append_of_mem he
  rw [heq, List.map_append, List.map_cons, List.nodup_middle, List.nodup_cons] at hnodes
  refine ⟨before, after, heq, fun f hf heq => hnodes.1 ?_⟩
  rw [← List.map_append, ← heq]
  exact List.mem_map_of_mem hf

theorem Watches.split (hw : w.Watches) (he : e ∈ w.expectedKeys) :
    ∃ before after, w.expectedKeys = before ++ e :: after ∧
      ∀ f ∈ before ++ after, f.node ≠ e.node := exists_split hw.nodes he

/-- Entries at one place are the same. -/
theorem Watches.eq_of_node (hw : w.Watches) {f : WatchEntry} (he : e ∈ w.expectedKeys)
    (hf : f ∈ w.expectedKeys) (hnode : e.node = f.node) : e = f :=
  List.inj_on_of_nodup_map hw.nodes he hf hnode

/-! ### What `addKey` does -/

/-- The entry that `addKey` makes. -/
def newEntry (w : KeyWatcher) (key : Bytes) (data : ℕ) : WatchEntry :=
  ⟨w.nodes, key, data, .Pending, false⟩

theorem addKey_perm :
    (w.addKey key data).expectedKeys.Perm (w.newEntry key data :: w.expectedKeys) :=
  List.perm_orderedInsert _ _ _

theorem mem_addKey : e ∈ (w.addKey key data).expectedKeys ↔
    e = w.newEntry key data ∨ e ∈ w.expectedKeys := by
  rw [addKey_perm.mem_iff, List.mem_cons]

theorem sorted_orderedInsert (e : WatchEntry) {l : List WatchEntry}
    (hl : l.Pairwise fun e f => ¬ f.key < e.key) :
    (l.orderedInsert (fun e f => e.key < f.key) e).Pairwise fun e f => ¬ f.key < e.key := by
  induction l with
  | nil => exact List.pairwise_singleton _ _
  | cons f l ih =>
    obtain ⟨hf, hl⟩ := List.pairwise_cons.1 hl
    rw [List.orderedInsert]
    split_ifs with hlt
    · refine List.pairwise_cons.2 ⟨fun g hg hge => ?_, List.pairwise_cons.2 ⟨hf, hl⟩⟩
      rcases List.mem_cons.1 hg with rfl | hg
      · exact Std.lt_irrefl (Std.lt_trans hlt hge)
      · exact hf g hg (Std.lt_trans hge hlt)
    · refine List.pairwise_cons.2 ⟨fun g hg => ?_, ih hl⟩
      rcases (List.mem_orderedInsert _).1 hg with rfl | hg
      · exact hlt
      · exact hf g hg

theorem addKey_watches (hw : w.Watches) : (w.addKey key data).Watches where
  sorted := sorted_orderedInsert _ hw.sorted
  nodes := by
    rw [(addKey_perm.map _).nodup_iff, List.map_cons, List.nodup_cons]
    refine ⟨fun hmem => ?_, hw.nodes⟩
    obtain ⟨e, he, hnode⟩ := List.mem_map.1 hmem
    exact absurd (hw.lt e he) (by rw [hnode]; exact lt_irrefl _)
  lt e he := by
    rcases mem_addKey.1 he with rfl | he
    · exact Nat.lt_succ_self _
    · exact Nat.lt_succ_of_lt (hw.lt e he)
  status e he := by
    rcases mem_addKey.1 he with rfl | he
    · exact Or.inl rfl
    · exact hw.status e he

/-- `addKey` leaves the entries of other keys as they are. -/
theorem entriesOf_addKey {key' : Bytes} (hne : key ≠ key') :
    (w.addKey key data).entriesOf key' = w.entriesOf key' := by
  unfold entriesOf addKey
  induction w.expectedKeys with
  | nil => simp [hne]
  | cons f l ih =>
    dsimp only at ih ⊢
    rw [List.orderedInsert]
    split_ifs
    · rw [List.filter_cons_of_neg (by simpa using hne)]
    · rw [List.filter_cons, List.filter_cons, ih]

/-! ### What `notifyKey` does -/

/-- An entry, after `notifyKey`. -/
def notified (key : Bytes) (e : WatchEntry) : WatchEntry :=
  if e.key = key then { e with status := .KeyPresent, blocked := false } else e

@[simp] theorem notified_ticket : (notified key e).ticket = e.ticket := by
  unfold notified
  split_ifs <;> rfl

@[simp] theorem notified_node : (notified key e).node = e.node :=
  congrArg Ticket.node notified_ticket

@[simp] theorem notified_key {key' : Bytes} : (notified key' e).key = e.key :=
  congrArg Ticket.key notified_ticket

theorem notified_status (h : e.status = .Pending ∨ e.status = .KeyPresent ∧ e.blocked = false) :
    (notified key e).status = .Pending ∨
      (notified key e).status = .KeyPresent ∧ (notified key e).blocked = false := by
  unfold notified
  split_ifs
  · exact Or.inr ⟨rfl, rfl⟩
  · exact h

theorem notifyKey_expectedKeys :
    (w.notifyKey key).expectedKeys = w.expectedKeys.map (notified key) := rfl

theorem notifyKey_watches (hw : w.Watches) : (w.notifyKey key).Watches where
  sorted := by
    rw [notifyKey_expectedKeys, List.pairwise_map]
    simpa using hw.sorted
  nodes := by
    rw [notifyKey_expectedKeys, List.map_map]
    simpa [Function.comp_def] using hw.nodes
  lt e he := by
    obtain ⟨f, hf, rfl⟩ := List.mem_map.1 (notifyKey_expectedKeys ▸ he)
    exact notified_node.trans_lt (hw.lt f hf)
  status e he := by
    obtain ⟨f, hf, rfl⟩ := List.mem_map.1 (notifyKey_expectedKeys ▸ he)
    exact notified_status (hw.status f hf)

/-- `notifyKey` leaves the entries of other keys as they are. -/
theorem entriesOf_notifyKey {key' : Bytes} (hne : key ≠ key') :
    (w.notifyKey key).entriesOf key' = w.entriesOf key' := by
  have hsame : (fun e : WatchEntry => decide (e.key = key')) ∘ notified key =
      fun e => decide (e.key = key') := by
    funext e
    simp
  unfold entriesOf
  rw [notifyKey_expectedKeys, List.filter_map, hsame]
  refine (List.map_congr_left fun e he => ?_).trans (List.map_id _)
  have hkey : e.key = key' := by simpa using (List.mem_filter.1 he).2
  exact if_neg fun h => hne (h.symm.trans hkey)

/-! ### What `waitKey` does -/

/-- With at most one entry for each key, `waitKey` finds the entry that its caller has added. -/
theorem lookup_eq (hw : w.Watches) (hone : (w.expectedKeys.map WatchEntry.key).Nodup)
    (he : e ∈ w.expectedKeys) : w.lookup e.key e.data = some (some e) := by
  obtain ⟨before, after, heq⟩ := List.append_of_mem he
  have hsorted := hw.sorted
  rw [heq] at hone hsorted
  rw [List.map_append, List.map_cons, List.nodup_middle, List.nodup_cons] at hone
  have hbefore : ∀ f ∈ before, f.key < e.key := by
    intro f hf
    have hle : ¬ e.key < f.key :=
      (List.pairwise_append.1 hsorted).2.2 f hf e (List.mem_cons_self)
    have hne : f.key ≠ e.key := fun h => hone.1 (by
      rw [← List.map_append, ← h]
      exact List.mem_map_of_mem (List.mem_append_left _ hf))
    rcases Std.lt_trichotomy f.key e.key with hlt | heq | hgt
    · exact hlt
    · exact absurd heq hne
    · exact absurd hgt hle
  have hdrop : (w.expectedKeys.dropWhile fun f => f.key < e.key) = e :: after := by
    rw [heq, List.dropWhile_append_of_pos (by simpa using hbefore),
      List.dropWhile_cons_of_neg (by simp)]
  unfold lookup
  rw [hdrop]
  simp

/-- The loop of `waitKey` blocks on an entry that is not marked. -/
theorem wait_pending (hpending : e.status = .Pending) {before after : List WatchEntry}
    (heq : w.expectedKeys = before ++ e :: after)
    (hne : ∀ f ∈ before ++ after, f.node ≠ e.node) :
    w.wait e = (⟨before ++ { e with blocked := true } :: after, w.nodes⟩, .blocked e.node) := by
  have hkeep : ∀ l : List WatchEntry, (∀ f ∈ l, f.node ≠ e.node) →
      (l.map fun f => if f.node = e.node then { f with blocked := true } else f) = l := by
    intro l hl
    exact (List.map_congr_left fun f hf => if_neg (hl f hf)).trans (List.map_id l)
  rw [List.forall_mem_append] at hne
  unfold wait
  rw [if_pos hpending, heq, List.map_append, List.map_cons, hkeep before hne.1, hkeep after hne.2,
    if_pos rfl]

/-- It ends on one that is, and removes it. -/
theorem wait_marked (hmarked : e.status ≠ .Pending) {before after : List WatchEntry}
    (heq : w.expectedKeys = before ++ e :: after)
    (hne : ∀ f ∈ before ++ after, f.node ≠ e.node) :
    w.wait e = (⟨before ++ after, w.nodes⟩, .returned e.status) := by
  rw [List.forall_mem_append] at hne
  unfold wait
  rw [if_neg hmarked, heq, List.eraseP_append_right _ (by simpa using hne.1),
    List.eraseP_cons_of_pos (by simp)]

/-- `waitKey` of the reader that has added an entry. -/
theorem waitKey_eq (hw : w.Watches) (hone : (w.expectedKeys.map WatchEntry.key).Nodup)
    (he : e ∈ w.expectedKeys) : w.waitKey e.key e.data = some (w.wait e) := by
  unfold waitKey
  rw [lookup_eq hw hone he]
  rfl

/-- A wakeup, and what follows it. -/
theorem wake_eq (hnodes : (w.expectedKeys.map WatchEntry.node).Nodup) (he : e ∈ w.expectedKeys) :
    w.wake e.node = if e.blocked then none else some (w.wait e) := by
  obtain ⟨before, after, heq, hne⟩ := exists_split hnodes he
  have hfind : (w.expectedKeys.find? fun f => f.node = e.node) = some e := by
    have hbefore : (before.find? fun f => f.node = e.node) = none :=
      List.find?_eq_none.2 (by simpa using (List.forall_mem_append.1 hne).1)
    rw [heq, List.find?_append, hbefore, Option.none_or, List.find?_cons_of_pos (by simp)]
  unfold wake
  rw [hfind]
  rfl

/-- The entries, with a thread blocked on one that is not marked. -/
theorem Watches.block (hw : w.Watches) {before after : List WatchEntry}
    (heq : w.expectedKeys = before ++ e :: after) (hpending : e.status = .Pending) :
    Watches ⟨before ++ { e with blocked := true } :: after, w.nodes⟩ := by
  obtain ⟨hsorted, hnodes, hlt, hstatus⟩ := hw
  rw [heq] at hsorted hnodes hlt hstatus
  refine ⟨?_, by simpa using hnodes, ?_, ?_⟩
  · rw [List.pairwise_append, List.pairwise_cons] at hsorted ⊢
    obtain ⟨hbefore, ⟨he, hafter⟩, hcross⟩ := hsorted
    refine ⟨hbefore, ⟨he, hafter⟩, fun f hf g hg => ?_⟩
    rcases List.mem_cons.1 hg with rfl | hg
    · exact hcross f hf e List.mem_cons_self
    · exact hcross f hf g (List.mem_cons_of_mem _ hg)
  · simp only [List.forall_mem_append, List.forall_mem_cons] at hlt ⊢
    exact hlt
  · simp only [List.forall_mem_append, List.forall_mem_cons] at hstatus ⊢
    exact ⟨hstatus.1, Or.inl hpending, hstatus.2.2⟩

/-- The entries without one of them. -/
theorem Watches.remove (hw : w.Watches) {before after : List WatchEntry}
    (heq : w.expectedKeys = before ++ e :: after) : Watches ⟨before ++ after, w.nodes⟩ := by
  have hsub : (before ++ after).Sublist w.expectedKeys := by
    rw [heq]
    exact (List.sublist_cons_self e after).append_left before
  exact ⟨hw.sorted.sublist hsub, hw.nodes.sublist (hsub.map _),
    fun f hf => hw.lt f (hsub.subset hf), fun f hf => hw.status f (hsub.subset hf)⟩

end KeyWatcher

end Yokan
