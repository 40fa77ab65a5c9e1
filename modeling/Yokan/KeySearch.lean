import Mathlib.Data.List.TakeWhile
import Yokan.Watcher

/-!
# Yokan: which entry `waitKey` finds

Several readers may wait for one key, each with its own buffer, and the address of the buffer tells
their entries apart. `waitKey` looks for the entry of its caller among those of the key, from the
first one on, but does not get past the first one.

* `Settles`: `waitKey` finds the entry at the address of the caller, and no other;
* `waitKey_settles_iff`: it does if that entry is the first one of its key; and without such an
  entry, if all keys in the watcher are smaller.
-/

namespace Yokan

namespace KeyWatcher

/-- The entries of a watcher: in the order of their keys, at places of their own, and each for
another buffer. -/
structure Registered (w : KeyWatcher) : Prop where
  sorted : w.expectedKeys.Pairwise fun e f => ¬ f.key < e.key
  nodes : (w.expectedKeys.map WatchEntry.node).Nodup
  buffers : (w.expectedKeys.map WatchEntry.data).Nodup

instance (w : KeyWatcher) : Decidable w.Registered :=
  decidable_of_iff ((w.expectedKeys.Pairwise fun e f => ¬ f.key < e.key) ∧
      (w.expectedKeys.map WatchEntry.node).Nodup ∧ (w.expectedKeys.map WatchEntry.data).Nodup)
    ⟨fun h => ⟨h.1, h.2.1, h.2.2⟩, fun h => ⟨h.sorted, h.nodes, h.buffers⟩⟩

/-- A section of `waitKey` settles on an entry: it blocks on it, or removes it and nothing else. -/
def SettlesOn (w : KeyWatcher) (e : WatchEntry) (r : Option (KeyWatcher × Waited)) : Prop :=
  ∃ before after, w.expectedKeys = before ++ e :: after ∧
    r = some (if e.status = .Pending then
      (⟨before ++ { e with blocked := true } :: after, w.nodes⟩, .blocked e.node)
    else (⟨before ++ after, w.nodes⟩, .returned e.status))

/-- `waitKey` settles on the entry at the address of its caller, and so does each of its sections
after a wakeup, whatever has become of the other entries; without such an entry, it fails and
changes nothing. -/
structure Settles (w : KeyWatcher) (key : Bytes) (data : ℕ) : Prop where
  own : ∀ e ∈ w.expectedKeys, e.key = key → e.data = data →
    w.SettlesOn e (w.waitKey key data) ∧
      ∀ w' : KeyWatcher, w'.Registered → ∀ e' ∈ w'.expectedKeys, e'.node = e.node →
        e'.blocked = false → w'.SettlesOn e' (w'.wake e.node)
  missing : (∀ e ∈ w.expectedKeys, e.key = key → e.data ≠ data) →
    w.waitKey key data = some (w, .returned .LogicError)

variable {w : KeyWatcher} {e : WatchEntry} {key : Bytes} {data : ℕ}

/-- `wait` settles on its entry. -/
theorem settlesOn_wait (hnodes : (w.expectedKeys.map WatchEntry.node).Nodup)
    (he : e ∈ w.expectedKeys) : w.SettlesOn e (some (w.wait e)) := by
  obtain ⟨before, after, heq, hne⟩ := exists_split hnodes he
  refine ⟨before, after, heq, ?_⟩
  split_ifs with hstatus
  · rw [wait_pending hstatus heq hne]
  · rw [wait_marked hstatus heq hne]

/-- `wait` does something to the watcher. -/
theorem wait_ne (hnodes : (w.expectedKeys.map WatchEntry.node).Nodup) (he : e ∈ w.expectedKeys) :
    w.wait e ≠ (w, .returned .LogicError) := by
  obtain ⟨before, after, heq, hne⟩ := exists_split hnodes he
  by_cases hstatus : e.status = .Pending
  · rw [wait_pending hstatus heq hne]
    exact fun h => by cases (Prod.mk.inj h).2
  · rw [wait_marked hstatus heq hne]
    intro h
    have hlen := congrArg (fun w => w.expectedKeys.length) (Prod.mk.inj h).1
    simp [heq] at hlen

/-- Where the search starts: at the end, when all keys are smaller, or at the first entry that is
not. -/
theorem lookup_cases (w : KeyWatcher) (key : Bytes) (data : ℕ) :
    (∀ e ∈ w.expectedKeys, e.key < key) ∧ w.lookup key data = some none ∨
      ∃ front e rest, w.expectedKeys = front ++ e :: rest ∧ (∀ f ∈ front, f.key < key) ∧
        ¬ e.key < key ∧
        w.lookup key data = if e.key = key ∧ e.data ≠ data then none else some (some e) := by
  have hsplit := List.takeWhile_append_dropWhile (p := fun e : WatchEntry => e.key < key)
    (l := w.expectedKeys)
  have hfront : ∀ f ∈ w.expectedKeys.takeWhile fun e => e.key < key, f.key < key := fun f hf => by
    simpa using List.mem_takeWhile_imp hf
  unfold lookup
  rcases hdrop : w.expectedKeys.dropWhile fun e => e.key < key with _ | ⟨e, rest⟩
  · rw [hdrop, List.append_nil] at hsplit
    rw [hsplit] at hfront
    exact Or.inl ⟨hfront, by rw [hdrop]⟩
  · have hhead := List.head_dropWhile_not (fun e : WatchEntry => decide (e.key < key))
      (l := w.expectedKeys) (by rw [hdrop]; simp)
    simp only [hdrop, List.head_cons, decide_eq_false_iff_not] at hhead
    rw [hdrop] at hsplit
    exact Or.inr ⟨_, e, rest, hsplit.symm, hfront, hhead, by rw [hdrop]⟩

/-- `waitKey` settles on the entry of its caller exactly if that is the first one of its key, or if
all keys are smaller and there is none. -/
theorem waitKey_settles_iff (hw : w.Registered) :
    w.Settles key data ↔
      (∃ e, (w.entriesOf key).head? = some e ∧ e.data = data) ∨
        ∀ e ∈ w.expectedKeys, e.key < key := by
  obtain ⟨hsorted, hnodes, hbuffers⟩ := hw
  rcases w.lookup_cases key data with ⟨hall, hlookup⟩ | ⟨front, e, rest, heq, hfront, hge, hlookup⟩
  · -- the search starts at the end
    refine iff_of_true ⟨fun e he hkey => ?_, fun _ => ?_⟩ (Or.inr hall)
    · exact absurd (hall e he) (by rw [hkey]; exact Std.lt_irrefl)
    · rw [waitKey, hlookup]
      rfl
  have he : e ∈ w.expectedKeys := by rw [heq]; simp
  have hnotall : ¬ ∀ e ∈ w.expectedKeys, e.key < key := fun hall => hge (hall e he)
  have hhead : (w.entriesOf key).head? =
      if e.key = key then some e else (rest.filter fun f => f.key = key).head? := by
    have hnone : front.filter (fun f => f.key = key) = [] := by
      refine List.filter_eq_nil_iff.2 fun f hf hkey => ?_
      have hlt := hfront f hf
      rw [of_decide_eq_true hkey] at hlt
      exact Std.lt_irrefl hlt
    rw [entriesOf, heq, List.filter_append, hnone, List.nil_append, List.filter_cons]
    split_ifs <;> simp_all
  by_cases hkey : e.key = key
  · rw [hhead, if_pos hkey]
    by_cases hdata : e.data = data
    · -- the first entry of the key is that of the caller
      have hwait : w.waitKey key data = some (w.wait e) := by
        rw [waitKey, hlookup, if_neg (by simp [hdata])]
        rfl
      refine iff_of_true ⟨fun f hf _ hfdata => ?_, fun hnot => absurd hdata (hnot e he hkey)⟩
        (Or.inl ⟨e, rfl, hdata⟩)
      obtain rfl := List.inj_on_of_nodup_map hbuffers hf he (hfdata.trans hdata.symm)
      rw [hwait]
      refine ⟨settlesOn_wait hnodes hf, fun w' hw' f' hf' hnode hblocked => ?_⟩
      rw [← hnode, wake_eq hw'.nodes hf', hblocked]
      exact settlesOn_wait hw'.nodes hf'
    · -- it is not, and the search does not end
      have hwait : w.waitKey key data = none := by
        rw [waitKey, hlookup, if_pos ⟨hkey, hdata⟩]
        rfl
      refine iff_of_false (fun h => ?_) ?_
      · by_cases hown : ∃ f ∈ w.expectedKeys, f.key = key ∧ f.data = data
        · obtain ⟨f, hf, hfkey, hfdata⟩ := hown
          obtain ⟨⟨before, after, -, hr⟩, -⟩ := h.own f hf hfkey hfdata
          rw [hwait] at hr
          cases hr
        · have hr := h.missing fun f hf hfkey hfdata => hown ⟨f, hf, hfkey, hfdata⟩
          rw [hwait] at hr
          cases hr
      · rintro (⟨f, hf, hfdata⟩ | hall)
        · obtain rfl := Option.some.inj hf
          exact hdata hfdata
        · exact hnotall hall
  · -- the entry is of a larger key, and there is none of this key
    have hgt : key < e.key := by
      rcases Std.lt_trichotomy key e.key with hlt | heq | hlt
      · exact hlt
      · exact absurd heq.symm hkey
      · exact absurd hlt hge
    have hnokey : ∀ f ∈ w.expectedKeys, f.key ≠ key := by
      rw [heq] at hsorted
      have hrest := (List.pairwise_cons.1 (List.pairwise_append.1 hsorted).2.1).1
      intro f hf hfkey
      rw [heq, List.mem_append, List.mem_cons] at hf
      rcases hf with hf | rfl | hf
      · exact absurd (hfront f hf) (by rw [hfkey]; exact Std.lt_irrefl)
      · exact hkey hfkey
      · exact hrest f hf (by rw [hfkey]; exact hgt)
    have hwait : w.waitKey key data = some (w.wait e) := by
      rw [waitKey, hlookup, if_neg (by simp [hkey])]
      rfl
    refine iff_of_false (fun h => ?_) ?_
    · have hr := h.missing fun f hf hfkey => absurd hfkey (hnokey f hf)
      rw [hwait] at hr
      exact wait_ne hnodes he (Option.some.inj hr)
    · rintro (⟨f, hf, -⟩ | hall)
      · have hmem := List.mem_filter.1 (List.mem_of_mem_head? hf)
        exact hnokey f hmem.1 (by simpa using hmem.2)
      · exact hnotall hall

/-- A reader that is the second one to wait for a key, with a third one waiting for another key. -/
def twoWaiting : KeyWatcher := ((empty.addKey [1] 8).addKey [2] 16).addKey [1] 24

/-- The first reader finds its entry. -/
theorem waitKey_settles_iff_first :
    twoWaiting.Registered ∧ twoWaiting.Settles [1] 8 :=
  ⟨by decide, (waitKey_settles_iff (by decide)).2
    (Or.inl ⟨⟨0, [1], 8, .Pending, false⟩, by decide, rfl⟩)⟩

/-- The second reader does not find its entry, and a reader that has not added one waits on that of
another key. -/
theorem waitKey_not_settles :
    twoWaiting.Registered ∧ twoWaiting.waitKey [1] 24 = none ∧ ¬ twoWaiting.Settles [1] 24 ∧
      (empty.addKey [2] 16).Registered ∧
      ((empty.addKey [2] 16).waitKey [1] 8).map Prod.snd = some (.blocked 0) ∧
      ¬ (empty.addKey [2] 16).Settles [1] 8 := by
  have hnone : twoWaiting.waitKey [1] 24 = none := by decide
  refine ⟨by decide, hnone, fun h => ?_, by decide, by decide, fun h => ?_⟩
  · obtain ⟨⟨before, after, -, hr⟩, -⟩ := h.own ⟨2, [1], 24, .Pending, false⟩ (by decide) rfl rfl
    rw [hnone] at hr
    cases hr
  · have hr := h.missing (by decide)
    exact absurd hr (by decide)

end KeyWatcher

end Yokan
