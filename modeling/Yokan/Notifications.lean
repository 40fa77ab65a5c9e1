import Yokan.WaitingReaders
import Yokan.Migration
import Yokan.BoundsChecks

/-!
# Yokan: the keys that `put` hands to the watcher

In the mode `YOKAN_MODE_NOTIFY`, the loops of `put` hand each key that they store to the watcher, as
a slice of the buffer of the keys. The maps pass the slice they have stored. The set advances its
offset before it calls the watcher, and passes the slice behind it.

* `SetDatabase.put`: the `put` of `src/backends/set.cpp`;
* `Batch`: the keys and values of a `put`, packed in memory;
* `notifies_iff`: the maps notify the keys of a batch; the set does where each key of the buffer is
  followed by a copy of itself.
-/

namespace Yokan

open Buffer InMemory

/-- A call of `notifyKey`: the slice of the buffer of the keys and the bytes in it, and which keys
are in the store by then. -/
structure NotifyCall where
  slice : Region
  key : Bytes
  stored : Bytes → Bool

/-! ### The set -/

namespace SetDatabase

variable {c : Comparator}

/-- `m_db->find(key) != m_db->end()`. -/
def has (s : SetDatabase c) (key : Bytes) : Bool := s.db.contains key

/-- `m_watcher.notifyKey(key)`, in the mode `YOKAN_MODE_NOTIFY`. -/
def notifyKey (mode : Mode) (key : Bytes) (s : SetDatabase c) : SetDatabase c :=
  if mode.has .notify then { s with watcher := s.watcher ++ [key] } else s

/-- The loop of `put`, with the calls of `notifyKey` that it makes. The offset is advanced between
the two. -/
def putLoop (mode : Mode) (keys : Memory) :
    List ℕ → ℕ → SetDatabase c → SetDatabase c × List NotifyCall
  | [], _, s => (s, [])
  | ksize :: ksizes, keyOffset, s =>
    let s := s.emplace (bytesAt keys.bytes keyOffset ksize)
    let keyOffset := addSize keyOffset ksize
    let key := bytesAt keys.bytes keyOffset ksize
    let calls := if mode.has .notify then [⟨⟨keyOffset, ksize⟩, key, s.has⟩] else []
    let r := putLoop mode keys ksizes keyOffset (notifyKey mode key s)
    (r.1, calls ++ r.2)

/-- `SetDatabase::put`. -/
def put (mode : Mode) (s : SetDatabase c) (keys : Memory) (ksizes : List ℕ) (vals : Memory)
    (vsizes : List ℕ) : Status × SetDatabase c × List NotifyCall :=
  if s.migrated then (.Migrated, s, [])
  else if ksizes.length ≠ vsizes.length then (.InvalidArg, s, [])
  else if vals.size ≠ 0 then (.InvalidArg, s, [])
  else if keys.size.toNat < accumulate ksizes then (.InvalidArg, s, [])
  else if accumulate vsizes ≠ 0 then (.InvalidArg, s, [])
  else
    let first := bytesAt keys.bytes 0 (ksizes.headD 0)
    if mode.has .existOnly then
      -- nothing is stored: the keys that exist are already there
      (if ksizes.length = 1 ∧ s.has first = false then .NotFound else .OK, s, [])
    else if mode.has .newOnly ∧ ksizes.length = 1 ∧ s.has first then (.KeyExists, s, [])
    else
      let r := putLoop mode keys ksizes 0 s
      (.OK, r.1, r.2)

theorem has_emplace (s : SetDatabase c) (key : Bytes) : (s.emplace key).has key = true :=
  Std.ExtTreeSet.contains_insert_self

end SetDatabase

/-! ### The maps -/

section Maps

variable {σ : Type} [InMemory σ]

/-- The calls of `notifyKey` in the loop of `put`. A pass hands the key of its pair to the watcher
as the last thing it does. -/
def notifyingLoop (watcher : σ → List Bytes) (body : Bytes × Bytes → σ → Option Status × σ)
    (keys vals : Memory) : List (ℕ × ℕ) → ℕ → ℕ → σ → List NotifyCall
  | [], _, _, _ => []
  | (ksize, vsize) :: sizes, keyOffset, valOffset, s =>
    let r := body (bytesAt keys.bytes keyOffset ksize, bytesAt vals.bytes valOffset vsize) s
    let calls := ((watcher r.2).drop (watcher s).length).map fun key =>
      ⟨⟨keyOffset, ksize⟩, key, fun k => (find r.2 k).isSome⟩
    match r.1 with
    | some _ => calls
    | none => calls ++ notifyingLoop watcher body keys vals sizes (addSize keyOffset ksize)
        (addSize valOffset vsize) r.2

/-- The calls of `notifyKey` in `put`. -/
def notifyCalls (watcher : σ → List Bytes) (mode : Mode) (s : σ) (keys : Memory) (ksizes : List ℕ)
    (vals : Memory) (vsizes : List ℕ) : List NotifyCall :=
  if ksizes.length ≠ vsizes.length then []
  else if keys.size.toNat < accumulate ksizes then []
  else if vals.size.toNat < accumulate vsizes then []
  else if migrated s then []
  else
    notifyingLoop watcher (putBody mode (ksizes.length = 1)) keys vals (ksizes.zip vsizes) 0 0 s

end Maps

/-! ### A batch in memory -/

/-- Items that lie one after the other at the start of a buffer. -/
structure Packing where
  items : List Bytes
  memory : Memory
  holds : bytesAt memory.bytes 0 items.flatten.length = items.flatten
  fits : items.flatten.length ≤ memory.size.toNat

namespace Packing

def sizes (p : Packing) : List ℕ := p.items.map List.length

theorem sum_sizes (p : Packing) : p.sizes.sum = p.items.flatten.length := by
  rw [sizes, List.length_flatten]

/-- The sizes pass the check on the buffer. -/
theorem not_lt_accumulate (p : Packing) : ¬ p.memory.size.toNat < accumulate p.sizes := by
  have hle := accumulate_le p.sizes
  have hfits := p.fits
  rw [p.sum_sizes] at hle
  omega

/-- The item behind some others. -/
theorem bytesAt_item (p : Packing) {front rest : List Bytes} {item : Bytes}
    (h : p.items = front ++ item :: rest) :
    bytesAt p.memory.bytes front.flatten.length item.length = item := by
  have hlen : front.flatten.length + item.length ≤ p.items.flatten.length := by simp [h]
  have hslice := @slice_bytesAt p.memory.bytes _ _ _ hlen
  rw [p.holds, h] at hslice
  rw [← hslice]
  simp [slice]

end Packing

/-- The keys and values of a `put`. -/
structure Batch where
  keys : Packing
  vals : Packing
  paired : keys.items.length = vals.items.length

/-- Each item from an offset on is followed by a copy of itself, within the buffer. -/
def RepeatsFrom (m : Memory) (off : ℕ) : List Bytes → Prop
  | [] => True
  | item :: items =>
    off + item.length + item.length ≤ m.size.toNat ∧
      bytesAt m.bytes (off + item.length) item.length = item ∧
        RepeatsFrom m (off + item.length) items

/-- The calls hand over these keys, each of them in the store and out of the buffer. -/
def Hands (m : Memory) (keys : List Bytes) (calls : List NotifyCall) : Prop :=
  calls.map NotifyCall.key = keys ∧
    ∀ call ∈ calls, call.stored call.key = true ∧ call.slice.Within m.size.toNat

theorem hands_cons {m : Memory} {key : Bytes} {keys : List Bytes} {call : NotifyCall}
    {calls : List NotifyCall} :
    Hands m (key :: keys) (call :: calls) ↔
      (call.key = key ∧ call.stored call.key = true ∧ call.slice.Within m.size.toNat) ∧
        Hands m keys calls := by
  simp only [Hands, List.map_cons, List.cons.injEq, List.forall_mem_cons]
  tauto

/-- A pass that stores its key and hands it over last. -/
theorem notifyingLoop_hands {σ : Type} [InMemory σ] {watcher : σ → List Bytes}
    {body : Bytes × Bytes → σ → Option Status × σ}
    (hbody : ∀ p s, (body p s).1 = none ∧ watcher (body p s).2 = watcher s ++ [p.1] ∧
      (find (body p s).2 p.1).isSome = true) (keys vals : Packing)
    {kfront krest vfront vrest : List Bytes} (hkeys : keys.items = kfront ++ krest)
    (hvals : vals.items = vfront ++ vrest) (hlen : krest.length = vrest.length) (s : σ) :
    Hands keys.memory krest (notifyingLoop watcher body keys.memory vals.memory
      ((krest.map List.length).zip (vrest.map List.length)) kfront.flatten.length
      vfront.flatten.length s) := by
  induction krest generalizing kfront vfront vrest s with
  | nil => simp [Hands, notifyingLoop]
  | cons key krest ih =>
    obtain ⟨val, vrest, rfl⟩ := List.exists_cons_of_length_eq_add_one hlen.symm
    obtain ⟨hnone, hwatcher, hstored⟩ := hbody (key, val) s
    have hksize : kfront.flatten.length + key.length ≤ keys.memory.size.toNat := by
      refine le_trans ?_ keys.fits
      simp [hkeys]
    have hvsize : vfront.flatten.length + val.length ≤ vals.memory.size.toNat := by
      refine le_trans ?_ vals.fits
      simp [hvals]
    have hk : keys.memory.size.toNat < 2 ^ 64 := keys.memory.size.toNat_lt
    have hv : vals.memory.size.toNat < 2 ^ 64 := vals.memory.size.toNat_lt
    have hkoff : addSize kfront.flatten.length key.length = (kfront ++ [key]).flatten.length := by
      rw [addSize_eq (by omega)]
      simp
    have hvoff : addSize vfront.flatten.length val.length = (vfront ++ [val]).flatten.length := by
      rw [addSize_eq (by omega)]
      simp
    simp only [List.map_cons, List.zip_cons_cons, notifyingLoop, keys.bytesAt_item hkeys,
      vals.bytesAt_item hvals, hnone, hwatcher, List.drop_left, List.map_nil, List.cons_append,
      List.nil_append, hkoff, hvoff, hands_cons]
    refine ⟨⟨trivial, hstored, hksize⟩, ?_⟩
    exact @ih (kfront ++ [key]) (vfront ++ [val]) vrest (by simp [hkeys]) (by simp [hvals])
      (by simpa using hlen) _

/-- The set hands over what lies behind its keys. -/
theorem SetDatabase.putLoop_hands_iff {c : Comparator} {mode : Mode}
    (hmode : mode.has .notify = true) (keys : Packing) {front rest : List Bytes}
    (hkeys : keys.items = front ++ rest) (s : SetDatabase c) :
    Hands keys.memory rest
        (putLoop mode keys.memory (rest.map List.length) front.flatten.length s).2 ↔
      RepeatsFrom keys.memory front.flatten.length rest := by
  induction rest generalizing front s with
  | nil => simp [Hands, putLoop, RepeatsFrom]
  | cons key rest ih =>
    have hsize : front.flatten.length + key.length ≤ keys.memory.size.toNat := by
      refine le_trans ?_ keys.fits
      simp [hkeys]
    have hk : keys.memory.size.toNat < 2 ^ 64 := keys.memory.size.toNat_lt
    have hoff : front.flatten.length + key.length = (front ++ [key]).flatten.length := by simp
    have hadd : addSize front.flatten.length key.length = (front ++ [key]).flatten.length := by
      rw [addSize_eq (by omega), hoff]
    simp only [List.map_cons, putLoop, hmode, keys.bytesAt_item hkeys, if_true, hadd,
      List.cons_append, List.nil_append, RepeatsFrom, hands_cons, Region.Within, hoff]
    rw [ih (by simp [hkeys])]
    constructor
    · rintro ⟨⟨hkey, -, hin⟩, hrest⟩
      exact ⟨hin, hkey, hrest⟩
    · rintro ⟨hin, hkey, hrest⟩
      exact ⟨⟨hkey, by rw [hkey]; exact has_emplace s key, hin⟩, hrest⟩

/-! ### The three backends -/

/-- The backends whose `put` has a mode `YOKAN_MODE_NOTIFY`. -/
inductive NotifyStore (c : Comparator) where
  | map (s : MapDatabase c)
  | unorderedMap (s : UnorderedMapDatabase)
  | set (s : SetDatabase c)

namespace NotifyStore

variable {c : Comparator}

def migrated : NotifyStore c → Bool
  | map s => s.migrated
  | unorderedMap s => s.migrated
  | set s => s.migrated

/-- `put` on a batch: its status and its calls of `notifyKey`. The set is given empty values. -/
def put (mode : Mode) (b : Batch) : NotifyStore c → Status × List NotifyCall
  | map s =>
    ((putIn mode s b.keys.memory b.keys.sizes b.vals.memory b.vals.sizes).1,
      notifyCalls MapDatabase.watcher mode s b.keys.memory b.keys.sizes b.vals.memory b.vals.sizes)
  | unorderedMap s =>
    ((putIn mode s b.keys.memory b.keys.sizes b.vals.memory b.vals.sizes).1,
      notifyCalls UnorderedMapDatabase.watcher mode s b.keys.memory b.keys.sizes b.vals.memory
        b.vals.sizes)
  | set s =>
    let r := s.put mode b.keys.memory b.keys.sizes ⟨b.vals.memory.bytes, 0⟩
      (b.keys.items.map fun _ => 0)
    (r.1, r.2.2)

/-- A batch that is put is handed to the watcher, key by key; a database that has been migrated
takes and notifies nothing. -/
def Notifies (d : NotifyStore c) (b : Batch) : Prop :=
  if d.migrated then d.put .notify b = (.Migrated, [])
  else (d.put .notify b).1 = .OK ∧ Hands b.keys.memory b.keys.items (d.put .notify b).2

end NotifyStore

section Maps

variable {σ : Type} [InMemory σ]

/-- A map whose loop hands each key over once it is stored notifies its batches. -/
theorem put_hands {watcher : σ → List Bytes}
    (hbody : ∀ single p (s : σ), (putBody .notify single p s).1 = none ∧
      watcher (putBody .notify single p s).2 = watcher s ++ [p.1] ∧
        (find (putBody .notify single p s).2 p.1).isSome = true) (b : Batch) (s : σ) :
    let status := (putIn .notify s b.keys.memory b.keys.sizes b.vals.memory b.vals.sizes).1
    let calls := notifyCalls watcher .notify s b.keys.memory b.keys.sizes b.vals.memory b.vals.sizes
    if migrated s then (status, calls) = (.Migrated, [])
    else status = .OK ∧ Hands b.keys.memory b.keys.items calls := by
  have hlen : b.keys.sizes.length = b.vals.sizes.length := by
    simpa [Packing.sizes] using b.paired
  unfold putIn notifyCalls
  simp only [hlen, ne_eq, not_true_eq_false, if_false,
    if_neg b.keys.not_lt_accumulate, if_neg b.vals.not_lt_accumulate]
  split_ifs with hmigrated
  · rfl
  · have hnone : (pairsLoopIn b.keys.memory b.vals.memory
        (putBody .notify (b.vals.sizes.length = 1)) (b.keys.sizes.zip b.vals.sizes) 0 0
        s).1 = none :=
      Option.eq_none_iff_forall_ne_some.2 fun status =>
        pairsLoopIn_status (fun p s => by rw [(hbody _ p s).1]; simp) 0 0 s
    rw [hnone]
    exact ⟨rfl, @notifyingLoop_hands σ _ watcher _ (hbody _) b.keys b.vals [] _ [] _ rfl rfl
      b.paired s⟩

end Maps

theorem notify_flags : Mode.has .notify .newOnly = false ∧ Mode.has .notify .existOnly = false ∧
    Mode.has .notify .append = false ∧ Mode.has .notify .notify = true := by
  decide

theorem MapDatabase.putBody_notify {c : Comparator} (single : Bool) (p : Bytes × Bytes)
    (s : MapDatabase c) :
    (putBody .notify single p s).1 = none ∧
      (putBody .notify single p s).2.watcher = s.watcher ++ [p.1] ∧
        ((putBody .notify single p s).2.find p.1).isSome = true := by
  obtain ⟨hnew, hexist, happend, hnotify⟩ := notify_flags
  rw [find_putBody, Function.update_self, putRule]
  simp only [putBody, hnew, hexist, happend, Bool.false_eq_true, if_false]
  cases hfind : s.find p.1 <;>
    exact ⟨rfl, by simp [MapDatabase.notifyKey, hnotify, MapDatabase.emplace, assign], rfl⟩

theorem UnorderedMapDatabase.putBody_notify (single : Bool) (p : Bytes × Bytes)
    (s : UnorderedMapDatabase) :
    (putBody .notify single p s).1 = none ∧
      (putBody .notify single p s).2.watcher = s.watcher ++ [p.1] ∧
        ((putBody .notify single p s).2.find p.1).isSome = true := by
  obtain ⟨hnew, hexist, happend, hnotify⟩ := notify_flags
  rw [find_putBody, Function.update_self, putRule]
  simp only [putBody, hnew, hexist, happend, Bool.false_eq_true, if_false]
  refine ⟨trivial, ?_, rfl⟩
  cases hfind : s.find p.1 with
  | none => simp [emplace_of_none p.2 hfind, notifyKey, hnotify, assign]
  | some v => simp [emplace_of_some p.2 hfind, notifyKey, hnotify, assign]

namespace NotifyStore

variable {c : Comparator}

/-- The maps notify every batch. The set does exactly if each key is followed by a copy of itself in
the buffer, or if the database has been migrated. -/
theorem notifies_iff (d : NotifyStore c) (b : Batch) :
    d.Notifies b ↔
      ∀ s, d = .set s → s.migrated = true ∨ RepeatsFrom b.keys.memory 0 b.keys.items := by
  cases d with
  | map s =>
    exact iff_of_true (put_hands MapDatabase.putBody_notify b s) fun _ h => by cases h
  | unorderedMap s =>
    exact iff_of_true (put_hands UnorderedMapDatabase.putBody_notify b s) fun _ h => by cases h
  | set s =>
    obtain ⟨hnew, hexist, -, hnotify⟩ := notify_flags
    have hzero : accumulate (b.keys.items.map fun _ => 0) = 0 := by
      rw [accumulate_mod]
      simp
    have hlen : b.keys.sizes.length = (b.keys.items.map fun _ => 0).length := by
      simp [Packing.sizes]
    have hput : s.put .notify b.keys.memory b.keys.sizes ⟨b.vals.memory.bytes, 0⟩
        (b.keys.items.map fun _ => 0) =
          if s.migrated then (.Migrated, s, [])
          else (.OK, SetDatabase.putLoop .notify b.keys.memory b.keys.sizes 0 s) := by
      simp only [SetDatabase.put, hlen, hzero, hnew, hexist, if_neg b.keys.not_lt_accumulate,
        ne_eq, not_true_eq_false, Bool.false_eq_true, false_and, if_false]
    have hhands := @SetDatabase.putLoop_hands_iff c .notify hnotify b.keys [] _ rfl s
    simp only [Notifies, migrated, put, hput]
    by_cases hmigrated : s.migrated = true
    · rw [if_pos hmigrated, if_pos hmigrated]
      exact iff_of_true rfl fun _ h => Or.inl (by cases h; exact hmigrated)
    · rw [if_neg hmigrated, if_neg hmigrated]
      constructor
      · rintro ⟨-, h⟩ t ht
        exact Or.inr (hhands.1 h)
      · intro h
        exact ⟨rfl, hhands.2 ((h s rfl).resolve_left hmigrated)⟩

/-- Two keys of one byte each. -/
def twoKeys : Batch where
  keys := ⟨[[1], [2]], ⟨fun i => if i = 0 then 1 else 2, 2⟩, by decide, by decide⟩
  vals := ⟨[[], []], ⟨fun _ => 0, 0⟩, by decide, by decide⟩
  paired := rfl

/-- The set hands over the second key, and the byte behind it. -/
theorem set_not_notifies : ¬ (set (SetDatabase.empty .default)).Notifies twoKeys := by
  intro h
  exact absurd h.2.1 (by decide)

end NotifyStore

end Yokan
