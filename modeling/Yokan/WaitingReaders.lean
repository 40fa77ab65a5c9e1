import Yokan.Consume
import Yokan.Watcher

/-!
# Yokan: readers that wait

In the mode `YOKAN_MODE_WAIT`, a reader of the `map` backend that does not find a key waits for it:
it registers the key with the watcher, gives up the lock of the database, waits, takes the lock
again and retries. In the mode `YOKAN_MODE_NOTIFY`, `put` notifies the watcher of each key that it
stores, under the lock of the database.

The calls of `get`, `erase` and `put` run in sections here. A section of a reader is what it does
under the lock of the database up to the first key that it has to wait for, `addKey`, the release of
the lock, or a section of `waitKey`. A section of `put` is the acquisition of the lock, the store of
one key with its notification, or the release; what runs under the mutex of the watcher alone does
not see the database, so it cannot tell the store from the notification.

`history` records what has happened, the latest first; it is not part of the code and nothing
depends on it.

* `Watched.nextSection`: the sections;
* `get_alone`, `erase_alone`, `put_alone`: the sections of a call that does not wait are the
  function of the backend.
-/
namespace Yokan

open Buffer PartialMap Transition Interleaving InMemory

/-! ### The calls -/

/-- The arguments of a `get`. `data` is the address of the keys. -/
structure WaitGet where
  mode : Mode
  packed : Bool
  data : ℕ
  keys : Bytes
  ksizes : List ℕ
  vals : Bytes
  vsizes : List ℕ

/-- The arguments of an `erase`. -/
structure WaitErase where
  mode : Mode
  data : ℕ
  keys : Bytes
  ksizes : List ℕ

/-- The arguments of a `put`. -/
structure NotifyPut where
  mode : Mode
  keys : Bytes
  ksizes : List ℕ
  vals : Bytes
  vsizes : List ℕ

/-- Where the loops of `get` stop for a key: the sizes of its key and slot, those of the remaining
ones, and the local variables. -/
structure GetStop where
  ksize : ℕ
  vsize : ℕ
  sizes : List (ℕ × ℕ)
  keyOffset : ℕ
  locals : PackedGet

/-- Where the loop of `erase` stops for a key. -/
structure EraseStop where
  ksize : ℕ
  ksizes : List ℕ
  offset : ℕ

/-- A reader that has to wait for a key. An `erase` that a consuming `get` has called has the output
of the `get` with it. -/
inductive Reading
  | get (call : WaitGet) (stop : GetStop)
  | erase (call : WaitErase) (out : Option GetOutput) (stop : EraseStop)

namespace Reading

/-- The key. -/
def key : Reading → Bytes
  | get call stop => slice call.keys stop.keyOffset stop.ksize
  | erase call _ stop => slice call.keys stop.offset stop.ksize

/-- Its address. -/
def data : Reading → ℕ
  | get call stop => call.data + stop.keyOffset
  | erase call _ stop => call.data + stop.offset

/-- What the caller finds in its buffers if the call ends here. -/
def output : Reading → Option GetOutput
  | get call stop =>
    some ⟨stop.locals.vals, call.vals.length,
      stop.locals.vsizes ++ call.vsizes.drop stop.locals.vsizes.length⟩
  | erase _ out _ => out

end Reading

/-- Where a waiting reader is: it has not found the key and holds the lock of the database; it has
added an entry, and still holds the lock; it has released the lock; it is blocked in `waitKey`; or
`waitKey` has returned. The place of its entry is not known to the reader before it is blocked. -/
inductive WaitPhase
  | missed
  | added (node : ℕ)
  | released (node : ℕ)
  | blocked (node entry : ℕ)
  | woken (status : WatchStatus)

/-- A call, between two of its sections. -/
inductive WaitCall
  | get (call : WaitGet)
  | erase (call : WaitErase) (out : Option GetOutput)
  | reader (r : Reading) (phase : WaitPhase)
  | put (call : NotifyPut)
  | writer (call : NotifyPut) (sizes : List (ℕ × ℕ)) (keyOffset valOffset : ℕ)
  | returned (status : Status) (out : Option GetOutput)

/-- What has happened: an entry was added, a `put` has stored a key, with a notification or without,
or the `waitKey` for an entry has returned. -/
inductive Happened
  | added (node : ℕ) (key : Bytes)
  | stored (key : Bytes) (notify : Bool)
  | returned (node : ℕ) (key : Bytes) (status : WatchStatus)
  deriving DecidableEq

/-- The database with its lock, its watcher, and what has happened. -/
structure Watched (c : Comparator) where
  db : MapDatabase c
  watcher : KeyWatcher
  readers : ℕ
  writing : Bool
  history : List Happened

namespace WaitCall

/-- The call holds the lock of the database as a reader, between two sections. -/
def holdsRead : WaitCall → Bool
  | reader _ .missed | reader _ (.added _) => true
  | _ => false

/-- The call holds the lock as a writer. -/
def holdsWrite : WaitCall → Bool
  | writer _ _ _ _ => true
  | _ => false

/-- The entry of the call. -/
def ticket : WaitCall → Option Ticket
  | reader r (.added node) | reader r (.released node) | reader r (.blocked node _) =>
    some ⟨node, r.key, r.data⟩
  | _ => none

/-- The key that the next section is about. -/
def key : WaitCall → Option Bytes
  | reader r _ => some r.key
  | writer call ((ksize, _) :: _) keyOffset _ => some (slice call.keys keyOffset ksize)
  | _ => none

end WaitCall

/-! ### The loops of the readers -/

/-- One pass of the loops of `get`, unless it has to wait for the key. -/
def getPass (find : Bytes → Option Bytes) (mode : Mode) (packed : Bool) (key : Bytes) (vsize : ℕ)
    (g : PackedGet) : Option PackedGet :=
  if packed then
    match getPackedBody find (mode.has .wait) key g with
    | (some _, _) => none
    | (none, g) => some g
  else
    match find key with
    | none =>
      if mode.has .wait then none
      else
        some { g with
          valOffset := addSize g.valOffset vsize
          vsizes := g.vsizes ++ [keyNotFound] }
    | some v =>
      let (size, vals) := valCopy g.vals g.valOffset vsize v
      some { g with vals, valOffset := addSize g.valOffset vsize, vsizes := g.vsizes ++ [size] }

/-- The loops of `get`, up to the first key that they have to wait for. -/
def getFrom (find : Bytes → Option Bytes) (call : WaitGet) :
    List (ℕ × ℕ) → ℕ → PackedGet → GetStop ⊕ PackedGet
  | [], _, g => .inr g
  | (ksize, vsize) :: sizes, keyOffset, g =>
    match getPass find call.mode call.packed (slice call.keys keyOffset ksize) vsize g with
    | none => .inl ⟨ksize, vsize, sizes, keyOffset, g⟩
    | some g => getFrom find call sizes (addSize keyOffset ksize) g

/-- What `get` does after its loops; in the mode `YOKAN_MODE_CONSUME` it releases the lock and calls
`erase`. -/
def getEnd (call : WaitGet) : GetStop ⊕ PackedGet → WaitCall
  | .inl stop => .reader (.get call stop) .missed
  | .inr g =>
    let out : GetOutput :=
      ⟨g.vals, if call.packed then call.vals.length - g.valRemainingSize else call.vals.length,
        g.vsizes ++ call.vsizes.drop g.vsizes.length⟩
    if call.mode.has .consume then .erase ⟨call.mode, call.data, call.keys, call.ksizes⟩ (some out)
    else .returned .OK (some out)

namespace MapDatabase

variable {c : Comparator}

/-- The loop of `erase`, up to the first key that it has to wait for. -/
def eraseFrom (call : WaitErase) :
    List ℕ → ℕ → MapDatabase c → (EraseStop ⊕ Status) × MapDatabase c
  | [], _, s => (.inr .OK, s)
  | ksize :: ksizes, offset, s =>
    if call.keys.length < addSize offset ksize then (.inr .InvalidArg, s)
    else
      match eraseBody (call.mode.has .wait) (slice call.keys offset ksize) s with
      | (some _, s) => (.inl ⟨ksize, ksizes, offset⟩, s)
      | (none, s) => eraseFrom call ksizes (addSize offset ksize) s

end MapDatabase

/-- What `erase` does after its loop. -/
def eraseEnd (call : WaitErase) (out : Option GetOutput) : EraseStop ⊕ Status → WaitCall
  | .inl stop => .reader (.erase call out stop) .missed
  | .inr status => .returned status out

/-! ### The sections -/

namespace Watched

variable {c : Comparator}

/-- What a section of a reader under the lock leaves; if it has to wait for a key, it still holds
the lock. -/
def locked (s : Watched c) (r : WaitCall × MapDatabase c) : Watched c × WaitCall :=
  ({ s with db := r.2, readers := if r.1.holdsRead then s.readers + 1 else s.readers }, r.1)

/-- The loops of `get`, from a key on. -/
def getSection (s : Watched c) (call : WaitGet) (sizes : List (ℕ × ℕ)) (keyOffset : ℕ)
    (g : PackedGet) : Watched c × WaitCall :=
  s.locked (getEnd call (getFrom s.db.find call sizes keyOffset g), s.db)

/-- The loop of `erase`, from a key on. -/
def eraseSection (s : Watched c) (call : WaitErase) (out : Option GetOutput) (ksizes : List ℕ)
    (offset : ℕ) : Watched c × WaitCall :=
  let (ending, db) := MapDatabase.eraseFrom call ksizes offset s.db
  s.locked (eraseEnd call out ending, db)

/-- The retry of a reader. -/
def retry (s : Watched c) : Reading → Watched c × WaitCall
  | .get call stop =>
    s.getSection call ((stop.ksize, stop.vsize) :: stop.sizes) stop.keyOffset stop.locals
  | .erase call out stop => s.eraseSection call out (stop.ksize :: stop.ksizes) stop.offset

/-- What a section of `waitKey` leaves. -/
def waited (s : Watched c) (r : Reading) (node : ℕ) : KeyWatcher × Waited → Watched c × WaitCall
  | (watcher, .blocked entry) => ({ s with watcher }, .reader r (.blocked node entry))
  | (watcher, .returned status) =>
    ({ s with watcher, history := .returned node r.key status :: s.history },
      .reader r (.woken status))

/-- A pass of the loop of `put`, with its notification. -/
def store (s : Watched c) (call : NotifyPut) (key val : Bytes) : Option Status × Watched c :=
  let (status, db) := MapDatabase.putBody call.mode (call.ksizes.length = 1) (key, val) s.db
  if writes call.mode (s.db.find key).isSome then
    (status, { s with
      db
      watcher := if call.mode.has .notify then s.watcher.notifyKey key else s.watcher
      history := .stored key (call.mode.has .notify) :: s.history })
  else (status, { s with db })

/-- The next section of a call; there is none while it is blocked, or when it has returned. -/
def nextSection (s : Watched c) : WaitCall → Option (Watched c × WaitCall)
  | .get call =>
    let out : GetOutput := ⟨call.vals, call.vals.length, call.vsizes⟩
    if call.ksizes.length ≠ call.vsizes.length then some (s, .returned .InvalidArg (some out))
    else if s.writing then none
    else if s.db.migrated then some (s, .returned .Migrated (some out))
    else
      some (s.getSection call (call.ksizes.zip call.vsizes) 0
        ⟨call.vals, 0, call.vals.length, false, []⟩)
  | .erase call out =>
    if s.writing then none
    else if s.db.migrated then some (s, .returned .Migrated out)
    else some (s.eraseSection call out call.ksizes 0)
  | .reader r .missed =>
    some ({ s with
      watcher := s.watcher.addKey r.key r.data
      history := .added s.watcher.nodes r.key :: s.history }, .reader r (.added s.watcher.nodes))
  | .reader r (.added node) =>
    some ({ s with readers := s.readers - 1 }, .reader r (.released node))
  | .reader r (.released node) => (s.watcher.waitKey r.key r.data).map (s.waited r node)
  | .reader r (.blocked node entry) => (s.watcher.wake entry).map (s.waited r node)
  | .reader r (.woken status) =>
    if s.writing then none
    else if status = .KeyPresent then some (s.retry r)
    else some (s, .returned .TimedOut r.output)
  | .put call =>
    if call.ksizes.length ≠ call.vsizes.length then some (s, .returned .InvalidArg none)
    else if call.keys.length < accumulate call.ksizes then some (s, .returned .InvalidArg none)
    else if call.vals.length < accumulate call.vsizes then some (s, .returned .InvalidArg none)
    else if s.writing ∨ s.readers ≠ 0 then none
    else if s.db.migrated then some (s, .returned .Migrated none)
    else some ({ s with writing := true }, .writer call (call.ksizes.zip call.vsizes) 0 0)
  | .writer _ [] _ _ => some ({ s with writing := false }, .returned .OK none)
  | .writer call ((ksize, vsize) :: sizes) keyOffset valOffset =>
    match s.store call (slice call.keys keyOffset ksize) (slice call.vals valOffset vsize) with
    | (some status, s) => some ({ s with writing := false }, .returned status none)
    | (none, s) =>
      some (s, .writer call sizes (addSize keyOffset ksize) (addSize valOffset vsize))
  | .returned _ _ => none

end Watched

/-! ### Calls that do not wait -/

/-- `putBody` stores its key where `writes` says so, and then, in the mode `YOKAN_MODE_NOTIFY`,
hands it to the watcher; otherwise it does nothing. -/
theorem MapDatabase.putBody_stores {c : Comparator} (mode : Mode) (single : Bool) (key val : Bytes)
    (s : MapDatabase c) :
    (putBody mode single (key, val) s).2.watcher = s.watcher ++
        (if writes mode (s.find key).isSome && mode.has .notify then [key] else []) ∧
      (writes mode (s.find key).isSome = false → (putBody mode single (key, val) s).2 = s) := by
  unfold writes
  cases hk : s.find key <;> simp only [putBody, hk] <;> split_ifs <;>
    simp_all [notifyKey, emplace, assign]

/-- A pass of the loop of `put` is that of the backend, and leaves the lock as it is. -/
theorem Watched.store_db {c : Comparator} (s : Watched c) (call : NotifyPut) (key val : Bytes) :
    let r := MapDatabase.putBody call.mode (call.ksizes.length = 1) (key, val) s.db
    (s.store call key val).1 = r.1 ∧ (s.store call key val).2.db = r.2 := by
  simp only [Watched.store]
  split_ifs <;> exact ⟨rfl, rfl⟩

@[simp] theorem Watched.store_lock {c : Comparator} (s : Watched c) (call : NotifyPut)
    (key val : Bytes) : (s.store call key val).2.readers = s.readers ∧
      (s.store call key val).2.writing = s.writing := by
  simp only [Watched.store]
  split_ifs <;> exact ⟨rfl, rfl⟩

section Alone

variable {c : Comparator} {s t : Watched c} {find : Bytes → Option Bytes}

theorem getPackedBody_waits {wait : Bool} {key : Bytes} {g g' : PackedGet} {status : Status}
    (h : getPackedBody find wait key g = (some status, g')) : status = .TimedOut ∧ g' = g := by
  unfold getPackedBody at h
  cases hk : find key with
  | none =>
    simp only [hk] at h
    split_ifs at h
    · obtain ⟨h1, h2⟩ := Prod.mk.inj h
      exact ⟨(Option.some.inj h1).symm, h2.symm⟩
    · cases (Prod.mk.inj h).1
  | some v =>
    simp only [hk] at h
    split_ifs at h <;> cases (Prod.mk.inj h).1

/-- The packed branch of `get`, in terms of where it stops. -/
theorem keysLoop_eq_getFrom (find : Bytes → Option Bytes) {call : WaitGet}
    (hpacked : call.packed = true) (sizes : List (ℕ × ℕ)) (keyOffset : ℕ) (g : PackedGet) :
    keysLoop false (getPackedBody find (call.mode.has .wait)) call.keys (sizes.map Prod.fst)
        keyOffset g =
      match getFrom find call sizes keyOffset g with
      | .inl stop => (some .TimedOut, stop.locals)
      | .inr g => (none, g) := by
  induction sizes generalizing keyOffset g with
  | nil => rfl
  | cons p sizes ih =>
    obtain ⟨ksize, vsize⟩ := p
    rw [List.map_cons, keysLoop, if_neg (by simp), getFrom, getPass, if_pos hpacked]
    rcases hbody : getPackedBody find (call.mode.has .wait) (slice call.keys keyOffset ksize) g with
      ⟨_ | status, g'⟩
    · exact ih _ _
    · obtain ⟨rfl, rfl⟩ := getPackedBody_waits hbody
      rfl

/-- The branch of `get` where each value has its own slot, in terms of where it stops. -/
theorem getSlotsLoop_eq_getFrom (find : Bytes → Option Bytes) {call : WaitGet}
    (hpacked : call.packed = false) (sizes : List (ℕ × ℕ)) (keyOffset : ℕ) (g : PackedGet) :
    getSlotsLoop find (call.mode.has .wait) call.keys sizes keyOffset g.valOffset g.vals g.vsizes =
      match getFrom find call sizes keyOffset g with
      | .inl stop => (some .TimedOut, stop.locals.vals, stop.locals.vsizes)
      | .inr g => (none, g.vals, g.vsizes) := by
  induction sizes generalizing keyOffset g with
  | nil => rfl
  | cons p sizes ih =>
    obtain ⟨ksize, vsize⟩ := p
    rw [getSlotsLoop, getFrom, getPass, hpacked, if_neg Bool.false_ne_true]
    cases find (slice call.keys keyOffset ksize) with
    | none =>
      dsimp only
      split_ifs
      · rfl
      · exact ih (addSize keyOffset ksize)
          { g with valOffset := addSize g.valOffset vsize, vsizes := g.vsizes ++ [keyNotFound] }
    | some v =>
      dsimp only
      rcases valCopy g.vals g.valOffset vsize v with ⟨size, vals⟩
      exact ih (addSize keyOffset ksize)
        { g with vals, valOffset := addSize g.valOffset vsize, vsizes := g.vsizes ++ [size] }

/-- The loops of `get`, in terms of where they stop. -/
theorem getWith_eq_getFrom {call : WaitGet} (hlen : call.ksizes.length = call.vsizes.length) :
    getWith find call.mode call.packed call.keys call.ksizes call.vals call.vsizes =
      match getFrom find call (call.ksizes.zip call.vsizes) 0
        ⟨call.vals, 0, call.vals.length, false, []⟩ with
      | .inl stop =>
        (some .TimedOut, ⟨stop.locals.vals, call.vals.length,
          stop.locals.vsizes ++ call.vsizes.drop stop.locals.vsizes.length⟩)
      | .inr g =>
        (none, ⟨g.vals,
          if call.packed then call.vals.length - g.valRemainingSize else call.vals.length,
          g.vsizes ++ call.vsizes.drop g.vsizes.length⟩) := by
  unfold getWith
  cases hpacked : call.packed with
  | true =>
    have hmap : (call.ksizes.zip call.vsizes).map Prod.fst = call.ksizes :=
      List.map_fst_zip hlen.le
    have hloop := keysLoop_eq_getFrom find hpacked (call.ksizes.zip call.vsizes) 0
      ⟨call.vals, 0, call.vals.length, false, []⟩
    rw [hmap] at hloop
    rw [if_pos rfl, hloop]
    rcases getFrom find call (call.ksizes.zip call.vsizes) 0
      ⟨call.vals, 0, call.vals.length, false, []⟩ with stop | g
    · rfl
    · rfl
  | false =>
    have hloop := getSlotsLoop_eq_getFrom find hpacked (call.ksizes.zip call.vsizes) 0
      ⟨call.vals, 0, call.vals.length, false, []⟩
    rw [if_neg Bool.false_ne_true, hloop]
    rcases getFrom find call (call.ksizes.zip call.vsizes) 0
      ⟨call.vals, 0, call.vals.length, false, []⟩ with stop | g
    · rfl
    · rfl

/-- The loop of `erase`, in terms of where it stops. -/
theorem keysLoop_eq_eraseFrom (call : WaitErase) (ksizes : List ℕ) (offset : ℕ)
    (db : MapDatabase c) :
    let r := keysLoop true (MapDatabase.eraseBody (call.mode.has .wait)) call.keys ksizes offset db
    let e := MapDatabase.eraseFrom call ksizes offset db
    r.2 = e.2 ∧ ∀ status, e.1 = .inr status → r.1.getD .OK = status := by
  induction ksizes generalizing offset db with
  | nil => exact ⟨rfl, fun status h => Sum.inr.inj h⟩
  | cons ksize ksizes ih =>
    simp only [keysLoop, MapDatabase.eraseFrom, true_and]
    split_ifs
    · exact ⟨rfl, fun status h => Sum.inr.inj h⟩
    · rcases MapDatabase.eraseBody (call.mode.has .wait) (slice call.keys offset ksize) db with
        ⟨_ | status, db'⟩
      · exact ih _ _
      · exact ⟨rfl, fun status h => by cases h⟩

/-- An `erase` that returns in its first section is that of the backend. -/
theorem erase_alone {call : WaitErase} {out out' : Option GetOutput} {status : Status}
    (h : s.nextSection (.erase call out) = some (t, .returned status out')) :
    MapDatabase.erase call.mode s.db call.keys call.ksizes = (status, t.db) ∧ out' = out := by
  unfold MapDatabase.erase eraseWith
  simp only [Watched.nextSection] at h
  split_ifs at h with hwriting hmigrated
  · obtain ⟨rfl, h⟩ := Prod.mk.inj (Option.some.inj h)
    cases h
    exact ⟨if_pos hmigrated, rfl⟩
  · obtain ⟨hdb, hstatus⟩ := keysLoop_eq_eraseFrom call call.ksizes 0 s.db
    rw [if_neg hmigrated]
    simp only [Watched.eraseSection, Watched.locked, Option.some.injEq, Prod.mk.injEq] at h
    obtain ⟨rfl, h⟩ := h
    rcases hend : MapDatabase.eraseFrom call call.ksizes 0 s.db with ⟨stop | status', db⟩
    · rw [hend] at h
      cases h
    · rw [hend] at h hdb hstatus
      obtain ⟨rfl, rfl⟩ := WaitCall.returned.inj h
      exact ⟨Prod.ext (hstatus _ rfl) hdb, rfl⟩

/-- A `get` that returns without waiting is that of the backend. -/
theorem get_alone {call : WaitGet} {n : ℕ} {status : Status} {out : GetOutput} (hn : n ≤ 2)
    (h : sections Watched.nextSection n s (.get call) = some (t, .returned status (some out))) :
    MapDatabase.get call.mode call.packed s.db call.keys call.ksizes call.vals call.vsizes =
      ⟨status, t.db, out⟩ := by
  unfold MapDatabase.get getOrConsume
  cases n with
  | zero => cases (Prod.mk.inj (Option.some.inj h)).2
  | succ n =>
  obtain ⟨⟨s', call'⟩, hfirst, hrest⟩ := Option.bind_eq_some_iff.1 h
  simp only [Watched.nextSection] at hfirst
  split_ifs at hfirst with hlen hwriting hmigrated
  · obtain ⟨rfl, rfl⟩ := Prod.mk.inj (Option.some.inj hfirst)
    obtain ⟨rfl, h⟩ := Prod.mk.inj (sections_of_none rfl hrest).2
    cases h
    exact if_pos hlen
  · obtain ⟨rfl, rfl⟩ := Prod.mk.inj (Option.some.inj hfirst)
    obtain ⟨rfl, h⟩ := Prod.mk.inj (sections_of_none rfl hrest).2
    cases h
    rw [if_neg hlen]
    exact if_pos hmigrated
  · rw [if_neg hlen, if_neg hmigrated, getWith_eq_getFrom (not_not.1 hlen)]
    obtain ⟨hs', hcall'⟩ := Prod.mk.inj (Option.some.inj hfirst)
    have hdb : s'.db = s.db := by rw [← hs']
    rcases hfrom : getFrom s.db.find call (call.ksizes.zip call.vsizes) 0
      ⟨call.vals, 0, call.vals.length, false, []⟩ with stop | g
    · -- the reader has to wait, and returns later than this
      rw [hfrom] at hcall'
      subst hcall'
      match n, hn with
      | 0, _ => cases (Prod.mk.inj (Option.some.inj hrest)).2
      | 1, _ =>
        obtain ⟨r, hr, hrest⟩ := Option.bind_eq_some_iff.1 hrest
        obtain rfl := Option.some.inj hr
        cases (Prod.mk.inj (Option.some.inj hrest)).2
    · rw [hfrom] at hcall'
      dsimp only [getEnd] at hcall' ⊢
      -- with `CONSUME` a second section erases what the first one has read
      by_cases hconsume : call.mode.has .consume = true
      · rw [if_pos hconsume] at hcall' ⊢
        subst hcall'
        match n, hn with
        | 0, _ => cases (Prod.mk.inj (Option.some.inj hrest)).2
        | 1, _ =>
          obtain ⟨⟨t', call'⟩, hr, hrest⟩ := Option.bind_eq_some_iff.1 hrest
          obtain ⟨rfl, rfl⟩ := Prod.mk.inj (Option.some.inj hrest)
          obtain ⟨herase, hout⟩ := erase_alone hr
          dsimp only at herase
          rw [hdb] at herase
          rw [herase, Option.some.inj hout]
      · rw [if_neg hconsume] at hcall' ⊢
        subst hcall'
        obtain ⟨rfl, h⟩ := Prod.mk.inj (sections_of_none rfl hrest).2
        cases h
        rw [hdb]

/-- The loop of `put`, once the lock is held. -/
theorem writer_alone {call : NotifyPut} {sizes : List (ℕ × ℕ)} {keyOffset valOffset n : ℕ}
    {status : Status} {out : Option GetOutput}
    (h : sections Watched.nextSection n s (.writer call sizes keyOffset valOffset) =
      some (t, .returned status out)) :
    let r := pairsLoop (MapDatabase.putBody call.mode (call.ksizes.length = 1)) call.keys call.vals
      sizes keyOffset valOffset s.db
    r.1.getD .OK = status ∧ r.2 = t.db := by
  induction sizes generalizing n s keyOffset valOffset with
  | nil =>
    cases n with
    | zero => cases (Prod.mk.inj (Option.some.inj h)).2
    | succ n =>
      obtain ⟨r, hr, hrest⟩ := Option.bind_eq_some_iff.1 h
      obtain rfl := Option.some.inj hr
      obtain ⟨rfl, hend⟩ := Prod.mk.inj (sections_of_none rfl hrest).2
      cases hend
      exact ⟨rfl, rfl⟩
  | cons p sizes ih =>
    obtain ⟨ksize, vsize⟩ := p
    cases n with
    | zero => cases (Prod.mk.inj (Option.some.inj h)).2
    | succ n =>
      obtain ⟨⟨s', call'⟩, hr, hrest⟩ := Option.bind_eq_some_iff.1 h
      obtain ⟨hstatus, hdb⟩ := Watched.store_db s call (slice call.keys keyOffset ksize)
        (slice call.vals valOffset vsize)
      rw [pairsLoop]
      rcases hbody : MapDatabase.putBody call.mode (call.ksizes.length = 1)
        (slice call.keys keyOffset ksize, slice call.vals valOffset vsize) s.db with ⟨st, db⟩
      rcases hstore : s.store call (slice call.keys keyOffset ksize)
        (slice call.vals valOffset vsize) with ⟨st', s₁⟩
      rw [hbody, hstore] at hstatus hdb
      dsimp only at hstatus hdb
      subst hstatus hdb
      simp only [Watched.nextSection, hstore] at hr
      cases st' with
      | none =>
        obtain ⟨rfl, rfl⟩ := Prod.mk.inj (Option.some.inj hr)
        exact ih hrest
      | some status' =>
        obtain ⟨rfl, rfl⟩ := Prod.mk.inj (Option.some.inj hr)
        obtain ⟨rfl, hend⟩ := Prod.mk.inj (sections_of_none rfl hrest).2
        cases hend
        exact ⟨rfl, rfl⟩

/-- A `put` that runs alone is that of the backend. -/
theorem put_alone {call : NotifyPut} {n : ℕ} {status : Status} {out : Option GetOutput}
    (h : sections Watched.nextSection n s (.put call) = some (t, .returned status out)) :
    MapDatabase.put call.mode s.db call.keys call.ksizes call.vals call.vsizes =
      (status, t.db) := by
  unfold MapDatabase.put putWith
  cases n with
  | zero => cases (Prod.mk.inj (Option.some.inj h)).2
  | succ n =>
  obtain ⟨⟨s', call'⟩, hfirst, hrest⟩ := Option.bind_eq_some_iff.1 h
  simp only [Watched.nextSection] at hfirst
  have hearly : ∀ st, (s', call') = (s, WaitCall.returned st none) →
      (st, s.db) = (status, t.db) := by
    rintro st hcall
    obtain ⟨rfl, rfl⟩ := Prod.mk.inj hcall
    obtain ⟨rfl, hend⟩ := Prod.mk.inj (sections_of_none rfl hrest).2
    cases hend
    rfl
  split_ifs at hfirst with hlen hkeys hvals hbusy hmigrated
  · rw [if_pos hlen, hearly _ (Option.some.inj hfirst).symm]
  · rw [if_neg hlen, if_pos hkeys, hearly _ (Option.some.inj hfirst).symm]
  · rw [if_neg hlen, if_neg hkeys, if_pos hvals, hearly _ (Option.some.inj hfirst).symm]
  · rw [if_neg hlen, if_neg hkeys, if_neg hvals, if_pos hmigrated,
      hearly _ (Option.some.inj hfirst).symm]
  · obtain ⟨rfl, rfl⟩ := Prod.mk.inj (Option.some.inj hfirst)
    obtain ⟨hstatus, hdb⟩ := writer_alone hrest
    rw [if_neg hlen, if_neg hkeys, if_neg hvals, if_neg hmigrated]
    exact Prod.ext hstatus hdb

end Alone

end Yokan
