import Yokan.WaitingReaders

/-!
# Yokan: no lost wakeup

Readers of the `map` backend wait for keys and writers notify them, in any order of their sections,
with at most one reader waiting for each key at a time.

* `Watched.nextSection_cases`: what a section does;
* `Follows.section`: the invariant, which follows each registration through the history;
* `no_lost_wakeup`: an entry is marked exactly if its key has been stored with a notification since
  its reader registered; it stays until that reader takes it, once, and the reader is not kept from
  it.
-/

namespace Yokan

open Buffer PartialMap Transition Interleaving InMemory

/-! ### What a section does -/

/-- What is known of a call from where it is. -/
def WaitCall.Sound (find : Bytes → Option Bytes) : WaitCall → Prop
  | reader r .missed => find r.key = none
  | reader _ (.blocked node entry) => entry = node
  | reader _ (.woken status) => status = .KeyPresent
  | _ => True

/-- The entries of the watcher are those of the waiting readers, one each. -/
structure Ticketed {c : Comparator} (s : Watched c) (calls : List WaitCall) : Prop where
  watches : s.watcher.Watches
  tickets : (calls.filterMap WaitCall.ticket).Perm
    (s.watcher.expectedKeys.map WatchEntry.ticket)

/-- At most one reader waits for each key. -/
def OneWaiter (calls : List WaitCall) : Prop :=
  ((calls.filterMap WaitCall.ticket).map Ticket.key).Nodup

instance (calls : List WaitCall) : Decidable (OneWaiter calls) := by
  unfold OneWaiter
  infer_instance

/-- What a section does: a reader works under the lock; it adds an entry; it releases the lock; it
blocks on its entry, or takes it; a writer takes the lock, goes on with a key, or releases it. -/
inductive Sectioned {c : Comparator} (s : Watched c) : WaitCall → Watched c → WaitCall → Prop
  | reads (call call' : WaitCall) (db : MapDatabase c)
    (hcall : call.ticket = none ∧ call.holdsRead = false ∧ call.holdsWrite = false)
    (hcall' : call'.ticket = none ∧ call'.holdsWrite = false)
    (hfree : call'.holdsRead = true → s.writing = false) (hsound : call'.Sound db.find)
    (hle : ∀ k, (db.find k).isSome → (s.db.find k).isSome) :
    Sectioned s call
      { s with db, readers := if call'.holdsRead then s.readers + 1 else s.readers } call'
  | adds (r : Reading) :
    Sectioned s (.reader r .missed)
      { s with
        watcher := s.watcher.addKey r.key r.data
        history := .added s.watcher.nodes r.key :: s.history }
      (.reader r (.added s.watcher.nodes))
  | releases (r : Reading) (node : ℕ) :
    Sectioned s (.reader r (.added node)) { s with readers := s.readers - 1 }
      (.reader r (.released node))
  | blocks (call : WaitCall) (r : Reading) (e : WatchEntry) (before after : List WatchEntry)
    (hcall : call.ticket = some e.ticket ∧ call.holdsRead = false ∧ call.holdsWrite = false)
    (hticket : e.ticket = ⟨e.node, r.key, r.data⟩)
    (heq : s.watcher.expectedKeys = before ++ e :: after) (hpending : e.status = .Pending) :
    Sectioned s call
      { s with watcher := ⟨before ++ { e with blocked := true } :: after, s.watcher.nodes⟩ }
      (.reader r (.blocked e.node e.node))
  | takes (call : WaitCall) (r : Reading) (e : WatchEntry) (before after : List WatchEntry)
    (hcall : call.ticket = some e.ticket ∧ call.holdsRead = false ∧ call.holdsWrite = false)
    (heq : s.watcher.expectedKeys = before ++ e :: after) (hpresent : e.status = .KeyPresent) :
    Sectioned s call
      { s with
        watcher := ⟨before ++ after, s.watcher.nodes⟩
        history := .returned e.node e.key .KeyPresent :: s.history }
      (.reader r (.woken .KeyPresent))
  | locks (call : NotifyPut) (sizes : List (ℕ × ℕ)) (hwriting : s.writing = false)
    (hreaders : s.readers = 0) :
    Sectioned s (.put call) { s with writing := true } (.writer call sizes 0 0)
  | stores (call call' : WaitCall) (put : NotifyPut) (key val : Bytes)
    (hcall : call.ticket = none ∧ call.holdsRead = false ∧ call.holdsWrite = true)
    (hkey : call.key = some key) (hcall' : call'.ticket = none ∧ call'.holdsRead = false)
    (hsound : ∀ find, call'.Sound find) :
    Sectioned s call
      { (s.store put key val).2 with writing := call'.holdsWrite && s.writing } call'
  | unlocks (call : NotifyPut) (keyOffset valOffset : ℕ) :
    Sectioned s (.writer call [] keyOffset valOffset) { s with writing := false }
      (.returned .OK none)

section Sections

variable {c : Comparator} {s t : Watched c} {call call' : WaitCall}
  {before after : List WaitCall}

theorem find_of_getPass {find : Bytes → Option Bytes} {mode : Mode} {packed : Bool} {key : Bytes}
    {vsize : ℕ} {g : PackedGet} (h : getPass find mode packed key vsize g = none) :
    find key = none := by
  unfold getPass getPackedBody at h
  cases hk : find key with
  | none => rfl
  | some v =>
    simp only [hk] at h
    split_ifs at h

/-- Where the loops of `get` stop, the key is absent. -/
theorem find_of_getFrom {find : Bytes → Option Bytes} {call : WaitGet} {sizes : List (ℕ × ℕ)}
    {keyOffset : ℕ} {g : PackedGet} {stop : GetStop}
    (h : getFrom find call sizes keyOffset g = .inl stop) :
    find (Reading.get call stop).key = none := by
  induction sizes generalizing keyOffset g with
  | nil => cases h
  | cons p sizes ih =>
    rw [getFrom] at h
    rcases hpass : getPass find call.mode call.packed (slice call.keys keyOffset p.1) p.2 g with
      _ | g'
    · rw [hpass] at h
      cases h
      exact find_of_getPass hpass
    · rw [hpass] at h
      exact ih h

theorem MapDatabase.eraseBody_waits {wait : Bool} {key : Bytes} {db db' : MapDatabase c}
    {status : Status} (h : eraseBody wait key db = (some status, db')) :
    db.find key = none ∧ db' = db := by
  unfold eraseBody at h
  cases hk : db.find key with
  | none =>
    simp only [hk] at h
    split_ifs at h
    · exact ⟨rfl, (Prod.mk.inj h).2.symm⟩
    · cases (Prod.mk.inj h).1
  | some v =>
    simp only [hk] at h
    cases (Prod.mk.inj h).1

/-- The loop of `erase` only removes keys, and where it stops, the key is absent. -/
theorem MapDatabase.eraseFrom_spec (call : WaitErase) (ksizes : List ℕ) (offset : ℕ)
    (db : MapDatabase c) :
    (∀ k, ((eraseFrom call ksizes offset db).2.find k).isSome → (db.find k).isSome) ∧
      ∀ stop out, (eraseFrom call ksizes offset db).1 = .inl stop →
        (eraseFrom call ksizes offset db).2.find (Reading.erase call out stop).key = none := by
  induction ksizes generalizing offset db with
  | nil => exact ⟨fun k h => h, fun stop out h => by cases h⟩
  | cons ksize ksizes ih =>
    rw [eraseFrom]
    split_ifs
    · exact ⟨fun k h => h, fun stop out h => by cases h⟩
    · have hfind := find_eraseBody (call.mode.has .wait) (slice call.keys offset ksize) db
      rcases hbody : eraseBody (call.mode.has .wait) (slice call.keys offset ksize) db with
        ⟨_ | status, db'⟩
      · obtain ⟨hle, hstop⟩ := ih (addSize offset ksize) db'
        refine ⟨fun k hk => ?_, hstop⟩
        have hk' := hle k hk
        rw [hbody] at hfind
        dsimp only at hfind
        rw [hfind, Function.update_apply] at hk'
        split_ifs at hk' with hkey
        · cases hk'
        · exact hk'
      · obtain ⟨hnone, rfl⟩ := eraseBody_waits hbody
        refine ⟨fun k h => h, fun stop out h => ?_⟩
        cases h
        exact hnone

/-- The section of a `get` under the lock. -/
theorem Watched.getSection_reads {get : WaitGet} {sizes : List (ℕ × ℕ)}
    {keyOffset : ℕ} {g : PackedGet} (hwriting : s.writing = false)
    (hcall : call.ticket = none ∧ call.holdsRead = false ∧ call.holdsWrite = false)
    (h : s.getSection get sizes keyOffset g = (t, call')) : Sectioned s call t call' := by
  obtain ⟨rfl, rfl⟩ := Prod.mk.inj h
  refine Sectioned.reads call _ s.db hcall ?_ (fun _ => hwriting) ?_ fun k hk => hk
  · unfold getEnd
    split
    · exact ⟨rfl, rfl⟩
    · dsimp only
      split_ifs <;> exact ⟨rfl, rfl⟩
  · rcases hfrom : getFrom s.db.find get sizes keyOffset g with stop | g'
    · exact find_of_getFrom hfrom
    · unfold getEnd
      dsimp only
      split_ifs <;> trivial

/-- The section of an `erase` under the lock. -/
theorem Watched.eraseSection_reads {erase : WaitErase} {out : Option GetOutput} {ksizes : List ℕ}
    {offset : ℕ} (hwriting : s.writing = false)
    (hcall : call.ticket = none ∧ call.holdsRead = false ∧ call.holdsWrite = false)
    (h : s.eraseSection erase out ksizes offset = (t, call')) : Sectioned s call t call' := by
  obtain ⟨rfl, rfl⟩ := Prod.mk.inj h
  obtain ⟨hle, hstop⟩ := MapDatabase.eraseFrom_spec erase ksizes offset s.db
  rcases hfrom : MapDatabase.eraseFrom erase ksizes offset s.db with ⟨stop | status, db⟩
  · rw [hfrom] at hle hstop
    exact Sectioned.reads call (.reader (.erase erase out stop) .missed) db hcall ⟨rfl, rfl⟩
      (fun _ => hwriting) (hstop stop out rfl) hle
  · rw [hfrom] at hle
    exact Sectioned.reads call (.returned status out) db hcall ⟨rfl, rfl⟩ (fun _ => hwriting)
      trivial hle

/-- A reader that waits has an entry. -/
theorem Ticketed.entry {calls : List WaitCall} (hs : Ticketed s calls) (hcall : call ∈ calls)
    {ticket : Ticket} (hticket : call.ticket = some ticket) :
    ∃ e ∈ s.watcher.expectedKeys, e.ticket = ticket := by
  have hmem : ticket ∈ s.watcher.expectedKeys.map WatchEntry.ticket :=
    hs.tickets.mem_iff.1 (List.mem_filterMap.2 ⟨call, hcall, hticket⟩)
  obtain ⟨e, he, heq⟩ := List.mem_map.1 hmem
  exact ⟨e, he, heq⟩

/-- With at most one reader waiting for each key, no two entries have the same key. -/
theorem Ticketed.nodup_keys {calls : List WaitCall} (hs : Ticketed s calls)
    (hone : OneWaiter calls) : (s.watcher.expectedKeys.map WatchEntry.key).Nodup := by
  have hperm := hs.tickets.map Ticket.key
  rw [List.map_map] at hperm
  exact hperm.nodup_iff.1 hone

/-- A section of `waitKey` on the entry of its caller. -/
theorem Ticketed.waited {calls : List WaitCall} (hs : Ticketed s calls) {r : Reading}
    {e : WatchEntry} (hcall : call.ticket = some ⟨e.node, r.key, r.data⟩ ∧
      call.holdsRead = false ∧ call.holdsWrite = false) (he : e ∈ s.watcher.expectedKeys)
    (hticket : e.ticket = ⟨e.node, r.key, r.data⟩)
    (h : s.waited r e.node (s.watcher.wait e) = (t, call')) : Sectioned s call t call' := by
  obtain ⟨before, after, heq, hne⟩ := hs.watches.split he
  rcases hs.watches.status e he with hpending | ⟨hpresent, -⟩
  · rw [KeyWatcher.wait_pending hpending heq hne] at h
    obtain ⟨rfl, rfl⟩ := Prod.mk.inj h
    exact Sectioned.blocks call r e before after (hticket ▸ hcall) hticket heq hpending
  · rw [KeyWatcher.wait_marked (by rw [hpresent]; decide) heq hne, hpresent] at h
    obtain ⟨rfl, rfl⟩ := Prod.mk.inj h
    rw [show r.key = e.key from (congrArg Ticket.key hticket).symm]
    exact Sectioned.takes call r e before after (hticket ▸ hcall) heq hpresent

/-- What a section does, with at most one reader waiting for each key. -/
theorem Watched.nextSection_cases {calls : List WaitCall} (hs : Ticketed s calls)
    (hone : OneWaiter calls) (hmem : call ∈ calls) (hsound : call.Sound s.db.find)
    (h : s.nextSection call = some (t, call')) : Sectioned s call t call' := by
  -- a call that returns at once has touched neither the database nor the watcher
  have hreturned : ∀ {status out}, (s, WaitCall.returned status out) = (t, call') →
      call.ticket = none ∧ call.holdsRead = false ∧ call.holdsWrite = false →
        Sectioned s call t call' := by
    intro status out heq hcall
    obtain ⟨rfl, rfl⟩ := Prod.mk.inj heq
    exact Sectioned.reads call (.returned status out) s.db hcall ⟨rfl, rfl⟩ (fun h => by cases h)
      trivial fun k hk => hk
  cases call with
  | get get =>
    simp only [nextSection] at h
    split_ifs at h with hlen hwriting hmigrated
    · exact hreturned (Option.some.inj h) ⟨rfl, rfl, rfl⟩
    · exact hreturned (Option.some.inj h) ⟨rfl, rfl, rfl⟩
    · exact getSection_reads (by simpa using hwriting) ⟨rfl, rfl, rfl⟩ (Option.some.inj h)
  | erase erase out =>
    simp only [nextSection] at h
    split_ifs at h with hwriting hmigrated
    · exact hreturned (Option.some.inj h) ⟨rfl, rfl, rfl⟩
    · exact eraseSection_reads (by simpa using hwriting) ⟨rfl, rfl, rfl⟩ (Option.some.inj h)
  | reader r phase =>
    cases phase with
    | missed =>
      obtain ⟨rfl, rfl⟩ := Prod.mk.inj (Option.some.inj h)
      exact Sectioned.adds r
    | added node =>
      obtain ⟨rfl, rfl⟩ := Prod.mk.inj (Option.some.inj h)
      exact Sectioned.releases r node
    | released node =>
      -- no other reader waits for the key, so the entry found is the own one
      obtain ⟨e, he, hticket⟩ := hs.entry hmem rfl
      obtain ⟨rfl, hkey, hdata⟩ := Ticket.mk.inj hticket
      simp only [nextSection, ← hkey, ← hdata,
        KeyWatcher.waitKey_eq hs.watches (hs.nodup_keys hone) he, Option.map_some] at h
      exact hs.waited ⟨rfl, rfl, rfl⟩ he hticket (Option.some.inj h)
    | blocked node entry =>
      obtain ⟨e, he, hticket⟩ := hs.entry hmem rfl
      obtain ⟨rfl, hkey, hdata⟩ := Ticket.mk.inj hticket
      obtain rfl : entry = e.node := hsound
      simp only [nextSection, KeyWatcher.wake_eq hs.watches.nodes he] at h
      split_ifs at h
      · cases h
      · exact hs.waited ⟨rfl, rfl, rfl⟩ he hticket (Option.some.inj h)
    | woken status =>
      -- the lock is taken again, and the loop goes on where it stopped
      simp only [nextSection] at h
      split_ifs at h with hwriting hpresent
      · cases r with
        | get get stop =>
          exact getSection_reads (by simpa using hwriting) ⟨rfl, rfl, rfl⟩ (Option.some.inj h)
        | erase erase out stop =>
          have h : s.eraseSection erase out (stop.ksize :: stop.ksizes) stop.offset = (t, call') :=
            Option.some.inj h
          exact eraseSection_reads (by simpa using hwriting) ⟨rfl, rfl, rfl⟩ h
      · exact hreturned (Option.some.inj h) ⟨rfl, rfl, rfl⟩
  | put put =>
    simp only [nextSection] at h
    split_ifs at h with hlen hkeys hvals hbusy hmigrated
    · exact hreturned (Option.some.inj h) ⟨rfl, rfl, rfl⟩
    · exact hreturned (Option.some.inj h) ⟨rfl, rfl, rfl⟩
    · exact hreturned (Option.some.inj h) ⟨rfl, rfl, rfl⟩
    · exact hreturned (Option.some.inj h) ⟨rfl, rfl, rfl⟩
    · obtain ⟨rfl, rfl⟩ := Prod.mk.inj (Option.some.inj h)
      rw [not_or, not_not] at hbusy
      exact Sectioned.locks put _ (by simpa using hbusy.1) hbusy.2
  | writer put sizes keyOffset valOffset =>
    cases sizes with
    | nil =>
      obtain ⟨rfl, rfl⟩ := Prod.mk.inj (Option.some.inj h)
      exact Sectioned.unlocks put keyOffset valOffset
    | cons p sizes =>
      -- one pair is stored under the lock; a refused pair gives the lock back
      obtain ⟨ksize, vsize⟩ := p
      simp only [nextSection] at h
      have hstores : ∀ call'', call''.ticket = none ∧ call''.holdsRead = false →
          (∀ find, call''.Sound find) → Sectioned s
            (.writer put ((ksize, vsize) :: sizes) keyOffset valOffset) _ call'' := fun call'' =>
        Sectioned.stores (.writer put ((ksize, vsize) :: sizes) keyOffset valOffset) call'' put
          (slice put.keys keyOffset ksize) (slice put.vals valOffset vsize) ⟨rfl, rfl, rfl⟩ rfl
      have hlock := (s.store_lock put (slice put.keys keyOffset ksize)
        (slice put.vals valOffset vsize)).2
      rcases hstore : s.store put (slice put.keys keyOffset ksize)
        (slice put.vals valOffset vsize) with ⟨_ | status, s'⟩
      · simp only [hstore, Option.some.injEq, Prod.mk.injEq] at h hstores hlock
        obtain ⟨rfl, rfl⟩ := h
        have hsection := hstores (.writer put sizes (addSize keyOffset ksize)
          (addSize valOffset vsize)) ⟨rfl, rfl⟩ fun _ => trivial
        rwa [show WaitCall.holdsWrite _ = true from rfl, Bool.true_and, ← hlock] at hsection
      · simp only [hstore, Option.some.injEq, Prod.mk.injEq] at h hstores
        obtain ⟨rfl, rfl⟩ := h
        exact hstores (.returned status none) ⟨rfl, rfl⟩ fun _ => trivial
  | returned status out => cases h

end Sections

/-! ### The invariant -/

/-- The lock counts the readers that hold it, and a writer holds it alone. -/
structure Locked {c : Comparator} (s : Watched c) (calls : List WaitCall) : Prop where
  readers : calls.countP WaitCall.holdsRead = s.readers
  writers : calls.countP WaitCall.holdsWrite = if s.writing then 1 else 0
  alone : s.writing = true → s.readers = 0
  sound : ∀ call ∈ calls, call.Sound s.db.find

/-- An entry that was added and is still there, `since` being what has happened after that. It is
marked exactly if its key has been stored with a notification, and otherwise its key is absent,
unless it has been stored without one. -/
def Waits {c : Comparator} (s : Watched c) (node : ℕ) (key : Bytes) (since : List Happened) :
    Prop :=
  (∀ key' status, .returned node key' status ∉ since) ∧
    ∃ e ∈ s.watcher.expectedKeys, e.node = node ∧ e.key = key ∧
      (e.status = .KeyPresent ↔ .stored key true ∈ since) ∧
      (e.status ≠ .KeyPresent → (s.db.find key).isSome → .stored key false ∈ since)

/-- An entry that was added and has been taken, once, after its key had been stored with a
notification. -/
def Taken {c : Comparator} (s : Watched c) (node : ℕ) (key : Bytes) (since : List Happened) :
    Prop :=
  (∀ e ∈ s.watcher.expectedKeys, e.node ≠ node) ∧
    ∃ later earlier, since = later ++ .returned node key .KeyPresent :: earlier ∧
      .stored key true ∈ earlier ∧ ∀ key' status, .returned node key' status ∉ later ++ earlier

/-- Every entry that was added waits or has been taken, and `waitKey` has only returned for entries
that were added and marked. -/
structure Fated {c : Comparator} (s : Watched c) : Prop where
  lt : ∀ node key, .added node key ∈ s.history → node < s.watcher.nodes
  known : ∀ e ∈ s.watcher.expectedKeys, .added e.node e.key ∈ s.history
  fate : ∀ since node key before, s.history = since ++ .added node key :: before →
    Waits s node key since ∨ Taken s node key since
  returned : ∀ later node key status earlier,
    s.history = later ++ .returned node key status :: earlier →
      status = .KeyPresent ∧ ∃ since before, earlier = since ++ .added node key :: before ∧
        .stored key true ∈ since

/-- The invariant. -/
structure Follows {c : Comparator} (s : Watched c) (calls : List WaitCall) : Prop where
  locked : Locked s calls
  ticketed : Ticketed s calls
  fated : Fated s

section Invariant

variable {c : Comparator} {s t : Watched c} {call call' : WaitCall}
  {before after : List WaitCall}

theorem WaitCall.Sound.mono {find find' : Bytes → Option Bytes} (h : call.Sound find)
    (hle : call.holdsRead = true → ∀ k, (find' k).isSome → (find k).isSome) : call.Sound find' := by
  unfold Sound at *
  split at h
  · next r =>
    have hnone := hle rfl r.key
    rw [h] at hnone
    exact Option.not_isSome_iff_eq_none.1 fun hsome => by simpa using hnone hsome
  · exact h
  · exact h
  · trivial

/-- A section of a call, as far as the lock is concerned. -/
theorem Locked.replace (hs : Locked s (before ++ call :: after))
    (hreaders : t.readers + call.holdsRead.toNat = s.readers + call'.holdsRead.toNat)
    (hwriters : t.writing.toNat + call.holdsWrite.toNat = s.writing.toNat + call'.holdsWrite.toNat)
    (halone : t.writing = true → t.readers = 0) (hsound : call'.Sound t.db.find)
    (hothers : ∀ call ∈ before ++ after, call.Sound s.db.find → call.Sound t.db.find) :
    Locked t (before ++ call' :: after) := by
  have hcount : ∀ p : WaitCall → Bool, (before ++ call' :: after).countP p + (p call).toNat =
      (before ++ call :: after).countP p + (p call').toNat := by
    intro p
    simp only [List.countP_append, List.countP_cons]
    cases p call <;> cases p call' <;> simp <;> omega
  have hread := hcount WaitCall.holdsRead
  have hwrite := hcount WaitCall.holdsWrite
  rw [hs.readers] at hread
  rw [hs.writers] at hwrite
  refine ⟨by omega, ?_, halone, ?_⟩
  · cases hsw : s.writing <;> cases htw : t.writing <;> rw [hsw] at hwrite hwriters <;>
      rw [htw] at hwriters <;> simp only [Bool.toNat_true, Bool.toNat_false, if_true,
        Bool.false_eq_true, if_false] at hwrite hwriters ⊢ <;> omega
  · have hold := hs.sound
    simp only [List.forall_mem_append, List.forall_mem_cons] at hold hothers ⊢
    exact ⟨fun call h => hothers.1 call h (hold.1 call h), hsound,
      fun call h => hothers.2 call h (hold.2.2 call h)⟩

/-- A section that leaves the tickets as they are. -/
theorem Ticketed.replace (hs : Ticketed s (before ++ call :: after)) (ht : t.watcher.Watches)
    (htickets : t.watcher.expectedKeys.map WatchEntry.ticket =
      s.watcher.expectedKeys.map WatchEntry.ticket)
    (hcall : call'.ticket = call.ticket) : Ticketed t (before ++ call' :: after) := by
  refine ⟨ht, ?_⟩
  have hperm := hs.tickets
  rw [htickets]
  simp only [List.filterMap_append, List.filterMap_cons, hcall] at hperm ⊢
  exact hperm

/-- A section in which nothing happens. -/
theorem Fated.quiet (hs : Fated s) (hhistory : t.history = s.history)
    (hnodes : t.watcher.nodes = s.watcher.nodes)
    (hsame : ∀ e ∈ s.watcher.expectedKeys, ∃ e' ∈ t.watcher.expectedKeys,
      e'.node = e.node ∧ e'.key = e.key ∧ e'.status = e.status)
    (hold : ∀ e' ∈ t.watcher.expectedKeys, ∃ e ∈ s.watcher.expectedKeys,
      e.node = e'.node ∧ e.key = e'.key)
    (hle : ∀ k, (t.db.find k).isSome → (s.db.find k).isSome) : Fated t where
  lt node key h := by
    rw [hhistory] at h
    exact hnodes ▸ hs.lt node key h
  known e' he' := by
    obtain ⟨e, he, hnode, hkey⟩ := hold e' he'
    rw [hhistory, ← hnode, ← hkey]
    exact hs.known e he
  returned later node key status earlier h := by
    rw [hhistory] at h
    exact hs.returned later node key status earlier h
  fate since node key before h := by
    rw [hhistory] at h
    refine (hs.fate since node key before h).imp ?_ ?_
    · rintro ⟨hnot, e, he, rfl, rfl, hpresent, hpending⟩
      obtain ⟨e', he', hnode, hkey, hstatus⟩ := hsame e he
      exact ⟨hnot, e', he', hnode, hkey, by rw [hstatus]; exact hpresent, fun hne hsome =>
        hpending (by rwa [← hstatus]) (hle _ hsome)⟩
    · rintro ⟨hgone, htaken⟩
      refine ⟨fun e' he' => ?_, htaken⟩
      obtain ⟨e, he, hnode, -⟩ := hold e' he'
      exact hnode ▸ hgone e he

/-- A section that leaves the watcher as it is. -/
theorem Fated.unseen (hs : Fated s) (hhistory : t.history = s.history)
    (hwatcher : t.watcher = s.watcher) (hle : ∀ k, (t.db.find k).isSome → (s.db.find k).isSome) :
    Fated t := by
  refine hs.quiet hhistory (by rw [hwatcher]) ?_ ?_ hle
  · rw [hwatcher]
    exact fun e he => ⟨e, he, rfl, rfl, rfl⟩
  · rw [hwatcher]
    exact fun e he => ⟨e, he, rfl, rfl⟩

/-- A section in which something happens. -/
theorem Fated.event (hs : Fated s) {x : Happened} (hhistory : t.history = x :: s.history)
    (hnodes : s.watcher.nodes ≤ t.watcher.nodes)
    (hknown : ∀ e' ∈ t.watcher.expectedKeys, x = .added e'.node e'.key ∨
      ∃ e ∈ s.watcher.expectedKeys, e.node = e'.node ∧ e.key = e'.key)
    (hnew : ∀ node key, x = .added node key → node < t.watcher.nodes ∧ Waits t node key [])
    (hreturned : ∀ node key status, x = .returned node key status →
      status = .KeyPresent ∧ ∃ since before, s.history = since ++ .added node key :: before ∧
        .stored key true ∈ since)
    (hold : ∀ since node key, node < s.watcher.nodes →
      Waits s node key since ∨ Taken s node key since →
        Waits t node key (x :: since) ∨ Taken t node key (x :: since)) : Fated t where
  known e' he' := by
    rw [hhistory]
    rcases hknown e' he' with rfl | ⟨e, he, hnode, hkey⟩
    · exact List.mem_cons_self
    · rw [← hnode, ← hkey]
      exact List.mem_cons_of_mem _ (hs.known e he)
  returned later node key status earlier h := by
    rw [hhistory, List.cons_eq_append_iff] at h
    rcases h with ⟨-, h⟩ | ⟨later, -, h⟩
    · obtain ⟨hx, rfl⟩ := List.cons.inj h
      exact hreturned node key status hx.symm
    · exact hs.returned later node key status earlier h
  lt node key h := by
    rw [hhistory] at h
    rcases List.mem_cons.1 h with h | h
    · exact (hnew node key h.symm).1
    · exact (hs.lt node key h).trans_le hnodes
  fate since node key before h := by
    rw [hhistory, List.cons_eq_append_iff] at h
    rcases h with ⟨rfl, h⟩ | ⟨since, rfl, h⟩
    · exact Or.inl (hnew node key (List.cons.inj h).1.symm).2
    · exact hold since node key (hs.lt node key (by rw [h]; simp)) (hs.fate since node key before h)

theorem Taken.cons {node : ℕ} {key : Bytes} {since : List Happened} {x : Happened}
    (h : Taken s node key since) (hx : ∀ key' status, x ≠ .returned node key' status)
    (hgone : ∀ e ∈ t.watcher.expectedKeys, e.node ≠ node) : Taken t node key (x :: since) := by
  obtain ⟨-, later, earlier, rfl, hstored, hnot⟩ := h
  refine ⟨hgone, x :: later, earlier, rfl, hstored, fun key' status hmem => ?_⟩
  rcases List.mem_cons.1 hmem with h | h
  · exact hx key' status h.symm
  · exact hnot key' status h

/-- A reader adds an entry for a key that is absent. -/
theorem Fated.adds (hs : Fated s) {r : Reading}
    (hnone : s.db.find r.key = none) :
    Fated { s with
      watcher := s.watcher.addKey r.key r.data
      history := .added s.watcher.nodes r.key :: s.history } := by
  refine hs.event rfl (Nat.le_succ _) (fun e he => ?_) ?_ (fun _ _ _ h => by cases h) ?_
  · rcases KeyWatcher.mem_addKey.1 he with rfl | he
    · exact Or.inl rfl
    · exact Or.inr ⟨e, he, rfl, rfl⟩
  · rintro node key hx
    obtain ⟨rfl, rfl⟩ := Happened.added.inj hx
    refine ⟨Nat.lt_succ_self _, fun _ _ => List.not_mem_nil, s.watcher.newEntry r.key r.data,
      KeyWatcher.mem_addKey.2 (Or.inl rfl), rfl, rfl, ?_, fun _ hsome => ?_⟩
    · simp [KeyWatcher.newEntry]
    · rw [show MapDatabase.find _ _ = none from hnone] at hsome
      cases hsome
  · intro since node key hlt
    refine Or.imp ?_ ?_
    · rintro ⟨hnot, e, he, hnode, hkey, hpresent, hpending⟩
      refine ⟨by simpa using hnot, e, KeyWatcher.mem_addKey.2 (Or.inr he), hnode, hkey,
        by simpa using hpresent, fun hne hsome => List.mem_cons_of_mem _ (hpending hne hsome)⟩
    · intro htaken
      refine htaken.cons (fun _ _ h => by cases h) fun e he => ?_
      rcases KeyWatcher.mem_addKey.1 he with rfl | he
      · exact hlt.ne'
      · exact htaken.1 e he

/-- A reader takes its entry. -/
theorem Fated.takes (hs : Fated s) (hw : s.watcher.Watches) {e : WatchEntry}
    {front back : List WatchEntry} (heq : s.watcher.expectedKeys = front ++ e :: back)
    (hpresent : e.status = .KeyPresent) :
    Fated { s with
      watcher := ⟨front ++ back, s.watcher.nodes⟩
      history := .returned e.node e.key .KeyPresent :: s.history } := by
  have he : e ∈ s.watcher.expectedKeys := by rw [heq]; simp
  have hothers : ∀ f ∈ front ++ back, f ∈ s.watcher.expectedKeys ∧ f.node ≠ e.node := by
    have hnodes := hw.nodes
    rw [heq, List.map_append, List.map_cons, List.nodup_middle, List.nodup_cons,
      ← List.map_append] at hnodes
    refine fun f hf => ⟨?_, fun h => hnodes.1 (h ▸ List.mem_map_of_mem hf)⟩
    rw [heq]
    rcases List.mem_append.1 hf with h | h
    · exact List.mem_append_left _ h
    · exact List.mem_append_right _ (List.mem_cons_of_mem _ h)
  refine hs.event rfl le_rfl (fun f hf => Or.inr ⟨f, (hothers f hf).1, rfl, rfl⟩)
    (fun _ _ h => by cases h) ?_ ?_
  · rintro node key status hx
    obtain ⟨rfl, rfl, rfl⟩ := Happened.returned.inj hx
    obtain ⟨since, before, hsplit⟩ := List.append_of_mem (hs.known e he)
    refine ⟨rfl, since, before, hsplit, ?_⟩
    rcases hs.fate since e.node e.key before hsplit with ⟨-, f, hf, hnode, -, hstored, -⟩ | htaken
    · rw [hw.eq_of_node hf he hnode] at hstored
      exact hstored.1 hpresent
    · exact absurd rfl (htaken.1 e he)
  rintro since node key - (⟨hnot, f, hf, rfl, rfl, hstored, hpending⟩ | htaken)
  · by_cases hnode : f.node = e.node
    · -- the entry is taken now
      obtain rfl := hw.eq_of_node hf he hnode
      exact Or.inr ⟨fun g hg => (hothers g hg).2, [], since, rfl, hstored.1 hpresent, hnot⟩
    · refine Or.inl ⟨fun key' status hmem => ?_, f, ?_, rfl, rfl, by simpa using hstored,
        fun hne hsome => List.mem_cons_of_mem _ (hpending hne hsome)⟩
      · rcases List.mem_cons.1 hmem with h | h
        · exact hnode (Happened.returned.inj h).1
        · exact hnot key' status h
      · rw [heq] at hf
        rcases List.mem_append.1 hf with h | h
        · exact List.mem_append_left _ h
        · rcases List.mem_cons.1 h with rfl | h
          · exact absurd rfl hnode
          · exact List.mem_append_right _ h
  · refine Or.inr (htaken.cons (fun key' status h => ?_) fun f hf => htaken.1 f (hothers f hf).1)
    exact htaken.1 e he (Happened.returned.inj h).1

/-- A pass of `put` that writes nothing. -/
theorem Watched.store_of_not_writes {put : NotifyPut} {key val : Bytes}
    (h : writes put.mode (s.db.find key).isSome = false) : (s.store put key val).2 = s := by
  have hdb := (MapDatabase.putBody_stores put.mode (put.ksizes.length = 1) key val s.db).2 h
  simp only [Watched.store, h, Bool.false_eq_true, if_false]
  rw [hdb]

/-- An entry after a pass of `put` that writes a key. -/
def afterStore (notify : Bool) (key : Bytes) (e : WatchEntry) : WatchEntry :=
  if notify then KeyWatcher.notified key e else e

@[simp] theorem afterStore_node {notify : Bool} {key : Bytes} {e : WatchEntry} :
    (afterStore notify key e).node = e.node := by
  unfold afterStore
  split_ifs <;> simp

@[simp] theorem afterStore_key {notify : Bool} {key' : Bytes} {e : WatchEntry} :
    (afterStore notify key' e).key = e.key := by
  unfold afterStore
  split_ifs <;> simp

/-- It is marked if the key is stored with a notification, or if it was marked. -/
theorem afterStore_status {notify : Bool} {key : Bytes} {e : WatchEntry} :
    (afterStore notify key e).status = .KeyPresent ↔
      e.status = .KeyPresent ∨ (e.key = key ∧ notify = true) := by
  unfold afterStore KeyWatcher.notified
  split_ifs <;> simp_all

theorem Watched.store_of_writes {put : NotifyPut} {key val : Bytes}
    (h : writes put.mode (s.db.find key).isSome = true) :
    (s.store put key val).2 = { s with
      db := (MapDatabase.putBody put.mode (put.ksizes.length = 1) (key, val) s.db).2
      watcher :=
        { s.watcher with
          expectedKeys := s.watcher.expectedKeys.map (afterStore (put.mode.has .notify) key) }
      history := .stored key (put.mode.has .notify) :: s.history } := by
  have hmap : (if put.mode.has .notify then s.watcher.notifyKey key else s.watcher) =
      { s.watcher with
        expectedKeys := s.watcher.expectedKeys.map (afterStore (put.mode.has .notify) key) } := by
    unfold afterStore
    cases put.mode.has .notify with
    | true => rfl
    | false => simp
  simp only [Watched.store, h, if_true, hmap]

/-- A writer stores a key. -/
theorem Fated.stores (hs : Fated s) {put : NotifyPut} {key val : Bytes} :
    Fated (s.store put key val).2 := by
  cases hwrites : writes put.mode (s.db.find key).isSome with
  | false => rwa [Watched.store_of_not_writes hwrites]
  | true =>
  have hfind := MapDatabase.find_putBody put.mode (put.ksizes.length = 1) (key, val) s.db
  rw [Watched.store_of_writes hwrites]
  refine hs.event rfl le_rfl (fun e' he' => ?_) (fun _ _ h => by cases h)
    (fun _ _ _ h => by cases h) ?_
  · obtain ⟨e, he, rfl⟩ := List.mem_map.1 he'
    exact Or.inr ⟨e, he, afterStore_node.symm, afterStore_key.symm⟩
  rintro since node key' - (⟨hnot, e, he, rfl, rfl, hpresent, hpending⟩ | htaken)
  · refine Or.inl ⟨by simpa using hnot, afterStore (put.mode.has .notify) key e,
      List.mem_map_of_mem he, afterStore_node, afterStore_key, ?_, fun hne hsome => ?_⟩
    · rw [afterStore_status, hpresent, List.mem_cons, Happened.stored.injEq, or_comm,
        @eq_comm _ true]
    · by_cases hkey : e.key = key
      · -- the key has been stored without a notification
        rw [Ne, afterStore_status, not_or, not_and, Bool.not_eq_true] at hne
        rw [hne.2 hkey, hkey]
        exact List.mem_cons_self
      · refine List.mem_cons_of_mem _ (hpending (fun h => hne (afterStore_status.2 (Or.inl h))) ?_)
        dsimp only at hsome
        rwa [hfind, Function.update_of_ne hkey] at hsome
  · refine Or.inr (htaken.cons (fun _ _ h => by cases h) fun e' he' => ?_)
    obtain ⟨e, he, rfl⟩ := List.mem_map.1 he'
    exact afterStore_node.trans_ne (htaken.1 e he)

/-- What a pass of `put` does to the watcher. -/
theorem Watched.store_watcher (s : Watched c) (put : NotifyPut) (key val : Bytes) :
    (s.store put key val).2.watcher = s.watcher ∨
      (s.store put key val).2.watcher = s.watcher.notifyKey key := by
  simp only [Watched.store]
  split_ifs
  · exact Or.inr rfl
  · exact Or.inl rfl
  · exact Or.inl rfl

theorem Watched.store_watches (hw : s.watcher.Watches) (put : NotifyPut) (key val : Bytes) :
    (s.store put key val).2.watcher.Watches ∧
      (s.store put key val).2.watcher.expectedKeys.map WatchEntry.ticket =
        s.watcher.expectedKeys.map WatchEntry.ticket := by
  rcases s.store_watcher put key val with h | h
  · rw [h]
    exact ⟨hw, rfl⟩
  · rw [h, KeyWatcher.notifyKey_expectedKeys, List.map_map]
    exact ⟨KeyWatcher.notifyKey_watches hw,
      List.map_congr_left fun e _ => KeyWatcher.notified_ticket⟩

/-- A writer that has not finished holds the lock. -/
theorem Locked.writing {calls : List WaitCall} (hs : Locked s calls) (hmem : call ∈ calls)
    (hcall : call.holdsWrite = true) : s.writing = true := by
  have hpos : 0 < calls.countP WaitCall.holdsWrite := List.countP_pos_iff.2 ⟨call, hmem, hcall⟩
  rw [hs.writers] at hpos
  by_contra hnot
  rw [if_neg hnot] at hpos
  exact lt_irrefl 0 hpos

/-- A section keeps the invariant. -/
theorem Follows.section (hs : Follows s (before ++ call :: after))
    (hone : OneWaiter (before ++ call :: after)) (h : s.nextSection call = some (t, call')) :
    Follows t (before ++ call' :: after) := by
  obtain ⟨hlocked, hticketed, hfated⟩ := hs
  have hmem : call ∈ before ++ call :: after := by simp
  have hsound := hlocked.sound call hmem
  have hwatches := hticketed.watches
  have hkeeps : ∀ {db : MapDatabase c}, (∀ k, (db.find k).isSome → (s.db.find k).isSome) →
      ∀ call ∈ before ++ after, call.Sound s.db.find → call.Sound db.find :=
    fun hle call _ hcall => hcall.mono fun _ => hle
  -- for each kind of section, the lock, then the tickets, then the fate of the reader
  cases Watched.nextSection_cases hticketed hone hmem hsound h with
  | reads _ _ db hcall hcall' hfree hsound' hle =>
    refine ⟨hlocked.replace ?_ ?_ ?_ hsound' (hkeeps hle), hticketed.replace hwatches rfl ?_,
      hfated.unseen rfl rfl hle⟩
    · rw [hcall.2.1]
      cases call'.holdsRead <;> rfl
    · rw [hcall.2.2, hcall'.2]
    · intro hwriting
      have hnot : ¬ call'.holdsRead = true := fun hread => by
        rw [hfree hread] at hwriting
        cases hwriting
      exact (if_neg hnot).trans (hlocked.alone hwriting)
    · rw [hcall.1, hcall'.1]
  | adds r =>
    refine ⟨hlocked.replace rfl rfl hlocked.alone trivial fun _ _ h => h, ⟨?_, ?_⟩,
      hfated.adds hsound⟩
    · exact KeyWatcher.addKey_watches hwatches
    · -- the ticket leaves the calls with the entry
      have htickets := hticketed.tickets
      refine List.Perm.trans ?_ (KeyWatcher.addKey_perm.map _).symm
      simp only [List.filterMap_append, List.filterMap_cons, WaitCall.ticket] at htickets ⊢
      exact List.perm_middle.trans (htickets.cons _)
  | releases r node =>
    have hcount : 0 < s.readers := by
      rw [← hlocked.readers]
      exact List.countP_pos_iff.2 ⟨_, hmem, rfl⟩
    refine ⟨hlocked.replace ?_ rfl ?_ trivial fun _ _ h => h, hticketed.replace hwatches rfl rfl,
      hfated.unseen rfl rfl fun _ h => h⟩
    · show s.readers - 1 + 1 = s.readers + 0
      omega
    · intro hwriting
      have := hlocked.alone hwriting
      omega
  | blocks _ r e front back hcall hticket heq hpending =>
    refine ⟨hlocked.replace ?_ ?_ hlocked.alone rfl fun _ _ h => h,
      hticketed.replace (hwatches.block heq hpending) ?_ ?_,
      hfated.quiet rfl rfl ?_ ?_ fun _ h => h⟩
    · rw [hcall.2.1]
      rfl
    · rw [hcall.2.2]
      rfl
    · rw [heq]
      simp [WatchEntry.ticket]
    · rw [hcall.1, hticket]
      rfl
    · rw [heq]
      intro f hf
      rcases List.mem_append.1 hf with hf | hf
      · exact ⟨f, List.mem_append_left _ hf, rfl, rfl, rfl⟩
      · rcases List.mem_cons.1 hf with rfl | hf
        · exact ⟨_, List.mem_append_right _ List.mem_cons_self, rfl, rfl, rfl⟩
        · exact ⟨f, List.mem_append_right _ (List.mem_cons_of_mem _ hf), rfl, rfl, rfl⟩
    · rw [heq]
      intro f hf
      rcases List.mem_append.1 hf with hf | hf
      · exact ⟨f, List.mem_append_left _ hf, rfl, rfl⟩
      · rcases List.mem_cons.1 hf with rfl | hf
        · exact ⟨e, List.mem_append_right _ List.mem_cons_self, rfl, rfl⟩
        · exact ⟨f, List.mem_append_right _ (List.mem_cons_of_mem _ hf), rfl, rfl⟩
  | takes _ r e front back hcall heq hpresent =>
    refine ⟨hlocked.replace ?_ ?_ hlocked.alone rfl fun _ _ h => h, ⟨hwatches.remove heq, ?_⟩,
      hfated.takes hwatches heq hpresent⟩
    · rw [hcall.2.1]
      rfl
    · rw [hcall.2.2]
      rfl
    · have htickets := hticketed.tickets
      rw [heq] at htickets
      simp only [List.filterMap_append, List.filterMap_cons, hcall.1, List.map_append,
        List.map_cons] at htickets
      rw [List.filterMap_append, List.filterMap_cons_none rfl, List.map_append]
      exact (List.perm_middle.symm.trans (htickets.trans List.perm_middle)).cons_inv
  | locks put sizes hwriting hreaders =>
    refine ⟨hlocked.replace rfl ?_ (fun _ => hreaders) trivial fun _ _ h => h,
      hticketed.replace hwatches rfl rfl,
      hfated.unseen rfl rfl fun _ h => h⟩
    show 1 + 0 = s.writing.toNat + 1
    rw [hwriting]
    rfl
  | stores _ _ put key val hcall hkey hcall' hsound' =>
    have hwriting := hlocked.writing hmem hcall.2.2
    have hreaders := hlocked.alone hwriting
    obtain ⟨hlockr, -⟩ := s.store_lock put key val
    obtain ⟨hwatches', htickets⟩ := Watched.store_watches hwatches put key val
    refine ⟨hlocked.replace ?_ ?_ (fun _ => hlockr.trans hreaders) (hsound' _) ?_,
      hticketed.replace hwatches' htickets (hcall'.1.trans hcall.1.symm),
      hfated.stores.unseen rfl rfl fun _ h => h⟩
    · rw [hcall.2.1, hcall'.2]
      exact hlockr
    · rw [hcall.2.2, hwriting, Bool.and_true, Nat.add_comm]
    · -- no other call is inside its own section of the lock
      refine fun other hother h => h.mono fun hread => ?_
      have hpos : 0 < s.readers := by
        rw [← hlocked.readers]
        exact List.countP_pos_iff.2 ⟨other, by
          rcases List.mem_append.1 hother with h | h <;> simp [h], hread⟩
      omega
  | unlocks put keyOffset valOffset =>
    have hwriting := hlocked.writing hmem rfl
    refine ⟨hlocked.replace rfl ?_ (fun h => by cases h) trivial fun _ _ h => h,
      hticketed.replace hwatches rfl rfl,
      hfated.unseen rfl rfl fun _ h => h⟩
    show 0 + 1 = s.writing.toNat + 0
    rw [hwriting]
    rfl

/-- A section leaves the entries of other keys as they are. -/
theorem Sectioned.entriesOf (h : Sectioned s call t call') {key' : Bytes}
    (hne : call.key ≠ some key') : t.watcher.entriesOf key' = s.watcher.entriesOf key' := by
  have hticket : ∀ {ticket : Ticket}, call.ticket = some ticket → ticket.key ≠ key' := by
    rintro ticket h rfl
    refine hne ?_
    cases call with
    | reader r phase =>
      cases phase <;> cases h <;> rfl
    | get | erase | put | writer | returned => cases h
  cases h with
  | reads | releases | locks | unlocks => rfl
  | adds r => exact KeyWatcher.entriesOf_addKey fun h => hne (congrArg some h)
  | blocks _ r e front back hcall _ heq =>
    have hkey : e.key ≠ key' := hticket hcall.1
    unfold KeyWatcher.entriesOf
    rw [heq]
    simp [hkey]
  | takes _ r e front back hcall heq =>
    have hkey : e.key ≠ key' := hticket hcall.1
    unfold KeyWatcher.entriesOf
    rw [heq]
    simp [hkey]
  | stores _ _ put key val hcall hkey =>
    show (s.store put key val).2.watcher.entriesOf key' = _
    rcases s.store_watcher put key val with h | h
    · rw [h]
    · rw [h]
      exact KeyWatcher.entriesOf_notifyKey fun h => hne (hkey.trans (congrArg some h))

/-- A reader whose key has been stored with a notification since it added its entry, and which has
released the lock, goes on: its `waitKey` returns. -/
theorem Follows.wakes {calls : List WaitCall} (hs : Follows s calls) (hone : OneWaiter calls)
    {r : Reading} {phase : WaitPhase} (hmem : .reader r phase ∈ calls) {node : ℕ}
    (hphase : phase = .released node ∨ ∃ entry, phase = .blocked node entry)
    {since before : List Happened} (hsplit : s.history = since ++ .added node r.key :: before)
    (hstored : .stored r.key true ∈ since) :
    ∃ t, s.nextSection (.reader r phase) = some (t, .reader r (.woken .KeyPresent)) := by
  obtain ⟨hlocked, hticketed, hfated⟩ := hs
  have hwatches := hticketed.watches
  have hticket : (WaitCall.reader r phase).ticket = some ⟨node, r.key, r.data⟩ := by
    rcases hphase with rfl | ⟨entry, rfl⟩
    · rfl
    · rfl
  obtain ⟨e, he, heq⟩ := hticketed.entry hmem hticket
  obtain ⟨rfl, hkey, hdata⟩ := Ticket.mk.inj heq
  have hpresent : e.status = .KeyPresent := by
    rcases hfated.fate since e.node r.key before hsplit with
      ⟨-, f, hf, hnode, -, hmarked, -⟩ | htaken
    · rw [hwatches.eq_of_node hf he hnode] at hmarked
      exact hmarked.2 hstored
    · exact absurd rfl (htaken.1 e he)
  have hblocked : e.blocked = false := by
    rcases hwatches.status e he with h | h
    · rw [hpresent] at h
      cases h
    · exact h.2
  obtain ⟨front, back, hsplit, hne⟩ := hwatches.split he
  have hwait := KeyWatcher.wait_marked (by rw [hpresent]; decide) hsplit hne
  rw [hpresent] at hwait
  refine ⟨{ s with
    watcher := ⟨front ++ back, s.watcher.nodes⟩
    history := .returned e.node r.key .KeyPresent :: s.history }, ?_⟩
  rcases hphase with rfl | ⟨entry, rfl⟩
  · simp only [Watched.nextSection, ← hkey, ← hdata,
      KeyWatcher.waitKey_eq hwatches (hticketed.nodup_keys hone) he, hwait, Option.map_some]
    rw [hkey]
    rfl
  · obtain rfl : entry = e.node := hlocked.sound _ hmem
    simp only [Watched.nextSection, KeyWatcher.wake_eq hwatches.nodes he, hblocked, Bool.false_eq_true,
      if_false, hwait, Option.map_some]
    rfl

end Invariant

/-! ### The runs -/

/-- The calls that come in. -/
def WaitCall.Arrives : WaitCall → Prop
  | get _ | erase _ none | put _ => True
  | _ => False

instance (call : WaitCall) : Decidable call.Arrives :=
  match call with
  | .get _ | .erase _ none | .put _ => isTrue trivial
  | .erase _ (some _) | .reader _ _ | .writer _ _ _ _ | .returned _ _ => isFalse id

/-- Calls of `get`, `erase` and `put` come in, and run their sections in any order. -/
def Interleaved {c : Comparator} (_ : System (Watched c) WaitCall) : Event WaitCall → Prop
  | .start call => call.Arrives
  | .next _ => True

instance {c : Comparator} (u : System (Watched c) WaitCall) (e : Event WaitCall) :
    Decidable (Interleaved u e) := by
  unfold Interleaved
  cases e <;> infer_instance

/-- A database before any call. -/
def Watched.initial {c : Comparator} (db : MapDatabase c) : System (Watched c) WaitCall :=
  ⟨⟨db, .empty, 0, false, []⟩, []⟩

/-- Every entry that was added waits, marked exactly if its key has been stored with a notification
since, or has been taken, once; it belongs to one reader, which takes it when it can; `waitKey`
returns for keys stored with a notification since the registration only; and sections do not touch
the entries of other keys. -/
structure NoLostWakeup {c : Comparator} (u : System (Watched c) WaitCall) : Prop where
  added : ∀ since node key before, u.shared.history = since ++ .added node key :: before →
    Waits u.shared node key since ∨ Taken u.shared node key since
  owned : (u.calls.filterMap WaitCall.ticket).Perm
      (u.shared.watcher.expectedKeys.map WatchEntry.ticket) ∧
    (u.shared.watcher.expectedKeys.map WatchEntry.node).Nodup
  wakes : ∀ r phase node, .reader r phase ∈ u.calls →
    (phase = .released node ∨ ∃ entry, phase = .blocked node entry) → ∀ since before,
      u.shared.history = since ++ .added node r.key :: before → .stored r.key true ∈ since →
        ∃ t, u.shared.nextSection (.reader r phase) = some (t, .reader r (.woken .KeyPresent))
  returned : ∀ later node key status earlier,
    u.shared.history = later ++ .returned node key status :: earlier →
      status = .KeyPresent ∧ ∃ since before, earlier = since ++ .added node key :: before ∧
        .stored key true ∈ since
  untouched : ∀ call ∈ u.calls, ∀ t call', u.shared.nextSection call = some (t, call') →
    ∀ key, call.key ≠ some key → t.watcher.entriesOf key = u.shared.watcher.entriesOf key

theorem Follows.initial {c : Comparator} (db : MapDatabase c) :
    Follows (Watched.initial db).shared (Watched.initial db).calls where
  locked := ⟨rfl, rfl, Bool.noConfusion, by simp [Watched.initial]⟩
  ticketed := ⟨KeyWatcher.empty_watches, List.Perm.refl _⟩
  fated := by
    constructor <;> simp [Watched.initial, KeyWatcher.empty]

/-- A call comes in. -/
theorem Follows.start {c : Comparator} {s : Watched c} {calls : List WaitCall} {call : WaitCall}
    (hs : Follows s calls) (hcall : call.Arrives) : Follows s (calls ++ [call]) := by
  obtain ⟨hlocked, hticketed, hfated⟩ := hs
  obtain ⟨hticket, hread, hwrite, hsound⟩ : call.ticket = none ∧ call.holdsRead = false ∧
      call.holdsWrite = false ∧ call.Sound s.db.find := by
    cases call with
    | get | erase | put => exact ⟨rfl, rfl, rfl, trivial⟩
    | reader | writer | returned => exact hcall.elim
  refine ⟨⟨?_, ?_, hlocked.alone, ?_⟩, ⟨hticketed.watches, ?_⟩, hfated⟩
  · rw [List.countP_append, hlocked.readers]
    simp [hread]
  · rw [List.countP_append, hlocked.writers]
    simp [hwrite]
  · exact List.forall_mem_append.2 ⟨hlocked.sound, by simpa using hsound⟩
  · rw [List.filterMap_append, List.filterMap_cons_none hticket, List.filterMap_nil,
      List.append_nil]
    exact hticketed.tickets

/-- The invariant holds along every run with at most one reader waiting for each key. -/
theorem Follows.run {c : Comparator} {db : MapDatabase c} {v : System (Watched c) WaitCall}
    {es : List (Event WaitCall)}
    (hrun : Run (StepOption (Interleaving.step Watched.nextSection) Interleaved)
      (Watched.initial db) es v)
    (hone : Throughout (StepOption (Interleaving.step Watched.nextSection) Interleaved)
      (fun u => OneWaiter u.calls) (Watched.initial db) es) :
    Follows v.shared v.calls := by
  refine hrun.invariant_throughout (I := fun u => Follows u.shared u.calls) ?_ hone ?_
  · rintro ⟨s, calls⟩ e t hone hs ⟨hok, hstep⟩
    rcases step_cases hstep with
      ⟨call, rfl, rfl⟩ | ⟨before, call, after, t, call', rfl, rfl, hsection, rfl⟩
    · exact hs.start hok
    · exact hs.section hone hsection
  · exact Follows.initial db

/-- With at most one reader waiting for each key, no wakeup is lost, whatever the order of the
sections. -/
theorem no_lost_wakeup {c : Comparator} {db : MapDatabase c} {v : System (Watched c) WaitCall}
    {es : List (Event WaitCall)}
    (hrun : Run (StepOption (Interleaving.step Watched.nextSection) Interleaved)
      (Watched.initial db) es v)
    (hone : Throughout (StepOption (Interleaving.step Watched.nextSection) Interleaved)
      (fun u => OneWaiter u.calls) (Watched.initial db) es) :
    NoLostWakeup v := by
  have hs := Follows.run hrun hone
  have hv : OneWaiter v.calls := hone.last hrun
  exact ⟨hs.fated.fate, ⟨hs.ticketed.tickets, hs.ticketed.watches.nodes⟩,
    fun r phase node hmem hphase since before => hs.wakes hv hmem hphase, hs.fated.returned,
    fun call hmem t call' hsection key hne =>
      (Watched.nextSection_cases hs.ticketed hv hmem (hs.locked.sound call hmem)
        hsection).entriesOf hne⟩

/-- A reader waits for a key that a writer stores. -/
def waitedPut : List (Event WaitCall) :=
  [.start (.get ⟨.wait, false, 64, [1], [1], [0], [1]⟩), .next 0, .next 0, .next 0, .next 0,
    .start (.put ⟨.notify, [1], [1], [7], [1]⟩), .next 1, .next 1, .next 0, .next 1, .next 0]

/-- The reader is blocked when the writer notifies it, and returns the value. -/
theorem no_lost_wakeup_waitedPut :
    ∃ v, Run (StepOption (Interleaving.step Watched.nextSection) Interleaved)
        (Watched.initial (MapDatabase.empty .default)) waitedPut v ∧
      Throughout (StepOption (Interleaving.step Watched.nextSection) Interleaved)
        (fun u => OneWaiter u.calls) (Watched.initial (MapDatabase.empty .default)) waitedPut ∧
      v.shared.history = [.returned 0 [1] .KeyPresent, .stored [1] true, .added 0 [1]] ∧
      NoLostWakeup v := by
  have hfacts : (follow (Interleaving.step Watched.nextSection) (fun u e =>
      Interleaved u e ∧ ∀ t ∈ Interleaving.step Watched.nextSection u e, OneWaiter t.calls)
      (Watched.initial (MapDatabase.empty .default)) waitedPut).map (fun v => v.shared.history) =
      some [.returned 0 [1] .KeyPresent, .stored [1] true, .added 0 [1]] := by decide
  obtain ⟨v, hv, hhistory⟩ := Option.map_eq_some_iff.1 hfacts
  have hguarded := run_iff_follow.2 hv
  have hrun : Run (StepOption (Interleaving.step Watched.nextSection) Interleaved)
      (Watched.initial (MapDatabase.empty .default)) waitedPut v :=
    hguarded.mono fun _ _ _ h => ⟨h.1.1, h.2⟩
  have hone := (run_guarded_iff (I := fun _ => True) (P := fun u => OneWaiter u.calls)
    (fun _ _ _ _ _ => trivial)
    (fun u e t _ _ h => ⟨fun hguard => hguard t h.2, fun hP w hw => by
      rw [← Option.some.inj (h.2.symm.trans hw)]
      exact hP⟩) trivial (by decide) hrun).1 hguarded
  exact ⟨v, hrun, hone, hhistory, no_lost_wakeup hrun hone⟩

end Yokan
