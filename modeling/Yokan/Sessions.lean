import Yokan.Library.Transition
import Yokan.Requests

/-!
# Yokan: what the clients of a database see

A session is a run of calls of clients to one in-memory database, in the order in which it serves
them. Each call goes its own way: the keys lie apart or back to back, they travel through RDMA or
inside the RPC, the handler takes a buffer of the pool that holds what its last user has left there,
and the answer is written over arrays of the client that hold anything.

* `Call.run`: a call through the client library, the network and the handler;
* `Call.answer`: the call on a finite map, which knows of none of this;
* `sessions_refine`: the answers to a session are those of the finite map;
* `sessions_agree`: so two databases that start with the same content cannot be told apart.
-/

namespace Yokan

open Buffer PartialMap

/-! ### Calls -/

/-- Where the keys and the values of a request lie. -/
inductive Layout
  | multi
  | packed
  deriving DecidableEq

/-- The way that a call takes. -/
structure Route where
  layout : Layout
  rdma : Bool
  deriving DecidableEq

/-- The mode with which a call takes its way. -/
def Route.mode (route : Route) (mode : Mode) : Mode :=
  if route.rdma then mode else mode ||| .noRdma

/-- A call of a client; `get` says how many bytes there are for the values. -/
inductive Call
  | put (mode : Mode) (pairs : List (Bytes × Bytes))
  | erase (mode : Mode) (keys : List Bytes)
  | existsKeys (mode : Mode) (keys : List Bytes)
  | length (mode : Mode) (keys : List Bytes)
  | get (mode : Mode) (keys : List Bytes) (room : ℕ)
  deriving DecidableEq

/-- What a client finds for a key after a `get`. -/
inductive Found
  | missing
  | tooSmall
  | value (val : Bytes)
  deriving DecidableEq

/-- What a client learns from a call. -/
inductive Response
  | failed (ret : ReturnCode)
  | done
  | flags (flags : List Bool)
  | sizes (sizes : List ℕ)
  | values (found : List Found)
  deriving DecidableEq

namespace Call

def keys : Call → List Bytes
  | put _ pairs => pairs.map Prod.fst
  | erase _ keys => keys
  | existsKeys _ keys => keys
  | length _ keys => keys
  | get _ keys _ => keys

def mode : Call → Mode
  | put mode _ => mode
  | erase mode _ => mode
  | existsKeys mode _ => mode
  | length mode _ => mode
  | get mode _ _ => mode

/-- The bytes of the values that are sent, or the room for those that are received. -/
def room : Call → ℕ
  | put _ pairs => (pairs.map Prod.snd).flatten.length
  | get _ _ room => room
  | _ => 0

/-- `YOKAN_MODE_WAIT` has a reader wait; to a `put`, the same bit says that the readers are told. -/
def waits : Call → Bool
  | put _ _ => false
  | c => c.mode.has .wait

end Call

/-- The memory that a call works on: the arrays of the client and the buffer of the server. -/
structure CallMemory where
  flags : Bytes
  vsizes : List ℕ
  vals : Bytes
  pooled : Bytes

/-- A call that can be made: it has keys, none of them empty and not too many for the loops of the
client, and its arrays and the buffer have the sizes that it needs. -/
structure Call.Fits (c : Call) (mem : CallMemory) : Prop where
  keys_ne_nil : c.keys ≠ []
  nil_notMem : [] ∉ c.keys
  count_lt : c.keys.length < 2 ^ 32
  flags_eq : mem.flags.length = c.keys.length
  vsizes_eq : mem.vsizes.length = c.keys.length
  vals_eq : mem.vals.length = c.room
  pooled_le : 16 * c.keys.length + c.keys.flatten.length + c.room ≤ mem.pooled.length
  pooled_lt : mem.pooled.length < 2 ^ 63

/-! ### A call on its way -/

/-- A client reads its arrays after a `get`. -/
def readValues : List ℕ → Bytes → List Found
  | [], _ => []
  | size :: sizes, vals =>
    if size = keyNotFound then .missing :: readValues sizes vals
    else if size = sizeTooSmall then .tooSmall :: readValues sizes vals
    else .value (vals.take size) :: readValues sizes (vals.drop size)

/-- What a client makes of a return code and of an array. -/
def Response.of {α : Type} (ret : ReturnCode) (read : α → Response) (array : α) : Response :=
  if ret = .SUCCESS then read array else .failed ret

/-- A call, from the client through the handler and back, if the loops of the client end. -/
def Call.run {σ : Type} [DatabaseInterface σ] (c : Call) (route : Route) (mem : CallMemory) (s : σ) :
    Option (Response × σ) :=
  let ksizes := c.keys.map List.length
  match c with
  | .put mode pairs =>
    let keys := pairs.map Prod.fst
    let vals := pairs.map Prod.snd
    let r := match route.layout with
      | .multi => ykPutMulti (route.mode mode) keys vals mem.pooled s
      | .packed => ykPutPacked (route.mode mode) keys.flatten ksizes (some vals.flatten)
          (vals.map List.length) mem.pooled s
    some (.of r.1 (fun _ => .done) (), r.2)
  | .erase mode keys =>
    let r := match route.layout with
      | .multi => ykEraseMulti (route.mode mode) keys mem.pooled s
      | .packed => some (ykErasePacked (route.mode mode) keys.flatten ksizes mem.pooled s)
    r.map fun (ret, s) => (.of ret (fun _ => .done) (), s)
  | .existsKeys mode keys =>
    let r := match route.layout with
      | .multi => ykExistsMulti (route.mode mode) keys mem.flags mem.pooled s
      | .packed => some (ykExistsPacked (route.mode mode) keys.flatten ksizes mem.flags mem.pooled s)
    r.map fun (ret, flags) => (.of ret
      (fun flags => .flags ((List.range keys.length).map (ykUnpackExistsFlag flags))) flags, s)
  | .length mode keys =>
    let r := match route.layout with
      | .multi => ykLengthMulti (route.mode mode) keys mem.vsizes mem.pooled s
      | .packed => some (ykLengthPacked (route.mode mode) keys.flatten ksizes mem.vsizes mem.pooled s)
    r.map fun (ret, vsizes) => (.of ret .sizes vsizes, s)
  | .get mode keys _ =>
    let r := ykGetPacked (route.mode mode) keys.flatten ksizes ⟨mem.vals, mem.vsizes⟩ mem.pooled s
    some (.of r.1 (fun arrays => .values (readValues arrays.vsizes arrays.vals)) r.2.1, r.2.2)

/-! ### A call on a finite map -/

/-- What is found for some keys when the values go into `room` bytes, one after the other: once a
value has not fit, none is taken any more. -/
def foundIn {κ : Type} (m : κ → Option Bytes) : List κ → ℕ → Bool → List Found
  | [], _, _ => []
  | k :: ks, room, full =>
    match m k with
    | none => .missing :: foundIn m ks room full
    | some v =>
      if full ∨ room < v.length then .tooSmall :: foundIn m ks room true
      else .value v :: foundIn m ks (room - v.length) full

namespace Call

/-- What a call does to a finite map. -/
def effect (m : Bytes → Option Bytes) : Call → Response × (Bytes → Option Bytes)
  | put mode pairs =>
    (.of (putStatus mode m pairs).code (fun _ => .done) (), writeAll (putRule mode) m pairs)
  | erase _ keys => (.done, eraseAll m keys)
  | existsKeys _ keys => (.flags (keys.map fun k => (m k).isSome), m)
  | length _ keys => (.sizes (keys.map fun k => entrySize (m k)), m)
  | get mode keys room =>
    (.values (foundIn m keys room false), if mode.has .consume then eraseAll m keys else m)

/-- The answer to a call, whose mode must be a valid one, and the map after it. -/
def answer (c : Call) (m : Bytes → Option Bytes) : Response × (Bytes → Option Bytes) :=
  if checkModeValid c.mode && inMemorySupportsMode c.mode then c.effect m
  else (.failed .ERR_MODE, m)

end Call

/-! ### `YOKAN_MODE_NO_RDMA` says nothing to the database -/

theorem Route.has_mode (route : Route) (mode flag : Mode) (h : .noRdma &&& flag = 0#32) :
    (route.mode mode).has flag = mode.has flag := by
  unfold Route.mode
  split_ifs
  · rfl
  · exact Mode.has_or_of_disjoint h mode

theorem Route.putRule_mode (route : Route) (mode : Mode) :
    putRule (route.mode mode) = putRule mode := by
  have hnewOnly := route.has_mode mode .newOnly (by decide)
  have hexistOnly := route.has_mode mode .existOnly (by decide)
  have happend := route.has_mode mode .append (by decide)
  funext old val
  rw [putRule, putRule, hnewOnly, hexistOnly, happend]

theorem Route.putStatus_mode {κ : Type} (route : Route) (mode : Mode) (m : κ → Option Bytes)
    (ps : List (κ × Bytes)) : putStatus (route.mode mode) m ps = putStatus mode m ps := by
  have hnewOnly := route.has_mode mode .newOnly (by decide)
  have hexistOnly := route.has_mode mode .existOnly (by decide)
  unfold putStatus
  rw [hnewOnly, hexistOnly]

theorem Route.checked_mode (route : Route) (mode : Mode) :
    (checkModeValid (route.mode mode) && inMemorySupportsMode (route.mode mode)) =
      (checkModeValid mode && inMemorySupportsMode mode) := by
  unfold Route.mode
  split_ifs
  · rfl
  · rw [checkModeValid_noRdma, inMemorySupportsMode_noRdma]

/-! ### One call -/

/-- The arrays of a client say what has been found. -/
theorem readValues_packedValues (m : Bytes → Option Bytes) (ks : List Bytes) {room : ℕ}
    (hroom : room ≤ lastValidSize) (full : Bool) (rest : Bytes) :
    readValues (packedValues m ks room full).1 ((packedValues m ks room full).2 ++ rest) =
      foundIn m ks room full := by
  have hmarks : sizeTooSmall ≠ keyNotFound := by decide
  induction ks generalizing room full with
  | nil => rfl
  | cons k ks ih =>
    unfold packedValues foundIn
    cases m k with
    | none =>
      dsimp only
      rw [readValues, if_pos rfl, ih hroom]
    | some v =>
      dsimp only
      split_ifs with hfull
      · rw [readValues, if_neg hmarks, if_pos rfl, ih hroom]
      · -- a size that fits is not one of the marks
        have hproper : v.length ≤ lastValidSize := by omega
        have hmissing : v.length ≠ keyNotFound := by
          have := lastValidSize_lt_noMoreKeys
          have := noMoreKeys_lt_sizeTooSmall
          have := sizeTooSmall_lt_keyNotFound
          omega
        have hsmall : v.length ≠ sizeTooSmall := by
          have := lastValidSize_lt_noMoreKeys
          have := noMoreKeys_lt_sizeTooSmall
          omega
        rw [readValues, if_neg hmissing, if_neg hsmall, List.append_assoc, List.take_left,
          List.drop_left, ih (by omega)]

section Step

variable {σ : Type} [InMemory σ] {s : σ} {mem : CallMemory}

open DatabaseInterface FiniteMapStore

/-- A database that serves, and no value of which is longer than a `size_t` can say. -/
structure Held (s : σ) : Prop where
  serving : Serving s
  lt : ∀ key val, contents s key = some val → val.length < 2 ^ 64

/-- What has become of a call on a finite map. -/
def Refines (r : Option (Response × σ)) (a : Response × (Bytes → Option Bytes)) : Prop :=
  ∃ t, r = some (a.1, t) ∧ Serving t ∧ contents t = a.2

/-- A client is told the response, and the database holds the map. -/
theorem Refines.of_eq {r : Response × σ} {a : Response × (Bytes → Option Bytes)}
    (hresponse : r.1 = a.1) (hserving : Serving r.2) (hcontents : contents r.2 = a.2) :
    Refines (some r) a :=
  ⟨r.2, congrArg some (Prod.ext hresponse rfl), hserving, hcontents⟩

/-- A call is refused for its mode, or it is what the database does. -/
theorem refines_of_checked {c : Call} (route : Route) (hs : Held s) {r : Option (Response × σ)}
    (hrefused : (checkModeValid (route.mode c.mode) && supportsMode σ (route.mode c.mode)) = false →
      r = some (.failed .ERR_MODE, s))
    (hserved : (checkModeValid (route.mode c.mode) && supportsMode σ (route.mode c.mode)) = true →
      Refines r (c.effect (contents s))) : Refines r (c.answer (contents s)) := by
  have hchecked : (checkModeValid (route.mode c.mode) && supportsMode σ (route.mode c.mode)) = _ :=
    route.checked_mode c.mode
  rw [hchecked] at hrefused hserved
  unfold Call.answer
  split_ifs with hmode
  · exact hserved hmode
  · exact ⟨s, hrefused (Bool.eq_false_iff.2 hmode), hs.serving, rfl⟩

namespace Call

theorem Fits.count_le {c : Call} (h : c.Fits mem) : c.keys.length ≤ 2 ^ 53 :=
  h.count_lt.le.trans (by decide)

/-- The keys of a call make a request. -/
theorem Fits.keysRequest {c : Call} (h : c.Fits mem) {room : ℕ}
    (hroom : room ≤ 16 * c.keys.length + c.room) :
    KeysRequest c.keys.flatten (c.keys.map List.length) room := by
  have hle := h.pooled_le
  have hlt := h.pooled_lt
  exact .of_keys h.keys_ne_nil h.nil_notMem (by omega)

/-- The pairs of a `put` make a request. -/
theorem Fits.putRequest {mode : Mode} {pairs : List (Bytes × Bytes)}
    (h : (put mode pairs).Fits mem) :
    PutRequest (pairs.map Prod.fst).flatten ((pairs.map Prod.fst).map List.length)
      (pairs.map Prod.snd).flatten ((pairs.map Prod.snd).map List.length) := by
  have hkeys : KeysRequest (pairs.map Prod.fst).flatten ((pairs.map Prod.fst).map List.length)
      (pairs.map Prod.snd).flatten.length := h.keysRequest (Nat.le_add_left _ _)
  constructor
  · exact hkeys.ne_nil
  · simp only [List.length_map]
  · exact hkeys.zero_notMem
  · exact hkeys.keys_eq
  · exact List.length_flatten
  · exact hkeys.fit

/-- `put`, whatever its way. -/
theorem run_put {mode : Mode} {pairs : List (Bytes × Bytes)} (h : (put mode pairs).Fits mem)
    (route : Route) (hs : Held s) :
    Refines ((put mode pairs).run route mem s) ((put mode pairs).answer (contents s)) := by
  have hrequest := h.putRequest
  have hpool : 16 * pairs.length + (pairs.map Prod.fst).flatten.length +
      (pairs.map Prod.snd).flatten.length ≤ mem.pooled.length := by
    have hle := h.pooled_le
    rwa [keys, List.length_map] at hle
  have hanswer : (put mode pairs).run route mem s =
      let r := putAnswer (route.mode mode) s (pairs.map Prod.fst).flatten
        ((pairs.map Prod.fst).map List.length) (pairs.map Prod.snd).flatten
        ((pairs.map Prod.snd).map List.length)
      some (.of r.1 (fun _ => .done) (), r.2) := by
    unfold run
    cases route.layout with
    | multi =>
      have heq : ykPutMulti (route.mode mode) (pairs.map Prod.fst) (pairs.map Prod.snd) mem.pooled
          s = _ :=
        hrequest.ykPutMulti_eq (by rwa [List.length_map]) s
      simp only [heq]
    | packed =>
      have heq : ykPutPacked (route.mode mode) _ _ (some (pairs.map Prod.snd).flatten) _ mem.pooled
          s = _ :=
        hrequest.ykPutPacked_eq rfl (by rwa [List.length_map, List.length_map]) s
      simp only [keys, heq]
  have hfit := hrequest.fit
  have hksum := hrequest.keys_eq
  have hvsum := hrequest.vals_eq
  have hpackedKeys : Packed (pairs.map Prod.fst).flatten ((pairs.map Prod.fst).map List.length) :=
    ⟨hksum.ge, by omega⟩
  have hpackedVals : Packed (pairs.map Prod.snd).flatten ((pairs.map Prod.snd).map List.length) :=
    ⟨hvsum.ge, by omega⟩
  -- the server finds the pairs of the client in the two packed arrays
  have hpairs : (pairs.map Prod.fst).zip (pairs.map Prod.snd) = pairs := by
    rw [List.zip_map']
    exact List.map_id _
  have hstatus : (DatabaseInterface.put (route.mode mode) s _ _ _ _).1 = _ :=
    put_status hs.serving hpackedKeys hpackedVals hrequest.length_eq.symm
  obtain ⟨hserving, hcontents⟩ : Serving (DatabaseInterface.put (route.mode mode) s _ _ _ _).2 ∧ _ :=
    put_contents hs.serving hpackedKeys hpackedVals hrequest.length_eq.symm
  rw [unpack_flatten, unpack_flatten, hpairs, route.putStatus_mode] at hstatus
  rw [unpack_flatten, unpack_flatten, hpairs, route.putRule_mode] at hcontents
  refine refines_of_checked route hs (fun hmode => ?_) fun hmode => ?_
  all_goals
    change (checkModeValid (route.mode mode) && supportsMode σ (route.mode mode)) = _ at hmode
    rw [hanswer, putAnswer, ← Bool.not_and, hmode]
  · rfl
  · refine .of_eq ?_ hserving hcontents
    simp only [Bool.not_true, Bool.false_eq_true, if_false, hstatus]
    rfl

/-- `erase`, whatever its way. -/
theorem run_erase {mode : Mode} {keys : List Bytes} (h : (erase mode keys).Fits mem)
    (hwait : mode.has .wait = false) (route : Route) (hs : Held s) :
    Refines ((erase mode keys).run route mem s) ((erase mode keys).answer (contents s)) := by
  have hrequest : KeysRequest keys.flatten (keys.map List.length) 0 :=
    h.keysRequest (Nat.zero_le _)
  have hpool : 16 * keys.length + keys.flatten.length + 0 ≤ mem.pooled.length := h.pooled_le
  have hanswer : (erase mode keys).run route mem s =
      let r := eraseAnswer (route.mode mode) s keys.flatten (keys.map List.length)
      some (.of r.1 (fun _ => .done) (), r.2) := by
    unfold run
    cases route.layout with
    | multi =>
      have heq := ykEraseMulti_eq hrequest (route.mode mode) (show _ ≤ mem.pooled.length by omega) s
      rw [if_pos (show Counted (route.mode mode) keys from Or.inr h.count_lt)] at heq
      simp only [heq, Option.map_some]
    | packed =>
      have heq := ykErasePacked_eq hrequest (route.mode mode)
        (show _ ≤ mem.pooled.length by rw [List.length_map]; omega) s
      simp only [Call.keys, heq, Option.map_some]
  have hwait' : (route.mode mode).has .wait = false := by rwa [route.has_mode mode .wait (by decide)]
  obtain ⟨hstatus, hserving, hcontents⟩ := erase_eq hs.serving hwait' hrequest.packed
  rw [unpack_flatten] at hcontents
  refine refines_of_checked route hs (fun hmode => ?_) fun hmode => ?_
  all_goals
    change (checkModeValid (route.mode mode) && supportsMode σ (route.mode mode)) = _ at hmode
    rw [hanswer, eraseAnswer, ← Bool.not_and, hmode]
  · rfl
  · refine .of_eq ?_ hserving hcontents
    simp only [Bool.not_true, Bool.false_eq_true, if_false, hstatus]
    rfl

/-- A client that is answered reads what it asked for. -/
theorem response_of_answered {α : Type} {r : ReturnCode × α} {answer : Except ReturnCode α}
    (h : Answered r answer) (read : α → Response) :
    (∀ ret, answer = .error ret → ret ≠ .SUCCESS → Response.of r.1 read r.2 = .failed ret) ∧
      ∀ array, answer = .ok array → Response.of r.1 read r.2 = read array := by
  constructor
  · rintro ret rfl hret
    rw [Response.of, show r.1 = ret from h, if_neg hret]
  · rintro array rfl
    rw [show r = (.SUCCESS, array) from h, Response.of, if_pos rfl]

/-- `exists`, whatever its way. -/
theorem run_exists {mode : Mode} {keys : List Bytes} (h : (existsKeys mode keys).Fits mem)
    (hwait : mode.has .wait = false) (route : Route) (hs : Held s) :
    Refines ((existsKeys mode keys).run route mem s) ((existsKeys mode keys).answer (contents s)) := by
  have hrequest : KeysRequest keys.flatten (keys.map List.length) 0 :=
    h.keysRequest (Nat.zero_le _)
  obtain ⟨⟨hmulti, hpacked⟩, -⟩ := requests_agree (route.mode mode) s h.keys_ne_nil h.nil_notMem
    h.count_le h.flags_eq h.vsizes_eq hs.lt (Nat.le_of_add_right_le h.pooled_le) h.pooled_lt
  have hanswer : ∃ r, Answered r (existsAnswer (route.mode mode) s keys.flatten
      (keys.map List.length) mem.flags) ∧ (existsKeys mode keys).run route mem s =
        some (.of r.1 (fun flags => .flags ((List.range keys.length).map
          (ykUnpackExistsFlag flags))) r.2, s) := by
    unfold run
    cases route.layout with
    | multi =>
      obtain ⟨r, hr, hanswered⟩ := hmulti.1 (Or.inr h.count_lt)
      have hr : ykExistsMulti (route.mode mode) keys mem.flags mem.pooled s = some r := hr
      exact ⟨r, hanswered, by simp only [hr, Option.map_some]⟩
    | packed => exact ⟨_, hpacked, rfl⟩
  obtain ⟨r, hr, hrun⟩ := hanswer
  obtain ⟨hfailed, hok⟩ := response_of_answered hr
    fun flags => .flags ((List.range keys.length).map (ykUnpackExistsFlag flags))
  have hwait' : (route.mode mode).has .wait = false := by rwa [route.has_mode mode .wait (by decide)]
  rw [hrun]
  refine refines_of_checked route hs (fun hmode => ?_) fun hmode => ?_
  all_goals
    change (checkModeValid (route.mode mode) && supportsMode σ (route.mode mode)) = _ at hmode
    rw [existsAnswer, ← Bool.not_and, hmode] at hfailed hok
  · rw [hfailed _ rfl (by decide)]
  · obtain ⟨hOK, hflags⟩ := existsField_flags hs.serving hwait' hrequest.packed
      (by rw [List.length_map]; exact h.count_le)
      (mem.flags.drop (flagsSize (keys.map List.length).length))
    rw [unpack_flatten, List.length_map] at hflags
    refine .of_eq ?_ hs.serving rfl
    have hread := hok _ (by rw [if_pos hOK]; rfl)
    rw [List.length_map] at hread
    exact hread.trans (congrArg Response.flags hflags)

/-- `length`, whatever its way. -/
theorem run_length {mode : Mode} {keys : List Bytes} (h : (length mode keys).Fits mem)
    (hwait : mode.has .wait = false) (route : Route) (hs : Held s) :
    Refines ((length mode keys).run route mem s) ((length mode keys).answer (contents s)) := by
  have hrequest : KeysRequest keys.flatten (keys.map List.length) 0 :=
    h.keysRequest (Nat.zero_le _)
  obtain ⟨-, ⟨hmulti, hpacked⟩, -⟩ := requests_agree (route.mode mode) s h.keys_ne_nil h.nil_notMem
    h.count_le h.flags_eq h.vsizes_eq hs.lt (Nat.le_of_add_right_le h.pooled_le) h.pooled_lt
  have hanswer : ∃ r, Answered r (lengthAnswer (route.mode mode) s keys.flatten
      (keys.map List.length)) ∧
        (length mode keys).run route mem s = some (.of r.1 .sizes r.2, s) := by
    unfold run
    cases route.layout with
    | multi =>
      obtain ⟨r, hr, hanswered⟩ := hmulti.1 (Or.inr h.count_lt)
      have hr : ykLengthMulti (route.mode mode) keys mem.vsizes mem.pooled s = some r := hr
      exact ⟨r, hanswered, by simp only [hr, Option.map_some]⟩
    | packed => exact ⟨_, hpacked, rfl⟩
  obtain ⟨r, hr, hrun⟩ := hanswer
  obtain ⟨hfailed, hok⟩ := response_of_answered hr .sizes
  have hwait' : (route.mode mode).has .wait = false := by rwa [route.has_mode mode .wait (by decide)]
  rw [hrun]
  refine refines_of_checked route hs (fun hmode => ?_) fun hmode => ?_
  all_goals
    change (checkModeValid (route.mode mode) && supportsMode σ (route.mode mode)) = _ at hmode
    rw [lengthAnswer, ← Bool.not_and, hmode] at hfailed hok
  · rw [hfailed _ rfl (by decide)]
  · have heq := length_eq hs.serving hwait' hrequest.packed
      (List.length_replicate (n := (keys.map List.length).length) (a := 0)).symm
    rw [unpack_flatten] at heq
    exact .of_eq (hok _ (by rw [heq]; rfl)) hs.serving rfl

/-- `get`, whatever its way. -/
theorem run_get {mode : Mode} {keys : List Bytes} {room : ℕ} (h : (get mode keys room).Fits mem)
    (hwait : mode.has .wait = false) (route : Route) (hs : Held s) :
    Refines ((get mode keys room).run route mem s) ((get mode keys room).answer (contents s)) := by
  have hvals : mem.vals.length = room := h.vals_eq
  have hpool : 16 * keys.length + keys.flatten.length + room ≤ mem.pooled.length := h.pooled_le
  have hlt := h.pooled_lt
  have hrequest : KeysRequest keys.flatten (keys.map List.length) mem.vals.length :=
    h.keysRequest (hvals.trans_le (Nat.le_add_left _ _))
  have hlen : mem.vsizes.length = (keys.map List.length).length := by
    rw [List.length_map]
    exact h.vsizes_eq
  have hwait' : (route.mode mode).has .wait = false := by rwa [route.has_mode mode .wait (by decide)]
  have hrun : (get mode keys room).run route mem s =
      let r := ykGetPacked (route.mode mode) keys.flatten (keys.map List.length)
        ⟨mem.vals, mem.vsizes⟩ mem.pooled s
      some (.of r.1 (fun arrays => .values (readValues arrays.vsizes arrays.vals)) r.2.1, r.2.2) := rfl
  rw [hrun]
  refine refines_of_checked route hs (fun hmode => ?_) fun hmode => ?_
  · obtain ⟨hret, hdb⟩ := @ykGetPacked_refused σ _ (route.mode mode) s keys.flatten mem.pooled
      (keys.map List.length) ⟨mem.vals, mem.vsizes⟩ hrequest hmode
    refine congrArg some (Prod.ext ?_ hdb)
    dsimp only
    rw [Response.of, hret]
    rfl
  · have hgets := @ykGetPacked_gets σ _ (route.mode mode) s keys.flatten mem.pooled
      (keys.map List.length) ⟨mem.vals, mem.vsizes⟩ hrequest hlen (by rwa [List.length_map, hvals])
      hlt hs.serving hwait' hmode
    rw [unpack_flatten] at hgets
    obtain ⟨rest, hrest⟩ := hgets.vals
    have hread := readValues_packedValues (contents s) keys
      (lt_lastValidSize (show mem.vals.length < 2 ^ 63 by omega)) false rest
    refine .of_eq ?_ hgets.serving ?_
    · dsimp only
      rw [Response.of, hgets.ret, if_pos rfl, hgets.vsizes, ← hrest, hread, hvals]
      rfl
    · have hconsume : (route.mode mode).has .consume = mode.has .consume :=
        route.has_mode mode .consume (by decide)
      have hcontents := hgets.contents_eq
      rw [hconsume] at hcontents
      exact hcontents

end Call

/-- A call that does not wait, made with any memory that fits it. -/
theorem run_refines {c : Call} (h : c.Fits mem) (hwait : c.waits = false) (route : Route)
    (hs : Held s) : Refines (c.run route mem s) (c.answer (contents s)) := by
  cases c with
  | put mode pairs => exact Call.run_put h route hs
  | erase mode keys => exact Call.run_erase h hwait route hs
  | existsKeys mode keys => exact Call.run_exists h hwait route hs
  | length mode keys => exact Call.run_length h hwait route hs
  | get mode keys room => exact Call.run_get h hwait route hs

end Step

/-! ### Sessions -/

section Session

variable {σ τ : Type} [InMemory σ] [InMemory τ]

open Transition FiniteMapStore

/-- A step of a session: a call that does not wait goes its way, with any memory that fits it, and is
answered. No value grows longer than a `size_t` can say. -/
def SessionStep (s : σ) (label : (Call × Route) × Response) (t : σ) : Prop :=
  ∃ mem : CallMemory, label.1.1.Fits mem ∧ label.1.1.waits = false ∧
    label.1.1.run label.1.2 mem s = some (label.2, t) ∧
    ∀ key val, contents t key = some val → val.length < 2 ^ 64

/-- The answers of a finite map to some calls, and the map after them. -/
def answers (m : Bytes → Option Bytes) : List Call → List Response × (Bytes → Option Bytes)
  | [] => ([], m)
  | c :: cs =>
    let r := c.answer m
    let rest := answers r.2 cs
    (r.1 :: rest.1, rest.2)

theorem answers_concat (m : Bytes → Option Bytes) (cs : List Call) (c : Call) :
    answers m (cs ++ [c]) =
      let r := answers m cs
      (r.1 ++ [(c.answer r.2).1], (c.answer r.2).2) := by
  induction cs generalizing m with
  | nil => rfl
  | cons c' cs ih => simp only [List.cons_append, answers, ih]

/-- The clients of an in-memory database see a finite map: in every session, whatever ways the calls
take and whatever the buffers of the server and the arrays of the clients hold, the answers are
those of the map of the keys and values at its beginning, and what is in the database at its end is
the map that they leave. -/
theorem sessions_refine {s t : σ} {labels : List ((Call × Route) × Response)} (hs : Held s)
    (hrun : Run SessionStep s labels t) :
    Held t ∧ (labels.map Prod.snd, contents t) =
      answers (contents s) (labels.map fun label => label.1.1) := by
  induction hrun with
  | nil => exact ⟨hs, rfl⟩
  | @snoc t u labels label _ hstep ih =>
    obtain ⟨ht, hanswers⟩ := ih
    obtain ⟨mem, hfits, hwait, hrun, hlt⟩ := hstep
    obtain ⟨u', hrun', hserving, hcontents⟩ := run_refines hfits hwait label.1.2 ht
    obtain ⟨hresponse, rfl⟩ := Prod.mk.inj (Option.some.inj (hrun.symm.trans hrun'))
    refine ⟨⟨hserving, hlt⟩, ?_⟩
    rw [List.map_append, List.map_append, List.map_singleton, List.map_singleton, answers_concat,
      ← hanswers]
    exact Prod.ext (congrArg (labels.map Prod.snd ++ [·]) hresponse) hcontents

/-- So a client cannot tell two databases with the same content apart, be they of different kinds:
for the same calls it sees the same answers, through any ways and buffers, and the contents stay the
same. -/
theorem sessions_agree {s t : σ} {s' t' : τ} {labels labels' : List ((Call × Route) × Response)}
    (hs : Held s) (hs' : Held s') (hcontents : contents s = contents s')
    (hcalls : (labels.map fun label => label.1.1) = labels'.map fun label => label.1.1)
    (hrun : Run SessionStep s labels t) (hrun' : Run SessionStep s' labels' t') :
    labels.map Prod.snd = labels'.map Prod.snd ∧ contents t = contents t' := by
  have hboth := (sessions_refine hs hrun).2
  rw [hcontents, hcalls, ← (sessions_refine hs' hrun').2] at hboth
  exact Prod.mk.inj hboth

/-- Every call that fits its memory is a step, unless it makes a value too long. -/
theorem exists_step {c : Call} {mem : CallMemory} (hfits : c.Fits mem) (hwait : c.waits = false)
    (route : Route) {s : σ} (hs : Held s)
    (hlt : ∀ key val, (c.answer (contents s)).2 key = some val → val.length < 2 ^ 64) :
    ∃ t, SessionStep s ((c, route), (c.answer (contents s)).1) t ∧ Held t ∧
      contents t = (c.answer (contents s)).2 := by
  obtain ⟨t, hrun, hserving, hcontents⟩ := run_refines hfits hwait route hs
  rw [← hcontents] at hlt
  exact ⟨t, ⟨mem, hfits, hwait, hrun, hlt⟩, ⟨hserving, hlt⟩, hcontents⟩

/-- A value is stored, and asked for with one that is missing. -/
def putAndGet (route route' : Route) : List ((Call × Route) × Response) :=
  [((.put .default [([1], [10])], route), .done),
    ((.get .default [[1], [2]] 4, route'), .values [.value [10], .missing])]

theorem exists_session {s : σ} (hs : Serving s) (hempty : contents s = fun _ => none)
    (route route' : Route) :
    Held s ∧ ∃ t, Run SessionStep s (putAndGet route route') t := by
  have hput : (Call.put .default [([1], [10])]).Fits ⟨[7], [7], [7], List.replicate 40 7⟩ := by
    constructor <;> decide
  have hget : (Call.get .default [[1], [2]] 4).Fits
      ⟨[7, 7], [7, 7], [7, 7, 7, 7], List.replicate 40 7⟩ := by
    constructor <;> decide
  have hheld : Held s := ⟨hs, fun key val h => by rw [hempty] at h; cases h⟩
  have hlt : ∀ key val, ((Call.put .default [([1], [10])]).answer (contents s)).2 key = some val →
      val.length < 2 ^ 64 := by
    intro key val h
    have hone : Function.update (contents s) [1] (some [10]) key = some val := h
    rw [Function.update_apply, hempty] at hone
    split_ifs at hone
    obtain rfl := Option.some.inj hone
    decide
  obtain ⟨t, hstep, ht, hcontents⟩ := exists_step hput rfl route hheld hlt
  obtain ⟨u, hstep', -⟩ := exists_step hget rfl route' ht (by rw [hcontents]; exact hlt)
  rw [hcontents, hempty] at hstep'
  exact ⟨hheld, u, ((Run.nil s).snoc hstep).snoc hstep'⟩

/-- A session with a map. -/
theorem sessions_refine_two :
    ∃ t : MapDatabase .default, Held t ∧
      ([.done, .values [.value [10], .missing]], contents t) =
        answers (contents (MapDatabase.empty .default))
          [.put .default [([1], [10])], .get .default [[1], [2]] 4] := by
  obtain ⟨hs, t, hrun⟩ := exists_session (s := MapDatabase.empty .default) rfl rfl ⟨.multi, true⟩
    ⟨.packed, false⟩
  exact ⟨t, sessions_refine hs hrun⟩

/-- The same session with an `unordered_map`, through other ways. -/
theorem sessions_agree_two :
    ∃ (t : MapDatabase .default) (t' : UnorderedMapDatabase),
      Run SessionStep (MapDatabase.empty .default)
          (putAndGet ⟨.multi, true⟩ ⟨.packed, false⟩) t ∧
        Run SessionStep UnorderedMapDatabase.empty (putAndGet ⟨.packed, false⟩ ⟨.multi, true⟩) t' ∧
        (putAndGet ⟨.multi, true⟩ ⟨.packed, false⟩).map Prod.snd =
          (putAndGet ⟨.packed, false⟩ ⟨.multi, true⟩).map Prod.snd ∧
        t.find = t'.find := by
  obtain ⟨hs, t, hrun⟩ := exists_session (s := MapDatabase.empty .default) rfl rfl ⟨.multi, true⟩
    ⟨.packed, false⟩
  obtain ⟨hs', t', hrun'⟩ := exists_session (s := UnorderedMapDatabase.empty) rfl rfl
    ⟨.packed, false⟩ ⟨.multi, true⟩
  obtain ⟨hanswers, hcontents⟩ := sessions_agree hs hs' rfl (by rfl) hrun hrun'
  exact ⟨t, t', hrun, hrun', hanswers, hcontents⟩

end Session

end Yokan
