import Yokan.Fetch

/-!
# Yokan: fetching with `YOKAN_MODE_CONSUME`

A `fetch` that consumes calls back for a batch of keys and erases the batch. The server has erased
a batch before it sends it, and the next one before it hears that the client has stopped.

* `fetchBatches_consume`: the calls that the batches cause, and the keys that they erase;
* `consume_lossless_iff`: the keys erased were delivered with their values exactly if those found
  among the keys of the batches that were fetched are among the first keys that were delivered.
-/

namespace Yokan

open Buffer PartialMap

variable {ι : Type}

/-! ### Callbacks that stop -/

/-- The position of the first item on which a callback does not succeed, or the number of items. -/
def Callback.stopPosition (cb : Callback ι) : List ι → History ι → ℕ
  | [], _ => 0
  | item :: items, history =>
    if cb history item = .SUCCESS then
      stopPosition cb items (history ++ [(item, .SUCCESS)]) + 1
    else 0

section StopPosition

variable (cb : Callback ι)

theorem Callback.stopPosition_le (items : List ι) (history : History ι) :
    cb.stopPosition items history ≤ items.length := by
  induction items generalizing history with
  | nil => exact le_rfl
  | cons item items ih =>
    rw [stopPosition, List.length_cons]
    split_ifs
    · exact Nat.succ_le_succ (ih _)
    · exact Nat.zero_le _

/-- The calls are for the items up to the one on which the callback does not succeed. -/
theorem invoke_items (items : List ι) (history : History ι) :
    (invoke cb items history).2.map Prod.fst =
      history.map Prod.fst ++ items.take (cb.stopPosition items history + 1) := by
  induction items generalizing history with
  | nil => simp [invoke]
  | cons item items ih =>
    rw [invoke, Callback.stopPosition]
    by_cases hret : cb history item = .SUCCESS
    · simp only [hret, ne_eq, not_true_eq_false, if_false, if_true]
      rw [ih, List.map_append, List.append_assoc, List.take_succ_cons]
      rfl
    · simp [hret]

theorem invoke_success_iff (items : List ι) (history : History ι) :
    (invoke cb items history).1 = .SUCCESS ↔ cb.stopPosition items history = items.length := by
  induction items generalizing history with
  | nil => simp [invoke, Callback.stopPosition]
  | cons item items ih =>
    rw [invoke, Callback.stopPosition]
    by_cases hret : cb history item = .SUCCESS
    · simp only [hret, ne_eq, not_true_eq_false, if_false, if_true, ih, List.length_cons,
        Nat.add_right_cancel_iff]
    · simp [hret]

/-- Behind items on which the callback succeeds, the others are on their own. -/
theorem invoke_append {items : List ι} {history : History ι}
    (h : (invoke cb items history).1 = .SUCCESS) (more : List ι) :
    invoke cb (items ++ more) history = invoke cb more (invoke cb items history).2 ∧
      cb.stopPosition (items ++ more) history =
        items.length + cb.stopPosition more (invoke cb items history).2 := by
  induction items generalizing history with
  | nil => exact ⟨rfl, (Nat.zero_add _).symm⟩
  | cons item items ih =>
    rw [invoke] at h
    rw [List.cons_append, invoke, invoke, Callback.stopPosition]
    by_cases hret : cb history item = .SUCCESS
    · simp only [hret, ne_eq, not_true_eq_false, if_false, if_true] at h ⊢
      obtain ⟨hinvoke, hposition⟩ := ih h
      exact ⟨hinvoke, by rw [hposition, List.length_cons, Nat.add_right_comm]⟩
    · simp only [ne_eq, hret, not_false_eq_true, if_true] at h

/-- Behind an item on which the callback does not succeed, there are no more calls. -/
theorem invoke_append_of_stop {items : List ι} {history : History ι}
    (h : (invoke cb items history).1 ≠ .SUCCESS) (more : List ι) :
    invoke cb (items ++ more) history = invoke cb items history ∧
      cb.stopPosition (items ++ more) history = cb.stopPosition items history := by
  induction items generalizing history with
  | nil => exact absurd rfl h
  | cons item items ih =>
    rw [invoke] at h
    rw [List.cons_append, invoke, invoke, Callback.stopPosition, Callback.stopPosition]
    by_cases hret : cb history item = .SUCCESS
    · simp only [hret, ne_eq, not_true_eq_false, if_false, if_true] at h ⊢
      obtain ⟨hinvoke, hposition⟩ := ih h
      exact ⟨hinvoke, by rw [hposition]⟩
    · simp [hret]

end StopPosition

/-! ### Databases that consume -/

open DatabaseInterface FiniteMapStore

/-- A `fetch` that calls back once for each key and then erases the keys, with
`YOKAN_MODE_CONSUME`. -/
def FetchErases (σ : Type) [FiniteMapStore σ] : Prop :=
  ∀ {υ : Type} {mode : Mode} {s : σ} {keys : Bytes} {ksizes : List ℕ}
    (func : υ → Bytes → Option Bytes → Status × υ) (u : υ),
    Serving s → mode.has .wait = false → mode.has .consume = true → Packed keys ksizes →
    (∀ u k v, (func u k v).1 = .OK) →
    ∃ t, fetch mode s keys ksizes func u =
        (.OK, t, (unpack keys ksizes).foldl (fun u k => (func u k (contents s k)).2) u) ∧
      Serving t ∧ contents t = eraseAll (contents s) (unpack keys ksizes)

/-- `UnorderedMapDatabase::fetch` erases the keys behind its calls. -/
theorem UnorderedMapDatabase.fetchErases : FetchErases UnorderedMapDatabase := by
  intro υ mode s keys ksizes func u hs hwait hconsume hk hfunc
  have hbody : ∀ k u, fetchBody s false func k u = (none, (func u k (s.find k)).2) := by
    intro k u
    have hok := hfunc u k (s.find k)
    unfold fetchBody
    rw [if_neg (by simp)]
    rcases hf : func u k (s.find k) with ⟨status, u'⟩
    rw [hf] at hok
    cases hok
    rfl
  obtain ⟨hstatus, hserving, hcontents⟩ := erase_eq (σ := UnorderedMapDatabase) hs hwait hk
  have hmigrated : s.migrated = false := hs
  refine ⟨_, ?_, hserving, hcontents⟩
  change UnorderedMapDatabase.fetch mode s keys ksizes func u = _
  unfold UnorderedMapDatabase.fetch
  rw [if_neg (by simp [hmigrated]), hwait, keysLoop_eq hk.2 hk.1, eachRecord_of_none _ hbody]
  dsimp only
  rw [if_pos hconsume]
  exact Prod.ext hstatus rfl

/-! ### The batches -/

/-- The calls that a client makes that never stops: each value comes with the key at its position
within its batch, and the batches before it are erased. -/
def consumedItems (m : Bytes → Option Bytes) (b : ℕ) (keys : List Bytes) : List KeyValueItem :=
  keys.mapIdx fun j key =>
    ⟨j, keys.getD (j % b) [], eraseAll m (keys.take (j / b * b)) key⟩

/-- The calls for a batch are the next ones. -/
theorem drop_consumedItems (m : Bytes → Option Bytes) (keys : List Bytes) (b k : ℕ) :
    (consumedItems m b keys).drop (k * b) =
      (((keys.drop (k * b)).take b).mapIdx fun j key =>
        ⟨k * b + j, keys.getD j [], eraseAll m (keys.take (k * b)) key⟩) ++
        (consumedItems m b keys).drop ((k + 1) * b) := by
  have hsplit := List.take_append_drop b ((consumedItems m b keys).drop (k * b))
  rw [List.drop_drop, ← Nat.succ_mul] at hsplit
  rw [← hsplit]
  refine congrArg (· ++ _) (List.ext_getElem? fun j => ?_)
  rw [List.getElem?_take, List.getElem?_mapIdx, List.getElem?_take, List.getElem?_drop,
    List.getElem?_drop, consumedItems, List.getElem?_mapIdx]
  split_ifs with hj
  · have hdiv : (k * b + j) / b = k := by
      rw [Nat.add_comm, Nat.add_mul_div_right j k (by omega), Nat.div_eq_of_lt hj, Nat.zero_add]
    simp only [Nat.mul_add_mod_of_lt hj, hdiv]
  · rfl

section Batches

variable {σ : Type} [FiniteMapStore σ] {mode : Mode} {keys : List Bytes} {cb : Callback KeyValueItem}
  {m : Bytes → Option Bytes} {batchSize : UInt32}
  {send : ℕ → ℕ → List ℕ → Bytes → History KeyValueItem → ReturnCode × History KeyValueItem}

/-- What the loop does with a database from which the keys before the `k`-th batch are erased. When
the last answer was a success, the calls go on up to the stop, and the batch behind that of the stop
is erased. Otherwise there are no more calls, but one more batch is erased. -/
theorem fetchBatches_consume (hfetch : FetchErases σ) (hwait : mode.has .wait = false)
    (hconsume : mode.has .consume = true) (hcount : keys.length < 2 ^ 32)
    (hfit : keys.flatten.length < 2 ^ 64)
    (hvals : ∀ key ∈ keys, ∀ v, m key = some v → v.length ≤ lastValidSize)
    (hsend : Invokes cb send keys) {N : ℕ} (hle : keys.length ≤ N * batchSize.toNat)
    (hlt : N * batchSize.toNat < keys.length + batchSize.toNat) (n k : ℕ) (hk : k + n = N) {s : σ}
    (hs : Serving s) (hm : contents s = eraseAll m (keys.take (k * batchSize.toNat)))
    (p : BackRpc KeyValueItem) :
    let b := batchSize.toNat
    let r := fetchBatches mode batchSize (keys.map List.length) keys.flatten send n k
      (keys.take (k * b)).flatten.length s p
    let items := (consumedItems m b keys).drop (k * b)
    (p.Clear → r.2.2.history = (invoke cb items p.history).2 ∧
      contents r.2.1 =
        eraseAll m (keys.take ((k + cb.stopPosition items p.history / b + 2) * b))) ∧
    (¬ p.Clear → r.2.2.history = p.history ∧
      contents r.2.1 = eraseAll m (keys.take ((k + 1) * b))) := by
  induction n generalizing k s p with
  | zero =>
    -- all batches are fetched
    rw [← hk, Nat.add_zero] at hle
    have hall : ∀ i, contents s = eraseAll m (keys.take ((k + i) * batchSize.toNat)) := by
      intro i
      have hmul := Nat.mul_le_mul_right batchSize.toNat (Nat.le_add_right k i)
      rw [hm, List.take_of_length_le hle, List.take_of_length_le (hle.trans hmul)]
    have hnone : (consumedItems m batchSize.toNat keys).drop (k * batchSize.toNat) = [] := by
      rw [List.drop_eq_nil_iff, consumedItems, List.length_mapIdx]
      exact hle
    dsimp only
    rw [hnone]
    exact ⟨fun _ => ⟨rfl, hall (_ + 2)⟩, fun _ => ⟨rfl, hall 1⟩⟩
  | succ n ih =>
    have hstart : k * batchSize.toNat < keys.length := start_lt_of_batch hlt hk
    dsimp only
    rw [fetchBatches_succ hcount hfit send n hstart]
    have hpacked := packed_batch hfit (k * batchSize.toNat) batchSize.toNat
    rw [drop_consumedItems]
    set b := batchSize.toNat with hb
    set batch := (keys.drop (k * b)).take b with hbatch
    have hmem : ∀ key ∈ batch, key ∈ keys := fun key hkey =>
      List.mem_of_mem_drop (List.mem_of_mem_take hkey)
    obtain ⟨t, heq, ht, hcontents⟩ := hfetch fetcher ([], []) hs hwait hconsume hpacked
      fun _ _ _ => rfl
    rw [unpack_flatten, foldl_fetcher, List.nil_append, List.nil_append, hm] at heq
    have hnext : contents t = eraseAll m (keys.take ((k + 1) * b)) := by
      rw [hcontents, unpack_flatten, hm, Nat.succ_mul, List.take_add, ← hbatch, eraseAll_append]
    have hlen : batch.length ≤ b ∧ k * b + batch.length ≤ keys.length := by
      rw [hbatch, List.length_take, List.length_drop]
      omega
    have hforward := hsend (eraseAll m (keys.take (k * b))) (k * b) batch p.history (by omega)
      (by omega) (by
        intro key hkey v hv
        rw [eraseAll_apply] at hv
        split_ifs at hv
        exact hvals key (hmem key hkey) v hv)
    simp only [heq]
    set items := batch.mapIdx fun j key =>
      (⟨k * b + j, keys.getD j [], eraseAll m (keys.take (k * b)) key⟩ : KeyValueItem) with hitems
    set more := (consumedItems m b keys).drop ((k + 1) * b) with hmore
    refine ⟨fun hp => ?_, fun hp => ?_⟩
    · obtain ⟨hclear, hstopped⟩ := ih (k + 1) (by omega) ht hnext (BackRpc.forward ⟨none, p.history⟩
        (send (k * b) batch.length
          (batch.map fun key => entrySize (eraseAll m (keys.take (k * b)) key))
          (batch.map fun key => (eraseAll m (keys.take (k * b)) key).getD []).flatten))
      simp only [BackRpc.waitForPrevious_of_clear hp, ne_eq, not_true_eq_false, if_false]
      simp only [BackRpc.forward, hforward, BackRpc.Clear, Option.getD_some, ← hmore]
        at hclear hstopped ⊢
      by_cases hret : (invoke cb items p.history).1 = .SUCCESS
      · obtain ⟨hinvoke, hposition⟩ := invoke_append cb hret more
        obtain ⟨hhistory, herased⟩ := hclear hret
        rw [hinvoke, hposition]
        refine ⟨hhistory, herased.trans ?_⟩
        rw [hitems, List.length_mapIdx]
        by_cases hfull : batch.length = b
        · rw [hfull, Nat.add_div_left _ (by omega), Nat.add_right_comm k 1,
            Nat.add_assoc k _ 1]
        · -- the last batch
          have hlast : keys.length ≤ (k + 1) * b := by
            rw [hbatch, List.length_take, List.length_drop] at hfull
            rw [Nat.succ_mul]
            omega
          have hbeyond : ∀ i, k + 1 ≤ i → keys.take (i * b) = keys := fun i hi =>
            List.take_of_length_le (hlast.trans (Nat.mul_le_mul_right b hi))
          rw [hbeyond _ (by rw [Nat.add_assoc]; exact Nat.le_add_right ..),
            hbeyond _ (Nat.add_le_add (Nat.le_add_right k _) one_le_two)]
      · obtain ⟨hinvoke, hposition⟩ := invoke_append_of_stop cb hret more
        obtain ⟨hhistory, herased⟩ := hstopped hret
        have hlt : cb.stopPosition items p.history < b := by
          have hne : cb.stopPosition items p.history ≠ items.length := fun h =>
            hret ((invoke_success_iff cb items p.history).2 h)
          have hle := cb.stopPosition_le items p.history
          have hlength : items.length = batch.length := List.length_mapIdx
          omega
        rw [hinvoke, hposition]
        refine ⟨hhistory, herased.trans ?_⟩
        rw [Nat.div_eq_of_lt hlt]
    · have hret : p.waitForPrevious.1 ≠ .SUCCESS := hp
      simp only [ne_eq, hret, not_false_eq_true, if_true]
      exact ⟨rfl, hnext⟩

end Batches

/-! ### From end to end -/

/-- The keys that a call removed were delivered with their values. -/
def LosesNothing (m m' : Bytes → Option Bytes) (history : History KeyValueItem) : Prop :=
  ∀ key v, m key = some v → m' key = none →
    ∃ call ∈ history, call.1.key = key ∧ call.1.value = some v

/-- The keys found up to the batch behind that of the `p`-th call are among those delivered in the
first batch, up to the `p`-th call. -/
def FoundInFirstBatch (m : Bytes → Option Bytes) (b : ℕ) (keys : List Bytes) (p : ℕ) : Prop :=
  ∀ key ∈ keys.take ((p / b + 2) * b), (m key).isSome → key ∈ keys.take (min (p + 1) b)

/-- A key that was delivered is a key of the first batch, and those of the first batch come with
their own values. -/
theorem losesNothing_iff {m : Bytes → Option Bytes} {b : ℕ} {keys : List Bytes} {p : ℕ}
    {history : History KeyValueItem} (hb : 0 < b)
    (hhistory : history.map Prod.fst = (consumedItems m b keys).take (p + 1)) :
    LosesNothing m (eraseAll m (keys.take ((p / b + 2) * b))) history ↔
      FoundInFirstBatch m b keys p := by
  -- call `j` is made for key `j`, but names the key of the same place in the first batch
  have hcalls : ∀ key v, (∃ call ∈ history, call.1.key = key ∧ call.1.value = some v) ↔
      ∃ j, ∃ hj : j < keys.length, j < p + 1 ∧ keys.getD (j % b) [] = key ∧
        eraseAll m (keys.take (j / b * b)) (keys.get ⟨j, hj⟩) = some v := by
    intro key v
    have hitems : (∃ call ∈ history, call.1.key = key ∧ call.1.value = some v) ↔
        ∃ item ∈ history.map Prod.fst, item.key = key ∧ item.value = some v := by
      simp only [List.mem_map, exists_exists_and_eq_and]
    rw [hitems, hhistory]
    constructor
    · rintro ⟨item, hmem, hkey, hvalue⟩
      obtain ⟨j, hj, rfl⟩ := List.mem_take_iff_getElem.1 hmem
      rw [consumedItems, List.length_mapIdx] at hj
      simp only [consumedItems, List.getElem_mapIdx] at hkey hvalue
      exact ⟨j, by omega, by omega, hkey, hvalue⟩
    · rintro ⟨j, hj, hjp, hkey, hvalue⟩
      refine ⟨⟨j, keys.getD (j % b) [], eraseAll m (keys.take (j / b * b)) (keys.get ⟨j, hj⟩)⟩,
        List.mem_take_iff_getElem.2 ⟨j, ?_, ?_⟩, hkey, hvalue⟩
      · rw [consumedItems, List.length_mapIdx]
        omega
      · simp only [consumedItems, List.getElem_mapIdx]
        rfl
  constructor
  · intro h key hkey hfound
    obtain ⟨v, hv⟩ := Option.isSome_iff_exists.1 hfound
    obtain ⟨j, hj, hjp, hname, -⟩ := (hcalls key v).1
      (h key v hv (by rw [eraseAll_apply, if_pos hkey]))
    have hmod := Nat.mod_lt j hb
    have hle := Nat.mod_le j b
    rw [List.getD_eq_getElem?_getD, List.getElem?_eq_getElem (by omega), Option.getD_some] at hname
    exact List.mem_take_iff_getElem.2 ⟨j % b, by omega, hname⟩
  · intro h key v hv hnone
    have hkey : key ∈ keys.take ((p / b + 2) * b) := by
      by_contra hno
      rw [eraseAll_apply, if_neg hno, hv] at hnone
      cases hnone
    obtain ⟨i, hi, rfl⟩ := List.mem_take_iff_getElem.1
      (h key hkey (Option.isSome_iff_exists.2 ⟨v, hv⟩))
    refine (hcalls _ v).2 ⟨i, by omega, by omega, ?_, ?_⟩
    · rw [Nat.mod_eq_of_lt (by omega), List.getD_eq_getElem?_getD,
        List.getElem?_eq_getElem (by omega), Option.getD_some]
    · rw [Nat.div_eq_of_lt (by omega), Nat.zero_mul, List.take_zero, eraseAll_nil]
      exact hv

section EndToEnd

variable {σ : Type} [FiniteMapStore σ] {mode : Mode} {keys : List Bytes} {s : σ}

/-- A whole request: its calls, and what it leaves in the database. -/
theorem FetchRequest.finishFetch_consume (h : FetchRequest mode keys s) (hne : keys ≠ [])
    (hfetch : FetchErases σ) (hconsume : mode.has .consume = true) {cb : Callback KeyValueItem}
    (batchSize : UInt32)
    {send : ℕ → ℕ → List ℕ → Bytes → History KeyValueItem → ReturnCode × History KeyValueItem}
    (hsend : Invokes cb send keys) :
    let b := (effectiveBatchSize batchSize keys.length).toNat
    let items := consumedItems (contents s) b keys
    let r := finishFetch (requestBatches mode batchSize keys send s)
    r.2.1 = (invoke cb items []).2 ∧
      contents r.2.2 = eraseAll (contents s) (keys.take ((cb.stopPosition items [] / b + 2) * b)) := by
  have hfit := h.fit
  have hpos := List.length_pos_of_ne_nil hne
  obtain ⟨hle, hlt⟩ := numBatches_spec (effectiveBatchSize_pos batchSize hpos h.count_lt) hpos
  obtain ⟨hclear, -⟩ := fetchBatches_consume hfetch h.wait hconsume h.count_lt (by omega) h.values
    hsend hle hlt _ 0 (Nat.zero_add _) h.serving (by rw [Nat.zero_mul]; rfl) {}
  rw [Nat.zero_mul, List.take_zero, List.flatten_nil, List.length_nil, List.drop_zero,
    Nat.zero_add] at hclear
  exact hclear rfl

/-- On every path, a fetch that consumes loses nothing exactly if the keys that the database has
among those of the batches up to the one behind the stop are keys of the first batch that were
delivered before the stop. -/
theorem consume_lossless_iff (h : FetchRequest mode keys s) (hfetch : FetchErases σ)
    (hconsume : mode.has .consume = true) (cb : Callback KeyValueItem) (batchSize : UInt32) :
    let b := (effectiveBatchSize batchSize keys.length).toNat
    let p := cb.stopPosition (consumedItems (contents s) b keys) []
    (let r := ykFetchPacked mode keys.flatten (keys.map List.length) cb batchSize s
     LosesNothing (contents s) (contents r.2.2) r.2.1 ↔ FoundInFirstBatch (contents s) b keys p) ∧
    (let r := ykFetchMulti mode keys cb batchSize s
     LosesNothing (contents s) (contents r.2.2) r.2.1 ↔
       FoundInFirstBatch (contents s) b keys p) := by
  dsimp only
  by_cases hne : keys = []
  · subst hne
    have hfound : ∀ b p, FoundInFirstBatch (contents s) b [] p := by
      intro b p key hkey
      rw [List.take_nil] at hkey
      cases hkey
    have hlossless : LosesNothing (contents s) (contents s) [] := by
      intro key v hv hnone
      rw [hv] at hnone
      cases hnone
    refine ⟨iff_of_true ?_ (hfound _ _), iff_of_true hlossless (hfound _ _)⟩
    have hpacked := ykFetchPacked_nil mode cb batchSize s
    rw [List.flatten_nil, List.map_nil, hpacked]
    exact hlossless
  · have hb := effectiveBatchSize_pos batchSize (List.length_pos_of_ne_nil hne) h.count_lt
    obtain ⟨send, hsend, hpacked⟩ := h.packed_eq hne cb batchSize
    obtain ⟨send', hsend', hmulti⟩ := h.multi_eq hne cb batchSize
    obtain ⟨hhistory, hcontents⟩ := h.finishFetch_consume hne hfetch hconsume batchSize hsend
    obtain ⟨hhistory', hcontents'⟩ := h.finishFetch_consume hne hfetch hconsume batchSize hsend'
    rw [hpacked, hmulti, hhistory, hcontents, hhistory', hcontents']
    exact ⟨losesNothing_iff hb (invoke_items cb _ []), losesNothing_iff hb (invoke_items cb _ [])⟩

end EndToEnd

/-- A database with two keys. -/
def twoKeys : UnorderedMapDatabase :=
  (((UnorderedMapDatabase.empty.emplace [1] [10]).2).emplace [2] [20]).2

/-- A request for the keys of the database. -/
theorem fetchRequest_twoKeys : FetchRequest .consume [[1], [2]] twoKeys where
  serving := rfl
  valid := by decide
  supported := by decide
  wait := by decide
  nonempty := by decide
  count_lt := by decide
  fit := by decide
  values key hkey v hv := by
    have hvalues : ∀ key ∈ [[1], [2]], ∀ v ∈ twoKeys.find key, v.length ≤ 1 := by decide
    exact (hvalues key hkey v hv).trans (by decide)

/-- A callback that stops at its second call, in one batch. -/
theorem consume_lossless_iff_two :
    (let r := ykFetchPacked .consume [1, 2] [1, 1]
       (fun history _ => if history = [] then .SUCCESS else .STOP_ITERATION) 0 twoKeys
     LosesNothing twoKeys.find r.2.2.find r.2.1 ↔ FoundInFirstBatch twoKeys.find 2 [[1], [2]] 1) ∧
    (let r := ykFetchMulti .consume [[1], [2]]
       (fun history _ => if history = [] then .SUCCESS else .STOP_ITERATION) 0 twoKeys
     LosesNothing twoKeys.find r.2.2.find r.2.1 ↔
       FoundInFirstBatch twoKeys.find 2 [[1], [2]] 1) :=
  consume_lossless_iff fetchRequest_twoKeys UnorderedMapDatabase.fetchErases (by decide)
    (fun history _ => if history = [] then .SUCCESS else .STOP_ITERATION) 0

/-- A callback that stops at its first call never sees the second key, which is erased. -/
theorem consume_loses_key :
    ¬ ∀ (mode : Mode) (keys : List Bytes) (s : UnorderedMapDatabase) (cb : Callback KeyValueItem)
      (batchSize : UInt32), FetchRequest mode keys s → mode.has .consume = true →
        let r := ykFetchMulti mode keys cb batchSize s
        LosesNothing s.find r.2.2.find r.2.1 := by
  intro h
  have hlossless := h .consume [[1], [2]] twoKeys (fun _ _ => .STOP_ITERATION) 0
    fetchRequest_twoKeys (by decide)
  have hcalls : (ykFetchMulti .consume [[1], [2]] (fun _ _ => .STOP_ITERATION) 0 twoKeys).2.1 =
      [(⟨0, [1], some [10]⟩, .STOP_ITERATION)] := by decide
  obtain ⟨call, hcall, hkey, -⟩ := hlossless [2] [20] (by decide) (by decide)
  rw [hcalls, List.mem_singleton] at hcall
  rw [hcall] at hkey
  revert hkey
  decide

end Yokan
