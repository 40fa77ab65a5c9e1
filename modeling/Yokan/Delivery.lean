import Yokan.Iteration

/-!
# Yokan: what the callbacks of an iteration receive

`yk_iter` and `yk_doc_iter` from end to end, with a callback that always succeeds. The results are
collected into batches, packed, sent with the position of the first of them, and unpacked by the
client.

* `Batching.Sound`: a batch is read back as the results that were collected;
* `Batching.Sound.flatten_batches`: each result is delivered once, with its position;
* `iter_delivered`: `yk_iter` delivers what the database hands over, with its indices;
* `doc_iter_delivered_iff`: `yk_doc_iter` does so with RDMA; without, its positions count bytes.
-/

namespace Yokan

open Buffer LittleEndian

variable {α β ι : Type}

/-! ### The calls for all batches -/

section Succeeds

variable {B : Batching α β ι} {b : ℕ} {cb : Callback ι}

/-- A callback that succeeds is called on the items of every batch. -/
theorem feed_of_succeeds (hcb : cb.Succeeds) (final : ReturnCode) (results : List α)
    (st : IterState β ι) (hsize : B.size st.pending < b ∨ b = 0) (hclear : st.rpc.Clear) :
    (finishIter B cb (feed .SUCCESS final (iterFunc B cb b) results st)).2 =
      st.rpc.history ++ (B.batches b results st.pending st.sent).flatten.map
        fun item => (item, .SUCCESS) := by
  induction results generalizing st with
  | nil =>
    rw [feed, finishIter_history, Batching.batches]
    by_cases hzero : B.size st.pending = 0
    · rw [sendBatch, if_pos hzero, if_pos hzero]
      simp
    · rw [sendBatch_of_clear cb st hzero hclear, if_neg hzero]
      simp [BackRpc.forward, invoke_of_succeeds hcb]
  | cons x xs ih =>
    have hpush := B.size_push st.pending x
    rw [feed_cons, Batching.batches]
    by_cases hfull : B.size (B.push st.pending x) = b
    · have hsize' : B.size (B.push st.pending x) ≠ 0 := by omega
      have hsent := sendBatch_of_clear cb { st with pending := B.push st.pending x } hsize' hclear
      rw [iterFunc_of_full cb hfull, hsent, if_pos rfl]
      dsimp only
      have hclear' : (BackRpc.forward ⟨none, st.rpc.history⟩
          (invoke cb (B.items st.sent (B.push st.pending x)))).Clear := by
        rw [BackRpc.forward, invoke_of_succeeds hcb]
        rfl
      rw [if_pos hfull, ih _ (by rw [B.size_empty]; omega) hclear']
      simp [BackRpc.forward, invoke_of_succeeds hcb]
    · rw [iterFunc_of_room cb hfull, if_pos rfl]
      have hih := ih { st with pending := B.push st.pending x } (by dsimp only; omega) hclear
      dsimp only at hih ⊢
      rw [if_neg hfull, hih]

theorem iterUlt_of_succeeds (hcb : cb.Succeeds) (batchSize : UInt32) (count : ℕ)
    (final : ReturnCode) (results : List α) :
    (iterUlt B cb batchSize count final results).2 =
      (B.batches (effectiveBatchSize batchSize count).toNat results B.empty 0).flatten.map
        fun item => (item, .SUCCESS) := by
  have hfeed := feed_of_succeeds hcb final results ⟨B.empty, 0, {}⟩
    (b := (effectiveBatchSize batchSize count).toNat) (by rw [B.size_empty]; omega) rfl
  exact hfeed

end Succeeds

/-! ### Batches that are read back -/

namespace Batching

/-- The batch of the results of a list. -/
def collect (B : Batching α β ι) (xs : List α) : β := xs.foldl B.push B.empty

theorem collect_concat (B : Batching α β ι) (xs : List α) (x : α) :
    B.collect (xs ++ [x]) = B.push (B.collect xs) x := by
  rw [collect, List.foldl_append]
  rfl

theorem size_collect (B : Batching α β ι) (xs : List α) : B.size (B.collect xs) = xs.length := by
  induction xs using List.reverseRecOn with
  | nil => exact B.size_empty
  | append_singleton xs x ih => rw [collect_concat, B.size_push, ih, List.length_append]; rfl

/-- A batch of proper results is read back as the results, numbered from the position sent with it;
the position advances by `advance`. -/
structure Sound (B : Batching α β ι) (Ok : α → Prop) (item : ℕ → α → ι) (advance : List α → ℕ) :
    Prop where
  items : ∀ start xs, (∀ x ∈ xs, Ok x) →
    B.items start (B.collect xs) = xs.mapIdx fun i x => item (start + i) x
  advance_collect : ∀ xs, (∀ x ∈ xs, Ok x) → B.advance (B.collect xs) = advance xs
  advance_append : ∀ xs ys, advance (xs ++ ys) = advance xs + advance ys

variable {B : Batching α β ι} {Ok : α → Prop} {item : ℕ → α → ι} {advance : List α → ℕ} {b : ℕ}

/-- The position of a result, from the results before its batch. -/
def position (advance : List α → ℕ) (b : ℕ) (all : List α) (j : ℕ) : ℕ :=
  advance (all.take (j / b * b)) + j % b

theorem position_of_batch {all done : List α} {k i : ℕ} (htake : all.take (k * b) = done)
    (hi : i < b ∨ b = 0) : position advance b all (k * b + i) = advance done + i := by
  unfold position
  rcases hi with hi | rfl
  · rw [Nat.mul_add_mod_of_lt hi, Nat.add_comm (k * b) i, Nat.add_mul_div_right i k (by omega),
      Nat.div_eq_of_lt hi, Nat.zero_add, htake]
  · rw [Nat.mul_zero] at htake ⊢
    rw [Nat.mul_zero, htake, Nat.zero_add, Nat.mod_zero]

/-- The items of the batches from the `k`-th on. The results in `pending` are collected, those in
`done` are sent. -/
theorem Sound.flatten_batches_of (h : B.Sound Ok item advance) {all : List α}
    (hok : ∀ x ∈ all, Ok x) (results done pending : List α) (k : ℕ)
    (hall : all = done ++ (pending ++ results)) (hdone : done.length = k * b)
    (hpending : pending.length < b ∨ b = 0) :
    (B.batches b results (B.collect pending) (advance done)).flatten =
      (pending ++ results).mapIdx fun i x => item (position advance b all (k * b + i)) x := by
  induction results generalizing done pending k with
  | nil =>
    have htake : all.take (k * b) = done := by
      rw [hall, ← hdone]
      exact List.take_left
    rw [batches, B.size_collect]
    split_ifs with hzero
    · rw [List.length_eq_zero_iff.1 hzero]
      rfl
    · rw [List.flatten_singleton, h.items _ _ fun x hx => hok x (by rw [hall]; simp [hx]),
        List.append_nil]
      refine List.mapIdx_eq_mapIdx_iff.2 fun i hi => ?_
      rw [position_of_batch htake (by omega)]
  | cons x rest ih =>
    have hassoc : pending ++ x :: rest = (pending ++ [x]) ++ rest := by simp
    have hsucc : (pending ++ [x]).length = pending.length + 1 := List.length_append
    rw [batches, ← collect_concat, B.size_collect]
    rw [hassoc] at hall ⊢
    generalize pending ++ [x] = ys at hall hsucc ⊢
    split_ifs with hfull
    · -- the batch is full
      have hoky : ∀ y ∈ ys, Ok y := fun y hy => hok y (by
        rw [hall]
        exact List.mem_append_right _ (List.mem_append_left _ hy))
      have htake : all.take (k * b) = done := by
        rw [hall, ← hdone]
        exact List.take_left
      have hrest := ih (done ++ ys) [] (k + 1) (by rw [hall, List.nil_append, List.append_assoc])
        (by rw [List.length_append, hdone, hfull, Nat.succ_mul]) (by rw [List.length_nil]; omega)
      rw [List.flatten_cons, h.items _ _ hoky, h.advance_collect _ hoky, ← h.advance_append]
      change _ ++ (B.batches b rest (B.collect []) _).flatten = _
      rw [hrest, List.nil_append, List.mapIdx_append, hfull]
      refine congrArg₂ _ ?_ ?_
      · refine List.mapIdx_eq_mapIdx_iff.2 fun i hi => ?_
        rw [position_of_batch htake (Or.inl (hfull ▸ hi))]
      · refine List.mapIdx_eq_mapIdx_iff.2 fun i _ => ?_
        rw [Nat.succ_mul, Nat.add_assoc, Nat.add_comm b i]
    · exact ih done ys k hall hdone (by omega)

/-- The items of all batches: each result at its position. -/
theorem Sound.flatten_batches (h : B.Sound Ok item advance) {results : List α}
    (hok : ∀ x ∈ results, Ok x) :
    (B.batches b results B.empty 0).flatten =
      results.mapIdx fun j x => item (position advance b results j) x := by
  have hzero : advance [] = 0 := by
    have happend := h.advance_append [] []
    rw [List.append_nil] at happend
    omega
  have hall := h.flatten_batches_of hok results [] [] 0 rfl (by simp)
    (Nat.eq_zero_or_pos b).symm
  rw [hzero] at hall
  simp only [Nat.zero_mul, Nat.zero_add, List.nil_append] at hall
  exact hall

/-- Where the position advances by the number of results, it is the index of the result. -/
theorem position_length (b : ℕ) (all : List α) {j : ℕ} (hj : j < all.length) :
    position List.length b all j = j := by
  have hle := Nat.div_mul_le_self j b
  rw [position, List.length_take, Nat.min_eq_left (by omega), Nat.div_add_mod']

end Batching

/-! ### Keys and values -/

/-- The number of bytes that a key must have. -/
def KeySelection.length : KeySelection → ℕ
  | startingWith bytes | endingWith bytes => bytes.length

/-- A key without the bytes that select it, in the mode `YOKAN_MODE_NO_PREFIX`. -/
def KeySelection.strip (fmode : Mode) (key : Bytes) : KeySelection → Bytes
  | startingWith pre => if fmode.has .noPrefix then key.drop pre.length else key
  | endingWith suf => if fmode.has .noPrefix then key.take (key.length - suf.length) else key

/-- The filter that the server builds, with its `keySizeFrom` and `valSizeFrom`. -/
def KeySelection.sizedFilter (fmode : Mode) (sel : KeySelection) : SizedKeyValueFilter where
  toKeyValueFilter := sel.filter fmode
  keySizeFrom key := if fmode.has .noPrefix then key.length - sel.length else key.length
  valSizeFrom := List.length

/-- The keys that a client asks for in a mode. -/
def keySelection (mode : Mode) (filterData : Bytes) : KeySelection :=
  if mode.has .suffix then .endingWith filterData else .startingWith filterData

/-- `FilterFactory::makeKeyValueFilter`, without the filters that run code from outside. -/
def makeKeyValueFilter (mode : Mode) (filterData : Bytes) : SizedKeyValueFilter :=
  (keySelection mode filterData).sizedFilter mode

theorem resizeTo_of_le {n : ℕ} {v : Bytes} (h : v.length ≤ n) :
    resizeTo n v = v ++ List.replicate (n - v.length) 0 := by
  rw [resizeTo, List.take_of_length_le h]

theorem resizeTo_self (v : Bytes) : resizeTo v.length v = v := by
  rw [resizeTo_of_le le_rfl, Nat.sub_self, List.replicate_zero, List.append_nil]

/-- A write to the front of what lies behind a part of a buffer. -/
theorem blit_append_right (v rest src : Bytes) :
    blit (v ++ rest) v.length src = v ++ (src ++ rest.drop src.length) := by
  unfold blit
  rw [List.take_left, List.append_assoc, List.drop_append, List.drop_eq_nil_of_le (by omega),
    List.nil_append, Nat.add_sub_cancel_left]

namespace KeySelection

variable {sel : KeySelection} {fmode : Mode} {key : Bytes}

theorem keySizeFrom_eq (h : sel.Matches key) :
    (sel.sizedFilter fmode).keySizeFrom key = (sel.strip fmode key).length := by
  cases sel with
  | startingWith pre =>
    dsimp only [sizedFilter, strip, length]
    split_ifs <;> simp
  | endingWith suf =>
    have hle : suf.length ≤ key.length := h.length_le
    dsimp only [sizedFilter, strip, length]
    split_ifs <;> simp

theorem keyCopy_eq (dst : Bytes) (off room : ℕ) :
    (sel.sizedFilter fmode).keyCopy dst off room key = copyOut dst off room (sel.strip fmode key) := by
  cases sel <;>
    dsimp only [sizedFilter, filter, keyPrefixFilter, keySuffixFilter, strip] <;>
    cases fmode.has .noPrefix <;> rfl

theorem valCopy_eq : (sel.sizedFilter fmode).valCopy = copyOut := by
  cases sel <;> rfl

end KeySelection

/-- The value that is sent with a key. -/
def sentValue (noValues : Bool) (val : Bytes) : Bytes := if noValues then [] else val

/-- A key and a value are put behind those that are there. -/
theorem keyvals_push {sel : KeySelection} (fmode : Mode) (noValues : Bool) (b : KeyValueBatch)
    {x : Bytes × Bytes} (h : sel.Matches x.1) :
    let b' := b.push (sel.sizedFilter fmode) noValues x
    b'.ksizes = b.ksizes ++ [(sel.strip fmode x.1).length] ∧
      b'.vsizes = b.vsizes ++ [(sentValue noValues x.2).length] ∧
      b'.keyvals = b.keyvals ++ (sel.strip fmode x.1 ++ sentValue noValues x.2) := by
  have hvsize : (if noValues then 0 else (sel.sizedFilter fmode).valSizeFrom x.2) =
      (sentValue noValues x.2).length := by
    unfold sentValue
    split_ifs <;> rfl
  have hval : ∀ dst off, (if noValues then ((sentValue noValues x.2).length, dst)
      else (sel.sizedFilter fmode).valCopy dst off (sentValue noValues x.2).length x.2) =
        ((sentValue noValues x.2).length, blit dst off (sentValue noValues x.2)) := by
    intro dst off
    unfold sentValue
    split_ifs with hno
    · rw [blit_nil]
    · rw [KeySelection.valCopy_eq, copyOut, if_neg (Nat.lt_irrefl _)]
  generalize hv : sentValue noValues x.2 = v at hvsize hval ⊢
  generalize hk : sel.strip fmode x.1 = k
  have hkey : ∀ dst off, (sel.sizedFilter fmode).keyCopy dst off k.length x.1 =
      (k.length, blit dst off k) := by
    intro dst off
    rw [KeySelection.keyCopy_eq, hk, copyOut, if_neg (Nat.lt_irrefl _)]
  have hroom : resizeTo (b.keyvals.length + k.length + v.length) b.keyvals =
      b.keyvals ++ List.replicate (k.length + v.length) 0 := by
    rw [resizeTo_of_le (by omega), Nat.add_assoc, Nat.add_sub_cancel_left]
  have hbytes : blit (blit (resizeTo (b.keyvals.length + k.length + v.length) b.keyvals)
      b.keyvals.length k) (b.keyvals.length + k.length) v = b.keyvals ++ (k ++ v) := by
    rw [hroom, blit_append_right, List.drop_replicate, Nat.add_sub_cancel_left, ← List.append_assoc,
      ← List.length_append, blit_append_right, List.drop_replicate, Nat.sub_self,
      List.replicate_zero, List.append_nil, List.append_assoc]
  unfold KeyValueBatch.push
  simp only [hvsize, KeySelection.keySizeFrom_eq h, hk, hkey, hval, hbytes]
  refine ⟨trivial, trivial, ?_⟩
  have hlen : (b.keyvals ++ (k ++ v)).length = b.keyvals.length + k.length + v.length := by
    rw [List.length_append, List.length_append, Nat.add_assoc]
  rw [← hlen, resizeTo_self]

/-- The item for a result of `iter`. -/
def iterItem (mode : Mode) (sel : KeySelection) (noValues : Bool) (index : ℕ) (x : Bytes × Bytes) :
    IterItem :=
  ⟨index % 2 ^ 32, sel.strip mode x.1, sentValue noValues x.2⟩

/-- A result of `iter` under a filter, with sizes that a `size_t` can hold. -/
def ProperResult (sel : KeySelection) (x : Bytes × Bytes) : Prop :=
  sel.Matches x.1 ∧ x.1.length < 2 ^ 64 ∧ x.2.length < 2 ^ 64

section KeyValues

variable {mode : Mode} {sel : KeySelection} {noValues : Bool}

/-- The batch of a list of results. -/
theorem keyvals_collect (mode : Mode) (noValues : Bool) {xs : List (Bytes × Bytes)}
    (h : ∀ x ∈ xs, sel.Matches x.1) :
    let b := (keyValueBatching (sel.sizedFilter mode) noValues).collect xs
    b.ksizes = xs.map (fun x => (sel.strip mode x.1).length) ∧
      b.vsizes = xs.map (fun x => (sentValue noValues x.2).length) ∧
      b.keyvals = (xs.map fun x => sel.strip mode x.1 ++ sentValue noValues x.2).flatten := by
  induction xs using List.reverseRecOn with
  | nil => exact ⟨rfl, rfl, rfl⟩
  | append_singleton xs x ih =>
    obtain ⟨hk, hv, hkv⟩ := ih fun y hy => h y (List.mem_append_left _ hy)
    obtain ⟨hk', hv', hkv'⟩ := keyvals_push mode noValues
      ((keyValueBatching (sel.sizedFilter mode) noValues).collect xs)
      (h x (List.mem_append_right _ (List.mem_singleton_self x)))
    rw [Batching.collect_concat]
    refine ⟨hk'.trans ?_, hv'.trans ?_, hkv'.trans ?_⟩
    · rw [hk, List.map_append]
      rfl
    · rw [hv, List.map_append]
      rfl
    · rw [hkv, List.map_append, List.flatten_append]
      simp

/-- Keys and values are cut out again where they were put. -/
theorem iterItems_eq (mode : Mode) (sel : KeySelection) (noValues : Bool) (start : ℕ)
    (xs : List (Bytes × Bytes)) (i : ℕ) (pre post : Bytes) :
    iterItems start (pre ++ ((xs.map fun x => sel.strip mode x.1 ++
        sentValue noValues x.2).flatten ++ post))
      ((xs.map fun x => (sel.strip mode x.1).length).zip
        (xs.map fun x => (sentValue noValues x.2).length)) i pre.length =
      xs.mapIdx fun j x => iterItem mode sel noValues (start + (i + j)) x := by
  induction xs generalizing i pre with
  | nil => rfl
  | cons x xs ih =>
    rw [List.map_cons, List.map_cons, List.map_cons, List.flatten_cons, List.zip_cons_cons,
      iterItems, List.mapIdx_cons]
    generalize hk : sel.strip mode x.1 = k
    generalize hv : sentValue noValues x.2 = v
    have hih := ih (i + 1) (pre ++ (k ++ v))
    rw [List.length_append, List.length_append] at hih
    have hkey := slice_middle pre k (v ++ ((xs.map fun x => sel.strip mode x.1 ++
      sentValue noValues x.2).flatten ++ post))
    have hval := slice_middle (pre ++ k) v ((xs.map fun x => sel.strip mode x.1 ++
      sentValue noValues x.2).flatten ++ post)
    rw [List.length_append] at hval
    simp only [List.append_assoc] at hkey hval hih ⊢
    rw [hkey, hval, hih, iterItem, hk, hv]
    refine congrArg₂ List.cons rfl ?_
    refine List.mapIdx_eq_mapIdx_iff.2 fun j _ => ?_
    rw [Nat.add_right_comm i 1 j, Nat.add_assoc i j 1]

theorem length_strip_le (sel : KeySelection) (mode : Mode) (key : Bytes) :
    (sel.strip mode key).length ≤ key.length := by
  cases sel <;> dsimp only [KeySelection.strip] <;> split_ifs <;> simp

/-- On the direct path, a batch is read back from the RPC. -/
theorem sound_keyValueDirect :
    (keyValueDirectBatching (sel.sizedFilter mode) noValues).Sound (ProperResult sel)
      (iterItem mode sel noValues) List.length where
  items start xs h := by
    obtain ⟨hk, hv, hkv⟩ := keyvals_collect mode noValues fun x hx => (h x hx).1
    have hitems := iterItems_eq mode sel noValues start xs 0 [] []
    simp only [List.nil_append, List.append_nil, List.length_nil, Nat.zero_add] at hitems
    show iterItems start ((keyValueBatching (sel.sizedFilter mode) noValues).collect xs).keyvals
      (List.zip _ _) 0 0 = _
    rw [← hitems, ← hk, ← hv, ← hkv]
    rfl
  advance_collect xs _ := Batching.size_collect (keyValueDirectBatching _ _) xs
  advance_append xs ys := List.length_append

/-- On the other path, it is read back from the region that the client pulls. -/
theorem sound_keyValue :
    (keyValueBatching (sel.sizedFilter mode) noValues).Sound (ProperResult sel)
      (iterItem mode sel noValues) List.length where
  items start xs h := by
    obtain ⟨hk, hv, hkv⟩ := keyvals_collect mode noValues fun x hx => (h x hx).1
    have hitems := iterItems_eq mode sel noValues start xs 0 [] []
    simp only [List.nil_append, List.append_nil, List.length_nil, Nat.zero_add] at hitems
    generalize hb : (keyValueBatching (sel.sizedFilter mode) noValues).collect xs = b at hk hv hkv
    have hksizes : ∀ size ∈ b.ksizes, size < 2 ^ 64 := by
      rw [hk, List.forall_mem_map]
      exact fun x hx => (length_strip_le sel mode x.1).trans_lt (h x hx).2.1
    have hvsizes : ∀ size ∈ b.vsizes, size < 2 ^ 64 := by
      rw [hv, List.forall_mem_map]
      intro x hx
      unfold sentValue
      split_ifs
      · exact Nat.two_pow_pos 64
      · exact (h x hx).2.2
    have hkread := sizesOfMemory_append hksizes (sizesMemory b.vsizes ++ b.keyvals)
    have hvread := sizesOfMemory_append hvsizes b.keyvals
    show ykIterBackItems start b.ksizes.length
      (sizesMemory b.ksizes ++ (sizesMemory b.vsizes ++ b.keyvals)) = _
    have hdrop : (sizesMemory b.ksizes ++ (sizesMemory b.vsizes ++ b.keyvals)).drop
        (8 * b.ksizes.length) = sizesMemory b.vsizes ++ b.keyvals :=
      List.drop_left' (length_sizesMemory _)
    have hdrop' : (sizesMemory b.ksizes ++ (sizesMemory b.vsizes ++ b.keyvals)).drop
        (16 * b.ksizes.length) = b.keyvals := by
      rw [← List.append_assoc]
      refine List.drop_left' ?_
      rw [List.length_append, length_sizesMemory, length_sizesMemory, b.length_eq]
      omega
    unfold ykIterBackItems
    rw [hkread, hdrop, hdrop', ← b.length_eq, hvread, ← hitems, hk, hv, hkv]
  advance_collect xs _ := Batching.size_collect (keyValueBatching _ _) xs
  advance_append xs ys := List.length_append

theorem sound_iterBatching :
    (iterBatching mode (sel.sizedFilter mode) noValues).Sound (ProperResult sel)
      (iterItem mode sel noValues) List.length := by
  unfold iterBatching
  split_ifs
  · exact sound_keyValueDirect
  · exact sound_keyValue

end KeyValues

/-! ### From the database to the callback -/

/-- The calls of a callback that succeeds, for the results of `iter`: each key as the filter leaves
it, with its value or an empty one. -/
def iterCalls (mode : Mode) (filterData : Bytes) (noValues : Bool)
    (results : List (Bytes × Bytes)) : History IterItem :=
  results.mapIdx fun j x =>
    (⟨j, (keySelection mode filterData).strip mode x.1, if noValues then [] else x.2⟩, .SUCCESS)

section Calls

variable {cb : Callback IterItem} {mode : Mode} {filterData : Bytes} {noValues : Bool}
  {results : List (Bytes × Bytes)}

/-- A sound way to collect results makes the calls that are expected. -/
theorem iterUlt_eq_iterCalls {B : Batching (Bytes × Bytes) β IterItem} (hcb : cb.Succeeds)
    (hB : B.Sound (ProperResult (keySelection mode filterData))
      (iterItem mode (keySelection mode filterData) noValues) List.length)
    (batchSize : UInt32) (count : ℕ) (final : ReturnCode) (hlen : results.length < 2 ^ 32)
    (hproper : ∀ x ∈ results, ProperResult (keySelection mode filterData) x) :
    (iterUlt B cb batchSize count final results).2 =
      iterCalls mode filterData noValues results := by
  rw [iterUlt_of_succeeds hcb, hB.flatten_batches hproper, iterCalls]
  refine List.ext_getElem (by simp) fun j _ hj => ?_
  rw [List.length_mapIdx] at hj
  rw [List.getElem_map, List.getElem_mapIdx, List.getElem_mapIdx,
    Batching.position_length _ _ hj, iterItem, Nat.mod_eq_of_lt (hj.trans hlen)]
  rfl

end Calls

namespace MapDatabase

variable {c : Comparator}

/-- What `iter` hands to a callback that accepts everything. -/
def handed (mode : Mode) (max : ℕ) (s : MapDatabase c) (fromKey : Bytes) (filter : KeyValueFilter)
    (ignoreValues : Bool) : List (Bytes × Bytes) :=
  (s.iter mode max fromKey filter ignoreValues
    (fun calls key val => (.OK, calls ++ [(key, val)])) []).2

theorem feed_record {γ : Type} [DecidableEq γ] (ok final : γ) (results calls : List α) :
    feed ok final (fun calls x => (ok, calls ++ [x])) results calls = (final, calls ++ results) := by
  induction results generalizing calls with
  | nil => rw [feed, List.append_nil]
  | cons x xs ih => rw [feed_cons, if_pos rfl, ih, List.append_assoc]; rfl

/-- `iter` hands the same results to every callback, until that refuses one. -/
theorem handed_spec (mode : Mode) (max : ℕ) (s : MapDatabase c) (fromKey : Bytes)
    (filter : KeyValueFilter) (ignoreValues : Bool) :
    (∀ x ∈ s.handed mode max fromKey filter ignoreValues, IterResult filter ignoreValues
      (s.entriesFrom (mode.has .inclusive) fromKey) x) ∧
    ∃ final : Status, ∀ {υ : Type} (func : υ → Bytes → Bytes → Status × υ) (u : υ),
      s.iter mode max fromKey filter ignoreValues func u =
        feed .OK final (fun u e => func u e.1 e.2)
          (s.handed mode max fromKey filter ignoreValues) u := by
  obtain ⟨final, results, hmem, hfeed⟩ := iter_eq_feed mode max s fromKey filter ignoreValues
  have hhanded : s.handed mode max fromKey filter ignoreValues = results := by
    rw [handed, hfeed, feed_record]
    rfl
  rw [hhanded]
  exact ⟨hmem, final, hfeed⟩

theorem find_of_mem_entriesFrom {s : MapDatabase c} {inclusive : Bool} {fromKey : Bytes}
    {e : Bytes × Bytes} (h : e ∈ s.entriesFrom inclusive fromKey) : s.find e.1 = some e.2 := by
  suffices e ∈ s.db.toList from Std.ExtTreeMap.mem_toList_iff_getElem?_eq_some.1 this
  unfold entriesFrom at h
  split_ifs at h
  · exact h
  · exact List.dropWhile_subset _ h
  · exact List.dropWhile_subset _ h

/-- The keys and values have sizes that a `size_t` can hold. -/
def SizesFit (s : MapDatabase c) : Prop :=
  ∀ key val, s.find key = some val → key.length < 2 ^ 64 ∧ val.length < 2 ^ 64

theorem properResult_of_handed {mode : Mode} {max : ℕ} {s : MapDatabase c} {fromKey : Bytes}
    {fmode : Mode} {sel : KeySelection} {ignoreValues : Bool} (hs : s.SizesFit) {x : Bytes × Bytes}
    (h : x ∈ s.handed mode max fromKey (sel.filter fmode) ignoreValues) : ProperResult sel x := by
  obtain ⟨val, hmem, hcheck, hval⟩ := (handed_spec mode max s fromKey _ ignoreValues).1 x h
  obtain ⟨hkey, hlen⟩ := hs x.1 val (find_of_mem_entriesFrom hmem)
  rw [KeySelection.check_filter, decide_eq_true_eq] at hcheck
  refine ⟨hcheck, hkey, ?_⟩
  rw [hval]
  split_ifs
  · exact Nat.two_pow_pos 64
  · exact hlen

end MapDatabase

/-- A callback that succeeds is called on the results that a database hands over, in order, with
the indices `0, 1, 2, …`, in a mode that passes. This holds with and without RDMA, and for what a
`map` database hands over for any request. -/
theorem iter_delivered {cb : Callback IterItem} (hcb : cb.Succeeds) (supportsMode : Mode → Bool)
    (mode : Mode) (filterData : Bytes) (noValues : Bool) (batchSize : UInt32) (count : ℕ) :
    let filter := makeKeyValueFilter mode filterData
    (∀ (final : ReturnCode) (results : List (Bytes × Bytes)), results.length < 2 ^ 32 →
      (∀ x ∈ results, ProperResult (keySelection mode filterData) x) →
        (ykIter supportsMode mode filter noValues cb batchSize count final results).2 =
            (if modePasses supportsMode mode then iterCalls mode filterData noValues results
              else []) ∧
          (iterUlt (keyValueBatching filter noValues) cb batchSize count final results).2 =
            (iterUlt (keyValueDirectBatching filter noValues) cb batchSize count final results).2) ∧
    ∀ {c : Comparator} (s : MapDatabase c) (fromKey : Bytes),
      let results := s.handed mode count fromKey filter.toKeyValueFilter noValues
      s.SizesFit → results.length < 2 ^ 32 → ∃ final : Status,
        (∀ {υ : Type} (func : υ → Bytes → Bytes → Status × υ) (u : υ),
          s.iter mode count fromKey filter.toKeyValueFilter noValues func u =
            feed .OK final (fun u e => func u e.1 e.2) results u) ∧
        (ykIter supportsMode mode filter noValues cb batchSize count final.code results).2 =
          if modePasses supportsMode mode then iterCalls mode filterData noValues results
          else [] := by
  have hcalls (final : ReturnCode) (results : List (Bytes × Bytes))
      (hlen : results.length < 2 ^ 32)
      (hproper : ∀ x ∈ results, ProperResult (keySelection mode filterData) x) :
      (ykIter supportsMode mode (makeKeyValueFilter mode filterData) noValues cb batchSize count
          final results).2 =
        if modePasses supportsMode mode then iterCalls mode filterData noValues results
        else [] := by
    rw [ykIter]
    split_ifs with hmode
    · exact iterUlt_eq_iterCalls hcb sound_iterBatching batchSize count final hlen hproper
    · rfl
  refine ⟨fun final results hlen hproper => ⟨?_, ?_⟩, fun s fromKey hs hlen => ?_⟩
  · exact hcalls final results hlen hproper
  · exact (iterUlt_eq_iterCalls hcb sound_keyValue batchSize count final hlen hproper).trans
      (iterUlt_eq_iterCalls hcb sound_keyValueDirect batchSize count final hlen hproper).symm
  · obtain ⟨-, final, hfeed⟩ := MapDatabase.handed_spec mode count s fromKey
      (makeKeyValueFilter mode filterData).toKeyValueFilter noValues
    exact ⟨final, hfeed, hcalls final.code _ hlen fun x hx =>
      MapDatabase.properResult_of_handed hs hx⟩

/-- A database with two keys. -/
def iteratedKeys : MapDatabase .default := ((MapDatabase.empty .default).assign [1] [10]).assign [1, 2] []

/-- Two results in batches of one, and an iteration over a database that has them. -/
theorem iter_delivered_two :
    let calls := [(⟨0, [1], [10]⟩, ReturnCode.SUCCESS), (⟨1, [1, 2], []⟩, .SUCCESS)]
    (ykIter MapDatabase.supportsMode .default (makeKeyValueFilter .default [1]) false
        (fun _ _ => .SUCCESS) 1 0 .SUCCESS [([1], [10]), ([1, 2], [])]).2 = calls ∧
    ∃ final : Status, (ykIter MapDatabase.supportsMode .default (makeKeyValueFilter .default [1])
        false (fun _ _ => .SUCCESS) 1 0 final.code (iteratedKeys.handed .default 0 []
          (makeKeyValueFilter .default [1]).toKeyValueFilter false)).2 = calls := by
  have hcb : Callback.Succeeds fun _ (_ : IterItem) => ReturnCode.SUCCESS := fun _ _ => rfl
  have hsizes : iteratedKeys.SizesFit := by
    intro key val h
    rw [iteratedKeys, MapDatabase.find_assign, MapDatabase.find_assign, Function.update_apply,
      Function.update_apply] at h
    split_ifs at h with hsecond hfirst
    · rw [hsecond, ← Option.some.inj h]
      decide
    · rw [hfirst, ← Option.some.inj h]
      decide
    · cases h.symm.trans Std.ExtTreeMap.getElem?_empty
  obtain ⟨hlist, hmap⟩ := iter_delivered hcb MapDatabase.supportsMode .default [1] false 1 0
  refine ⟨(hlist .SUCCESS [([1], [10]), ([1, 2], [])] (by decide) ?_).1, ?_⟩
  · intro x hx
    fin_cases hx <;> exact ⟨by decide, by decide, by decide⟩
  · obtain ⟨final, -, hcalls⟩ := hmap iteratedKeys [] hsizes (by decide)
    exact ⟨final, hcalls.trans (by decide)⟩

/-! ### Documents -/

/-- The filter that the server builds for documents, without those that run code from outside. -/
def makeDocFilter : SizedDocFilter where
  toDocFilter := defaultDocFilter
  docSizeFrom _ := List.length

/-- A document is put behind those that are there. -/
theorem docs_push (name : CString) (b : DocIterBatch) (x : UInt64 × Bytes) :
    let b' := b.push makeDocFilter name x
    b'.ids = b.ids ++ [x.1] ∧ b'.docSizes = b.docSizes ++ [x.2.length] ∧
      b'.docs = b.docs ++ x.2 := by
  have hroom : resizeTo (b.docs.length + x.2.length) b.docs =
      b.docs ++ List.replicate x.2.length 0 := by
    rw [resizeTo_of_le (by omega), Nat.add_sub_cancel_left]
  have hcopy : makeDocFilter.docCopy name (b.docs ++ List.replicate x.2.length 0) b.docs.length
      x.2.length x.2 = (x.2.length, b.docs ++ x.2) := by
    change copyOut _ _ _ _ = _
    rw [copyOut, if_neg (Nat.lt_irrefl _), blit_append_right, List.drop_replicate, Nat.sub_self,
      List.replicate_zero, List.append_nil]
  unfold DocIterBatch.push
  simp only [show makeDocFilter.docSizeFrom name x.2 = x.2.length from rfl, hroom, hcopy]
  refine ⟨trivial, trivial, ?_⟩
  rw [← List.length_append, resizeTo_self]

/-- The item for a result of `docIter`. -/
def docIterItem (index : ℕ) (x : UInt64 × Bytes) : DocIterItem := ⟨index % 2 ^ 32, x.1, x.2⟩

/-- A document whose size is not a mark. -/
def ProperDoc (x : UInt64 × Bytes) : Prop := x.2.length ≤ lastValidSize

/-- The number of bytes of some documents. -/
def totalSize (xs : List (UInt64 × Bytes)) : ℕ := (xs.map fun x => x.2.length).sum

theorem docs_collect {B : Batching (UInt64 × Bytes) DocIterBatch DocIterItem} {name : CString}
    (hempty : B.empty = ⟨[], [], [], rfl⟩) (hpush : B.push = DocIterBatch.push makeDocFilter name)
    (xs : List (UInt64 × Bytes)) :
    (B.collect xs).ids = xs.map Prod.fst ∧
      (B.collect xs).docSizes = xs.map (fun x => x.2.length) ∧
      (B.collect xs).docs = (xs.map Prod.snd).flatten := by
  induction xs using List.reverseRecOn with
  | nil =>
    rw [Batching.collect, List.foldl_nil, hempty]
    exact ⟨rfl, rfl, rfl⟩
  | append_singleton xs x ih =>
    obtain ⟨hids, hsizes, hdocs⟩ := ih
    obtain ⟨hids', hsizes', hdocs'⟩ := docs_push name (B.collect xs) x
    rw [Batching.collect_concat, hpush]
    refine ⟨hids'.trans ?_, hsizes'.trans ?_, hdocs'.trans ?_⟩
    · rw [hids, List.map_append]
      rfl
    · rw [hsizes, List.map_append]
      rfl
    · rw [hdocs, List.map_append, List.flatten_append]
      simp

/-- Documents are cut out again where they were put. -/
theorem docItems_eq (start : ℕ) {xs : List (UInt64 × Bytes)} (h : ∀ x ∈ xs, ProperDoc x) (i : ℕ)
    (pre post : Bytes) :
    docItems start (pre ++ ((xs.map Prod.snd).flatten ++ post))
      ((xs.map Prod.fst).zip (xs.map fun x => x.2.length)) i pre.length =
      xs.mapIdx fun j x => docIterItem (start + (i + j)) x := by
  induction xs generalizing i pre with
  | nil => rfl
  | cons x xs ih =>
    obtain ⟨hx, hxs⟩ := List.forall_mem_cons.1 h
    have hsize : x.2.length ≤ lastValidSize := hx
    have hdoc := slice_middle pre x.2 ((xs.map Prod.snd).flatten ++ post)
    have hih := ih hxs (i + 1) (pre ++ x.2)
    rw [List.length_append] at hih
    simp only [List.append_assoc] at hih
    rw [List.map_cons, List.map_cons, List.map_cons, List.flatten_cons, List.zip_cons_cons,
      docItems, List.mapIdx_cons, List.append_assoc, hdoc, if_pos hsize, hih]
    refine congrArg₂ List.cons rfl ?_
    refine List.mapIdx_eq_mapIdx_iff.2 fun j _ => ?_
    rw [Nat.add_right_comm i 1 j, Nat.add_assoc i j 1]

/-- An array of ids at the front of a region is read back. -/
theorem idsOfMemory_append (ids : List UInt64) (rest : Bytes) :
    idsOfMemory ids.length (idsMemory ids ++ rest) = ids := by
  induction ids with
  | nil => rfl
  | cons id ids ih =>
    rw [idsOfMemory, idsMemory] at ih ⊢
    rw [List.length_cons, List.replicate_succ, List.map_cons, List.flatten_cons, List.append_assoc,
      unpack_cons, List.map_cons, List.take_left' (length_encode ..),
      List.drop_left' (length_encode ..), ih, decode_encode_of_lt id.toNat_lt, UInt64.ofNat_toNat]

@[simp] theorem length_idsMemory (ids : List UInt64) : (idsMemory ids).length = 8 * ids.length := by
  induction ids with
  | nil => rfl
  | cons id ids ih =>
    rw [idsMemory, List.map_cons, List.flatten_cons, List.length_append, length_encode,
      List.length_cons]
    rw [idsMemory] at ih
    omega

/-- With RDMA, a batch is read back from the region that the client pulls. -/
theorem sound_doc (name : CString) :
    (docBatching makeDocFilter name).Sound ProperDoc docIterItem List.length where
  items start xs h := by
    obtain ⟨hids, hsizes, hdocs⟩ := docs_collect (B := docBatching makeDocFilter name) rfl rfl xs
    have hitems := docItems_eq start h 0 [] []
    simp only [List.nil_append, List.append_nil, List.length_nil, Nat.zero_add] at hitems
    generalize hb : (docBatching makeDocFilter name).collect xs = b at hids hsizes hdocs
    have hlt : ∀ size ∈ b.docSizes, size < 2 ^ 64 := by
      have hmark : lastValidSize < 2 ^ 64 := by decide
      rw [hsizes, List.forall_mem_map]
      exact fun x hx => (h x hx).trans_lt hmark
    have hread := idsOfMemory_append b.ids (sizesMemory b.docSizes ++ b.docs)
    have hsread := sizesOfMemory_append hlt b.docs
    have hdrop : (idsMemory b.ids ++ (sizesMemory b.docSizes ++ b.docs)).drop
        (8 * b.ids.length) = sizesMemory b.docSizes ++ b.docs :=
      List.drop_left' (length_idsMemory _)
    have hdrop' : (idsMemory b.ids ++ (sizesMemory b.docSizes ++ b.docs)).drop
        (16 * b.ids.length) = b.docs := by
      rw [← List.append_assoc]
      refine List.drop_left' ?_
      rw [List.length_append, length_idsMemory, length_sizesMemory, b.length_eq]
      omega
    show bulkToDocs start b.ids.length
      (idsMemory b.ids ++ (sizesMemory b.docSizes ++ b.docs)) = _
    unfold bulkToDocs
    rw [hread, hdrop, hdrop', ← b.length_eq, hsread, ← hitems, hids, hsizes, hdocs]
  advance_collect xs _ := Batching.size_collect (docBatching _ _) xs
  advance_append xs ys := List.length_append

/-- Without RDMA it is read back too, but the position advances by the number of bytes. -/
theorem sound_docDirect (name : CString) :
    (docDirectBatching makeDocFilter name).Sound ProperDoc docIterItem totalSize where
  items start xs h := by
    obtain ⟨hids, hsizes, hdocs⟩ :=
      docs_collect (B := docDirectBatching makeDocFilter name) rfl rfl xs
    have hitems := docItems_eq start h 0 [] []
    simp only [List.nil_append, List.append_nil, List.length_nil, Nat.zero_add] at hitems
    show docItems start ((docDirectBatching makeDocFilter name).collect xs).docs
      (List.zip _ _) 0 0 = _
    rw [← hitems, ← hids, ← hsizes, ← hdocs]
  advance_collect xs _ := by
    obtain ⟨-, -, hdocs⟩ := docs_collect (B := docDirectBatching makeDocFilter name) rfl rfl xs
    show ((docDirectBatching makeDocFilter name).collect xs).docs.length = _
    rw [hdocs, List.length_flatten, List.map_map]
    rfl
  advance_append xs ys := by
    rw [totalSize, List.map_append, List.sum_append]
    rfl

/-- The calls of a callback that succeeds, for the results of `docIter`. -/
def docIterCalls (results : List (UInt64 × Bytes)) : History DocIterItem :=
  results.mapIdx fun j x => (⟨j, x.1, x.2⟩, .SUCCESS)

/-- In front of each batch there are as many bytes as documents, up to the width of an index. -/
def BytesCountDocs (b : ℕ) (results : List (UInt64 × Bytes)) : Prop :=
  ∀ k, k * b < results.length → totalSize (results.take (k * b)) % 2 ^ 32 = k * b

section DocCalls

variable {cb : Callback DocIterItem} {results : List (UInt64 × Bytes)}

/-- The calls are those that are expected exactly if each position is the index. -/
theorem iterUlt_eq_docIterCalls_iff {B : Batching (UInt64 × Bytes) β DocIterItem}
    {advance : List (UInt64 × Bytes) → ℕ} (hcb : cb.Succeeds)
    (hB : B.Sound ProperDoc docIterItem advance) (batchSize : UInt32) (count : ℕ)
    (final : ReturnCode) (hproper : ∀ x ∈ results, ProperDoc x) :
    (iterUlt B cb batchSize count final results).2 = docIterCalls results ↔
      ∀ j < results.length, Batching.position advance
        (effectiveBatchSize batchSize count).toNat results j % 2 ^ 32 = j := by
  rw [iterUlt_of_succeeds hcb, hB.flatten_batches hproper, docIterCalls]
  refine ⟨fun h j hj => ?_, fun h => List.ext_getElem (by simp) fun j _ hj => ?_⟩
  · have hget := congrArg (·[j]?) h
    simp only [List.getElem?_map, List.getElem?_mapIdx, List.getElem?_eq_getElem hj,
      Option.map_some, docIterItem, Option.some.injEq, Prod.mk.injEq, DocIterItem.mk.injEq] at hget
    exact hget.1.1
  · rw [List.length_mapIdx] at hj
    rw [List.getElem_map, List.getElem_mapIdx, List.getElem_mapIdx, docIterItem, h j hj]

theorem position_totalSize_iff {b : ℕ} (hlen : results.length < 2 ^ 32) :
    (∀ j < results.length, Batching.position totalSize b results j % 2 ^ 32 = j) ↔
      BytesCountDocs b results := by
  unfold Batching.position
  refine ⟨fun h k hk => ?_, fun h j hj => ?_⟩
  · have hposition := h (k * b) hk
    rcases Nat.eq_zero_or_pos b with rfl | hb
    · exact hposition
    · rwa [Nat.mul_div_cancel k hb, Nat.mul_mod_left, Nat.add_zero] at hposition
  · -- the documents in front of the batch of the `j`-th one
    have hstart := h (j / b) ((Nat.div_mul_le_self j b).trans_lt hj)
    rw [Nat.add_mod, hstart, Nat.add_mod_mod, Nat.div_add_mod', Nat.mod_eq_of_lt (hj.trans hlen)]

end DocCalls

namespace DocumentStoreMixin

/-- What `docIter` hands to a callback that accepts everything. -/
def docHanded (s : DocumentStoreMixin (MapDatabase .default)) (name : CString) (mode : Mode)
    (max : ℕ) (fromId : UInt64) (filter : DocFilter) : List (UInt64 × Bytes) :=
  (s.docIter name mode max fromId filter (fun calls id doc => (.OK, calls ++ [(id, doc)])) []).2.2

theorem feed_map {γ δ τ : Type} [DecidableEq γ] (ok final : γ) (func : τ → δ → γ × τ) (f : α → δ)
    (results : List α) (t : τ) :
    feed ok final (fun t x => func t (f x)) results t = feed ok final func (results.map f) t := by
  induction results generalizing t with
  | nil => rfl
  | cons x xs ih => rw [feed_cons, List.map_cons, feed_cons, ih]

/-- `docIter` hands the same results to every callback, until that refuses one. -/
theorem docIter_eq_feed (s : DocumentStoreMixin (MapDatabase .default)) (name : CString)
    (mode : Mode) (max : ℕ) (fromId : UInt64) (filter : DocFilter) :
    ∃ final : Status, ∀ {υ : Type} (func : υ → UInt64 → Bytes → Status × υ) (u : υ),
      let r := s.docIter name mode max fromId filter func u
      (r.1, r.2.2) = feed .OK final (fun u x => func u x.1 x.2)
        (s.docHanded name mode max fromId filter) u := by
  suffices ∃ (final : Status) (results : List (UInt64 × Bytes)),
      ∀ {υ : Type} (func : υ → UInt64 → Bytes → Status × υ) (u : υ),
        let r := s.docIter name mode max fromId filter func u
        (r.1, r.2.2) = feed .OK final (fun u x => func u x.1 x.2) results u by
    obtain ⟨final, results, hfeed⟩ := this
    have hhanded : s.docHanded name mode max fromId filter = results := by
      have hrecord := hfeed (fun calls id doc => (.OK, calls ++ [(id, doc)])) []
      dsimp only at hrecord
      rw [MapDatabase.feed_record .OK final results []] at hrecord
      exact (Prod.mk.inj hrecord).2
    rw [hhanded]
    exact ⟨final, hfeed⟩
  unfold docIter
  by_cases hname : name.bytes = []
  · refine ⟨.InvalidArg, [], fun func u => ?_⟩
    rw [if_pos hname]
    rfl
  · obtain ⟨status, metadata, t⟩ := s.collGetMetadata name {}
    by_cases hstatus : status = .OK
    · obtain ⟨final, results, -, hfeed⟩ := MapDatabase.iter_eq_feed .inclusive max t.db
        (keyFromId name fromId) (collectionFilterWrapper name filter) false
      refine ⟨final, results.map fun e => (idFromKey name.bytes.length e.1, e.2), fun func u => ?_⟩
      rw [if_neg hname, ← feed_map, ← hfeed (fun u key val =>
        func u (idFromKey name.bytes.length key) val)]
      simp only [hstatus, ne_eq, not_true_eq_false, if_false]
      rfl
    · refine ⟨status, [], fun func u => ?_⟩
      rw [if_neg hname]
      simp only [ne_eq, hstatus, not_false_eq_true, if_true]
      rfl

end DocumentStoreMixin

/-- A callback that succeeds is called on the documents that `docIter` hands over, in order, with
the indices `0, 1, 2, …`, in a mode that passes, exactly if RDMA is used, or if in front of each
batch there are as many bytes as documents. -/
theorem doc_iter_delivered_iff {cb : Callback DocIterItem} (hcb : cb.Succeeds)
    (supportsMode : Mode → Bool) (mode : Mode) (name : CString) (batchSize : UInt32) (count : ℕ) :
    let b := (effectiveBatchSize batchSize count).toNat
    (∀ (final : ReturnCode) (results : List (UInt64 × Bytes)), results.length < 2 ^ 32 →
      (∀ x ∈ results, ProperDoc x) →
        ((ykDocIter supportsMode mode makeDocFilter name cb batchSize count final results).2 =
            (if modePasses supportsMode mode then docIterCalls results else []) ↔
          modePasses supportsMode mode = false ∨ mode.has .noRdma = false ∨
            BytesCountDocs b results)) ∧
    ∀ (s : DocumentStoreMixin (MapDatabase .default)) (fromId : UInt64),
      let results := s.docHanded name mode count fromId defaultDocFilter
      results.length < 2 ^ 32 → (∀ x ∈ results, ProperDoc x) → ∃ final : Status,
        (∀ {υ : Type} (func : υ → UInt64 → Bytes → Status × υ) (u : υ),
          let r := s.docIter name mode count fromId defaultDocFilter func u
          (r.1, r.2.2) = feed .OK final (fun u x => func u x.1 x.2) results u) ∧
        ((ykDocIter supportsMode mode makeDocFilter name cb batchSize count final.code results).2 =
            (if modePasses supportsMode mode then docIterCalls results else []) ↔
          modePasses supportsMode mode = false ∨ mode.has .noRdma = false ∨
            BytesCountDocs b results) := by
  have hpassed : ∀ (final : ReturnCode) (results : List (UInt64 × Bytes)),
      results.length < 2 ^ 32 → (∀ x ∈ results, ProperDoc x) →
        ((iterUlt (docIterBatching mode makeDocFilter name) cb batchSize count final results).2 =
            docIterCalls results ↔ mode.has .noRdma = false ∨
              BytesCountDocs (effectiveBatchSize batchSize count).toNat results) := by
    intro final results hlen hproper
    unfold docIterBatching
    cases hrdma : mode.has .noRdma with
    | true =>
      -- with `NO_RDMA` the index of a batch counts the bytes of the documents before it
      rw [if_pos rfl, iterUlt_eq_docIterCalls_iff hcb (sound_docDirect name) batchSize count final
        hproper, position_totalSize_iff hlen]
      simp
    | false =>
      rw [if_neg Bool.false_ne_true, iterUlt_eq_docIterCalls_iff hcb (sound_doc name) batchSize
        count final hproper]
      simp only [true_or, iff_true]
      intro j hj
      rw [Batching.position_length _ _ hj, Nat.mod_eq_of_lt (hj.trans hlen)]
  have hiff : ∀ (final : ReturnCode) (results : List (UInt64 × Bytes)),
      results.length < 2 ^ 32 → (∀ x ∈ results, ProperDoc x) →
        ((ykDocIter supportsMode mode makeDocFilter name cb batchSize count final results).2 =
            (if modePasses supportsMode mode then docIterCalls results else []) ↔
          modePasses supportsMode mode = false ∨ mode.has .noRdma = false ∨
            BytesCountDocs (effectiveBatchSize batchSize count).toNat results) := by
    intro final results hlen hproper
    rw [ykDocIter]
    cases modePasses supportsMode mode with
    | true =>
      rw [if_pos rfl, if_pos rfl, hpassed final results hlen hproper]
      simp
    | false => exact iff_of_true rfl (Or.inl rfl)
  refine ⟨hiff, fun s fromId hlen hproper => ?_⟩
  obtain ⟨final, hfeed⟩ := s.docIter_eq_feed name mode count fromId defaultDocFilter
  exact ⟨final, hfeed, hiff final.code _ hlen hproper⟩

/-- A collection with two documents. -/
def iteratedDocs : DocumentStoreMixin (MapDatabase .default) :=
  ⟨((MapDatabase.empty .default).assign (keyFromId nameC 0) [7]).assign
      (keyFromId nameC 1) [8, 9],
    Function.update (fun _ => none) nameC.bytes (some ⟨2, 2⟩)⟩

/-- Two documents in batches of one, without RDMA, and an iteration over a collection that has
them. -/
theorem doc_iter_delivered_iff_two :
    let calls := [(⟨0, 0, [7]⟩, ReturnCode.SUCCESS), (⟨1, 1, [8, 9]⟩, .SUCCESS)]
    (ykDocIter MapDatabase.supportsMode .noRdma makeDocFilter nameC (fun _ _ => .SUCCESS) 1 0
        .SUCCESS [(0, [7]), (1, [8, 9])]).2 = calls ∧
    ∃ final : Status, (ykDocIter MapDatabase.supportsMode .noRdma makeDocFilter nameC
        (fun _ _ => .SUCCESS) 1 0 final.code
        (iteratedDocs.docHanded nameC .noRdma 0 0 defaultDocFilter)).2 = calls := by
  have hcb : Callback.Succeeds fun _ (_ : DocIterItem) => ReturnCode.SUCCESS := fun _ _ => rfl
  have hhanded : iteratedDocs.docHanded nameC .noRdma 0 0 defaultDocFilter =
      [(0, [7]), (1, [8, 9])] := by decide
  have hproper : ∀ x ∈ [((0 : UInt64), ([7] : Bytes)), (1, [8, 9])], ProperDoc x := by
    intro x hx
    fin_cases hx <;> exact Nat.le_of_ble_eq_true rfl
  have hbytes : BytesCountDocs 1 [(0, [7]), (1, [8, 9])] := by
    intro k hk
    replace hk : k * 1 < 2 := hk
    have hlt : k < 2 := by omega
    interval_cases k <;> rfl
  obtain ⟨hlist, hmap⟩ := doc_iter_delivered_iff hcb MapDatabase.supportsMode .noRdma nameC 1 0
  refine ⟨(hlist .SUCCESS [(0, [7]), (1, [8, 9])] (by decide) hproper).2
    (Or.inr (Or.inr hbytes)), ?_⟩
  have hcalls := hmap iteratedDocs 0
  dsimp only at hcalls
  rw [hhanded] at hcalls ⊢
  obtain ⟨final, -, hiff⟩ := hcalls (by decide) hproper
  exact ⟨final, hiff.2 (Or.inr (Or.inr hbytes))⟩

/-- Behind a document of two bytes, the second batch starts at the index two. -/
theorem doc_iter_index_skipped :
    ¬ ∀ (cb : Callback DocIterItem) (mode : Mode) (name : CString) (batchSize : UInt32) (count : ℕ)
      (final : ReturnCode) (results : List (UInt64 × Bytes)), cb.Succeeds →
        modePasses MapDatabase.supportsMode mode = true →
        results.length < 2 ^ 32 → (∀ x ∈ results, ProperDoc x) →
          (ykDocIter MapDatabase.supportsMode mode makeDocFilter name cb batchSize count final
              results).2 = docIterCalls results := by
  intro h
  have hcalls := h (fun _ _ => .SUCCESS) .noRdma nameC 1 0 .SUCCESS
    [(0, [7, 7]), (1, [8])] (fun _ _ => rfl) (by decide) (by decide) (by
      intro x hx
      fin_cases hx <;> exact Nat.le_of_ble_eq_true rfl)
  have hsent : (ykDocIter MapDatabase.supportsMode .noRdma makeDocFilter nameC (fun _ _ => .SUCCESS) 1 0 .SUCCESS
      [(0, [7, 7]), (1, [8])]).2 = [(⟨0, 0, [7, 7]⟩, .SUCCESS), (⟨2, 1, [8]⟩, .SUCCESS)] := by
    decide
  rw [hsent] at hcalls
  revert hcalls
  decide

end Yokan
