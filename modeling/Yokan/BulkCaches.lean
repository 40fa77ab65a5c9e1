import Yokan.Library.NodeList
import Yokan.Library.Recency
import Yokan.Library.Transition
import Mathlib.Data.NNRat.Floor
import Mathlib.Data.List.Sort

/-!
# Yokan: the caches of bulk buffers

A provider takes the buffers for its transfers from a cache, and gives them back
(`include/yokan/bulk-cache.h`). A cache has a pool of released buffers for each mode of access and
hands out the first one, by size and address, that is large enough; only without one does it
allocate a buffer. `keep_all_bulk_cache.cpp` keeps every buffer, in a set. `lru_bulk_cache.cpp`
keeps `capacity` of them for each mode, in a list and in a map that points into the list.

* `LruBulkCache`, `KeepAllBulkCache`: the two caches;
* `Session`: a cache, the buffers its clients hold, and those they have released;
* `bulk_caches_sound`: what holds in every session.
-/

namespace Yokan

open NodeList Recency Transition

/-! ### Buffers -/

/-- `HG_BULK_READ_ONLY`, `HG_BULK_WRITE_ONLY`, `HG_BULK_READWRITE`. -/
inductive BulkMode
  | readOnly
  | writeOnly
  | readWrite
  deriving DecidableEq

/-- `yk_buffer`. Its memory is known by its address. -/
structure YkBuffer where
  size : ℕ
  mode : BulkMode
  data : ℕ
  deriving DecidableEq

/-- `bulk_less`. -/
def bulkLess (a b : YkBuffer) : Bool :=
  if a.size ≠ b.size then a.size < b.size else a.data < b.data

section Ordered

variable {α : Type}

/-- `lower_bound` in entries that are sorted by their buffers. -/
def lowerBound (buffer : α → YkBuffer) (bound : YkBuffer) (entries : List α) : Option α :=
  entries.find? fun e => !bulkLess (buffer e) bound

/-- Neither buffer is less than the other. -/
def bulkEquiv (a b : YkBuffer) : Bool := !bulkLess a b && !bulkLess b a

/-- `emplace` or `insert`, which do nothing when an equivalent buffer is there. -/
def emplaceEntry (buffer : α → YkBuffer) (e : α) (entries : List α) : List α :=
  if entries.any fun e' => bulkEquiv (buffer e') (buffer e) then entries
  else entries.orderedInsert (fun a b => bulkLess (buffer a) (buffer b) = true) e

end Ordered

/-! ### The two caches -/

/-- `yk_bulk_cache`. `get` is given the address that an allocation would return; `release` says
which buffer it frees, and has no result when it would erase an entry that is not there. -/
class BulkCache (σ : Type) where
  get : σ → ℕ → BulkMode → ℕ → Option (YkBuffer × σ)
  release : σ → YkBuffer → Option (Option YkBuffer × σ)
  pooled : σ → BulkMode → List YkBuffer

/-- The size of a new buffer, `size*(1.0 + margin)`. -/
def bufSizeOf (margin : ℚ≥0) (size : ℕ) : ℕ := ⌊(size : ℚ≥0) * (1 + margin)⌋₊

/-- The list and the map of a mode. -/
structure BufferPool where
  queue : NodeList YkBuffer
  set : List (YkBuffer × ℕ)

/-- `lru_bulk_cache`. -/
structure LruBulkCache where
  numInUse : ℕ
  pool : BulkMode → BufferPool
  margin : ℚ≥0
  capacity : ℕ

namespace LruBulkCache

/-- `lru_bulk_cache_init`. -/
def init (margin : ℚ≥0) (capacity : ℕ) : LruBulkCache :=
  ⟨0, fun _ => ⟨.empty, []⟩, margin, capacity⟩

/-- `lru_bulk_cache_get`. -/
def get (c : LruBulkCache) (size : ℕ) (mode : BulkMode) (address : ℕ) :
    Option (YkBuffer × LruBulkCache) :=
  if size = 0 then none
  else
    let p := c.pool mode
    match lowerBound Prod.fst ⟨size, mode, 0⟩ p.set with
    | some e =>
      let p := ⟨p.queue.erase e.2, p.set.erase e⟩
      some (e.1, { c with numInUse := c.numInUse + 1, pool := Function.update c.pool mode p })
    | none =>
      some (⟨bufSizeOf c.margin size, mode, address⟩, { c with numInUse := c.numInUse + 1 })

/-- `lru_bulk_cache_release`. -/
def release (c : LruBulkCache) (buffer : YkBuffer) : Option (Option YkBuffer × LruBulkCache) :=
  let c := { c with numInUse := c.numInUse - 1 }
  let p := c.pool buffer.mode
  let queue := p.queue.emplaceFront buffer
  let set := emplaceEntry Prod.fst (buffer, queue.begin?.getD 0) p.set
  if c.capacity < queue.nodes.length then
    queue.back?.bind fun oldest =>
      (set.find? fun e => bulkEquiv e.1 oldest).map fun e =>
        (some oldest,
          { c with pool := Function.update c.pool buffer.mode ⟨queue.popBack, set.erase e⟩ })
  else some (none, { c with pool := Function.update c.pool buffer.mode ⟨queue, set⟩ })

instance : BulkCache LruBulkCache where
  get := get
  release := release
  pooled c mode := (c.pool mode).queue.values

end LruBulkCache

/-- `keep_all_bulk_cache`. -/
structure KeepAllBulkCache where
  numInUse : ℕ
  set : BulkMode → List YkBuffer
  margin : ℚ≥0

namespace KeepAllBulkCache

/-- `keep_all_bulk_cache_init`. -/
def init (margin : ℚ≥0) : KeepAllBulkCache := ⟨0, fun _ => [], margin⟩

/-- `keep_all_bulk_cache_get`. -/
def get (c : KeepAllBulkCache) (size : ℕ) (mode : BulkMode) (address : ℕ) :
    Option (YkBuffer × KeepAllBulkCache) :=
  if size = 0 then none
  else
    match lowerBound id ⟨size, mode, 0⟩ (c.set mode) with
    | some result =>
      let set := (c.set mode).erase result
      some (result, { c with numInUse := c.numInUse + 1, set := Function.update c.set mode set })
    | none =>
      some (⟨bufSizeOf c.margin size, mode, address⟩, { c with numInUse := c.numInUse + 1 })

/-- `keep_all_bulk_cache_release`. -/
def release (c : KeepAllBulkCache) (buffer : YkBuffer) :
    Option (Option YkBuffer × KeepAllBulkCache) :=
  let set := emplaceEntry id buffer (c.set buffer.mode)
  some (none,
    { c with numInUse := c.numInUse - 1, set := Function.update c.set buffer.mode set })

instance : BulkCache KeepAllBulkCache where
  get := get
  release := release
  pooled := set

end KeepAllBulkCache

/-! ### Sessions -/

/-- A cache and its clients: the buffers they hold, and those released so far, in order. -/
structure Session (σ : Type) where
  cache : σ
  held : List YkBuffer
  released : List YkBuffer

/-- A call of a client. -/
inductive CacheCall
  | get (size : ℕ) (mode : BulkMode) (address : ℕ)
  | release (buffer : YkBuffer)

namespace Session

variable {σ : Type} [BulkCache σ]

/-- The buffers in the pools. -/
def pooled (cache : σ) : List YkBuffer :=
  [.readOnly, .writeOnly, .readWrite].flatMap (BulkCache.pooled cache)

/-- The buffers that have not been freed. -/
def live (s : Session σ) : List YkBuffer := s.held ++ pooled s.cache

/-- Clients ask for at least a byte, get new buffers at addresses of their own, and release what
they hold. -/
def Ok (s : Session σ) : CacheCall → Prop
  | .get size _ address => 1 ≤ size ∧ address ∉ s.live.map YkBuffer.data
  | .release buffer => buffer ∈ s.held

/-- A call. -/
def step (s : Session σ) : CacheCall → Option (Session σ)
  | .get size mode address =>
    (BulkCache.get s.cache size mode address).map fun r => ⟨r.2, r.1 :: s.held, s.released⟩
  | .release buffer =>
    (BulkCache.release s.cache buffer).map fun r =>
      ⟨r.2, s.held.erase buffer, s.released ++ [buffer]⟩

/-- The start of a session. -/
def start (cache : σ) : Session σ := ⟨cache, [], []⟩

theorem step_get {s : Session σ} {size : ℕ} {mode : BulkMode} {address : ℕ} {r : YkBuffer × σ}
    (h : BulkCache.get s.cache size mode address = some r) :
    s.step (.get size mode address) = some ⟨r.2, r.1 :: s.held, s.released⟩ := by
  rw [step, h]
  rfl

theorem step_release {s : Session σ} {b : YkBuffer} {r : Option YkBuffer × σ}
    (h : BulkCache.release s.cache b = some r) :
    s.step (.release b) = some ⟨r.2, s.held.erase b, s.released ++ [b]⟩ := by
  rw [step, h]
  rfl

/-- What both calls keep, all sessions keep. -/
theorem run_invariant {I : Session σ → Prop}
    (hget : ∀ s, I s → ∀ size mode address, s.Ok (.get size mode address) →
      ∃ r, BulkCache.get s.cache size mode address = some r ∧
        I ⟨r.2, r.1 :: s.held, s.released⟩)
    (hrelease : ∀ s, I s → ∀ b ∈ s.held,
      ∃ r, BulkCache.release s.cache b = some r ∧ I ⟨r.2, s.held.erase b, s.released ++ [b]⟩)
    {s t : Session σ} {calls : List CacheCall} (hs : I s)
    (hrun : Run (StepOption step Ok) s calls t) : I t := by
  refine hrun.invariant (fun s call t h hstep => ?_) hs
  obtain ⟨hok, hstep⟩ := hstep
  cases call with
  | get size mode address =>
    obtain ⟨r, hr, hI⟩ := hget s h size mode address hok
    rw [step_get hr] at hstep
    exact Option.some.inj hstep ▸ hI
  | release b =>
    obtain ⟨r, hr, hI⟩ := hrelease s h b hok
    rw [step_release hr] at hstep
    exact Option.some.inj hstep ▸ hI

/-- Buffers that have not been freed are at different addresses, and in the pool of their mode. -/
structure Distinct (s : Session σ) : Prop where
  addresses : (s.live.map YkBuffer.data).Nodup
  modes : ∀ mode, ∀ b ∈ BulkCache.pooled s.cache mode, b.mode = mode

/-- A buffer that a client may be given. -/
structure Serves (s : Session σ) (size : ℕ) (mode : BulkMode) (b : YkBuffer) : Prop where
  mode : b.mode = mode
  size : size ≤ b.size
  unheld : b.data ∉ s.held.map YkBuffer.data

variable {s : Session σ} {cache' : σ} {b : YkBuffer} {mode : BulkMode}

theorem pooled_perm {cache : σ} {add : List YkBuffer}
    (hmode : (BulkCache.pooled cache mode).Perm (add ++ BulkCache.pooled cache' mode))
    (hrest : ∀ m ≠ mode, BulkCache.pooled cache' m = BulkCache.pooled cache m) :
    (pooled cache).Perm (add ++ pooled cache') := by
  rw [List.perm_iff_count] at hmode ⊢
  intro a
  have hcount := hmode a
  simp only [pooled, List.flatMap_cons, List.flatMap_nil, List.append_nil, List.count_append]
    at hcount ⊢
  cases mode <;> simp only [hrest, ne_eq, reduceCtorEq, not_false_eq_true] <;> omega

theorem mem_pooled {cache : σ} (hb : b ∈ BulkCache.pooled cache mode) : b ∈ pooled cache := by
  rw [pooled, List.mem_flatMap]
  exact ⟨mode, by cases mode <;> simp, hb⟩

/-- A buffer of a pool is handed out. -/
theorem Distinct.take (h : s.Distinct)
    (hmode : (BulkCache.pooled s.cache mode).Perm (b :: BulkCache.pooled cache' mode))
    (hrest : ∀ m ≠ mode, BulkCache.pooled cache' m = BulkCache.pooled s.cache m) :
    (Session.mk cache' (b :: s.held) s.released).Distinct ∧ b.mode = mode ∧
      b.data ∉ s.held.map YkBuffer.data := by
  have hb : b ∈ BulkCache.pooled s.cache mode := hmode.mem_iff.2 List.mem_cons_self
  have hpools : (pooled s.cache).Perm ([b] ++ pooled cache') := pooled_perm hmode hrest
  have hperm : s.live.Perm (b :: s.held ++ pooled cache') :=
    (hpools.append_left s.held).trans List.perm_middle
  refine ⟨⟨((hperm.map _).nodup_iff).1 h.addresses, fun m b' hb' => ?_⟩, h.modes mode b hb, ?_⟩
  · by_cases hm : m = mode
    · subst hm
      exact h.modes m b' (hmode.mem_iff.2 (List.mem_cons_of_mem b hb'))
    · exact h.modes m b' (hrest m hm ▸ hb')
  · have hnodup := h.addresses
    rw [live, List.map_append, List.nodup_append] at hnodup
    intro hheld
    exact hnodup.2.2 _ hheld _ (List.mem_map_of_mem (mem_pooled hb)) rfl

/-- A new buffer is handed out. -/
theorem Distinct.allocate (h : s.Distinct)
    (hsame : BulkCache.pooled cache' = BulkCache.pooled s.cache)
    (hb : b.data ∉ s.live.map YkBuffer.data) :
    (Session.mk cache' (b :: s.held) s.released).Distinct ∧
      b.data ∉ s.held.map YkBuffer.data := by
  refine ⟨⟨?_, fun m b' hb' => h.modes m b' (hsame ▸ hb')⟩, fun hheld => hb ?_⟩
  · have hlive : (Session.mk cache' (b :: s.held) s.released).live = b :: s.live := by
      simp only [live, pooled, hsame, List.cons_append]
    rw [hlive, List.map_cons, List.nodup_cons]
    exact ⟨hb, h.addresses⟩
  · rw [live, List.map_append]
    exact List.mem_append_left _ hheld

/-- A buffer that is held goes to its pool, and one of the pool may be freed. -/
theorem Distinct.giveBack (h : s.Distinct) (hb : b ∈ s.held) {freed : List YkBuffer}
    (hmode : (b :: BulkCache.pooled s.cache b.mode).Perm
      (freed ++ BulkCache.pooled cache' b.mode))
    (hrest : ∀ m ≠ b.mode, BulkCache.pooled cache' m = BulkCache.pooled s.cache m) :
    (Session.mk cache' (s.held.erase b) (s.released ++ [b])).Distinct := by
  refine ⟨?_, fun m b' hb' => ?_⟩
  · have hperm : s.live.Perm (freed ++ (s.held.erase b ++ pooled cache')) := by
      have hheld := List.perm_cons_erase hb
      rw [List.perm_iff_count] at hmode hheld ⊢
      intro a
      have hcount := hmode a
      have hcount' := hheld a
      simp only [live, pooled, List.flatMap_cons, List.flatMap_nil, List.append_nil,
        List.count_append, List.count_cons] at hcount hcount' ⊢
      cases hm : b.mode <;> rw [hm] at hrest hcount <;>
        simp only [hrest, ne_eq, reduceCtorEq, not_false_eq_true] <;> omega
    have hnodup := ((hperm.map _).nodup_iff).1 h.addresses
    rw [List.map_append, List.nodup_append] at hnodup
    exact hnodup.2.1
  · by_cases hm : m = b.mode
    · subst hm
      rcases List.mem_cons.1 (hmode.mem_iff.2 (List.mem_append_right _ hb')) with rfl | hold
      · rfl
      · exact h.modes _ b' hold
    · exact h.modes m b' (hrest m hm ▸ hb')

/-- A buffer that is held is not in a pool, nor is its address. -/
theorem Distinct.notMem_pooled (h : s.Distinct) (hb : b ∈ s.held) (mode : BulkMode) :
    b.data ∉ (BulkCache.pooled s.cache mode).map YkBuffer.data := by
  have hnodup := h.addresses
  rw [live, List.map_append, List.nodup_append] at hnodup
  intro hmem
  obtain ⟨b', hb', heq⟩ := List.mem_map.1 hmem
  exact hnodup.2.2 _ (List.mem_map_of_mem hb) _ (List.mem_map_of_mem (mem_pooled hb')) heq.symm

end Session

/-! ### Entries -/

theorem bulkEquiv_iff {a b : YkBuffer} :
    bulkEquiv a b = true ↔ a.size = b.size ∧ a.data = b.data := by
  unfold bulkEquiv bulkLess
  split_ifs <;> simp <;> omega

theorem le_size_of_lowerBound {α : Type} {buffer : α → YkBuffer} {size : ℕ} {mode : BulkMode}
    {entries : List α} {e : α} (h : lowerBound buffer ⟨size, mode, 0⟩ entries = some e) :
    e ∈ entries ∧ size ≤ (buffer e).size := by
  refine ⟨List.mem_of_find?_eq_some h, ?_⟩
  by_contra hlt
  have hless : bulkLess (buffer e) ⟨size, mode, 0⟩ = true := by
    rw [bulkLess, if_pos (by dsimp only; omega)]
    exact decide_eq_true (Nat.lt_of_not_le hlt)
  have hfound := List.find?_some h
  rw [hless] at hfound
  cases hfound

/-- A new address is inserted. -/
theorem emplaceEntry_perm {α : Type} {buffer : α → YkBuffer} {e : α} {entries : List α}
    (h : ∀ e' ∈ entries, (buffer e').data ≠ (buffer e).data) :
    (emplaceEntry buffer e entries).Perm (e :: entries) := by
  unfold emplaceEntry
  rw [if_neg]
  · exact List.perm_orderedInsert _ e entries
  · rw [List.any_eq_true]
    rintro ⟨e', he', hequiv⟩
    exact h e' he' (bulkEquiv_iff.1 hequiv).2

theorem le_bufSizeOf (margin : ℚ≥0) (size : ℕ) : size ≤ bufSizeOf margin size :=
  Nat.le_floor (le_mul_of_one_le_right (by simp) (by simp))

/-! ### The list and the map of a mode -/

namespace BufferPool

/-- The entries of the map are the nodes of the list, each with its buffer, and no buffer is there
twice. -/
structure Consistent (p : BufferPool) : Prop where
  fresh : ∀ e ∈ p.queue.nodes, e.1 < p.queue.fresh
  nodes : (p.queue.nodes.map Prod.fst).Nodup
  buffers : (p.queue.values.map YkBuffer.data).Nodup
  set : p.set.Perm (p.queue.nodes.map Prod.swap)

variable {p : BufferPool}

theorem consistent_empty : Consistent ⟨.empty, []⟩ :=
  ⟨by simp [NodeList.empty], by simp [NodeList.empty], by simp [NodeList.empty, values],
    by simp [NodeList.empty]⟩

theorem Consistent.mem_nodes (h : p.Consistent) {e : YkBuffer × ℕ} (he : e ∈ p.set) :
    (e.2, e.1) ∈ p.queue.nodes := by
  obtain ⟨node, hnode, rfl⟩ := List.mem_map.1 (h.set.mem_iff.1 he)
  exact hnode

theorem Consistent.mem_values (h : p.Consistent) {e : YkBuffer × ℕ} (he : e ∈ p.set) :
    e.1 ∈ p.queue.values :=
  List.mem_map_of_mem (h.mem_nodes he)

/-- An entry leaves the map, and its node the list. -/
theorem Consistent.take (h : p.Consistent) {e : YkBuffer × ℕ} (he : e ∈ p.set) :
    Consistent ⟨p.queue.erase e.2, p.set.erase e⟩ ∧
      p.queue.values.Perm (e.1 :: (p.queue.erase e.2).values) ∧
        (p.queue.erase e.2).values.Sublist p.queue.values := by
  obtain ⟨front, rest, hnodes⟩ := List.append_of_mem (h.mem_nodes he)
  have herase := erase_of_split h.nodes hnodes
  have hsub : (p.queue.erase e.2).nodes.Sublist p.queue.nodes := by
    rw [herase, hnodes]
    exact (List.sublist_cons_self _ _).append_left _
  have hperm : p.queue.nodes.Perm ((e.2, e.1) :: (p.queue.erase e.2).nodes) := by
    rw [herase, hnodes]
    exact List.perm_middle
  refine ⟨⟨fun e' he' => h.fresh e' (hsub.subset he'), h.nodes.sublist (hsub.map _),
    h.buffers.sublist ((hsub.map _).map _), ?_⟩, hperm.map _, hsub.map _⟩
  exact ((List.perm_cons_erase he).symm.trans (h.set.trans (hperm.map Prod.swap))).cons_inv

/-- A buffer is put in front. -/
theorem Consistent.add (h : p.Consistent) {b : YkBuffer}
    (hb : b.data ∉ p.queue.values.map YkBuffer.data) :
    Consistent ⟨p.queue.emplaceFront b,
      emplaceEntry Prod.fst (b, (p.queue.emplaceFront b).begin?.getD 0) p.set⟩ := by
  refine ⟨fun e he => ?_, ?_, List.nodup_cons.2 ⟨hb, h.buffers⟩, ?_⟩
  · rcases List.mem_cons.1 he with rfl | he
    · exact Nat.lt_succ_self _
    · exact Nat.lt_succ_of_lt (h.fresh e he)
  · refine List.nodup_cons.2 ⟨fun hmem => ?_, h.nodes⟩
    obtain ⟨e, he, heq⟩ := List.mem_map.1 hmem
    exact absurd (h.fresh e he) (by rw [heq]; exact Nat.lt_irrefl _)
  · refine (emplaceEntry_perm fun e he heq => hb ?_).trans (h.set.cons _)
    exact heq ▸ List.mem_map_of_mem (h.mem_values he)

/-- The map finds the last buffer of the list. -/
theorem Consistent.evict (h : p.Consistent) {oldest : YkBuffer}
    (hback : p.queue.back? = some oldest) :
    ∃ e, (p.set.find? fun e => bulkEquiv e.1 oldest) = some e ∧
      Consistent ⟨p.queue.popBack, p.set.erase e⟩ := by
  obtain ⟨it, hnodes⟩ := nodes_of_back? hback
  have hmem : (it, oldest) ∈ p.queue.nodes := by rw [hnodes]; simp
  have hentry : (oldest, it) ∈ p.set := h.set.mem_iff.2 (List.mem_map.2 ⟨_, hmem, rfl⟩)
  have hsome : (p.set.find? fun e => bulkEquiv e.1 oldest).isSome = true :=
    List.find?_isSome.2 ⟨_, hentry, bulkEquiv_iff.2 ⟨rfl, rfl⟩⟩
  obtain ⟨e, hfind⟩ := Option.isSome_iff_exists.1 hsome
  have he := List.mem_of_find?_eq_some hfind
  have hequiv : bulkEquiv e.1 oldest = true :=
    List.find?_some (p := fun e : YkBuffer × ℕ => bulkEquiv e.1 oldest) hfind
  -- no other buffer of the pool is at that address
  have hnode : (e.2, e.1) = (it, oldest) := by
    have hbuffers := h.buffers
    rw [values, List.map_map] at hbuffers
    exact List.inj_on_of_nodup_map hbuffers (h.mem_nodes he) hmem
      (bulkEquiv_iff.1 hequiv).2
  have hsub : p.queue.popBack.nodes.Sublist p.queue.nodes := List.dropLast_sublist _
  have hperm : p.queue.nodes.Perm ((e.2, e.1) :: p.queue.popBack.nodes) := by
    rw [hnode, hnodes]
    exact List.perm_append_comm
  refine ⟨e, hfind, fun e' he' => h.fresh e' (hsub.subset he'), h.nodes.sublist (hsub.map _),
    h.buffers.sublist ((hsub.map _).map _), ?_⟩
  exact ((List.perm_cons_erase he).symm.trans (h.set.trans (hperm.map Prod.swap))).cons_inv

end BufferPool

/-! ### What holds in a session -/

/-- A release pushes the pool over its capacity and frees the buffer released longest ago, or frees
nothing. -/
def Evicts (capacity : ℕ) (released pool : List YkBuffer) :
    Option YkBuffer → List YkBuffer → Prop
  | none, pool' => pool.length ≤ capacity ∧ pool' = pool
  | some b, pool' => capacity < pool.length ∧ pool = pool' ++ [b] ∧
    ∀ b' ∈ pool', age released b' < age released b

namespace LruBulkCache

/-- The counter, the lists and maps, and their size. -/
structure Kept (capacity : ℕ) (s : Session LruBulkCache) : Prop where
  inUse : s.cache.numInUse = s.held.length
  pools : ∀ mode, (s.cache.pool mode).Consistent
  capacity : ∀ mode, (s.cache.pool mode).queue.values.length ≤ capacity

/-- The lists are in the order of the releases. -/
structure Invariant (capacity : ℕ) (s : Session LruBulkCache) : Prop where
  configured : s.cache.capacity = capacity
  kept : Kept capacity s
  distinct : s.Distinct
  order : ∀ mode, ByAge s.released (s.cache.pool mode).queue.values

variable {s : Session LruBulkCache} {capacity : ℕ}

theorem invariant_start (margin : ℚ≥0) (capacity : ℕ) :
    Invariant capacity (Session.start (init margin capacity)) where
  configured := rfl
  kept := ⟨rfl, fun _ => BufferPool.consistent_empty, fun _ => Nat.zero_le _⟩
  distinct := ⟨List.nodup_nil, by simp [Session.start, init, BulkCache.pooled, values, empty]⟩
  order _ := List.Pairwise.nil

theorem Invariant.get_sound (h : Invariant capacity s) {size : ℕ} (hsize : 1 ≤ size)
    (mode : BulkMode) {address : ℕ} (haddress : address ∉ s.live.map YkBuffer.data) :
    ∃ b cache', s.cache.get size mode address = some (b, cache') ∧ s.Serves size mode b ∧
      Invariant capacity ⟨cache', b :: s.held, s.released⟩ := by
  have hinUse : s.cache.numInUse + 1 = s.held.length + 1 := congrArg (· + 1) h.kept.inUse
  rcases hfind : lowerBound Prod.fst ⟨size, mode, 0⟩ (s.cache.pool mode).set with _ | e
  · -- a new buffer
    let b : YkBuffer := ⟨bufSizeOf s.cache.margin size, mode, address⟩
    let cache' : LruBulkCache := { s.cache with numInUse := s.cache.numInUse + 1 }
    have hget : s.cache.get size mode address = some (b, cache') := by
      simp only [get, hfind, if_neg (Nat.ne_of_gt hsize), b, cache']
    obtain ⟨hdistinct, hunheld⟩ := @Session.Distinct.allocate _ _ s cache' b h.distinct rfl haddress
    exact ⟨b, cache', hget, ⟨rfl, le_bufSizeOf _ _, hunheld⟩,
      ⟨h.configured, ⟨hinUse, h.kept.pools, h.kept.capacity⟩, hdistinct, h.order⟩⟩
  · -- the entry that was found
    obtain ⟨he, hle⟩ := le_size_of_lowerBound hfind
    obtain ⟨hpool, hperm, hsub⟩ := (h.kept.pools mode).take he
    let p : BufferPool := ⟨(s.cache.pool mode).queue.erase e.2, (s.cache.pool mode).set.erase e⟩
    let cache' : LruBulkCache := { s.cache with
      numInUse := s.cache.numInUse + 1, pool := Function.update s.cache.pool mode p }
    have hget : s.cache.get size mode address = some (e.1, cache') := by
      simp only [get, hfind, if_neg (Nat.ne_of_gt hsize), p, cache']
    obtain ⟨hdistinct, hmode, hunheld⟩ := @Session.Distinct.take _ _ s cache' e.1 mode h.distinct
      (by simpa [BulkCache.pooled, cache', p] using hperm)
      (fun m hm => by simp [BulkCache.pooled, cache', hm])
    refine ⟨e.1, cache', hget, ⟨hmode, hle, hunheld⟩,
      ⟨h.configured, ⟨hinUse, ?_, ?_⟩, hdistinct, ?_⟩⟩
    · exact (Function.forall_update_iff _ fun _ (p : BufferPool) => p.Consistent).2
        ⟨hpool, fun m _ => h.kept.pools m⟩
    · exact (Function.forall_update_iff _ fun _ (p : BufferPool) =>
        p.queue.values.length ≤ capacity).2
        ⟨hsub.length_le.trans (h.kept.capacity mode), fun m _ => h.kept.capacity m⟩
    · exact (Function.forall_update_iff _ fun _ (p : BufferPool) =>
        ByAge s.released p.queue.values).2 ⟨(h.order mode).sublist hsub, fun m _ => h.order m⟩

theorem Invariant.release_sound (h : Invariant capacity s) {b : YkBuffer} (hb : b ∈ s.held) :
    ∃ freed cache', s.cache.release b = some (freed, cache') ∧
      Evicts capacity (s.released ++ [b])
        (b :: (s.cache.pool b.mode).queue.values) freed (cache'.pool b.mode).queue.values ∧
      Invariant capacity ⟨cache', s.held.erase b, s.released ++ [b]⟩ := by
  have hnew := h.distinct.notMem_pooled hb
  have hnotin : ∀ mode, b ∉ (s.cache.pool mode).queue.values := fun mode hmem =>
    hnew mode (List.mem_map_of_mem hmem)
  have hadd := (h.kept.pools b.mode).add (hnew b.mode)
  have horder : ByAge (s.released ++ [b]) (b :: (s.cache.pool b.mode).queue.values) :=
    (h.order b.mode).cons (hnotin b.mode)
  have hinUse : s.cache.numInUse - 1 = (s.held.erase b).length := by
    rw [List.length_erase_of_mem hb, h.kept.inUse]
  -- what is left to show about the pool of the mode
  have hrest : ∀ (freed : List YkBuffer) (p : BufferPool), p.Consistent →
      p.queue.values.length ≤ capacity → ByAge (s.released ++ [b]) p.queue.values →
      (b :: (s.cache.pool b.mode).queue.values).Perm (freed ++ p.queue.values) →
      Invariant capacity ⟨{ s.cache with
        numInUse := s.cache.numInUse - 1, pool := Function.update s.cache.pool b.mode p },
        s.held.erase b, s.released ++ [b]⟩ := by
    intro freed p hconsistent hlen hage hperm
    refine ⟨h.configured, ⟨hinUse, ?_, ?_⟩, ?_, ?_⟩
    · exact (Function.forall_update_iff _ fun _ (p : BufferPool) => p.Consistent).2
        ⟨hconsistent, fun m _ => h.kept.pools m⟩
    · exact (Function.forall_update_iff _ fun _ (p : BufferPool) =>
        p.queue.values.length ≤ capacity).2 ⟨hlen, fun m _ => h.kept.capacity m⟩
    · exact h.distinct.giveBack hb (by simpa [BulkCache.pooled] using hperm)
        fun m hm => by simp [BulkCache.pooled, hm]
    · exact (Function.forall_update_iff _ fun _ (p : BufferPool) =>
        ByAge (s.released ++ [b]) p.queue.values).2
        ⟨hage, fun m _ => (h.order m).concat (hnotin m)⟩
  have hlength : ((s.cache.pool b.mode).queue.emplaceFront b).nodes.length =
      (b :: (s.cache.pool b.mode).queue.values).length := by
    simp [emplaceFront, values]
  by_cases hfull : capacity < (b :: (s.cache.pool b.mode).queue.values).length
  · -- the oldest buffer is freed
    obtain ⟨init, oldest, hsplit⟩ := (List.eq_nil_or_concat
      (b :: (s.cache.pool b.mode).queue.values)).resolve_left (List.cons_ne_nil _ _)
    rw [List.concat_eq_append] at hsplit
    have hback : ((s.cache.pool b.mode).queue.emplaceFront b).back? = some oldest := by
      rw [back?, values_emplaceFront, hsplit, List.getLast?_concat]
    obtain ⟨e, hfind, hpop⟩ := hadd.evict hback
    have hinit : ((s.cache.pool b.mode).queue.emplaceFront b).popBack.values = init := by
      rw [values_popBack, values_emplaceFront, hsplit, List.dropLast_concat]
    have hcapacity := h.kept.capacity b.mode
    have hlen := congrArg List.length hsplit
    rw [List.length_cons, List.length_append, List.length_singleton] at hlen
    rw [hsplit] at horder
    refine ⟨some oldest, _, ?_, ?_, hrest [oldest] _ hpop ?_ ?_ ?_⟩
    · simp only [release, hlength, h.configured, if_pos hfull, hback, Option.bind_some, hfind,
        Option.map_some]
    · refine ⟨hfull, ?_, ?_⟩
      · simpa [hinit] using hsplit
      · simp only [Function.update_self, hinit]
        exact fun b' hb' => horder.age_lt_last hb'
    · rw [hinit]
      omega
    · rw [hinit]
      exact List.Pairwise.sublist (List.sublist_append_left _ _) horder
    · rw [hinit, hsplit]
      exact List.perm_append_comm
  · refine ⟨none, _, ?_, ?_, hrest [] _ hadd (Nat.le_of_not_lt hfull) horder (List.Perm.refl _)⟩
    · simp only [release, hlength, h.configured, if_neg hfull]
    · exact ⟨Nat.le_of_not_lt hfull, by simp⟩

theorem invariant_run {margin : ℚ≥0} {calls : List CacheCall}
    (hrun : Run (StepOption Session.step Session.Ok) (.start (init margin capacity)) calls s) :
    Invariant capacity s := by
  refine Session.run_invariant (fun s h size mode address hok => ?_) (fun s h b hb => ?_)
    (invariant_start margin capacity) hrun
  · obtain ⟨b, cache', hget, -, hinv⟩ := h.get_sound hok.1 mode hok.2
    exact ⟨(b, cache'), hget, hinv⟩
  · obtain ⟨freed, cache', hrelease, -, hinv⟩ := h.release_sound hb
    exact ⟨(freed, cache'), hrelease, hinv⟩

end LruBulkCache

namespace KeepAllBulkCache

/-- The counter, and the buffers of a session. -/
structure Invariant (s : Session KeepAllBulkCache) : Prop where
  inUse : s.cache.numInUse = s.held.length
  distinct : s.Distinct

variable {s : Session KeepAllBulkCache}

theorem invariant_start (margin : ℚ≥0) : Invariant (Session.start (init margin)) where
  inUse := rfl
  distinct := ⟨List.nodup_nil, by simp [Session.start, init, BulkCache.pooled]⟩

theorem Invariant.get_sound (h : Invariant s) {size : ℕ} (hsize : 1 ≤ size)
    (mode : BulkMode) {address : ℕ} (haddress : address ∉ s.live.map YkBuffer.data) :
    ∃ b cache', s.cache.get size mode address = some (b, cache') ∧ s.Serves size mode b ∧
      Invariant ⟨cache', b :: s.held, s.released⟩ := by
  have hinUse : s.cache.numInUse + 1 = s.held.length + 1 := congrArg (· + 1) h.inUse
  rcases hfind : lowerBound id ⟨size, mode, 0⟩ (s.cache.set mode) with _ | b
  · let b : YkBuffer := ⟨bufSizeOf s.cache.margin size, mode, address⟩
    let cache' : KeepAllBulkCache := { s.cache with numInUse := s.cache.numInUse + 1 }
    have hget : s.cache.get size mode address = some (b, cache') := by
      simp only [get, hfind, if_neg (Nat.ne_of_gt hsize), b, cache']
    obtain ⟨hdistinct, hunheld⟩ := @Session.Distinct.allocate _ _ s cache' b h.distinct rfl haddress
    exact ⟨b, cache', hget, ⟨rfl, le_bufSizeOf _ _, hunheld⟩, hinUse, hdistinct⟩
  · obtain ⟨hb, hle⟩ := le_size_of_lowerBound hfind
    let cache' : KeepAllBulkCache := { s.cache with
      numInUse := s.cache.numInUse + 1
      set := Function.update s.cache.set mode ((s.cache.set mode).erase b) }
    have hget : s.cache.get size mode address = some (b, cache') := by
      simp only [get, hfind, if_neg (Nat.ne_of_gt hsize), cache']
    obtain ⟨hdistinct, hmode, hunheld⟩ := @Session.Distinct.take _ _ s cache' b mode h.distinct
      (by simpa [BulkCache.pooled, cache'] using List.perm_cons_erase hb)
      (fun m hm => by simp [BulkCache.pooled, cache', hm])
    exact ⟨b, cache', hget, ⟨hmode, hle, hunheld⟩, hinUse, hdistinct⟩

theorem Invariant.release_sound (h : Invariant s) {b : YkBuffer} (hb : b ∈ s.held) :
    ∃ cache', s.cache.release b = some (none, cache') ∧
      Invariant ⟨cache', s.held.erase b, s.released ++ [b]⟩ := by
  have hnew := h.distinct.notMem_pooled hb b.mode
  have hinUse : s.cache.numInUse - 1 = (s.held.erase b).length := by
    rw [List.length_erase_of_mem hb, h.inUse]
  have hperm : (emplaceEntry id b (s.cache.set b.mode)).Perm (b :: s.cache.set b.mode) :=
    emplaceEntry_perm fun b' hb' heq => hnew (heq ▸ List.mem_map_of_mem hb')
  refine ⟨_, rfl, hinUse, @Session.Distinct.giveBack _ _ s _ b h.distinct hb [] ?_ ?_⟩
  · simpa [BulkCache.pooled] using hperm.symm
  · exact fun m hm => by simp [BulkCache.pooled, hm]

theorem invariant_run {margin : ℚ≥0} {calls : List CacheCall}
    (hrun : Run (StepOption Session.step Session.Ok) (.start (init margin)) calls s) :
    Invariant s := by
  refine Session.run_invariant (fun s h size mode address hok => ?_) (fun s h b hb => ?_)
    (invariant_start margin) hrun
  · obtain ⟨b, cache', hget, -, hinv⟩ := h.get_sound hok.1 mode hok.2
    exact ⟨(b, cache'), hget, hinv⟩
  · obtain ⟨cache', hrelease, hinv⟩ := h.release_sound hb
    exact ⟨(none, cache'), hrelease, hinv⟩

end KeepAllBulkCache

/-- In every session, `get` has a buffer of the requested mode and size that nobody holds, and
`release` succeeds. The counter is the number of buffers held. The lists and maps of the LRU cache
agree and stay within the capacity, and what a release frees was released before all others. -/
theorem bulk_caches_sound :
    (∀ margin capacity calls (s : Session LruBulkCache),
      Run (StepOption Session.step Session.Ok) (.start (.init margin capacity)) calls s →
        LruBulkCache.Kept capacity s ∧
        (∀ size mode address, s.Ok (.get size mode address) →
          ∃ b cache', s.cache.get size mode address = some (b, cache') ∧ s.Serves size mode b) ∧
        ∀ b ∈ s.held, ∃ freed cache', s.cache.release b = some (freed, cache') ∧
          Evicts capacity (s.released ++ [b]) (b :: (s.cache.pool b.mode).queue.values) freed
            (cache'.pool b.mode).queue.values) ∧
      ∀ margin calls (s : Session KeepAllBulkCache),
        Run (StepOption Session.step Session.Ok) (.start (.init margin)) calls s →
          s.cache.numInUse = s.held.length ∧
          (∀ size mode address, s.Ok (.get size mode address) →
            ∃ b cache', s.cache.get size mode address = some (b, cache') ∧ s.Serves size mode b) ∧
          ∀ b ∈ s.held, ∃ cache', s.cache.release b = some (none, cache') := by
  constructor
  · intro margin capacity calls s hrun
    have h := LruBulkCache.invariant_run hrun
    refine ⟨h.kept, fun size mode address hok => ?_, fun b hb => ?_⟩
    · obtain ⟨b, cache', hget, hserves, -⟩ := h.get_sound hok.1 mode hok.2
      exact ⟨b, cache', hget, hserves⟩
    · obtain ⟨freed, cache', hrelease, hevicts, -⟩ := h.release_sound hb
      exact ⟨freed, cache', hrelease, hevicts⟩
  · intro margin calls s hrun
    have h := KeepAllBulkCache.invariant_run hrun
    refine ⟨h.inUse, fun size mode address hok => ?_, fun b hb => ?_⟩
    · obtain ⟨b, cache', hget, hserves, -⟩ := h.get_sound hok.1 mode hok.2
      exact ⟨b, cache', hget, hserves⟩
    · obtain ⟨cache', hrelease, -⟩ := h.release_sound hb
      exact ⟨cache', hrelease⟩

/-- A cache without room: a buffer is handed out, and freed when it is released. -/
theorem bulk_caches_sound_noRoom :
    let b : YkBuffer := ⟨bufSizeOf 0 1, .readOnly, 64⟩
    ∃ s : Session LruBulkCache, s.released = [b] ∧ LruBulkCache.Kept 0 s := by
  intro b
  let s : Session LruBulkCache := ⟨{ LruBulkCache.init 0 0 with numInUse := 1 }, [b], []⟩
  have hget : StepOption Session.step Session.Ok (.start (.init 0 0)) (.get 1 .readOnly 64) s :=
    ⟨⟨Nat.le_refl 1, by simp [Session.start, Session.live, Session.pooled, BulkCache.pooled,
      LruBulkCache.init, values, NodeList.empty]⟩, rfl⟩
  have hrelease : ∃ r, LruBulkCache.release s.cache b = some r := by
    have hless : bulkLess b b = false := by simp [bulkLess]
    simp [LruBulkCache.release, s, LruBulkCache.init, NodeList.empty, emplaceFront, back?, values,
      begin?, emplaceEntry, bulkEquiv, hless]
  obtain ⟨r, hr⟩ := hrelease
  have hstep : StepOption Session.step Session.Ok s (.release b) ⟨r.2, [b].erase b, [] ++ [b]⟩ :=
    ⟨List.mem_singleton_self b, Session.step_release hr⟩
  exact ⟨_, rfl, (bulk_caches_sound.1 0 0 _ _ (((Run.nil _).snoc hget).snoc hstep)).1⟩

end Yokan
