import Mathlib.Data.List.Basic
import Mathlib.Tactic

/-!
# Flat buffers

Lists used the way a program uses contiguous memory: a region is read by `slice` and
overwritten by `blit`, and a packed sequence of records, described by the list of their
sizes, is cut back into its records by `unpack`.

* `slice_blit_same`, `slice_blit_before`, `slice_blit_after`: what a read sees after a write;
* `unpack_flatten`: cutting a concatenation at the lengths of its parts gives the parts back;
* `eachRecord`: a loop over records that may stop early, and the fold it is when it does not.
-/

namespace Buffer

variable {α σ ρ : Type*}

/-! ### Reading and writing a region -/

/-- The `n` elements of `l` from offset `off` on. -/
def slice (l : List α) (off n : ℕ) : List α := (l.drop off).take n

/-- `l` with the elements from offset `off` on overwritten by `src`. -/
def blit (l : List α) (off : ℕ) (src : List α) : List α :=
  l.take off ++ src ++ l.drop (off + src.length)

theorem length_slice (l : List α) (off n : ℕ) : (slice l off n).length = min n (l.length - off) := by
  simp [slice]

theorem length_slice_of_le {l : List α} {off n : ℕ} (h : off + n ≤ l.length) :
    (slice l off n).length = n := by
  rw [length_slice]; omega

@[simp] theorem slice_zero (l : List α) (off : ℕ) : slice l off 0 = [] := by simp [slice]

theorem slice_append_left {l m : List α} {off n : ℕ} (h : off + n ≤ l.length) :
    slice (l ++ m) off n = slice l off n := by
  unfold slice
  rw [List.drop_append_of_le_length (by omega), List.take_append_of_le_length]
  rw [List.length_drop]; omega

theorem slice_drop (l : List α) (k off n : ℕ) : slice (l.drop k) off n = slice l (k + off) n := by
  simp [slice, List.drop_drop]

theorem slice_append_right (l m : List α) (off n : ℕ) :
    slice (l ++ m) (l.length + off) n = slice m off n := by
  unfold slice
  rw [List.drop_append, List.drop_eq_nil_of_le (by omega), List.nil_append,
    Nat.add_sub_cancel_left]

theorem slice_full (l m : List α) : slice (l ++ m) 0 l.length = l := by
  simp [slice]

/-- What lies between two other parts of a buffer. -/
theorem slice_middle (pre mid post : List α) :
    slice (pre ++ (mid ++ post)) pre.length mid.length = mid := by
  have happend := slice_append_right pre (mid ++ post) 0 mid.length
  rwa [Nat.add_zero, slice_full] at happend

theorem length_blit {l src : List α} {off : ℕ} (h : off + src.length ≤ l.length) :
    (blit l off src).length = l.length := by
  simp only [blit, List.length_append, List.length_take, List.length_drop]
  omega

@[simp] theorem blit_nil {l : List α} {off : ℕ} : blit l off [] = l := by
  simp [blit]

/-- A write over the whole buffer replaces it. -/
theorem blit_of_length_eq {l src : List α} (h : src.length = l.length) : blit l 0 src = src := by
  simp [blit, h]

/-- A position of a buffer after a write. -/
theorem getElem?_blit {l src : List α} {off : ℕ} (h : off + src.length ≤ l.length) (i : ℕ) :
    (blit l off src)[i]? = if off ≤ i ∧ i < off + src.length then src[i - off]? else l[i]? := by
  have hlen : (l.take off).length = off := List.length_take_of_le (by omega)
  unfold blit
  rcases Nat.lt_or_ge i off with hi | hi
  · rw [if_neg (by omega), List.append_assoc, List.getElem?_append_left (by omega),
      List.getElem?_take_of_lt hi]
  · rcases Nat.lt_or_ge i (off + src.length) with hi' | hi'
    · rw [if_pos ⟨hi, hi'⟩, List.append_assoc, List.getElem?_append_right (by omega), hlen,
        List.getElem?_append_left (by omega)]
    · rw [if_neg (by omega), List.getElem?_append_right (by rw [List.length_append]; omega),
        List.length_append, hlen, List.getElem?_drop]
      congr 1
      omega

/-- A read of the region just written returns what was written. -/
theorem slice_blit_same {l src : List α} {off : ℕ} (h : off ≤ l.length) :
    slice (blit l off src) off src.length = src := by
  have hlen : (l.take off).length = off := by rw [List.length_take]; omega
  unfold slice blit
  rw [List.append_assoc, List.drop_append_of_le_length (by omega),
    List.drop_eq_nil_of_le (by omega), List.nil_append, List.take_left']
  rfl

/-- The beginning of what was written is read back. -/
theorem slice_blit_prefix {l src pre : List α} {off : ℕ} (h : off ≤ l.length) (hpre : pre <+: src) :
    slice (blit l off src) off pre.length = pre := by
  obtain ⟨rest, rfl⟩ := hpre
  have htake : slice (blit l off (pre ++ rest)) off pre.length =
      (slice (blit l off (pre ++ rest)) off (pre ++ rest).length).take pre.length := by
    rw [slice, slice, List.take_take, List.length_append, Nat.min_eq_left (by omega)]
  rw [htake, slice_blit_same h, List.take_left]

/-- A read that ends before the written region sees the old contents. -/
theorem slice_blit_before {l src : List α} {off a n : ℕ} (hl : off ≤ l.length) (h : a + n ≤ off) :
    slice (blit l off src) a n = slice l a n := by
  have hlen : (l.take off).length = off := by rw [List.length_take]; omega
  have hold : slice l a n = slice (l.take off ++ l.drop off) a n := by rw [List.take_append_drop]
  unfold blit
  rw [List.append_assoc, slice_append_left (by omega), hold, slice_append_left (by omega)]

/-- A read that starts after the written region sees the old contents. -/
theorem slice_blit_after {l src : List α} {off a n : ℕ} (hl : off + src.length ≤ l.length)
    (h : off + src.length ≤ a) : slice (blit l off src) a n = slice l a n := by
  have hlen : (l.take off ++ src).length = off + src.length := by
    rw [List.length_append, List.length_take]; omega
  obtain ⟨d, rfl⟩ := Nat.exists_eq_add_of_le h
  unfold blit
  rw [← hlen, slice_append_right, slice_drop, hlen]

/-- A read of a region disjoint from the one written sees the old contents. -/
theorem slice_blit_disjoint {l src : List α} {off a n : ℕ} (hl : off + src.length ≤ l.length)
    (h : a + n ≤ off ∨ off + src.length ≤ a) : slice (blit l off src) a n = slice l a n := by
  rcases h with h | h
  · exact slice_blit_before (by omega) h
  · exact slice_blit_after hl h

/-- Two adjacent writes are one write of the concatenation. -/
theorem blit_blit_adjacent {l a b : List α} {off : ℕ} (h : off + a.length ≤ l.length) :
    blit (blit l off a) (off + a.length) b = blit l off (a ++ b) := by
  have hlen : (l.take off ++ a).length = off + a.length := by
    rw [List.length_append, List.length_take]; omega
  unfold blit
  rw [List.take_left' hlen, List.length_append]
  congr 1
  · rw [List.append_assoc]
  · rw [← hlen, List.drop_append, List.drop_eq_nil_of_le (by omega), List.nil_append, hlen,
      List.drop_drop]
    congr 1; omega

theorem blit_blit_of_eq {l a b : List α} {off off' : ℕ} (hoff : off' = off + a.length)
    (h : off' ≤ l.length) : blit (blit l off a) off' b = blit l off (a ++ b) := by
  subst hoff
  exact blit_blit_adjacent h

/-! ### Packed records -/

/-- The records of the given sizes that lie one after the other in `l`. -/
def unpack (l : List α) : List ℕ → List (List α)
  | [] => []
  | n :: ns => l.take n :: unpack (l.drop n) ns

@[simp] theorem unpack_nil (l : List α) : unpack l [] = [] := rfl

@[simp] theorem unpack_cons (l : List α) (n : ℕ) (ns : List ℕ) :
    unpack l (n :: ns) = l.take n :: unpack (l.drop n) ns := rfl

@[simp] theorem length_unpack (l : List α) (ns : List ℕ) : (unpack l ns).length = ns.length := by
  induction ns generalizing l with
  | nil => rfl
  | cons n ns ih => simp [ih]

/-- Records of one size. -/
theorem getElem?_unpack_replicate (l : List α) (k : ℕ) {n i : ℕ} (h : i < n) :
    (unpack l (List.replicate n k))[i]? = some (slice l (k * i) k) := by
  induction n generalizing l i with
  | zero => omega
  | succ n ih =>
    rw [List.replicate_succ, unpack_cons]
    cases i with
    | zero => simp [slice]
    | succ i =>
      rw [List.getElem?_cons_succ, ih _ (by omega), slice_drop, Nat.mul_succ, Nat.add_comm]

/-- Cutting a concatenation at the lengths of its parts gives the parts back. -/
theorem unpack_flatten_append (ls : List (List α)) (rest : List α) :
    unpack (ls.flatten ++ rest) (ls.map List.length) = ls := by
  induction ls with
  | nil => rfl
  | cons l ls ih => simp [List.append_assoc, ih]

theorem unpack_flatten (ls : List (List α)) : unpack ls.flatten (ls.map List.length) = ls := by
  simpa using unpack_flatten_append ls []

/-- Records at the front of a buffer are read before what follows them. -/
theorem unpack_flatten_append_sizes (ls : List (List α)) (rest : List α) (ns : List ℕ) :
    unpack (ls.flatten ++ rest) (ls.map List.length ++ ns) = ls ++ unpack rest ns := by
  induction ls with
  | nil => rfl
  | cons l ls ih => simp [List.append_assoc, ih]

theorem unpack_append (l : List α) (ns ms : List ℕ) :
    unpack l (ns ++ ms) = unpack l ns ++ unpack (l.drop ns.sum) ms := by
  induction ns generalizing l with
  | nil => rfl
  | cons n ns ih => rw [List.cons_append, unpack_cons, unpack_cons, ih, List.cons_append,
      List.drop_drop, List.sum_cons]

/-- Records that lie in a part of a buffer are read from that part. -/
theorem unpack_append_left {l : List α} {ns : List ℕ} (h : ns.sum ≤ l.length) (m : List α) :
    unpack (l ++ m) ns = unpack l ns := by
  induction ns generalizing l with
  | nil => rfl
  | cons n ns ih =>
    rw [List.sum_cons] at h
    rw [unpack_cons, unpack_cons, List.take_append_of_le_length (by omega),
      List.drop_append_of_le_length (by omega), ih (by rw [List.length_drop]; omega)]

/-- Each record has its announced size when the buffer is long enough. -/
theorem map_length_unpack {l : List α} {ns : List ℕ} (h : ns.sum ≤ l.length) :
    (unpack l ns).map List.length = ns := by
  induction ns generalizing l with
  | nil => rfl
  | cons n ns ih =>
    rw [List.sum_cons] at h
    rw [unpack_cons, List.map_cons, ih (by rw [List.length_drop]; omega), List.length_take]
    congr 1; omega

/-- A record is no longer than all of them together. -/
theorem length_le_sum_of_mem_unpack {l r : List α} {ns : List ℕ} (h : r ∈ unpack l ns) :
    r.length ≤ ns.sum := by
  induction ns generalizing l with
  | nil => cases h
  | cons n ns ih =>
    rw [List.sum_cons]
    obtain rfl | hrest := List.mem_cons.1 h
    · have hle : (l.take n).length ≤ n := List.length_take_le n l
      omega
    · have hle : r.length ≤ ns.sum := ih hrest
      omega

/-! ### Loops over records -/

/-- A loop over records: the body sees each of them in turn and either stops with a result or
goes on with a new state. -/
def eachRecord (body : α → σ → Option ρ × σ) : List α → σ → Option ρ × σ
  | [], s => (none, s)
  | a :: as, s =>
    match body a s with
    | (some r, s) => (some r, s)
    | (none, s) => eachRecord body as s

/-- A loop whose body never stops on the records of `as` is a fold. -/
theorem eachRecord_of_none_of_mem {body : α → σ → Option ρ × σ} (f : σ → α → σ) {as : List α}
    (h : ∀ a ∈ as, ∀ s, body a s = (none, f s a)) (s : σ) :
    eachRecord body as s = (none, as.foldl f s) := by
  induction as generalizing s with
  | nil => rfl
  | cons a as ih =>
    simp only [eachRecord, h a List.mem_cons_self, List.foldl_cons]
    exact ih (fun b hb => h b (List.mem_cons_of_mem a hb)) _

/-- A loop whose body never stops is a fold. -/
theorem eachRecord_of_none {body : α → σ → Option ρ × σ} (f : σ → α → σ)
    (h : ∀ a s, body a s = (none, f s a)) (as : List α) (s : σ) :
    eachRecord body as s = (none, as.foldl f s) :=
  eachRecord_of_none_of_mem f (fun a _ => h a) s

/-- A loop only looks at its body on the records of the list. -/
theorem eachRecord_congr {body body' : α → σ → Option ρ × σ} {as : List α}
    (h : ∀ a ∈ as, ∀ s, body a s = body' a s) (s : σ) :
    eachRecord body as s = eachRecord body' as s := by
  induction as generalizing s with
  | nil => rfl
  | cons a as ih =>
    unfold eachRecord
    rw [h a List.mem_cons_self s]
    rcases body' a s with ⟨_ | r, s'⟩
    · exact ih (fun b hb => h b (List.mem_cons_of_mem a hb)) s'
    · rfl

/-- A loop that meets a record on which its body stops has a result. -/
theorem eachRecord_stops {body : α → σ → Option ρ × σ} {as : List α}
    (h : ∃ a ∈ as, ∀ s, (body a s).1 ≠ none) (s : σ) : (eachRecord body as s).1 ≠ none := by
  induction as generalizing s with
  | nil =>
    obtain ⟨a, hmem, -⟩ := h
    cases hmem
  | cons b bs ih =>
    unfold eachRecord
    rcases hb : body b s with ⟨_ | r, s'⟩
    · obtain ⟨a, hmem, hstop⟩ := h
      obtain rfl | hmem := List.mem_cons.1 hmem
      · exact absurd (by rw [hb]) (hstop s)
      · exact ih ⟨a, hmem, hstop⟩ s'
    · exact nofun

/-- What every body keeps, the loop keeps, however it ends. -/
theorem eachRecord_invariant {body : α → σ → Option ρ × σ} {P : σ → Prop}
    (h : ∀ a s, P s → P (body a s).2) (as : List α) {s : σ} (hs : P s) :
    P (eachRecord body as s).2 := by
  induction as generalizing s with
  | nil => exact hs
  | cons a as ih =>
    have ha := h a s hs
    rcases hb : body a s with ⟨_ | r, s'⟩
    · rw [hb] at ha
      simp only [eachRecord, hb]
      exact ih ha
    · rw [hb] at ha
      simpa only [eachRecord, hb] using ha

/-- A loop that only adds one result for each record. -/
theorem eachRecord_snoc {β : Type*} {body : α → List β → Option ρ × List β} (f : α → β)
    (h : ∀ a out, body a out = (none, out ++ [f a])) (as : List α) (out : List β) :
    eachRecord body as out = (none, out ++ as.map f) := by
  induction as generalizing out with
  | nil => simp [eachRecord]
  | cons a as ih => simp only [eachRecord, h, ih, List.map_cons, List.append_assoc,
      List.singleton_append]

end Buffer
