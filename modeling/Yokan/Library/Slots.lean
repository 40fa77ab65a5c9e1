import Yokan.Library.Buffer

/-!
# Values in slots

A buffer is cut into slots, one after the other, and there are values for some of them. `fill`
copies each value that fits to the start of its slot. `fillStuck` stays where it is after a value
that does not fit, so that the next value lands in the slot of the one left out.

* `slice_fill`, `getElem?_fill_of_not_copied`: the values that fit are at the start of their slots,
  and the rest of the buffer is as before;
* `fillStuck_eq_iff`: the two ways of going on agree on every buffer when no value is copied after
  one that was left out of a slot with some room, and only then.
-/

namespace Buffer

variable {α : Type*}

/-- Copy the values to their slots, the first of which begins at `off`. -/
def fill : List (Option (List α) × ℕ) → ℕ → List α → List α
  | [], _, buf => buf
  | (none, slot) :: slots, off, buf => fill slots (off + slot) buf
  | (some v, slot) :: slots, off, buf =>
    fill slots (off + slot) (if slot < v.length then buf else blit buf off v)

/-- The same, without moving past the slot of a value that does not fit. -/
def fillStuck : List (Option (List α) × ℕ) → ℕ → List α → List α
  | [], _, buf => buf
  | (none, slot) :: slots, off, buf => fillStuck slots (off + slot) buf
  | (some v, slot) :: slots, off, buf =>
    if slot < v.length then fillStuck slots off buf
    else fillStuck slots (off + slot) (blit buf off v)

/-- The value is left out of its slot, which has some room. -/
def Overflows : Option (List α) × ℕ → Prop
  | (none, _) => False
  | (some v, slot) => 0 < slot ∧ slot < v.length

/-- The value is copied to its slot, and has some elements. -/
def Fills : Option (List α) × ℕ → Prop
  | (none, _) => False
  | (some v, slot) => 0 < v.length ∧ v.length ≤ slot

instance (p : Option (List α) × ℕ) : Decidable (Overflows p) :=
  match p with
  | (none, _) => inferInstanceAs (Decidable False)
  | (some _, _) => inferInstanceAs (Decidable (_ ∧ _))

instance (p : Option (List α) × ℕ) : Decidable (Fills p) :=
  match p with
  | (none, _) => inferInstanceAs (Decidable False)
  | (some _, _) => inferInstanceAs (Decidable (_ ∧ _))

variable {slots : List (Option (List α) × ℕ)} {off n : ℕ} {buf : List α}

/-! ### Where the values are -/

theorem length_fill (h : off + (slots.map Prod.snd).sum ≤ buf.length) :
    (fill slots off buf).length = buf.length := by
  induction slots generalizing off buf with
  | nil => rfl
  | cons p slots ih =>
    obtain ⟨_ | v, slot⟩ := p
    · rw [List.map_cons, List.sum_cons] at h
      exact ih (by omega)
    · rw [List.map_cons, List.sum_cons] at h
      unfold fill
      split_ifs with hroom
      · exact ih (by omega)
      · have hblit : (blit buf off v).length = buf.length := length_blit (by omega)
        rw [ih (by omega), hblit]

/-- A part of the buffer before the slots stays as it is. -/
theorem slice_fill_before {a k : ℕ} (h : off + (slots.map Prod.snd).sum ≤ buf.length)
    (hle : a + k ≤ off) : slice (fill slots off buf) a k = slice buf a k := by
  induction slots generalizing off buf with
  | nil => rfl
  | cons p slots ih =>
    obtain ⟨_ | v, slot⟩ := p
    · rw [List.map_cons, List.sum_cons] at h
      exact ih (by omega) (by omega)
    · rw [List.map_cons, List.sum_cons] at h
      unfold fill
      split_ifs with hroom
      · exact ih (by omega) (by omega)
      · have hblit : (blit buf off v).length = buf.length := length_blit (by omega)
        rw [ih (by omega) (by omega), slice_blit_before (by omega) hle]

/-- A value that fits is at the start of its slot, after all the slots before it. -/
theorem slice_fill {i slot : ℕ} {v : List α} (h : off + (slots.map Prod.snd).sum ≤ buf.length)
    (hi : slots[i]? = some (some v, slot)) (hfit : v.length ≤ slot) :
    slice (fill slots off buf) (off + ((slots.take i).map Prod.snd).sum) v.length = v := by
  induction slots generalizing off buf i with
  | nil => simp at hi
  | cons p slots ih =>
    rw [List.map_cons, List.sum_cons] at h
    cases i with
    | zero =>
      obtain rfl := Option.some.inj hi
      have hblit : (blit buf off v).length = buf.length := length_blit (by dsimp only at h; omega)
      dsimp only at h
      simp only [fill, Nat.not_lt.2 hfit, if_false, List.take_zero, List.map_nil, List.sum_nil,
        Nat.add_zero]
      rw [slice_fill_before (by omega) (by omega), slice_blit_same (by omega)]
    | succ i =>
      obtain ⟨o, room⟩ := p
      rw [List.getElem?_cons_succ] at hi
      rw [List.take_succ_cons, List.map_cons, List.sum_cons, ← Nat.add_assoc]
      obtain _ | w := o
      · exact ih (by dsimp only at h; omega) hi
      · dsimp only at h
        unfold fill
        refine ih ?_ hi
        split_ifs with hroom
        · omega
        · rw [length_blit (by omega)]
          omega

/-- What is not part of a value that fits stays as it is. -/
theorem getElem?_fill_of_not_copied {p : ℕ} (h : off + (slots.map Prod.snd).sum ≤ buf.length)
    (hp : ∀ i v slot, slots[i]? = some (some v, slot) → v.length ≤ slot →
      ¬ (off + ((slots.take i).map Prod.snd).sum ≤ p ∧
        p < off + ((slots.take i).map Prod.snd).sum + v.length)) :
    (fill slots off buf)[p]? = buf[p]? := by
  induction slots generalizing off buf with
  | nil => rfl
  | cons q slots ih =>
    obtain ⟨o, room⟩ := q
    rw [List.map_cons, List.sum_cons] at h
    dsimp only at h
    have hrest : ∀ i v slot, slots[i]? = some (some v, slot) → v.length ≤ slot →
        ¬ (off + room + ((slots.take i).map Prod.snd).sum ≤ p ∧
          p < off + room + ((slots.take i).map Prod.snd).sum + v.length) := by
      intro i v slot hi hfit
      have hnext := hp (i + 1) v slot (by rwa [List.getElem?_cons_succ]) hfit
      rwa [List.take_succ_cons, List.map_cons, List.sum_cons, ← Nat.add_assoc] at hnext
    obtain _ | v := o
    · exact ih (by omega) hrest
    · unfold fill
      split_ifs with hroom
      · exact ih (by omega) hrest
      · have hhead := hp 0 v room rfl (Nat.not_lt.1 hroom)
        rw [List.take_zero, List.map_nil, List.sum_nil, Nat.add_zero] at hhead
        have hblit : (blit buf off v).length = buf.length := length_blit (by omega)
        rw [ih (by omega) hrest, getElem?_blit (by omega), if_neg hhead]

/-! ### Going on, or staying -/

theorem fill_of_not_fills (h : ∀ p ∈ slots, ¬ Fills p) : fill slots off buf = buf := by
  induction slots generalizing off buf with
  | nil => rfl
  | cons p slots ih =>
    have htail : ∀ off, fill slots off buf = buf := fun off =>
      ih fun q hq => h q (List.mem_cons_of_mem p hq)
    obtain ⟨_ | v, slot⟩ := p
    · exact htail _
    · have hp : ¬ (0 < v.length ∧ v.length ≤ slot) := h _ List.mem_cons_self
      unfold fill
      split_ifs with hroom
      · exact htail _
      · obtain rfl : v = [] := List.length_eq_zero_iff.1 (by omega)
        rw [blit_nil]
        exact htail _

theorem fillStuck_of_not_fills (h : ∀ p ∈ slots, ¬ Fills p) : fillStuck slots off buf = buf := by
  induction slots generalizing off buf with
  | nil => rfl
  | cons p slots ih =>
    have htail : ∀ off, fillStuck slots off buf = buf := fun off =>
      ih fun q hq => h q (List.mem_cons_of_mem p hq)
    obtain ⟨_ | v, slot⟩ := p
    · exact htail _
    · have hp : ¬ (0 < v.length ∧ v.length ≤ slot) := h _ List.mem_cons_self
      unfold fillStuck
      split_ifs with hroom
      · exact htail _
      · obtain rfl : v = [] := List.length_eq_zero_iff.1 (by omega)
        rw [blit_nil]
        exact htail _

theorem fillStuck_eq (h : slots.Pairwise fun p q => Overflows p → ¬ Fills q) :
    fillStuck slots off buf = fill slots off buf := by
  induction slots generalizing off buf with
  | nil => rfl
  | cons p slots ih =>
    obtain ⟨hp, htail⟩ := List.pairwise_cons.1 h
    obtain ⟨_ | v, slot⟩ := p
    · exact ih htail
    · unfold fillStuck fill
      by_cases hroom : slot < v.length
      · rw [if_pos hroom, if_pos hroom]
        obtain rfl | hpos := Nat.eq_zero_or_pos slot
        · exact ih htail
        · have hrest : ∀ q ∈ slots, ¬ Fills q := fun q hq => hp q hq ⟨hpos, hroom⟩
          rw [fillStuck_of_not_fills hrest, fill_of_not_fills hrest]
      · rw [if_neg hroom, if_neg hroom]
        exact ih htail

/-- Once behind, staying leaves out an element that going on writes: the last one of all. -/
theorem exists_unwritten_of_lt {off' : ℕ} (hlt : off' < off) (hfills : ∃ p ∈ slots, Fills p)
    (hsum : off + (slots.map Prod.snd).sum ≤ n) :
    ∃ i x, off ≤ i ∧ ∀ buf : List α, buf.length = n →
      (fill slots off buf)[i]? = some x ∧ (fillStuck slots off' buf)[i]? = buf[i]? := by
  induction slots generalizing off off' with
  | nil => simp at hfills
  | cons p slots ih =>
    obtain ⟨o, slot⟩ := p
    rw [List.map_cons, List.sum_cons] at hsum
    dsimp only at hsum
    by_cases htail : ∃ q ∈ slots, Fills q
    · obtain _ | v := o
      · obtain ⟨i, x, hi, hbuf⟩ := ih (show off' + slot < off + slot by omega) htail (by omega)
        exact ⟨i, x, by omega, hbuf⟩
      · by_cases hroom : slot < v.length
        · obtain ⟨i, x, hi, hbuf⟩ := ih (show off' < off + slot by omega) htail (by omega)
          refine ⟨i, x, by omega, fun buf hlen => ?_⟩
          simpa only [fill, fillStuck, hroom, if_true] using hbuf buf hlen
        · obtain ⟨i, x, hi, hbuf⟩ := ih (show off' + slot < off + slot by omega) htail (by omega)
          refine ⟨i, x, by omega, fun buf hlen => ?_⟩
          have hgoing : (blit buf off v).length = n := by rw [length_blit (by omega), hlen]
          have hstaying : (blit buf off' v).length = n := by rw [length_blit (by omega), hlen]
          have hbehind : (blit buf off' v)[i]? = buf[i]? := by
            rw [getElem?_blit (by omega), if_neg (by omega)]
          simp only [fill, fillStuck, hroom, if_false]
          exact ⟨(hbuf _ hgoing).1, (hbuf _ hstaying).2.trans hbehind⟩
    · -- the value of this slot is the last one that writes anything
      have hrest : ∀ q ∈ slots, ¬ Fills q := fun q hq hf => htail ⟨q, hq, hf⟩
      obtain ⟨q, hq, hf⟩ := hfills
      obtain rfl | hq := List.mem_cons.1 hq
      · obtain _ | v := o
        · exact hf.elim
        · obtain ⟨hpos, hfit⟩ := hf
          refine ⟨off + v.length - 1, v[v.length - 1], by omega, fun buf hlen => ?_⟩
          simp only [fill, fillStuck, Nat.not_lt.2 hfit, if_false, fill_of_not_fills hrest,
            fillStuck_of_not_fills hrest]
          rw [getElem?_blit (by omega), if_pos (by omega), getElem?_blit (by omega),
            if_neg (by omega)]
          refine ⟨?_, rfl⟩
          rw [show off + v.length - 1 - off = v.length - 1 by omega, List.getElem?_eq_getElem]
      · exact absurd hf (hrest q hq)

theorem exists_unwritten (h : ¬ slots.Pairwise fun p q => Overflows p → ¬ Fills q)
    (hsum : off + (slots.map Prod.snd).sum ≤ n) :
    ∃ i x, off ≤ i ∧ ∀ buf : List α, buf.length = n →
      (fill slots off buf)[i]? = some x ∧ (fillStuck slots off buf)[i]? = buf[i]? := by
  induction slots generalizing off with
  | nil => exact absurd List.Pairwise.nil h
  | cons p slots ih =>
    obtain ⟨o, slot⟩ := p
    rw [List.map_cons, List.sum_cons] at hsum
    dsimp only at hsum
    by_cases hover : Overflows (o, slot) ∧ ∃ q ∈ slots, Fills q
    · obtain ⟨hover, hfills⟩ := hover
      obtain _ | v := o
      · exact hover.elim
      · obtain ⟨hpos, hroom⟩ := hover
        obtain ⟨i, x, hi, hbuf⟩ :=
          exists_unwritten_of_lt (n := n) (show off < off + slot by omega) hfills (by omega)
        refine ⟨i, x, by omega, fun buf hlen => ?_⟩
        simpa only [fill, fillStuck, hroom, if_true] using hbuf buf hlen
    · have htail : ¬ slots.Pairwise fun p q => Overflows p → ¬ Fills q := fun htail =>
        h (List.pairwise_cons.2 ⟨fun q hq hp hf => hover ⟨hp, q, hq, hf⟩, htail⟩)
      obtain ⟨i, x, hi, hbuf⟩ := ih htail (show off + slot + (slots.map Prod.snd).sum ≤ n by omega)
      refine ⟨i, x, by omega, fun buf hlen => ?_⟩
      obtain _ | v := o
      · exact hbuf buf hlen
      · by_cases hroom : slot < v.length
        · -- the slot has no room at all: behind one that has some, nothing is copied
          have hzero : slot = 0 := by
            by_contra hne
            refine htail (List.pairwise_of_forall_mem_list fun q _ r hr _ hf => ?_)
            exact hover ⟨⟨Nat.pos_of_ne_zero hne, hroom⟩, r, hr, hf⟩
          subst hzero
          simpa only [fill, fillStuck, hroom, if_true, Nat.add_zero] using hbuf buf hlen
        · have hblit : (blit buf off v).length = n := by rw [length_blit (by omega), hlen]
          have hbehind : (blit buf off v)[i]? = buf[i]? := by
            rw [getElem?_blit (by omega), if_neg (by omega)]
          simp only [fill, fillStuck, hroom, if_false]
          exact ⟨(hbuf _ hblit).1, (hbuf _ hblit).2.trans hbehind⟩

/-- Going on and staying agree on every buffer when no value is copied after one that was left
out of a slot with some room, and only then. -/
theorem fillStuck_eq_iff [Nontrivial α] (hsum : off + (slots.map Prod.snd).sum ≤ n) :
    (∀ buf : List α, buf.length = n → fillStuck slots off buf = fill slots off buf) ↔
      slots.Pairwise fun p q => Overflows p → ¬ Fills q := by
  refine ⟨fun h => ?_, fun h buf _ => fillStuck_eq h⟩
  by_contra hnot
  obtain ⟨i, x, -, hbuf⟩ := exists_unwritten hnot hsum
  obtain ⟨y, hy⟩ := exists_ne x
  have hlen : (List.replicate n y).length = n := List.length_replicate
  obtain ⟨hwritten, hkept⟩ := hbuf _ hlen
  have hread : (List.replicate n y)[i]? = some x := by rw [← hkept, h _ hlen, hwritten]
  exact hy (List.eq_of_mem_replicate (List.mem_of_getElem? hread)).symm

end Buffer
