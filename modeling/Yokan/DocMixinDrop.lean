import Yokan.DocMixinConcurrency

/-!
# Yokan: dropping a collection while documents are stored

`collDrop` runs in one section, `docStore` in up to three. The last section of `docStore` reads the
metadata again and does not look at the status: when the collection is gone, it writes the metadata
that the first section left in its variables, and the collection is back.

* `store_alone`: `docStore` is its sections, run without interruption;
* `drop_during_store_iff`: the two calls leave what they leave one after the other, and nothing of
  the collection when the drop comes second, exactly if the drop does not come between the first
  section of `docStore` and its last one, and all documents are below `next_id` then.
-/

namespace Yokan

open PartialMap Transition Interleaving FiniteMapStore

namespace Collection

variable {c : Collection} {mode : Mode} {batch : DocBatch} {ids : List UInt64}

/-- A batch that is refused in an empty collection does not add documents to another one. -/
theorem isSome_of_refused {docs : UInt64 → Option Bytes}
    (hrefused : (write mode ids batch fun _ => none).1 ≠ .OK) {id : UInt64}
    (hid : ((write mode ids batch docs).2 id).isSome) : (docs id).isSome := by
  by_cases haccepts : Accepts mode ids batch docs
  · have hmode : onlyExisting mode = true := by
      by_contra hmode
      refine hrefused (write_status.2 ⟨haccepts.1, ?_⟩)
      rw [Bool.not_eq_true, onlyExisting, Bool.and_eq_false_iff] at hmode
      unfold putStatus
      split
      · rcases hmode with hexist | hnew
        · simp [hexist]
        · rw [Bool.not_eq_eq_eq_not, Bool.not_false] at hnew
          simp [hnew]
      · rfl
    have hsupport := support_writeAll_keeping (putRule_keeping hmode) docs (ids.zip batch.docs)
    unfold write at hid
    rw [if_pos haccepts.1] at hid
    have hmem : id ∈ support (writeAll (putRule mode) docs (ids.zip batch.docs)) := hid
    rwa [hsupport] at hmem
  · rwa [write_of_not_accepts haccepts] at hid

end Collection

namespace DocumentStoreMixin

variable {σ : Type} [FiniteMapStore σ] {s t u v : DocumentStoreMixin σ} {name : CString}
  {mode mode' : Mode} {batch : DocBatch} {ids : List UInt64} {metadata : CollectionMetadata}
  {call call' : DocCall} {n : ℕ} {status : Status}

/-! ### A store on its own -/

theorem sections_of_returned (h : sections (docSection name) n s call = some (t, call'))
    (hreturned : call.Returned) :
    n = 0 ∧ t = s ∧ call' = call := by
  have hnone : s.docSection name call = none := by
    cases call <;> first | rfl | cases hreturned
  obtain ⟨rfl, hr⟩ := sections_of_none hnone h
  obtain ⟨rfl, rfl⟩ := Prod.mk.inj hr
  exact ⟨rfl, rfl, rfl⟩

/-- A section, and the sections behind it. -/
theorem sections_cons (hnot : ¬ call.Returned) (hreturned : call'.Returned)
    (h : sections (docSection name) n s call = some (t, call')) :
    ∃ m r, n = m + 1 ∧ s.docSection name call = some r ∧
      sections (docSection name) m r.1 r.2 = some (t, call') := by
  cases n with
  | zero =>
    obtain ⟨-, rfl⟩ := Prod.mk.inj (Option.some.inj h)
    exact absurd hreturned hnot
  | succ n =>
    obtain ⟨r, hr, hrest⟩ := Option.bind_eq_some_iff.1 h
    exact ⟨n, r, rfl, hr, hrest⟩

theorem docSection_store (s : DocumentStoreMixin σ) :
    s.docSection name (.store mode batch ids) = some ((s.reserveIds name ids).2.2.2,
      if (s.reserveIds name ids).1 ≠ .OK then .refused (s.reserveIds name ids).1
      else .reserved mode batch (s.reserveIds name ids).2.1 (s.reserveIds name ids).2.2.1) := rfl

theorem written_alone (hreturned : call'.Returned)
    (h : sections (docSection name) n s (.written ids metadata) = some (t, call')) :
    n = 1 ∧ (s.countDocuments name metadata ids.length).2 = t := by
  obtain ⟨m, r, rfl, hr, hrest⟩ := sections_cons id hreturned h
  obtain rfl := Option.some.inj hr
  obtain ⟨rfl, rfl, -⟩ := sections_of_returned hrest trivial
  exact ⟨rfl, rfl⟩

theorem reserved_alone (hreturned : call'.Returned)
    (h : sections (docSection name) n s (.reserved mode batch ids metadata) = some (t, call')) :
    ∃ status u, s.putDocuments name mode batch.documents batch.sizes ids = some (status, u) ∧
      ((status ≠ .OK ∧ n = 1 ∧ u = t) ∨
        status = .OK ∧ n = 2 ∧ (u.countDocuments name metadata ids.length).2 = t) := by
  obtain ⟨m, r, rfl, hr, hrest⟩ := sections_cons id hreturned h
  obtain ⟨⟨status, u⟩, hput, rfl⟩ := Option.map_eq_some_iff.1 hr
  refine ⟨status, u, hput, ?_⟩
  dsimp only at hrest
  by_cases hok : status = .OK
  · rw [if_neg (not_not.2 hok)] at hrest
    obtain ⟨rfl, hcount⟩ := written_alone hreturned hrest
    exact Or.inr ⟨hok, rfl, hcount⟩
  · rw [if_pos hok] at hrest
    obtain ⟨rfl, rfl, -⟩ := sections_of_returned hrest trivial
    exact Or.inl ⟨hok, rfl, rfl⟩

/-- The sections of a `docStore` that runs alone are `docStore`. -/
theorem store_alone (hreturned : call'.Returned)
    (h : sections (docSection name) n s (.store mode batch ids) = some (t, call')) :
    ∃ r, s.docStore name mode batch.documents batch.sizes ids = some r ∧ r.2.2 = t := by
  obtain ⟨m, r, rfl, hr, hrest⟩ := sections_cons id hreturned h
  rw [docSection_store, Option.some.injEq] at hr
  subst hr
  dsimp only at hrest
  rw [docStore_eq]
  rcases hreserve : s.reserveIds name ids with ⟨status, assigned, metadata, u⟩
  simp only [hreserve] at hrest ⊢
  by_cases hok : status = .OK
  · rw [if_neg (not_not.2 hok)] at hrest ⊢
    have hlen := s.length_reserveIds name ids
    rw [hreserve] at hlen
    dsimp only at hlen
    obtain ⟨written, w, hput, ⟨hfail, -, rfl⟩ | ⟨rfl, -, rfl⟩⟩ := reserved_alone hreturned hrest
    · exact ⟨_, by rw [hput]; rfl, by simp [hfail]⟩
    · exact ⟨_, by rw [hput]; rfl, by simp [hlen]⟩
  · rw [if_pos hok] at hrest ⊢
    obtain ⟨rfl, rfl, -⟩ := sections_of_returned hrest trivial
    exact ⟨_, rfl, rfl⟩

/-! ### A drop between two sections -/

/-- The collections that `collDrop` and `docStore` leave one after the other, in one order or in the
other, are those of `t`. -/
def SerialDrop (name : CString) (mode : Mode) (batch : DocBatch) (ids : List UInt64) (mode' : Mode)
    (s t : DocumentStoreMixin σ) : Prop :=
  (∃ r q, s.docStore name mode batch.documents batch.sizes ids = some r ∧
      r.2.2.collDrop mode' name = some q ∧ q.2.view = t.view) ∨
    ∃ q r, s.collDrop mode' name = some q ∧
      q.2.docStore name mode batch.documents batch.sizes ids = some r ∧ r.2.2.view = t.view

/-- The keys that `collDrop` erases fit in the address space. -/
theorem fits_of_collDrop (h : Coherent s) (hname : name.bytes ≠ []) {m : CollectionMetadata}
    (hm : (s.view name).metadata = some m) {r : Status × DocumentStoreMixin σ}
    (hr : s.collDrop mode name = some r) :
    m.nextId.toNat * (name.bytes.length + 1 + 8) + name.bytes.length < 2 ^ 64 := by
  unfold collDrop at hr
  rw [collExistsImpl_spec h hname] at hr
  obtain ⟨u, hget, -⟩ := collGetMetadata_of_some h hname hm {}
  have hids : (List.range m.nextId.toNat).map UInt64.ofNat = m.idsBelow := rfl
  have hlen : m.idsBelow.length = m.nextId.toNat := by simp [CollectionMetadata.idsBelow]
  simp only [hget, ne_eq, not_true, if_false, hids] at hr
  cases hkeys : keysFromIds name m.idsBelow with
  | none => rw [hkeys] at hr; cases hr
  | some keys =>
    obtain ⟨-, rfl⟩ := keysFromIds_eq hkeys
    rw [hkeys] at hr
    dsimp only at hr
    split_ifs at hr with hroom
    rw [List.length_flatten, map_length_keyFromId, sum_idKeySizes, hlen] at hroom
    exact Nat.not_le.1 hroom

/-- A `docStore` that is interrupted has assigned its ids, and maybe put its documents. -/
theorem store_interrupted (hnot : ¬ call.Returned) (hn : n ≠ 0)
    (h : sections (docSection name) n s (.store mode batch ids) = some (u, call)) :
    ∃ assigned metadata w, s.reserveIds name ids = (.OK, assigned, metadata, w) ∧
      (n = 1 ∧ w = u ∧ call = .reserved mode batch assigned metadata ∨
        n = 2 ∧ w.putDocuments name mode batch.documents batch.sizes assigned = some (.OK, u) ∧
          call = .written assigned metadata) := by
  obtain ⟨n, rfl⟩ := Nat.exists_eq_succ_of_ne_zero hn
  obtain ⟨r, hr, hrest⟩ := Option.bind_eq_some_iff.1 h
  rw [docSection_store, Option.some.injEq] at hr
  subst hr
  rcases hreserve : s.reserveIds name ids with ⟨status, assigned, metadata, w⟩
  simp only [hreserve] at hrest
  by_cases hok : status = .OK
  · rw [if_neg (not_not.2 hok)] at hrest
    refine ⟨assigned, metadata, w, by rw [hok], ?_⟩
    match n with
    | 0 =>
      obtain ⟨rfl, rfl⟩ := Prod.mk.inj (Option.some.inj hrest)
      exact Or.inl ⟨rfl, rfl, rfl⟩
    | n + 1 =>
      obtain ⟨r, hr, hrest⟩ := Option.bind_eq_some_iff.1 hrest
      obtain ⟨⟨status, x⟩, hput, rfl⟩ := Option.map_eq_some_iff.1 hr
      dsimp only at hrest
      by_cases hput' : status = .OK
      · rw [if_neg (not_not.2 hput')] at hrest
        match n with
        | 0 =>
          obtain ⟨rfl, rfl⟩ := Prod.mk.inj (Option.some.inj hrest)
          exact Or.inr ⟨rfl, by rw [hput, hput'], rfl⟩
        | n + 1 =>
          obtain ⟨r, hr, hrest⟩ := Option.bind_eq_some_iff.1 hrest
          obtain rfl := Option.some.inj hr
          obtain ⟨-, -, rfl⟩ := sections_of_returned hrest trivial
          exact absurd trivial hnot
      · rw [if_pos hput'] at hrest
        obtain ⟨-, -, rfl⟩ := sections_of_returned hrest trivial
        exact absurd trivial hnot
  · rw [if_pos hok] at hrest
    obtain ⟨-, -, rfl⟩ := sections_of_returned hrest trivial
    exact absurd trivial hnot

/-- The last section of `docStore` leaves a collection. -/
theorem view_countDocuments (h : Coherent s) (hname : name.bytes ≠ []) (count : ℕ)
    (hcount : (s.countDocuments name metadata count).2 = t) :
    t.view name ≠ ⟨none, fun _ => none⟩ := by
  obtain ⟨u, hu, -, hview⟩ := countDocuments_spec h hname metadata count
  rw [hu] at hcount
  subst hcount
  rw [hview, Function.update_self]
  intro heq
  cases congrArg Collection.metadata heq

theorem coherent_sections (h : Coherent s) (hname : name.bytes ≠ [])
    (hr : sections (docSection name) n s call = some (t, call')) (hwait : call.NoWait) :
    Coherent t := by
  induction n generalizing s call with
  | zero =>
    obtain ⟨rfl, -⟩ := Prod.mk.inj (Option.some.inj hr)
    exact h
  | succ n ih =>
    obtain ⟨r, hsection, hrest⟩ := Option.bind_eq_some_iff.1 hr
    obtain ⟨hu, c, hc, -⟩ := docSection_spec h hname hwait hsection
    exact ih hu hrest (Collection.noWait_docSection hc)

/-- A drop between the first section and a put that is refused: the calls might have run one after
the other. -/
theorem serialDrop_of_refused (hs : Coherent s) (hname : name.bytes ≠ [])
    (hwait : mode'.has .wait = false) {m : CollectionMetadata} (hm : (s.view name).metadata = some m)
    (hu : Coherent u) (huview : u.view = Function.update s.view name
      { s.view name with metadata := some (m.reserve ids.length) })
    (hbelow : (u.view name).BelowNextId) {st : Status}
    (hdrop : u.collDrop mode' name = some (st, v))
    (hput : v.putDocuments name mode batch.documents batch.sizes (m.assigned ids.length) =
      some (status, t)) (hstatus : status ≠ .OK) : SerialDrop name mode batch ids mode' s t := by
  have hlen : (m.assigned ids.length).length = ids.length := by simp [CollectionMetadata.assigned]
  have huname : u.view name = ⟨some (m.reserve ids.length), (s.view name).docs⟩ := by
    rw [huview, Function.update_self]
  obtain ⟨hv, -, hvview⟩ := collDrop_spec hu hname hwait hdrop
  rw [Collection.drop_eq_none_iff.2 hbelow, huview, Function.update_idem] at hvview
  have hvdocs : (v.view name).docs = fun _ => none := by rw [hvview, Function.update_self]
  obtain ⟨rfl, -, htview⟩ := putDocuments_spec hv hput
  -- nothing was put
  have hnone : (Collection.write mode (m.assigned ids.length) batch (v.view name).docs).2 =
      (v.view name).docs :=
    Collection.write_of_not_accepts fun h => hstatus (Collection.write_status.2 h)
  rw [hnone, Function.update_eq_self, hvview] at htview
  -- the store on its own
  obtain ⟨keys, hkeys, -⟩ := Option.map_eq_some_iff.1 hput
  have hfit : KeysFit name ids := by
    have := (keysFromIds_eq hkeys).1
    rwa [KeysFit, hlen] at this
  obtain ⟨⟨stored, assigned, x⟩, hstore⟩ := Option.isSome_iff_exists.1
    (docStore_isSome hs mode batch.documents batch.sizes hfit)
  obtain ⟨⟨hx, -, hxview⟩, -⟩ := docStore_spec hs hname hstore
  simp only [Collection.store, hm] at hxview
  rw [hvdocs] at hstatus
  generalize hw : Collection.write mode (m.assigned ids.length) batch (s.view name).docs = w
    at hxview
  have hxname : ∃ size, x.view name = ⟨some ⟨size, (m.reserve ids.length).nextId⟩, w.2⟩ := by
    rw [hxview, Function.update_self]
    exact ⟨_, rfl⟩
  obtain ⟨size, hxname⟩ := hxname
  -- and the drop behind it
  have hroom := fits_of_collDrop hu hname (by rw [huname]) hdrop
  have hfits : Fits name (x.view name) (.drop mode') := by
    intro m' hm'
    rw [hxname] at hm'
    obtain rfl := Option.some.inj hm'
    exact hroom
  obtain ⟨⟨dropped, y⟩, hdrop'⟩ := Option.isSome_iff_exists.1 (collDrop_isSome hx mode' hfits)
  obtain ⟨-, -, hyview⟩ := collDrop_spec hx hname hwait hdrop'
  have hxbelow : (x.view name).BelowNextId := by
    intro id hid
    rw [hxname] at hid ⊢
    dsimp only at hid
    rw [← hw] at hid
    obtain ⟨m', hm', hlt⟩ := hbelow id (by
      rw [huname]
      exact Collection.isSome_of_refused hstatus hid)
    rw [huname] at hm'
    obtain rfl := Option.some.inj hm'
    exact ⟨_, rfl, hlt⟩
  refine Or.inl ⟨_, _, hstore, hdrop', ?_⟩
  rw [hyview, Collection.drop_eq_none_iff.2 hxbelow, hxview, Function.update_idem, htview]

/-- A drop after `i` sections of a `docStore`, which goes on for `n` sections. -/
theorem drop_between_iff (hs : Coherent s) (hname : name.bytes ≠ [])
    (hwait : mode'.has .wait = false) {i : ℕ} {st : Status}
    (hbefore : sections (docSection name) i s (.store mode batch ids) = some (u, call))
    (hdrop : u.collDrop mode' name = some (st, v))
    (hafter : sections (docSection name) n v call = some (t, call')) (hreturned : call'.Returned) :
    (SerialDrop name mode batch ids mode' s t ∧ (i ≠ 0 → t.view name = ⟨none, fun _ => none⟩)) ↔
      i = 0 ∨ (n = 0 ∨ i + n < 3) ∧ (u.view name).BelowNextId := by
  by_cases hi : i = 0
  · -- the drop comes first
    subst hi
    obtain ⟨rfl, rfl⟩ := Prod.mk.inj (Option.some.inj hbefore)
    obtain ⟨r, hstore, rfl⟩ := store_alone hreturned hafter
    simp only [ne_eq, not_true, false_imp_iff, and_true, true_or, iff_true]
    exact Or.inr ⟨_, r, hdrop, hstore, rfl⟩
  simp only [hi, ne_eq, not_false_eq_true, true_imp_iff, false_or]
  have hu := coherent_sections hs hname hbefore trivial
  obtain ⟨hv, -, hvview⟩ := collDrop_spec hu hname hwait hdrop
  have hvname : v.view name = ⟨none, fun _ => none⟩ ↔ (u.view name).BelowNextId := by
    rw [hvview, Function.update_self]
    exact Collection.drop_eq_none_iff
  by_cases hn : n = 0
  · -- the drop comes last
    subst hn
    obtain ⟨rfl, rfl⟩ := Prod.mk.inj (Option.some.inj hafter)
    obtain ⟨r, hstore, rfl⟩ := store_alone hreturned hbefore
    simp only [true_or, true_and, hvname, and_iff_right_iff_imp]
    exact fun _ => Or.inl ⟨r, _, hstore, hdrop, rfl⟩
  have hnot : ¬ call.Returned := fun h => hn (sections_of_returned hafter h).1
  obtain ⟨assigned, metadata, w, hreserve, hcase⟩ := store_interrupted hnot hi hbefore
  cases hm : (s.view name).metadata with
  | none =>
    obtain ⟨x, hnone, -⟩ := reserveIds_of_none hs hname hm ids
    rw [hreserve] at hnone
    cases hnone
  | some m =>
    obtain ⟨x, hsome, -, hxview⟩ := reserveIds_of_some hs hname hm ids
    rw [hreserve] at hsome
    simp only [Prod.mk.injEq, true_and] at hsome
    obtain ⟨rfl, rfl, rfl⟩ := hsome
    rcases hcase with ⟨rfl, rfl, rfl⟩ | ⟨rfl, -, rfl⟩
    · obtain ⟨status, x, hput, ⟨hstatus, rfl, rfl⟩ | ⟨-, rfl, hcount⟩⟩ :=
        reserved_alone hreturned hafter
      · -- the put is refused
        obtain ⟨rfl, -, htview⟩ := putDocuments_spec hv hput
        have hnone : (Collection.write mode (m.assigned ids.length) batch (v.view name).docs).2 =
            (v.view name).docs :=
          Collection.write_of_not_accepts fun h => hstatus (Collection.write_status.2 h)
        rw [hnone, Function.update_eq_self] at htview
        rw [htview, hvname]
        simp only [Nat.reduceAdd, Nat.reduceLT, or_true, true_and, and_iff_right_iff_imp]
        exact fun hbelow =>
          serialDrop_of_refused hs hname hwait hm hu hxview hbelow hdrop hput hstatus
      · -- the metadata kept by the call is written back, and the collection is there again
        obtain ⟨-, hx, -⟩ := putDocuments_spec hv hput
        have hback := view_countDocuments hx hname _ hcount
        simp [hback]
    · -- the same, with the documents put before the drop
      obtain ⟨rfl, hcount⟩ := written_alone hreturned hafter
      have hback := view_countDocuments hv hname _ hcount
      simp [hback]

/-- The sections of calls that are there. -/
def SectionsOf (name : CString) : System (DocumentStoreMixin σ) DocCall → Event DocCall →
    System (DocumentStoreMixin σ) DocCall → Prop :=
  StepOption (Interleaving.step (docSection name)) fun _ e => e.IsNext

/-- A `docStore` and a `collDrop` run their sections, the drop in the state `u`. They leave what they
leave one after the other, and nothing of the collection if the drop ran after the first section of
the store, exactly if it ran before that section, or if the last section of the store did not run
after it and all documents were below `next_id`. -/
theorem drop_during_store_iff (hs : Coherent s) (hname : name.bytes ≠ [])
    (hwait : mode'.has .wait = false) {before after : List (Event DocCall)}
    {u v t : System (DocumentStoreMixin σ) DocCall}
    (hbefore : Run (SectionsOf name) ⟨s, [.store mode batch ids, .drop mode']⟩ before u)
    (hdrop : Interleaving.step (docSection name) u (.next 1) = some v)
    (hafter : Run (SectionsOf name) v after t) (hreturned : ∀ call ∈ t.calls, call.Returned) :
    (SerialDrop name mode batch ids mode' s t.shared ∧
        (before ≠ [] → t.shared.view name = ⟨none, fun _ => none⟩)) ↔
      before = [] ∨ (after = [] ∨ (before ++ after).length < 3) ∧
        (u.shared.view name).BelowNextId := by
  -- the drop has not run before
  obtain ⟨call, second, hcalls, hcase⟩ := run_pair (fun call => ∃ st, call = .dropped st)
    (fun s s' call h => by
      obtain ⟨r, -, hr⟩ := Option.map_eq_some_iff.1 h
      exact ⟨r.1, (Prod.mk.inj hr).2.symm⟩)
    (by rintro s s' _ call ⟨st, rfl⟩ h; cases h) hbefore
  obtain ⟨u, calls⟩ := u
  dsimp only at hcalls hcase
  subst hcalls
  obtain ⟨⟨v', second'⟩, hmove, rfl⟩ := Option.map_eq_some_iff.1
    (show (u.docSection name second).map (fun r => (⟨r.1, [call, r.2]⟩ : System _ _)) = some v
      from hdrop)
  rcases hcase with ⟨st, rfl⟩ | ⟨rfl, hsections⟩
  · cases hmove
  obtain ⟨⟨st, w⟩, hcoll, hr⟩ := Option.map_eq_some_iff.1 hmove
  obtain ⟨rfl, rfl⟩ := Prod.mk.inj hr
  -- and does not run again
  obtain ⟨call', second, hcalls', hcase'⟩ := run_pair (fun _ => False)
    (by intro _ _ _ h; cases h) (fun _ _ _ _ h => h.elim) hafter
  obtain ⟨-, hsections'⟩ := hcase'.resolve_left id
  have hiff := drop_between_iff hs hname hwait hsections hcoll hsections'
    (hreturned call' (by rw [hcalls']; exact List.mem_cons_self))
  simpa only [ne_eq, List.length_eq_zero_iff, List.length_append] using hiff

/-- A drop between the first section of a store and its put. -/
theorem drop_during_store_iff_created :
    ∃ u v t, Run (SectionsOf nameC)
        ⟨createdMap, [.store .default (oneDoc 1) [0], .drop .default]⟩ [.next 0] u ∧
      Interleaving.step (docSection nameC) u (.next 1) = some v ∧
      Run (SectionsOf nameC) v [.next 0, .next 0] t ∧
      ¬ (SerialDrop nameC .default (oneDoc 1) [0] .default createdMap t.shared ∧
        t.shared.view nameC = ⟨none, fun _ => none⟩) := by
  have hfacts : ((follow (Interleaving.step (docSection nameC)) (fun _ e => e.IsNext)
      ⟨createdMap, [.store .default (oneDoc 1) [0], .drop .default]⟩ [.next 0]).bind fun u =>
        (Interleaving.step (docSection nameC) u (.next 1)).bind fun v =>
          (follow (Interleaving.step (docSection nameC)) (fun _ e => e.IsNext) v
            [.next 0, .next 0]).map fun t => t.calls.all fun call => decide call.Returned) =
      some true := by decide
  obtain ⟨u, hu, hfacts⟩ := Option.bind_eq_some_iff.1 hfacts
  obtain ⟨v, hv, hfacts⟩ := Option.bind_eq_some_iff.1 hfacts
  obtain ⟨t, ht, hreturned⟩ := Option.map_eq_some_iff.1 hfacts
  have hiff := drop_during_store_iff createdMap_spec.1 (by decide) (by decide)
    (run_iff_follow.2 hu) hv (run_iff_follow.2 ht)
    (fun call hcall => of_decide_eq_true (List.all_eq_true.1 hreturned call hcall))
  exact ⟨u, v, t, run_iff_follow.2 hu, hv, run_iff_follow.2 ht,
    fun h => absurd (hiff.1 ⟨h.1, fun _ => h.2⟩) (by simp)⟩

/-- A collection that is dropped between the put and the last section of a `docStore` is there again
afterwards, with a size and without the document. -/
theorem dropped_collection_is_back :
    ∃ t, Run (SectionsOf nameC) ⟨createdMap, [.store .default (oneDoc 1) [0], .drop .default]⟩
        [.next 0, .next 0, .next 1, .next 0] t ∧
      (∀ call ∈ t.calls, call.Returned) ∧
      (t.shared.view nameC).metadata = some ⟨1, 1⟩ ∧ (t.shared.view nameC).docs 0 = none ∧
      ¬ SerialDrop nameC .default (oneDoc 1) [0] .default createdMap t.shared := by
  have hfacts : (follow (Interleaving.step (docSection nameC)) (fun _ e => e.IsNext)
      ⟨createdMap, [.store .default (oneDoc 1) [0], .drop .default]⟩
        [.next 0, .next 0, .next 1, .next 0]).map (fun t => (t.calls.all fun call =>
          decide call.Returned, (t.shared.view nameC).metadata, (t.shared.view nameC).docs 0)) =
            some (true, some ⟨1, 1⟩, none) := by decide
  obtain ⟨t, ht, hfacts⟩ := Option.map_eq_some_iff.1 hfacts
  obtain ⟨hreturned, hm, hdoc⟩ : _ ∧ (t.shared.view nameC).metadata = some ⟨1, 1⟩ ∧
      (t.shared.view nameC).docs 0 = none := by simpa only [Prod.mk.injEq] using hfacts
  refine ⟨t, run_iff_follow.2 ht,
    fun call hcall => of_decide_eq_true (List.all_eq_true.1 hreturned call hcall), hm, hdoc, ?_⟩
  rintro (⟨r, q, hr, hq, hview⟩ | ⟨q, r, hq, hr, hview⟩)
  · have hnone : ((createdMap.docStore nameC .default (oneDoc 1).documents (oneDoc 1).sizes [0]).bind
        fun r => r.2.2.collDrop .default nameC).map (fun q => (q.2.view nameC).metadata) =
          some none := by decide
    rw [hr, Option.bind_some, hq, Option.map_some, hview, hm] at hnone
    exact absurd hnone (by decide)
  · have hnone : ((createdMap.collDrop .default nameC).bind fun q => q.2.docStore nameC .default
        (oneDoc 1).documents (oneDoc 1).sizes [0]).map (fun r => (r.2.2.view nameC).metadata) =
          some none := by decide
    rw [hq, Option.bind_some, hr, Option.map_some, hview, hm] at hnone
    exact absurd hnone (by decide)

end DocumentStoreMixin

end Yokan
