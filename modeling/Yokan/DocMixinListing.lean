import Yokan.DocMixinRefinement
import Yokan.MapListing
import Yokan.UnorderedMap

/-!
# Yokan: listing the documents of a collection

`DocumentStoreMixin::docList` and `docIter` (`include/yokan/doc-mixin.hpp`) and the filter that
keeps them inside one collection (`CollectionFilterWrapper`, `src/server/util/filters.cpp`). On a
sorted database they walk the entries from the key of the first id on, and the filter tells the
documents of the collection from everything else; on other databases they look up one id after
the other.

* `ListingStore`: a database that behaves as a finite map and, if it is sorted, lists its entries
  in the order of the keys;
* `check_collectionFilterWrapper`: the filter accepts the keys of one collection, whatever the
  names of the others;
* `docList_sorted`, `docIter_sorted`: on a sorted database, what a caller gets is a page of the
  documents of the collection, in the order of the ids.
-/

namespace Yokan

open Buffer LittleEndian PartialMap Paging

/-! ### Databases with listings -/

/-- A database that behaves as a finite map and that can be listed. The listings of a sorted
database are walks over its entries, in the order of the keys; the laws are about the walks from a
key on. The laws about `get` say which sizes it reports for values with their own slots, and that
what it returns depends on the entries of its keys alone. -/
class ListingStore (σ : Type) extends FiniteMapStore σ where
  listKeyValues : Mode → Bool → σ → Bytes → KeyValueFilter → Bytes → List ℕ → Bytes → List ℕ →
    Status × ColumnOutput × ColumnOutput
  iter : {υ : Type} → Mode → ℕ → σ → Bytes → KeyValueFilter → Bool →
    (υ → Bytes → Bytes → Status × υ) → υ → Status × υ
  entries : σ → List (Bytes × Bytes)
  sorted_entries {s : σ} : isSorted = true → Serving s → Sorted (· < ·) Prod.fst (entries s)
  mem_entries {s : σ} {key val : Bytes} : isSorted = true → Serving s →
    ((key, val) ∈ entries s ↔ contents s key = some val)
  listKeyValues_eq {mode : Mode} {packed : Bool} {s : σ} {fromKey : Bytes}
    {filter : KeyValueFilter} {keys vals : Bytes} {ksizes vsizes : List ℕ} :
    isSorted = true → Serving s → mode.has .inclusive = true → fromKey ≠ [] →
    listKeyValues mode packed s fromKey filter keys ksizes vals vsizes =
      (let cols := MapDatabase.listKeyValuesLoop mode packed filter
        ((entries s).dropWhile (fun e => e.1 < fromKey)) (ksizes.zip vsizes)
        (Column.start keys, Column.start vals)
       (.OK, cols.1.finish ksizes.length, cols.2.finish vsizes.length))
  iter_eq {υ : Type} {mode : Mode} {max : ℕ} {s : σ} {fromKey : Bytes} {filter : KeyValueFilter}
    {ignoreValues : Bool} {func : υ → Bytes → Bytes → Status × υ} {u : υ} :
    isSorted = true → Serving s → mode.has .inclusive = true → fromKey ≠ [] →
    iter mode max s fromKey filter ignoreValues func u =
      MapDatabase.iterLoop max filter ignoreValues func
        ((entries s).dropWhile (fun e => e.1 < fromKey)) 0 u
  get_slots {mode : Mode} {s : σ} {keys vals : Bytes} {ksizes vsizes : List ℕ} :
    Serving s → mode.has .wait = false → Packed keys ksizes → ksizes.length = vsizes.length →
    (get mode false s keys ksizes vals vsizes).out.vsizes =
      List.zipWith (fun k slot => slotSize slot (contents s k)) (unpack keys ksizes) vsizes
  get_congr {mode : Mode} {packed : Bool} {s t : σ} {keys vals : Bytes} {ksizes vsizes : List ℕ} :
    Serving s → Serving t → mode.has .wait = false → Packed keys ksizes →
    (∀ k ∈ unpack keys ksizes, contents s k = contents t k) →
    (get mode packed s keys ksizes vals vsizes).status =
        (get mode packed t keys ksizes vals vsizes).status ∧
      (get mode packed s keys ksizes vals vsizes).out =
        (get mode packed t keys ksizes vals vsizes).out

/-! ### Document filters -/

/-- `DocFilter`. `docCopy` copies to an offset of a buffer with a given room and returns the size
written. -/
structure DocFilter where
  check : CString → UInt64 → Bytes → Bool
  docCopy : CString → Bytes → ℕ → ℕ → Bytes → ℕ × Bytes
  shouldStop : CString → Bytes → Bool := fun _ _ => false

/-- A `DocFilter` that also says how much room `docCopy` needs. -/
structure SizedDocFilter extends DocFilter where
  docSizeFrom : CString → Bytes → ℕ

/-- `DefaultDocFilter`. -/
def defaultDocFilter : DocFilter where
  check _ _ _ := true
  docCopy _ := copyOut

/-- `CollectionFilterWrapper`, a prefix filter for the name with the NUL that ends it. -/
def collectionFilterWrapper (collName : CString) (docFilter : DocFilter) : KeyValueFilter :=
  let base := keyPrefixFilter .noPrefix (collName.bytes ++ [0])
  { requiresValue := true
    check := fun key val =>
      if !base.check key [] then false
      else if key.length ≠ collName.bytes.length + 1 + 8 then false
      else docFilter.check collName (idFromKey collName.bytes.length key) val
    keyCopy := base.keyCopy
    valCopy := docFilter.docCopy collName
    shouldStop := fun key val =>
      base.shouldStop key val || docFilter.shouldStop collName val }

/-! ### The functions -/

/-- `YOKAN_NO_MORE_DOCS`, as an id. -/
def noMoreDocs : UInt64 := UInt64.ofNat noMoreKeys

/-- The memory of an array of ids. -/
def idsMemory (ids : List UInt64) : Bytes := (ids.map (fun id => encode 8 id.toNat)).flatten

/-- The array of `n` ids in a region of memory. -/
def idsOfMemory (n : ℕ) (memory : Bytes) : List UInt64 :=
  (unpack memory (List.replicate n 8)).map (fun word => UInt64.ofNat (decode word))

/-- What `docList` leaves in the caller's memory: the ids, the document buffer, `documents.size`
and `docSizes`. -/
structure DocListOutput where
  ids : List UInt64
  documents : Bytes
  documentsSize : ℕ
  docSizes : List ℕ
  deriving DecidableEq

/-- The local variables of the loop of `docList` on a database that is not sorted, with the
database it reads from. -/
structure DocListLoop (σ : Type) where
  db : σ
  ids : List UInt64
  documents : Bytes
  docsOffset : ℕ
  docSizes : List ℕ

namespace DocumentStoreMixin

variable {σ : Type} [ListingStore σ]

open DatabaseInterface FiniteMapStore ListingStore

/-- The ids from `fromId` on and below `next_id`. -/
def idsFrom (fromId nextId : UInt64) : List UInt64 :=
  (List.range' fromId.toNat (nextId.toNat - fromId.toNat)).map UInt64.ofNat

/-- The loop of `docList` over the ids left to try. -/
def docListLoop (name : CString) (mode : Mode) (packed : Bool) (filter : KeyValueFilter)
    (count : ℕ) : List UInt64 → DocListLoop σ → Option Status × DocListLoop σ
  | [], st => (none, st)
  | id :: rest, st =>
    let i := st.ids.length
    if i = count ∨ st.documents.length ≤ st.docsOffset then (none, st)
    else
      let key := keyFromId name id
      let originalVsize := st.docSizes.getD i 0
      let room := if packed then st.documents.length - st.docsOffset else originalVsize
      let r := get mode true st.db key [key.length] (slice st.documents st.docsOffset room)
        [originalVsize]
      let documents := blit st.documents st.docsOffset r.out.vals
      let vsize := r.out.vsizes.getD 0 originalVsize
      let docSizes := st.docSizes.set i vsize
      if r.status ≠ .OK then (some r.status, { st with db := r.db, documents, docSizes })
      else if sizeTooSmall ≤ vsize then (none, { st with db := r.db, documents, docSizes })
      else if !filter.check key (slice documents st.docsOffset vsize) then
        docListLoop name mode packed filter count rest
          { st with db := r.db, documents, docSizes := docSizes.set i originalVsize }
      else
        docListLoop name mode packed filter count rest
          { db := r.db
            ids := st.ids ++ [id]
            documents
            docsOffset := addSize st.docsOffset (if packed then vsize else originalVsize)
            docSizes }

/-- `docList`, on a sorted database: the keys go to the memory of the ids, without their prefix. -/
def docListSorted (s : DocumentStoreMixin σ) (name : CString) (packed : Bool) (fromId : UInt64)
    (filter : DocFilter) (ids : List UInt64) (documents : Bytes) (docSizes : List ℕ) :
    Status × DocListOutput :=
  let count := ids.length
  let (status, keys, docs) := listKeyValues (.inclusive ||| .noPrefix) packed s.db
    (keyFromId name fromId) (collectionFilterWrapper name filter) (idsMemory ids)
    (List.replicate count 8) documents docSizes
  let ids := idsOfMemory count keys.buf
  if status = .OK then
    let ids := List.zipWith
      (fun ksize id => if ksize = noMoreKeys then noMoreDocs else ensureBigEndian id) keys.sizes ids
    (status, ⟨ids, docs.buf, docs.size, docs.sizes⟩)
  else (status, ⟨ids, docs.buf, docs.size, docs.sizes⟩)

/-- `docList`, on a database that is not sorted. -/
def docListUnsorted (s : DocumentStoreMixin σ) (name : CString) (mode : Mode) (packed : Bool)
    (fromId : UInt64) (filter : DocFilter) (metadata : CollectionMetadata) (ids : List UInt64)
    (documents : Bytes) (docSizes : List ℕ) :
    Status × DocListOutput × DocumentStoreMixin σ :=
  let count := ids.length
  let (status, st) := docListLoop name mode packed (collectionFilterWrapper name filter) count
    (idsFrom fromId metadata.nextId) ⟨s.db, [], documents, 0, docSizes⟩
  let s := { s with db := st.db }
  let i := st.ids.length
  match status with
  | some status =>
    (status, ⟨st.ids ++ ids.drop i, st.documents, documents.length, st.docSizes⟩, s)
  | none =>
    let ids := st.ids ++ List.replicate (count - i) noMoreDocs
    let docSizes := st.docSizes.take i ++ List.replicate (count - i) noMoreKeys
    (.OK, ⟨ids, st.documents, documents.length, docSizes⟩, s)

/-- `docList`. The arrays `ids` and `docSizes` have one slot for each document asked for. -/
def docList (s : DocumentStoreMixin σ) (name : CString) (mode : Mode) (packed : Bool)
    (fromId : UInt64) (filter : DocFilter) (ids : List UInt64) (documents : Bytes)
    (docSizes : List ℕ) : Status × DocListOutput × DocumentStoreMixin σ :=
  let unchanged : DocListOutput := ⟨ids, documents, documents.length, docSizes⟩
  if name.bytes = [] then (.InvalidArg, unchanged, s)
  else if !supportsMode σ .noPrefix then (.NotSupported, unchanged, s)
  else
    let (status, metadata, s) := s.collGetMetadata name {}
    if status ≠ .OK then (status, unchanged, s)
    else if isSorted σ then
      let (status, out) := s.docListSorted name packed fromId filter ids documents docSizes
      (status, out, s)
    else s.docListUnsorted name mode packed fromId filter metadata ids documents docSizes

/-- The loop of `docIter` over the ids left to try, on a database that is not sorted. `i` counts
the documents handed to the callback. -/
def docIterLoop {υ : Type} (name : CString) (mode : Mode) (max : ℕ) (filter : DocFilter)
    (func : υ → UInt64 → Bytes → Status × υ) : List UInt64 → σ → ℕ → υ → Status × σ × υ
  | [], db, _, u => (.OK, db, u)
  | id :: rest, db, i, u =>
    if max = 0 ∨ i < max then
      let key := keyFromId name id
      let kvFunc := fun (acc : ℕ × υ) (key : Bytes) (val : Option Bytes) =>
        match val with
        | none => (Status.OK, acc)
        | some val =>
          let id := idFromKey name.bytes.length key
          if !filter.check name id val then (.OK, acc)
          else let r := func acc.2 id val; (r.1, acc.1 + 1, r.2)
      let r := fetch mode db key [key.length] kvFunc (i, u)
      if r.1 ≠ .OK then (r.1, r.2.1, r.2.2.2)
      else docIterLoop name mode max filter func rest r.2.1 r.2.2.1 r.2.2.2
    else (.OK, db, u)

/-- `docIter`. -/
def docIter {υ : Type} (s : DocumentStoreMixin σ) (name : CString) (mode : Mode) (max : ℕ)
    (fromId : UInt64) (filter : DocFilter) (func : υ → UInt64 → Bytes → Status × υ) (u : υ) :
    Status × DocumentStoreMixin σ × υ :=
  if name.bytes = [] then (.InvalidArg, s, u)
  else
    let (status, metadata, s) := s.collGetMetadata name {}
    if status ≠ .OK then (status, s, u)
    else if isSorted σ then
      let r := iter .inclusive max s.db (keyFromId name fromId)
        (collectionFilterWrapper name filter) false
        (fun u key val => func u (idFromKey name.bytes.length key) val) u
      (r.1, s, r.2)
    else
      let r := docIterLoop name mode max filter func (idsFrom fromId metadata.nextId) s.db 0 u
      (r.1, { s with db := r.2.1 }, r.2.2)

end DocumentStoreMixin

/-! ### The order of the keys -/

/-- Words written most significant byte first are in the order of the numbers they hold. -/
theorem reverse_encode_lt {k m n : ℕ} (hm : m < 256 ^ k) (hn : n < 256 ^ k) :
    (encode k m).reverse < (encode k n).reverse ↔ m < n := by
  induction k generalizing m n with
  | zero =>
    rw [pow_zero] at hm hn
    simp [encode, show ¬ m < n by omega]
  | succ k ih =>
    rw [pow_succ] at hm hn
    have hlen : (encode k (m / 256)).reverse.length = (encode k (n / 256)).reverse.length := by
      simp
    have heq : (encode k (m / 256)).reverse = (encode k (n / 256)).reverse ↔ m / 256 = n / 256 := by
      rw [List.reverse_inj]
      exact ⟨encode_inj (by omega) (by omega), fun h => by rw [h]⟩
    have hbyte : [UInt8.ofNat m] < [UInt8.ofNat n] ↔ m % 256 < n % 256 := by
      rw [List.cons_lt_cons_iff]
      simp [UInt8.lt_iff_toNat_lt]
    rw [encode, encode, List.reverse_cons, List.reverse_cons, append_lt_append_iff hlen,
      ih (by omega) (by omega), heq, hbyte]
    omega

/-- The memory of a swapped word is the memory of the word, backwards. -/
theorem encode_ensureBigEndian (id : UInt64) :
    encode 8 (ensureBigEndian id).toNat = (encode 8 id.toNat).reverse := by
  have hpow : ∀ j, 256 ^ j = 2 ^ (8 * j) := fun j => by rw [pow_mul]; rfl
  have hbits : ∀ (x : UInt64) (j : ℕ), x.toNat.testBit j = x.toBitVec.getLsbD j := fun _ _ => rfl
  have hmirror : ∀ i < 8, ∀ b < 8, (b + 8 * i) ^^^ 8 ^^^ 16 ^^^ 32 = b + 8 * (8 - 1 - i) := by
    decide
  refine List.ext_getElem? fun i => ?_
  by_cases hi : i < 8
  · rw [List.getElem?_reverse (by rwa [length_encode]), length_encode, getElem?_encode hi,
      getElem?_encode (by omega), Option.some.injEq]
    apply UInt8.toNat_inj.1
    rw [UInt8.toNat_ofNat', UInt8.toNat_ofNat']
    apply Nat.eq_of_testBit_eq
    intro b
    rw [Nat.testBit_mod_two_pow, Nat.testBit_mod_two_pow, hpow, hpow, Nat.testBit_div_two_pow,
      Nat.testBit_div_two_pow]
    by_cases hb : b < 8
    · rw [hbits, hbits, getLsbD_ensureBigEndian id (by omega), hmirror i hi b hb]
    · simp [hb]
  · rw [List.getElem?_eq_none (by simpa using hi), List.getElem?_eq_none (by simpa using hi)]

/-- The keys of the documents of a collection are in the order of the ids. -/
theorem keyFromId_lt (name : CString) (id id' : UInt64) :
    keyFromId name id < keyFromId name id' ↔ id < id' := by
  have hlt : ∀ x : UInt64, x.toNat < 256 ^ 8 := fun x => x.toNat_lt
  rw [keyFromId, keyFromId, append_lt_append_iff rfl, encode_ensureBigEndian,
    encode_ensureBigEndian, reverse_encode_lt (hlt id) (hlt id'), UInt64.lt_iff_toNat_lt]
  simp [Std.lt_irrefl]

/-! ### What the filter accepts -/

section Filter

variable {name : CString} {filter : DocFilter}

/-- The filter accepts the documents of its collection that the document filter accepts, and
nothing else. -/
theorem check_collectionFilterWrapper (key val : Bytes) :
    (collectionFilterWrapper name filter).check key val = true ↔
      ∃ id, key = keyFromId name id ∧ filter.check name id val = true := by
  have hbase : (keyPrefixFilter .noPrefix (name.bytes ++ [0])).check key [] =
      decide (name.bytes ++ [0] <+: key) :=
    KeySelection.check_filter .noPrefix (.startingWith (name.bytes ++ [0])) key []
  constructor
  · intro h
    simp only [collectionFilterWrapper, hbase] at h
    split_ifs at h with hpre hlen
    simp only [Bool.not_eq_true', decide_eq_false_iff_not, not_not] at hpre
    obtain ⟨t, rfl⟩ := hpre
    refine ⟨_, ?_, h⟩
    have ht : t.length = 8 := by
      rw [List.length_append, List.length_append, List.length_singleton] at hlen
      omega
    have hslice : slice (name.bytes ++ [0] ++ t) (name.bytes.length + 1) 8 = t := by
      simp [slice, ht]
    have hdecode : (UInt64.ofNat (decode t)).toNat = decode t := by
      have hlt := decode_lt t
      rw [ht] at hlt
      exact UInt64.toNat_ofNat_of_lt' hlt
    rw [keyFromId, idFromKey, hslice, ensureBigEndian_ensureBigEndian, hdecode, ← ht, encode_decode]
  · rintro ⟨id, rfl, hid⟩
    have hpre : name.bytes ++ [0] <+: keyFromId name id := List.prefix_append _ _
    simp [collectionFilterWrapper, hbase, hpre, idFromKey_keyFromId, hid]

/-- `CollectionFilterWrapper::check`, where there may be no document filter. -/
def collectionFilterCheck (collName : CString) (docFilter : Option DocFilter) (key val : Bytes) :
    Bool :=
  if !(keyPrefixFilter .noPrefix (collName.bytes ++ [0])).check key [] then false
  else if key.length ≠ collName.bytes.length + 1 + 8 then false
  else
    match docFilter with
    | none => true
    | some filter => filter.check collName (idFromKey collName.bytes.length key) val

theorem collectionFilterCheck_eq (docFilter : Option DocFilter) (key val : Bytes) :
    collectionFilterCheck name docFilter key val =
      (collectionFilterWrapper name (docFilter.getD defaultDocFilter)).check key val := by
  cases docFilter <;> rfl

/-- The keys of the documents of a collection: swapping the bytes of an id twice does nothing, the
id is read back from its key, the keys of a list of ids stand one after the other, and the keys are
in the order of the ids. The filter of the collection asks the document filter about that id, and
rejects all other keys. -/
theorem document_keys (name : CString) :
    Function.Involutive ensureBigEndian ∧
      (∀ id, idFromKey name.bytes.length (keyFromId name id) = id) ∧
      (∀ ids, keysFromIds name ids =
        if (ids.map (keyFromId name)).flatten.length < 2 ^ 64
        then some (ids.map (keyFromId name)).flatten else none) ∧
      (∀ i j, defaultMemCmp (keyFromId name i) (keyFromId name j) = true ↔ i < j) ∧
      (∀ docFilter id val, collectionFilterCheck name docFilter (keyFromId name id) val =
        docFilter.all fun filter => filter.check name id val) ∧
      ∀ docFilter key val, (∀ id, key ≠ keyFromId name id) →
        collectionFilterCheck name docFilter key val = false := by
  refine ⟨ensureBigEndian_involutive, idFromKey_keyFromId name, fun ids => ?_, fun i j => ?_,
    fun docFilter id val => ?_, fun docFilter key val hkey => ?_⟩
  · have hlen : (ids.map (keyFromId name)).flatten.length =
        ids.length * (name.bytes.length + 1 + 8) := by
      rw [List.length_flatten, map_length_keyFromId, sum_idKeySizes]
    rw [hlen]
    split_ifs with hfit
    · exact keysFromIds_of_fit hfit
    · exact if_neg hfit
  · rw [defaultMemCmp_iff, keyFromId_lt]
  · rw [collectionFilterCheck_eq, Bool.eq_iff_iff, check_collectionFilterWrapper]
    constructor
    · rintro ⟨id', hid, hcheck⟩
      obtain rfl := keyFromId_injective name hid
      cases docFilter
      · rfl
      · exact hcheck
    · intro h
      refine ⟨id, rfl, ?_⟩
      cases docFilter
      · rfl
      · exact h
  · rw [collectionFilterCheck_eq, ← Bool.not_eq_true, check_collectionFilterWrapper]
    rintro ⟨id, hid, -⟩
    exact hkey id hid

/-- A filter whose document filter never stops only stops behind its collection. -/
theorem stopSound_collectionFilterWrapper (hstop : ∀ n val, filter.shouldStop n val = false) :
    (collectionFilterWrapper name filter).StopSound (· < ·) := by
  intro key val _ hshould key' val' hlt
  simp only [collectionFilterWrapper, hstop, Bool.or_false] at hshould
  rw [← Bool.not_eq_true, check_collectionFilterWrapper]
  rintro ⟨id, rfl, -⟩
  exact not_prefix_of_shouldStop hshould hlt (List.prefix_append _ _)

end Filter

/-! ### Two databases with listings -/

instance : ListingStore (MapDatabase .default) where
  listKeyValues mode packed s := s.listKeyValues mode packed
  iter mode max s := s.iter mode max
  entries s := s.db.toList
  sorted_entries _ _ := MapDatabase.sorted_toList _
  mem_entries _ _ := Std.ExtTreeMap.mem_toList_iff_getElem?_eq_some
  listKeyValues_eq {mode packed s fromKey filter keys vals ksizes vsizes} _ hs hmode hfrom := by
    have hs : s.migrated = false := hs
    unfold MapDatabase.listKeyValues
    rw [hs, if_neg Bool.false_ne_true, hmode, s.entriesFrom_inclusive hfrom]
  iter_eq {_ mode max s fromKey filter ignoreValues func u} _ hs hmode hfrom := by
    have hs : s.migrated = false := hs
    unfold MapDatabase.iter
    rw [hs, if_neg Bool.false_ne_true, hmode, s.entriesFrom_inclusive hfrom]
  get_slots hs hwait hk hlen := InMemory.getOrConsume_slots hs hwait hk hlen
  get_congr hs ht hwait hk h := InMemory.getOrConsume_congr hs ht hwait hk h

/-- The listings of `DatabaseInterface`, which `UnorderedMapDatabase` does not override for
documents: the mixin does not call them on a database that is not sorted. -/
instance : ListingStore UnorderedMapDatabase where
  listKeyValues _ _ _ _ _ keys ksizes vals vsizes :=
    (.NotSupported, ⟨keys, keys.length, ksizes⟩, ⟨vals, vals.length, vsizes⟩)
  iter _ _ _ _ _ _ _ u := (.NotSupported, u)
  entries _ := []
  sorted_entries h := absurd h Bool.false_ne_true
  mem_entries h := absurd h Bool.false_ne_true
  listKeyValues_eq h := absurd h Bool.false_ne_true
  iter_eq h := absurd h Bool.false_ne_true
  get_slots hs hwait hk hlen := InMemory.getOrConsume_slots hs hwait hk hlen
  get_congr hs ht hwait hk h := InMemory.getOrConsume_congr hs ht hwait hk h

/-! ### The documents of a collection, in order -/

/-- The documents with ids from `fromId` on, in the order of the ids. -/
def documentsFrom (docs : UInt64 → Option Bytes) (fromId : UInt64) : List (UInt64 × Bytes) :=
  (List.range' fromId.toNat (2 ^ 64 - fromId.toNat)).filterMap
    (fun i => (docs (UInt64.ofNat i)).map (fun doc => (UInt64.ofNat i, doc)))

theorem mem_documentsFrom {docs : UInt64 → Option Bytes} {fromId id : UInt64} {doc : Bytes} :
    (id, doc) ∈ documentsFrom docs fromId ↔ fromId ≤ id ∧ docs id = some doc := by
  have hlt := id.toNat_lt
  rw [documentsFrom, List.mem_filterMap, UInt64.le_iff_toNat_le]
  constructor
  · rintro ⟨i, hi, he⟩
    rw [List.mem_range'_1] at hi
    obtain ⟨doc', hdoc, he⟩ := Option.map_eq_some_iff.1 he
    obtain ⟨rfl, rfl⟩ := Prod.mk.inj he
    rw [UInt64.toNat_ofNat_of_lt' (show i < 2 ^ 64 by omega)]
    exact ⟨hi.1, hdoc⟩
  · rintro ⟨hle, hdoc⟩
    refine ⟨id.toNat, List.mem_range'_1.2 ⟨hle, by omega⟩, ?_⟩
    rw [UInt64.ofNat_toNat, hdoc]
    rfl

theorem sorted_documentsFrom (docs : UInt64 → Option Bytes) (fromId : UInt64) :
    Sorted (· < ·) Prod.fst (documentsFrom docs fromId) := by
  have hrange : (List.range' fromId.toNat (2 ^ 64 - fromId.toNat)).Pairwise (· < ·) :=
    List.pairwise_lt_range'
  have hids : (List.range' fromId.toNat (2 ^ 64 - fromId.toNat)).Pairwise
      (fun i j => UInt64.ofNat i < UInt64.ofNat j) := by
    refine hrange.imp_of_mem ?_
    intro i j hi hj hij
    rw [List.mem_range'_1] at hi hj
    rw [UInt64.lt_iff_toNat_lt, UInt64.toNat_ofNat_of_lt' (show i < 2 ^ 64 by omega),
      UInt64.toNat_ofNat_of_lt' (show j < 2 ^ 64 by omega)]
    exact hij
  refine hids.filterMap _ ?_
  intro i j hij p hp q hq
  obtain ⟨doc, -, rfl⟩ := Option.map_eq_some_iff.1 hp
  obtain ⟨doc', -, rfl⟩ := Option.map_eq_some_iff.1 hq
  exact hij

theorem documentsFrom_none (fromId : UInt64) : documentsFrom (fun _ => none) fromId = [] := by
  simp [documentsFrom]

/-- The documents that a document filter accepts. -/
def DocFilter.select (filter : DocFilter) (name : CString) (docs : UInt64 → Option Bytes) :
    UInt64 → Option Bytes :=
  fun id => (docs id).filter (filter.check name id)

theorem DocFilter.select_eq_some {filter : DocFilter} {name : CString}
    {docs : UInt64 → Option Bytes} {id : UInt64} {doc : Bytes} :
    filter.select name docs id = some doc ↔ docs id = some doc ∧ filter.check name id doc = true := by
  rw [select, Option.filter_eq_some_iff]

@[simp] theorem select_defaultDocFilter (name : CString) (docs : UInt64 → Option Bytes) :
    defaultDocFilter.select name docs = docs := by
  funext id
  rw [DocFilter.select]
  cases docs id <;> rfl

/-- Hand documents to a callback, until it fails or `max` of them have been handed over; `i`
counts them, and `max = 0` means no limit. -/
def deliver {υ : Type} (max : ℕ) (func : υ → UInt64 → Bytes → Status × υ) :
    List (UInt64 × Bytes) → ℕ → υ → Status × υ
  | [], _, u => (.OK, u)
  | (id, doc) :: rest, i, u =>
    if max = 0 ∨ i < max then
      match func u id doc with
      | (.OK, u) => deliver max func rest (i + 1) u
      | (status, u) => (status, u)
    else (.OK, u)

namespace DocumentStoreMixin

open DatabaseInterface FiniteMapStore ListingStore

section Sorted

variable {σ : Type} [ListingStore σ] {s : DocumentStoreMixin σ} (name : CString)
  (filter : DocFilter)

/-- A document and its key. -/
def docEntry (name : CString) (p : UInt64 × Bytes) : Bytes × Bytes := (keyFromId name p.1, p.2)

variable (hsorted : isSorted σ = true) (h : Serving s.db)

include hsorted h

/-- The entries from a key on are in the order of the keys. -/
theorem sorted_walk (fromKey : Bytes) :
    Sorted (· < ·) Prod.fst ((entries s.db).dropWhile (fun e => e.1 < fromKey)) :=
  (sorted_entries hsorted h).sublist (List.dropWhile_sublist _)

/-- The walk from the key of an id on accepts the documents of the collection from that id on that
the document filter accepts. -/
theorem accepted_walk (fromId : UInt64) :
    MapDatabase.accepted (collectionFilterWrapper name filter)
        ((entries s.db).dropWhile (fun e => e.1 < keyFromId name fromId)) =
      (documentsFrom (filter.select name (s.view name).docs) fromId).map (docEntry name) := by
  have hmono : (entries s.db).Pairwise (fun a b =>
      decide (b.1 < keyFromId name fromId) → decide (a.1 < keyFromId name fromId)) := by
    refine (sorted_entries hsorted h).imp ?_
    intro a b hab hb
    rw [decide_eq_true_eq] at hb ⊢
    exact Std.lt_trans hab hb
  have hleft : Sorted (· < ·) Prod.fst (MapDatabase.accepted
      (collectionFilterWrapper name filter)
        ((entries s.db).dropWhile (fun e => e.1 < keyFromId name fromId))) :=
    (sorted_walk hsorted h _).sublist List.filter_sublist
  have hright : Sorted (· < ·) Prod.fst
      ((documentsFrom (filter.select name (s.view name).docs) fromId).map (docEntry name)) :=
    List.pairwise_map.2 ((sorted_documentsFrom _ fromId).imp fun hab => (keyFromId_lt name _ _).2 hab)
  refine hleft.eq_of_mem_iff hright ?_
  rintro ⟨key, val⟩
  rw [MapDatabase.accepted, dropWhile_eq_filter hmono, List.mem_filter, List.mem_filter,
    mem_entries hsorted h, check_collectionFilterWrapper, List.mem_map]
  constructor
  · rintro ⟨⟨hval, hfrom⟩, id, rfl, hcheck⟩
    refine ⟨(id, val), mem_documentsFrom.2 ⟨?_, DocFilter.select_eq_some.2 ⟨hval, hcheck⟩⟩, rfl⟩
    simpa [keyFromId_lt] using hfrom
  · rintro ⟨⟨id, doc⟩, hmem, he⟩
    obtain ⟨rfl, rfl⟩ := Prod.mk.inj he
    obtain ⟨hle, hdoc⟩ := mem_documentsFrom.1 hmem
    obtain ⟨hdoc, hcheck⟩ := DocFilter.select_eq_some.1 hdoc
    refine ⟨⟨hdoc, ?_⟩, id, rfl, hcheck⟩
    simpa [keyFromId_lt] using hle

/-- `docIter` on a sorted database hands the documents of the collection that the document filter
accepts to the callback. -/
theorem iter_walk {υ : Type} (hstop : ∀ n val, filter.shouldStop n val = false) (max : ℕ)
    (fromId : UInt64) (func : υ → UInt64 → Bytes → Status × υ) (u : υ) :
    iter .inclusive max s.db (keyFromId name fromId)
        (collectionFilterWrapper name filter) false
        (fun u key val => func u (idFromKey name.bytes.length key) val) u =
      deliver max func (documentsFrom (filter.select name (s.view name).docs) fromId) 0 u := by
  have hne : keyFromId name fromId ≠ [] := List.ne_nil_of_length_pos (by rw [length_keyFromId]; omega)
  have hloop : ∀ (docs : List (UInt64 × Bytes)), (∀ p ∈ docs, filter.check name p.1 p.2 = true) →
      ∀ (i : ℕ) (u : υ), MapDatabase.iterLoop max (collectionFilterWrapper name filter) false
          (fun u key val => func u (idFromKey name.bytes.length key) val)
          (docs.map (docEntry name)) i u = deliver max func docs i u := by
    intro docs
    induction docs with
    | nil => exact fun _ i u => rfl
    | cons p docs ih =>
      obtain ⟨id, doc⟩ := p
      intro hall i u
      obtain ⟨hhead, htail⟩ := List.forall_mem_cons.1 hall
      have hcheck : (collectionFilterWrapper name filter).check (keyFromId name id) doc =
          true := (check_collectionFilterWrapper _ _).2 ⟨id, rfl, hhead⟩
      simp only [List.map_cons, docEntry, MapDatabase.iterLoop, deliver, hcheck, Bool.not_true,
        Bool.false_eq_true, if_false, Bool.false_and, idFromKey_keyFromId]
      split_ifs
      · rcases func u id doc with ⟨status, u'⟩
        cases status <;> first | rfl | exact ih htail (i + 1) u'
      · rfl
  have hchecked : ∀ p ∈ documentsFrom (filter.select name (s.view name).docs) fromId,
      filter.check name p.1 p.2 = true :=
    fun p hp => (DocFilter.select_eq_some.1 (mem_documentsFrom.1 hp).2).2
  rw [iter_eq hsorted h rfl hne, MapDatabase.iterLoop_accepted _
    (stopSound_collectionFilterWrapper hstop) max false (sorted_walk hsorted h _),
    accepted_walk name filter hsorted h, hloop _ hchecked]

omit hsorted h in
/-- The ids that a listing leaves, from the keys it writes to their memory. -/
theorem ids_of_column (packed : Bool) (ids page : List UInt64) (hle : page.length ≤ ids.length)
    (hfit : ids.length * 8 ≤ lastValidSize) :
    let keys := ((Column.start (idsMemory ids)).pushAll packed
      ((page.map (fun id => encode 8 (ensureBigEndian id).toNat)).zip
        (List.replicate ids.length 8))).finish ids.length
    List.zipWith (fun ksize id => if ksize = noMoreKeys then noMoreDocs else ensureBigEndian id)
        keys.sizes (idsOfMemory ids.length keys.buf) =
      page ++ List.replicate (ids.length - page.length) noMoreDocs := by
  have hwords : ∀ l : List UInt64, (l.map (fun id => encode 8 (ensureBigEndian id).toNat)).map
      List.length = List.replicate l.length 8 := by
    intro l
    simp [Function.comp_def, List.map_const']
  have hmemory : (idsMemory ids).length = ids.length * 8 := by
    rw [idsMemory, List.length_flatten, List.map_map]
    simp [Function.comp_def, List.map_const']
  have hexact : ∀ p ∈ (page.map (fun id => encode 8 (ensureBigEndian id).toNat)).zip
      (List.replicate ids.length 8), p.1.length = p.2 := by
    rintro ⟨word, slot⟩ hp
    obtain ⟨hword, hslot⟩ := List.of_mem_zip hp
    obtain ⟨id, -, rfl⟩ := List.mem_map.1 hword
    rw [(List.mem_replicate.1 hslot).2, length_encode]
  intro keys
  have hcolumn := Column.pushAll_exact packed
    (page.map (fun id => encode 8 (ensureBigEndian id).toNat)) (List.replicate ids.length 8)
    (by rw [List.length_map, List.length_replicate]; exact hle) hexact
    (Column.start (idsMemory ids)) rfl (by dsimp only [Column.start]; omega)
    (by rw [hwords]; simp only [Column.start, List.sum_replicate_nat]; omega)
  have hsizes : keys.sizes = List.replicate page.length 8 ++
      List.replicate (ids.length - page.length) noMoreKeys := by
    dsimp only [keys]
    rw [hcolumn, Column.finish, hwords]
    simp [Column.start]
  obtain ⟨rest, hbuf⟩ : ∃ rest, keys.buf =
      (page.map (fun id => encode 8 (ensureBigEndian id).toNat)).flatten ++ rest := by
    dsimp only [keys]
    rw [hcolumn]
    exact ⟨_, rfl⟩
  have hsplit : List.replicate ids.length 8 = (page.map (fun id => encode 8
      (ensureBigEndian id).toNat)).map List.length ++ List.replicate (ids.length - page.length) 8 := by
    rw [hwords, List.replicate_append_replicate]
    congr 1
    omega
  -- in front of the mark the words are the ids, and behind it they are not read
  rw [hsizes, hbuf, idsOfMemory, hsplit, unpack_flatten_append_sizes, List.map_append,
    List.zipWith_append (by simp)]
  congr 1
  · have hread : ∀ id : UInt64, UInt64.ofNat (decode (encode 8 (ensureBigEndian id).toNat)) =
        ensureBigEndian id := by
      intro id
      rw [decode_encode_of_lt (UInt64.toNat_lt _), UInt64.ofNat_toNat]
    have hne : (8 : ℕ) ≠ noMoreKeys := by decide
    clear hsizes hbuf hsplit hcolumn hexact keys hle
    induction page with
    | nil => rfl
    | cons id page ih =>
      simp only [List.map_cons, List.length_cons, List.replicate_succ, List.zipWith_cons_cons,
        hread, if_neg hne, ensureBigEndian_ensureBigEndian, ih]
  · have hrest : ∀ (n : ℕ) (words : List UInt64), words.length = n →
        List.zipWith (fun ksize id => if ksize = noMoreKeys then noMoreDocs else ensureBigEndian id)
          (List.replicate n noMoreKeys) words = List.replicate n noMoreDocs := by
      intro n words hn
      induction words generalizing n with
      | nil => rw [← hn]; rfl
      | cons word words ih =>
        rw [← hn, List.length_cons, List.replicate_succ, List.zipWith_cons_cons, if_pos rfl,
          ih _ rfl, List.replicate_succ]
    exact hrest _ _ (by simp)

/-- `docList` on a sorted database lists a page of the documents of the collection that the document
filter accepts. -/
theorem docListSorted_eq (hstop : ∀ n val, filter.shouldStop n val = false)
    (hdocCopy : ∀ n, filter.docCopy n = copyOut) (packed : Bool) (fromId : UInt64)
    {ids : List UInt64} (documents : Bytes) {docSizes : List ℕ}
    (hlen : docSizes.length = ids.length) (hfit : ids.length * 8 ≤ lastValidSize) :
    let page := (documentsFrom (filter.select name (s.view name).docs) fromId).take ids.length
    let docs := ((Column.start documents).pushAll packed
      ((page.map Prod.snd).zip docSizes)).finish ids.length
    s.docListSorted name packed fromId filter ids documents docSizes =
      (.OK, ⟨page.map Prod.fst ++ List.replicate (ids.length - page.length) noMoreDocs, docs.buf,
        docs.size, docs.sizes⟩) := by
  have hne : keyFromId name fromId ≠ [] := List.ne_nil_of_length_pos (by rw [length_keyFromId]; omega)
  have hcopy : ∀ dst off room key, (collectionFilterWrapper name filter).keyCopy dst off
      room key = copyOut dst off room (key.drop (name.bytes.length + 1)) := by
    intro dst off room key
    have hmode : Mode.has .noPrefix .noPrefix = true := rfl
    simp [collectionFilterWrapper, keyPrefixFilter, hmode]
  have hsound : (collectionFilterWrapper name filter).StopSound (· < ·) :=
    stopSound_collectionFilterWrapper hstop
  have hmode : Mode.has (.inclusive ||| .noPrefix) .ignoreKeys = false := rfl
  have hloop := MapDatabase.listKeyValuesLoop_pushAll hsound hmode hcopy (hdocCopy name) packed
    (sorted_walk hsorted h (keyFromId name fromId))
    (List.replicate ids.length 8) docSizes (by rw [List.length_replicate, hlen])
    (Column.start (idsMemory ids)) (Column.start documents)
  have hwords : ∀ docs : List (UInt64 × Bytes),
      (docs.map (docEntry name)).map (fun e => e.1.drop (name.bytes.length + 1)) =
        (docs.map Prod.fst).map (fun id => encode 8 (ensureBigEndian id).toNat) := by
    intro docs
    simp [docEntry, keyFromId, Function.comp_def]
  have hdocs : ∀ docs : List (UInt64 × Bytes), (docs.map (docEntry name)).map Prod.snd =
      docs.map Prod.snd := by
    intro docs
    simp [docEntry, Function.comp_def]
  rw [accepted_walk name filter hsorted h, hwords, hdocs, ← MapDatabase.zip_take_length (List.map _ _),
    ← MapDatabase.zip_take_length (List.map Prod.snd _) docSizes, List.length_replicate, hlen,
    ← List.map_take, ← List.map_take, ← List.map_take] at hloop
  have hids := ids_of_column packed ids
    (((documentsFrom (filter.select name (s.view name).docs) fromId).take ids.length).map Prod.fst)
    (by rw [List.length_map, List.length_take]; exact Nat.min_le_left _ _) hfit
  rw [List.length_map] at hids
  have hlist : listKeyValues (.inclusive ||| .noPrefix) packed s.db (keyFromId name fromId)
      (collectionFilterWrapper name filter) (idsMemory ids)
      (List.replicate ids.length 8) documents docSizes = _ :=
    listKeyValues_eq hsorted h rfl hne
  simp only [hloop, List.length_replicate, hlen] at hlist
  simp only [docListSorted, hlist, if_true, hids]

end Sorted

/-! ### A listing is a function of the collection -/

/-- The arrays of a listing in the caller's memory: as many sizes as ids. -/
structure DocSlots where
  ids : List UInt64
  docSizes : List ℕ
  length_docSizes : docSizes.length = ids.length
  ids_fit : ids.length * 8 ≤ lastValidSize

/-- A page of documents in the caller's memory. -/
def listing (packed : Bool) (slots : DocSlots) (documents : Bytes) (page : List (UInt64 × Bytes)) :
    DocListOutput :=
  let docs := ((Column.start documents).pushAll packed
    ((page.map Prod.snd).zip slots.docSizes)).finish slots.ids.length
  let ids := page.map Prod.fst ++ List.replicate (slots.ids.length - page.length) noMoreDocs
  ⟨ids, docs.buf, docs.size, docs.sizes⟩

end DocumentStoreMixin

namespace Collection

/-- What `docList` returns for a collection. -/
def list (c : Collection) (packed : Bool) (fromId : UInt64) (slots : DocumentStoreMixin.DocSlots)
    (documents : Bytes) : Status × DocListOutput :=
  match c.metadata with
  | none => (.NotFound, ⟨slots.ids, documents, documents.length, slots.docSizes⟩)
  | some _ => (.OK, DocumentStoreMixin.listing packed slots documents
      ((documentsFrom c.docs fromId).take slots.ids.length))

/-- What `docIter` returns for a collection. -/
def iter {υ : Type} (c : Collection) (max : ℕ) (fromId : UInt64)
    (func : υ → UInt64 → Bytes → Status × υ) (u : υ) : Status × υ :=
  match c.metadata with
  | none => (.NotFound, u)
  | some _ => deliver max func (documentsFrom c.docs fromId) 0 u

end Collection

namespace DocumentStoreMixin

open DatabaseInterface FiniteMapStore ListingStore

section

variable {σ : Type} [ListingStore σ] {s : DocumentStoreMixin σ} {name : CString}

/-- `docList` with the default document filter, on a sorted database. -/
theorem docList_sorted (hsorted : isSorted σ = true) (hsupports : supportsMode σ .noPrefix = true)
    (h : Coherent s) (hname : name.bytes ≠ []) (mode : Mode) (packed : Bool) (fromId : UInt64)
    (slots : DocSlots) (documents : Bytes) :
    ∃ t, s.docList name mode packed fromId defaultDocFilter slots.ids documents slots.docSizes =
        (((s.view name).list packed fromId slots documents).1,
          ((s.view name).list packed fromId slots documents).2, t) ∧
      Coherent t ∧ t.view = s.view := by
  unfold docList Collection.list
  cases hm : (s.view name).metadata with
  | none =>
    obtain ⟨t, hget, ht, hview⟩ := collGetMetadata_of_none h hname hm {}
    exact ⟨t, by simp [hname, hsupports, hget], ht, hview⟩
  | some m =>
    obtain ⟨t, hget, ht, hview⟩ := collGetMetadata_of_some h hname hm {}
    have hlist := docListSorted_eq name defaultDocFilter hsorted ht.serving (fun _ _ => rfl)
      (fun _ => rfl) packed fromId documents slots.length_docSizes slots.ids_fit
    rw [hview, select_defaultDocFilter] at hlist
    exact ⟨t, by simp [hname, hsupports, hget, hsorted, hlist, listing], ht, hview⟩

/-- `docIter` with the default document filter, on a sorted database. -/
theorem docIter_sorted {υ : Type} (hsorted : isSorted σ = true) (h : Coherent s)
    (hname : name.bytes ≠ []) (mode : Mode) (max : ℕ) (fromId : UInt64)
    (func : υ → UInt64 → Bytes → Status × υ) (u : υ) :
    ∃ t, s.docIter name mode max fromId defaultDocFilter func u =
        (((s.view name).iter max fromId func u).1, t, ((s.view name).iter max fromId func u).2) ∧
      Coherent t ∧ t.view = s.view := by
  unfold docIter Collection.iter
  cases hm : (s.view name).metadata with
  | none =>
    obtain ⟨t, hget, ht, hview⟩ := collGetMetadata_of_none h hname hm {}
    exact ⟨t, by simp [hname, hget], ht, hview⟩
  | some m =>
    obtain ⟨t, hget, ht, hview⟩ := collGetMetadata_of_some h hname hm {}
    have hiter := iter_walk name defaultDocFilter hsorted ht.serving (fun _ _ => rfl) max fromId
      func u
    rw [hview, select_defaultDocFilter] at hiter
    exact ⟨t, by simp [hname, hget, hsorted, hiter], ht, hview⟩

/-- What `docLoad` returns for a collection depends on that collection alone. -/
theorem docLoad_congr {t : DocumentStoreMixin σ} (hs : Coherent s) (ht : Coherent t)
    (hview : s.view name = t.view name) (hname : name.bytes ≠ []) {mode : Mode}
    (hwait : mode.has .wait = false) (packed : Bool) (ids : List UInt64) (documents : Bytes)
    (sizes : List ℕ) :
    (s.docLoad name mode packed ids documents sizes).map (fun r => (r.1, r.2.1)) =
      (t.docLoad name mode packed ids documents sizes).map (fun r => (r.1, r.2.1)) := by
  unfold docLoad
  rw [if_neg hname, if_neg hname, collExistsImpl_spec hs hname, collExistsImpl_spec ht hname, hview]
  cases hm : (t.view name).metadata with
  | none => simp
  | some m =>
    cases hkeys : keysFromIds name ids with
    | none => simp
    | some keys =>
      obtain ⟨hfit, rfl⟩ := keysFromIds_eq hkeys
      have hsame : ∀ k ∈ unpack (ids.map (keyFromId name)).flatten (idKeySizes name ids),
          contents s.db k = contents t.db k := by
        intro k hk
        rw [unpack_keys] at hk
        obtain ⟨id, -, rfl⟩ := List.mem_map.1 hk
        exact congrFun (congrArg Collection.docs hview) id
      have hget : (get mode packed s.db (ids.map (keyFromId name)).flatten (idKeySizes name ids)
          documents sizes).status = _ ∧ _ :=
        get_congr hs.serving ht.serving hwait (packed_keys hfit) hsame
      simp [hget.1, hget.2]

end

end DocumentStoreMixin

end Yokan
