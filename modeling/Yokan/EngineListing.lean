import Yokan.Engines
import Yokan.MapListing
import Yokan.Library.Cursor

/-!
# Yokan: listing in LevelDB and LMDB

`listKeys`, `listKeyValues` and `iter` of `leveldb.cpp` and `lmdb.cpp`. Both go through a cursor of
their library, which is outside the repository: `LevelDBIterator` and `LMDBCursor` collect its
calls, and `Traverses` says of each that it runs through the stored pairs in the order of their
keys.

* `listKeysBody`, `listKeyValuesBody`, `iterBody`: what the loops do with an entry;
* `LevelDBDatabase`, `LMDBDatabase`: the functions, with a bound on the passes of their loops.
-/

namespace Yokan

open Buffer Paging Cursor

/-! ### The bodies of the loops -/

/-- `for(unsigned i = 0; i < max; i++) sizes[i] = YOKAN_NO_MORE_KEYS;` -/
def markLoop (max : ℕ) : ℕ → UInt32 → List ℕ → Option (List ℕ)
  | 0, _, _ => none
  | fuel + 1, i, sizes =>
    if i.toNat < max then markLoop max fuel (i + 1) (sizes.set i.toNat noMoreKeys)
    else some sizes

/-- The body of the loop of `listKeys`. A packed key that does not fit ends the loop. -/
def listKeysBody (mode : Mode) (packed : Bool) (filter : KeyValueFilter) :
    Body (Bytes × Bytes) ℕ Column := fun (key, val) slot slots keys =>
  if !filter.check key val then
    if filter.shouldStop key val then .done keys else .skip
  else if packed then
    let (size, buf) := keyCopy mode slots.isEmpty filter key keys.buf keys.offset
      (keys.buf.length - keys.offset)
    if size = sizeTooSmall then
      .done { keys with
        buf
        sizes := keys.sizes ++ List.replicate (slots.length + 1) sizeTooSmall }
    else
      .fill { keys with buf, offset := keys.offset + size, sizes := keys.sizes ++ [size] }
  else .fill (keys.push false slot (keyCopy mode slots.isEmpty filter key))

/-- The body of the loop of `listKeyValues`. The loop ends once neither packed keys nor packed
values fit. -/
def listKeyValuesBody (mode : Mode) (packed : Bool) (filter : KeyValueFilter) :
    Body (Bytes × Bytes) (ℕ × ℕ) (Column × Column) := fun (key, val) slot slots (keys, vals) =>
  if !filter.check key val then
    if filter.shouldStop key val then .done (keys, vals) else .skip
  else
    let keys := keys.push packed slot.1 (keyCopy mode slots.isEmpty filter key)
    let vals := vals.push packed slot.2 (fun dst off room => filter.valCopy dst off room val)
    if packed ∧ vals.tooSmall ∧ keys.tooSmall then
      let rest := List.replicate slots.length sizeTooSmall
      .done ({ keys with sizes := keys.sizes ++ rest }, { vals with sizes := vals.sizes ++ rest })
    else .fill (keys, vals)

/-- What the body of the loop of `iter` does with an entry. -/
def iterBody {υ : Type} (filter : KeyValueFilter) (ignoreValues : Bool)
    (func : υ → Bytes → Bytes → Status × υ) (key val : Bytes) (u : υ) : Pass (Status × υ) :=
  if !filter.check key val then
    if filter.shouldStop key val then .done (.OK, u) else .skip
  else
    match func u key (if ignoreValues then [] else val) with
    | (.OK, u) => .fill (.OK, u)
    | (status, u) => .done (status, u)

/-! ### LevelDB -/

/-- The calls on a LevelDB iterator. -/
class LevelDBIterator (δ : Type) (ι : outParam Type) where
  newIterator : δ → ι
  seekToFirst : ι → ι
  seek : Bytes → ι → ι
  valid : ι → Bool
  next : ι → ι
  key : ι → Bytes
  value : ι → Bytes

/-- An iterator runs through the entries of a database: `rest it` is what is left from the position
of `it` on, and `Seek` goes to the least key that is not less than the given one. -/
structure LevelDBIterator.Traverses {δ ι : Type} [LevelDBIterator δ ι] (db : δ)
    (entries : List (Bytes × Bytes)) (rest : ι → List (Bytes × Bytes)) : Prop where
  runs : Runs (valid δ) (fun it => (key δ it, value δ it)) (next δ) rest
  seekToFirst_eq : rest (seekToFirst δ (newIterator db)) = entries
  seek_eq (fromKey : Bytes) :
    rest (seek δ fromKey (newIterator db)) = entries.dropWhile (fun e => e.1 < fromKey)

namespace LevelDBDatabase

open LevelDBIterator

variable {δ ι : Type} [LevelDBIterator δ ι]

/-- The iterator where a listing starts, unless nothing is stored at or behind `fromKey`. -/
def start (db : δ) (inclusive : Bool) (fromKey : Bytes) : Option ι :=
  if fromKey.length = 0 then some (seekToFirst δ (newIterator db))
  else
    let it := seek δ fromKey (newIterator db)
    if !valid δ it then none
    else if !inclusive && key δ it == fromKey then some (next δ it)
    else some it

/-- `LevelDBDatabase::listKeys`. -/
def listKeys (fuel : ℕ) (mode : Mode) (packed : Bool) (s : LevelDBDatabase δ) (fromKey : Bytes)
    (filter : KeyValueFilter) (keys : Bytes) (keySizes : List ℕ) : Option (Status × ColumnOutput) :=
  if s.migrated then some (.Migrated, ⟨keys, keys.length, keySizes⟩)
  else
    match start s.db (mode.has .inclusive) fromKey with
    | none =>
      (markLoop keySizes.length fuel 0 keySizes).map fun sizes => (.OK, ⟨keys, 0, sizes⟩)
    | some it =>
      (loop (valid δ) (fun it => (key δ it, value δ it)) (next δ) (listKeysBody mode packed filter)
        fuel it keySizes (Column.start keys)).map fun col => (.OK, col.finish keySizes.length)

/-- `LevelDBDatabase::listKeyValues`. -/
def listKeyValues (fuel : ℕ) (mode : Mode) (packed : Bool) (s : LevelDBDatabase δ)
    (fromKey : Bytes) (filter : KeyValueFilter) (keys : Bytes) (keySizes : List ℕ) (vals : Bytes)
    (valSizes : List ℕ) : Option (Status × ColumnOutput × ColumnOutput) :=
  if s.migrated then
    some (.Migrated, ⟨keys, keys.length, keySizes⟩, ⟨vals, vals.length, valSizes⟩)
  else
    match start s.db (mode.has .inclusive) fromKey with
    | none => do
      let ksizes ← markLoop keySizes.length fuel 0 keySizes
      let vsizes ← markLoop keySizes.length fuel 0 valSizes
      some (.OK, ⟨keys, 0, ksizes⟩, ⟨vals, 0, vsizes⟩)
    | some it =>
      (loop (valid δ) (fun it => (key δ it, value δ it)) (next δ)
        (listKeyValuesBody mode packed filter) fuel it (keySizes.zip valSizes)
        (Column.start keys, Column.start vals)).map fun cols =>
          (.OK, cols.1.finish keySizes.length, cols.2.finish valSizes.length)

/-- The loop of `iter`. -/
def iterLoop {υ : Type} (max : ℕ) (filter : KeyValueFilter) (ignoreValues : Bool)
    (func : υ → Bytes → Bytes → Status × υ) : ℕ → ι → ℕ → υ → Option (Status × υ)
  | 0, _, _, _ => none
  | fuel + 1, it, i, u =>
    if valid δ it && (max = 0 || i < max) then
      match iterBody filter ignoreValues func (key δ it) (value δ it) u with
      | .done r => some r
      | .skip => iterLoop max filter ignoreValues func fuel (next δ it) i u
      | .fill r => iterLoop max filter ignoreValues func fuel (next δ it) (i + 1) r.2
    else some (.OK, u)

/-- `LevelDBDatabase::iter`. -/
def iter {υ : Type} (fuel : ℕ) (mode : Mode) (max : ℕ) (s : LevelDBDatabase δ) (fromKey : Bytes)
    (filter : KeyValueFilter) (ignoreValues : Bool) (func : υ → Bytes → Bytes → Status × υ)
    (u : υ) : Option (Status × υ) :=
  if s.migrated then some (.Migrated, u)
  else
    match start s.db (mode.has .inclusive) fromKey with
    | none => some (.OK, u)
    | some it => iterLoop (δ := δ) max filter ignoreValues func fuel it 0 u

end LevelDBDatabase

/-! ### LMDB -/

/-- The operations of `mdb_cursor_get` that the listings use. -/
inductive CursorOp
  | first
  | setRange (key : Bytes)
  | next
  | getCurrent

/-- What `mdb_cursor_get` reports, with other codes than `MDB_NOTFOUND` converted to a status. -/
inductive CursorResult
  | success (key val : Bytes)
  | notFound
  | failed (status : Status)

/-- The calls on an LMDB cursor. -/
class LMDBCursor (δ : Type) (κ : outParam Type) where
  txnBegin : δ → Status
  cursorOpen : δ → Status × κ
  cursorGet : κ → CursorOp → CursorResult × κ

/-- What a cursor reports that gets to the first of some entries. -/
def CursorResult.ofEntries : List (Bytes × Bytes) → CursorResult
  | [] => .notFound
  | (key, val) :: _ => .success key val

/-- A cursor runs through the entries of a database: a cursor with `rest cursor = e :: es` is placed
on `e`. Of the others, which are not placed or at the end, nothing is asked. -/
structure LMDBCursor.Traverses {δ κ : Type} [LMDBCursor δ κ] (db : δ)
    (entries : List (Bytes × Bytes)) (rest : κ → List (Bytes × Bytes)) : Prop where
  txnBegin_eq : txnBegin db = .OK
  cursorOpen_eq : (cursorOpen db).1 = .OK
  first_eq :
    let r := cursorGet δ (cursorOpen db).2 .first
    r.1 = .ofEntries entries ∧ rest r.2 = entries
  setRange_eq (fromKey : Bytes) :
    let r := cursorGet δ (cursorOpen db).2 (.setRange fromKey)
    r.1 = .ofEntries (entries.dropWhile (fun e => e.1 < fromKey)) ∧
      rest r.2 = entries.dropWhile (fun e => e.1 < fromKey)
  getCurrent_eq {cursor : κ} {e : Bytes × Bytes} {es : List (Bytes × Bytes)}
    (hrest : rest cursor = e :: es) :
    let r := cursorGet δ cursor .getCurrent
    r.1 = .success e.1 e.2 ∧ rest r.2 = e :: es
  next_eq {cursor : κ} {e : Bytes × Bytes} {es : List (Bytes × Bytes)}
    (hrest : rest cursor = e :: es) :
    let r := cursorGet δ cursor .next
    r.1 = .ofEntries es ∧ rest r.2 = es

namespace LMDBDatabase

open LMDBCursor

variable {δ κ : Type} [LMDBCursor δ κ]

/-- Where a listing starts. -/
inductive Start (κ : Type)
  | placed (cursor : κ)
  | empty
  | failed (status : Status)

/-- The beginning of the listings: the transaction, the cursor, and its first position. -/
def start (db : δ) (inclusive : Bool) (fromKey : Bytes) : Start κ :=
  if txnBegin db ≠ .OK then .failed (txnBegin db)
  else if (cursorOpen db).1 ≠ .OK then .failed (cursorOpen db).1
  else if fromKey.length = 0 then
    match cursorGet δ (cursorOpen db).2 .first with
    | (.success _ _, cursor) => .placed cursor
    | (.notFound, _) => .empty
    | (.failed status, _) => .failed status
  else
    match cursorGet δ (cursorOpen db).2 (.setRange fromKey) with
    | (.notFound, _) => .empty
    | (.failed status, _) => .failed status
    | (.success key _, cursor) =>
      if !inclusive && (key.length = fromKey.length && memcmp key fromKey == .eq) then
        match cursorGet δ cursor .next with
        | (.success _ _, cursor) => .placed cursor
        | (.notFound, _) => .failed .NotFound
        | (.failed status, _) => .failed status
      else .placed cursor

/-- The loop of the listings: the status of a call that failed, and what is filled. -/
def cursorLoop {τ σ : Type} (body : Body (Bytes × Bytes) τ σ) :
    ℕ → κ → List τ → σ → Option (Status × σ)
  | 0, _, _, _ => none
  | _ + 1, _, [], s => some (.OK, s)
  | fuel + 1, cursor, slot :: slots, s =>
    match cursorGet δ cursor .getCurrent with
    | (.notFound, _) => some (.OK, s)
    | (.failed status, _) => some (status, s)
    | (.success key val, cursor) =>
      match body (key, val) slot slots s with
      | .done s => some (.OK, s)
      | .skip =>
        match cursorGet δ cursor .next with
        | (.success _ _, cursor) => cursorLoop body fuel cursor (slot :: slots) s
        | (.notFound, _) => some (.OK, s)
        | (.failed status, _) => some (status, s)
      | .fill s =>
        match cursorGet δ cursor .next with
        | (.success _ _, cursor) => cursorLoop body fuel cursor slots s
        | (.notFound, _) => some (.OK, s)
        | (.failed status, _) => some (status, s)

/-- The slots of a listing that failed: the sizes behind those filled are the caller's. -/
def unfinished (col : Column) (sizes : List ℕ) : ColumnOutput :=
  ⟨col.buf, col.buf.length, col.sizes ++ sizes.drop col.sizes.length⟩

/-- `LMDBDatabase::listKeys`. -/
def listKeys (fuel : ℕ) (mode : Mode) (packed : Bool) (s : LMDBDatabase δ) (fromKey : Bytes)
    (filter : KeyValueFilter) (keys : Bytes) (keySizes : List ℕ) : Option (Status × ColumnOutput) :=
  if s.migrated then some (.Migrated, ⟨keys, keys.length, keySizes⟩)
  else
    match start s.db (mode.has .inclusive) fromKey with
    | .failed status => some (status, ⟨keys, keys.length, keySizes⟩)
    | .empty =>
      (markLoop keySizes.length fuel 0 keySizes).map fun sizes => (.OK, ⟨keys, 0, sizes⟩)
    | .placed cursor =>
      (cursorLoop (δ := δ) (listKeysBody mode packed filter) fuel cursor keySizes
        (Column.start keys)).map fun r =>
          (r.1, if r.1 = .OK then r.2.finish keySizes.length else unfinished r.2 keySizes)

/-- `LMDBDatabase::listKeyValues`. -/
def listKeyValues (fuel : ℕ) (mode : Mode) (packed : Bool) (s : LMDBDatabase δ) (fromKey : Bytes)
    (filter : KeyValueFilter) (keys : Bytes) (keySizes : List ℕ) (vals : Bytes)
    (valSizes : List ℕ) : Option (Status × ColumnOutput × ColumnOutput) :=
  if s.migrated then
    some (.Migrated, ⟨keys, keys.length, keySizes⟩, ⟨vals, vals.length, valSizes⟩)
  else
    match start s.db (mode.has .inclusive) fromKey with
    | .failed status => some (status, ⟨keys, keys.length, keySizes⟩, ⟨vals, vals.length, valSizes⟩)
    | .empty => do
      let ksizes ← markLoop keySizes.length fuel 0 keySizes
      let vsizes ← markLoop keySizes.length fuel 0 valSizes
      some (.OK, ⟨keys, 0, ksizes⟩, ⟨vals, 0, vsizes⟩)
    | .placed cursor =>
      (cursorLoop (δ := δ) (listKeyValuesBody mode packed filter) fuel cursor
        (keySizes.zip valSizes) (Column.start keys, Column.start vals)).map fun r =>
          (r.1,
            if r.1 = .OK then r.2.1.finish keySizes.length else unfinished r.2.1 keySizes,
            if r.1 = .OK then r.2.2.finish valSizes.length else unfinished r.2.2 valSizes)

/-- The loop of `iter`. -/
def iterLoop {υ : Type} (max : ℕ) (filter : KeyValueFilter) (ignoreValues : Bool)
    (func : υ → Bytes → Bytes → Status × υ) : ℕ → κ → ℕ → υ → Option (Status × υ)
  | 0, _, _, _ => none
  | fuel + 1, cursor, i, u =>
    if max = 0 || i < max then
      match cursorGet δ cursor .getCurrent with
      | (.notFound, _) => some (.OK, u)
      | (.failed status, _) => some (status, u)
      | (.success key val, cursor) =>
        match iterBody filter ignoreValues func key val u with
        | .done r => some r
        | .skip =>
          match cursorGet δ cursor .next with
          | (.success _ _, cursor) => iterLoop max filter ignoreValues func fuel cursor i u
          | (.notFound, _) => some (.OK, u)
          | (.failed status, _) => some (status, u)
        | .fill r =>
          match cursorGet δ cursor .next with
          | (.success _ _, cursor) => iterLoop max filter ignoreValues func fuel cursor (i + 1) r.2
          | (.notFound, _) => some (.OK, r.2)
          | (.failed status, _) => some (status, r.2)
    else some (.OK, u)

/-- `LMDBDatabase::iter`. -/
def iter {υ : Type} (fuel : ℕ) (mode : Mode) (max : ℕ) (s : LMDBDatabase δ) (fromKey : Bytes)
    (filter : KeyValueFilter) (ignoreValues : Bool) (func : υ → Bytes → Bytes → Status × υ)
    (u : υ) : Option (Status × υ) :=
  if s.migrated then some (.Migrated, u)
  else
    match start s.db (mode.has .inclusive) fromKey with
    | .failed status => some (status, u)
    | .empty => some (.OK, u)
    | .placed cursor => iterLoop (δ := δ) max filter ignoreValues func fuel cursor 0 u

end LMDBDatabase

end Yokan
