import Yokan.Common
import Yokan.Library.Buffer
import Yokan.Library.LittleEndian

/-!
# Yokan: the serializers of lists and raw data

The hand-written serializers of `src/common/types.h`. A message is encoded by appending to it and
decoded from its front; the pointers of a target are `NULL` or point to a buffer whose bytes, and
with them its real length, are part of the model. Reading or writing beyond a buffer is a fault, the
result `none`.

* `HgProc`, `Malloc`: what the serializers rely on;
* `Uint64List.hgProcEncode`, `Uint64List.hgProcDecode`: `hg_proc_uint64_list`;
* `RawData.hgProcEncode`, `RawData.hgProcDecode`: `hg_proc_raw_data`;
* `serializers_sound_iff`: round trips return what was encoded, and a decoded target holds what the
  message announced, unless the number of bytes of an allocated list wraps around.
-/

namespace Yokan

open Buffer

/-- `hg_return_t`. -/
inductive HgReturn
  | SUCCESS
  | NOMEM
  | OTHER (code : ℕ)
  deriving DecidableEq, Repr

/-- `hg_proc_raw`: it copies exactly the given number of bytes to the end of a message, or from its
front, or fails. -/
structure HgProc where
  encode : Bytes → Bytes → Except HgReturn Bytes
  decode : ℕ → Bytes → Except HgReturn (Bytes × Bytes)
  encode_ok : ∀ {msg bytes msg' : Bytes}, encode msg bytes = .ok msg' → msg' = msg ++ bytes
  encode_error : ∀ {msg bytes : Bytes} {ret : HgReturn},
    encode msg bytes = .error ret → ret ≠ .SUCCESS
  decode_of_le : ∀ {n : ℕ} {msg : Bytes}, n ≤ msg.length →
    decode n msg = .ok (msg.take n, msg.drop n)
  decode_of_lt : ∀ {n : ℕ} {msg : Bytes}, msg.length < n →
    ∃ ret, ret ≠ .SUCCESS ∧ decode n msg = .error ret

/-- `malloc`: a buffer of exactly the given number of bytes, or `NULL`. -/
structure Malloc where
  run : UInt64 → Option Bytes
  length_run : ∀ {n : UInt64} {buf : Bytes}, run n = some buf → buf.length = n.toNat

/-- A message of bytes without a limit. -/
def HgProc.bytes : HgProc where
  encode msg bytes := .ok (msg ++ bytes)
  decode n msg := if n ≤ msg.length then .ok (msg.take n, msg.drop n) else .error (.OTHER 0)
  encode_ok h := (Except.ok.inj h).symm
  encode_error h := nomatch h
  decode_of_le h := if_pos h
  decode_of_lt h := ⟨.OTHER 0, by decide, if_neg (Nat.not_le.2 h)⟩

/-- A memory that is never exhausted. -/
def Malloc.zeroed : Malloc where
  run n := some (List.replicate n.toNat 0)
  length_run h := by
    rw [← Option.some.inj h, List.length_replicate]

/-! ### The bytes behind a pointer -/

/-- The bytes that may be accessed through a pointer. -/
def accessible (data : Option Bytes) : Bytes := data.getD []

@[simp] theorem accessible_none : accessible none = [] := rfl

@[simp] theorem accessible_some (buf : Bytes) : accessible (some buf) = buf := rfl

/-- `hg_proc_raw` on `HG_ENCODE`, with the bytes behind a pointer. -/
def hgProcRawEncode (p : HgProc) (data : Option Bytes) (n : UInt64) (msg : Bytes) :
    Option (HgReturn × Bytes) :=
  if (accessible data).length < n.toNat then none
  else
    match p.encode msg ((accessible data).take n.toNat) with
    | .ok msg => some (.SUCCESS, msg)
    | .error ret => some (ret, msg)

/-- `hg_proc_raw` on `HG_DECODE`, into the buffer behind a pointer: the return code, the buffer and
the rest of the message. -/
def hgProcRawDecode (p : HgProc) (data : Option Bytes) (n : UInt64) (msg : Bytes) :
    Option (HgReturn × Option Bytes × Bytes) :=
  match p.decode n.toNat msg with
  | .error ret => some (ret, data, msg)
  | .ok (bytes, msg) =>
    if (accessible data).length < n.toNat then none
    else some (.SUCCESS, data.map (blit · 0 bytes), msg)

/-- `hg_proc_hg_size_t` on `HG_ENCODE`, that is, `hg_proc_raw` on the bytes of the number. -/
def hgProcSizeEncode (p : HgProc) (size : UInt64) (msg : Bytes) : Except HgReturn Bytes :=
  p.encode msg (LittleEndian.encode 8 size.toNat)

/-- `hg_proc_hg_size_t` on `HG_DECODE`. -/
def hgProcSizeDecode (p : HgProc) (msg : Bytes) : Except HgReturn (UInt64 × Bytes) :=
  (p.decode 8 msg).map fun r => (UInt64.ofNat (LittleEndian.decode r.1), r.2)

/-! ### The serializers -/

/-- A number, and the bytes that it stands for. -/
def hgProcCountedEncode (p : HgProc) (size : UInt64) (data : Option Bytes) (n : UInt64)
    (msg : Bytes) : Option (HgReturn × Bytes) :=
  match hgProcSizeEncode p size msg with
  | .error ret => some (ret, msg)
  | .ok msg => hgProcRawEncode p data n msg

/-- `uint64_list`. -/
structure Uint64List where
  count : UInt64
  ids : Option Bytes

/-- `raw_data`. -/
structure RawData where
  size : UInt64
  data : Option Bytes

namespace Uint64List

/-- `hg_proc_uint64_list` on `HG_ENCODE`. -/
def hgProcEncode (p : HgProc) (list : Uint64List) (msg : Bytes) : Option (HgReturn × Bytes) :=
  hgProcCountedEncode p list.count list.ids (list.count * 8) msg

/-- `hg_proc_uint64_list` on `HG_DECODE`. -/
def hgProcDecode (p : HgProc) (malloc : Malloc) (list : Uint64List) (msg : Bytes) :
    Option (HgReturn × Uint64List × Bytes) :=
  match hgProcSizeDecode p msg with
  | .error ret => some (ret, list, msg)
  | .ok (count, msg) =>
    let list := if list.ids = none then ⟨count, malloc.run (count * 8)⟩ else list
    if count ≤ list.count then
      (hgProcRawDecode p list.ids (count * 8) msg).map fun r => (r.1, ⟨count, r.2.1⟩, r.2.2)
    else some (.NOMEM, list, msg)

end Uint64List

namespace RawData

/-- `hg_proc_raw_data` on `HG_ENCODE`. -/
def hgProcEncode (p : HgProc) (raw : RawData) (msg : Bytes) : Option (HgReturn × Bytes) :=
  hgProcCountedEncode p raw.size raw.data raw.size msg

/-- `hg_proc_raw_data` on `HG_DECODE`. The size of a buffer of the caller stays as it is. -/
def hgProcDecode (p : HgProc) (malloc : Malloc) (raw : RawData) (msg : Bytes) :
    Option (HgReturn × RawData × Bytes) :=
  match hgProcSizeDecode p msg with
  | .error ret => some (ret, raw, msg)
  | .ok (size, msg) =>
    let raw := if raw.data = none then ⟨size, malloc.run size⟩ else raw
    if size ≤ raw.size then
      (hgProcRawDecode p raw.data size msg).map fun r => (r.1, ⟨raw.size, r.2.1⟩, r.2.2)
    else some (.NOMEM, raw, msg)

end RawData

/-! ### What the bytes of a message become -/

/-- The number at the front of a message. -/
def announced (msg : Bytes) : UInt64 := UInt64.ofNat (LittleEndian.decode (msg.take 8))

/-- The buffer behind a pointer starts with the first `n` of the given bytes. -/
def Carries (data : Option Bytes) (n : ℕ) (bytes : Bytes) : Prop :=
  n ≤ (accessible data).length ∧ n ≤ bytes.length ∧ (accessible data).take n = bytes.take n

/-- A buffer of the caller is still there, unchanged from its capacity on. -/
def KeptFrom (capacity : ℕ) (data data' : Option Bytes) : Prop :=
  ∀ buf, data = some buf →
    ∃ buf', data' = some buf' ∧ buf'.length = buf.length ∧ buf'.drop capacity = buf.drop capacity

theorem KeptFrom.refl (capacity : ℕ) (data : Option Bytes) : KeptFrom capacity data data :=
  fun buf h => ⟨buf, h, rfl, rfl⟩

section Proc

variable {p : HgProc} {malloc : Malloc} {data : Option Bytes} {n : UInt64} {msg : Bytes}

theorem hgProcSizeDecode_of_le (h : 8 ≤ msg.length) :
    hgProcSizeDecode p msg = .ok (announced msg, msg.drop 8) := by
  rw [hgProcSizeDecode, p.decode_of_le h]
  rfl

theorem hgProcSizeDecode_of_lt (h : msg.length < 8) :
    ∃ ret, ret ≠ .SUCCESS ∧ hgProcSizeDecode p msg = .error ret := by
  obtain ⟨ret, hret, hdecode⟩ := p.decode_of_lt h
  refine ⟨ret, hret, ?_⟩
  rw [hgProcSizeDecode, hdecode]
  rfl

/-- The size at the front of an encoded message is the encoded one. -/
theorem announced_encode (size : UInt64) (rest : Bytes) :
    announced (LittleEndian.encode 8 size.toNat ++ rest) = size := by
  have hlen : (LittleEndian.encode 8 size.toNat).length = 8 := LittleEndian.length_encode 8 _
  have hsize : size.toNat < 256 ^ 8 := size.toNat_lt
  rw [announced, List.take_left' hlen, LittleEndian.decode_encode_of_lt hsize, UInt64.ofNat_toNat]

theorem hgProcRawDecode_of_le (hmsg : n.toNat ≤ msg.length)
    (hdata : n.toNat ≤ (accessible data).length) :
    hgProcRawDecode p data n msg =
      some (.SUCCESS, data.map (blit · 0 (msg.take n.toNat)), msg.drop n.toNat) := by
  rw [hgProcRawDecode, p.decode_of_le hmsg]
  exact if_neg (Nat.not_lt.2 hdata)

/-- Copying into a buffer that is too small. -/
theorem hgProcRawDecode_overrun (hmsg : n.toNat ≤ msg.length)
    (hdata : (accessible data).length < n.toNat) : hgProcRawDecode p data n msg = none := by
  rw [hgProcRawDecode, p.decode_of_le hmsg]
  exact if_pos hdata

theorem hgProcRawDecode_of_lt (hmsg : msg.length < n.toNat) :
    ∃ ret, ret ≠ .SUCCESS ∧ hgProcRawDecode p data n msg = some (ret, data, msg) := by
  obtain ⟨ret, hret, hdecode⟩ := p.decode_of_lt hmsg
  refine ⟨ret, hret, ?_⟩
  rw [hgProcRawDecode, hdecode]

/-- The bytes that have been copied are at the start of the buffer. -/
theorem carries_blit {bytes : Bytes} {k : ℕ} (hbytes : k ≤ bytes.length)
    (hdata : k ≤ (accessible data).length) :
    Carries (data.map (blit · 0 (bytes.take k))) k bytes := by
  have hlen : (bytes.take k).length = k := List.length_take_of_le hbytes
  cases data with
  | none =>
    obtain rfl : k = 0 := Nat.le_zero.1 hdata
    exact ⟨Nat.le_refl 0, hbytes, rfl⟩
  | some buf =>
    have hfits : 0 + (bytes.take k).length ≤ buf.length := by
      rw [hlen, Nat.zero_add]
      exact hdata
    refine ⟨?_, hbytes, ?_⟩
    · rw [Option.map_some, accessible_some, length_blit hfits]
      exact hdata
    · have hslice := @slice_blit_same _ buf (bytes.take k) 0 (Nat.zero_le _)
      rw [hlen, slice, List.drop_zero] at hslice
      exact hslice

/-- A buffer is kept from any capacity on that is not less than what is copied. -/
theorem keptFrom_blit {src : Bytes} {capacity : ℕ} (hsrc : src.length ≤ capacity)
    (hdata : capacity ≤ (accessible data).length) :
    KeptFrom capacity data (data.map (blit · 0 src)) := by
  rintro buf rfl
  have hfits : 0 + src.length ≤ buf.length := by
    rw [accessible_some] at hdata
    omega
  refine ⟨blit buf 0 src, rfl, length_blit hfits, List.ext_getElem? fun i => ?_⟩
  rw [List.getElem?_drop, List.getElem?_drop, getElem?_blit hfits, if_neg (by omega)]

/-- A copy that fits the buffer leaves it as it was from its capacity on. -/
theorem hgProcRawDecode_kept {capacity : ℕ} (hn : n.toNat ≤ capacity)
    (hdata : capacity ≤ (accessible data).length) :
    ∃ ret data' rest,
      hgProcRawDecode p data n msg = some (ret, data', rest) ∧ KeptFrom capacity data data' := by
  rcases Nat.lt_or_ge msg.length n.toNat with hmsg | hmsg
  · obtain ⟨ret, -, hdecode⟩ := @hgProcRawDecode_of_lt p data n msg hmsg
    exact ⟨ret, data, msg, hdecode, KeptFrom.refl capacity data⟩
  · refine ⟨_, _, _, hgProcRawDecode_of_le hmsg (hn.trans hdata), keptFrom_blit ?_ hdata⟩
    rw [List.length_take_of_le hmsg]
    exact hn

/-- A copy that succeeds has fit the buffer. -/
theorem hgProcRawDecode_success {data' : Option Bytes} {rest : Bytes}
    (h : hgProcRawDecode p data n msg = some (.SUCCESS, data', rest)) :
    Carries data' n.toNat msg ∧ (accessible data').length = (accessible data).length := by
  rcases Nat.lt_or_ge msg.length n.toNat with hmsg | hmsg
  · obtain ⟨ret, hret, hdecode⟩ := @hgProcRawDecode_of_lt p data n msg hmsg
    rw [hdecode, Option.some_inj] at h
    exact absurd (congrArg Prod.fst h) hret
  · rcases Nat.lt_or_ge (accessible data).length n.toNat with hdata | hdata
    · rw [hgProcRawDecode_overrun hmsg hdata] at h
      cases h
    · rw [hgProcRawDecode_of_le hmsg hdata, Option.some_inj] at h
      obtain rfl : data.map (blit · 0 (msg.take n.toNat)) = data' := congrArg (·.2.1) h
      refine ⟨carries_blit hmsg hdata, ?_⟩
      cases data with
      | none => rfl
      | some buf =>
        refine length_blit ?_
        rw [List.length_take_of_le hmsg, Nat.zero_add]
        exact hdata

/-! ### Targets -/

/-- `malloc` returns a buffer, unless no byte is asked for. -/
def Allocates (malloc : Malloc) (n : UInt64) : Prop := n = 0 ∨ malloc.run n ≠ none

/-- What both serializers do with a target, for `n` bytes that make up the number `size`. -/
def receive (p : HgProc) (malloc : Malloc) (data : Option Bytes) (capacity size n : UInt64)
    (msg : Bytes) : Option (HgReturn × Option Bytes × Bytes) :=
  if data = none then hgProcRawDecode p (malloc.run n) n msg
  else if size ≤ capacity then hgProcRawDecode p data n msg
  else some (.NOMEM, data, msg)

theorem length_accessible_run (h : Allocates malloc n) :
    (accessible (malloc.run n)).length = n.toNat := by
  cases hrun : malloc.run n with
  | some buf => exact malloc.length_run hrun
  | none =>
    rcases h with rfl | h
    · rfl
    · exact absurd hrun h

theorem allocates_of_le (h : n.toNat ≤ (accessible (malloc.run n)).length) :
    Allocates malloc n := by
  cases hrun : malloc.run n with
  | some buf => exact Or.inr (by rw [hrun]; exact Option.some_ne_none buf)
  | none =>
    rw [hrun, accessible_none, List.length_nil] at h
    exact Or.inl (UInt64.toNat_inj.1 (Nat.le_zero.1 h))

variable {capacity size : UInt64} {data' : Option Bytes} {rest : Bytes}

/-- A buffer of the caller is not written beyond its capacity. -/
theorem receive_kept {room : ℕ} (hdata : data ≠ none) (hroom : room ≤ (accessible data).length)
    (hn : size ≤ capacity → n.toNat ≤ room) :
    ∃ ret data' rest, receive p malloc data capacity size n msg = some (ret, data', rest) ∧
      KeptFrom room data data' := by
  unfold receive
  rw [if_neg hdata]
  split_ifs with hsize
  · exact hgProcRawDecode_kept (hn hsize) hroom
  · exact ⟨_, _, _, rfl, KeptFrom.refl room data⟩

/-- What a successful decoding tells about the target. -/
theorem receive_success
    (h : receive p malloc data capacity size n msg = some (.SUCCESS, data', rest)) :
    Carries data' n.toNat msg ∧
      (data = none → Allocates malloc n ∧ (accessible data').length = n.toNat) ∧
      (data ≠ none → size ≤ capacity ∧ (accessible data').length = (accessible data).length) := by
  unfold receive at h
  split_ifs at h with hdata hsize
  · obtain ⟨hcarries, hlen⟩ := hgProcRawDecode_success h
    have halloc : Allocates malloc n := by
      apply allocates_of_le
      rw [← hlen]
      exact hcarries.1
    refine ⟨hcarries, fun _ => ⟨halloc, ?_⟩, fun hne => absurd hdata hne⟩
    rw [hlen, length_accessible_run halloc]
  · obtain ⟨hcarries, hlen⟩ := hgProcRawDecode_success h
    exact ⟨hcarries, fun hnull => absurd hnull hdata, fun _ => ⟨hsize, hlen⟩⟩
  · cases h

/-- A message that is long enough is decoded into a target with enough room. -/
theorem receive_complete (hmsg : n.toNat ≤ msg.length) (hnull : data = none → Allocates malloc n)
    (hdata : data ≠ none → size ≤ capacity ∧ n.toNat ≤ (accessible data).length) :
    ∃ data',
      receive p malloc data capacity size n msg = some (.SUCCESS, data', msg.drop n.toNat) := by
  unfold receive
  split_ifs with h hsize
  · exact ⟨_, hgProcRawDecode_of_le hmsg (length_accessible_run (hnull h)).ge⟩
  · exact ⟨_, hgProcRawDecode_of_le hmsg (hdata h).2⟩
  · exact absurd (hdata h).1 hsize

theorem Uint64List.hgProcDecode_eq {list : Uint64List} (h : 8 ≤ msg.length) :
    list.hgProcDecode p malloc msg =
      (receive p malloc list.ids list.count (announced msg) (announced msg * 8) (msg.drop 8)).map
        fun r => (r.1, ⟨if list.ids = none ∨ announced msg ≤ list.count then announced msg
          else list.count, r.2.1⟩, r.2.2) := by
  obtain ⟨count, ids⟩ := list
  unfold Uint64List.hgProcDecode receive
  rw [hgProcSizeDecode_of_le h]
  cases ids with
  | none => simp
  | some buf =>
    by_cases hcount : announced msg ≤ count
    · simp [hcount]
    · simp [hcount]

theorem RawData.hgProcDecode_eq {raw : RawData} (h : 8 ≤ msg.length) :
    raw.hgProcDecode p malloc msg =
      (receive p malloc raw.data raw.size (announced msg) (announced msg) (msg.drop 8)).map
        fun r => (r.1, ⟨if raw.data = none then announced msg else raw.size, r.2.1⟩, r.2.2) := by
  obtain ⟨size, data⟩ := raw
  unfold RawData.hgProcDecode receive
  rw [hgProcSizeDecode_of_le h]
  cases data with
  | none => simp
  | some buf =>
    by_cases hsize : announced msg ≤ size
    · simp [hsize]
    · simp [hsize]

/-! ### Encoding -/

/-- A successful encoding appends the number and the bytes. -/
theorem hgProcCountedEncode_success {sent msg' : Bytes}
    (h : hgProcCountedEncode p size data n sent = some (.SUCCESS, msg')) :
    n.toNat ≤ (accessible data).length ∧
      msg' = sent ++ (LittleEndian.encode 8 size.toNat ++ (accessible data).take n.toNat) := by
  unfold hgProcCountedEncode hgProcSizeEncode at h
  cases hsize : p.encode sent (LittleEndian.encode 8 size.toNat) with
  | error ret =>
    rw [hsize] at h
    exact absurd (congrArg Prod.fst (Option.some.inj h)) (p.encode_error hsize)
  | ok msg =>
    rw [hsize] at h
    unfold hgProcRawEncode at h
    dsimp only at h
    split_ifs at h with hlen
    cases hbytes : p.encode msg ((accessible data).take n.toNat) with
    | error ret =>
      rw [hbytes] at h
      exact absurd (congrArg Prod.fst (Option.some.inj h)) (p.encode_error hbytes)
    | ok msg'' =>
      rw [hbytes] at h
      obtain rfl : msg'' = msg' := congrArg Prod.snd (Option.some.inj h)
      refine ⟨Nat.not_lt.1 hlen, ?_⟩
      rw [p.encode_ok hbytes, p.encode_ok hsize, List.append_assoc]

/-- Bytes that are in memory are encoded without a fault. -/
theorem hgProcCountedEncode_ne_none {sent : Bytes} (h : n.toNat ≤ (accessible data).length) :
    hgProcCountedEncode p size data n sent ≠ none := by
  unfold hgProcCountedEncode
  cases hgProcSizeEncode p size sent with
  | error ret => exact Option.some_ne_none _
  | ok msg =>
    dsimp only
    unfold hgProcRawEncode
    rw [if_neg (Nat.not_lt.2 h)]
    cases p.encode msg ((accessible data).take n.toNat) <;> exact Option.some_ne_none _

/-- What has been encoded is decoded again, whatever follows it. -/
theorem receive_encoded {src : Option Bytes} {sent msg' : Bytes}
    (h : hgProcCountedEncode p size src n sent = some (.SUCCESS, msg'))
    (hnull : data = none → Allocates malloc n)
    (hdata : data ≠ none → size ≤ capacity ∧ n.toNat ≤ (accessible data).length) :
    8 ≤ (msg'.drop sent.length ++ rest).length ∧
      announced (msg'.drop sent.length ++ rest) = size ∧
      ∃ data', receive p malloc data capacity size n ((msg'.drop sent.length ++ rest).drop 8) =
          some (.SUCCESS, data', rest) ∧
        (accessible data').take n.toNat = (accessible src).take n.toNat := by
  obtain ⟨hlen, rfl⟩ := hgProcCountedEncode_success h
  have hword : (LittleEndian.encode 8 size.toNat).length = 8 := LittleEndian.length_encode 8 _
  have hbytes : ((accessible src).take n.toNat).length = n.toNat := List.length_take_of_le hlen
  rw [List.drop_left, List.append_assoc]
  refine ⟨by rw [List.length_append, hword]; omega, announced_encode size _, ?_⟩
  rw [List.drop_left' hword]
  have hmsg : n.toNat ≤ ((accessible src).take n.toNat ++ rest).length := by
    rw [List.length_append, hbytes]
    omega
  obtain ⟨data', hreceive⟩ := @receive_complete p malloc data n _ capacity size hmsg hnull hdata
  rw [List.drop_left' hbytes] at hreceive
  refine ⟨data', hreceive, ?_⟩
  rw [(receive_success hreceive).1.2.2, List.take_left' hbytes]

end Proc

/-! ### Calls -/

namespace Uint64List

/-- The elements of a list are in memory. -/
def Stored (list : Uint64List) : Prop :=
  8 * list.count.toNat ≤ (accessible list.ids).length ∧ (accessible list.ids).length < 2 ^ 64

/-- The bytes of the elements. -/
def elements (list : Uint64List) : Bytes := (accessible list.ids).take (8 * list.count.toNat)

theorem Stored.toNat_mul {list : Uint64List} (h : list.Stored) {count : UInt64}
    (hcount : count ≤ list.count) : (count * 8).toNat = 8 * count.toNat := by
  have hle : count.toNat ≤ list.count.toNat := UInt64.le_iff_toNat_le.1 hcount
  have hlt : 8 * count.toNat < 2 ^ 64 :=
    (Nat.mul_le_mul_left 8 hle).trans_lt (h.1.trans_lt h.2)
  rw [UInt64.toNat_mul, Nat.mul_comm]
  exact Nat.mod_eq_of_lt hlt

end Uint64List

namespace RawData

/-- The bytes are in memory. -/
def Stored (raw : RawData) : Prop := raw.size.toNat ≤ (accessible raw.data).length

end RawData

section Decoding

variable {p : HgProc} {malloc : Malloc} {msg rest : Bytes}

/-- Decoding a list of the caller. -/
theorem Uint64List.hgProcDecode_kept {tgt : Uint64List} (hnull : tgt.ids ≠ none)
    (htgt : tgt.Stored) :
    ∃ ret tgt' rest, tgt.hgProcDecode p malloc msg = some (ret, tgt', rest) ∧
      KeptFrom (8 * tgt.count.toNat) tgt.ids tgt'.ids := by
  rcases Nat.lt_or_ge msg.length 8 with hmsg | hmsg
  · obtain ⟨ret, -, hsize⟩ := @hgProcSizeDecode_of_lt p msg hmsg
    refine ⟨ret, tgt, msg, ?_, KeptFrom.refl _ _⟩
    rw [hgProcDecode, hsize]
  · have hn : announced msg ≤ tgt.count → (announced msg * 8).toNat ≤ 8 * tgt.count.toNat :=
      fun hle => by
        rw [htgt.toNat_mul hle]
        exact Nat.mul_le_mul_left 8 (UInt64.le_iff_toNat_le.1 hle)
    obtain ⟨ret, ids, rest, hreceive, hkept⟩ :=
      @receive_kept p malloc tgt.ids _ (msg.drop 8) tgt.count _ _ hnull htgt.1 hn
    rw [hgProcDecode_eq hmsg, hreceive]
    exact ⟨_, _, _, rfl, hkept⟩

/-- Decoding raw data of the caller. -/
theorem RawData.hgProcDecode_kept {tgt : RawData} (hnull : tgt.data ≠ none)
    (htgt : tgt.Stored) :
    ∃ ret tgt' rest, tgt.hgProcDecode p malloc msg = some (ret, tgt', rest) ∧
      KeptFrom tgt.size.toNat tgt.data tgt'.data := by
  rcases Nat.lt_or_ge msg.length 8 with hmsg | hmsg
  · obtain ⟨ret, -, hsize⟩ := @hgProcSizeDecode_of_lt p msg hmsg
    refine ⟨ret, tgt, msg, ?_, KeptFrom.refl _ _⟩
    rw [hgProcDecode, hsize]
  · obtain ⟨ret, data, rest, hreceive, hkept⟩ :=
      @receive_kept p malloc tgt.data _ (msg.drop 8) tgt.size _ _ hnull htgt
        UInt64.le_iff_toNat_le.1
    rw [hgProcDecode_eq hmsg, hreceive]
    exact ⟨_, _, _, rfl, hkept⟩

/-- What a successful decoding of a list tells. -/
theorem Uint64List.hgProcDecode_success {tgt tgt' : Uint64List}
    (h : tgt.hgProcDecode p malloc msg = some (.SUCCESS, tgt', rest)) :
    8 ≤ msg.length ∧ tgt'.count = announced msg ∧
      Carries tgt'.ids (announced msg * 8).toNat (msg.drop 8) ∧
      (tgt.ids = none → Allocates malloc (announced msg * 8) ∧
        (accessible tgt'.ids).length = (announced msg * 8).toNat) ∧
      (tgt.ids ≠ none → announced msg ≤ tgt.count) := by
  rcases Nat.lt_or_ge msg.length 8 with hmsg | hmsg
  · obtain ⟨ret, hret, hsize⟩ := @hgProcSizeDecode_of_lt p msg hmsg
    rw [hgProcDecode, hsize] at h
    exact absurd (congrArg Prod.fst (Option.some.inj h)) hret
  · rw [hgProcDecode_eq hmsg] at h
    obtain ⟨⟨ret, ids, rest'⟩, hreceive, he⟩ := Option.map_eq_some_iff.1 h
    obtain ⟨rfl, rfl, rfl⟩ : ret = .SUCCESS ∧ _ = tgt' ∧ rest' = rest := by simpa using he
    obtain ⟨hcarries, hempty, hgiven⟩ := receive_success hreceive
    refine ⟨hmsg, if_pos ?_, hcarries, hempty, fun hne => (hgiven hne).1⟩
    by_cases hnull : tgt.ids = none
    · exact Or.inl hnull
    · exact Or.inr (hgiven hnull).1

/-- What a successful decoding of raw data tells. -/
theorem RawData.hgProcDecode_success {tgt tgt' : RawData}
    (h : tgt.hgProcDecode p malloc msg = some (.SUCCESS, tgt', rest)) :
    Carries tgt'.data (announced msg).toNat (msg.drop 8) ∧
      (tgt.data = none → tgt'.size = announced msg) ∧
      (tgt.data ≠ none → tgt'.size = tgt.size ∧
        (accessible tgt'.data).length = (accessible tgt.data).length) := by
  rcases Nat.lt_or_ge msg.length 8 with hmsg | hmsg
  · obtain ⟨ret, hret, hsize⟩ := @hgProcSizeDecode_of_lt p msg hmsg
    rw [hgProcDecode, hsize] at h
    exact absurd (congrArg Prod.fst (Option.some.inj h)) hret
  · rw [hgProcDecode_eq hmsg] at h
    obtain ⟨⟨ret, data, rest'⟩, hreceive, he⟩ := Option.map_eq_some_iff.1 h
    obtain ⟨rfl, rfl, rfl⟩ : ret = .SUCCESS ∧ _ = tgt' ∧ rest' = rest := by simpa using he
    obtain ⟨hcarries, -, hgiven⟩ := receive_success hreceive
    exact ⟨hcarries, fun hnull => if_pos hnull, fun hne => ⟨if_neg hne, (hgiven hne).2⟩⟩

/-- An empty list takes what its message announces, modulo `2 ^ 64` bytes. -/
theorem Uint64List.hgProcDecode_empty {tgt : Uint64List} (hnull : tgt.ids = none)
    (hmsg : 8 + (announced msg * 8).toNat ≤ msg.length)
    (halloc : Allocates malloc (announced msg * 8)) :
    ∃ tgt' rest, tgt.hgProcDecode p malloc msg = some (.SUCCESS, tgt', rest) := by
  have hbody : (announced msg * 8).toNat ≤ (msg.drop 8).length := by
    rw [List.length_drop]
    omega
  obtain ⟨ids, hreceive⟩ := @receive_complete p malloc tgt.ids _ _ tgt.count (announced msg) hbody
    (fun _ => halloc) (fun hne => absurd hnull hne)
  rw [hgProcDecode_eq (by omega), hreceive]
  exact ⟨_, _, rfl⟩

end Decoding

/-- A call of a serializer: the round trip of a list or of raw data from a source to a target, with
what precedes and follows it in the message, or the decoding of any message into a target. -/
inductive ProcCall
  | listTrip (src tgt : Uint64List) (hsrc : src.Stored) (htgt : tgt.ids ≠ none → tgt.Stored)
      (sent rest : Bytes)
  | rawTrip (src tgt : RawData) (hsrc : src.Stored) (htgt : tgt.data ≠ none → tgt.Stored)
      (sent rest : Bytes)
  | listDecode (tgt : Uint64List) (htgt : tgt.ids ≠ none → tgt.Stored) (msg : Bytes)
  | rawDecode (tgt : RawData) (htgt : tgt.data ≠ none → tgt.Stored) (msg : Bytes)

namespace ProcCall

/-- A round trip into a target with enough room returns what was encoded; raw data leave the size of
a buffer of the caller as it is. A decoding does not write a buffer of the caller beyond its
capacity, and if it succeeds, the target has the number of elements or bytes that was announced. -/
def Sound (p : HgProc) (malloc : Malloc) : ProcCall → Prop
  | listTrip src tgt _ _ sent rest =>
    src.hgProcEncode p sent ≠ none ∧ ∀ msg, src.hgProcEncode p sent = some (.SUCCESS, msg) →
      (tgt.ids = none → Allocates malloc (src.count * 8)) →
      (tgt.ids ≠ none → src.count ≤ tgt.count) →
      ∃ tgt', tgt.hgProcDecode p malloc (msg.drop sent.length ++ rest) =
          some (.SUCCESS, tgt', rest) ∧
        tgt'.count = src.count ∧ tgt'.elements = src.elements
  | rawTrip src tgt _ _ sent rest =>
    src.hgProcEncode p sent ≠ none ∧ ∀ msg, src.hgProcEncode p sent = some (.SUCCESS, msg) →
      (tgt.data = none → Allocates malloc src.size) →
      (tgt.data ≠ none → src.size ≤ tgt.size) →
      ∃ tgt', tgt.hgProcDecode p malloc (msg.drop sent.length ++ rest) =
          some (.SUCCESS, tgt', rest) ∧
        tgt'.size = (if tgt.data = none then src.size else tgt.size) ∧
        (accessible tgt'.data).take src.size.toNat = (accessible src.data).take src.size.toNat
  | listDecode tgt _ msg =>
    (tgt.ids ≠ none → ∃ ret tgt' rest,
      tgt.hgProcDecode p malloc msg = some (ret, tgt', rest) ∧
        KeptFrom (8 * tgt.count.toNat) tgt.ids tgt'.ids) ∧
    ∀ tgt' rest, tgt.hgProcDecode p malloc msg = some (.SUCCESS, tgt', rest) →
      tgt'.count = announced msg ∧ Carries tgt'.ids (8 * (announced msg).toNat) (msg.drop 8)
  | rawDecode tgt _ msg =>
    (tgt.data ≠ none → ∃ ret tgt' rest,
      tgt.hgProcDecode p malloc msg = some (ret, tgt', rest) ∧
        KeptFrom tgt.size.toNat tgt.data tgt'.data) ∧
    ∀ tgt' rest, tgt.hgProcDecode p malloc msg = some (.SUCCESS, tgt', rest) →
      tgt'.Stored ∧ Carries tgt'.data (announced msg).toNat (msg.drop 8)

/-- The number of bytes of a list that the decoder allocates does not wrap around, or the decoding
does not get through with what it wraps around to. -/
def Fits (malloc : Malloc) : ProcCall → Prop
  | listTrip .. => True
  | rawTrip .. => True
  | listDecode tgt _ msg =>
    tgt.ids ≠ none ∨ msg.length < 8 ∨ (announced msg).toNat < 2 ^ 61 ∨
      msg.length < 8 + (announced msg * 8).toNat ∨ ¬ Allocates malloc (announced msg * 8)
  | rawDecode .. => True

theorem listTrip_sound {p : HgProc} {malloc : Malloc} {src tgt : Uint64List} (hsrc : src.Stored)
    (htgt : tgt.ids ≠ none → tgt.Stored) (sent rest : Bytes) :
    (listTrip src tgt hsrc htgt sent rest).Sound p malloc := by
  have hbytes : (src.count * 8).toNat = 8 * src.count.toNat := hsrc.toNat_mul UInt64.le_rfl
  refine ⟨hgProcCountedEncode_ne_none (hbytes.le.trans hsrc.1), ?_⟩
  intro msg hencode hnull hgiven
  have hroom : tgt.ids ≠ none → src.count ≤ tgt.count ∧
      (src.count * 8).toNat ≤ (accessible tgt.ids).length := fun hne => by
    refine ⟨hgiven hne, ?_⟩
    rw [hbytes]
    exact (Nat.mul_le_mul_left 8 (UInt64.le_iff_toNat_le.1 (hgiven hne))).trans (htgt hne).1
  obtain ⟨hmsg, hannounced, ids, hreceive, hids⟩ :=
    @receive_encoded _ _ _ _ _ _ rest _ _ _ hencode hnull hroom
  rw [Uint64List.hgProcDecode_eq hmsg, hannounced, hreceive]
  have hcount : (if tgt.ids = none ∨ src.count ≤ tgt.count then src.count else tgt.count) =
      src.count := if_pos (or_iff_not_imp_left.2 hgiven)
  refine ⟨_, rfl, hcount, ?_⟩
  rw [Uint64List.elements, hcount, ← hbytes, hids, hbytes, Uint64List.elements]

theorem rawTrip_sound {p : HgProc} {malloc : Malloc} {src tgt : RawData} (hsrc : src.Stored)
    (htgt : tgt.data ≠ none → tgt.Stored) (sent rest : Bytes) :
    (rawTrip src tgt hsrc htgt sent rest).Sound p malloc := by
  refine ⟨hgProcCountedEncode_ne_none hsrc, ?_⟩
  intro msg hencode hnull hgiven
  have hroom : tgt.data ≠ none → src.size ≤ tgt.size ∧
      src.size.toNat ≤ (accessible tgt.data).length := fun hne =>
    ⟨hgiven hne, (UInt64.le_iff_toNat_le.1 (hgiven hne)).trans (htgt hne)⟩
  obtain ⟨hmsg, hannounced, data, hreceive, hdata⟩ :=
    @receive_encoded _ _ _ _ _ _ rest _ _ _ hencode hnull hroom
  rw [RawData.hgProcDecode_eq hmsg, hannounced, hreceive]
  exact ⟨_, rfl, rfl, hdata⟩

theorem rawDecode_sound {p : HgProc} {malloc : Malloc} {tgt : RawData}
    (htgt : tgt.data ≠ none → tgt.Stored) (msg : Bytes) :
    (rawDecode tgt htgt msg).Sound p malloc := by
  refine ⟨fun hne => RawData.hgProcDecode_kept hne (htgt hne), ?_⟩
  intro tgt' rest h
  obtain ⟨hcarries, hempty, hgiven⟩ := RawData.hgProcDecode_success h
  refine ⟨?_, hcarries⟩
  rw [RawData.Stored]
  by_cases hnull : tgt.data = none
  · rw [hempty hnull]
    exact hcarries.1
  · rw [(hgiven hnull).1, (hgiven hnull).2]
    exact htgt hnull

/-- The number of bytes is exact below `2 ^ 61` elements, and too small from there on. -/
theorem toNat_mul_eight_iff (count : UInt64) :
    (count * 8).toNat = 8 * count.toNat ↔ count.toNat < 2 ^ 61 := by
  rw [UInt64.toNat_mul]
  have h8 : UInt64.toNat 8 = 8 := rfl
  rw [h8]
  omega

theorem listDecode_sound_iff {p : HgProc} {malloc : Malloc} {tgt : Uint64List}
    (htgt : tgt.ids ≠ none → tgt.Stored) (msg : Bytes) :
    (listDecode tgt htgt msg).Sound p malloc ↔ (listDecode tgt htgt msg).Fits malloc := by
  constructor
  · rintro ⟨-, hsuccess⟩
    by_contra hfits
    simp only [Fits, not_or, not_not, not_lt] at hfits
    obtain ⟨hnull, hmsg, hwrap, hbody, halloc⟩ := hfits
    obtain ⟨tgt', rest, hdecode⟩ := @Uint64List.hgProcDecode_empty p malloc _ _ hnull hbody halloc
    have hlen := ((Uint64List.hgProcDecode_success hdecode).2.2.2.1 hnull).2
    have hcarries := (hsuccess tgt' rest hdecode).2.1
    rw [hlen, UInt64.toNat_mul] at hcarries
    have h8 : UInt64.toNat 8 = 8 := rfl
    have := (announced msg).toNat_lt
    omega
  · intro hfits
    refine ⟨fun hne => Uint64List.hgProcDecode_kept hne (htgt hne), ?_⟩
    intro tgt' rest hdecode
    obtain ⟨hmsg, hcount, hcarries, hempty, hgiven⟩ := Uint64List.hgProcDecode_success hdecode
    have hexact : (announced msg * 8).toNat = 8 * (announced msg).toNat := by
      by_cases hnull : tgt.ids = none
      · obtain ⟨halloc, -⟩ := hempty hnull
        have hbody := hcarries.2.1
        rw [List.length_drop] at hbody
        rcases hfits with hne | hshort | hlt | hcut | hfail
        · exact absurd hnull hne
        · omega
        · exact (toNat_mul_eight_iff _).2 hlt
        · omega
        · exact absurd halloc hfail
      · exact (htgt hnull).toNat_mul (hgiven hnull)
    rw [hexact] at hcarries
    exact ⟨hcount, hcarries⟩

/-- The serializers are sound exactly as long as the size of an allocated list does not wrap
around. -/
theorem serializers_sound_iff (p : HgProc) (malloc : Malloc) (call : ProcCall) :
    call.Sound p malloc ↔ call.Fits malloc := by
  cases call with
  | listTrip src tgt hsrc htgt sent rest =>
    exact iff_of_true (listTrip_sound hsrc htgt sent rest) trivial
  | rawTrip src tgt hsrc htgt sent rest =>
    exact iff_of_true (rawTrip_sound hsrc htgt sent rest) trivial
  | listDecode tgt htgt msg => exact listDecode_sound_iff htgt msg
  | rawDecode tgt htgt msg => exact iff_of_true (rawDecode_sound htgt msg) trivial

/-- Eight bytes that announce `2 ^ 61` elements are decoded into an empty buffer. -/
theorem empty_list_not_sound :
    ¬ (listDecode ⟨0, none⟩ (fun h => absurd rfl h) [0, 0, 0, 0, 0, 0, 0, 32]).Sound HgProc.bytes
      Malloc.zeroed := by
  rw [listDecode_sound_iff]
  rintro (hgiven | hshort | hlt | hcut | hfail)
  · exact hgiven rfl
  · exact absurd hshort (by decide)
  · exact absurd hlt (by decide)
  · exact absurd hcut (by decide)
  · exact hfail (Or.inl (by decide))

end ProcCall

end Yokan
