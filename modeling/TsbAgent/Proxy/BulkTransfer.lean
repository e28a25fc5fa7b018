/-
# Bulk transfer to the BMC

`prepare_data`, `write_data` and `EdmaUsbLcd2ReadTask` of `proxy/src/comm_driver.c`.  The state of a
transfer lies in globals that three messages of the BMC change:

| message | `DATA_LEN`, `COM_DATA`, `g_digest` | `OFFSET` |
| --- | --- | --- |
| start | the length and the data that are asked for, and their digest | **left as it is** |
| process | | what was sent is added, **the digest too** |
| complete | 0 and `NULL`; the digest stays | 0 |

A process message is answered with a header and up to 2048 bytes; where the rest of the data is not
more than that, the digest follows **in the same message** and the message is flagged as the last.  The
rest is an `int`.  So a transfer is right when `OFFSET` is 0 at its start, the data is smaller than
`2 ^ 31` bytes and its last piece leaves room for the digest; one more process message then puts the
digest in front of the buffer that it has allocated.  `transfer_delivers` says that nothing else goes
wrong, in runs of any length.
-/

import TsbAgent.Lib.Run
import TsbAgent.Proxy.OsHandle

namespace TsbAgent
namespace Proxy
namespace Bulk

open Libc Word Run

/-- `IPMI_MAX_MSG_LENGTH - sizeof(EDMA_MSG_HEAD)`. -/
def maxDataLen : ℕ := 2060 - 12

/-- `PER_READ_LEN`. -/
def perReadLen : ℕ := 2048

/-- The four messages that start a transfer, with their digests. -/
inductive StartType
  | transReq
  | transStdMd5Req
  | transSha256Req
  | transSm3Req
deriving DecidableEq

/-- `g_digest_len` after the digest was taken. -/
def StartType.digestLen : StartType → ℕ
  | transReq | transStdMd5Req => 16
  | transSha256Req | transSm3Req => 32

/-- What the code relies on: what `/dev/memread_dev` reads, and the digests. -/
structure Outside where
  memory : ℕ → UInt8
  digest : StartType → Bytes → Bytes
  length_digest : ∀ t data, (digest t data).length = t.digestLen

/-- A header and what follows it. -/
structure EdmaMsg where
  msgType : ℕ
  flag : ℕ
  dataLen : ℕ
  offset : ℕ
  payload : Bytes
deriving DecidableEq

/-- The globals, and all that was written to the BMC.  `digest` is `g_digest` up to `g_digest_len`. -/
structure State where
  dataLen : ℕ
  comData : Option Bytes
  offset : ℕ
  digest : Bytes
  written : List EdmaMsg

/-- The state in which the program starts. -/
def State.init : State := ⟨0, none, 0, [], []⟩

/-- A message of the BMC; a third read that fails does the same as `complete`. -/
inductive Request
  | start (t : StartType) (addr len : UInt64)
  | process
  | complete
deriving DecidableEq

/-- The loop of `prepare_data`, with as many turns as it makes. -/
def readDev (memory : ℕ → UInt8) : ℕ → ℕ → ℕ → Bytes
  | 0, _, _ => []
  | turns + 1, curLen, curPos =>
      if 0 < curLen then
        if curLen < perReadLen then area memory curPos curLen
        else area memory curPos perReadLen ++ readDev memory turns (curLen - perReadLen) (curPos + perReadLen)
      else []

/-- `prepare_data` and `send_response`. -/
def prepareData (o : Outside) (s : State) (t : StartType) (addr len : UInt64) : State :=
  let data := readDev o.memory (len.toNat / perReadLen + 1) len.toNat addr.toNat
  { s with
    dataLen := len.toNat
    comData := some data
    digest := o.digest t data
    written := s.written ++ [⟨1, 0, 0, 0, []⟩] }

/-- `remain_data_len`. -/
def State.remain (s : State) : ℤ := int32 (s.dataLen - s.offset)

/-- The places of `COM_DATA` that `write_data` reads. -/
def State.reads (s : State) : List ℕ :=
  (List.range (min s.remain maxDataLen).toNat).map fun k => (s.offset + k) % 2 ^ 32

/-- They lie inside. -/
def State.ReadsInside (s : State) : Prop := ∀ i ∈ s.reads, i < (s.comData.getD []).length

instance (s : State) : Decidable s.ReadsInside :=
  inferInstanceAs (Decidable (∀ i ∈ s.reads, i < (s.comData.getD []).length))

/-- What `write_data` sends. -/
def State.payload (s : State) : Bytes :=
  (s.reads.map fun i => (s.comData.getD []).getD i 0) ++ if s.remain ≤ maxDataLen then s.digest else []

/-- The header and the data that `write_data` sends. -/
def State.message (s : State) : EdmaMsg :=
  ⟨2, if s.remain ≤ maxDataLen then 1 else 0, s.payload.length, s.offset, s.payload⟩

/-- `write_data`; with a negative rest the digest is written in front of `msg_data`. -/
def writeData (s : State) : Option State :=
  if s.remain < 0 then none
  else if s.ReadsInside then
    some { s with
      offset := (s.offset + s.payload.length) % 2 ^ 32
      written := s.written ++ [s.message] }
  else none

/-- What `EdmaUsbLcd2ReadTask` does with a message; `none` when memory is overrun. -/
def step (o : Outside) (s : State) : Request → Option State
  | .start t addr len => some (prepareData o s t addr len)
  | .process => writeData s
  | .complete => some { s with dataLen := 0, comData := none, offset := 0 }

/-! ### What is claimed -/

/-- The payloads one after the other. -/
def payloads (msgs : List EdmaMsg) : Bytes := (msgs.map EdmaMsg.payload).flatten

/-- **The messages of one transfer:** each is at the offset of what was sent before it and not too long,
and with the last one all the data was sent, and the digest. -/
structure Delivered (data digest : Bytes) (msgs : List EdmaMsg) : Prop where
  offset : ∀ ms₁ m ms₂, msgs = ms₁ ++ m :: ms₂ → m.offset = (payloads ms₁).length
  size : ∀ m ∈ msgs, m.dataLen = m.payload.length ∧ m.payload.length ≤ maxDataLen
  more : (∀ m ∈ msgs, m.flag ≠ 1) → payloads msgs <+: data
  last : ∀ ms₁ m ms₂, msgs = ms₁ ++ m :: ms₂ → m.flag = 1 → ms₂ = [] ∧ payloads msgs = data ++ digest

/-- What the last message carries of `len` bytes. -/
def lastPiece (len : ℕ) : ℕ := if len = 0 then 0 else (len - 1) % maxDataLen + 1

/-- **The condition** on a message and the state it finds. -/
def Request.Ok (s : State) : Request → Prop
  | .start t _ len => s.offset = 0 ∧ len.toNat < 2 ^ 31 ∧ lastPiece len.toNat + t.digestLen ≤ maxDataLen
  | .process => s.offset ≤ s.dataLen
  | .complete => True

/-! ### The data -/

theorem length_area (memory : ℕ → UInt8) (addr n : ℕ) : (area memory addr n).length = n := by
  simp [area]

theorem area_append (memory : ℕ → UInt8) (addr m n : ℕ) :
    area memory addr m ++ area memory (addr + m) n = area memory addr (m + n) := by
  unfold area
  rw [List.range_add, List.map_append, List.map_map]
  simp only [Function.comp_def, Nat.add_assoc]

/-- The device is read from one end to the other. -/
theorem readDev_eq {memory : ℕ → UInt8} {turns curLen curPos : ℕ} (h : curLen < turns * perReadLen) :
    readDev memory turns curLen curPos = area memory curPos curLen := by
  induction turns generalizing curLen curPos with
  | zero => omega
  | succ turns ih =>
      rw [readDev]
      split_ifs with hpos hlt
      · rfl
      · have hrest : curLen - perReadLen < turns * perReadLen := by
          rw [Nat.succ_mul] at h
          omega
        rw [ih hrest, area_append, Nat.add_sub_cancel' (Nat.le_of_not_lt hlt)]
      · obtain rfl : curLen = 0 := by omega
        rfl

theorem prepareData_eq (o : Outside) (s : State) (t : StartType) (addr len : UInt64) :
    prepareData o s t addr len =
      { s with
        dataLen := len.toNat
        comData := some (area o.memory addr.toNat len.toNat)
        digest := o.digest t (area o.memory addr.toNat len.toNat)
        written := s.written ++ [⟨1, 0, 0, 0, []⟩] } := by
  have hlt : len.toNat < (len.toNat / perReadLen + 1) * perReadLen := by
    unfold perReadLen
    omega
  rw [prepareData, readDev_eq hlt]

/-- A loop over places that follow each other copies a piece. -/
theorem map_getD_range {d : Bytes} {off n : ℕ} (h : off + n ≤ d.length) :
    (List.range n).map (fun k => d.getD (off + k) 0) = (d.drop off).take n := by
  refine List.ext_getElem (by simp; omega) fun i hi _ => ?_
  have hlt : i < n := by simpa using hi
  rw [List.getElem_map, List.getElem_range, List.getElem_take, List.getElem_drop,
    List.getD_eq_getElem?_getD, List.getElem?_eq_getElem (by omega), Option.getD_some]

/-! ### The state between two messages -/

/-- What holds in every state of a permitted run: nothing was sent, only whole pieces, or everything. -/
structure Inv (s : State) : Prop where
  dataLen : s.dataLen < 2 ^ 31
  comData : (s.comData.getD []).length = s.dataLen
  fits : lastPiece s.dataLen + s.digest.length ≤ maxDataLen
  started : s.digest = [] → s.dataLen = 0
  offset : (maxDataLen ∣ s.offset ∧ (s.offset < s.dataLen ∨ s.offset = 0)) ∨
    s.offset = s.dataLen + s.digest.length

section Step

variable {o : Outside} {s : State}

theorem Inv.init : Inv State.init := by
  refine ⟨by decide, rfl, by decide, fun _ => rfl, .inl ⟨Nat.dvd_zero _, .inr rfl⟩⟩

theorem Inv.remain (h : Inv s) : s.remain = (s.dataLen : ℤ) - s.offset := by
  have hlen := h.dataLen
  have hfits := h.fits
  have hmax : maxDataLen = 2048 := rfl
  have hoff : s.offset ≤ s.dataLen + s.digest.length := by
    rcases h.offset with ⟨-, h | h⟩ | h <;> omega
  rw [State.remain, int32, Int.bmod_def]
  omega

/-- **A process message reads nothing outside `COM_DATA`,** also after the last one and before any start. -/
theorem Inv.readsInside (h : Inv s) : s.ReadsInside := by
  intro i hi
  obtain ⟨k, hk, rfl⟩ := List.mem_map.mp hi
  have hlt := List.mem_range.mp hk
  have hlen := h.dataLen
  rw [h.remain] at hlt
  rw [h.comData]
  omega

theorem writeData_eq (h0 : 0 ≤ s.remain) (hinside : s.ReadsInside) :
    writeData s = some { s with
      offset := (s.offset + s.payload.length) % 2 ^ 32
      written := s.written ++ [s.message] } := by
  rw [writeData, if_neg (by omega), if_pos hinside]

/-- While the offset is inside the data, the next piece is known. -/
theorem Inv.payload (h : Inv s) (hoff : s.offset ≤ s.dataLen) :
    s.payload = ((s.comData.getD []).drop s.offset).take maxDataLen ++
      if s.dataLen - s.offset ≤ maxDataLen then s.digest else [] := by
  have hremain := h.remain
  have hlen := h.dataLen
  have hcom := h.comData
  have hreads : s.reads.map (fun i => (s.comData.getD []).getD i 0) =
      (List.range (min (s.dataLen - s.offset) maxDataLen)).map fun k => (s.comData.getD []).getD (s.offset + k) 0 := by
    have hcount : (min s.remain maxDataLen).toNat = min (s.dataLen - s.offset) maxDataLen := by omega
    rw [State.reads, hcount, List.map_map]
    refine List.map_congr_left fun k hk => ?_
    have hlt := List.mem_range.mp hk
    have hmod : (s.offset + k) % 2 ^ 32 = s.offset + k := Nat.mod_eq_of_lt (by omega)
    show (s.comData.getD []).getD ((s.offset + k) % 2 ^ 32) 0 = _
    rw [hmod]
  have hpiece : ((s.comData.getD []).drop s.offset).take (min (s.dataLen - s.offset) maxDataLen) =
      ((s.comData.getD []).drop s.offset).take maxDataLen := by
    rw [← hcom, ← List.length_drop, ← List.take_take, List.take_of_length_le (by simp)]
  have hlast : s.remain ≤ maxDataLen ↔ s.dataLen - s.offset ≤ maxDataLen := by omega
  rw [State.payload, hreads, map_getD_range (by omega), hpiece]
  congr 1
  exact if_congr hlast rfl rfl

theorem Inv.length_payload (h : Inv s) (hoff : s.offset ≤ s.dataLen) :
    s.payload.length = if s.dataLen - s.offset ≤ maxDataLen then s.dataLen - s.offset + s.digest.length
      else maxDataLen := by
  rw [h.payload hoff, List.length_append, List.length_take, List.length_drop, h.comData]
  split_ifs with hlast
  · omega
  · rw [List.length_nil]
    omega

/-- The rest that is left for the last message is the last piece. -/
theorem Inv.rest (h : Inv s) (hoff : s.offset ≤ s.dataLen) (hlast : s.dataLen - s.offset ≤ maxDataLen) :
    s.dataLen - s.offset = lastPiece s.dataLen := by
  have hmax : maxDataLen = 2048 := rfl
  unfold lastPiece
  rcases h.offset with ⟨hdvd, hlt⟩ | hall
  · rw [hmax] at hdvd hlast ⊢
    split_ifs with h0 <;> omega
  · -- nothing was ever started
    have hnil : s.digest = [] := List.length_eq_zero_iff.mp (by omega)
    have h0 := h.started hnil
    rw [if_pos h0]
    omega

/-- **A process message inside the data** is answered with the next piece. -/
theorem Inv.writeData (h : Inv s) (hoff : s.offset ≤ s.dataLen) :
    ∃ s', Bulk.writeData s = some s' ∧ Inv s' ∧ s'.dataLen = s.dataLen ∧ s'.comData = s.comData ∧
      s'.digest = s.digest ∧ s'.offset = s.offset + s.payload.length ∧ s.payload.length ≤ maxDataLen ∧
      s'.written = s.written ++ [s.message] := by
  have hremain := h.remain
  have hlen := h.dataLen
  have hmax : maxDataLen = 2048 := rfl
  have hpayload := h.length_payload hoff
  have hsize : s.payload.length ≤ maxDataLen := by
    split_ifs at hpayload with hlast
    · rw [hpayload, h.rest hoff hlast]
      exact h.fits
    · exact hpayload.le
  have hmod : (s.offset + s.payload.length) % 2 ^ 32 = s.offset + s.payload.length := Nat.mod_eq_of_lt (by omega)
  refine ⟨{ s with
    offset := s.offset + s.payload.length
    written := s.written ++ [s.message] }, ?_, ⟨h.dataLen, h.comData, h.fits, h.started, ?_⟩, rfl, rfl, rfl, rfl, hsize, rfl⟩
  · rw [writeData_eq (by omega) h.readsInside, hmod]
  · dsimp only
    split_ifs at hpayload with hl
    · exact .inr (by omega)
    · refine .inl ⟨?_, .inl (by omega)⟩
      rw [hpayload]
      rcases h.offset with ⟨hdvd, -⟩ | hall
      · exact Nat.dvd_add hdvd (Nat.dvd_refl _)
      · omega

/-- **Every permitted message can be handled,** and leads to such a state again. -/
theorem Inv.step {a : Request} (h : Inv s) (ha : a.Ok s) : ∃ s', Bulk.step o s a = some s' ∧ Inv s' := by
  cases a with
  | start t addr len =>
      obtain ⟨hoff, hlen, hfits⟩ := ha
      refine ⟨_, congrArg some (prepareData_eq o s t addr len), ⟨hlen, length_area _ _ _, ?_, fun hnil => ?_, ?_⟩⟩
      · dsimp only
        rwa [o.length_digest]
      · have hpos := o.length_digest t (area o.memory addr.toNat len.toNat)
        dsimp only at hnil
        rw [hnil] at hpos
        cases t <;> exact absurd hpos (by decide)
      · refine .inl ⟨?_, .inr hoff⟩
        dsimp only
        rw [hoff]
        exact Nat.dvd_zero _
  | process =>
      obtain ⟨s', hs', hinv, -⟩ := h.writeData ha
      exact ⟨s', hs', hinv⟩
  | complete =>
      refine ⟨_, rfl, ⟨Nat.two_pow_pos 31, rfl, ?_, fun _ => rfl, .inl ⟨Nat.dvd_zero _, .inr rfl⟩⟩⟩
      have hfits := h.fits
      show 0 + s.digest.length ≤ maxDataLen
      omega

end Step

/-! ### One transfer -/

section Transfer

variable {o : Outside} {data digest : Bytes} {msgs : List EdmaMsg} {m : EdmaMsg}

theorem payloads_append (ms₁ ms₂ : List EdmaMsg) : payloads (ms₁ ++ ms₂) = payloads ms₁ ++ payloads ms₂ := by
  simp [payloads]

theorem payloads_singleton (m : EdmaMsg) : payloads [m] = m.payload := by
  simp [payloads]

theorem delivered_nil : Delivered data digest [] := by
  refine ⟨fun ms₁ m ms₂ h => ?_, by simp, fun _ => List.nil_prefix, fun ms₁ m ms₂ h => ?_⟩
  · exact absurd h.symm (by simp)
  · exact absurd h.symm (by simp)

/-- A message goes on with what was sent so far. -/
theorem Delivered.append (h : Delivered data digest msgs) (hopen : ∀ m ∈ msgs, m.flag ≠ 1)
    (hoff : m.offset = (payloads msgs).length) (hlen : m.dataLen = m.payload.length)
    (hsize : m.payload.length ≤ maxDataLen)
    (hmore : m.flag ≠ 1 → payloads msgs ++ m.payload <+: data)
    (hlast : m.flag = 1 → payloads msgs ++ m.payload = data ++ digest) :
    Delivered data digest (msgs ++ [m]) := by
  have hsplit : ∀ ms₁ x ms₂, msgs ++ [m] = ms₁ ++ x :: ms₂ →
      (ms₂ = [] ∧ x = m ∧ ms₁ = msgs) ∨ ∃ ms₃, msgs = ms₁ ++ x :: ms₃ := by
    intro ms₁ x ms₂ heq
    rcases List.eq_nil_or_concat ms₂ with rfl | ⟨ms₃, y, rfl⟩
    · obtain ⟨rfl, hx⟩ := List.append_inj' heq rfl
      exact .inl ⟨rfl, (List.cons.inj hx).1.symm, rfl⟩
    · rw [List.concat_eq_append, ← List.cons_append, ← List.append_assoc] at heq
      exact .inr ⟨ms₃, (List.append_inj' heq rfl).1⟩
  refine ⟨fun ms₁ x ms₂ heq => ?_, ?_, fun hall => ?_, fun ms₁ x ms₂ heq hflag => ?_⟩
  · rcases hsplit ms₁ x ms₂ heq with ⟨-, rfl, rfl⟩ | ⟨ms₃, hms⟩
    · exact hoff
    · exact h.offset ms₁ x ms₃ hms
  · intro x hx
    rcases List.mem_append.mp hx with hx | hx
    · exact h.size x hx
    · rw [List.mem_singleton.mp hx]
      exact ⟨hlen, hsize⟩
  · rw [payloads_append, payloads_singleton]
    exact hmore (hall m (by simp))
  · rcases hsplit ms₁ x ms₂ heq with ⟨rfl, rfl, rfl⟩ | ⟨ms₃, hms⟩
    · refine ⟨rfl, ?_⟩
      rw [payloads_append, payloads_singleton]
      exact hlast hflag
    · exact absurd hflag (hopen x (by rw [hms]; simp))

/-- A transfer under way from the state `s₁` to the state `s`, with the messages `msgs`. -/
structure Transfer (data digest : Bytes) (s₁ s : State) (msgs : List EdmaMsg) : Prop where
  inv : Inv s
  comData : s.comData = some data
  gDigest : s.digest = digest
  digest_pos : 0 < digest.length
  written : s.written = s₁.written ++ msgs
  delivered : Delivered data digest msgs
  isOpen : s.offset ≤ s.dataLen → (∀ m ∈ msgs, m.flag ≠ 1) ∧ payloads msgs = data.take s.offset

theorem Transfer.start {s : State} {t : StartType} {addr len : UInt64} (h : Inv s)
    (ha : (Request.start t addr len).Ok s) :
    Transfer (area o.memory addr.toNat len.toNat) (o.digest t (area o.memory addr.toNat len.toNat))
      (prepareData o s t addr len) (prepareData o s t addr len) [] := by
  obtain ⟨s', hs', hinv⟩ := @Inv.step o s _ h ha
  obtain rfl := Option.some.inj hs'
  have hpos : 0 < (o.digest t (area o.memory addr.toNat len.toNat)).length := by
    rw [o.length_digest]
    cases t <;> decide
  rw [prepareData_eq] at hinv ⊢
  refine ⟨hinv, rfl, rfl, hpos, (List.append_nil _).symm, delivered_nil, fun _ => ⟨by simp, ?_⟩⟩
  dsimp only
  rw [ha.1, List.take_zero]
  rfl

/-- **One process message of a transfer.** -/
theorem Transfer.process {s₁ s : State} (h : Transfer data digest s₁ s msgs) (hoff : s.offset ≤ s.dataLen) :
    ∃ s' m, writeData s = some s' ∧ Transfer data digest s₁ s' (msgs ++ [m]) := by
  obtain ⟨s', hs', hinv, hlen', hcom', hdig', hoff', hsize, hwritten⟩ := h.inv.writeData hoff
  obtain ⟨hopen, hsent⟩ := h.isOpen hoff
  have hdata : s.dataLen = data.length := by rw [← h.inv.comData, h.comData, Option.getD_some]
  have hpayload := h.inv.payload hoff
  have hlength := h.inv.length_payload hoff
  rw [h.comData, Option.getD_some, h.gDigest] at hpayload
  rw [h.gDigest] at hlength
  have hpos := h.digest_pos
  have hoffset : s.offset = (payloads msgs).length := by
    rw [hsent, List.length_take]
    omega
  have hflag : s.message.flag = 1 ↔ s.dataLen - s.offset ≤ maxDataLen := by
    have hremain := h.inv.remain
    have hlast : s.remain ≤ maxDataLen ↔ s.dataLen - s.offset ≤ maxDataLen := by omega
    rw [State.message, ← hlast]
    by_cases hl : s.remain ≤ maxDataLen <;> simp [hl]
  refine ⟨s', s.message, hs', hinv, hcom'.trans h.comData, hdig'.trans h.gDigest, hpos, ?_, ?_, ?_⟩
  · rw [hwritten, h.written, List.append_assoc]
  · refine h.delivered.append hopen hoffset rfl hsize (fun hnot => ?_) fun hlast => ?_
    · show payloads msgs ++ s.payload <+: data
      rw [hsent, hpayload, if_neg (mt hflag.mpr hnot), List.append_nil, ← List.take_add]
      exact List.take_prefix _ _
    · have hlast := hflag.mp hlast
      have hrest : (data.drop s.offset).take maxDataLen = data.drop s.offset := by
        refine List.take_of_length_le ?_
        rw [List.length_drop]
        omega
      show payloads msgs ++ s.payload = data ++ digest
      rw [hsent, hpayload, if_pos hlast, hrest, ← List.append_assoc, List.take_append_drop]
  · intro hle
    rw [hoff', hlen', hlength] at hle
    split_ifs at hle with hlast
    · omega
    · refine ⟨fun m hm => ?_, ?_⟩
      · rcases List.mem_append.mp hm with hm | hm
        · exact hopen m hm
        · rw [List.mem_singleton.mp hm]
          exact mt hflag.mp hlast
      · rw [hoff', hlength, if_neg hlast, payloads_append, payloads_singleton, hsent, State.message, hpayload,
          if_neg hlast, List.append_nil, ← List.take_add]

/-- **The process messages of a transfer.** -/
theorem Transfer.processes {s₁ s : State} {n : ℕ} (h : Transfer data digest s₁ s msgs)
    (hok : Meets (step o) Request.Ok s (List.replicate n .process)) :
    ∃ s' ms, run (step o) s (List.replicate n .process) = some s' ∧ ms.length = n ∧
      Transfer data digest s₁ s' (msgs ++ ms) := by
  induction n generalizing s msgs with
  | zero =>
      refine ⟨s, [], rfl, rfl, ?_⟩
      rwa [List.append_nil]
  | succ n ih =>
      rw [List.replicate_succ] at hok ⊢
      obtain ⟨hoff, hrest⟩ := hok
      obtain ⟨s', m, hs', htransfer⟩ := h.process hoff
      obtain ⟨s'', ms, hrun, hms, htransfer'⟩ := ih htransfer (hrest s' hs')
      refine ⟨s'', m :: ms, ?_, by rw [List.length_cons, hms], ?_⟩
      · rw [run_cons_of_step (show step o s .process = some s' from hs'), hrun]
      · rwa [List.append_assoc] at htransfer'

end Transfer

/-- **Bulk transfer delivers the data:** in every run whose starts find `OFFSET` at 0 and ask for less than
`2 ^ 31` bytes, the last piece with room for the digest, and whose process messages do not come after
the last one.  Nothing is ever read outside `COM_DATA`. -/
theorem transfer_delivers (o : Outside) (es : List Request) (h : Meets (step o) Request.Ok State.init es) :
    (∀ es₁ es₂, es = es₁ ++ es₂ → ∃ s, run (step o) State.init es₁ = some s ∧ s.ReadsInside) ∧
    ∀ es₁ t addr len n es₂, es = es₁ ++ .start t addr len :: (List.replicate n .process ++ es₂) →
      ∃ s₁ s₂ msgs, run (step o) State.init (es₁ ++ [.start t addr len]) = some s₁ ∧
        run (step o) s₁ (List.replicate n .process) = some s₂ ∧ s₂.written = s₁.written ++ msgs ∧ msgs.length = n ∧
        Delivered (area o.memory addr.toNat len.toNat) (o.digest t (area o.memory addr.toNat len.toNat)) msgs := by
  have hrun : ∀ es₁ es₂, es = es₁ ++ es₂ → ∃ s, run (step o) State.init es₁ = some s ∧ Inv s := by
    intro es₁ es₂ happ
    rw [happ] at h
    exact exists_run_of_meets (fun s a hs ha => hs.step ha) Inv.init (meets_append h).1
  constructor
  · intro es₁ es₂ happ
    obtain ⟨s, hs, hinv⟩ := hrun es₁ es₂ happ
    exact ⟨s, hs, hinv.readsInside⟩
  · intro es₁ t addr len n es₂ happ
    obtain ⟨s, hs, hinv⟩ := hrun es₁ _ happ
    rw [happ] at h
    obtain ⟨hstart, hrest⟩ := (meets_append h).2 s hs
    have hmeets := (meets_append (hrest _ rfl)).1
    obtain ⟨s₂, msgs, hs₂, hlen, htransfer⟩ := (@Transfer.start o s t addr len hinv hstart).processes hmeets
    refine ⟨_, s₂, msgs, ?_, hs₂, ?_, hlen, ?_⟩
    · rw [run_append, hs]
      rfl
    · simpa using htransfer.written
    · simpa using htransfer.delivered

/-- A device of ones and digests of zeros. -/
def sampleOutside : Outside where
  memory _ := 1
  digest t _ := List.replicate t.digestLen 0
  length_digest _ _ := List.length_replicate

theorem transfer_delivers_sample :
    Meets (step sampleOutside) Request.Ok State.init [.start .transReq 0 3, .process, .complete] ∧
    ∃ s₁ s₂ msgs, run (step sampleOutside) State.init [.start .transReq 0 3] = some s₁ ∧
      run (step sampleOutside) s₁ [.process] = some s₂ ∧ s₂.written = s₁.written ++ msgs ∧ msgs.length = 1 ∧
      Delivered [1, 1, 1] (List.replicate 16 0) msgs := by
  have hmeets : Meets (step sampleOutside) Request.Ok State.init [.start .transReq 0 3, .process, .complete] := by
    refine ⟨⟨rfl, by decide, by decide⟩, fun s₁ hs₁ => ⟨?_, fun s₂ _ => ⟨trivial, fun s₃ _ => trivial⟩⟩⟩
    obtain rfl := Option.some.inj hs₁
    exact Nat.zero_le _
  refine ⟨hmeets, ?_⟩
  exact (transfer_delivers _ _ hmeets).2 [] .transReq 0 3 1 [.complete] rfl

/-- **A second start** without a complete in between sends the last 3 of 20 bytes, at the offset 17; the
message for **2048 bytes** carries 2064; and **a message after the last** overruns its buffer. -/
theorem transfer_fails :
    (∃ s₁ s₂ m, run (step sampleOutside) State.init
        [.start .transReq 0 1, .process, .start .transReq 0 20] = some s₁ ∧
      run (step sampleOutside) s₁ [.process] = some s₂ ∧ s₂.written = s₁.written ++ [m] ∧ m.flag = 1 ∧
      m.offset = 17 ∧ m.payload.length = 19 ∧
      ¬ Delivered (List.replicate 20 1) (List.replicate 16 0) [m]) ∧
    (∃ s₁ s₂ m, run (step sampleOutside) State.init [.start .transReq 0 2048] = some s₁ ∧
      run (step sampleOutside) s₁ [.process] = some s₂ ∧ s₂.written = s₁.written ++ [m] ∧
      maxDataLen < m.payload.length) ∧
    run (step sampleOutside) State.init [.start .transReq 0 1, .process, .process] = none := by
  refine ⟨?_, ?_, by decide +kernel⟩
  · refine ⟨_, _, State.message _, rfl, rfl, rfl, by decide +kernel, by decide +kernel, by decide +kernel, ?_⟩
    intro h
    exact absurd (h.offset [] _ [] rfl) (by decide +kernel)
  · let s₁ := prepareData sampleOutside State.init .transReq 0 2048
    have hremain : s₁.remain = 2048 := by decide +kernel
    have hcom : (s₁.comData.getD []).length = 2048 := by
      rw [show s₁ = _ from prepareData_eq _ _ _ _ _, Option.getD_some, length_area]
      decide
    have hreads : s₁.reads = (List.range 2048).map fun k => (s₁.offset + k) % 2 ^ 32 := by
      have hcount : (min (2048 : ℤ) maxDataLen).toNat = 2048 := by decide
      rw [State.reads, hremain, hcount]
    have hinside : s₁.ReadsInside := by
      intro i hi
      rw [hreads] at hi
      obtain ⟨k, hk, rfl⟩ := List.mem_map.mp hi
      have hlt := List.mem_range.mp hk
      have hzero : s₁.offset = 0 := rfl
      rw [hcom, hzero]
      omega
    refine ⟨s₁, { s₁ with
      offset := (s₁.offset + s₁.payload.length) % 2 ^ 32
      written := s₁.written ++ [s₁.message] }, s₁.message, rfl, ?_, rfl, ?_⟩
    · exact congrArg (Option.bind · _) (writeData_eq (by omega) hinside)
    · show maxDataLen < s₁.payload.length
      rw [State.payload, List.length_append, List.length_map, hreads, List.length_map, List.length_range, hremain,
        if_pos (by decide)]
      decide

end Bulk
end Proxy
end TsbAgent
