/-
# The proxy between the host and the BMC

`os_handle` of `proxy/src/comm_driver.c` takes a command from the shared memory, sends it to
the BMC and writes the answer back.  The reply starts with a `struct msg_buff` of 96 bytes:

```
 0     4        8          16       24          32           40         44          48    52 .. 76        80          96
| type | length | sequence | address | input addr | output addr | input len | output len | res | cmd: out_length, out_return |
```

and goes on with the input and the output area.  The code

* refuses a command it cannot take (`refuse`), with an answer;
* answers a command of the reserved type 4, **and goes on**;
* gives up without an answer when it cannot connect, when the reply says that its body is
  empty, or when there is no memory for it;
* reads the header **with one `read`**, and reports what it finds there however short it is;
* reads the body with a loop, and takes it however short it is;
* writes the output **where the reply says**, as long as the reply says.

`os_handle_answers_iff` puts the exact condition together under which the host gets the answer
that is claimed (`Answers`).
-/

import TsbAgent.Lib.Socket
import TsbAgent.Lib.Word

namespace TsbAgent
namespace Proxy

open Libc Word Socket

/-- `TPCM_ERROR_UNSUPPORTED_CMD_TYPE`. -/
def tpcmErrorUnsupportedCmdType : ℤ := 256

/-- `TPCM_ERROR_INVALID_COMMAND`. -/
def tpcmErrorInvalidCommand : ℤ := 257

/-- `SHARE_MEM_SIZE`. -/
def shareMemSize : ℤ := 0x1F00000

/-- What the host has put into the shared memory: the fields of `struct share_memory`, the
`struct cmd_header` at `cmd_addr_phys`, and the memory itself. -/
structure HostCommand where
  cmdType : ℕ
  cmdLength : ℤ
  cmdSequence : ℕ
  cmdAddrPhys : ℕ
  inputAddr : ℕ
  outputAddr : ℕ
  inputLength : ℤ
  outputMaxlength : ℤ
  memory : ℕ → UInt8

/-- What the system and the BMC do: whether the command can be mapped, whether there is memory
for what is sent, whether the connection is made, whether there is memory for the body of the
reply, and the reply in its segments, which ends closed (0) or broken. -/
structure ProxyEnv where
  mapped : Bool
  sendBuff : Bool
  connected : Bool
  recvBuff : Bool
  segments : List Bytes
  ending : ℤ
  segments_ne : ∀ s ∈ segments, s ≠ []
  ending_le : ending ≤ 0

/-- What is sent: the header fields and the two areas, none without a buffer for them. -/
structure Sent where
  cmdType : ℕ
  cmdLength : ℤ
  cmdSequence : ℕ
  cmdAddrnum : ℕ
  inputAddrNum : ℕ
  outputAddrNum : ℕ
  inputLength : ℤ
  outputMaxlength : ℤ
  body : Option Bytes
deriving DecidableEq

/-- What `os_handle` leaves behind. -/
structure Outcome where
  /-- `sharemem->cmd_handled`. -/
  handled : Bool
  /-- `sharemem->cmd_ret`, none when it is not set. -/
  ret : Option ℤ
  sent : Option Sent
  /-- `vadrr->out_length` and `vadrr->out_return`. -/
  report : Option (ℤ × ℤ)
  /-- The address and the bytes of the last `memcpy`. -/
  output : Option (ℕ × Bytes)
  /-- `recv_header_len`. -/
  recvHeaderLen : ℤ
  /-- `recv_total_len`, and how many bytes the body has. -/
  recvTotalLen : ℤ
  bodyLen : ℤ
  /-- An access outside the memory. -/
  fault : Bool
deriving DecidableEq

/-! ### The function -/

/-- `info.cmd_type`: `TDD_CMD_CATEGORY_INIT` is taken for `TDD_CMD_CATEGORY_TPCM`. -/
def HostCommand.type (h : HostCommand) : ℕ := if h.cmdType = 0 then 3 else h.cmdType

/-- `TDD_CMD_CATEGORY_RESERVED_4`. -/
def HostCommand.reserved (h : HostCommand) : Bool := h.type = 4

/-- After the test of the reserved type, which does not return. -/
def start (h : HostCommand) : Outcome where
  handled := h.reserved
  ret := if h.reserved then some tpcmErrorInvalidCommand else none
  sent := none
  report := none
  output := none
  recvHeaderLen := 0
  recvTotalLen := 0
  bodyLen := 0
  fault := false

/-- The tests that return, with their `cmd_ret`. -/
def refuse (h : HostCommand) (e : ProxyEnv) : Option ℤ :=
  if h.cmdAddrPhys = 0 ∨ h.cmdLength = 0 ∨ h.cmdLength > 0x200000 then some tpcmErrorInvalidCommand
  else if h.type ≥ 16 then some tpcmErrorUnsupportedCmdType
  else if ¬ e.mapped then some tpcmErrorInvalidCommand
  else none

/-- `malloc(vadrr->input_length + vadrr->output_maxlength)` of what is sent. -/
def sendBuffered (h : HostCommand) (e : ProxyEnv) : Bool :=
  e.sendBuff && decide (0 ≤ int32 (h.inputLength + h.outputMaxlength))

/-- An area lies in the shared memory. -/
def inMemory (addr : ℕ) (length : ℤ) : Bool := decide (0 ≤ length ∧ addr + length ≤ shareMemSize)

/-- `n` bytes of the shared memory. -/
def area (memory : ℕ → UInt8) (addr n : ℕ) : Bytes := (List.range n).map fun i => memory (addr + i)

/-- The message. -/
def sendMsg (h : HostCommand) (e : ProxyEnv) : Sent where
  cmdType := h.cmdType
  cmdLength := h.cmdLength
  cmdSequence := h.cmdSequence
  cmdAddrnum := h.cmdAddrPhys
  inputAddrNum := h.inputAddr
  outputAddrNum := h.outputAddr
  inputLength := h.inputLength
  outputMaxlength := h.outputMaxlength
  body :=
    if sendBuffered h e then
      some (area h.memory h.inputAddr h.inputLength.toNat ++ area h.memory h.outputAddr h.outputMaxlength.toNat)
    else none

/-- `sizeof (struct msg_buff)`. -/
def sizeofMsgBuff : ℕ := 96

/-- `recv_msg`, cleared before the `read`. -/
def recvMsg (b : Bytes) : Bytes := b ++ List.replicate (sizeofMsgBuff - b.length) 0

/-- `input_length`, `output_maxlength`, `output_addr_num` and `res` of a header. -/
def msgInputLength (m : Bytes) : ℤ := int32 (hostAt m 40 4)

@[inherit_doc msgInputLength] def msgOutputMaxlength (m : Bytes) : ℤ := int32 (hostAt m 44 4)

@[inherit_doc msgInputLength] def msgOutputAddr (m : Bytes) : ℕ := hostAt m 32 8

@[inherit_doc msgInputLength] def msgRes (m : Bytes) : ℤ := int32 (hostAt m 48 4)

/-- `recv_msg.input_length + recv_msg.output_maxlength`. -/
def msgBodyLen (m : Bytes) : ℤ := int32 (msgInputLength m + msgOutputMaxlength m)

/-- From the first `read` on. -/
def receive (e : ProxyEnv) (o : Outcome) : Outcome :=
  let r := recv e.ending sizeofMsgBuff e.segments
  let m := recvMsg r.2.1
  let total := msgBodyLen m
  let o := { o with
    recvHeaderLen := r.1
    report := some (int32 (hostAt m 76 4), int32 (hostAt m 80 4))
    bodyLen := total }
  if total = 0 then o
  else if ¬ e.recvBuff ∨ total < 0 then o
  else
    let b := recvAll e.ending total.toNat r.2.2
    let buffer := b.2 ++ List.replicate (total.toNat - b.2.length) 0
    let o := { o with recvTotalLen := b.1 }
    -- `memcpy` from before the buffer, or of a negative length
    if msgInputLength m < 0 ∨ msgOutputMaxlength m < 0 then { o with fault := true }
    else
      { o with
        output := some (msgOutputAddr m, fieldAt buffer (msgInputLength m).toNat (msgOutputMaxlength m).toNat)
        ret := some (msgRes m)
        handled := true }

/-- `os_handle`. -/
def osHandle (h : HostCommand) (e : ProxyEnv) : Outcome :=
  match refuse h e with
  | some ret => { start h with handled := true, ret := some ret }
  | none =>
      if sendBuffered h e ∧ ¬ (inMemory h.inputAddr h.inputLength ∧ inMemory h.outputAddr h.outputMaxlength) then
        { start h with fault := true }
      else if ¬ e.connected then start h
      else receive e { start h with sent := some (sendMsg h e) }

/-! ### What is claimed -/

/-- The same reply in one piece. -/
def ProxyEnv.onePiece (e : ProxyEnv) : ProxyEnv :=
  { e with
    segments := if e.segments.flatten = [] then [] else [e.segments.flatten]
    segments_ne := by
      split_ifs with hnil
      · nofun
      · exact List.forall_mem_singleton.mpr hnil }

/-- **The host gets its answer:** the function finishes with `cmd_handled` set; it reports and
writes only what has wholly arrived, and writes inside the output area of the command; the
result is that of the same reply in one piece; a command of the reserved type is not sent. -/
structure Answers (h : HostCommand) (e : ProxyEnv) : Prop where
  finishes : (osHandle h e).fault = false
  handled : (osHandle h e).handled = true
  whole : (osHandle h e).report ≠ none ∨ (osHandle h e).output ≠ none →
    (osHandle h e).recvHeaderLen = sizeofMsgBuff ∧ (osHandle h e).recvTotalLen = (osHandle h e).bodyLen
  inside : ∀ addr b, (osHandle h e).output = some (addr, b) → b ≠ [] →
    h.outputAddr ≤ addr ∧ (addr + b.length : ℤ) ≤ h.outputAddr + h.outputMaxlength
  segments : osHandle h e = osHandle h e.onePiece
  reserved : h.reserved = true → (osHandle h e).sent = none

/-- The two areas of the command are in the memory, or are not copied. -/
def Readable (h : HostCommand) (e : ProxyEnv) : Prop :=
  sendBuffered h e = true → inMemory h.inputAddr h.inputLength = true ∧ inMemory h.outputAddr h.outputMaxlength = true

/-- A reply that the function handles as it should: the first segment holds the whole header, the
lengths in it are sensible and not both zero, the whole body follows, there is memory for it,
and the output goes to the output area of the command. -/
structure GoodReply (h : HostCommand) (e : ProxyEnv) : Prop where
  first : sizeofMsgBuff ≤ (e.segments.headD []).length
  input : 0 ≤ msgInputLength e.segments.flatten
  output : 0 ≤ msgOutputMaxlength e.segments.flatten
  body : 0 < msgInputLength e.segments.flatten + msgOutputMaxlength e.segments.flatten
  bodyInt : msgInputLength e.segments.flatten + msgOutputMaxlength e.segments.flatten < 2 ^ 31
  recvBuff : e.recvBuff = true
  arrives : 96 + msgInputLength e.segments.flatten + msgOutputMaxlength e.segments.flatten ≤
    e.segments.flatten.length
  area : msgOutputMaxlength e.segments.flatten ≠ 0 →
    h.outputAddr ≤ msgOutputAddr e.segments.flatten ∧
      msgOutputAddr e.segments.flatten + msgOutputMaxlength e.segments.flatten ≤ h.outputAddr + h.outputMaxlength

/-- **The condition:** the command is refused; or it can be read and is either of the reserved
type and meets no connection, or of another type, is sent and meets a good reply. -/
def Answerable (h : HostCommand) (e : ProxyEnv) : Prop :=
  refuse h e ≠ none ∨
    Readable h e ∧ (h.reserved = true ∧ e.connected = false ∨
      h.reserved = false ∧ e.connected = true ∧ GoodReply h e)

section Header

variable {e : ProxyEnv} {b : Bytes}

theorem hostAt_take {n off w : ℕ} (h : off + w ≤ n) : hostAt (b.take n) off w = hostAt b off w := by
  rw [hostAt, hostAt, fieldAt, fieldAt, List.drop_take, List.take_take, Nat.min_eq_left (by omega)]

/-- The fields of a header that has arrived are those of the reply. -/
theorem recvMsg_take (h : sizeofMsgBuff ≤ b.length) : recvMsg (b.take sizeofMsgBuff) = b.take sizeofMsgBuff := by
  rw [recvMsg, List.length_take, Nat.min_eq_left h, Nat.sub_self, List.replicate_zero, List.append_nil]

theorem msg_take (b : Bytes) :
    msgInputLength (b.take sizeofMsgBuff) = msgInputLength b ∧
      msgOutputMaxlength (b.take sizeofMsgBuff) = msgOutputMaxlength b ∧
      msgOutputAddr (b.take sizeofMsgBuff) = msgOutputAddr b ∧ msgRes (b.take sizeofMsgBuff) = msgRes b ∧
      hostAt (b.take sizeofMsgBuff) 76 4 = hostAt b 76 4 ∧ hostAt (b.take sizeofMsgBuff) 80 4 = hostAt b 80 4 := by
  simp only [msgInputLength, msgOutputMaxlength, msgOutputAddr, msgRes, sizeofMsgBuff]
  rw [hostAt_take (by decide), hostAt_take (by decide), hostAt_take (by decide), hostAt_take (by decide),
    hostAt_take (by decide), hostAt_take (by decide)]
  exact ⟨rfl, rfl, rfl, rfl, rfl, rfl⟩

/-- The first `read` gives the whole header exactly when the first segment holds it. -/
theorem recv_whole_iff : (recv e.ending sizeofMsgBuff e.segments).1 = sizeofMsgBuff ↔
    sizeofMsgBuff ≤ (e.segments.headD []).length := by
  have hend := e.ending_le
  rw [sizeofMsgBuff]
  cases e.segments with
  | nil => simpa [recv] using by omega
  | cons s ss =>
      rw [recv, List.headD_cons]
      split_ifs with hle
      · simp only [Nat.cast_inj]
        omega
      · simp only [true_iff]
        omega

/-- Where the header has arrived with the first `read`, what follows is the rest of the reply. -/
theorem recv_of_first (h : sizeofMsgBuff ≤ (e.segments.headD []).length) :
    (recv e.ending sizeofMsgBuff e.segments).1 = sizeofMsgBuff ∧
      recvMsg (recv e.ending sizeofMsgBuff e.segments).2.1 = e.segments.flatten.take sizeofMsgBuff ∧
      (recv e.ending sizeofMsgBuff e.segments).2.2.flatten = e.segments.flatten.drop sizeofMsgBuff := by
  cases hseg : e.segments with
  | nil =>
      rw [hseg] at h
      exact absurd h (by decide)
  | cons s ss =>
      rw [hseg, List.headD_cons] at h
      obtain ⟨hlen, hbytes, hrest⟩ := @recv_head e.ending sizeofMsgBuff s ss h
      rw [List.flatten_cons]
      refine ⟨hlen, ?_, hrest⟩
      rw [hbytes]
      refine recvMsg_take ?_
      rw [List.length_append]
      omega

theorem flatten_onePiece (e : ProxyEnv) : e.onePiece.segments.flatten = e.segments.flatten := by
  show (if e.segments.flatten = [] then [] else [e.segments.flatten]).flatten = _
  split_ifs with hnil
  · rw [hnil]
    rfl
  · rw [List.flatten_singleton]

end Header

section Reply

variable {h : HostCommand} {e : ProxyEnv} {o : Outcome}

theorem msgLength_lt (m : Bytes) : msgInputLength m < 2 ^ 31 ∧ msgOutputMaxlength m < 2 ^ 31 := by
  rw [msgInputLength, msgOutputMaxlength, int32, int32, Int.bmod_def, Int.bmod_def]
  omega

/-- What a good reply makes of the outcome: only its bytes count. -/
def answered (reply : Bytes) (o : Outcome) : Outcome :=
  { o with
    handled := true
    ret := some (msgRes reply)
    report := some (int32 (hostAt reply 76 4), int32 (hostAt reply 80 4))
    output := some (msgOutputAddr reply,
      fieldAt (reply.drop sizeofMsgBuff) (msgInputLength reply).toNat (msgOutputMaxlength reply).toNat)
    recvHeaderLen := sizeofMsgBuff
    recvTotalLen := msgInputLength reply + msgOutputMaxlength reply
    bodyLen := msgInputLength reply + msgOutputMaxlength reply }

/-- The bytes that `memcpy` takes from a buffer with the whole body in it. -/
theorem fieldAt_buffer {body : Bytes} {i k : ℕ} (hfits : i + k ≤ body.length) :
    fieldAt (body.take (i + k) ++ List.replicate (i + k - (body.take (i + k)).length) 0) i k = fieldAt body i k := by
  rw [List.length_take, Nat.min_eq_left hfits, Nat.sub_self, List.replicate_zero, List.append_nil, fieldAt,
    fieldAt, List.drop_take, List.take_take, Nat.add_sub_cancel_left, Nat.min_self]

/-- The two lengths of a reply, as the code adds them up. -/
theorem lengths {i k n : ℕ} (hpos : 0 < (i : ℤ) + k) (hint : (i : ℤ) + k < 2 ^ 31)
    (harrives : 96 + (i : ℤ) + k ≤ n) :
    int32 ((i : ℤ) + k) = (i + k : ℕ) ∧ 0 < i + k ∧ ((i + k : ℕ) : ℤ) ≠ 0 ∧ i + k ≤ n - 96 := by
  refine ⟨?_, by omega, by omega, by omega⟩
  rw [← Int.natCast_add]
  exact int32_eq (by omega) (by omega)

theorem lengths_arrive {i k n : ℕ} (hpos : 0 < i + k) (hfits : i + k ≤ n - 96) : (96 + i + k : ℤ) ≤ n := by
  omega

/-- **A good reply is taken as it is,** however its body is cut into segments. -/
theorem receive_good (hg : GoodReply h e) : receive e o = answered e.segments.flatten o := by
  obtain ⟨hfirst, hin0, hout0, hpos, hint, hrecv, harrives, -⟩ := hg
  obtain ⟨hlen, hmsg, hrest⟩ := recv_of_first hfirst
  obtain ⟨hin, hout, haddr, hres, hlength, hreturn⟩ := msg_take e.segments.flatten
  unfold receive answered
  dsimp only
  rw [hmsg, msgBodyLen, hin, hout, haddr, hres, hlength, hreturn, hlen]
  -- from here on the two lengths are numbers
  generalize msgInputLength e.segments.flatten = z at hin0 hpos hint harrives ⊢
  generalize msgOutputMaxlength e.segments.flatten = w at hout0 hpos hint harrives ⊢
  obtain ⟨i, rfl⟩ := Int.eq_ofNat_of_zero_le hin0
  obtain ⟨k, rfl⟩ := Int.eq_ofNat_of_zero_le hout0
  obtain ⟨htotal, hne, hneInt, hfits⟩ := lengths hpos hint harrives
  have hbody := @recvAll_eq e.ending (i + k) (recv e.ending sizeofMsgBuff e.segments).2.2 e.ending_le
    (recv_nonempty e.segments_ne) hne
  have hbuff : ¬ (¬ e.recvBuff = true ∨ ((i + k : ℕ) : ℤ) < 0) :=
    not_or.mpr ⟨not_not.mpr hrecv, not_lt.mpr (Int.natCast_nonneg _)⟩
  have hneg : ¬ ((i : ℤ) < 0 ∨ (k : ℤ) < 0) := not_or.mpr ⟨not_lt.mpr hin0, not_lt.mpr hout0⟩
  have hdrop : i + k ≤ (e.segments.flatten.drop sizeofMsgBuff).length := by
    rw [List.length_drop]
    exact hfits
  rw [hrest, if_pos hdrop] at hbody
  rw [htotal, Int.toNat_natCast, Int.toNat_natCast, Int.toNat_natCast, hbody, fieldAt_buffer hdrop,
    if_neg hneInt, if_neg hbuff, if_neg hneg]
  rfl

/-- What has happened when `receive` sets the flag. -/
theorem receive_handled (ho : o.handled = false) (hh : (receive e o).handled = true)
    (hf : (receive e o).fault = false) :
    let r := recv e.ending sizeofMsgBuff e.segments
    let m := recvMsg r.2.1
    let b := recvAll e.ending (msgBodyLen m).toNat r.2.2
    0 < msgBodyLen m ∧ e.recvBuff = true ∧ 0 ≤ msgInputLength m ∧ 0 ≤ msgOutputMaxlength m ∧
      receive e o = { o with
        handled := true
        ret := some (msgRes m)
        report := some (int32 (hostAt m 76 4), int32 (hostAt m 80 4))
        output := some (msgOutputAddr m,
          fieldAt (b.2 ++ List.replicate ((msgBodyLen m).toNat - b.2.length) 0) (msgInputLength m).toNat
            (msgOutputMaxlength m).toNat)
        recvHeaderLen := r.1
        recvTotalLen := b.1
        bodyLen := msgBodyLen m } := by
  unfold receive at hh hf ⊢
  dsimp only at hh hf ⊢
  generalize recvMsg (recv e.ending sizeofMsgBuff e.segments).2.1 = m at hh hf ⊢
  by_cases hzero : msgBodyLen m = 0
  · rw [if_pos hzero] at hh
    exact absurd (ho.symm.trans hh) (by decide)
  rw [if_neg hzero] at hh hf ⊢
  by_cases hbuff : ¬ e.recvBuff = true ∨ msgBodyLen m < 0
  · rw [if_pos hbuff] at hh
    exact absurd (ho.symm.trans hh) (by decide)
  rw [if_neg hbuff] at hh hf ⊢
  by_cases hneg : msgInputLength m < 0 ∨ msgOutputMaxlength m < 0
  · rw [if_pos hneg] at hf
    exact absurd (show true = false from hf) (by decide)
  obtain ⟨hrecv, hpos⟩ := not_or.mp hbuff
  obtain ⟨hin, hout⟩ := not_or.mp hneg
  rw [if_neg hneg]
  exact ⟨lt_of_le_of_ne (not_lt.mp hpos) (Ne.symm hzero), not_not.mp hrecv, not_lt.mp hin, not_lt.mp hout, rfl⟩

/-- A sum of two lengths that is positive as an `int` is not more than that. -/
theorem int32_add_pos {z w : ℤ} (hz : z < 2 ^ 31) (hw : w < 2 ^ 31) (hz0 : 0 ≤ z) (hw0 : 0 ≤ w)
    (hpos : 0 < int32 (z + w)) : 0 < z + w ∧ z + w < 2 ^ 31 := by
  rw [int32, Int.bmod_def] at hpos
  omega

/-- **A reply whose answer is whole and goes to the right place is a good one.** -/
theorem goodReply_of_receive (ho : o.handled = false) (hh : (receive e o).handled = true)
    (hf : (receive e o).fault = false)
    (hwhole : (receive e o).recvHeaderLen = sizeofMsgBuff ∧ (receive e o).recvTotalLen = (receive e o).bodyLen)
    (hinside : ∀ addr b, (receive e o).output = some (addr, b) → b ≠ [] →
      h.outputAddr ≤ addr ∧ (addr + b.length : ℤ) ≤ h.outputAddr + h.outputMaxlength) : GoodReply h e := by
  obtain ⟨hpos, hrecv, hin0, hout0, heq⟩ := receive_handled ho hh hf
  rw [heq] at hwhole hinside
  obtain ⟨hheader, htotal⟩ := hwhole
  have hfirst := recv_whole_iff.mp hheader
  obtain ⟨-, hmsg, hrest⟩ := recv_of_first hfirst
  obtain ⟨hin, hout, haddr, -⟩ := msg_take e.segments.flatten
  dsimp only at htotal hinside
  rw [hmsg] at hpos hin0 hout0 htotal hinside
  rw [msgBodyLen, hin, hout] at hpos htotal hinside
  rw [hin] at hin0
  rw [hout] at hout0
  rw [haddr] at hinside
  obtain ⟨hin31, hout31⟩ := msgLength_lt e.segments.flatten
  obtain ⟨hsum, hsum31⟩ := int32_add_pos hin31 hout31 hin0 hout0 hpos
  rw [int32_eq hsum.le hsum31] at htotal hinside
  -- from here on the two lengths are numbers
  suffices hgood : 96 + msgInputLength e.segments.flatten + msgOutputMaxlength e.segments.flatten ≤
      e.segments.flatten.length ∧ (msgOutputMaxlength e.segments.flatten ≠ 0 →
      h.outputAddr ≤ msgOutputAddr e.segments.flatten ∧
        msgOutputAddr e.segments.flatten + msgOutputMaxlength e.segments.flatten ≤ h.outputAddr + h.outputMaxlength) from
    ⟨hfirst, hin0, hout0, hsum, hsum31, hrecv, hgood.1, hgood.2⟩
  clear hpos heq hh hf hin hout haddr hin31 hout31
  generalize msgInputLength e.segments.flatten = z at *
  generalize msgOutputMaxlength e.segments.flatten = w at *
  generalize msgOutputAddr e.segments.flatten = addr at *
  obtain ⟨i, rfl⟩ := Int.eq_ofNat_of_zero_le hin0
  obtain ⟨k, rfl⟩ := Int.eq_ofNat_of_zero_le hout0
  rw [← Int.natCast_add] at htotal hinside hsum
  simp only [Int.toNat_natCast] at htotal hinside
  have hneed := recvAll_whole e.ending_le (recv_nonempty e.segments_ne) (Int.natCast_pos.mp hsum) htotal
  rw [hrest] at hneed
  obtain ⟨hfits, hbytes⟩ := hneed
  rw [hbytes, fieldAt_buffer hfits] at hinside
  have hlength : (fieldAt (e.segments.flatten.drop sizeofMsgBuff) i k).length = k := by
    rw [fieldAt, List.length_take, List.length_drop]
    exact Nat.min_eq_left (Nat.le_sub_of_add_le' hfits)
  rw [List.length_drop] at hfits
  refine ⟨lengths_arrive (Int.natCast_pos.mp hsum) hfits, fun hk => ?_⟩
  have hne : fieldAt (e.segments.flatten.drop sizeofMsgBuff) i k ≠ [] := by
    intro hnil
    rw [hnil, List.length_nil] at hlength
    exact hk (congrArg Int.ofNat hlength.symm)
  obtain ⟨hlow, hhigh⟩ := hinside _ _ rfl hne
  rw [hlength] at hhigh
  exact ⟨hlow, hhigh⟩

end Reply

section Answers

variable {h : HostCommand} {e : ProxyEnv}

theorem goodReply_onePiece (hg : GoodReply h e) : GoodReply h e.onePiece := by
  obtain ⟨hfirst, hin0, hout0, hpos, hint, hrecv, harrives, harea⟩ := hg
  have hflat := flatten_onePiece e
  refine ⟨?_, hflat ▸ hin0, hflat ▸ hout0, hflat ▸ hpos, hflat ▸ hint, hrecv, hflat ▸ harrives, hflat ▸ harea⟩
  show sizeofMsgBuff ≤ ((if e.segments.flatten = [] then [] else [e.segments.flatten]).headD []).length
  cases hseg : e.segments with
  | nil =>
      rw [hseg] at hfirst
      exact absurd hfirst (by decide)
  | cons s ss =>
      rw [hseg, List.headD_cons] at hfirst
      rw [List.flatten_cons]
      split_ifs with hnil
      · rw [(List.append_eq_nil_iff.mp hnil).1] at hfirst
        exact absurd hfirst (by decide)
      · rw [List.headD_cons, List.length_append]
        exact le_add_right hfirst

theorem length_fieldAt_le (b : Bytes) (off n : ℕ) : (fieldAt b off n).length ≤ n :=
  List.length_take_le n (b.drop off)

/-- A refused command is answered. -/
theorem answers_of_refuse {ret : ℤ} (hr : refuse h e = some ret) : Answers h e := by
  have hone : refuse h e.onePiece = some ret := hr
  have heq : osHandle h e = { start h with handled := true, ret := some ret } := by rw [osHandle, hr]
  refine ⟨?_, ?_, ?_, ?_, ?_, ?_⟩
  · rw [heq]
    rfl
  · rw [heq]
  · rw [heq]
    exact fun hany => absurd hany (by simp [start])
  · rw [heq]
    exact fun _ _ hout => nomatch hout
  · rw [heq, osHandle, hone]
  · rw [heq]
    exact fun _ => rfl

/-- A command that cannot be read faults. -/
theorem osHandle_unreadable (hr : refuse h e = none) (hread : ¬ Readable h e) : (osHandle h e).fault = true := by
  rw [Readable, Classical.not_imp] at hread
  rw [osHandle, hr]
  dsimp only
  rw [if_pos hread]

/-- A command that can be read is sent, where there is a connection. -/
theorem osHandle_readable (hr : refuse h e = none) (hread : Readable h e) :
    osHandle h e =
      if ¬ e.connected then start h else receive e { start h with sent := some (sendMsg h e) } := by
  rw [osHandle, hr]
  exact if_neg fun hnot => hnot.2 (hread hnot.1)

theorem osHandle_unconnected (hr : refuse h e = none) (hread : Readable h e) (hc : e.connected = false) :
    osHandle h e = start h := by
  rw [osHandle_readable hr hread, hc]
  exact if_pos (by decide)

theorem osHandle_connected (hr : refuse h e = none) (hread : Readable h e) (hc : e.connected = true) :
    osHandle h e = receive e { start h with sent := some (sendMsg h e) } := by
  rw [osHandle_readable hr hread, hc]
  exact if_neg (by decide)

/-- Receiving sends nothing, and always reports. -/
theorem receive_sent {o o' : Outcome} (heq : receive e o = o') : o'.sent = o.sent ∧ o'.report ≠ none := by
  unfold receive at heq
  dsimp only at heq
  split_ifs at heq
  all_goals
    subst heq
    exact ⟨rfl, Option.some_ne_none _⟩

/-- A command that meets a good reply is answered. -/
theorem answers_of_goodReply (hr : refuse h e = none) (hread : Readable h e) (hc : e.connected = true)
    (hres : h.reserved = false) (hg : GoodReply h e) : Answers h e := by
  have heq : osHandle h e = answered e.segments.flatten { start h with sent := some (sendMsg h e) } := by
    rw [osHandle_connected hr hread hc, receive_good hg]
  have hone : osHandle h e.onePiece = answered e.segments.flatten { start h with sent := some (sendMsg h e) } := by
    rw [osHandle_connected (show refuse h e.onePiece = none from hr) (show Readable h e.onePiece from hread) hc,
      receive_good (goodReply_onePiece hg), flatten_onePiece]
    rfl
  refine ⟨?_, ?_, ?_, ?_, ?_, ?_⟩
  · rw [heq]
    rfl
  · rw [heq]
    rfl
  · rw [heq]
    exact fun _ => ⟨rfl, rfl⟩
  · rw [heq]
    intro addr b hout hb
    obtain ⟨rfl, rfl⟩ := Prod.mk.inj (Option.some.inj hout)
    have hle := length_fieldAt_le (e.segments.flatten.drop sizeofMsgBuff) (msgInputLength e.segments.flatten).toNat
      (msgOutputMaxlength e.segments.flatten).toNat
    have hlen := (Int.ofNat_le.mpr hle).trans (Int.toNat_of_nonneg hg.output).le
    have hne : msgOutputMaxlength e.segments.flatten ≠ 0 := by
      intro hzero
      rw [hzero] at hb
      exact hb List.take_zero
    obtain ⟨hlow, hhigh⟩ := hg.area hne
    exact ⟨hlow, (Int.add_le_add_left hlen _).trans hhigh⟩
  · rw [heq, hone]
  · rw [hres]
    exact fun hfalse => nomatch hfalse

/-- A command without a connection is answered exactly when it is of the reserved type. -/
theorem answers_unconnected_iff (hr : refuse h e = none) (hread : Readable h e) (hc : e.connected = false) :
    Answers h e ↔ h.reserved = true := by
  have heq := osHandle_unconnected hr hread hc
  have hone : osHandle h e.onePiece = start h :=
    osHandle_unconnected (show refuse h e.onePiece = none from hr) (show Readable h e.onePiece from hread) hc
  refine ⟨fun hans => (congrArg Outcome.handled heq).symm.trans hans.handled, fun hres => ⟨?_, ?_, ?_, ?_, ?_, ?_⟩⟩
  · rw [heq]
    rfl
  · rw [heq]
    exact hres
  · rw [heq]
    exact fun hany => absurd hany (by simp [start])
  · rw [heq]
    exact fun _ _ hout => nomatch hout
  · rw [heq, hone]
  · rw [heq]
    exact fun _ => rfl

/-- A command that is sent is answered exactly when it is not of the reserved type and meets a
good reply. -/
theorem answers_connected_iff (hr : refuse h e = none) (hread : Readable h e) (hc : e.connected = true) :
    Answers h e ↔ h.reserved = false ∧ GoodReply h e := by
  refine ⟨fun hans => ?_, fun hgood => answers_of_goodReply hr hread hc hgood.1 hgood.2⟩
  obtain ⟨hfinishes, hhandled, hwhole, hinside, -, hreserved⟩ := hans
  rw [osHandle_connected hr hread hc] at hfinishes hhandled hwhole hinside hreserved
  have hres : h.reserved = false := by
    rw [Bool.eq_false_iff]
    intro htrue
    have hsent := hreserved htrue
    rw [(receive_sent rfl).1] at hsent
    exact nomatch hsent
  exact ⟨hres, goodReply_of_receive hres hhandled hfinishes (hwhole (.inl (receive_sent rfl).2)) hinside⟩

/-- A command with 12 bytes of input and room for 16 bytes of output at address 0x3000. -/
def pingCommand (cmdType : ℕ) : HostCommand where
  cmdType := cmdType
  cmdLength := 64
  cmdSequence := 1
  cmdAddrPhys := 0x1000
  inputAddr := 0x2000
  outputAddr := 0x3000
  inputLength := 12
  outputMaxlength := 16
  memory := fun _ => 0

/-- The reply of 124 bytes with all its output for `addr`, of which so many arrive first. -/
def pingReply (connected : Bool) (addr first : ℕ) : ProxyEnv where
  mapped := true
  sendBuff := true
  connected := connected
  recvBuff := true
  segments :=
    let b := List.replicate 32 0 ++ hostBytes 8 addr ++ hostBytes 4 12 ++ hostBytes 4 16 ++ List.replicate 48 0 ++
      List.replicate 28 7
    [b.take (first + 1), b.drop (first + 1)].filter (· ≠ [])
  ending := 0
  segments_ne := by
    intro s hs
    simpa using (List.mem_filter.mp hs).2
  ending_le := le_rfl

end Answers

end Proxy
end TsbAgent
