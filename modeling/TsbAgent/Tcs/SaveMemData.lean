/-
# Saving volatile data

`tcsk_save_mem_data` of `tss-main/tcs/tcsapi/tcsk/tcs_kernel.c` sends data and a password, each padded to four
bytes:

| offset | field |
| ---: | --- |
| 0 | `uiCmdTag`, `uiCmdLength`, `uiCmdCode` |
| 12 | `index`, `data_len`, `passwd_len` |
| 24 | the data, its padding, the password, its padding |

It checks `length + passwd_len` against what fits behind the 24 bytes, but not the padding, so up to four bytes too
many are written and sent.  And it makes the padding where the arguments are: `4 - db_len` zeros go to
`data + length`, and as many as the password needs to its terminator and behind it.  A negative `length` passes the
check too.

`framed_iff`: a request is what the arguments say exactly when both lengths are multiples of four, and the data is
not of a negative length and fits together with the password.
-/

import TsbAgent.Lib.Memory
import TsbAgent.Lib.Word
import TsbAgent.Tcs.Framing

namespace TsbAgent
namespace Tcs
namespace SaveMemData

open Libc Word
open FileIntegrity (align4 le_align4)

/-- `sizeof(save_data_passwd_pag)`. -/
def savePagSize : ℕ := 24

/-- The conversion to `uint32_t`. -/
def uint32 (z : ℤ) : ℕ := (z % 2 ^ 32).toNat

/-- The arguments, with the memory that the pointers are for. -/
structure Args where
  index : UInt32
  length : ℤ
  data : ℤ
  usepasswd : ℤ
  mem : Memory
  passwd : CStr
  length_int : -2 ^ 31 ≤ length ∧ length < 2 ^ 31
  passwd_at : mem.bytes usepasswd (passwd.strlen + 1) = passwd.bytes ++ [0]

/-- What comes back: the result of `tpcm_tddl_transmit_cmd` and the header of the response. -/
structure Reply where
  ret : ℤ
  tag : UInt32
  length : UInt32
  code : UInt32

/-- What the kernel gives: the buffers of `tdd_alloc_data_buffer`, with what is in the first, what lies behind
`b_buf` on the stack, and the reply. -/
structure Env where
  cmd : Option Memory
  rsp : Bool
  stack : ℕ → UInt8
  reply : Reply

/-- What the function returns. -/
inductive Ret
  | inputExceed
  | nomem
  | tddl (ret : ℤ)
  | badResponseTag
  | badResponse
  | tpcm (code : ℤ)

/-- A request that was sent: the copies into its buffer, the copies into the memory of the caller, and the bytes
given to `tpcm_tddl_transmit_cmd`. -/
structure Sent where
  writes : List (ℤ × Bytes)
  caller : List (ℤ × Bytes)
  bytes : Bytes

/-- `TPCM_TAG_RSP_COMMAND`. -/
def tagRspCommand : UInt32 := 0xC4

/-- `sizeof(tpcm_rsp_header_st)`. -/
def rspHeaderSize : UInt32 := 12

/-- The reply is looked at. -/
def Reply.check (r : Reply) : Ret :=
  if r.ret ≠ 0 then .tddl r.ret
  else if r.tag ≠ tagRspCommand then .badResponseTag
  else if r.code = 0 ∧ r.length ≠ rspHeaderSize then .badResponse
  else .tpcm (int32 r.code.toNat)

/-! ### The function -/

/-- `db_len` and `pb_len` at the end: the remainder in C has the sign of the length. -/
def padLen (n : ℤ) : ℤ := if n.tmod 4 = 0 then 0 else 4 - n.tmod 4

/-- `b_buf`, four zeros, and what lies behind. -/
def bBuf (stack : ℕ → UInt8) (n : ℕ) : Bytes := (List.range n).map fun i => if i < 4 then 0 else stack i

/-- The padding, behind `n` bytes at `p`. -/
def padWrites (stack : ℕ → UInt8) (p n : ℤ) : List (ℤ × Bytes) :=
  if n.tmod 4 ≠ 0 then [(p + n, bBuf stack (padLen n).toNat)] else []

namespace Args

variable (x : Args)

def passwdLen : ℤ := int32 x.passwd.strlen

def totalLen : ℤ := int32 (x.length + x.passwdLen)

/-- `cmdLen` at the end. -/
def cmdLen : ℕ := uint32 (savePagSize + x.totalLen + padLen x.length + padLen x.passwdLen)

/-- The memory after the data has its padding. -/
def dataPadded (stack : ℕ → UInt8) : Memory := x.mem.stores (padWrites stack x.data x.length)

/-- The memory after the password has its padding, too. -/
def bothPadded (stack : ℕ → UInt8) : Memory :=
  (x.dataPadded stack).stores (padWrites stack x.usepasswd x.passwdLen)

/-- The data with its padding, as it is copied; a negative number of bytes is none. -/
def dataCopy (stack : ℕ → UInt8) : Bytes :=
  (x.dataPadded stack).bytes x.data (int32 (x.length + padLen x.length)).toNat

/-- The password with its padding, as it is copied. -/
def passwdCopy (stack : ℕ → UInt8) : Bytes :=
  (x.bothPadded stack).bytes x.usepasswd (int32 (x.passwdLen + padLen x.passwdLen)).toNat

/-- The copies into the request, in their order. -/
def writes (stack : ℕ → UInt8) : List (ℤ × Bytes) :=
  [(0, netBytes 4 0xC1), (8, netBytes 4 0x1019), (12, netBytes 4 x.index.toNat),
    (16, netBytes 4 (uint32 x.length)), (20, netBytes 4 (uint32 x.passwdLen)),
    (savePagSize, x.dataCopy stack), (savePagSize + x.length + padLen x.length, x.passwdCopy stack),
    (4, netBytes 4 x.cmdLen)]

/-- The request, in a buffer that held `buf` before. -/
def sent (stack : ℕ → UInt8) (buf : Memory) : Sent where
  writes := x.writes stack
  caller := padWrites stack x.data x.length ++ padWrites stack x.usepasswd x.passwdLen
  bytes := (buf.stores (x.writes stack)).bytes 0 (int32 x.cmdLen).toNat

end Args

/-- `tcsk_save_mem_data`. -/
def tcskSaveMemData (x : Args) (e : Env) : Ret × Option Sent :=
  if cmdDefaultAllocSize - savePagSize < x.totalLen then (.inputExceed, none)
  else
    match e.cmd with
    | none => (.nomem, none)
    | some buf => if e.rsp then (e.reply.check, some (x.sent e.stack buf)) else (.nomem, none)

/-! ### What is claimed -/

/-- The bytes with zeros behind them, to a multiple of four. -/
def pad4 (b : Bytes) : Bytes := b ++ List.replicate (align4 b.length - b.length) 0

namespace Args

variable (x : Args)

/-- The data that is to be saved. -/
def dataBytes : Bytes := x.mem.bytes x.data x.length.toNat

/-- The padded data and the padded password. -/
def payload : Bytes := pad4 x.dataBytes ++ pad4 x.passwd.bytes

/-- The fields of the request that the arguments stand for. -/
def fields : List Bytes :=
  [netBytes 4 0xC1, netBytes 4 (savePagSize + x.payload.length), netBytes 4 0x1019, netBytes 4 x.index.toNat,
    netBytes 4 x.dataBytes.length, netBytes 4 x.passwd.strlen, x.payload]

end Args

/-- **A request in order:** its length field is the number of bytes sent, which the buffer has room for, as for
every copy; it is the fields of the arguments, and nothing is written to the memory of the caller. -/
structure Framed (x : Args) (s : Sent) : Prop where
  length : netAt s.bytes 4 4 = s.bytes.length
  fits : s.bytes.length ≤ cmdDefaultAllocSize
  inside : ∀ w ∈ s.writes, 0 ≤ w.1 ∧ w.1 + w.2.length ≤ cmdDefaultAllocSize
  fields : s.bytes = x.fields.flatten
  caller : s.caller = []

/-- The arguments are accepted. -/
structure Accepted (x : Args) (e : Env) : Prop where
  total : x.totalLen ≤ cmdDefaultAllocSize - savePagSize
  cmd : e.cmd.isSome = true
  rsp : e.rsp = true

/-- **The condition:** no padding is needed, and both lengths together leave room for the header. -/
structure Args.Aligned (x : Args) : Prop where
  nonneg : 0 ≤ x.length
  data : 4 ∣ x.length
  passwd : 4 ∣ x.passwd.strlen
  room : x.length + x.passwd.strlen ≤ cmdDefaultAllocSize - savePagSize

/-! ### The padding -/

section Padding

variable {stack : ℕ → UInt8} {p n : ℤ} {b : Bytes}

theorem padLen_of_dvd (h : 4 ∣ n) : padLen n = 0 := by
  rw [padLen, if_pos (Int.dvd_iff_tmod_eq_zero.mp h)]

theorem padWrites_eq_nil_iff : padWrites stack p n = [] ↔ 4 ∣ n := by
  rw [padWrites, Int.dvd_iff_tmod_eq_zero]
  rcases eq_or_ne (n.tmod 4) 0 with h | h
  · rw [if_neg (not_not.mpr h)]
    exact iff_of_true rfl h
  · rw [if_pos h]
    exact iff_of_false (List.cons_ne_nil _ _) h

theorem pad4_of_dvd (h : 4 ∣ b.length) : pad4 b = b := by
  have hzero : align4 b.length - b.length = 0 := by
    rw [align4, if_pos (Nat.mod_eq_zero_of_dvd h), Nat.sub_self]
  rw [pad4, hzero, List.replicate_zero, List.append_nil]

theorem length_pad4 (b : Bytes) : (pad4 b).length = align4 b.length := by
  have := le_align4 b.length
  rw [pad4, List.length_append, List.length_replicate]
  omega

end Padding

/-! ### A request without padding -/

section Aligned

variable {x : Args} {stack : ℕ → UInt8} {buf : Memory}

theorem length_dataBytes (x : Args) : x.dataBytes.length = x.length.toNat := Memory.length_bytes _ _ _

/-- The password is what stands at its place. -/
theorem bytes_usepasswd (x : Args) : x.mem.bytes x.usepasswd x.passwd.strlen = x.passwd.bytes := by
  have hat := x.passwd_at
  rw [Memory.bytes_add] at hat
  exact (List.append_inj hat (Memory.length_bytes _ _ _)).1

theorem length_payload (x : Args) : x.payload.length = align4 x.length.toNat + align4 x.passwd.strlen := by
  rw [Args.payload, List.length_append, length_pad4, length_pad4, length_dataBytes]
  rfl

theorem length_fields (x : Args) : x.fields.flatten.length = savePagSize + x.payload.length := by
  simp only [Args.fields, List.flatten_cons, List.flatten_nil, List.length_append, length_netBytes,
    List.length_nil, savePagSize]
  omega

theorem uint32_natCast {n : ℕ} (h : n < 2 ^ 32) : uint32 n = n := by
  rw [uint32]
  omega

theorem Args.Aligned.passwdLen (h : x.Aligned) : x.passwdLen = x.passwd.strlen := by
  have := h.room
  have := h.nonneg
  simp only [cmdDefaultAllocSize, savePagSize] at *
  exact int32_eq (by omega) (by omega)

theorem Args.Aligned.padLens (h : x.Aligned) : padLen x.length = 0 ∧ padLen x.passwdLen = 0 := by
  rw [h.passwdLen]
  exact ⟨padLen_of_dvd h.data, padLen_of_dvd (Int.natCast_dvd_natCast.mpr h.passwd)⟩

/-- Nothing is written to the memory of the caller. -/
theorem Args.Aligned.padWrites_eq_nil (h : x.Aligned) :
    padWrites stack x.data x.length = [] ∧ padWrites stack x.usepasswd x.passwdLen = [] := by
  rw [h.passwdLen]
  exact ⟨padWrites_eq_nil_iff.mpr h.data, padWrites_eq_nil_iff.mpr (Int.natCast_dvd_natCast.mpr h.passwd)⟩

theorem Args.Aligned.cmdLen (h : x.Aligned) : x.cmdLen = savePagSize + x.length.toNat + x.passwd.strlen := by
  have := h.room
  have := h.nonneg
  simp only [cmdDefaultAllocSize, savePagSize] at *
  have htotal : x.totalLen = x.length + x.passwd.strlen := by
    rw [Args.totalLen, h.passwdLen]
    exact int32_eq (by omega) (by omega)
  rw [Args.cmdLen, h.padLens.1, h.padLens.2, htotal, uint32]
  simp only [savePagSize]
  omega

theorem Args.Aligned.dataCopy (h : x.Aligned) : x.dataCopy stack = x.dataBytes := by
  have := h.room
  have := h.nonneg
  simp only [cmdDefaultAllocSize, savePagSize] at *
  have hlen : int32 (x.length + 0) = x.length := by
    rw [add_zero]
    exact int32_eq (by omega) (by omega)
  rw [Args.dataCopy, Args.dataPadded, h.padWrites_eq_nil.1, h.padLens.1, hlen]
  rfl

theorem Args.Aligned.passwdCopy (h : x.Aligned) : x.passwdCopy stack = x.passwd.bytes := by
  have := h.room
  have := h.nonneg
  simp only [cmdDefaultAllocSize, savePagSize] at *
  have hlen : (int32 (x.passwdLen + padLen x.passwdLen)).toNat = x.passwd.strlen := by
    rw [h.padLens.2, h.passwdLen, add_zero, int32_eq (by omega) (by omega), Int.toNat_natCast]
  rw [Args.passwdCopy, Args.bothPadded, Args.dataPadded, h.padWrites_eq_nil.1, h.padWrites_eq_nil.2, hlen]
  exact bytes_usepasswd x

theorem Args.Aligned.payload (h : x.Aligned) : x.payload = x.dataBytes ++ x.passwd.bytes := by
  have hdata : 4 ∣ x.dataBytes.length := by
    rw [length_dataBytes]
    have := h.data
    omega
  rw [Args.payload, pad4_of_dvd hdata, pad4_of_dvd h.passwd]

/-- The fields again, with the payload in two. -/
def Args.pieces (x : Args) : List Bytes :=
  [netBytes 4 0xC1, netBytes 4 (savePagSize + x.payload.length), netBytes 4 0x1019, netBytes 4 x.index.toNat,
    netBytes 4 x.dataBytes.length, netBytes 4 x.passwd.strlen, x.dataBytes, x.passwd.bytes]

/-- The copies of a request without padding. -/
theorem Args.Aligned.writes (h : x.Aligned) : x.writes stack =
    [(0, netBytes 4 0xC1), (8, netBytes 4 0x1019), (12, netBytes 4 x.index.toNat),
      (16, netBytes 4 x.dataBytes.length), (20, netBytes 4 x.passwd.strlen), (24, x.dataBytes),
      (24 + x.length, x.passwd.bytes), (4, netBytes 4 (savePagSize + x.payload.length))] := by
  have := h.room
  have := h.nonneg
  simp only [cmdDefaultAllocSize, savePagSize] at *
  have hlength : uint32 x.length = x.dataBytes.length := by
    rw [length_dataBytes, uint32]
    omega
  have hpayload : x.cmdLen = savePagSize + x.payload.length := by
    rw [h.cmdLen, h.payload, List.length_append, length_dataBytes, Nat.add_assoc]
    rfl
  rw [Args.writes, h.dataCopy, h.passwdCopy, hlength, hpayload, h.padLens.1, h.passwdLen,
    uint32_natCast (by omega), add_zero]
  rfl

/-- **A request without padding** is in order. -/
theorem Args.Aligned.framed (h : x.Aligned) : Framed x (x.sent stack buf) := by
  have hroom := h.room
  have hnonneg := h.nonneg
  simp only [cmdDefaultAllocSize, savePagSize] at hroom
  have hdata : (x.dataBytes.length : ℤ) = x.length := by
    rw [length_dataBytes]
    omega
  have hpasswd : x.passwd.bytes.length = x.passwd.strlen := rfl
  have hpayload : x.payload.length = x.dataBytes.length + x.passwd.bytes.length := by
    rw [h.payload, List.length_append]
  have hsep : Memory.Separate (x.writes stack) := by
    rw [h.writes]
    simp only [Memory.Separate, List.pairwise_cons, List.forall_mem_cons, Memory.Apart, length_netBytes,
      List.not_mem_nil, List.Pairwise.nil, false_implies, implies_true, and_true, Nat.cast_ofNat]
    omega
  have hflat : x.fields.flatten = x.pieces.flatten := by
    simp only [Args.fields, Args.pieces, List.flatten_cons, List.flatten_nil, List.append_nil, h.payload]
  have hlaid : Memory.Laid (x.writes stack) 0 x.pieces := by
    have hat : (0 + 4 + 4 + 4 + 4 + 4 + 4 + x.length : ℤ) = 24 + x.length := by omega
    rw [h.writes, Args.pieces]
    simp only [Memory.Laid, length_netBytes, Nat.cast_ofNat, hdata, hat]
    simp
  have hsent : (int32 x.cmdLen).toNat = x.pieces.flatten.length := by
    rw [← hflat, length_fields, h.cmdLen, int32_eq (by omega) (by simp only [savePagSize]; omega), hpayload]
    simp only [savePagSize]
    omega
  have hbytes : (x.sent stack buf).bytes = x.fields.flatten := by
    rw [Args.sent]
    dsimp only
    rw [hsent, hflat, Memory.bytes_stores_laid hsep hlaid]
  have hlength := length_fields x
  refine ⟨?_, ?_, ?_, hbytes, ?_⟩
  · have hnet : netAt x.fields.flatten 4 4 = savePagSize + x.payload.length := by
      rw [Args.fields, List.flatten_cons, List.flatten_cons, netAt_skip 4 0xC1 0 4, netAt_head, Nat.mod_eq_of_lt]
      simp only [savePagSize]
      omega
    rw [hbytes, hlength, hnet]
  · rw [hbytes, hlength, hpayload]
    simp only [cmdDefaultAllocSize, savePagSize]
    omega
  · change ∀ w ∈ x.writes stack, _
    rw [h.writes]
    simp only [List.forall_mem_cons, length_netBytes, cmdDefaultAllocSize, List.not_mem_nil, false_implies,
      implies_true, and_true, Nat.cast_ofNat]
    omega
  · change padWrites stack x.data x.length ++ padWrites stack x.usepasswd x.passwdLen = []
    rw [h.padWrites_eq_nil.1, h.padWrites_eq_nil.2, List.append_nil]

end Aligned

/-! ### Every other request -/

section Framed

variable {x : Args} {s : Sent} {stack : ℕ → UInt8} {buf : Memory}

/-- To `uint32_t` and back to `int`. -/
theorem int32_uint32 (z : ℤ) : int32 (uint32 z) = int32 z := by
  have hnonneg : 0 ≤ z % 2 ^ 32 := Int.emod_nonneg _ (by decide)
  rw [uint32, Int.toNat_of_nonneg hnonneg]
  exact Int.emod_bmod z (2 ^ 32)

theorem int32_of_range {z : ℤ} (h₀ : -2 ^ 31 ≤ z) (h₁ : z < 2 ^ 31) : int32 z = z := by
  rw [int32, Int.bmod_eq_of_le (by omega) (by omega)]

/-- What is sent for a negative length: too little by that length. -/
theorem length_sent_of_neg (hneg : x.length < 0) (hstrlen : x.passwd.strlen ≤ cmdDefaultAllocSize)
    (hdata : 4 ∣ x.length) (hpasswd : 4 ∣ x.passwd.strlen) :
    (x.sent stack buf).bytes.length = (savePagSize + x.length + x.passwd.strlen).toNat := by
  have hint := x.length_int.1
  simp only [cmdDefaultAllocSize] at hstrlen
  have hlen : x.passwdLen = x.passwd.strlen := int32_eq (by omega) (by omega)
  have htotal : x.totalLen = x.length + x.passwd.strlen := by
    rw [Args.totalLen, hlen]
    exact int32_of_range (by omega) (by omega)
  rw [Args.sent]
  dsimp only
  rw [Memory.length_bytes, Args.cmdLen, int32_uint32, htotal, padLen_of_dvd hdata, hlen,
    padLen_of_dvd (Int.natCast_dvd_natCast.mpr hpasswd), add_zero, add_zero, ← add_assoc]
  simp only [savePagSize]
  rw [int32_of_range (by omega) (by omega)]

/-- A password whose length is a multiple of four as an `int` has such a length. -/
theorem dvd_strlen_of_dvd_passwdLen (h : 4 ∣ x.passwdLen) : 4 ∣ x.passwd.strlen := by
  obtain ⟨k, hk⟩ := @Int.dvd_bmod_sub_self x.passwd.strlen (2 ^ 32)
  rw [Args.passwdLen, int32] at h
  omega

/-- **A request in order** had no padding. -/
theorem Framed.aligned (h : Framed x (x.sent stack buf)) : x.Aligned := by
  have hcaller : padWrites stack x.data x.length ++ padWrites stack x.usepasswd x.passwdLen = [] := h.caller
  rw [List.append_eq_nil_iff, padWrites_eq_nil_iff, padWrites_eq_nil_iff] at hcaller
  obtain ⟨hdata, hpasswd⟩ := hcaller
  have hstrlen := dvd_strlen_of_dvd_passwdLen hpasswd
  have hfits := h.fits
  rw [h.fields, length_fields, length_payload] at hfits
  have hstrlen4 : align4 x.passwd.strlen = x.passwd.strlen := if_pos (Nat.mod_eq_zero_of_dvd hstrlen)
  have halign := le_align4 x.length.toNat
  simp only [cmdDefaultAllocSize, savePagSize] at hfits
  rcases lt_or_ge x.length 0 with hneg | hnonneg
  · -- fewer bytes are sent than there are fields
    have hlength := congrArg List.length h.fields
    rw [length_fields, length_payload, length_sent_of_neg hneg (by simp only [cmdDefaultAllocSize]; omega) hdata
      hstrlen] at hlength
    simp only [savePagSize] at hlength
    omega
  · refine ⟨hnonneg, hdata, hstrlen, ?_⟩
    simp only [cmdDefaultAllocSize, savePagSize]
    omega

end Framed

/-- **When a request is in order:** that is so for every one that `tcsk_save_mem_data` sends for the arguments,
**exactly when** they are not accepted, or both lengths are multiples of four, the data is not of a negative
length, and there is room for both. -/
theorem framed_iff (x : Args) (e : Env) :
    (∀ s, (tcskSaveMemData x e).2 = some s → Framed x s) ↔ (Accepted x e → x.Aligned) := by
  rw [tcskSaveMemData]
  rcases lt_or_ge (cmdDefaultAllocSize - savePagSize : ℤ) x.totalLen with htotal | htotal
  · rw [if_pos htotal]
    refine iff_of_true (fun s hs => by cases hs) fun hacc => ?_
    exact absurd hacc.total (not_le.mpr htotal)
  · rw [if_neg (not_lt.mpr htotal)]
    cases hcmd : e.cmd with
    | none =>
        refine iff_of_true (fun s hs => by cases hs) fun hacc => ?_
        have hsome := hacc.cmd
        rw [hcmd] at hsome
        cases hsome
    | some buf =>
        dsimp only
        split_ifs with hrsp
        · have hacc : Accepted x e := ⟨htotal, by rw [hcmd]; rfl, hrsp⟩
          constructor
          · exact fun hall _ => (hall _ rfl).aligned
          · intro hcond s hs
            obtain rfl := Option.some.inj hs
            exact (hcond hacc).framed
        · refine iff_of_true (fun s hs => by cases hs) fun hacc => ?_
          exact absurd hacc.rsp hrsp

theorem nulFree_passwd : (0 : UInt8) ∉ ([97] : Bytes) := by decide

/-- 8167 bytes of data, and a password of one character that does not follow them. -/
def nearLimit : Args where
  index := 1
  length := 8167
  data := 0
  usepasswd := 0x10000
  mem := fun p => if p = 0x10000 then 97 else 0
  passwd := ⟨[97], nulFree_passwd⟩
  length_int := by decide
  passwd_at := by decide +kernel

/-- Everything is granted, and the reply says that all went well. -/
def allGranted : Env := ⟨some fun _ => 0, true, fun _ => 0, ⟨0, tagRspCommand, rspHeaderSize, 0⟩⟩

/-- The request has 8196 bytes, in a buffer of 8192, and four bytes of the caller were written to. -/
theorem near_limit_sends_too_much :
    ∃ s, (tcskSaveMemData nearLimit allGranted).2 = some s ∧ s.bytes.length = 8196 ∧
      s.caller = [(8167, [0]), (0x10001, [0, 0, 0])] ∧ ¬ Framed nearLimit s := by
  refine ⟨nearLimit.sent (fun _ => 0) fun _ => 0, rfl, ?_, by decide +kernel, fun h => ?_⟩
  · rw [Args.sent]
    dsimp only
    rw [Memory.length_bytes]
    decide +kernel
  · exact absurd h.caller (by decide +kernel)

end SaveMemData
end Tcs
end TsbAgent
