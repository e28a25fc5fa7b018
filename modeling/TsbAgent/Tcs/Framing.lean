/-
# Requests as bytes

Four functions of `tss-main/tcs/tcsapi/tcsu` lay out a request for the TPCM: a header of
tag, length and code, a user id and an authentication blob, each with its size and padded
to four bytes, and an index and a key id after them or a switch before them.

`tcs_generate_key`, `tcs_get_index_pubkey` and `tcs_get_ek_pubkey` (`tcs_auth.c`) write the
key id at `req + cmdLen`.  `req` points to a structure of twelve bytes, so the key id goes
twelve times too far, past the end of what is sent, and 32 bytes as `malloc` left them are
sent in its place.  `tcs_set_measure_control_switch` (`tcs_policy.c`) computes its length
without the padding of the user id, so what is sent stops before the end of the
authentication unless there is no padding.  `request_framed_iff` puts both together.
-/

import TsbAgent.Lib.Word
import TsbAgent.Tcs.Basic
import TsbAgent.FileIntegrity.Format

namespace TsbAgent
namespace Tcs

open Libc Word
open FileIntegrity (align4 le_align4)

/-! ### Memory that is written to -/

/-- The memory after `b` has been copied to `off`. -/
def Mem.store (m : Mem) (off : ℕ) (b : Bytes) : Mem :=
  fun p => if off ≤ p ∧ p < off + b.length then b.getD (p - off) 0 else m p

/-- The memory after some copies, the first one first. -/
def Mem.stores (m : Mem) (ws : List (ℕ × Bytes)) : Mem := ws.foldl (fun m w => m.store w.1 w.2) m

/-- The copy has no byte in common with `n` bytes from `p`. -/
def Apart (p n : ℕ) (w : ℕ × Bytes) : Prop := p + n ≤ w.1 ∨ w.1 + w.2.length ≤ p

/-- A request in its buffer: the copies that make it, the size of the part of the buffer
that is for it, and the number of bytes given to `tpcm_transmit`. -/
structure Frame where
  writes : List (ℕ × Bytes)
  part : ℕ
  sent : ℕ

/-- The bytes that are sent, when the buffer held `m` before. -/
def Frame.transmitted (f : Frame) (m : Mem) : Bytes := (m.stores f.writes).bytes 0 f.sent

/-! ### The building blocks -/

/-- `sizeof(tpcm_req_header_st)`. -/
def reqHeaderSize : ℕ := 12

/-- The header is written last, or first. -/
def headerWrites (cmdLen : ℕ) (code : UInt32) : List (ℕ × Bytes) :=
  [(0, netBytes 4 0xC1), (4, netBytes 4 cmdLen), (8, netBytes 4 code.toNat)]

/-- The user id with its end, nothing for `NULL`. -/
def uidBytes (uid : Option CStr) : Bytes :=
  match uid with
  | none => []
  | some s => s.bytes ++ [0]

/-- `httc_insert_uid_align4` at `p`: the copies. -/
def httcInsertUidAlign4 (uid : Option CStr) (p : ℕ) : List (ℕ × Bytes) :=
  [(p + 4, uidBytes uid), (p, netBytes 4 (uidBytes uid).length)]

/-- Its return value. -/
def uidSize (uid : Option CStr) : ℕ := 4 + align4 (uidBytes uid).length

/-- `httc_insert_auth_align4` at `p`: the copies. -/
def httcInsertAuthAlign4 (authType : UInt32) (auth : Bytes) (p : ℕ) : List (ℕ × Bytes) :=
  [(p, netBytes 4 authType.toNat), (p + 4, netBytes 4 auth.length), (p + 8, auth)]

/-- Its return value. -/
def authSize (auth : Bytes) : ℕ := 8 + align4 auth.length

/-! ### The key commands -/

/-- `MAX_CERT_NEW_SIZE`. -/
def maxCertNewSize : ℕ := 2048

/-- `CMD_DEFAULT_ALLOC_SIZE`. -/
def cmdDefaultAllocSize : ℕ := 8192

/-- `KEY_ID_LEN`. -/
def keyIdLen : ℕ := 32

/-- The arguments of the key commands: `key` says whether there is a place for the result,
`malloc` whether there is a buffer. -/
structure KeyArgs where
  uid : Option CStr
  certType : UInt32
  auth : Option Bytes
  index : UInt32
  id : Option { b : Bytes // b.length = keyIdLen }
  key : Bool
  malloc : Bool

namespace KeyArgs

variable (x : KeyArgs)

def authBytes : Bytes := x.auth.getD []

/-- The key id, zeros for `NULL`. -/
def idBytes : Bytes :=
  match x.id with
  | none => List.replicate keyIdLen 0
  | some b => b.1

/-- Where the authentication starts. -/
def authAt : ℕ := reqHeaderSize + uidSize x.uid

/-- Where the index stands. -/
def indexAt : ℕ := x.authAt + authSize x.authBytes

/-- Where the key id belongs. -/
def idAt : ℕ := x.indexAt + 4

end KeyArgs

/-- The request that the three functions build, from the code and the index of each.  The
key id is copied to `req + cmdLen`, where `req` is a `tpcm_req_header_st *`. -/
def keyFrame (code index : UInt32) (x : KeyArgs) : Frame where
  writes := httcInsertUidAlign4 x.uid reqHeaderSize ++
    httcInsertAuthAlign4 x.certType x.authBytes x.authAt ++
    [(x.indexAt, netBytes 4 index.toNat), (reqHeaderSize * x.idAt, x.idBytes)] ++
    headerWrites (x.idAt + keyIdLen) code
  part := cmdDefaultAllocSize / 2
  sent := x.idAt + keyIdLen

/-- The part that the three functions share. -/
def keyRequest (code index : UInt32) (x : KeyArgs) : Except TssErr Frame :=
  if x.authBytes.length = 0 ∨ x.authBytes.length > maxCertNewSize then .error .parameter
  else if x.uid = none ∨ x.auth = none ∨ ¬ x.key then .error .parameter
  else if ¬ x.malloc then .error .nomem
  else .ok (keyFrame code index x)

/-- `tcs_generate_key`. -/
def tcsGenerateKey (x : KeyArgs) : Except TssErr Frame := keyRequest 0x1201 x.index x

/-- `tcs_get_index_pubkey`. -/
def tcsGetIndexPubkey (x : KeyArgs) : Except TssErr Frame := keyRequest 0x1202 x.index x

/-- `EK_INDEX`. -/
def ekIndex : UInt32 := 2

/-- `tcs_get_ek_pubkey`: the index is fixed. -/
def tcsGetEkPubkey (x : KeyArgs) : Except TssErr Frame := keyRequest 0x120B ekIndex x

/-! ### The measurement switch -/

/-- `sizeof(struct measure_ctrl_switch)`. -/
def measureCtrlSwitchSize : ℕ := 48

/-- The arguments of `tcs_set_measure_control_switch`; the length of the request is an
`int`. -/
structure SwitchArgs where
  ctrl : { b : Bytes // b.length = measureCtrlSwitchSize }
  uid : Option CStr
  authType : UInt32
  auth : Bytes
  malloc : Bool
  fits : reqHeaderSize + measureCtrlSwitchSize + 12 + (uidBytes uid).length + auth.length < 2 ^ 31

/-- Where the user id starts. -/
def switchUidAt : ℕ := reqHeaderSize + measureCtrlSwitchSize

/-- Where the authentication starts. -/
def SwitchArgs.authAt (y : SwitchArgs) : ℕ := switchUidAt + uidSize y.uid

/-- `cmdLen`: the sizes as they are, without padding. -/
def SwitchArgs.cmdLen (y : SwitchArgs) : ℕ :=
  switchUidAt + 4 + (uidBytes y.uid).length + 8 + y.auth.length

/-- The request: the response starts right after `cmdLen` bytes. -/
def switchFrame (y : SwitchArgs) : Frame where
  writes := headerWrites y.cmdLen 0x1020 ++ [(reqHeaderSize, y.ctrl.1)] ++
    httcInsertUidAlign4 y.uid switchUidAt ++ httcInsertAuthAlign4 y.authType y.auth y.authAt
  part := y.cmdLen
  sent := y.cmdLen

/-- `tcs_set_measure_control_switch`. -/
def tcsSetMeasureControlSwitch (y : SwitchArgs) : Except TssErr Frame :=
  if ¬ y.malloc then .error .nomem
  else .ok (switchFrame y)

/-! ### Reading a request -/

/-- The number in network order at `off`. -/
def numAt (b : Bytes) (off : ℕ) : ℕ := ofNet (fieldAt b off 4)

/-- `httc_extract_uid_align4_size`. -/
def httcExtractUidAlign4Size (b : Bytes) (off : ℕ) : ℕ := 4 + align4 (numAt b off)

/-- `httc_extract_auth_align4_size`. -/
def httcExtractAuthAlign4Size (b : Bytes) (off : ℕ) : ℕ := 8 + align4 (numAt b (off + 4))

/-- The user id and the authentication that start at `off`. -/
structure Credentials where
  uid : Bytes
  authType : ℕ
  auth : Bytes
deriving DecidableEq

def credentialsAt (b : Bytes) (off : ℕ) : Credentials :=
  let authAt := off + httcExtractUidAlign4Size b off
  { uid := fieldAt b (off + 4) (numAt b off)
    authType := numAt b authAt
    auth := fieldAt b (authAt + 8) (numAt b (authAt + 4)) }

/-- Where the credentials end. -/
def credentialsEnd (b : Bytes) (off : ℕ) : ℕ :=
  let authAt := off + httcExtractUidAlign4Size b off
  authAt + httcExtractAuthAlign4Size b authAt

/-- **A frame in order:** the length field is the number of bytes sent, and nothing is
written outside the part of the buffer for the request. -/
structure FrameOk (f : Frame) (m : Mem) : Prop where
  length : numAt (f.transmitted m) 4 = (f.transmitted m).length
  inside : ∀ w ∈ f.writes, w.1 + w.2.length ≤ f.part

/-- One of the four requests with its arguments. -/
inductive Request
  | generateKey (x : KeyArgs)
  | getIndexPubkey (x : KeyArgs)
  | getEkPubkey (x : KeyArgs)
  | setMeasureControlSwitch (y : SwitchArgs)

def Request.build : Request → Except TssErr Frame
  | generateKey x => tcsGenerateKey x
  | getIndexPubkey x => tcsGetIndexPubkey x
  | getEkPubkey x => tcsGetEkPubkey x
  | setMeasureControlSwitch y => tcsSetMeasureControlSwitch y

/-- A key command that reads back as its arguments. -/
def KeyReads (code index : UInt32) (x : KeyArgs) (b : Bytes) : Prop :=
  numAt b 0 = 0xC1 ∧ numAt b 8 = code.toNat ∧
    credentialsAt b reqHeaderSize = ⟨uidBytes x.uid, x.certType.toNat, x.authBytes⟩ ∧
    numAt b (credentialsEnd b reqHeaderSize) = index.toNat ∧
    fieldAt b (credentialsEnd b reqHeaderSize + 4) keyIdLen = x.idBytes

/-- A switch command that reads back as its arguments. -/
def SwitchReads (y : SwitchArgs) (b : Bytes) : Prop :=
  numAt b 0 = 0xC1 ∧ numAt b 8 = 0x1020 ∧
    fieldAt b reqHeaderSize measureCtrlSwitchSize = y.ctrl.1 ∧
    credentialsAt b switchUidAt = ⟨uidBytes y.uid, y.authType.toNat, y.auth⟩

/-- What is sent reads back as the arguments. -/
def Request.Reads (b : Bytes) : Request → Prop
  | generateKey x => KeyReads 0x1201 x.index x b
  | getIndexPubkey x => KeyReads 0x1202 x.index x b
  | getEkPubkey x => KeyReads 0x120B ekIndex x b
  | setMeasureControlSwitch y => SwitchReads y b

/-- **The round trip**, in a buffer that held `m` before. -/
def Request.Framed (r : Request) (m : Mem) : Prop :=
  ∀ f, r.build = .ok f → FrameOk f m ∧ r.Reads (f.transmitted m)

/-- A key command passes the checks of its function. -/
structure KeyArgs.Accepted (x : KeyArgs) : Prop where
  auth : 1 ≤ x.authBytes.length ∧ x.authBytes.length ≤ maxCertNewSize
  uid : x.uid ≠ none
  key : x.key = true
  malloc : x.malloc = true

/-- **When the round trip holds.**  For a key command: `malloc` happens to leave the key id
where it belongs, and twelve times the offset is still inside the part for the request.
For the switch: the user id with its end needs no padding. -/
def Request.Fits (m : Mem) : Request → Prop
  | generateKey x | getIndexPubkey x | getEkPubkey x => x.Accepted →
      m.bytes x.idAt keyIdLen = x.idBytes ∧ reqHeaderSize * x.idAt + keyIdLen ≤ cmdDefaultAllocSize / 2
  | setMeasureControlSwitch y => y.malloc = true → (uidBytes y.uid).length % 4 = 0

section Memory

variable {m : Mem} {p n off : ℕ} {b : Bytes} {ws : List (ℕ × Bytes)}

theorem bytes_store_self : (m.store off b).bytes off b.length = b := by
  refine List.ext_getElem (by simp) fun i h₁ h₂ => ?_
  simp [Mem.bytes, Mem.store, h₂]

theorem bytes_store_of_apart (h : Apart p n (off, b)) : (m.store off b).bytes p n = m.bytes p n := by
  refine List.map_congr_left fun i hi => ?_
  have hi := List.mem_range.mp hi
  change p + n ≤ off ∨ off + b.length ≤ p at h
  have hout : ¬ (off ≤ p + i ∧ p + i < off + b.length) := by omega
  rw [Mem.store, if_neg hout]

/-- What no copy touches stays. -/
theorem bytes_stores_of_apart (h : ∀ w ∈ ws, Apart p n w) : (m.stores ws).bytes p n = m.bytes p n := by
  induction ws generalizing m with
  | nil => rfl
  | cons w ws ih =>
      obtain ⟨hw, hrest⟩ := List.forall_mem_cons.mp h
      change ((m.store w.1 w.2).stores ws).bytes p n = m.bytes p n
      rw [ih hrest, bytes_store_of_apart hw]

/-- What one of some copies that do not overlap wrote stays. -/
theorem bytes_stores_of_mem (h : ws.Pairwise fun w v => Apart w.1 w.2.length v)
    (hmem : (off, b) ∈ ws) : (m.stores ws).bytes off b.length = b := by
  induction ws generalizing m with
  | nil => cases hmem
  | cons w ws ih =>
      obtain ⟨hw, hrest⟩ := List.pairwise_cons.mp h
      change ((m.store w.1 w.2).stores ws).bytes off b.length = b
      rcases List.mem_cons.mp hmem with rfl | hmem
      · rw [bytes_stores_of_apart hw, bytes_store_self]
      · exact ih hrest hmem

/-- A field of the bytes from 0 is a piece of the memory. -/
theorem fieldAt_bytes {k : ℕ} (h : off + n ≤ k) : fieldAt (m.bytes 0 k) off n = m.bytes off n := by
  refine List.ext_getElem (by simp [fieldAt]; omega) fun i h₁ h₂ => ?_
  simp [fieldAt, Mem.bytes]

end Memory

section Transmitted

variable {f : Frame} {m : Mem} {off : ℕ} {b : Bytes} {uid auth : Bytes} {v ty : ℕ}

@[simp] theorem Frame.length_transmitted : (f.transmitted m).length = f.sent := by
  rw [Frame.transmitted, Mem.length_bytes]

/-- A field that no other copy overlaps is sent as it was written. -/
theorem fieldAt_transmitted (h : f.writes.Pairwise fun w v => Apart w.1 w.2.length v)
    (hmem : (off, b) ∈ f.writes) (hs : off + b.length ≤ f.sent) :
    fieldAt (f.transmitted m) off b.length = b := by
  rw [Frame.transmitted, fieldAt_bytes hs, bytes_stores_of_mem h hmem]

theorem numAt_transmitted (h : f.writes.Pairwise fun w v => Apart w.1 w.2.length v)
    (hmem : (off, netBytes 4 v) ∈ f.writes) (hv : v < 2 ^ 32) (hs : off + 4 ≤ f.sent) :
    numAt (f.transmitted m) off = v := by
  have hlen : (netBytes 4 v).length = 4 := length_netBytes 4 v
  have hfield := fieldAt_transmitted (m := m) h hmem (by rwa [hlen])
  rw [hlen] at hfield
  rw [numAt, hfield, ofNet_netBytes_of_lt (by norm_num; omega)]

/-- The credentials, from their five fields. -/
theorem credentialsAt_eq (hu : numAt b off = uid.length) (huid : fieldAt b (off + 4) uid.length = uid)
    (hty : numAt b (off + (4 + align4 uid.length)) = ty)
    (ha : numAt b (off + (4 + align4 uid.length) + 4) = auth.length)
    (hauth : fieldAt b (off + (4 + align4 uid.length) + 8) auth.length = auth) :
    credentialsAt b off = ⟨uid, ty, auth⟩ ∧
      credentialsEnd b off = off + (4 + align4 uid.length) + (8 + align4 auth.length) := by
  have hsize : httcExtractUidAlign4Size b off = 4 + align4 uid.length := by
    rw [httcExtractUidAlign4Size, hu]
  constructor
  · simp only [credentialsAt, hsize, hu, huid, hty, ha, hauth]
  · simp only [credentialsEnd, hsize, httcExtractAuthAlign4Size, ha]

end Transmitted

section KeyCommands

variable {code index : UInt32} {x : KeyArgs} {f : Frame} {m : Mem}

theorem keyRequest_eq_ok : keyRequest code index x = .ok f ↔ x.Accepted ∧ f = keyFrame code index x := by
  unfold keyRequest
  split_ifs with h₁ h₂ h₃
  · refine ⟨nofun, fun ⟨h, _⟩ => ?_⟩
    have := h.auth
    omega
  · refine ⟨nofun, fun ⟨h, _⟩ => ?_⟩
    rcases h₂ with h₂ | h₂ | h₂
    · exact absurd h₂ h.uid
    · have hauth := h.auth
      rw [KeyArgs.authBytes, h₂] at hauth
      exact absurd hauth.1 (by decide)
    · exact absurd h.key h₂
  · push Not at h₁ h₂
    refine ⟨fun h => ⟨⟨by omega, h₂.1, h₂.2.2, h₃⟩, ?_⟩, fun ⟨_, h⟩ => by rw [h]⟩
    injection h with h
    exact h.symm
  · exact ⟨nofun, fun ⟨h, _⟩ => absurd h.malloc h₃⟩

theorem length_keyId : x.idBytes.length = keyIdLen := by
  unfold KeyArgs.idBytes
  split
  · rw [List.length_replicate]
  · rename_i b _
    exact b.2

/-- The copies of a key command, one by one. -/
theorem keyFrame_writes : (keyFrame code index x).writes =
    [(16, uidBytes x.uid), (12, netBytes 4 (uidBytes x.uid).length),
      (x.authAt, netBytes 4 x.certType.toNat), (x.authAt + 4, netBytes 4 x.authBytes.length),
      (x.authAt + 8, x.authBytes), (x.indexAt, netBytes 4 index.toNat),
      (12 * x.idAt, x.idBytes), (0, netBytes 4 0xC1), (4, netBytes 4 (x.idAt + keyIdLen)),
      (8, netBytes 4 code.toNat)] := rfl

theorem authAt_eq : x.authAt = 16 + align4 (uidBytes x.uid).length := by
  rw [KeyArgs.authAt, uidSize, reqHeaderSize]
  omega

theorem indexAt_eq : x.indexAt = x.authAt + 8 + align4 x.authBytes.length := by
  rw [KeyArgs.indexAt, authSize]
  omega

theorem idAt_eq : x.idAt = x.indexAt + 4 := rfl

/-- Only the key id can go past the part for the request. -/
theorem keyFrame_inside : (∀ w ∈ (keyFrame code index x).writes,
    w.1 + w.2.length ≤ (keyFrame code index x).part) ↔ 12 * x.idAt + 32 ≤ 4096 := by
  have hu := le_align4 (uidBytes x.uid).length
  have ha := le_align4 x.authBytes.length
  have hid : x.idBytes.length = 32 := length_keyId
  have hauthAt := authAt_eq (x := x)
  have hindexAt := indexAt_eq (x := x)
  have hidAt := idAt_eq (x := x)
  have hpart : (keyFrame code index x).part = 4096 := rfl
  simp only [keyFrame_writes, List.forall_mem_cons, length_netBytes, hid, hpart, List.not_mem_nil,
    false_implies, implies_true, and_true]
  omega

/-- The copies do not overlap: the key id, at twelve times its offset, is past all the others. -/
theorem keyFrame_pairwise :
    (keyFrame code index x).writes.Pairwise fun w v => Apart w.1 w.2.length v := by
  have hu := le_align4 (uidBytes x.uid).length
  have ha := le_align4 x.authBytes.length
  have hid : x.idBytes.length = 32 := length_keyId
  have hauthAt := authAt_eq (x := x)
  have hindexAt := indexAt_eq (x := x)
  have hidAt := idAt_eq (x := x)
  simp only [keyFrame_writes, List.pairwise_cons, List.forall_mem_cons, Apart, length_netBytes, hid,
    List.not_mem_nil, false_implies, implies_true, and_true, List.Pairwise.nil]
  and_intros <;> omega

/-- Everything but the key id reads back, whatever the lengths are modulo 4; in place of the
key id stands what the buffer held before. -/
theorem keyFrame_reads (hfits : x.idAt + 32 < 2 ^ 32) {b : Bytes}
    (hb : b = (keyFrame code index x).transmitted m) :
    (numAt b 4 = b.length ∧ numAt b 0 = 0xC1 ∧ numAt b 8 = code.toNat) ∧
      (credentialsAt b reqHeaderSize = ⟨uidBytes x.uid, x.certType.toNat, x.authBytes⟩ ∧
        credentialsEnd b reqHeaderSize = x.indexAt) ∧
      numAt b x.indexAt = index.toNat ∧ fieldAt b x.idAt keyIdLen = m.bytes x.idAt keyIdLen := by
  have hu := le_align4 (uidBytes x.uid).length
  have ha := le_align4 x.authBytes.length
  have hauthAt := authAt_eq (x := x)
  have hindexAt := indexAt_eq (x := x)
  have hidAt := idAt_eq (x := x)
  have hsent : (keyFrame code index x).sent = x.idAt + 32 := rfl
  have hnum {off v : ℕ} (hmem : (off, netBytes 4 v) ∈ (keyFrame code index x).writes) (hv : v < 2 ^ 32)
      (hs : off + 4 ≤ x.idAt + 32) : numAt b off = v :=
    hb ▸ numAt_transmitted keyFrame_pairwise hmem hv hs
  have hfield {off : ℕ} {c : Bytes} (hmem : (off, c) ∈ (keyFrame code index x).writes)
      (hs : off + c.length ≤ x.idAt + 32) : fieldAt b off c.length = c :=
    hb ▸ fieldAt_transmitted keyFrame_pairwise hmem hs
  simp only [keyFrame_writes, List.mem_cons] at hnum hfield
  refine ⟨⟨?_, ?_, ?_⟩, ?_, ?_, ?_⟩
  · rw [hb, Frame.length_transmitted, hsent, ← hb]
    exact hnum (by simp [keyIdLen]) hfits (by omega)
  · exact hnum (by simp) (by omega) (by omega)
  · exact hnum (by simp) code.toNat_lt (by omega)
  · have hsize : numAt b 12 = (uidBytes x.uid).length := hnum (by simp) (by omega) (by omega)
    have huid : fieldAt b 16 (uidBytes x.uid).length = uidBytes x.uid := hfield (by simp) (by omega)
    have htype : numAt b x.authAt = x.certType.toNat := hnum (by simp) x.certType.toNat_lt (by omega)
    have hlen : numAt b (x.authAt + 4) = x.authBytes.length := hnum (by simp) (by omega) (by omega)
    have hauth : fieldAt b (x.authAt + 8) x.authBytes.length = x.authBytes :=
      hfield (by simp) (by omega)
    exact credentialsAt_eq hsize huid htype hlen hauth
  · exact hnum (by simp) index.toNat_lt (by omega)
  · rw [hb, Frame.transmitted, hsent]
    refine (fieldAt_bytes le_rfl).trans (bytes_stores_of_apart ?_)
    have hid : x.idBytes.length = 32 := length_keyId
    have hlen : keyIdLen = 32 := rfl
    simp only [keyFrame_writes, List.forall_mem_cons, Apart, length_netBytes, hid, hlen,
      List.not_mem_nil, false_implies, implies_true, and_true]
    and_intros <;> omega

/-- **A key command** is a round trip exactly when the key id is there by chance. -/
theorem keyFrame_framed_iff :
    (FrameOk (keyFrame code index x) m ∧ KeyReads code index x ((keyFrame code index x).transmitted m)) ↔
      m.bytes x.idAt keyIdLen = x.idBytes ∧
        reqHeaderSize * x.idAt + keyIdLen ≤ cmdDefaultAllocSize / 2 := by
  constructor
  · rintro ⟨hok, -, -, -, -, hid⟩
    have hin : 12 * x.idAt + 32 ≤ 4096 := keyFrame_inside.mp hok.inside
    obtain ⟨-, ⟨-, hend⟩, -, hsame⟩ := @keyFrame_reads code index x m (by omega) _ rfl
    rw [hend] at hid
    exact ⟨hsame ▸ hid, hin⟩
  · rintro ⟨hid, hin⟩
    change 12 * x.idAt + 32 ≤ 4096 at hin
    obtain ⟨⟨hlen, htag, hcode⟩, ⟨hcred, hend⟩, hindex, hsame⟩ :=
      @keyFrame_reads code index x m (by omega) _ rfl
    refine ⟨⟨hlen, keyFrame_inside.mpr hin⟩, htag, hcode, hcred, ?_, ?_⟩
    · rw [hend, hindex]
    · rw [hend]
      exact hsame.trans hid

end KeyCommands

section Switch

variable {y : SwitchArgs} {f : Frame} {m : Mem}

/-- The copies of the switch command, one by one. -/
theorem switchFrame_writes : (switchFrame y).writes =
    [(0, netBytes 4 0xC1), (4, netBytes 4 y.cmdLen), (8, netBytes 4 0x1020), (12, y.ctrl.1),
      (64, uidBytes y.uid), (60, netBytes 4 (uidBytes y.uid).length),
      (y.authAt, netBytes 4 y.authType.toNat), (y.authAt + 4, netBytes 4 y.auth.length),
      (y.authAt + 8, y.auth)] := rfl

theorem switchAuthAt_eq : y.authAt = 64 + align4 (uidBytes y.uid).length := by
  rw [SwitchArgs.authAt, uidSize, switchUidAt, reqHeaderSize, measureCtrlSwitchSize]
  omega

theorem cmdLen_eq : y.cmdLen = 72 + (uidBytes y.uid).length + y.auth.length := by
  rw [SwitchArgs.cmdLen, switchUidAt, reqHeaderSize, measureCtrlSwitchSize]
  omega

theorem align4_eq_self_iff {n : ℕ} : align4 n = n ↔ n % 4 = 0 := by
  unfold align4
  split_ifs with h
  · exact iff_of_true rfl h
  · exact iff_of_false (by omega) h

/-- The authentication ends inside the request exactly when the user id is not padded. -/
theorem switchFrame_inside : (∀ w ∈ (switchFrame y).writes, w.1 + w.2.length ≤ (switchFrame y).part) ↔
    (uidBytes y.uid).length % 4 = 0 := by
  have hu := le_align4 (uidBytes y.uid).length
  have hctrl : y.ctrl.1.length = 48 := y.ctrl.2
  have hauthAt := switchAuthAt_eq (y := y)
  have hcmdLen := cmdLen_eq (y := y)
  have hpart : (switchFrame y).part = y.cmdLen := rfl
  rw [← align4_eq_self_iff]
  simp only [switchFrame_writes, List.forall_mem_cons, length_netBytes, hctrl, hpart, List.not_mem_nil,
    false_implies, implies_true, and_true]
  omega

theorem switchFrame_pairwise :
    (switchFrame y).writes.Pairwise fun w v => Apart w.1 w.2.length v := by
  have hu := le_align4 (uidBytes y.uid).length
  have hctrl : y.ctrl.1.length = 48 := y.ctrl.2
  have hauthAt := switchAuthAt_eq (y := y)
  simp only [switchFrame_writes, List.pairwise_cons, List.forall_mem_cons, Apart, length_netBytes, hctrl,
    List.not_mem_nil, false_implies, implies_true, and_true, List.Pairwise.nil]
  and_intros <;> omega

/-- A switch command without padding reads back. -/
theorem switchFrame_reads (hpad : (uidBytes y.uid).length % 4 = 0) {b : Bytes}
    (hb : b = (switchFrame y).transmitted m) : numAt b 4 = b.length ∧ SwitchReads y b := by
  have halign := align4_eq_self_iff.mpr hpad
  have hctrl : y.ctrl.1.length = 48 := y.ctrl.2
  have hauthAt := switchAuthAt_eq (y := y)
  have hcmdLen := cmdLen_eq (y := y)
  have hfits : 72 + (uidBytes y.uid).length + y.auth.length < 2 ^ 31 := y.fits
  have hsent : (switchFrame y).sent = y.cmdLen := rfl
  have hnum {off v : ℕ} (hmem : (off, netBytes 4 v) ∈ (switchFrame y).writes) (hv : v < 2 ^ 32)
      (hs : off + 4 ≤ y.cmdLen) : numAt b off = v :=
    hb ▸ numAt_transmitted switchFrame_pairwise hmem hv hs
  have hfield {off : ℕ} {c : Bytes} (hmem : (off, c) ∈ (switchFrame y).writes)
      (hs : off + c.length ≤ y.cmdLen) : fieldAt b off c.length = c :=
    hb ▸ fieldAt_transmitted switchFrame_pairwise hmem hs
  simp only [switchFrame_writes, List.mem_cons] at hnum hfield
  refine ⟨?_, ?_, ?_, ?_, ?_⟩
  · rw [hb, Frame.length_transmitted, hsent, ← hb]
    exact hnum (by simp) (by omega) (by omega)
  · exact hnum (by simp) (by omega) (by omega)
  · exact hnum (by simp) (by omega) (by omega)
  · have hswitch : fieldAt b 12 y.ctrl.1.length = y.ctrl.1 := hfield (by simp) (by omega)
    rwa [hctrl] at hswitch
  · have hsize : numAt b 60 = (uidBytes y.uid).length := hnum (by simp) (by omega) (by omega)
    have huid : fieldAt b 64 (uidBytes y.uid).length = uidBytes y.uid := hfield (by simp) (by omega)
    have htype : numAt b y.authAt = y.authType.toNat := hnum (by simp) y.authType.toNat_lt (by omega)
    have hlen : numAt b (y.authAt + 4) = y.auth.length := hnum (by simp) (by omega) (by omega)
    have hauth : fieldAt b (y.authAt + 8) y.auth.length = y.auth := hfield (by simp) (by omega)
    exact (credentialsAt_eq hsize huid htype hlen hauth).1

/-- **The switch command** is a round trip exactly when the user id is not padded. -/
theorem switchFrame_framed_iff :
    (FrameOk (switchFrame y) m ∧ SwitchReads y ((switchFrame y).transmitted m)) ↔
      (uidBytes y.uid).length % 4 = 0 := by
  constructor
  · rintro ⟨hok, -⟩
    exact switchFrame_inside.mp hok.inside
  · intro hpad
    obtain ⟨hlen, hreads⟩ := switchFrame_reads (y := y) (m := m) hpad rfl
    exact ⟨⟨hlen, switchFrame_inside.mpr hpad⟩, hreads⟩

theorem tcsSetMeasureControlSwitch_eq_ok :
    tcsSetMeasureControlSwitch y = .ok f ↔ y.malloc = true ∧ f = switchFrame y := by
  unfold tcsSetMeasureControlSwitch
  split_ifs with h
  · simp [h, eq_comm]
  · simp [h]

end Switch

theorem keyFramed_iff {code index : UInt32} {x : KeyArgs} {m : Mem} :
    (∀ f, keyRequest code index x = .ok f → FrameOk f m ∧ KeyReads code index x (f.transmitted m)) ↔
      (x.Accepted → m.bytes x.idAt keyIdLen = x.idBytes ∧
        reqHeaderSize * x.idAt + keyIdLen ≤ cmdDefaultAllocSize / 2) := by
  constructor
  · intro h hok
    exact keyFrame_framed_iff.mp (h _ (keyRequest_eq_ok.mpr ⟨hok, rfl⟩))
  · intro h f hf
    obtain ⟨hok, rfl⟩ := keyRequest_eq_ok.mp hf
    exact keyFrame_framed_iff.mpr (h hok)

/-- **Framing:** a request has its length in its header, stays in its part of the buffer and
reads back as its arguments exactly when, for a key command, the key id was in the buffer
already and twelve times its offset is still in the part for the request, and for the
switch, the user id with its end is a multiple of four bytes. -/
theorem request_framed_iff (r : Request) (m : Mem) : r.Framed m ↔ r.Fits m := by
  cases r with
  | generateKey x => exact keyFramed_iff
  | getIndexPubkey x => exact keyFramed_iff
  | getEkPubkey x => exact keyFramed_iff
  | setMeasureControlSwitch y =>
      constructor
      · intro h hok
        exact switchFrame_framed_iff.mp (h _ (tcsSetMeasureControlSwitch_eq_ok.mpr ⟨hok, rfl⟩))
      · intro h f hf
        obtain ⟨hok, rfl⟩ := tcsSetMeasureControlSwitch_eq_ok.mp hf
        exact switchFrame_framed_iff.mpr (h hok)

/-- A key command of user `u` with an authentication of one byte, and a key id of ones. -/
def sampleKeyArgs : KeyArgs where
  uid := some ⟨[117], by decide⟩
  certType := 1
  auth := some [7]
  index := 3
  id := some ⟨List.replicate 32 1, List.length_replicate⟩
  key := true
  malloc := true

theorem sampleKeyArgs_accepted : sampleKeyArgs.Accepted := ⟨by decide, by decide, rfl, rfl⟩

/-- A switch command of the same user. -/
def sampleSwitchArgs : SwitchArgs where
  ctrl := ⟨List.replicate 48 0, List.length_replicate⟩
  uid := some ⟨[117], by decide⟩
  authType := 1
  auth := [7]
  malloc := true
  fits := by decide

/-- In a buffer of zeros the key command sends 32 zeros as the key id, and the two bytes of
the user id make the switch command two bytes too short. -/
theorem sample_requests_not_framed :
    ¬ (Request.generateKey sampleKeyArgs).Framed (fun _ => 0) ∧
      ¬ (Request.setMeasureControlSwitch sampleSwitchArgs).Framed (fun _ => 0) := by
  constructor
  · intro h
    have hfits := (@keyFramed_iff 0x1201 3 sampleKeyArgs fun _ => 0).mp h
    obtain ⟨hid, -⟩ := hfits sampleKeyArgs_accepted
    exact absurd hid (by decide)
  · intro h
    have hframed := h _ (tcsSetMeasureControlSwitch_eq_ok.mpr ⟨rfl, rfl⟩)
    exact absurd (switchFrame_framed_iff.mp hframed) (by decide)

end Tcs
end TsbAgent
