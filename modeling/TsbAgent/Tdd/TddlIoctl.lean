/-
# The ioctl of the TDDL

`tpcm_tddl_ioctl` of `tss-main/tcs/tddl/tpcm_tddl.c` takes a command out of the memory of a
process and gives the response back.  It copies twice: the header, from which it computes the
sizes of the two kernel buffers, and then the whole message, over the same fields.

| length | read | used for |
| --- | --- | --- |
| `cmd_len` | first copy | the message buffer and the second copy |
| `cmd_len` | second copy | the length of the command that is passed on |
| `rsp_maxlen` | first copy | the response buffer, its capacity, and what is copied back |

The two values of `cmd_len` are never compared, and none is checked for its sign.  Both copies
and the way back stay inside their buffers; what is passed on does not (`tddl_ioctl_safe_iff`,
`second_cmd_len_trusted`).
-/

import TsbAgent.Basic
import TsbAgent.Lib.Access
import TsbAgent.Tcs.KernelPolicy
import TsbAgent.Tdd.Shm

namespace TsbAgent
namespace Tdd

open Libc Word Tcs FreeList

/-! ### The message of a process -/

/-- `sizeof(struct tddl_buffer)`. -/
def tddlBufferSize : ℕ := 16

/-- `cmd_len` of a `struct tddl_buffer`. -/
def cmdLen (b : Mem) : ℤ := int32 (ofHost (b.bytes 0 4))

/-- `rsp_maxlen` of a `struct tddl_buffer`. -/
def rspMaxlen (b : Mem) : ℤ := int32 (ofHost (b.bytes 8 4))

/-- `httc_align_size(len, 8)` of a `size_t`. -/
def httcAlignSize (len : ℕ) : ℕ := if len % 8 = 0 then len else (len + 8 - len % 8) % 2 ^ 64

/-- The size of the buffer for a message of `len` bytes, as the `uint32_t` that it is kept in. -/
def tddlLen (len : ℤ) : UInt32 := UInt32.ofNat (httcAlignSize (sizeT (len + tddlBufferSize)))

/-- The size of the buffers of an area. -/
def areaUnit (area : Fin 10) : ℕ := (areas area).unitSize

/-- The size of the buffer at an address. -/
def unitAt (m : ShareMem) (address : ℕ) : ℕ := areaUnit (getAreaPoint m address)

def eio : ℤ := 5
def tssErrNomem : UInt32 := 1025
def tssErrIo : UInt32 := 1026
def tssErrItemNotFound : UInt32 := 1029

/-- One call: the user's memory at the two copies, none where the copy fails; what `vmalloc`
gives; what `tpcm_transmit_cmd` and the registered `tpcm_ioctl_process` return; and whether
`copy_to_user` succeeds. -/
structure TddlCall where
  command : UInt32
  first : Option Mem
  second : Option Mem
  vmalloc : Vmalloc
  transmitted : UInt32
  processed : Option UInt32
  back : Bool

/-- `ioctlProc`. -/
def ioctlProc (cmd : UInt32) : UInt32 := (cmd >>> 2) &&& 3

/-- What a case of the `switch` leaves: whether it goes to `out`, `res`, the accesses and the
data buffers. -/
structure Served where
  out : Bool
  res : Option UInt32
  accesses : List Access
  shm : Shm

/-- What the call returns and has done; `res` is none where the response is not copied back. -/
structure TddlResult where
  ret : ℤ
  res : Option UInt32
  accesses : List Access
  shm : Shm

/-- A command is passed on with its length, and with the capacity for the response.  Those who
take it over take the lengths as `uint32_t`. -/
def passOn (user : Mem) (msgLen : UInt32) (maxlen : ℤ) (rspSize : ℕ) : List Access :=
  [⟨tddlBufferSize, (cmdLen user % 2 ^ 32).toNat, msgLen.toNat⟩,
    ⟨tddlBufferSize, (maxlen % 2 ^ 32).toNat, rspSize⟩]

section Source

variable (m : ShareMem) (s : Shm) (c : TddlCall)

/-- The case `IOCTL_PROC_TRANSMIT`. -/
def procTransmit (msgLen : UInt32) (maxlen : ℤ) (rspSize : ℕ) : Served :=
  match tddAllocDataBuffer m s msgLen with
  | (none, s) => ⟨false, some tssErrNomem, [], s⟩
  | (some msg, s) =>
      let free := (tddFreeDataBuffer m s (UInt64.ofNat msg)).2
      match c.second with
      | none => ⟨true, none, [⟨0, msgLen.toNat, unitAt m msg⟩], free⟩
      | some user => ⟨false, some c.transmitted,
          ⟨0, msgLen.toNat, unitAt m msg⟩ :: passOn user msgLen maxlen rspSize, free⟩

/-- The case `IOCTL_PROC_SPEC`. -/
def procSpec (msgLen : UInt32) (maxlen : ℤ) (rspSize : ℕ) : Served :=
  if ¬ c.vmalloc.gives msgLen.toNat then ⟨false, some tssErrNomem, [], s⟩
  else
    match c.second with
    | none => ⟨true, none, [⟨0, msgLen.toNat, msgLen.toNat⟩], s⟩
    | some user =>
        match c.processed with
        | none => ⟨false, some tssErrIo, [⟨0, msgLen.toNat, msgLen.toNat⟩], s⟩
        | some res => ⟨false, some res,
            ⟨0, msgLen.toNat, msgLen.toNat⟩ :: passOn user msgLen maxlen rspSize, s⟩

/-- The `switch`. -/
def procSwitch (msgLen : UInt32) (maxlen : ℤ) (rspSize : ℕ) : Served :=
  if ioctlProc c.command = 1 then procTransmit m s c msgLen maxlen rspSize
  else if ioctlProc c.command = 2 then procSpec s c msgLen maxlen rspSize
  else ⟨false, some tssErrItemNotFound, [], s⟩

/-- `tpcm_tddl_ioctl` once the response buffer has been asked for. -/
def tddlServe (tmp : Mem) : Option ℕ × Shm → TddlResult
  | (none, s) => ⟨-enomem, none, [], s⟩
  | (some rsp, s) =>
      let served := procSwitch m s c (tddlLen (cmdLen tmp)) (rspMaxlen tmp) (unitAt m rsp)
      let free := (tddFreeDataBuffer m served.shm (UInt64.ofNat rsp)).2
      -- `rsp_len` is set before the switch and `res` by it.
      let accesses := ⟨4, 4, unitAt m rsp⟩ :: ⟨12, 4, unitAt m rsp⟩ :: served.accesses
      if served.out then ⟨-eio, none, accesses, free⟩
      else ⟨if c.back then 0 else -eio, served.res,
        accesses ++ [⟨0, (tddlLen (rspMaxlen tmp)).toNat, unitAt m rsp⟩], free⟩

/-- `tpcm_tddl_ioctl`. -/
def tpcmTddlIoctl : TddlResult :=
  match c.first with
  | none => ⟨-eio, none, [], s⟩
  | some tmp => tddlServe m c tmp (tddAllocDataBuffer m s (tddlLen (rspMaxlen tmp)))

end Source

/-! ### When the lengths fit -/

/-- A command is passed on: both copies succeed, both buffers are there, and there is somebody
to take it. -/
def Forwards (m : ShareMem) (s : Shm) (c : TddlCall) (tmp user : Mem) : Prop :=
  c.first = some tmp ∧ c.second = some user ∧
    (tddAllocDataBuffer m s (tddlLen (rspMaxlen tmp))).1.isSome ∧
      (ioctlProc c.command = 1 ∧ (tddAllocDataBuffer m
          (shmStep m s (.allocData (tddlLen (rspMaxlen tmp)))) (tddlLen (cmdLen tmp))).1.isSome ∨
        ioctlProc c.command = 2 ∧ c.vmalloc.gives (tddlLen (cmdLen tmp)).toNat ∧ c.processed.isSome)

/-- The second `cmd_len`, as a `uint32_t`, is at most the first in steps of 8.  Below -16 the sum
with the size of the header is negative, and the buffer has nearly 4 GiB. -/
def CommandFits (first second : ℤ) : Prop :=
  second % 2 ^ 32 ≤ 8 * ((first + 7) / 8) + if first < -16 then 2 ^ 32 else 0

/-- The free lists of the data areas are in order. -/
def DataInOrder (s : Shm) : Prop := ∀ i, ∃ l, InOrder (areas i).num (s.data i) l

/-- **The size of a buffer:** that of the message with its header, in steps of 8, modulo 2³². -/
theorem toNat_tddlLen (z : ℤ) : ((tddlLen z).toNat : ℤ) = 8 * ((z + 23) / 8) % 2 ^ 32 := by
  rw [tddlLen, UInt32.toNat_ofNat', httcAlignSize, sizeT, tddlBufferSize]
  split_ifs with hmod <;> omega

theorem cmdLen_bounds (b : Mem) : -2 ^ 31 ≤ cmdLen b ∧ cmdLen b < 2 ^ 31 := int32_bounds _

theorem rspMaxlen_bounds (b : Mem) : -2 ^ 31 ≤ rspMaxlen b ∧ rspMaxlen b < 2 ^ 31 := int32_bounds _

theorem unitSize_bounds (i : Fin 10) : 4096 ≤ (areas i).unitSize ∧ (areas i).unitSize ≤ 2 ^ 21 := by
  revert i
  decide

/-- A buffer has at most 2 MiB, so its capacity fits exactly when it is not negative. -/
theorem capacity_fits {maxlen : ℤ} {size : ℕ} (hlo : -2 ^ 31 ≤ maxlen) (hhi : maxlen < 2 ^ 31)
    (hsize : (tddlLen maxlen).toNat ≤ size) (hunit : size ≤ 2 ^ 21) :
    tddlBufferSize + (maxlen % 2 ^ 32).toNat ≤ size ↔ 0 ≤ maxlen := by
  have hlen := toNat_tddlLen maxlen
  rw [tddlBufferSize]
  omega

/-- The command lies in what the second copy has brought exactly when its length fits. -/
theorem command_fits {first : ℤ} (second : ℤ) (hlo : -2 ^ 31 ≤ first) (hhi : first < 2 ^ 31)
    (hpos : (tddlLen first).toNat ≠ 0) :
    tddlBufferSize + (second % 2 ^ 32).toNat ≤ (tddlLen first).toNat ↔ CommandFits first second := by
  have hlen := toNat_tddlLen first
  rw [tddlBufferSize, CommandFits]
  split_ifs with hneg
  · omega
  · rw [Int.emod_eq_of_lt (by omega) (by omega)] at hlen
    omega

/-! ### The buffers -/

section Buffers

variable {m : ShareMem} {s s' : Shm} {size : UInt32} {a : ℕ}

/-- What an allocation gives: an address, taken from the free list of an area that is large enough. -/
theorem tddAllocDataBuffer_some (h : tddAllocDataBuffer m s size = (some a, s')) :
    size ≠ 0 ∧ ∃ i j p, size.toNat ≤ (areas i).unitSize ∧ (s.data i).alloc = some (j, p) ∧
      a = (Slot.data i j).address m ∧ s' = { s with data := Function.update s.data i p } := by
  rw [tddAllocDataBuffer] at h
  split_ifs at h with hbad
  · exact absurd (Prod.mk.inj h).1 (Option.some_ne_none a).symm
  obtain ⟨hne, hle⟩ := not_or.mp hbad
  obtain ⟨i, hi, j, p, hp, ha, hs⟩ := allocLoop_some h
  rw [mem_drop_finRange, getArea_le_iff (not_lt.mp hle)] at hi
  exact ⟨hne, i, j, p, hi, hp, ha, hs⟩

/-- An allocation that gives nothing changes nothing. -/
theorem tddAllocDataBuffer_none (h : tddAllocDataBuffer m s size = (none, s')) : s' = s := by
  rw [tddAllocDataBuffer] at h
  split_ifs at h with hbad
  · exact (Prod.mk.inj h).2.symm
  · exact (allocLoop_none h).1

theorem dataInOrder_update {i : Fin 10} {p : Pool} {l : List ℕ} (h : DataInOrder s)
    (hl : InOrder (areas i).num p l) : DataInOrder { s with data := Function.update s.data i p } := by
  intro k
  rcases eq_or_ne k i with rfl | hk
  · exact ⟨l, by simpa using hl⟩
  · simpa [hk] using h k

/-- **Whatever is called, the free lists of the data areas stay in order.** -/
theorem dataInOrder_step (h : DataInOrder s) (op : ShmOp) : DataInOrder (shmStep m s op) := by
  cases op with
  | allocData size =>
      rcases ha : tddAllocDataBuffer m s size with ⟨_ | a, s'⟩
      · obtain rfl := tddAllocDataBuffer_none ha
        rw [shmStep, ha]
        exact h
      · obtain ⟨-, i, j, p, -, hp, -, rfl⟩ := tddAllocDataBuffer_some ha
        obtain ⟨l, hl⟩ := h i
        obtain ⟨-, -, -, l', hl'⟩ := hl.alloc hp
        rw [shmStep, ha]
        exact dataInOrder_update h hl'
  | freeData a =>
      by_cases hex : ∃ i j, j < (areas i).num ∧ (Slot.data i j).address m = a.toNat
      · obtain ⟨i, j, hj, ha⟩ := hex
        rw [shmStep, tddFreeDataBuffer_data hj ha]
        cases hf : (s.data i).free j with
        | none => exact h
        | some p =>
            obtain ⟨l, hl⟩ := h i
            exact dataInOrder_update h (hl.free hj hf).2.2
      · rw [shmStep, tddFreeDataBuffer_other fun i j hj ha => hex ⟨i, j, hj, ha⟩]
        exact h
  | allocHeader =>
      rw [shmStep, tddAllocCmdHeader]
      cases s.headers.alloc <;> exact h
  | freeHeader a =>
      obtain ⟨hr, -⟩ | ⟨j, p, -, -, -, hr⟩ := tddFreeCmdHeader_cases m s a <;>
        rw [shmStep, hr] <;> exact h

theorem dataInOrder_init : DataInOrder shmInit := fun _ => ⟨_, inOrder_full _⟩

theorem dataInOrder_run (m : ShareMem) (ops : List ShmOp) : DataInOrder (ops.foldl (shmStep m) shmInit) :=
  List.foldlRecOn ops (shmStep m) dataInOrder_init fun _ h op _ => dataInOrder_step h op

/-- **A buffer is large enough,** and has between 4 KiB and 2 MiB. -/
theorem le_unitAt (h : DataInOrder s) (ha : tddAllocDataBuffer m s size = (some a, s')) :
    size.toNat ≠ 0 ∧ size.toNat ≤ unitAt m a ∧ 4096 ≤ unitAt m a ∧ unitAt m a ≤ 2 ^ 21 := by
  obtain ⟨hne, i, j, p, hsize, hp, haddr, -⟩ := tddAllocDataBuffer_some ha
  obtain ⟨l, hl⟩ := h i
  rw [unitAt, getAreaPoint_data (hl.alloc hp).1 haddr.symm]
  exact ⟨fun h0 => hne (UInt32.toNat_inj.mp h0), hsize, unitSize_bounds i⟩

end Buffers

/-! ### The call -/

section Call

variable {m : ShareMem} {s : Shm} {c : TddlCall} {tmp user : Mem} {size : ℕ}

/-- The lengths fit. -/
def LengthsFit (tmp user : Mem) : Prop := 0 ≤ rspMaxlen tmp ∧ CommandFits (cmdLen tmp) (cmdLen user)

/-- The response buffer is large enough for what it was asked for. -/
structure Holds (tmp : Mem) (size : ℕ) : Prop where
  response : (tddlLen (rspMaxlen tmp)).toNat ≤ size
  least : 4096 ≤ size
  most : size ≤ 2 ^ 21

theorem safe_passOn (h : Holds tmp size) (hpos : (tddlLen (cmdLen tmp)).toNat ≠ 0) :
    Safe (passOn user (tddlLen (cmdLen tmp)) (rspMaxlen tmp) size) ↔ LengthsFit tmp user := by
  obtain ⟨hlo, hhi⟩ := cmdLen_bounds tmp
  obtain ⟨hlo', hhi'⟩ := rspMaxlen_bounds tmp
  rw [passOn, safe_cons, safe_cons, command_fits _ hlo hhi hpos,
    capacity_fits hlo' hhi' h.response h.most, and_iff_left safe_nil]
  exact and_comm

theorem safe_procTransmit (hs : DataInOrder s) (h : Holds tmp size) :
    Safe (procTransmit m s c (tddlLen (cmdLen tmp)) (rspMaxlen tmp) size).accesses ↔
      ∀ user, c.second = some user → (tddAllocDataBuffer m s (tddlLen (cmdLen tmp))).1.isSome →
        LengthsFit tmp user := by
  rw [procTransmit]
  rcases ha : tddAllocDataBuffer m s (tddlLen (cmdLen tmp)) with ⟨_ | msg, s'⟩
  · simp
  · obtain ⟨hpos, hunit, -⟩ := le_unitAt hs ha
    have hcopy : 0 + (tddlLen (cmdLen tmp)).toNat ≤ unitAt m msg := by omega
    cases hu : c.second with
    | none => simp [hunit]
    | some user => simp [hunit, safe_passOn h hpos]

theorem safe_procSpec (h : Holds tmp size) :
    Safe (procSpec s c (tddlLen (cmdLen tmp)) (rspMaxlen tmp) size).accesses ↔
      ∀ user, c.second = some user → c.vmalloc.gives (tddlLen (cmdLen tmp)).toNat ∧ c.processed.isSome →
        LengthsFit tmp user := by
  rw [procSpec]
  split_ifs with hv
  · have hpos : (tddlLen (cmdLen tmp)).toNat ≠ 0 := fun h0 => by
      rw [h0, c.vmalloc.zero] at hv
      exact absurd hv Bool.false_ne_true
    cases hu : c.second with
    | none => simp
    | some user =>
        cases hp : c.processed with
        | none => simp
        | some res => simp [hv, safe_passOn h hpos]
  · simp [hv]

theorem safe_procSwitch (hs : DataInOrder s) (h : Holds tmp size) :
    Safe (procSwitch m s c (tddlLen (cmdLen tmp)) (rspMaxlen tmp) size).accesses ↔
      ∀ user, c.second = some user →
        (ioctlProc c.command = 1 ∧ (tddAllocDataBuffer m s (tddlLen (cmdLen tmp))).1.isSome ∨
          ioctlProc c.command = 2 ∧ c.vmalloc.gives (tddlLen (cmdLen tmp)).toNat ∧ c.processed.isSome) →
        LengthsFit tmp user := by
  rw [procSwitch]
  split_ifs with h1 h2
  · rw [safe_procTransmit hs h]
    simp [h1]
  · rw [safe_procSpec h]
    simp [h2]
  · simp [h1, h2]

/-- Apart from the switch, a call stays inside the response buffer. -/
theorem safe_tddlServe {rsp : ℕ} (h : Holds tmp (unitAt m rsp)) :
    Safe (tddlServe m c tmp (some rsp, s)).accesses ↔
      Safe (procSwitch m s c (tddlLen (cmdLen tmp)) (rspMaxlen tmp) (unitAt m rsp)).accesses := by
  obtain ⟨hunit, hleast, -⟩ := h
  have hfields : 4 + 4 ≤ unitAt m rsp ∧ 12 + 4 ≤ unitAt m rsp := by omega
  simp only [tddlServe]
  split_ifs with hout hback <;> simp [hfields, hunit]

theorem tpcmTddlIoctl_some (hf : c.first = some tmp) : tpcmTddlIoctl m s c =
    tddlServe m c tmp (tddAllocDataBuffer m s (tddlLen (rspMaxlen tmp))) := by
  rw [tpcmTddlIoctl, hf]

theorem safe_tddlServe_none : Safe (tddlServe m c tmp (none, s)).accesses := safe_nil

theorem ioctl_safe_iff_of_inOrder (h : DataInOrder s) :
    Safe (tpcmTddlIoctl m s c).accesses ↔ ∀ tmp user, Forwards m s c tmp user → LengthsFit tmp user := by
  cases hf : c.first with
  | none => simp [tpcmTddlIoctl, Forwards, hf]
  | some tmp =>
      rw [tpcmTddlIoctl_some hf]
      rcases ha : tddAllocDataBuffer m s (tddlLen (rspMaxlen tmp)) with ⟨_ | rsp, s'⟩
      · refine iff_of_true safe_tddlServe_none ?_
        rintro tmp' user ⟨hf', -, hsome, -⟩
        obtain rfl := Option.some.inj (hf.symm.trans hf')
        rw [ha] at hsome
        exact absurd hsome Bool.false_ne_true
      · have hs' : shmStep m s (.allocData (tddlLen (rspMaxlen tmp))) = s' := by
          rw [shmStep, ha, Shm.after]
        have hin : DataInOrder s' := hs' ▸ dataInOrder_step h _
        obtain ⟨-, hunit, hleast, hmost⟩ := le_unitAt h ha
        rw [safe_tddlServe ⟨hunit, hleast, hmost⟩, safe_procSwitch hin ⟨hunit, hleast, hmost⟩]
        constructor
        · rintro hsafe tmp' user ⟨hf', hu, -, hto⟩
          obtain rfl := Option.some.inj (hf.symm.trans hf')
          rw [hs'] at hto
          exact hsafe user hu hto
        · intro hfit user hu hto
          refine hfit tmp user ⟨hf, hu, by rw [ha]; rfl, ?_⟩
          rw [hs']
          exact hto

end Call

/-- **After any calls, and with any memory at the two copies, the ioctl stays inside its buffers
and passes lengths on that fit them exactly when, if a command is passed on, the first
`rsp_maxlen` is not negative and the second `cmd_len` is at most the first in steps of 8.** -/
theorem tddl_ioctl_safe_iff (m : ShareMem) (ops : List ShmOp) (c : TddlCall) :
    Safe (tpcmTddlIoctl m (ops.foldl (shmStep m) shmInit) c).accesses ↔
      ∀ tmp user, Forwards m (ops.foldl (shmStep m) shmInit) c tmp user → LengthsFit tmp user :=
  ioctl_safe_iff_of_inOrder (dataInOrder_run m ops)

/-- The memory of a process with these lengths in its `struct tddl_buffer`. -/
def tddlMem (cmdLen rspMaxlen : ℕ) : Mem := fun p =>
  (hostBytes 4 cmdLen ++ hostBytes 4 0 ++ hostBytes 4 rspMaxlen).getD p 0

/-- A call whose first copy finds a command of 16 bytes and whose second copy one of 1000. -/
def grownCommand : TddlCall where
  command := 4
  first := some (tddlMem 16 64)
  second := some (tddlMem 1000 64)
  vmalloc := Vmalloc.megabyte
  transmitted := 0
  processed := none
  back := true

/-- **The second `cmd_len` is trusted:** 32 bytes are copied and 1000 are sent. -/
theorem second_cmd_len_trusted : ¬ Safe (tpcmTddlIoctl someMem shmInit grownCommand).accesses := by
  decide +kernel

/-- With the same command at both copies, the ioctl is safe. -/
example : Safe (tpcmTddlIoctl someMem shmInit { grownCommand with second := grownCommand.first }).accesses := by
  decide +kernel

end Tdd
end TsbAgent
