/-
# Audit records of the user

`tsb/kernel/platform/log/log.c`: `ioctl_write_user_log` copies a `struct log_n` of the user,
and `kernel_audit_log` makes a record of it in a page.

```
log_n:   0     2          4      6            8      16
        | len | category | type | repeat_num | time | data ...

page:    0          64          144
        | log_data | audit_msg | data ...
```

Three sums have to agree, and each is taken from another place: the length the user gives with
the ioctl bounds what may be read, the check bounds `sizeof(struct audit_msg) + len` by the page,
and the page also holds the `struct log_data` in front.  So the check lets `len` be up to 4016 where
the page has room for 3952, and nothing compares `len` with the length given
(`write_user_log_bounds`).
-/

import TsbAgent.Lib.Access
import TsbAgent.Lib.Word

namespace TsbAgent
namespace AuditLog

open Libc Word

def pageSize : ℕ := 4096
def sizeofLogData : ℕ := 64
def sizeofAuditMsg : ℕ := 80
def sizeofLogN : ℕ := 16

/-- `struct log_data`, less its links; `length` is that of `data`. -/
structure LogData where
  repeats : ℕ
  time : ℤ
  id : ℕ
  data : Bytes
deriving DecidableEq

/-- The fields of a `struct log_n` that are read. -/
def logLen (buf : Bytes) : ℕ := hostAt buf 0 2
def logCategory (buf : Bytes) : ℕ := hostAt buf 2 2
def logType (buf : Bytes) : ℕ := hostAt buf 4 2
def logContent (buf : Bytes) : Bytes := fieldAt buf sizeofLogN (logLen buf)

/-- The `struct audit_msg` of a record: `magic`, `type`, `operate`, `result`, `user`, `pid`,
`repeat_num`, `time`, `total_len`, `len_sub`, `len_obj`, `sub_hash`, `data`. -/
def auditMsg (tvSec : ℕ) (buf : Bytes) : Bytes :=
  hostBytes 4 0xCCA1B2DD ++ hostBytes 4 (logCategory buf) ++ hostBytes 4 0 ++ hostBytes 4 (logType buf) ++
    hostBytes 4 0 ++ hostBytes 4 0 ++ hostBytes 4 0 ++ hostBytes 8 tvSec ++
    hostBytes 4 (sizeofAuditMsg + logLen buf) ++ hostBytes 4 0 ++ hostBytes 4 0 ++ List.replicate 32 0 ++
    logContent buf

/-- What `kernel_audit_log` finds: whether logging is stopped, whether `kmalloc` succeeds, and the time. -/
structure Kernel where
  stopped : Bool
  kmalloc : Bool
  tvSec : ℕ

/-- `kernel_audit_log` up to `log_out_buffer`: the record it makes, or its result without one. -/
def kernelAuditLog (k : Kernel) (buf : Bytes) : Except ℤ LogData :=
  if k.stopped then .error 0
  else if sizeofAuditMsg + logLen buf > pageSize then .error (-1)
  else if !k.kmalloc then .error (-1)
  else .ok ⟨0, k.tvSec, 0, auditMsg k.tvSec buf⟩

/-- A `memcpy` of no bytes touches nothing. -/
def copyAccess (offset length size : ℕ) : List Access := if length = 0 then [] else [⟨offset, length, size⟩]

/-- What `kernel_audit_log` touches of the `size` bytes supplied and of the page: `len`; then the page,
`category`, `type`, and the bytes copied. -/
def kernelAuditLogAccesses (k : Kernel) (buf : Bytes) : List Access :=
  if k.stopped then []
  else
    ⟨0, 2, buf.length⟩ ::
      if sizeofAuditMsg + logLen buf > pageSize then []
      else if !k.kmalloc then []
      else
        [⟨0, pageSize, pageSize⟩, ⟨sizeofLogData, sizeofAuditMsg, pageSize⟩, ⟨2, 2, buf.length⟩,
          ⟨4, 2, buf.length⟩] ++ copyAccess sizeofLogN (logLen buf) buf.length ++
          copyAccess (sizeofLogData + sizeofAuditMsg) (logLen buf) pageSize

/-- The user's side of `ioctl_write_user_log`: the length of its `tsb_general_policy`, none when that
cannot be copied, the memory at `data` that can be read, and whether `vmalloc` succeeds. -/
structure WriteRequest where
  length : Option ℤ
  data : Bytes
  vmalloc : Bool

/-- The buffer of `ioctl_write_user_log`, none when it returns `-1`. -/
def WriteRequest.supplied (r : WriteRequest) : Option Bytes :=
  match r.length with
  | none => none
  | some length =>
      if length = 0 then none
      -- a negative length is more than `vmalloc` has
      else if length < 0 ∨ r.vmalloc = false then none
      else if r.data.length < length then none
      else some (r.data.take length.toNat)

/-- `ioctl_write_user_log`: its result, and the record it makes. -/
def ioctlWriteUserLog (k : Kernel) (r : WriteRequest) : ℤ × Option LogData :=
  match r.supplied with
  | none => (-1, none)
  | some buf => (0, (kernelAuditLog k buf).toOption)

def ioctlWriteUserLogAccesses (k : Kernel) (r : WriteRequest) : List Access :=
  match r.supplied with
  | none => []
  | some buf => kernelAuditLogAccesses k buf

/-- The bytes supplied hold what is read of them, and the page what is written. -/
structure Holds (k : Kernel) (buf : Bytes) : Prop where
  len : 2 ≤ buf.length
  fields : logLen buf ≤ 4016 → k.kmalloc = true → 6 ≤ buf.length
  content : logLen buf ≤ 4016 → k.kmalloc = true → logLen buf ≠ 0 → sizeofLogN + logLen buf ≤ buf.length
  page : logLen buf ≤ 4016 → k.kmalloc = true → logLen buf ≤ 3952

section Bounds

variable {k : Kernel} {buf : Bytes} {d : LogData}

theorem safe_copyAccess {offset length size : ℕ} :
    Safe (copyAccess offset length size) ↔ (length ≠ 0 → offset + length ≤ size) := by
  rw [copyAccess]
  split_ifs with hzero
  · exact iff_of_true safe_nil fun h => absurd hzero h
  · simp [hzero]

/-- The record has the `len` bytes that its `total_len` counts. -/
theorem length_auditMsg (tvSec : ℕ) (h : logLen buf ≠ 0 → sizeofLogN + logLen buf ≤ buf.length) :
    (auditMsg tvSec buf).length = sizeofAuditMsg + logLen buf := by
  have hcontent : (logContent buf).length = logLen buf := by
    rw [logContent, fieldAt, List.length_take, List.length_drop]
    omega
  simp only [auditMsg, List.length_append, length_hostBytes, List.length_replicate, hcontent, sizeofAuditMsg]

theorem kernelAuditLogAccesses_safe_iff (hstopped : k.stopped = false) :
    Safe (kernelAuditLogAccesses k buf) ↔ Holds k buf := by
  have hcheck : sizeofAuditMsg + logLen buf > pageSize ↔ ¬ logLen buf ≤ 4016 := by
    rw [sizeofAuditMsg, pageSize]
    omega
  rw [kernelAuditLogAccesses, hstopped, if_neg Bool.false_ne_true, safe_cons, safe_ite, safe_ite, hcheck]
  simp only [safe_nil, safe_append, safe_cons, safe_copyAccess, implies_true, true_and, and_true, not_not,
    Bool.not_eq_true', Bool.not_eq_false, sizeofLogData, sizeofAuditMsg, pageSize]
  constructor
  · rintro ⟨hlen, hrest⟩
    refine ⟨by omega, fun hle hk => ?_, fun hle hk hne => ?_, fun hle hk => ?_⟩
    · obtain ⟨⟨⟨-, -, -, h⟩, -⟩, -⟩ := hrest hle hk
      omega
    · obtain ⟨⟨-, hcopy⟩, -⟩ := hrest hle hk
      exact hcopy hne
    · obtain ⟨-, hpage⟩ := hrest hle hk
      by_cases hzero : logLen buf = 0
      · omega
      · have := hpage hzero
        omega
  · rintro ⟨hlen, hfields, hcontent, hpage⟩
    refine ⟨by omega, fun hle hk => ⟨⟨⟨?_, ?_, ?_, ?_⟩, hcontent hle hk⟩, fun _ => ?_⟩⟩
    · exact Nat.le_refl _
    · exact (by decide)
    · have := hfields hle hk
      omega
    · have := hfields hle hk
      omega
    · have := hpage hle hk
      omega

/-- A record that is made in bounds fits in the page. -/
theorem fits_of_holds (h : Holds k buf) (hd : kernelAuditLog k buf = .ok d) :
    d.data.length = sizeofAuditMsg + logLen buf ∧ sizeofLogData + d.data.length ≤ pageSize := by
  rw [kernelAuditLog] at hd
  split at hd
  · cases hd
  · split at hd
    · cases hd
    · rename_i hlen
      split at hd
      · cases hd
      · rename_i hk
        cases hd
        rw [Bool.not_eq_true', Bool.not_eq_false] at hk
        have hle : logLen buf ≤ 4016 := by
          simp only [sizeofAuditMsg, pageSize] at hlen
          omega
        have hpage := h.page hle hk
        have hlength := length_auditMsg k.tvSec (h.content hle hk)
        refine ⟨hlength, ?_⟩
        rw [hlength, sizeofLogData, sizeofAuditMsg, pageSize]
        omega

/-- **When the making of a record stays in bounds:** every access of `ioctl_write_user_log` is inside the
bytes supplied or the page, and a record that is made has its `len` bytes and fits in the page with its
headers, just when no buffer comes to `kernel_audit_log`, logging is stopped, or the buffer and the page
hold the record. -/
theorem write_user_log_bounds (k : Kernel) (r : WriteRequest) :
    (Safe (ioctlWriteUserLogAccesses k r) ∧
      ∀ buf d, r.supplied = some buf → (ioctlWriteUserLog k r).2 = some d →
        d.data.length = sizeofAuditMsg + logLen buf ∧ sizeofLogData + d.data.length ≤ pageSize) ↔
    ∀ buf, r.supplied = some buf → k.stopped = false → Holds k buf := by
  rw [ioctlWriteUserLogAccesses, ioctlWriteUserLog]
  cases hsup : r.supplied with
  | none => exact iff_of_true ⟨safe_nil, fun buf d hbuf => by cases hbuf⟩ fun buf hbuf => by cases hbuf
  | some buf =>
      simp only [Option.some.injEq, forall_eq']
      cases hstopped : k.stopped with
      | true =>
          refine iff_of_true ⟨?_, fun _ d _ hd => ?_⟩ fun h => absurd h.symm Bool.false_ne_true
          · rw [kernelAuditLogAccesses, hstopped]
            exact safe_nil
          · rw [kernelAuditLog, hstopped] at hd
            cases hd
      | false =>
          rw [kernelAuditLogAccesses_safe_iff hstopped]
          refine ⟨fun h _ => h.1, fun h => ⟨h rfl, fun _ d hbuf hd => ?_⟩⟩
          subst hbuf
          cases hlog : kernelAuditLog k buf with
          | error e =>
              rw [hlog] at hd
              cases hd
          | ok d' =>
              rw [hlog] at hd
              cases hd
              exact fits_of_holds (h rfl) hlog

/-- The kernel of the sample requests. -/
def sampleKernel : Kernel := ⟨false, true, 0⟩

/-- A buffer of two bytes that says there are 16 more; and one of 4000 bytes, all supplied, with room for
3952 in the page. -/
theorem write_user_log_overruns :
    ¬ Safe (ioctlWriteUserLogAccesses sampleKernel ⟨some 2, [16, 0], true⟩) ∧
      ¬ Safe (kernelAuditLogAccesses sampleKernel (hostBytes 2 4000 ++ List.replicate 4014 0)) := by
  constructor
  · decide
  · rw [kernelAuditLogAccesses_safe_iff rfl]
    intro h
    exact absurd (h.page (by decide) rfl) (by decide)

end Bounds

end AuditLog
end TsbAgent
