/-
# The process that asks

What the policies of `tss-main/tcs` can require of the calling process: a user or a
group, a process identity, a role, a clean kernel (`POLICY_FLAG_…` in
`tcsapi/tcs_auth_def.h`), and the answers of the TSB to the questions about it.

The TSB answers through an `ioctl` (`tsb/user/tsb_admin.c`) or, in the kernel, through
the functions that it registers with the TCS (`tcsk/tcs_kernel.c`).  `tsb` says whether
it is there.  Where it is not, every answer is a negative number: the identity and the
measurement then count as failed, but `tsb_is_role_member`, which answers 1 to a member
and 0 to the others, counts as passed.
-/

import TsbAgent.Tcs.Basic
import TsbAgent.Lib.Word

namespace TsbAgent
namespace Tcs

open Libc

/-- `POLICY_FLAG_PROCESS_IDENTITY`, `1 << 3`. -/
def policyFlagProcessIdentity : UInt32 := 0x8

/-- `POLICY_FLAG_PROCESS_ROLE`, `1 << 4`. -/
def policyFlagProcessRole : UInt32 := 0x10

/-- `POLICY_FLAG_USER_ID`, `1 << 5`. -/
def policyFlagUserId : UInt32 := 0x20

/-- `POLICY_FLAG_GROUP_ID`, `1 << 6`. -/
def policyFlagGroupId : UInt32 := 0x40

/-- `POLICY_FLAG_USED_PASSWD`, `1 << 15`. -/
def policyFlagUsedPasswd : UInt32 := 0x8000

/-- `POLICY_FLAG_ENV`, `1 << 16`. -/
def policyFlagEnv : UInt32 := 0x10000

/-- `flags & flag`, as a condition. -/
def hasFlag (flags flag : UInt32) : Bool := flags &&& flag ≠ 0

/-- A process, its identity and roles in the policies of the TSB, and whether the
kernel measures clean. -/
structure Caller where
  uid : UInt32
  gid : UInt32
  identity : Option CStr
  member : CStr → Bool
  env : Bool

section Queries

variable (tsb : Bool) (c : Caller)

/-- `tsb_get_process_identity` and `tcs_util_get_process_identity`: the name on success. -/
def getProcessIdentity : Option CStr := if tsb then c.identity else none

/-- `tsb_is_role_member`: `-100` when the device cannot be opened. -/
def tsbIsRoleMember (role : CStr) : ℤ := if tsb then (if c.member role then 1 else 0) else -100

/-- `tcs_util_is_role_member`: `-1` when nobody has registered. -/
def tcsUtilIsRoleMember (role : CStr) : ℤ := if tsb then (if c.member role then 1 else 0) else -1

/-- `tsb_measure_kernel_memory_all` and `tcs_util_tsb_measure_env`. -/
def measureEnv : ℤ := if tsb && c.env then 0 else -1

end Queries

variable {tsb : Bool} {c : Caller} {role name : CStr}

theorem tsbIsRoleMember_ne_zero :
    tsbIsRoleMember tsb c role ≠ 0 ↔ (tsb = true → c.member role = true) := by
  cases tsb <;> cases hm : c.member role <;> simp [tsbIsRoleMember, hm]

theorem tcsUtilIsRoleMember_ne_zero :
    tcsUtilIsRoleMember tsb c role ≠ 0 ↔ (tsb = true → c.member role = true) := by
  cases tsb <;> cases hm : c.member role <;> simp [tcsUtilIsRoleMember, hm]

theorem getProcessIdentity_eq_some :
    getProcessIdentity tsb c = some name ↔ tsb = true ∧ c.identity = some name := by
  cases tsb <;> simp [getProcessIdentity]

theorem measureEnv_eq_zero : measureEnv tsb c = 0 ↔ tsb = true ∧ c.env = true := by
  cases tsb <;> cases he : c.env <;> simp [measureEnv, he]

end Tcs
end TsbAgent
