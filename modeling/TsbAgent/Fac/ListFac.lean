/-
# The file protection policy

`tsb/kernel/accessctl/policy/list_fac.c` and the lookup of
`hash_whitelist_path.c`.  The mandatory policy is a list of protected paths
(`mac_policy`); each has its own list of privileged programs (`dac_policy`),
known by their hash.  The two searches take the first item of the list that
matches:

| function | an item matches when |
| --- | --- |
| `query_fac_policy_state` | its pattern matches the object (`mac_wildcard_cmp`) |
| `query_dir_segment_fac_policy_state` | it protects something below the directory |

and both return what `facVerdict` says of that item: `0` for a pass,
`CONTROL_WRITE` or `CONTROL_READ` for a restriction.  A program whose hash cannot
be computed passes.

`Kernel` holds what the searches ask of the rest of the kernel: the regular
expression library, the hash of a file and the two measurements.
-/

import TsbAgent.Basic
import TsbAgent.Lib.Chained

namespace TsbAgent
namespace Fac

open Libc Chained

/-- `CONTROL_WRITE` and `CONTROL_READ`; a pass is `0`. -/
def controlWrite : ℤ := 1

@[inherit_doc controlWrite] def controlRead : ℤ := 2

/-- `FILE_READ_PROTECT`; every other type protects against writing. -/
def fileReadProtect : UInt8 := 1

/-- `PRIVI_ALL`. -/
def priviAll : UInt32 := 0

/-- `PRIVI_READ_ONLY`. -/
def priviReadOnly : UInt32 := 1

/-- `FILE_PROTECT_MEASURE_ENV`. -/
def fileProtectMeasureEnv : UInt8 := 1

/-- `FILE_PROTECT_MEASURE_PROCESS`. -/
def fileProtectMeasureProcess : UInt8 := 2

/-- `struct dac_policy`; no search compares `sub_name`. -/
structure DacPolicy where
  priviType : UInt32
  processHash : Digest
  subName : CStr

/-- `struct mac_policy`. -/
structure MacPolicy where
  measureFlags : UInt8
  type : UInt8
  privilegedProcessNum : UInt16
  objName : CStr
  listDac : List DacPolicy

/-- What the policy asks of the rest of the kernel. -/
structure Kernel where
  /-- `regcomp` of the pattern, then `regexec`; false when either fails. -/
  regexec : CStr → CStr → Bool
  /-- `calc_sub_hash`, none when the program cannot be opened or read. -/
  calcSubHash : CStr → Option Digest
  tsbMeasureKernelMemoryAll : ℤ
  measureProcess : SecDomain → ℤ

/-- `ORDINARY` and `WILDCARD`. -/
inductive CmpType
  | ordinary
  | wildcard

section Search

variable (k : Kernel)

/-- `mac_wildcard_cmp`. -/
def macWildcardCmp (m : MacPolicy) (objName : CStr) : CmpType → ℤ
  | .ordinary => memcmp m.objName.strlen m.objName.bytes objName.bytes
  | .wildcard => if k.regexec m.objName objName then 0 else -1

/-- The walk of `query_dac_policy_state`: the first entry with the hash. -/
def dacPrivilege (hash : Digest) : List DacPolicy → ℤ
  | [] => -1
  | d :: ds =>
      if memcmp lenHash d.processHash.1 hash.1 ≠ 0 then dacPrivilege hash ds
      else if d.priviType = priviAll then 0
      else if d.priviType = priviReadOnly then controlWrite
      else -1

/-- `query_dac_policy_state`: the privilege, then the measurements the item asks for. -/
def queryDacPolicyState (m : MacPolicy) (s : SecDomain) : ℤ :=
  let ret := dacPrivilege s.subHash m.listDac
  if ret ≥ 0 then
    if m.measureFlags &&& fileProtectMeasureEnv ≠ 0 ∧ k.tsbMeasureKernelMemoryAll ≠ 0 then -1
    else if m.measureFlags &&& fileProtectMeasureProcess ≠ 0 ∧ k.measureProcess s < 0 then -1
    else ret
  else ret

/-- What a matching item says: the common end of the two searches. -/
def facVerdict (m : MacPolicy) (s : SecDomain) : ℤ :=
  match k.calcSubHash s.subName with
  | none => 0
  | some hash =>
      let s := { s with subHash := hash }
      if m.privilegedProcessNum > 0 ∧ queryDacPolicyState k m s ≥ 0 then queryDacPolicyState k m s
      else if m.type = fileReadProtect then controlRead
      else controlWrite

/-- `query_fac_policy_state`. -/
def queryFacPolicyState (s : SecDomain) : List MacPolicy → ℤ
  | [] => 0
  | m :: ms =>
      if macWildcardCmp k m s.objName .wildcard = 0 then facVerdict k m s
      else queryFacPolicyState s ms

/-- The name of a directory with its `/`, as far as the buffer has room. -/
def dirSegment (objName : CStr) : Bytes :=
  if objName.strlen < lenNameMax then objName.bytes ++ [47] else objName.bytes

/-- `query_dir_segment_fac_policy_state`; the comparison skips the first
character of the pattern. -/
def queryDirSegmentFacPolicyState (s : SecDomain) : List MacPolicy → ℤ
  | [] => 0
  | m :: ms =>
      if strncmp (dirSegment s.objName).length m.objName.bytes.tail (dirSegment s.objName) = 0 then
        facVerdict k m s
      else queryDirSegmentFacPolicyState s ms

end Search

/-- `is_empty_mac_policy`. -/
def isEmptyMacPolicy (l : List MacPolicy) : ℤ := if l.isEmpty = false then 0 else -1

/-- `query_whitelist_path`, less the hash it fills in for the audit. -/
def queryWhitelistPath (jhash : Jhash) (whitelistPathHashRandom : UInt32)
    (t : Table UInt32 CStr) (s : SecDomain) : ℤ :=
  if t.lookup (jhash s.objName.bytes whitelistPathHashRandom &&& 0xffff)
    (fun p => strcmp p.bytes s.objName.bytes = 0) then 0 else -1

/-! ### What the search answers -/

/-- The item gives the program all rights: by its hash, and with the
measurements it asks for passed. -/
def Privileges (k : Kernel) (m : MacPolicy) (s : SecDomain) : Prop :=
  m.privilegedProcessNum > 0 ∧ queryDacPolicyState k m s = 0

section Verdict

variable {k : Kernel} {m : MacPolicy} {s : SecDomain} {hash : Digest}

end Verdict

/-- **The test is inverted:** it reports an empty list as filled and a filled
list as empty. -/
theorem isEmptyMacPolicy_eq_zero {l : List MacPolicy} : isEmptyMacPolicy l = 0 ↔ l ≠ [] := by
  cases l with
  | nil => simp [isEmptyMacPolicy]
  | cons m l => simp [isEmptyMacPolicy]

end Fac
end TsbAgent
