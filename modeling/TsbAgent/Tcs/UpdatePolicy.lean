/-
# Updating a policy

`tcs_util_update_policy` (`tss-main/tcs/tcsapi/tcsu/tcs_util_policy_update.c`) and
`tcs_update_file_integrity` (`tcs_file_integrity.c`), with the functions that read and write the
stored policies.  An update goes through five stages:

| stage | writes |
| --- | --- |
| the signer's certificate, the signature, the type | |
| the validator of the type | `replay.data`, in the middle of its checks |
| `tcs_util_write_policy` | the policy |
| `tcs_util_write_policy_version` | `policy_version.data` |
| `tcs_util_inform_kernel_of_update` | |

The first error ends the update, and nothing that was written before is taken back.

A policy is written to a temporary file that is then renamed, so its write is all or nothing; the
temporary file is left out.  The paths are those of the policies, so no policy is written over
`replay.data` or `policy_version.data`.
-/

import TsbAgent.Tcs.AdminCert
import TsbAgent.Tcs.Validators

namespace TsbAgent
namespace Tcs

open Libc

/-- The files of the policies (`TCS_POLICY_…_PATH`). -/
inductive PolicyPath
  | adminCert
  | adminAuth
  | dmeasure
  | dmeasureProcess
  | criticalFileIntegrity
  | fileProtect
  | globalControl
  | processIds
  | processRoles
  | ptraceProtect
  | tnc
deriving DecidableEq

/-- A policy file: the size of the policy is that of its bytes. -/
structure StoredPolicy where
  num : ℤ
  policy : Bytes

/-- `struct policy_version`. -/
structure PolicyVersion where
  policy : UInt32
  version : UInt64

/-- `policy_version.data`: the size it states, its entries, and what follows them. -/
structure VersionFile where
  size : ℤ
  policies : List PolicyVersion
  rest : Bytes

/-- The files that an update reads and writes. -/
structure Files where
  replay : Option ReplayFile
  policy : PolicyPath → Option StoredPolicy
  version : Option VersionFile

/-- How far `tcs_util_write_policy` gets. -/
inductive PolicyWrite
  | nomem
  | noOpen
  | short
  | noSem (e : TssErr)
  | noRename
  | done

/-- How far `tcs_util_read_policy` gets. -/
inductive PolicyRead
  | noSem (e : TssErr)
  | noRead
  | nomem
  | done

/-- What the rest of the system does during an update. -/
structure UpdateIo extends CheckIo where
  tcsGetAdminList : Except TssErr (List AdminCertItem)
  /-- `os_sm2_verify` of the update, the key and the signature. -/
  osSm2Verify : Bytes → Bytes → UInt32 → Bytes → ℤ
  policyWrite : PolicyWrite
  versionRead : PolicyRead
  versionWrite : PolicyWrite
  /-- `tcs_util_inform_kernel_of_update`. -/
  informKernel : UInt32 → Bytes → ℤ → Option TssErr

/-- `tcs_util_write_policy`: what it returns. -/
def tcsUtilWritePolicy : PolicyWrite → Option TssErr
  | .nomem => some .nomem
  | .noOpen => some .file
  | .short => some .write
  | .noSem e => some e
  | .noRename => some .file
  | .done => none

/-- `tcs_util_read_policy` of the versions. -/
def tcsUtilReadPolicy (io : PolicyRead) (f : Option VersionFile) :
    Except TssErr (List PolicyVersion) :=
  match io, f with
  | .noSem e, _ => .error e
  | _, none => .ok []
  | .noRead, some _ => .error .read
  | .nomem, some f =>
      if f.size ≠ 12 * f.policies.length + f.rest.length then .error .badData else .error .nomem
  | .done, some f =>
      if f.size ≠ 12 * f.policies.length + f.rest.length then .error .badData else .ok f.policies

/-- The loop of `tcs_util_write_policy_version`; it sets every entry of the policy. -/
def setVersion (id : UInt32) (version : UInt64) (l : List PolicyVersion) : List PolicyVersion :=
  l.map fun p => if p.policy = id then { p with version := version } else p

/-- The version file with its entries set. -/
def VersionFile.set (f : VersionFile) (id : UInt32) (version : UInt64) : VersionFile :=
  { f with policies := setVersion id version f.policies }

/-- `tcs_util_write_policy_version`. -/
def tcsUtilWritePolicyVersion (e : UpdateIo) (id : UInt32) (version : UInt64)
    (f : Option VersionFile) : Option TssErr × Option VersionFile :=
  match tcsUtilReadPolicy e.versionRead f with
  | .error err => (some err, f)
  | .ok policies =>
      if policies.all (fun p => p.policy ≠ id) then (some .invalidPolicy, f)
      else
        match tcsUtilWritePolicy e.versionWrite with
        | some err => (some err, f)
        | none => (none, f.map fun f => f.set id version)

/-- `enum TCS_POLICY_TYPE_ENUM`, and any other number. -/
inductive PolicyType
  | adminAuthCert
  | adminAuthPolicy
  | globalControlPolicy
  | bmeasureRef
  | dmeasure
  | processDmeasure
  | fileIntegrity
  | processIdentity
  | processRole
  | ptraceProtect
  | tnc
  | keytree
  | store
  | log
  | notice
  | criticalFileIntegrity
  | fileProtect
  | other (n : ℤ)

/-- The `switch` of `tcs_util_update_policy`: the validator, `com` and `version_type`. -/
def policySwitch : PolicyType → Option (Validator × UInt32 × UInt32)
  | .adminAuthPolicy => some (.adminAuthPolicy, 0x104B, 0)
  | .globalControlPolicy => some (.globalControlPolicy, 0x1044, 1)
  | .dmeasure => some (.dmeasurePolicy, 0x1021, 3)
  | .processDmeasure => some (.dmeasureProcessPolicy, 0x104E, 4)
  | .processIdentity => some (.processIdentity, 0x1040, 6)
  | .processRole => some (.processRole, 0x1042, 7)
  | .ptraceProtect => some (.ptraceProtect, 0x1054, 8)
  | .tnc => some (.tncPolicy, 0x105B, 9)
  | .criticalFileIntegrity => some (.criticalFileIntegrity, 0x105F, 14)
  | .fileProtect => some (.fileProtect, 0x1066, 15)
  | _ => none

/-- The arguments of `tcs_util_update_policy`, less those that nothing reads. -/
structure UpdateRequest where
  uid : Option CStr
  /-- The `auth_length` bytes at `auth`, none for a null pointer. -/
  auth : Option Bytes
  data : Mem
  dataLen : ℕ
  path : PolicyPath
  policy : Bytes
  num : ℤ
  policyType : PolicyType
  counter : UInt64

/-- `tcs_util_verify_update`. -/
def tcsUtilVerifyUpdate (e : UpdateIo) (cert : AdminCertItem) (auth : Bytes) (r : UpdateRequest) :
    Option TssErr :=
  if e.osSm2Verify (r.data.bytes 0 r.dataLen) cert.data.1 cert.certLen auth = 0 then none
  else some .verify

/-- The first stage: the certificate and the signature. -/
def authorize (e : UpdateIo) (r : UpdateRequest) : Option TssErr :=
  match tcsUtilGetCertByUid e.tcsGetAdminList r.uid with
  | .error err => some err
  | .ok cert =>
      match r.auth with
      | none => some .parameter
      | some [] => some .parameter
      | some auth => tcsUtilVerifyUpdate e cert auth r

/-- The stages behind the validator. -/
def writePolicy (e : UpdateIo) (r : UpdateRequest) (com versionType : UInt32) (s : Files) :
    Option TssErr × Files :=
  match tcsUtilWritePolicy e.policyWrite with
  | some err => (some err, s)
  | none =>
      let s := { s with policy := Function.update s.policy r.path (some ⟨r.num, r.policy⟩) }
      match tcsUtilWritePolicyVersion e versionType r.counter s.version with
      | (some err, version) => (some err, { s with version := version })
      | (none, version) => (e.informKernel com r.policy r.num, { s with version := version })

/-- `tcs_util_update_policy`. -/
def tcsUtilUpdatePolicy (e : UpdateIo) (r : UpdateRequest) (s : Files) : Option TssErr × Files :=
  match authorize e r with
  | some err => (some err, s)
  | none =>
      match policySwitch r.policyType with
      | none => (some .parameter, s)
      | some (v, com, versionType) =>
          match v.check e.toCheckIo r.data s.replay with
          | (some err, replay) => (some err, { s with replay := replay })
          | (none, replay) => writePolicy e r com versionType { s with replay := replay }

/-- `tcs_update_file_integrity`. -/
def tcsUpdateFileIntegrity (e : UpdateIo) (references : Mem) (s : Files) :
    Option TssErr × Files :=
  match tcsUtilCheckFileIntegrityUpdate e.toCheckIo s.replay references with
  | (some err, replay) => (some err, { s with replay := replay })
  | (none, replay) =>
      match tcsUtilWritePolicyVersion e 5 (references.ntohll 8) s.version with
      | (some err, version) => (some err, { s with replay := replay, version := version })
      | (none, version) => (none, { s with replay := replay, version := version })

/-- A call of the interface. -/
inductive Call
  | updatePolicy (r : UpdateRequest)
  | updateFileIntegrity (references : Mem)

namespace Call

/-- What the call returns, and the files after it. -/
def exec (c : Call) (e : UpdateIo) (s : Files) : Option TssErr × Files :=
  match c with
  | updatePolicy r => tcsUtilUpdatePolicy e r s
  | updateFileIntegrity references => tcsUpdateFileIntegrity e references s

/-- The counter of the update, without its top bit. -/
def counter : Call → UInt64
  | updatePolicy r =>
      match policySwitch r.policyType with
      | some (v, _, _) => maskCounter (v.counter r.data)
      | none => 0
  | updateFileIntegrity references => maskCounter (references.ntohll 8)

end Call

theorem policySwitch_ne_adminCert {t : PolicyType} {v : Validator} {com versionType : UInt32}
    (h : policySwitch t = some (v, com, versionType)) : v ≠ .adminCert := by
  rintro rfl
  cases t <;> simp [policySwitch] at h

end Tcs
end TsbAgent
