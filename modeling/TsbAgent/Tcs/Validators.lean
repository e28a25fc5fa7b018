/-
# The validators of policy updates

The functions `tcs_util_check_*_update` of
`tss-main/tcs/tcsapi/tcsu/tcs_util_policy_update.c`.  Each is a chain of checks
(`TsbAgent.Lib.CheckChain`) with the replay counter tested and stored somewhere in the
middle, so a chain is written as the checks before that and the checks after it, in the
order of the source.

| update | size | action | before the counter | after it |
| --- | --- | --- | --- | --- |
| `admin_cert` | 152 | any, but see below | size, action | TPCM id, length, type |
| `admin_auth_policy` | | set | number | action, TPCM id, items |
| `boot_references` | 56 | set | all but the TPCM id | TPCM id |
| `dmeasure_policy` | 56 | set | size, action | TPCM id, number, length |
| `dmeasure_process_policy` | 56 | not modify | all but the TPCM id | TPCM id |
| `file_integrity` | 56 | all four | size | TPCM id, length, action |
| `critical_file_integrity` | 56 | set | size | TPCM id, length, action |
| `file_protect` | 56 | | size | TPCM id, length |
| `global_control_policy` | | | | TPCM id, size, fields |
| `process_identity` | 56 | set | size | TPCM id, action, items, length |
| `process_role` | 56 | set | size | TPCM id, action, length |
| `ptrace_protect` | 68 | set | size, action | TPCM id, switch, length |
| `tnc_policy` | 52 | set | size, action | TPCM id, length, fields |

`Validator.WellFormed` says what an update must be, one aspect at a time, and
`validator_rejects_malformed_iff` that twelve of the thirteen accept nothing else.  The
exception is `tcs_util_check_admin_cert_update`: it returns `0` whatever `rc` is.  Its test
of the action (`≠ … || ≠ … || …`) fails for every action, so an update that it found in order
would be refused as well, if it returned what it found.

Sizes are those of the packed structures.  Offsets into the items are 32 bits wide and wrap
around, as in the source; `long` has 64 bits.
-/

import TsbAgent.Lib.CheckChain
import TsbAgent.Lib.Records
import TsbAgent.Tcs.Replay

namespace TsbAgent
namespace Tcs

open Libc Records

/-- `POLICY_ACTION_SET` and its companions. -/
def policyActionSet : UInt32 := 0

@[inherit_doc policyActionSet] def policyActionAdd : UInt32 := 1

@[inherit_doc policyActionSet] def policyActionDelete : UInt32 := 2

@[inherit_doc policyActionSet] def policyActionModify : UInt32 := 3

/-- `POLICY_MAX_NUM`. -/
def policyMaxNum : UInt32 := 8

/-- `BASE_LIB_NUM_MAX`. -/
def baseLibNumMax : UInt32 := 25

/-- `CERT_TYPE_MAX`. -/
def certTypeMax : UInt32 := 4

/-- `CONTROL_MAX`. -/
def controlMax : UInt32 := 2

/-- `DMEASURE_CONFIG_DELAY`. -/
def dmeasureConfigDelay : UInt32 := 60

/-- `MAX_TPCM_ID_SIZE`. -/
def maxTpcmIdSize : ℕ := 32

/-- What a validator asks of the rest of the system. -/
structure CheckIo where
  replay : ReplayIo
  /-- `tcs_get_tpcm_id`: the 128 bytes of `id`, none when the call fails. -/
  tcsGetTpcmId : Option Mem

/-- `check_tpcm_id_func`, for the identity at `p`. -/
def checkTpcmIdFunc (e : CheckIo) (tpcmid : Mem) (p : ℕ) : ℤ :=
  match e.tcsGetTpcmId with
  | none => 1
  | some id => memcmp maxTpcmIdSize (tpcmid.bytes p maxTpcmIdSize) (id.bytes 0 maxTpcmIdSize)

/-! ### The sizes of the items -/

/-- `get_boot_ref_item_size`. -/
def getBootRefItemSize (m : Mem) (p : ℕ) : UInt32 :=
  alignSize (12 + m.ntohs (p + 6) * m.ntohs p + (m.ntohs (p + 4) + m.ntohs (p + 10)))

/-- The size of a `struct dmeasure_process_item`. -/
def dmeasureProcessItemSize (m : Mem) (p : ℕ) : UInt32 := alignSize (10 + m.ntohs (p + 8))

/-- `get_actual_item_size`. -/
def getActualItemSize (m : Mem) (p : ℕ) : UInt32 :=
  alignSize (4 + (m (p + 1)).toUInt32 + m.ntohs (p + 2) + 32)

/-- The size of a `struct file_protect_item` with its programs. -/
def fileProtectItemSize (m : Mem) (p : ℕ) : UInt32 := 260 + m.ntohs (p + 2) * 292

/-- The size of a `struct process_identity`. -/
def processIdentitySize (m : Mem) (p : ℕ) : UInt32 :=
  alignSize (6 + m.ntohs (p + 2) * (1 + m.ntohs (p + 4)) + (m p).toUInt32)

/-- The size of a `struct process_role`. -/
def processRoleSize (m : Mem) (p : ℕ) : UInt32 := alignSize (12 + m.ntohl p + m.ntohl (p + 4))

/-- The size of a `struct process_name`. -/
def processNameSize (m : Mem) (p : ℕ) : UInt32 := 4 + alignSize (m.ntohl p)

/-- The loops that add the sizes of `number` items up, for items that start at `p`:
`get_boot_ref_size`, `get_actual_size_file`, `get_file_protect_date_len` and those written
out in the validators. -/
def itemsSize (size : Mem → ℕ → UInt32) (m : Mem) (p : ℕ) (number : UInt32) : UInt32 :=
  walk (fun offset => size m (p + offset.toNat)) number.toNat 0

/-- `identity_item.specific_libs >= POLICY_SPECIFIC_LIBS_ALL`, for the item at an offset. -/
def specificLibsBad (m : Mem) (p : ℕ) (offset : UInt32) : Bool := m (p + offset.toNat + 1) ≥ 2

/-- The loop of `tcs_util_check_process_identity_update`. -/
def identityLoop (m : Mem) (p : ℕ) (number : UInt32) : Bool × UInt32 :=
  walkUntil (fun offset => processIdentitySize m (p + offset.toNat)) (specificLibsBad m p)
    number.toNat 0

/-- The error that the loop of `tcs_util_check_admin_auth_policy_update` finds in item `i`. -/
def authPolicyError (m : Mem) (i : ℕ) : Option TssErr :=
  if m.ntohl (48 + 80 * i) ≥ 4 ∨ m.ntohl (48 + 80 * i) < 1 then some .invalidPolicy
  else if m.ntohl (48 + 80 * i + 4) > 3 then some .badData
  else none

/-! ### The chains -/

section Chains

variable (e : CheckIo) (u : Mem)

/-- `tcs_util_check_admin_cert_update`.  The test of the action is the source's. -/
def adminCertChain : CheckChain TssErr where
  before :=
    [.check (u.ntohl 0 = 152) .badData,
      .check (¬ (u.ntohl 4 ≠ policyActionSet ∨ u.ntohl 4 ≠ policyActionAdd ∨
        u.ntohl 4 ≠ policyActionDelete ∨ u.ntohl 4 ≠ policyActionModify)) .invalidAction]
  err := .verifyReplay
  after :=
    [.check (checkTpcmIdFunc e u 16 = 0) .tpcmId,
      .check (u.ntohl 52 ≤ 64) .badData,
      .check (u.ntohl 48 < certTypeMax) .badData]

/-- `tcs_util_check_admin_auth_policy_update`. -/
def adminAuthPolicyChain : CheckChain TssErr where
  before := [.check (u.ntohl 0 ≤ policyMaxNum) .badData]
  err := .verifyReplay
  after :=
    [.check (u.ntohl 4 = policyActionSet) .invalidAction,
      .check (checkTpcmIdFunc e u 16 = 0) .tpcmId,
      .loop ((List.range (u.ntohl 0).toNat).findSome? (authPolicyError u))]

/-- `tcs_util_check_boot_references_update`. -/
def bootReferencesChain : CheckChain TssErr where
  before :=
    [.check (u.ntohl 0 = 56) .badData,
      .check (u.ntohl 16 ≠ 0 ∧ u.ntohl 16 ≤ baseLibNumMax) .badData,
      .check (itemsSize getBootRefItemSize u 56 (u.ntohl 16) = u.ntohl 20) .badData,
      .check (u.ntohl 4 = policyActionSet) .invalidAction]
  err := .verifyReplay
  after := [.check (checkTpcmIdFunc e u 24 = 0) .tpcmId]

/-- `tcs_util_check_dmeasure_policy_update`. -/
def dmeasurePolicyChain : CheckChain TssErr where
  before :=
    [.check (u.ntohl 0 = 56) .badData,
      .check (u.ntohl 4 = policyActionSet) .invalidAction]
  err := .verifyReplay
  after :=
    [.check (checkTpcmIdFunc e u 24 = 0) .tpcmId,
      .check (u.ntohl 16 ≤ policyMaxNum) .parameter,
      .check (u.ntohl 20 = 40 * u.ntohl 16) .parameter]

/-- `tcs_util_check_dmeasure_process_policy_update`. -/
def dmeasureProcessPolicyChain : CheckChain TssErr where
  before :=
    [.check (u.ntohl 0 = 56) .badData,
      .check (u.ntohl 4 < policyActionModify) .invalidAction,
      .check (u.ntohl 20 = itemsSize dmeasureProcessItemSize u 56 (u.ntohl 16)) .badData]
  err := .verifyReplay
  after := [.check (checkTpcmIdFunc e u 24 = 0) .tpcmId]

/-- `tcs_util_check_file_integrity_update` and `tcs_util_check_critical_file_integrity_update`,
which differ in the actions they admit. -/
def integrityChain (action : Bool) : CheckChain TssErr where
  before := [.check (u.ntohl 0 = 56) .badData]
  err := .verifyReplay
  after :=
    [.check (checkTpcmIdFunc e u 24 = 0) .tpcmId,
      .check (itemsSize getActualItemSize u 56 (u.ntohl 16) = u.ntohl 20) .badData,
      .check action .invalidAction]

/-- `tcs_util_check_file_protect_update`. -/
def fileProtectChain : CheckChain TssErr where
  before := [.check (u.ntohl 0 = 56) .badData]
  err := .verifyReplay
  after :=
    [.check (checkTpcmIdFunc e u 24 = 0) .tpcmId,
      .check (itemsSize fileProtectItemSize u 56 (u.ntohl 16) = u.ntohl 20) .badData]

/-- A mode that is `PROCESS_DMEASURE_MODE_MEASURE` or `PROCESS_DMEASURE_MODE_NON_MEASURE`. -/
def dmeasureMode (mode : UInt32) : Bool := ¬ (mode > 2 ∨ mode < 1)

/-- `tcs_util_check_global_control_policy_update`. -/
def globalControlPolicyChain : CheckChain TssErr where
  before := []
  err := .verifyReplay
  after :=
    [.check (checkTpcmIdFunc e u 8 = 0) .tpcmId,
      .check (u.ntohl 40 = 80) .badData,
      .check (u.ntohl 44 < controlMax) .badData,
      .check (u.ntohl 48 < controlMax) .badData,
      .check (u.ntohl 52 < controlMax) .badData,
      .check (u.ntohl 56 < controlMax) .badData,
      .check (u.ntohl 60 < controlMax) .badData,
      .check (u.ntohl 76 ≤ 3) .badData,
      .check (u.ntohl 80 < controlMax) .badData,
      .check (u.ntohl 84 ≥ dmeasureConfigDelay) .badData,
      .check (u.ntohl 88 < controlMax) .badData,
      .check (u.ntohl 92 < controlMax) .badData,
      .check (dmeasureMode (u.ntohl 100)) .badData,
      .check (u.ntohl 96 < controlMax) .badData,
      .check (u.ntohl 104 ≤ 3) .badData,
      .check (dmeasureMode (u.ntohl 108)) .badData,
      .check (dmeasureMode (u.ntohl 112)) .badData,
      .check (u.ntohl 116 ≠ 0) .badData]

/-- `tcs_util_check_process_identity_update`. -/
def processIdentityChain : CheckChain TssErr where
  before := [.check (u.ntohl 0 = 56) .badData]
  err := .verifyReplay
  after :=
    [.check (checkTpcmIdFunc e u 24 = 0) .tpcmId,
      .check (u.ntohl 4 = policyActionSet) .invalidAction,
      .loop (if (identityLoop u 56 (u.ntohl 16)).1 then none else some .badData),
      .check ((identityLoop u 56 (u.ntohl 16)).2 = u.ntohl 20) .badData]

/-- `tcs_util_check_process_role_update`. -/
def processRoleChain : CheckChain TssErr where
  before := [.check (u.ntohl 0 = 56) .badData]
  err := .verifyReplay
  after :=
    [.check (checkTpcmIdFunc e u 24 = 0) .tpcmId,
      .check (u.ntohl 4 = policyActionSet) .invalidAction,
      .check (itemsSize processRoleSize u 56 (u.ntohl 16) = u.ntohl 20) .badData]

/-- `tcs_util_check_ptrace_protect_update`; the items are counted by two numbers. -/
def ptraceProtectChain : CheckChain TssErr where
  before :=
    [.check (u.ntohl 0 = 68) .badData,
      .check (u.ntohl 4 = policyActionSet) .invalidAction]
  err := .verifyReplay
  after :=
    [.check (checkTpcmIdFunc e u 20 = 0) .tpcmId,
      .check (¬ (u.ntohl 56 < 0 ∨ u.ntohl 56 ≥ 2)) .badData,
      .check (itemsSize processNameSize u 68 (u.ntohl 60 + u.ntohl 64) = u.ntohl 52) .badData]

/-- `tcs_util_check_tnc_policy_update`; the length is compared in 64 bits. -/
def tncPolicyChain : CheckChain TssErr where
  before :=
    [.check (u.ntohl 0 = 52) .badData,
      .check (u.ntohl 4 = policyActionSet) .invalidAction]
  err := .verifyReplay
  after :=
    [.check (checkTpcmIdFunc e u 20 = 0) .tpcmId,
      .check (20 + (u.ntohl 52).toNat * 16 = (u.ntohl 16).toNat) .badData,
      .check (u.ntohs 58 ≤ 1) .badData,
      .check (u 60 ≤ 1) .badData,
      .check (u 61 ≤ 1) .badData,
      .check (u 62 ≤ 1) .badData,
      .check (u 63 ≤ 1) .badData,
      .check (u.ntohl 52 ≤ 60) .badData]

end Chains

/-! ### The functions -/

section Functions

variable (e : CheckIo) (f : Option ReplayFile)

/-- The body of a validator around the replay counter of the update. -/
def checkUpdate (chain : CheckChain TssErr) (counter : UInt64) :
    Option TssErr × Option ReplayFile :=
  chain.exec (tcsUtilWriteReplayCounter e.replay counter) f

/-- The test for a null pointer in front of a body. -/
def nullTest (update : Option Mem) (body : Mem → Option TssErr × Option ReplayFile) :
    Option TssErr × Option ReplayFile :=
  match update with
  | none => (some .parameter, f)
  | some u => body u

/-- `tcs_util_check_admin_cert_update`: the source ends with `return 0`. -/
def tcsUtilCheckAdminCertUpdate (update : Option Mem) : Option TssErr × Option ReplayFile :=
  nullTest f update fun u => (none, (checkUpdate e f (adminCertChain e u) (u.ntohll 8)).2)

def tcsUtilCheckAdminAuthPolicyUpdate (update : Option Mem) :
    Option TssErr × Option ReplayFile :=
  nullTest f update fun u => checkUpdate e f (adminAuthPolicyChain e u) (u.ntohll 8)

def tcsUtilCheckBootReferencesUpdate (update : Option Mem) : Option TssErr × Option ReplayFile :=
  nullTest f update fun u => checkUpdate e f (bootReferencesChain e u) (u.ntohll 8)

def tcsUtilCheckDmeasurePolicyUpdate (update : Option Mem) : Option TssErr × Option ReplayFile :=
  nullTest f update fun u => checkUpdate e f (dmeasurePolicyChain e u) (u.ntohll 8)

def tcsUtilCheckDmeasureProcessPolicyUpdate (update : Option Mem) :
    Option TssErr × Option ReplayFile :=
  nullTest f update fun u => checkUpdate e f (dmeasureProcessPolicyChain e u) (u.ntohll 8)

def tcsUtilCheckFileIntegrityUpdate (update : Mem) : Option TssErr × Option ReplayFile :=
  checkUpdate e f (integrityChain e update (update.ntohl 4 ≤ policyActionModify))
    (update.ntohll 8)

def tcsUtilCheckCriticalFileIntegrityUpdate (update : Mem) :
    Option TssErr × Option ReplayFile :=
  checkUpdate e f (integrityChain e update (update.ntohl 4 = policyActionSet)) (update.ntohll 8)

def tcsUtilCheckFileProtectUpdate (update : Mem) : Option TssErr × Option ReplayFile :=
  checkUpdate e f (fileProtectChain e update) (update.ntohll 8)

def tcsUtilCheckGlobalControlPolicyUpdate (update : Option Mem) :
    Option TssErr × Option ReplayFile :=
  nullTest f update fun u => checkUpdate e f (globalControlPolicyChain e u) (u.ntohll 0)

def tcsUtilCheckProcessIdentityUpdate (update : Mem) : Option TssErr × Option ReplayFile :=
  checkUpdate e f (processIdentityChain e update) (update.ntohll 8)

def tcsUtilCheckProcessRoleUpdate (update : Mem) : Option TssErr × Option ReplayFile :=
  checkUpdate e f (processRoleChain e update) (update.ntohll 8)

def tcsUtilCheckPtraceProtectUpdate (update : Mem) : Option TssErr × Option ReplayFile :=
  checkUpdate e f (ptraceProtectChain e update) (update.ntohll 8)

def tcsUtilCheckTncPolicyUpdate (update : Mem) : Option TssErr × Option ReplayFile :=
  checkUpdate e f (tncPolicyChain e update) (update.ntohll 8)

end Functions

/-- The validators. -/
inductive Validator
  | adminCert
  | adminAuthPolicy
  | bootReferences
  | dmeasurePolicy
  | dmeasureProcessPolicy
  | fileIntegrity
  | criticalFileIntegrity
  | fileProtect
  | globalControlPolicy
  | processIdentity
  | processRole
  | ptraceProtect
  | tncPolicy
deriving DecidableEq

namespace Validator

/-- The validator on an update that is there. -/
def check (v : Validator) (e : CheckIo) (u : Mem) (f : Option ReplayFile) :
    Option TssErr × Option ReplayFile :=
  match v with
  | adminCert => tcsUtilCheckAdminCertUpdate e f (some u)
  | adminAuthPolicy => tcsUtilCheckAdminAuthPolicyUpdate e f (some u)
  | bootReferences => tcsUtilCheckBootReferencesUpdate e f (some u)
  | dmeasurePolicy => tcsUtilCheckDmeasurePolicyUpdate e f (some u)
  | dmeasureProcessPolicy => tcsUtilCheckDmeasureProcessPolicyUpdate e f (some u)
  | fileIntegrity => tcsUtilCheckFileIntegrityUpdate e f u
  | criticalFileIntegrity => tcsUtilCheckCriticalFileIntegrityUpdate e f u
  | fileProtect => tcsUtilCheckFileProtectUpdate e f u
  | globalControlPolicy => tcsUtilCheckGlobalControlPolicyUpdate e f (some u)
  | processIdentity => tcsUtilCheckProcessIdentityUpdate e f u
  | processRole => tcsUtilCheckProcessRoleUpdate e f u
  | ptraceProtect => tcsUtilCheckPtraceProtectUpdate e f u
  | tncPolicy => tcsUtilCheckTncPolicyUpdate e f u

/-- The body of the validator. -/
def chain (v : Validator) (e : CheckIo) (u : Mem) : CheckChain TssErr :=
  match v with
  | adminCert => adminCertChain e u
  | adminAuthPolicy => adminAuthPolicyChain e u
  | bootReferences => bootReferencesChain e u
  | dmeasurePolicy => dmeasurePolicyChain e u
  | dmeasureProcessPolicy => dmeasureProcessPolicyChain e u
  | fileIntegrity => integrityChain e u (u.ntohl 4 ≤ policyActionModify)
  | criticalFileIntegrity => integrityChain e u (u.ntohl 4 = policyActionSet)
  | fileProtect => fileProtectChain e u
  | globalControlPolicy => globalControlPolicyChain e u
  | processIdentity => processIdentityChain e u
  | processRole => processRoleChain e u
  | ptraceProtect => ptraceProtectChain e u
  | tncPolicy => tncPolicyChain e u

/-- `ntohll (update->be_replay_counter)`. -/
def counter (v : Validator) (u : Mem) : UInt64 :=
  match v with
  | globalControlPolicy => u.ntohll 0
  | _ => u.ntohll 8

/-! ### What a well formed update is -/

/-- The size that the update states is that of its structure. -/
def SizeOk (v : Validator) (u : Mem) : Prop :=
  match v with
  | adminCert => u.ntohl 0 = 152
  | adminAuthPolicy => True
  | globalControlPolicy => u.ntohl 40 = 80
  | ptraceProtect => u.ntohl 0 = 68
  | tncPolicy => u.ntohl 0 = 52
  | _ => u.ntohl 0 = 56

/-- The action is one of those that the update admits. -/
def ActionOk (v : Validator) (u : Mem) : Prop :=
  match v with
  | adminCert | fileIntegrity =>
      u.ntohl 4 ∈ [policyActionSet, policyActionAdd, policyActionDelete, policyActionModify]
  | dmeasureProcessPolicy => u.ntohl 4 ∈ [policyActionSet, policyActionAdd, policyActionDelete]
  | fileProtect | globalControlPolicy => True
  | _ => u.ntohl 4 = policyActionSet

/-- Where the update has the TPCM's identity. -/
def tpcmIdOffset (v : Validator) : ℕ :=
  match v with
  | adminCert | adminAuthPolicy => 16
  | globalControlPolicy => 8
  | ptraceProtect | tncPolicy => 20
  | _ => 24

/-- The update is for this TPCM. -/
def TpcmIdOk (v : Validator) (e : CheckIo) (u : Mem) : Prop :=
  ∃ id, e.tcsGetTpcmId = some id ∧
    u.bytes v.tpcmIdOffset maxTpcmIdSize = id.bytes 0 maxTpcmIdSize

/-- Every number and every enumerated field is in its range, those of the items included. -/
def FieldsOk (v : Validator) (u : Mem) : Prop :=
  match v with
  | adminCert => u.ntohl 52 ≤ 64 ∧ u.ntohl 48 < certTypeMax
  | adminAuthPolicy => u.ntohl 0 ≤ policyMaxNum ∧ ∀ i < (u.ntohl 0).toNat,
      1 ≤ u.ntohl (48 + 80 * i) ∧ u.ntohl (48 + 80 * i) < 4 ∧ u.ntohl (48 + 80 * i + 4) ≤ 3
  | bootReferences => u.ntohl 16 ≠ 0 ∧ u.ntohl 16 ≤ baseLibNumMax
  | dmeasurePolicy => u.ntohl 16 ≤ policyMaxNum
  | globalControlPolicy =>
      (∀ p ∈ [44, 48, 52, 56, 60, 80, 88, 92, 96], u.ntohl p < controlMax) ∧
        (∀ p ∈ [76, 104], u.ntohl p ≤ 3) ∧
        (∀ p ∈ [100, 108, 112], 1 ≤ u.ntohl p ∧ u.ntohl p ≤ 2) ∧
        u.ntohl 84 ≥ dmeasureConfigDelay ∧ u.ntohl 116 ≠ 0
  | processIdentity => ∀ i < (u.ntohl 16).toNat, u (56 +
      (walk (fun offset => processIdentitySize u (56 + offset.toNat)) i 0).toNat + 1) < 2
  | ptraceProtect => u.ntohl 56 < 2
  | tncPolicy => u.ntohs 58 ≤ 1 ∧ (∀ p ∈ [60, 61, 62, 63], u p ≤ 1) ∧ u.ntohl 52 ≤ 60
  | _ => True

/-- The sizes of the items add up to the length that the update states. -/
def LengthOk (v : Validator) (u : Mem) : Prop :=
  match v with
  | bootReferences => itemsSize getBootRefItemSize u 56 (u.ntohl 16) = u.ntohl 20
  | dmeasurePolicy => 40 * u.ntohl 16 = u.ntohl 20
  | dmeasureProcessPolicy => itemsSize dmeasureProcessItemSize u 56 (u.ntohl 16) = u.ntohl 20
  | fileIntegrity | criticalFileIntegrity =>
      itemsSize getActualItemSize u 56 (u.ntohl 16) = u.ntohl 20
  | fileProtect => itemsSize fileProtectItemSize u 56 (u.ntohl 16) = u.ntohl 20
  | processIdentity => itemsSize processIdentitySize u 56 (u.ntohl 16) = u.ntohl 20
  | processRole => itemsSize processRoleSize u 56 (u.ntohl 16) = u.ntohl 20
  | ptraceProtect => itemsSize processNameSize u 68 (u.ntohl 60 + u.ntohl 64) = u.ntohl 52
  | tncPolicy => 20 + (u.ntohl 52).toNat * 16 = (u.ntohl 16).toNat
  | _ => True

/-- Everything that a validator must have found in order when it accepts the update. -/
structure WellFormed (v : Validator) (e : CheckIo) (f : Option ReplayFile) (u : Mem) : Prop where
  size : v.SizeOk u
  action : v.ActionOk u
  newer : Newer e.replay f (v.counter u)
  tpcmId : v.TpcmIdOk e u
  fields : v.FieldsOk u
  length : v.LengthOk u

section Sound

variable {e : CheckIo} {f : Option ReplayFile} {u : Mem} {v : Validator}

/-- The bodies of all validators, and what twelve of them return. -/
theorem check_snd (v : Validator) (e : CheckIo) (u : Mem) (f : Option ReplayFile) :
    (v.check e u f).2 =
      ((v.chain e u).exec (tcsUtilWriteReplayCounter e.replay (v.counter u)) f).2 := by
  cases v <;> rfl

theorem check_eq (hv : v ≠ adminCert) : v.check e u f =
    (v.chain e u).exec (tcsUtilWriteReplayCounter e.replay (v.counter u)) f := by
  cases v with
  | adminCert => exact absurd rfl hv
  | _ => rfl

theorem checkTpcmIdFunc_eq_zero {p : ℕ} : checkTpcmIdFunc e u p = 0 ↔
    ∃ id, e.tcsGetTpcmId = some id ∧ u.bytes p maxTpcmIdSize = id.bytes 0 maxTpcmIdSize := by
  unfold checkTpcmIdFunc
  cases e.tcsGetTpcmId with
  | none => simp
  | some id =>
      simp only [Option.some.injEq, exists_eq_left']
      rw [memcmp_eq_zero (Mem.length_bytes ..).ge (Mem.length_bytes ..).ge,
        List.take_of_length_le (Mem.length_bytes ..).le,
        List.take_of_length_le (Mem.length_bytes ..).le]

theorem authPolicyError_eq_none {i : ℕ} : authPolicyError u i = none ↔
    1 ≤ u.ntohl (48 + 80 * i) ∧ u.ntohl (48 + 80 * i) < 4 ∧ u.ntohl (48 + 80 * i + 4) ≤ 3 := by
  unfold authPolicyError
  split_ifs with h₁ h₂
  · refine iff_of_false (by simp) fun h => ?_
    rcases h₁ with h₁ | h₁
    · exact UInt32.not_le.mpr h.2.1 h₁
    · exact UInt32.not_lt.mpr h.1 h₁
  · exact iff_of_false (by simp) fun h => UInt32.not_lt.mpr h.2.2 h₂
  · rw [not_or, UInt32.not_le, UInt32.not_lt] at h₁
    exact iff_of_true rfl ⟨h₁.2, h₁.1, UInt32.not_lt.mp h₂⟩

theorem mem_actions_of_lt {a : UInt32} (h : a < policyActionModify) :
    a ∈ [policyActionSet, policyActionAdd, policyActionDelete] := by
  have hlt : a.toNat < 3 := UInt32.lt_iff_toNat_lt.mp h
  simp only [List.mem_cons, List.not_mem_nil, or_false, ← UInt32.toNat_inj]
  show a.toNat = 0 ∨ a.toNat = 1 ∨ a.toNat = 2
  omega

theorem mem_actions_of_le {a : UInt32} (h : a ≤ policyActionModify) :
    a ∈ [policyActionSet, policyActionAdd, policyActionDelete, policyActionModify] := by
  have hle : a.toNat ≤ 3 := UInt32.le_iff_toNat_le.mp h
  simp only [List.mem_cons, List.not_mem_nil, or_false, ← UInt32.toNat_inj]
  show a.toNat = 0 ∨ a.toNat = 1 ∨ a.toNat = 2 ∨ a.toNat = 3
  omega

theorem dmeasureMode_iff {mode : UInt32} : dmeasureMode mode = true ↔ 1 ≤ mode ∧ mode ≤ 2 := by
  rw [dmeasureMode, decide_eq_true_iff, not_or, UInt32.not_lt, UInt32.not_lt]
  exact and_comm

/-- The loop over the identities comes to its end when no item has a bad `specific_libs`,
and then it has added all of them up. -/
theorem identityLoop_spec {number : UInt32} (h : (identityLoop u 56 number).1 = true) :
    (∀ i < number.toNat, u (56 +
      (walk (fun offset => processIdentitySize u (56 + offset.toNat)) i 0).toNat + 1) < 2) ∧
      (identityLoop u 56 number).2 = itemsSize processIdentitySize u 56 number := by
  refine ⟨fun i hi => ?_, walkUntil_eq h⟩
  have hbad := walkUntil_fst_iff.mp h i hi
  rw [specificLibsBad, decide_eq_false_iff_not, UInt8.not_le] at hbad
  exact hbad

/-- **Every aspect of a well formed update is tested**, by twelve of the validators. -/
theorem aspects_of_holds (hv : v ≠ adminCert) (hb : ∀ t ∈ (v.chain e u).before, t.Holds)
    (ha : ∀ t ∈ (v.chain e u).after, t.Holds) :
    v.SizeOk u ∧ v.ActionOk u ∧ v.TpcmIdOk e u ∧ v.FieldsOk u ∧ v.LengthOk u := by
  cases v with
  | adminCert => exact absurd rfl hv
  | adminAuthPolicy =>
      simp only [chain, adminAuthPolicyChain, List.forall_mem_cons, CheckStmt.Holds,
        decide_eq_true_iff, List.findSome?_eq_none_iff, List.mem_range,
        authPolicyError_eq_none] at hb ha
      exact ⟨trivial, ha.1, checkTpcmIdFunc_eq_zero.mp ha.2.1, ⟨hb.1, ha.2.2.1⟩, trivial⟩
  | bootReferences =>
      simp only [chain, bootReferencesChain, List.forall_mem_cons, CheckStmt.Holds,
        decide_eq_true_iff] at hb ha
      exact ⟨hb.1, hb.2.2.2.1, checkTpcmIdFunc_eq_zero.mp ha.1, hb.2.1, hb.2.2.1⟩
  | dmeasurePolicy =>
      simp only [chain, dmeasurePolicyChain, List.forall_mem_cons, CheckStmt.Holds,
        decide_eq_true_iff] at hb ha
      exact ⟨hb.1, hb.2.1, checkTpcmIdFunc_eq_zero.mp ha.1, ha.2.1, ha.2.2.1.symm⟩
  | dmeasureProcessPolicy =>
      simp only [chain, dmeasureProcessPolicyChain, List.forall_mem_cons, CheckStmt.Holds,
        decide_eq_true_iff] at hb ha
      exact ⟨hb.1, mem_actions_of_lt hb.2.1, checkTpcmIdFunc_eq_zero.mp ha.1, trivial,
        hb.2.2.1.symm⟩
  | fileIntegrity =>
      simp only [chain, integrityChain, List.forall_mem_cons, CheckStmt.Holds,
        decide_eq_true_iff] at hb ha
      exact ⟨hb.1, mem_actions_of_le ha.2.2.1, checkTpcmIdFunc_eq_zero.mp ha.1, trivial, ha.2.1⟩
  | criticalFileIntegrity =>
      simp only [chain, integrityChain, List.forall_mem_cons, CheckStmt.Holds,
        decide_eq_true_iff] at hb ha
      exact ⟨hb.1, ha.2.2.1, checkTpcmIdFunc_eq_zero.mp ha.1, trivial, ha.2.1⟩
  | fileProtect =>
      simp only [chain, fileProtectChain, List.forall_mem_cons, CheckStmt.Holds,
        decide_eq_true_iff] at hb ha
      exact ⟨hb.1, trivial, checkTpcmIdFunc_eq_zero.mp ha.1, trivial, ha.2.1⟩
  | globalControlPolicy =>
      simp only [chain, globalControlPolicyChain, List.forall_mem_cons, CheckStmt.Holds,
        decide_eq_true_iff, dmeasureMode_iff] at ha
      obtain ⟨hid, hsize, h44, h48, h52, h56, h60, h76, h80, h84, h88, h92, h100, h96, h104, h108,
        h112, h116, -⟩ := ha
      refine ⟨hsize, trivial, checkTpcmIdFunc_eq_zero.mp hid, ⟨?_, ?_, ?_, h84, h116⟩, trivial⟩
      · simp only [List.forall_mem_cons]
        exact ⟨h44, h48, h52, h56, h60, h80, h88, h92, h96, fun _ h => absurd h List.not_mem_nil⟩
      · simp only [List.forall_mem_cons]
        exact ⟨h76, h104, fun _ h => absurd h List.not_mem_nil⟩
      · simp only [List.forall_mem_cons]
        exact ⟨h100, h108, h112, fun _ h => absurd h List.not_mem_nil⟩
  | processIdentity =>
      simp only [chain, processIdentityChain, List.forall_mem_cons, CheckStmt.Holds,
        decide_eq_true_iff, ite_eq_left_iff, reduceCtorEq, imp_false, not_not] at hb ha
      obtain ⟨hid, haction, hloop, hlength, -⟩ := ha
      obtain ⟨hfields, hend⟩ := identityLoop_spec hloop
      exact ⟨hb.1, haction, checkTpcmIdFunc_eq_zero.mp hid, hfields, hend.symm.trans hlength⟩
  | processRole =>
      simp only [chain, processRoleChain, List.forall_mem_cons, CheckStmt.Holds,
        decide_eq_true_iff] at hb ha
      exact ⟨hb.1, ha.2.1, checkTpcmIdFunc_eq_zero.mp ha.1, trivial, ha.2.2.1⟩
  | ptraceProtect =>
      simp only [chain, ptraceProtectChain, List.forall_mem_cons, CheckStmt.Holds,
        decide_eq_true_iff, not_or, UInt32.not_le] at hb ha
      exact ⟨hb.1, hb.2.1, checkTpcmIdFunc_eq_zero.mp ha.1, ha.2.1.2, ha.2.2.1⟩
  | tncPolicy =>
      simp only [chain, tncPolicyChain, List.forall_mem_cons, CheckStmt.Holds,
        decide_eq_true_iff] at hb ha
      obtain ⟨hid, hlength, hmode, h60, h61, h62, h63, hnumber, -⟩ := ha
      refine ⟨hb.1, hb.2.1, checkTpcmIdFunc_eq_zero.mp hid, ⟨hmode, ?_, hnumber⟩, hlength⟩
      simp only [List.forall_mem_cons]
      exact ⟨h60, h61, h62, h63, fun _ h => absurd h List.not_mem_nil⟩

/-- **What the other validators accept is well formed.** -/
theorem wellFormed_of_check (hv : v ≠ adminCert) (h : (v.check e u f).1 = none) :
    v.WellFormed e f u := by
  rw [check_eq hv, CheckChain.exec_fst_eq_none_iff] at h
  obtain ⟨hb, hwrite, ha⟩ := h
  obtain ⟨hsize, haction, htpcmId, hfields, hlength⟩ := aspects_of_holds hv hb ha
  exact ⟨hsize, haction, (tcsUtilWriteReplayCounter_of_none hwrite).1, htpcmId, hfields, hlength⟩

/-- A validator leaves the file alone or writes the counter of the update. -/
theorem check_snd_cases (v : Validator) (e : CheckIo) (u : Mem) (f : Option ReplayFile) :
    (v.check e u f).2 = f ∨
      (v.check e u f).2 = (tcsUtilWriteReplayCounter e.replay (v.counter u) f).2 := by
  rw [check_snd]
  by_cases hb : ∀ t ∈ (v.chain e u).before, t.GoesOn
  · exact .inr (CheckChain.exec_snd_of_goesOn hb)
  · exact .inl (CheckChain.exec_of_not_goesOn hb).2

/-- A validator that accepts has written the counter. -/
theorem check_write (hv : v ≠ adminCert) (h : (v.check e u f).1 = none) :
    (tcsUtilWriteReplayCounter e.replay (v.counter u) f).1 = none ∧
      (v.check e u f).2 = (tcsUtilWriteReplayCounter e.replay (v.counter u) f).2 := by
  rw [check_eq hv] at h ⊢
  obtain ⟨hb, hwrite, -⟩ := CheckChain.exec_fst_eq_none_iff.mp h
  exact ⟨hwrite, CheckChain.exec_snd_of_goesOn fun t ht => (hb t ht).goesOn⟩

end Sound

end Validator

end Tcs
end TsbAgent
