/-
# Decoding the stored policies

The six functions of `tss-main/tcf/src` that take a stored policy apart, with every access that
they make: the header of an item, the tests on its lengths, each `malloc` and each copy.  What is
stored are plain files, so the buffer, its length and the number of items may be anything.

| decoder | header read untested | its tests on an item | left out of the tests |
| --- | --- | --- | --- |
| identities | yes | before the copies | the 6 bytes of the header |
| roles | yes | before the copies | the 12 bytes of the header |
| file protection | yes | after the copies | everything |
| ptrace | the first 16 bytes | before the copies | these 16 bytes; every error is returned as 0 |
| process measurement | no | before the copies | nothing |
| boot references | no | before the copies | nothing, but the sum may leave the range of an `int` |

`Decodes` says what a decoder should do with a buffer, and `Decoder.Sound` where it does.  The
models in `TsbAgent.Tcf.Process` and its neighbours are about what is decoded.
-/

import TsbAgent.Lib.Bounded
import TsbAgent.Tcf.Process
import TsbAgent.Tcf.FileProtect
import TsbAgent.Tcf.Protect
import TsbAgent.Tcf.Dmeasure
import TsbAgent.Tcf.BootMeasure

namespace TsbAgent
namespace Tcf
namespace Extract

open Libc Word Codec Bounded FileIntegrity

/-- Which requests for memory are granted: the `k`-th one for what is at an offset; the offset of
the whole list is -1. -/
abbrev Grants := ℤ → ℕ → Bool

/-- The memory is always there. -/
def allGranted : Grants := fun _ _ => true

/-- A buffer whose length is an `int`. -/
structure Stored where
  data : Bytes
  length_lt : data.length < 2 ^ 31

/-! ### Identities -/

/-- `cur->name_length`. -/
def idNameLength (header : Bytes) : ℕ := (header.getD 0 0).toNat

/-- The length of the hashes, before it becomes an `int`. -/
def idHashLength (header : Bytes) : ℕ := netAt header 2 2 * (1 + netAt header 4 2)

/-- One round of `tcf_util_process_ids_extract`. -/
def extractId (g : Grants) (b : Bytes) (op : ℤ) : Except Fail (ProcessIdentity × ℤ) := do
  let header ← read b op 6
  let nameLength : ℤ := idNameLength header
  let hashLen := int32 (idHashLength header)
  malloc (g op 0) (nameLength + 1) .nomem
  check (int32 (op + hashLen + nameLength) > b.length) .parameter
  let name ← copy b (op + 6 + hashLen) nameLength (nameLength + 1)
  malloc (g op 1) (hashLen + 1) .nomem
  check (int32 (op + hashLen) > b.length) .parameter
  let hash ← copy b (op + 6) hashLen (hashLen + 1)
  let next := int32 (op + align4 (hashLen + nameLength + 6).toNat)
  check (next > b.length) .parameter
  pure (⟨name, netAt header 2 2, (header.getD 1 0).toNat, netAt header 4 2, hash⟩, next)

/-- `tcf_util_process_ids_extract`. -/
def processIdsExtract (g : Grants) (b : Bytes) (num : ℤ) : Except Fail (List ProcessIdentity) := do
  malloc (g (-1) 0) (num * 32) .nomem
  let ids ← decode (extractId g b) num.toNat 0
  pure ids.1

/-! ### Roles -/

/-- One member; `op` is where the role starts, `memberOpt` counts from behind its header and `total`
is `member_length + role_name_length`. -/
def extractMember (g : Grants) (b : Bytes) (op total memberOpt : ℤ) : Except Fail (Bytes × ℤ) := do
  let header ← read b (op + 12 + memberOpt) 1
  let length : ℤ := (header.getD 0 0).toNat
  malloc (g (op + 12 + memberOpt) 0) (length + 1) .nomem
  check (int32 (op + memberOpt + length) > b.length) .parameter
  let name ← copy b (op + 12 + memberOpt + 1) length (length + 1)
  let next := int32 (memberOpt + 1 + length)
  check (next % 2 ^ 32 > total) .parameter
  pure (name, next)

/-- One round of `tcf_util_process_roles_extract`. -/
def extractRole (g : Grants) (b : Bytes) (op : ℤ) : Except Fail (ProcessRole × ℤ) := do
  let header ← read b op 12
  let nameLength := int32 (netAt header 0 4)
  malloc (g op 0) (int32 (nameLength + 1)) .nomem
  check (int32 (op + nameLength) > b.length) .parameter
  let name ← copy b (op + 12) nameLength (nameLength + 1)
  malloc (g op 1) (int32 (netAt header 8 4) * 8) .nomem
  let total := (netAt header 4 4 + nameLength) % 2 ^ 32
  let members ← decode (extractMember g b op total) (netAt header 8 4) nameLength
  let next := int32 (op + alignInt (int32 (members.2 + 12)))
  check (next > b.length) .parameter
  pure (⟨name, members.1⟩, next)

/-- `tcf_util_process_roles_extract`. -/
def processRolesExtract (g : Grants) (b : Bytes) (num : ℤ) : Except Fail (List ProcessRole) := do
  malloc (g (-1) 0) (int32 (2 * num) * 24) .nomem
  let roles ← decode (extractRole g b) num.toNat 0
  pure roles.1

/-! ### File protection -/

/-- One privileged process. -/
def extractPrivileged (g : Grants) (b : Bytes) (cur : ℤ) : Except Fail (PrivilegedProcess × ℤ) := do
  malloc (g cur 0) 24 .nomem
  let type ← read b cur 4
  let path ← readText b (cur + 4)
  malloc (g cur 1) (path.strlen + 1) .nomem
  malloc (g cur 2) 32 .nomem
  let hash ← copy b (cur + 260) 32 32
  pure (⟨UInt32.ofNat (netAt type 0 4), path, hash⟩, cur + 292)

/-- One round of `tcf_util_file_protect_policy_extract`. -/
def extractFileProtect (g : Grants) (b : Bytes) (op : ℤ) : Except Fail (FileProtectItem × ℤ) := do
  let header ← read b op 4
  let path ← readText b (op + 4)
  malloc (g op 0) (path.strlen + 1) .nomem
  malloc (g op 1) (netAt header 2 2 * 8) .nomem
  let processes ← decode (extractPrivileged g b) (netAt header 2 2) (op + 260)
  let next := alignInt (int32 (int32 (op + 260) + 292 * netAt header 2 2))
  check (next > b.length) .outputExceed
  pure (⟨(header.getD 1 0).toNat, (header.getD 0 0).toNat, path, netAt header 2 2, processes.1⟩, next)

/-- `tcf_util_file_protect_policy_extract`. -/
def fileProtectExtract (g : Grants) (b : Bytes) (num : ℤ) : Except Fail (List FileProtectItem) := do
  malloc (g (-1) 0) (num * 32) .nomem
  let items ← decode (extractFileProtect g b) num.toNat 0
  pure items.1

/-! ### Ptrace -/

/-- One name: `ops` counts from behind the 16 bytes, and the state also has the entry that is
written next of the `slots` entries. -/
def extractPtraceName (g : Grants) (b : Bytes) (slots : ℕ) (s : ℤ × ℕ) :
    Except (Failure Unit) (CStr × (ℤ × ℕ)) := do
  check (sizeT (s.1 + 4) > b.length) ()
  let header ← read b (16 + s.1) 4
  let nameLength := int32 (netAt header 0 4)
  check (sizeT (s.1 + 4 + alignInt nameLength) > b.length) ()
  needs (s.2 < slots)
  malloc (g (16 + s.1) 0) nameLength ()
  let name ← readText b (16 + s.1 + 4)
  -- `strcpy` does not look at the length of the name
  needs (name.strlen + 1 ≤ nameLength)
  pure (name, int32 (s.1 + 4 + alignInt nameLength), s.2 + 1)

/-- The two loops of `tcf_get_ptrace_protect_policy`. -/
def extractPtraceNames (g : Grants) (b : Bytes) : Except (Failure Unit) PtraceProtect := do
  let header ← read b 0 16
  let slots : ℕ := (netAt header 8 4 + netAt header 12 4) % 2 ^ 32
  malloc (g (-1) 0) (32 + 8 * slots : ℕ) ()
  let ptracers ← decode (extractPtraceName g b slots) (netAt header 8 4) (0, 0)
  let nonTracees ← decode (extractPtraceName g b slots) (netAt header 12 4) ptracers.2
  pure ⟨(UInt32.ofNat (netAt header 4 4)).toInt32, ptracers.1, nonTracees.1⟩

/-- `tcf_get_ptrace_protect_policy`: an error makes it return 0, with nothing filled in. -/
def ptraceExtract (g : Grants) (b : Bytes) : Except Fail (Option PtraceProtect) :=
  match extractPtraceNames g b with
  | .ok policy => .ok (some policy)
  | .error (.error ()) => .ok none
  | .error .fault => .error .fault

/-! ### Process measurement -/

/-- One round of `tcf_get_dmeasure_process_policy`. -/
def extractDmeasure (g : Grants) (b : Bytes) (ops : ℤ) : Except Fail (DmeasureProcess × ℤ) := do
  check (sizeT (ops + 10) ≥ b.length) .nomem
  let item ← read b ops 10
  check (sizeT (ops + 10 + netAt item 8 2) > b.length) .nomem
  malloc (g ops 0) (netAt item 8 2) .nomem
  let objectId ← copy b (ops + 10) (netAt item 8 2) (netAt item 8 2)
  pure (⟨item.getD 0 0, item.getD 1 0, item.getD 2 0, item.getD 3 0, UInt32.ofNat (netAt item 4 4),
    netAt item 8 2, objectId⟩, int32 (ops + align4 (10 + netAt item 8 2)))

/-- `tcf_get_dmeasure_process_policy`. -/
def dmeasureExtract (g : Grants) (b : Bytes) (itemCount : ℤ) : Except Fail (List DmeasureProcess) := do
  malloc (g (-1) 0) (itemCount * 24) .nomem
  let items ← decode (extractDmeasure g b) itemCount.toNat 0
  pure items.1

/-! ### Boot references -/

/-- One round of `tcf_get_boot_measure_references`; the three parts are copied into one area. -/
def extractBootRef (g : Grants) (b : Bytes) (op : ℤ) : Except Fail (BootRef × ℤ) := do
  check (sizeT (op + 12) ≥ b.length) .parameter
  let header ← read b op 12
  let hashTotalLength := int32 (netAt header 0 2 * netAt header 6 2 : ℕ)
  let nameLength := netAt header 4 2
  let extendSize := netAt header 10 2
  let itemSize := int32 (align4 (sizeT (12 + hashTotalLength + nameLength + extendSize)))
  check (int32 (op + itemSize) > b.length) .parameter
  let room := int32 (hashTotalLength + nameLength + extendSize)
  malloc (g op 0) room .nomem
  let hash ← copy b (op + 12) hashTotalLength room
  let extend ← copy b (op + 12 + hashTotalLength) extendSize (room - hashTotalLength)
  let name ← copy b (op + 12 + hashTotalLength + extendSize) nameLength (room - hashTotalLength - extendSize)
  pure ({
    hashLength := netAt header 0 2
    hashNumber := netAt header 6 2
    stage := netAt header 8 2
    isControl := if netAt header 2 2 &&& 2 ≠ 0 then 1 else 0
    isEnable := if netAt header 2 2 &&& 1 ≠ 0 then 1 else 0
    extendSize := extendSize
    hash := hash
    extendBuffer := extend
    name := CStr.ofBytes name }, int32 (op + itemSize))

/-- `tcf_get_boot_measure_references`. -/
def bootRefsExtract (g : Grants) (b : Bytes) (num : ℤ) : Except Fail (List BootRef) := do
  malloc (g (-1) 0) (num * 56) .nomem
  let refs ← decode (extractBootRef g b) num.toNat 0
  pure refs.1

/-! ### What is claimed -/

/-- The decoders of the claim. -/
inductive Decoder
  | ids
  | roles
  | fileProtect
  | ptrace
  | dmeasure
  | bootRefs

/-- Running one of them on a buffer and a number of items; the ptrace policy has its own numbers. -/
def Decoder.run (d : Decoder) (g : Grants) (b : Stored) (num : Int32) : Except Fail Unit :=
  match d with
  | ids => (processIdsExtract g b.data num.toInt) >>= fun _ => pure ()
  | roles => (processRolesExtract g b.data num.toInt) >>= fun _ => pure ()
  | fileProtect => (fileProtectExtract g b.data num.toInt) >>= fun _ => pure ()
  | ptrace => (ptraceExtract g b.data) >>= fun _ => pure ()
  | dmeasure => (dmeasureExtract g b.data num.toInt) >>= fun _ => pure ()
  | bootRefs => (bootRefsExtract g b.data num.toInt) >>= fun _ => pure ()

/-- The fields of an identity. -/
def idHeader (b : Bytes) (op : ℤ) : Bytes := fieldAt b op.toNat 6

/-- What an identity takes, without its padding. -/
def idExtent (b : Bytes) (op : ℤ) : ℕ := 6 + idHashLength (idHeader b op) + idNameLength (idHeader b op)

/-- `be_name_length` and `be_members_number` of a role, and its members' length. -/
def roleName (b : Bytes) (op : ℤ) : ℕ := netAt (fieldAt b op.toNat 12) 0 4

def roleMembersLength (b : Bytes) (op : ℤ) : ℕ := netAt (fieldAt b op.toNat 12) 4 4

def roleMembers (b : Bytes) (op : ℤ) : ℕ := netAt (fieldAt b op.toNat 12) 8 4

/-- The length of a member. -/
def memberLength (b : Bytes) (op memberOpt : ℤ) : ℕ := ((fieldAt b (op + 12 + memberOpt).toNat 1).getD 0 0).toNat

/-- What comes after a member. -/
def memberAfter (b : Bytes) (op memberOpt : ℤ) : ℤ := memberOpt + 1 + memberLength b op memberOpt

/-- What a role takes, without its padding. -/
def roleExtent (b : Bytes) (op : ℤ) : ℤ := 12 + (memberAfter b op)^[roleMembers b op] (roleName b op)

/-- The number of privileged processes, and what an item takes. -/
def fileProcesses (b : Bytes) (op : ℤ) : ℕ := netAt (fieldAt b op.toNat 4) 2 2

def fileExtent (b : Bytes) (op : ℤ) : ℕ := 260 + 292 * fileProcesses b op

/-- The two numbers of the ptrace policy, and the length of a name. -/
def ptracerNumber (b : Bytes) : ℕ := netAt (fieldAt b 0 16) 8 4

def nonTraceeNumber (b : Bytes) : ℕ := netAt (fieldAt b 0 16) 12 4

def ptraceNameLength (b : Bytes) (ops : ℤ) : ℕ := netAt (fieldAt b (16 + ops).toNat 4) 0 4

/-- Where the next name starts. -/
def ptraceAfter (b : Bytes) (ops : ℤ) : ℤ := ops + 4 + align4 (ptraceNameLength b ops)

/-- What a process item takes, without its padding. -/
def dmeasureExtent (b : Bytes) (ops : ℤ) : ℕ := 10 + netAt (fieldAt b ops.toNat 10) 8 2

/-- The length of the hashes of a boot reference, and that of all its data. -/
def bootHashLength (b : Bytes) (op : ℤ) :
    ℕ := netAt (fieldAt b op.toNat 12) 0 2 * netAt (fieldAt b op.toNat 12) 6 2

def bootDataLength (b : Bytes) (op : ℤ) : ℕ :=
  bootHashLength b op + netAt (fieldAt b op.toNat 12) 4 2 + netAt (fieldAt b op.toNat 12) 10 2

/-- **The items fit:** each lies inside the buffer, where the next one starts behind the padding. -/
def Decoder.Fits (d : Decoder) (b : Bytes) (num : ℕ) : Prop :=
  match d with
  | ids => AllFit (fun op => op + idExtent b op ≤ b.length) (fun op => op + align4 (idExtent b op)) num 0
  | roles =>
      AllFit (fun op => op + 12 + roleName b op ≤ b.length ∧
        AllFit (fun memberOpt => op + 12 + memberAfter b op memberOpt ≤ b.length) (memberAfter b op)
          (roleMembers b op) (roleName b op))
        (fun op => op + align4 (roleExtent b op).toNat) num 0
  | fileProtect => AllFit (fun op => op + fileExtent b op ≤ b.length) (fun op => align4 (op + fileExtent b op).toNat) num 0
  | ptrace =>
      16 ≤ b.length ∧
        AllFit (fun ops => 16 + ops + 4 + ptraceNameLength b ops ≤ b.length)
          (ptraceAfter b) (ptracerNumber b + nonTraceeNumber b) 0
  | dmeasure => AllFit (fun ops => ops + dmeasureExtent b ops ≤ b.length) (fun ops => ops + align4 (dmeasureExtent b ops)) num 0
  | bootRefs =>
      AllFit (fun op => op + (12 + bootDataLength b op : ℕ) ≤ b.length)
        (fun op => op + align4 (12 + bootDataLength b op)) num 0

/-- **What a decoder should do,** whatever memory it is granted: no read outside the buffer, no copy
that does not fit, and no success with items that do not fit. -/
structure Decodes (d : Decoder) (b : Stored) (num : Int32) : Prop where
  safe : ∀ g, d.run g b num ≠ .error .fault
  reported : ∀ g, d.run g b num = .ok () → d.Fits b.data num.toInt.toNat

/-! ### The condition -/

/-- Where the next identity starts, as an `int`. -/
def idNext (b : Bytes) (op : ℤ) : ℤ := int32 (op + align4 (idExtent b op))

/-- An identity with its header inside, and which lies inside, or is rejected: it ends more than 6
bytes behind the buffer, and these are an `int`; or the length of its hashes is a negative `int`,
and its name, which is looked for before them, is empty or still inside. -/
def IdSafe (b : Bytes) (op : ℤ) : Prop :=
  (0 ≤ op ∧ op + (6 : ℕ) ≤ b.length) ∧
    (op + idExtent b op ≤ b.length ∨
      b.length < op + idExtent b op - 6 ∧ op + idExtent b op - 6 < 2 ^ 31 ∨
      2 ^ 31 ≤ idHashLength (idHeader b op) ∧
        (idNameLength (idHeader b op) = 0 ∨ 2 ^ 32 ≤ op + 6 + idHashLength (idHeader b op)))

/-- What the tests accept. -/
def IdAccepted (b : Bytes) (op : ℤ) : Prop := op + idExtent b op ≤ b.length ∧ idNext b op ≤ b.length

/-- A member with its length inside, and which lies inside, or ends more than 13 bytes behind the
buffer. -/
def MemberSafe (b : Bytes) (op memberOpt : ℤ) : Prop :=
  (0 ≤ op + 12 + memberOpt ∧ op + 12 + memberOpt + (1 : ℕ) ≤ b.length) ∧
    (op + 12 + memberAfter b op memberOpt ≤ b.length ∨
      b.length < op + memberOpt + memberLength b op memberOpt ∧
        op + memberOpt + memberLength b op memberOpt < 2 ^ 31)

def MemberAccepted (b : Bytes) (op memberOpt : ℤ) : Prop :=
  op + 12 + memberAfter b op memberOpt ≤ b.length ∧
    int32 (memberAfter b op memberOpt) % 2 ^ 32 ≤
      (roleMembersLength b op + roleName b op) % 2 ^ 32

def memberNext (b : Bytes) (op memberOpt : ℤ) : ℤ := int32 (memberAfter b op memberOpt)

/-- Where the next role starts, as an `int`. -/
def roleNext (b : Bytes) (op : ℤ) : ℤ :=
  int32 (op + alignInt (int32 ((memberNext b op)^[roleMembers b op] (roleName b op) + 12)))

/-- A role with its header inside, whose name and members are safe; or whose name ends more than 12
bytes behind the buffer; or for whose name there is no memory, as its length is no `int`. -/
def RoleSafe (b : Bytes) (op : ℤ) : Prop :=
  (0 ≤ op ∧ op + (12 : ℕ) ≤ b.length) ∧
    (op + 12 + roleName b op ≤ b.length ∧ (roleMembers b op < 2 ^ 31 →
        Walks (MemberSafe b op) (MemberAccepted b op) (memberNext b op) (fun _ => True) (roleMembers b op) (roleName b op)) ∨
      b.length < op + roleName b op ∧ op + roleName b op < 2 ^ 31 ∨
      2 ^ 31 - 1 ≤ roleName b op ∧ roleName b op ≠ 2 ^ 32 - 1)

def RoleAccepted (b : Bytes) (op : ℤ) : Prop :=
  op + 12 + roleName b op ≤ b.length ∧ roleMembers b op < 2 ^ 31 ∧
    AllFit (MemberAccepted b op) (memberNext b op) (roleMembers b op) (roleName b op) ∧ roleNext b op ≤ b.length

/-- A privileged process inside the buffer, whose path ends there. -/
def PrivilegedSafe (b : Bytes) (cur : ℤ) : Prop := 0 ≤ cur ∧ cur + 292 ≤ b.length ∧ Ends b (cur + 4)

/-- Where the next item starts, as an `int`. -/
def fileNext (b : Bytes) (op : ℤ) : ℤ := alignInt (int32 (int32 (op + 260) + 292 * fileProcesses b op))

/-- An item with its fields inside, whose path ends in the buffer, and with all its privileged
processes inside. -/
def FileSafe (b : Bytes) (op : ℤ) : Prop :=
  (0 ≤ op ∧ op + (4 : ℕ) ≤ b.length) ∧ Ends b (op + 4) ∧
    AllFit (PrivilegedSafe b) (fun cur => cur + 292) (fileProcesses b op) (op + 260)

/-- Where the next boot reference starts, as an `int`. -/
def bootNext (b : Bytes) (op : ℤ) : ℤ := int32 (op + align4 (12 + bootDataLength b op))

/-- A boot reference that the first test rejects, or with its header inside, and whose hashes or
data are no `int`, which lies inside, or whose end is an `int`, so that it is rejected. -/
def BootSafe (b : Bytes) (op : ℤ) : Prop :=
  b.length ≤ sizeT (op + 12) ∨
    (0 ≤ op ∧ op + 12 < b.length) ∧
      (2 ^ 31 ≤ bootHashLength b op ∨ 2 ^ 31 ≤ bootDataLength b op ∨
        op + (12 + bootDataLength b op : ℕ) ≤ b.length ∨ op + align4 (12 + bootDataLength b op) < 2 ^ 31)

def BootAccepted (b : Bytes) (op : ℤ) : Prop :=
  (0 ≤ op ∧ op + 12 < b.length) ∧ op + (12 + bootDataLength b op : ℕ) ≤ b.length ∧ bootNext b op ≤ b.length

/-- A name of the ptrace policy ends with a zero within its length. -/
def NameEnds (b : Bytes) (ops : ℤ) : Prop :=
  (0 : UInt8) ∈ fieldAt b (16 + ops + 4).toNat (ptraceNameLength b ops)

/-- **The condition:** every item that is reached is safe.  The ptrace policy, where no error is
reported, must fit, with every name ended. -/
def Decoder.Sound (d : Decoder) (b : Bytes) (num : ℤ) : Prop :=
  match d with
  | ids => Walks (IdSafe b) (IdAccepted b) (idNext b) (fun _ => True) num.toNat 0
  -- twice the number of roles is an `int`, or there is no memory
  | roles => num < 2 ^ 30 → Walks (RoleSafe b) (RoleAccepted b) (roleNext b) (fun _ => True) num.toNat 0
  | fileProtect =>
      Walks (fun op => FileSafe b op ∧ (fileNext b op ≤ b.length → op + fileExtent b op ≤ b.length))
        (fun op => fileNext b op ≤ b.length) (fileNext b) (fun _ => True) num.toNat 0
  | ptrace =>
      Decoder.ptrace.Fits b num.toNat ∧
        AllFit (NameEnds b) (ptraceAfter b) (ptracerNumber b + nonTraceeNumber b) 0
  | dmeasure => True
  | bootRefs => Walks (BootSafe b) (BootAccepted b) (bootNext b) (fun _ => True) num.toNat 0

end Extract
end Tcf
end TsbAgent
