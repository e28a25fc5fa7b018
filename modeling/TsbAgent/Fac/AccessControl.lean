/-
# File access control

`tsb/kernel/accessctl/engine/access_control.c`: the decision `access_control` and
the hooks that go through it.

| hook | checks |
| --- | --- |
| `inode_link` | old and new name, `OPERATE_WRITE` |
| `inode_unlink` | the name, `OPERATE_DELETE`, after the hook it replaces |
| `inode_rename` | old name `OPERATE_RENAME`, new name `OPERATE_CREATE` |
| `inode_create`, `inode_mkdir` | the name, `OPERATE_CREATE` |
| `inode_rmdir` | the name, `OPERATE_DELETE` |

The first thing `access_control` does is to ask `is_empty_mac_policy` whether
there is anything to enforce.  That test answers the wrong way round
(`isEmptyMacPolicy_eq_zero`), so every request passes as soon as one policy is
loaded, and the rules are searched only while there is none.  The search behind
the test is right: `accessControlRules_ne_zero`.
-/

import TsbAgent.Fac.ListFac

namespace TsbAgent
namespace Fac

open Libc Chained

/-- The `OPERATE_` masks of `function_types.h` the hooks use. -/
def operateWrite : UInt32 := 0x4

@[inherit_doc operateWrite] def operateRead : UInt32 := 0x8

@[inherit_doc operateWrite] def operateDelete : UInt32 := 0x20

@[inherit_doc operateWrite] def operateCreate : UInt32 := 0x40

@[inherit_doc operateWrite] def operateRename : UInt32 := 0x80

/-- `SUPER_PATH`: `/usr/local/httcsec/`. -/
def superPath : Bytes :=
  [47, 117, 115, 114, 47, 108, 111, 99, 97, 108, 47, 104, 116, 116, 99, 115, 101, 99, 47]

/-- `is_super_process`. -/
def isSuperProcess (fullpath : CStr) : Bool :=
  strncmp superPath.length fullpath.bytes superPath = 0

/-- What the hooks read of an inode. -/
structure Inode where
  specialFile : Bool
  isDir : Bool
  /-- `i_sb->s_type->name`, none when a pointer on the way is null. -/
  fsType : Option CStr

/-- What the hooks read of a dentry; `fullpath` is `vfs_get_fullpath`. -/
structure Dentry where
  inode : Option Inode
  fullpath : Option CStr

/-- `pipefs`, `sockfs`, `anon_inodefs`, `inotifyfs`. -/
def specialTypes : List Bytes :=
  [[112, 105, 112, 101, 102, 115], [115, 111, 99, 107, 102, 115],
    [97, 110, 111, 110, 95, 105, 110, 111, 100, 101, 102, 115],
    [105, 110, 111, 116, 105, 102, 121, 102, 115]]

/-- `special_type_filter`. -/
def specialTypeFilter (i : Inode) : Bool :=
  i.specialFile || match i.fsType with
    | none => false
    | some t => specialTypes.any fun n => strcmp t.bytes n = 0

/-- `dentry_filter`. -/
def dentryFilter (d : Dentry) : Bool :=
  match d.inode with
  | none => true
  | some i => specialTypeFilter i

/-- The caller of a hook: whether `kzalloc` succeeds for it, and its program. -/
structure Task where
  kzalloc : Bool
  taskpath : Option CStr

/-- The state of the module. -/
structure State where
  listPolicyFac : List MacPolicy
  whitelistPathHashtable : Table UInt32 CStr
  whitelistPathHashRandom : UInt32
  facSwitch : Bool
  /-- `global_old_hook->inode_unlink`, if there is one. -/
  oldInodeUnlink : Option (Dentry → ℤ)

section Decision

variable (jhash : Jhash) (k : Kernel) (st : State) (t : Task)

/-- The object is a directory, and the operation a renaming. -/
def renamesDir (d : Dentry) (mask : UInt32) : Bool :=
  mask &&& operateRename ≠ 0 && (match d.inode with | some i => i.isDir | none => false)

/-- The end of `access_control`: the path whitelist, then the rules. -/
def accessControlRules (d : Dentry) (mask : UInt32) (s : SecDomain) : ℤ :=
  if queryWhitelistPath jhash st.whitelistPathHashRandom st.whitelistPathHashtable s = 0 then -eacces
  else
    let ret := queryFacPolicyState k s st.listPolicyFac
    if ret = 0 ∧ renamesDir d mask = true then queryDirSegmentFacPolicyState k s st.listPolicyFac
    else ret

/-- `access_control`. -/
def accessControl (d : Dentry) (mask : UInt32) : ℤ :=
  if isEmptyMacPolicy st.listPolicyFac = 0 then 0
  else if t.kzalloc = false then 0
  else
    match t.taskpath with
    | none => 0
    | some taskpath =>
        if isSuperProcess taskpath then 0
        else
          match d.fullpath with
          | none => 0
          | some filename =>
              accessControlRules jhash k st d mask ⟨secName taskpath, secName filename, Digest.zero⟩

/-- `httc_verify_permission`. -/
def httcVerifyPermission (d : Dentry) (mask : UInt32) : ℤ :=
  if accessControl jhash k st t d mask ≠ 0 then -eacces else 0

/-- `httc_dentry_permission`: reading is not checked. -/
def httcDentryPermission (d : Dentry) (mask : UInt32) : ℤ :=
  if mask &&& operateRead ≠ 0 then 0
  else if mask &&& operateCreate = 0 ∧ dentryFilter d = true then 0
  else httcVerifyPermission jhash k st t d mask

/-- A file operation that `access_control` decides. -/
inductive Hook
  | link (oldDentry newDentry : Dentry)
  | unlink (dentry : Dentry)
  | rename (oldDentry newDentry : Dentry)
  | create (dentry : Dentry)
  | rmdir (dentry : Dentry)
  | mkdir (dentry : Dentry)

/-- Two checks, the second only when the first passes. -/
def bothPermissions (d₁ : Dentry) (m₁ : UInt32) (d₂ : Dentry) (m₂ : UInt32) : ℤ :=
  let ret := httcDentryPermission jhash k st t d₁ m₁
  if ret = 0 then httcDentryPermission jhash k st t d₂ m₂ else ret

/-- `smeasure_inode_link`, `smeasure_inode_unlink`, `smeasure_inode_rename`,
`smeasure_inode_create`, `smeasure_inode_rmdir` and `smeasure_inode_mkdir`. -/
def smeasureInode (h : Hook) : ℤ :=
  if st.facSwitch = false then 0
  else
    match h with
    | .link old new => bothPermissions jhash k st t old operateWrite new operateWrite
    | .unlink d =>
        match st.oldInodeUnlink with
        | none => httcDentryPermission jhash k st t d operateDelete
        | some f => if f d ≠ 0 then f d else httcDentryPermission jhash k st t d operateDelete
    | .rename old new => bothPermissions jhash k st t old operateRename new operateCreate
    | .create d => httcDentryPermission jhash k st t d operateCreate
    | .rmdir d => httcDentryPermission jhash k st t d operateDelete
    | .mkdir d => httcDentryPermission jhash k st t d operateCreate

end Decision

/-- The request is one the policy must deny: the caller's program is known, is
no super process and has a hash, the object has a name, and an item of the
policy matches that name without privileging the program. -/
def MustDeny (k : Kernel) (st : State) (t : Task) (d : Dentry) : Prop :=
  t.kzalloc = true ∧ ∃ taskpath filename hash, t.taskpath = some taskpath ∧
    d.fullpath = some filename ∧ isSuperProcess taskpath = false ∧
    k.calcSubHash (secName taskpath) = some hash ∧
    ∃ m ∈ st.listPolicyFac, k.regexec m.objName (secName filename) = true ∧
      ¬ Privileges k m ⟨secName taskpath, secName filename, hash⟩

/-- What access control promises of a policy list: the test in front of the
rules passes a request exactly for the empty list, a filled list denies what it
must, and an empty one denies nothing. -/
structure Enforced (jhash : Jhash) (l : List MacPolicy) : Prop where
  shortCircuit : isEmptyMacPolicy l = 0 ↔ l = []
  denies : l ≠ [] → ∀ k st t d mask, st.listPolicyFac = l → MustDeny k st t d →
    accessControl jhash k st t d mask ≠ 0
  passes : l = [] → ∀ k st t d mask, st.listPolicyFac = l → accessControl jhash k st t d mask = 0

section Theorems

variable {jhash : Jhash} {k : Kernel} {st : State} {t : Task}

/-- A filled policy list: no request gets past the test. -/
theorem accessControl_of_ne_nil (hl : st.listPolicyFac ≠ []) (d : Dentry) (mask : UInt32) :
    accessControl jhash k st t d mask = 0 := by
  rw [accessControl, if_pos (isEmptyMacPolicy_eq_zero.mpr hl)]

theorem httcDentryPermission_of_ne_nil (hl : st.listPolicyFac ≠ []) (d : Dentry) (mask : UInt32) :
    httcDentryPermission jhash k st t d mask = 0 := by
  have hv : httcVerifyPermission jhash k st t d mask = 0 := by
    rw [httcVerifyPermission, accessControl_of_ne_nil hl, if_neg (by simp)]
  rw [httcDentryPermission, hv]
  split_ifs <;> rfl

/-- A filled policy list: every hook passes what the hook before it passes. -/
theorem smeasureInode_of_ne_nil (hl : st.listPolicyFac ≠ []) (h : Hook)
    (hold : ∀ f d, st.oldInodeUnlink = some f → h = .unlink d → f d = 0) :
    smeasureInode jhash k st t h = 0 := by
  have hboth : ∀ d₁ m₁ d₂ m₂, bothPermissions jhash k st t d₁ m₁ d₂ m₂ = 0 := by
    intro d₁ m₁ d₂ m₂
    rw [bothPermissions, httcDentryPermission_of_ne_nil hl, httcDentryPermission_of_ne_nil hl]
    rfl
  unfold smeasureInode
  split_ifs with hs
  · rfl
  · cases h with
    | link old new => exact hboth ..
    | rename old new => exact hboth ..
    | create d => exact httcDentryPermission_of_ne_nil hl d _
    | rmdir d => exact httcDentryPermission_of_ne_nil hl d _
    | mkdir d => exact httcDentryPermission_of_ne_nil hl d _
    | unlink d =>
        cases ho : st.oldInodeUnlink with
        | none => simp [httcDentryPermission_of_ne_nil hl]
        | some f => simp [hold f d ho rfl, httcDentryPermission_of_ne_nil hl]

/-- An empty policy list: a request is denied when, and only when, it reaches
the path whitelist and the object is on it. -/
theorem accessControl_of_nil (hl : st.listPolicyFac = []) (d : Dentry) (mask : UInt32) :
    accessControl jhash k st t d mask ≠ 0 ↔
      t.kzalloc = true ∧ ∃ taskpath filename, t.taskpath = some taskpath ∧
        d.fullpath = some filename ∧ isSuperProcess taskpath = false ∧
        queryWhitelistPath jhash st.whitelistPathHashRandom st.whitelistPathHashtable
          ⟨secName taskpath, secName filename, Digest.zero⟩ = 0 := by
  have hempty : ¬ isEmptyMacPolicy st.listPolicyFac = 0 := by simp [isEmptyMacPolicy_eq_zero, hl]
  have hrules : ∀ s, accessControlRules jhash k st d mask s ≠ 0 ↔
      queryWhitelistPath jhash st.whitelistPathHashRandom st.whitelistPathHashtable s = 0 := by
    intro s
    unfold accessControlRules
    rw [hl]
    split_ifs with hw
    · exact iff_of_true (show (-13 : ℤ) ≠ 0 by omega) hw
    · simp [queryFacPolicyState, queryDirSegmentFacPolicyState, hw]
  rw [accessControl, if_neg hempty]
  cases hk : t.kzalloc with
  | false => simp
  | true =>
      rw [if_neg (by simp)]
      cases ht : t.taskpath with
      | none => simp
      | some taskpath =>
          cases hs : isSuperProcess taskpath with
          | true =>
              refine iff_of_false (fun h => h (if_pos hs)) ?_
              rintro ⟨-, p, f, hp, -, hns, -⟩
              rw [← Option.some.inj hp, hs] at hns
              exact Bool.noConfusion hns
          | false =>
              cases hf : d.fullpath with
              | none => simp
              | some filename =>
                  simp only [hs, Bool.false_eq_true, if_false, hrules]
                  constructor
                  · exact fun hw => ⟨trivial, taskpath, filename, rfl, rfl, hs, hw⟩
                  · rintro ⟨-, p, f, hp, hf', -, hw⟩
                    rw [Option.some.inj hp, Option.some.inj hf']
                    exact hw

end Theorems

/-- **Access control never does what it promises.**  For every policy list the
promise fails: the test in front of the rules answers the wrong way round.  With
a filled list every request to `access_control` passes, and every hook passes
what the hook it replaces passes; with an empty list a request is denied exactly
when it reaches the path whitelist and the object is on it. -/
theorem access_control_never_enforced (jhash : Jhash) (l : List MacPolicy) :
    ¬ Enforced jhash l ∧
    (l ≠ [] → ∀ k st t, st.listPolicyFac = l →
      (∀ d mask, accessControl jhash k st t d mask = 0) ∧
      ∀ h, (∀ f d, st.oldInodeUnlink = some f → h = .unlink d → f d = 0) →
        smeasureInode jhash k st t h = 0) ∧
    (l = [] → ∀ k st t d mask, st.listPolicyFac = l → (accessControl jhash k st t d mask ≠ 0 ↔
      t.kzalloc = true ∧ ∃ taskpath filename, t.taskpath = some taskpath ∧
        d.fullpath = some filename ∧ isSuperProcess taskpath = false ∧
        queryWhitelistPath jhash st.whitelistPathHashRandom st.whitelistPathHashtable
          ⟨secName taskpath, secName filename, Digest.zero⟩ = 0)) := by
  refine ⟨fun h => ?_, fun hl k st t hst => ⟨fun d mask => ?_, fun h hold => ?_⟩,
    fun hl k st t d mask hst => accessControl_of_nil (hst.trans hl) d mask⟩
  · have hiff := isEmptyMacPolicy_eq_zero.symm.trans h.shortCircuit
    by_cases hl : l = []
    · exact hiff.mpr hl hl
    · exact hl (hiff.mp hl)
  · exact accessControl_of_ne_nil (hst ▸ hl) d mask
  · exact smeasureInode_of_ne_nil (hst ▸ hl) h hold

/-- **A protected file is deleted.**  One policy item protects every path
against writing and privileges nobody; `/bin/rm` unlinks `/etc/shadow`: the
request must be denied, and it passes. -/
theorem access_control_passes_protected_file :
    ∃ (jhash : Jhash) (k : Kernel) (st : State) (t : Task) (d : Dentry),
      st.listPolicyFac ≠ [] ∧ MustDeny k st t d ∧
        accessControl jhash k st t d operateDelete = 0 ∧ smeasureInode jhash k st t (.unlink d) = 0 := by
  let rm : CStr := ⟨[47, 98, 105, 110, 47, 114, 109], by decide⟩
  let shadow : CStr := ⟨[47, 101, 116, 99, 47, 115, 104, 97, 100, 111, 119], by decide⟩
  let m : MacPolicy := ⟨0, 0, 0, shadow, []⟩
  let k : Kernel := ⟨fun _ _ => true, fun _ => some Digest.zero, 0, fun _ => 0⟩
  let st : State := ⟨[m], Table.empty, 0, true, none⟩
  have hl : st.listPolicyFac ≠ [] := List.cons_ne_nil _ _
  refine ⟨fun _ _ => 0, k, st, ⟨true, some rm⟩, ⟨some ⟨false, false, none⟩, some shadow⟩, hl, ?_,
    accessControl_of_ne_nil hl _ _, smeasureInode_of_ne_nil hl _ fun f d hf => ?_⟩
  · refine ⟨rfl, rm, shadow, Digest.zero, rfl, rfl, by decide, rfl, m, List.mem_singleton.mpr rfl,
      rfl, fun hp => ?_⟩
    exact absurd hp.1 (by decide)
  · exact absurd hf (by simp [st])

end Fac
end TsbAgent
