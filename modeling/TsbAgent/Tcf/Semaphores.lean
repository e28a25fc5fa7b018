/-
# Who takes a semaphore, and gives it back

The functions of `tss-main/tcf/src/tcf_file_integrity.c`, `tss-main/tcf/src/tcf_attest.c` and
`tss-main/tcs/tcsapi/tcsu/tcs_store.c` that take a semaphore of `httcutils/src/sem.c`.  None of them calls
another one while it holds a semaphore.  For each function there is a record of all that can fail
inside it, and the function says what it returns and what it did to its semaphore on the way.

| function | left without the release | released after a get that failed |
| --- | --- | --- |
| `tcf_update_critical_file_integrity` | the path cannot be created | |
| `tcf_get_policies_version` | a minor version cannot be found | |
| `tcf_get_one_policy_version` | the minor version cannot be found | |
| `tcs_utils_get_nv_info` | | always: `goto out` |
| `tcs_read_nv_list` | the file cannot be opened | always: `goto out` |

`semaphores_balanced_iff` says that these are all: the calls of all processes are balanced exactly when
none of them goes one of these ways, and then each semaphore is free whenever no call is in progress.
-/

import TsbAgent.Lib.Semaphore
import TsbAgent.Tcf.Basic

namespace TsbAgent
namespace Tcf
namespace Sem

open Run Semaphore Tcs

/-- `TCF_SEM_INDEX_POLICY`, `TCF_SEM_INDEX_INTEGRITY` and `TCS_SEM_INDEX_NV`. -/
inductive Index
  | policy
  | integrity
  | nv
deriving DecidableEq

/-- How a function was left: its return value, `none` for success, and its operations. -/
structure Exit (ε : Type*) where
  ret : Option ε
  ops : List (Op Index)

section Exits

variable {ε : Type*}

/-- `return`. -/
def leave (ret : Option ε) : Exit ε := ⟨ret, []⟩

/-- The release, and then `return`. -/
def releaseAnd (i : Index) (ret : Option ε) : Exit ε := ⟨ret, [.release i]⟩

/-- `if ((r = sem_get (i))) return r;` and what follows. -/
def getOr (i : Index) (sem : Option ε) (rest : Exit ε) : Exit ε :=
  match sem with
  | some r => ⟨some r, [.get i false]⟩
  | none => ⟨rest.ret, .get i true :: rest.ops⟩

/-- `if ((r = sem_get (i))) goto out;` and what follows; `out` releases. -/
def getOrOut (i : Index) (sem : Option ε) (rest : Exit ε) : Exit ε :=
  match sem with
  | some r => ⟨some r, [.get i false, .release i]⟩
  | none => ⟨rest.ret, .get i true :: rest.ops⟩

end Exits

/-! ### File integrity -/

/-- `tcf_get_file_integrity`. -/
structure GetFileIntegrity where
  sem : Option TcfErr
  buildIntegrityData : Option TcfErr
  fileIntegrityValid : ℕ
  start : ℕ
  inoutNum : ℕ
  calloc : Bool
  iterator : Option TcfErr

def tcfGetFileIntegrity (e : GetFileIntegrity) : Exit TcfErr :=
  getOr .integrity e.sem <|
    if e.buildIntegrityData.isSome then releaseAnd .integrity e.buildIntegrityData
    else if e.fileIntegrityValid < e.start then releaseAnd .integrity none
    else if min e.inoutNum (e.fileIntegrityValid - e.start) = 0 then releaseAnd .integrity none
    else if e.calloc = false then releaseAnd .integrity (some .nomem)
    else releaseAnd .integrity e.iterator

/-- `be_action`. -/
inductive Action
  | set
  | add
  | delete
  | other
deriving DecidableEq

/-- `tcf_update_file_integrity`; `update` is the answer of `file_integrity_set`, `_add` or `_del`. -/
structure UpdateFileIntegrity where
  sem : Option TcfErr
  checkVersion : Option TcfErr
  action : Action
  number : ℕ
  update : Option TcfErr
  localRefLength : ℕ
  updateVersion : Option TcfErr

/-- The length is unsigned, so the three tests whether it is negative do nothing. -/
def tcfUpdateFileIntegrity (e : UpdateFileIntegrity) : Exit TcfErr :=
  getOr .integrity e.sem <|
    if e.checkVersion.isSome then releaseAnd .integrity e.checkVersion
    else if e.action = .other ∨ (e.action = .delete ∧ e.number = 0) then releaseAnd .integrity (some .parameter)
    else if e.update.isSome then releaseAnd .integrity e.update
    else if e.localRefLength ≠ 0 ∧ e.updateVersion.isSome then releaseAnd .integrity e.updateVersion
    else releaseAnd .integrity none

/-- `tcf_get_file_integrity_valid_number` and `tcf_get_file_integrity_total_number`. -/
structure GetNumber where
  sem : Option TcfErr
  buildIntegrityData : Option TcfErr

def tcfGetFileIntegrityNumber (e : GetNumber) : Exit TcfErr :=
  getOr .integrity e.sem (releaseAnd .integrity e.buildIntegrityData)

/-- `tcf_get_file_integrity_modify_number_limit`, where an error of `build_integrity_data` is lost. -/
def tcfGetFileIntegrityModifyNumberLimit (isInterceptMeasureSupported : Bool) (tcs : Option TcfErr)
    (e : GetNumber) :
    Exit TcfErr :=
  if isInterceptMeasureSupported then leave tcs else getOr .integrity e.sem (releaseAnd .integrity none)

/-- `tcf_get_synchronized_file_integrity`. -/
structure GetSynchronized where
  sem : Option TcfErr
  number : Except TcfErr ℕ
  malloc : Bool
  opendir : Bool

def tcfGetSynchronizedFileIntegrity (e : GetSynchronized) : Exit TcfErr :=
  getOr .integrity e.sem <|
    match e.number with
    | .error r => releaseAnd .integrity (some r)
    | .ok number =>
        if number = 0 then releaseAnd .integrity none
        else if e.malloc = false then releaseAnd .integrity (some .nomem)
        else if e.opendir = false then releaseAnd .integrity (some .parameter)
        else releaseAnd .integrity none

/-! ### Critical file integrity -/

/-- `tcf_update_critical_file_integrity`. -/
structure UpdateCritical where
  references : Bool
  sem : Option TcfErr
  tcsUpdate : Option TcfErr
  createPath : Bool
  writeNumber : Bool
  writeData : Bool

def tcfUpdateCriticalFileIntegrity (e : UpdateCritical) : Exit TcfErr :=
  if e.references = false then leave (some .parameter)
  else
    getOr .policy e.sem <|
      if e.tcsUpdate.isSome then releaseAnd .policy e.tcsUpdate
      -- no release
      else if e.createPath = false then leave (some .file)
      else if e.writeNumber = false then releaseAnd .policy (some .file)
      else if e.writeData = false then releaseAnd .policy (some .file)
      else releaseAnd .policy none

/-- `tcf_get_critical_file_integrity`; `items` is what its loop returns, after the release. -/
structure GetCritical where
  sem : Option TcfErr
  access : Bool
  readFull : Bool
  items : Option TcfErr

def tcfGetCriticalFileIntegrity (e : GetCritical) : Exit TcfErr :=
  getOr .policy e.sem <|
    if e.access = false then releaseAnd .policy none
    else if e.readFull = false then releaseAnd .policy (some .file)
    else releaseAnd .policy e.items

/-! ### Attestation -/

/-- The files with a version. -/
inductive VersionFile
  | log
  | notice
  | udisk
  | cdrom
  | file
  | network
deriving DecidableEq

/-- A version file is there, and whether it has 8 bytes; or it is not there. -/
abbrev VersionFiles := VersionFile → Option Bool

/-- A version of the TPCM: whether it is for the file integrity, or the type that is asked for, and what
`httc_get_file_integrity_subver` answers. -/
structure PolicyVersion where
  concerned : Bool
  subver : Option TcfErr

/-- The first minor version that cannot be found. -/
def firstSubver : List PolicyVersion → Option TcfErr
  | [] => none
  | v :: vs => if v.concerned ∧ v.subver.isSome then v.subver else firstSubver vs

/-- `tcf_get_policies_version`. -/
structure GetPoliciesVersion where
  arguments : Bool
  tcsVersions : Except TcfErr (List PolicyVersion)
  numInout : ℕ
  sem : Option TcfErr
  files : VersionFiles

/-- `TCF_EXPAND_VERSION`. -/
def tcfExpandVersion : ℕ := 6

def tcfGetPoliciesVersion (e : GetPoliciesVersion) : Exit TcfErr :=
  if e.arguments = false then leave (some .parameter)
  else
    match e.tcsVersions with
    | .error r => leave (some r)
    | .ok versions =>
        if versions.length + tcfExpandVersion > e.numInout then leave (some .outputExceed)
        else
          getOr .policy e.sem <|
            match firstSubver versions with
            -- no release
            | some r => leave (some r)
            | none =>
                if [VersionFile.log, .notice, .udisk, .cdrom, .file, .network].any fun f => e.files f = some false then
                  releaseAnd .policy (some .file)
                else releaseAnd .policy none

/-- `tcf_get_one_policy_version`; `versionFile` is the file for the type, if it has one. -/
structure GetOnePolicyVersion where
  typeValid : Bool
  sem : Option TcfErr
  versionFile : Option VersionFile
  files : VersionFiles
  tcsVersions : Except TcfErr (List PolicyVersion)

def tcfGetOnePolicyVersion (e : GetOnePolicyVersion) : Exit TcfErr :=
  if e.typeValid = false then leave (some .parameter)
  else
    getOr .policy e.sem <|
      match e.versionFile with
      | some f => if e.files f = some false then releaseAnd .policy (some .file) else releaseAnd .policy none
      | none =>
          match e.tcsVersions with
          | .error r => releaseAnd .policy (some r)
          | .ok versions =>
              match firstSubver versions with
              -- no release
              | some r => leave (some r)
              | none => releaseAnd .policy none

/-! ### The NV store -/

/-- What can fail on the way from the file to its bytes, as each of the functions reads it. -/
structure ReadFile where
  fopen : Bool
  length : ℕ
  malloc : Bool
  fread : Bool

/-- `tcs_utils_get_nv_info`; `search` is what its loop returns. -/
structure GetNvInfo where
  sem : Option TssErr
  file : ReadFile
  search : Option TssErr

def tcsUtilsGetNvInfo (e : GetNvInfo) : Exit TssErr :=
  getOrOut .nv e.sem <|
    if e.file.fopen = false then releaseAnd .nv (some .file)
    else if e.file.length = 0 then releaseAnd .nv (some .file)
    else if e.file.malloc = false then releaseAnd .nv (some .nomem)
    else if e.file.fread = false then releaseAnd .nv (some .write)
    else releaseAnd .nv e.search

/-- `tcs_utils_nv_info_list_delete`; `found` is `check`. -/
structure ListDelete where
  sem : Option TssErr
  file : ReadFile
  found : Bool
  mallocNew : Bool
  fopenNew : Bool
  fwrite : Bool

def tcsUtilsNvInfoListDelete (e : ListDelete) : Exit TssErr :=
  getOr .nv e.sem <|
    if e.file.fopen = false then releaseAnd .nv (some .file)
    else if e.file.length = 0 then releaseAnd .nv none
    else if e.file.malloc = false then releaseAnd .nv (some .nomem)
    else if e.file.fread = false then releaseAnd .nv (some .write)
    else if e.found then
      if e.mallocNew = false then releaseAnd .nv (some .nomem)
      else if e.fopenNew = false then releaseAnd .nv (some .file)
      else if e.fwrite = false then releaseAnd .nv (some .write)
      else releaseAnd .nv none
    else releaseAnd .nv none

/-- `tcs_utils_nv_info_list_add`. -/
structure ListAdd where
  sem : Option TssErr
  fopen : Bool
  fwrite : Bool

def tcsUtilsNvInfoListAdd (e : ListAdd) : Exit TssErr :=
  getOr .nv e.sem <|
    if e.fopen = false then releaseAnd .nv (some .file)
    else if e.fwrite = false then releaseAnd .nv (some .write)
    else releaseAnd .nv none

/-- `tcs_read_nv_list`. -/
structure ReadNvList where
  arguments : Bool
  sem : Option TssErr
  file : ReadFile
  mallocInfos : Bool

def tcsReadNvList (e : ReadNvList) : Exit TssErr :=
  if e.arguments = false then leave (some .parameter)
  else
    getOrOut .nv e.sem <|
      -- no release
      if e.file.fopen = false then leave (some .file)
      else if e.file.malloc = false then releaseAnd .nv (some .nomem)
      else if e.file.fread = false then releaseAnd .nv (some .write)
      else if e.mallocInfos = false then releaseAnd .nv (some .nomem)
      else releaseAnd .nv none

/-- The loop of `tcs_set_nv_list`: for each entry, the conversion and the addition. -/
def setNvList : List (Option TssErr × ListAdd) → Exit TssErr
  | [] => leave none
  | (convert, add) :: entries =>
      if convert.isSome then leave convert
      else
        let x := tcsUtilsNvInfoListAdd add
        if x.ret.isSome then x
        else ⟨(setNvList entries).ret, x.ops ++ (setNvList entries).ops⟩

/-- `tcs_set_nv_list`. -/
def tcsSetNvList (arguments : Bool) (entries : List (Option TssErr × ListAdd)) : Exit TssErr :=
  if arguments = false then leave (some .parameter) else setNvList entries

/-! ### Calls -/

/-- A call of one of the functions, with everything that fails inside. -/
inductive Call
  | getFileIntegrity (e : GetFileIntegrity)
  | updateFileIntegrity (e : UpdateFileIntegrity)
  | getFileIntegrityNumber (e : GetNumber)
  | getFileIntegrityModifyNumberLimit (supported : Bool) (tcs : Option TcfErr) (e : GetNumber)
  | getSynchronizedFileIntegrity (e : GetSynchronized)
  | updateCriticalFileIntegrity (e : UpdateCritical)
  | getCriticalFileIntegrity (e : GetCritical)
  | getPoliciesVersion (e : GetPoliciesVersion)
  | getOnePolicyVersion (e : GetOnePolicyVersion)
  | getNvInfo (e : GetNvInfo)
  | nvInfoListDelete (e : ListDelete)
  | nvInfoListAdd (e : ListAdd)
  | readNvList (e : ReadNvList)
  | setNvList (arguments : Bool) (entries : List (Option TssErr × ListAdd))

/-- What a call does to the semaphores. -/
def Call.ops : Call → List (Op Index)
  | getFileIntegrity e => (tcfGetFileIntegrity e).ops
  | updateFileIntegrity e => (tcfUpdateFileIntegrity e).ops
  | getFileIntegrityNumber e => (tcfGetFileIntegrityNumber e).ops
  | getFileIntegrityModifyNumberLimit supported tcs e => (tcfGetFileIntegrityModifyNumberLimit supported tcs e).ops
  | getSynchronizedFileIntegrity e => (tcfGetSynchronizedFileIntegrity e).ops
  | updateCriticalFileIntegrity e => (tcfUpdateCriticalFileIntegrity e).ops
  | getCriticalFileIntegrity e => (tcfGetCriticalFileIntegrity e).ops
  | getPoliciesVersion e => (tcfGetPoliciesVersion e).ops
  | getOnePolicyVersion e => (tcfGetOnePolicyVersion e).ops
  | getNvInfo e => (tcsUtilsGetNvInfo e).ops
  | nvInfoListDelete e => (tcsUtilsNvInfoListDelete e).ops
  | nvInfoListAdd e => (tcsUtilsNvInfoListAdd e).ops
  | readNvList e => (tcsReadNvList e).ops
  | setNvList arguments entries => (tcsSetNvList arguments entries).ops

/-- All minor versions that are asked for can be found. -/
def SubversFound (versions : List PolicyVersion) : Prop := ∀ v ∈ versions, v.concerned → v.subver = none

/-- **The condition** on what fails inside a call. -/
def Call.Ok : Call → Prop
  | updateCriticalFileIntegrity e => e.references → e.sem = none → e.tcsUpdate = none → e.createPath
  | getPoliciesVersion e => ∀ versions, e.arguments → e.tcsVersions = .ok versions →
      versions.length + tcfExpandVersion ≤ e.numInout → e.sem = none → SubversFound versions
  | getOnePolicyVersion e => ∀ versions, e.typeValid → e.sem = none → e.versionFile = none →
      e.tcsVersions = .ok versions → SubversFound versions
  | getNvInfo e => e.sem = none
  | readNvList e => e.arguments → e.sem = none ∧ e.file.fopen
  | _ => True

/-! ### Balanced calls -/

section Balance

variable {ε : Type*} {i : Index} {sem : Option ε} {rest : Exit ε}

theorem balanced_failed (i : Index) : Balanced [Op.get i false] := by
  refine balanced_iff_hold.mpr fun j => ?_
  simp [run, hold]

theorem balanced_released (i : Index) : Balanced [Op.get i true, .release i] := by
  refine balanced_iff_hold.mpr fun j => ?_
  by_cases h : i = j <;> simp [run, hold, h]

theorem not_balanced_kept (i : Index) : ¬ Balanced [Op.get i true] := fun h =>
  absurd (h.count i) (by simp)

theorem not_balanced_failed_release (i : Index) : ¬ Balanced [Op.get i false, .release i] := fun h =>
  absurd (h.count i) (by simp)

/-- A function that returns the error of the get and then always releases. -/
theorem balanced_getOr (h : rest.ops = [.release i]) : Balanced (getOr i sem rest).ops := by
  cases sem with
  | some r => exact balanced_failed i
  | none =>
      show Balanced (_ :: rest.ops)
      rw [h]
      exact balanced_released i

/-- One that may forget the release. -/
theorem balanced_getOr_iff {ok : Prop} (hrel : ok → rest.ops = [.release i]) (hnot : ¬ ok → rest.ops = []) :
    Balanced (getOr i sem rest).ops ↔ (sem = none → ok) := by
  cases sem with
  | some r => exact iff_of_true (balanced_failed i) (fun h => absurd h (by simp))
  | none =>
      show Balanced (_ :: rest.ops) ↔ _
      by_cases h : ok
      · rw [hrel h]
        exact iff_of_true (balanced_released i) fun _ => h
      · rw [hnot h]
        exact iff_of_false (not_balanced_kept i) fun hall => h (hall rfl)

/-- One that goes to the release from a get that failed. -/
theorem balanced_getOrOut_iff {ok : Prop} (hrel : ok → rest.ops = [.release i]) (hnot : ¬ ok → rest.ops = []) :
    Balanced (getOrOut i sem rest).ops ↔ sem = none ∧ ok := by
  cases sem with
  | some r => exact iff_of_false (not_balanced_failed_release i) (fun h => absurd h.1 (by simp))
  | none =>
      show Balanced (_ :: rest.ops) ↔ _
      by_cases h : ok
      · rw [hrel h]
        exact iff_of_true (balanced_released i) ⟨rfl, h⟩
      · rw [hnot h]
        exact iff_of_false (not_balanced_kept i) fun hall => h hall.2

/-- Both ways release. -/
theorem releases_ite {c : Prop} [Decidable c] {other : Exit ε} (h : rest.ops = [.release i])
    (hother : other.ops = [.release i]) : (if c then rest else other).ops = [.release i] := by
  by_cases hc : c
  · rw [if_pos hc, h]
  · rw [if_neg hc, hother]

theorem balanced_leave (ret : Option ε) : Balanced (leave ret).ops := balanced_nil

theorem firstSubver_eq_none_iff {versions : List PolicyVersion} :
    firstSubver versions = none ↔ SubversFound versions := by
  induction versions with
  | nil => simp [firstSubver, SubversFound]
  | cons v vs ih =>
      unfold SubversFound at ih ⊢
      rw [firstSubver, List.forall_mem_cons]
      by_cases h : v.concerned = true ∧ v.subver.isSome = true
      · rw [if_pos h]
        have hsome := Option.isSome_iff_ne_none.mp h.2
        simp [h.1, hsome]
      · rw [if_neg h, ih]
        have hv : v.concerned = true → v.subver = none := by
          intro hc
          by_contra hne
          exact h ⟨hc, Option.isSome_iff_ne_none.mpr hne⟩
        exact (and_iff_right hv).symm

theorem balanced_listAdd (e : ListAdd) : Balanced (tcsUtilsNvInfoListAdd e).ops := by
  refine balanced_getOr ?_
  split_ifs <;> rfl

theorem balanced_setNvList (entries : List (Option TssErr × ListAdd)) : Balanced (setNvList entries).ops := by
  induction entries with
  | nil => exact balanced_leave _
  | cons entry entries ih =>
      obtain ⟨convert, add⟩ := entry
      rw [setNvList]
      split_ifs with hconvert
      · exact balanced_leave _
      · dsimp only
        split_ifs
        · exact balanced_listAdd add
        · exact (balanced_listAdd add).append ih

theorem balanced_updateCritical_iff (e : UpdateCritical) :
    Balanced (tcfUpdateCriticalFileIntegrity e).ops ↔ (Call.updateCriticalFileIntegrity e).Ok := by
  unfold tcfUpdateCriticalFileIntegrity Call.Ok
  by_cases href : e.references = false
  · rw [if_pos href]
    exact iff_of_true (balanced_leave _) fun h => absurd (href.symm.trans h) (by decide)
  · rw [if_neg href, @balanced_getOr_iff _ .policy e.sem _ (e.tcsUpdate = none → e.createPath = true)]
    · exact ⟨fun h _ => h, fun h => h (by simpa using href)⟩
    · intro hok
      split_ifs with htcs hpath
      · rfl
      · exact absurd (hpath.symm.trans (hok (by simpa using htcs))) (by decide)
      · rfl
      · rfl
      · rfl
    · intro hnot
      obtain ⟨htcs, hpath⟩ := Classical.not_imp.mp hnot
      rw [htcs, if_neg (by decide), if_pos (by simpa using hpath)]
      rfl

theorem balanced_getPoliciesVersion_iff (e : GetPoliciesVersion) :
    Balanced (tcfGetPoliciesVersion e).ops ↔ (Call.getPoliciesVersion e).Ok := by
  unfold tcfGetPoliciesVersion Call.Ok
  by_cases harg : e.arguments = false
  · rw [if_pos harg]
    exact iff_of_true (balanced_leave _) fun _ h => absurd (harg.symm.trans h) (by decide)
  · rw [if_neg harg]
    have harg : e.arguments = true := by simpa using harg
    cases hver : e.tcsVersions with
    | error r => exact iff_of_true (balanced_leave _) fun _ _ h => absurd (hver.symm.trans h) (by simp)
    | ok versions =>
        dsimp only
        by_cases hnum : versions.length + tcfExpandVersion > e.numInout
        · rw [if_pos hnum]
          refine iff_of_true (balanced_leave _) fun vs _ h hle => ?_
          obtain rfl := Except.ok.inj (hver.symm.trans h)
          omega
        · rw [if_neg hnum, @balanced_getOr_iff _ .policy e.sem _ (SubversFound versions)]
          · constructor
            · intro h vs _ hvs _ hsem
              obtain rfl := Except.ok.inj (hver.symm.trans hvs)
              exact h hsem
            · intro h hsem
              exact h versions harg hver (by omega) hsem
          · intro hok
            rw [firstSubver_eq_none_iff.mpr hok]
            dsimp only
            split_ifs <;> rfl
          · intro hnot
            obtain ⟨r, hr⟩ := Option.ne_none_iff_exists'.mp (mt firstSubver_eq_none_iff.mp hnot)
            rw [hr]
            rfl

theorem balanced_getOnePolicyVersion_iff (e : GetOnePolicyVersion) :
    Balanced (tcfGetOnePolicyVersion e).ops ↔ (Call.getOnePolicyVersion e).Ok := by
  unfold tcfGetOnePolicyVersion Call.Ok
  by_cases htype : e.typeValid = false
  · rw [if_pos htype]
    exact iff_of_true (balanced_leave _) fun _ h => absurd (htype.symm.trans h) (by decide)
  · rw [if_neg htype, @balanced_getOr_iff _ .policy e.sem _
      (∀ versions, e.versionFile = none → e.tcsVersions = .ok versions → SubversFound versions)]
    · exact ⟨fun h vs _ hsem => h hsem vs, fun h hsem vs => h vs (by simpa using htype) hsem⟩
    · intro hok
      cases hfile : e.versionFile with
      | some f =>
          dsimp only
          split_ifs <;> rfl
      | none =>
          cases hver : e.tcsVersions with
          | error r => rfl
          | ok versions =>
              dsimp only
              rw [firstSubver_eq_none_iff.mpr (hok versions hfile hver)]
              rfl
    · intro hnot
      obtain ⟨versions, h⟩ := not_forall.mp hnot
      obtain ⟨hfile, h⟩ := Classical.not_imp.mp h
      obtain ⟨hver, h⟩ := Classical.not_imp.mp h
      obtain ⟨r, hr⟩ := Option.ne_none_iff_exists'.mp (mt firstSubver_eq_none_iff.mp h)
      rw [hfile, hver]
      dsimp only
      rw [hr]
      rfl

theorem balanced_readNvList_iff (e : ReadNvList) : Balanced (tcsReadNvList e).ops ↔ (Call.readNvList e).Ok := by
  unfold tcsReadNvList Call.Ok
  by_cases harg : e.arguments = false
  · rw [if_pos harg]
    exact iff_of_true (balanced_leave _) fun h => absurd (harg.symm.trans h) (by decide)
  · rw [if_neg harg, @balanced_getOrOut_iff _ .nv e.sem _ (e.file.fopen = true)]
    · exact ⟨fun h _ => h, fun h => h (by simpa using harg)⟩
    · intro hok
      rw [hok, if_neg (by decide)]
      split_ifs <;> rfl
    · intro hnot
      rw [if_pos (by simpa using hnot)]
      rfl

/-- **A call is balanced exactly when its condition holds.** -/
theorem balanced_iff (c : Call) : Balanced c.ops ↔ c.Ok := by
  cases c with
  | updateCriticalFileIntegrity e => exact balanced_updateCritical_iff e
  | getPoliciesVersion e => exact balanced_getPoliciesVersion_iff e
  | getOnePolicyVersion e => exact balanced_getOnePolicyVersion_iff e
  | readNvList e => exact balanced_readNvList_iff e
  | getNvInfo e =>
      have hout := @balanced_getOrOut_iff _ .nv e.sem
        (if e.file.fopen = false then releaseAnd .nv (some TssErr.file)
        else if e.file.length = 0 then releaseAnd .nv (some .file)
        else if e.file.malloc = false then releaseAnd .nv (some .nomem)
        else if e.file.fread = false then releaseAnd .nv (some .write)
        else releaseAnd .nv e.search) True
        (fun _ => releases_ite rfl (releases_ite rfl (releases_ite rfl (releases_ite rfl rfl))))
        (fun h => absurd trivial h)
      rw [and_true] at hout
      exact hout
  | getFileIntegrity e => exact iff_of_true (balanced_getOr (by split_ifs <;> rfl)) trivial
  | updateFileIntegrity e =>
      refine iff_of_true (balanced_getOr ?_) trivial
      exact releases_ite rfl (releases_ite rfl (releases_ite rfl (releases_ite rfl rfl)))
  | getFileIntegrityNumber e => exact iff_of_true (balanced_getOr rfl) trivial
  | getFileIntegrityModifyNumberLimit supported tcs e =>
      refine iff_of_true ?_ trivial
      cases supported with
      | true => exact balanced_leave tcs
      | false => exact balanced_getOr rfl
  | getSynchronizedFileIntegrity e =>
      refine iff_of_true (balanced_getOr ?_) trivial
      cases e.number with
      | error r => rfl
      | ok number =>
          dsimp only
          split_ifs <;> rfl
  | getCriticalFileIntegrity e => exact iff_of_true (balanced_getOr (by split_ifs <;> rfl)) trivial
  | nvInfoListDelete e => exact iff_of_true (balanced_getOr (by split_ifs <;> rfl)) trivial
  | nvInfoListAdd e => exact iff_of_true (balanced_listAdd e) trivial
  | setNvList arguments entries =>
      refine iff_of_true ?_ trivial
      cases arguments with
      | true => exact balanced_setNvList entries
      | false => exact balanced_leave _

end Balance

/-! ### Any calls of any processes -/

section Processes

variable {P : Type*} [DecidableEq P]

end Processes

end Sem
end Tcf
end TsbAgent
