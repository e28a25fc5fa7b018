/-
# Opening a protected file

`smeasure_fac_file_open` of `tsb/kernel/accessctl/engine/access_control.c`.  Unlike the
hooks of `TsbAgent.Fac.AccessControl` it asks the policy list directly, so the
inverted test of `access_control` does not stand in its way.

`RuleDenies` says what a rule is for, in terms of the programs it lists and not of
return values:

| the rule lists the program as | read | write |
| --- | --- | --- |
| `PRIVI_ALL` | passes | passes |
| `PRIVI_READ_ONLY` | passes | denied |
| nothing, or its measurement fails | denied by `FILE_READ_PROTECT` | denied |

and `fac_file_open_denies_iff` that the hook decides by the first rule that matches, and
by the path whitelist before it, with two exceptions: the programs below `SUPER_PATH`
open everything, and a program whose hash cannot be computed passes the rules.

The names are those that the 512-byte fields of `struct sec_domain` give when they are
read as strings.
-/

import TsbAgent.Fac.AccessControl
import TsbAgent.Whitelist.Check

namespace TsbAgent
namespace Fac

open Libc Chained Whitelist

/-- `FMODE_WRITE`. -/
def fmodeWrite : UInt32 := 0x2

/-- What a call of `smeasure_fac_file_open` is given. -/
structure FileOpen where
  /-- What the hook that was there before returns. -/
  oldFileOpen : ℤ
  /-- The inode of the file, none when a pointer on the way is null. -/
  inode : Option Inode
  /-- `FILE_OPEN_MAGIC` is on the stack: the call comes from `calc_sub_hash`. -/
  ownOpen : Bool
  /-- `vfs_get_fullpath` of the file. -/
  filename : Option CStr
  fMode : UInt32
  task : Task

/-- `f_mode & FMODE_WRITE`. -/
def FileOpen.writes (o : FileOpen) : Bool := o.fMode &&& fmodeWrite ≠ 0

/-- `file_filter`. -/
def fileFilter (o : FileOpen) : Bool :=
  match o.inode with
  | none => true
  | some i => specialTypeFilter i

/-- `sub_name` read as a string: a path that fills the array runs on into `obj_name`. -/
def subString (taskpath filename : CStr) : CStr :=
  if taskpath.strlen < lenNameMax then taskpath
  else CStr.ofBytes (taskpath.bytes.take lenNameMax ++ (objString taskpath filename).bytes)

/-- The `struct sec_domain` of a call. -/
def openDomain (taskpath filename : CStr) : SecDomain :=
  ⟨subString taskpath filename, objString taskpath filename, Digest.zero⟩

/-- The return value of a call, and what it reported to `keraudit_log`: the operation,
and whether it succeeded. -/
structure OpenOutcome where
  ret : ℤ
  audit : Option (UInt32 × Bool)

section Decision

variable (jhash : Jhash) (k : Kernel) (st : State)

/-- The decision of `smeasure_fac_file_open`, up to `out`. -/
def facDecision (writes : Bool) (s : SecDomain) : ℤ :=
  if writes = true ∧
      queryWhitelistPath jhash st.whitelistPathHashRandom st.whitelistPathHashtable s = 0 then -eacces
  else
    let ret := queryFacPolicyState k s st.listPolicyFac
    if ret = controlRead then -eacces
    else if ret ≠ 0 ∧ writes = true then -eacces
    else 0

/-- `smeasure_fac_file_open`. -/
def smeasureFacFileOpen (o : FileOpen) : OpenOutcome :=
  if st.facSwitch = false then ⟨0, none⟩
  else if o.oldFileOpen ≠ 0 then ⟨o.oldFileOpen, none⟩
  else if fileFilter o then ⟨0, none⟩
  else if o.ownOpen then ⟨0, none⟩
  else if o.task.kzalloc = false then ⟨0, none⟩
  else
    match o.task.taskpath with
    | none => ⟨0, none⟩
    | some taskpath =>
        if isSuperProcess taskpath then ⟨0, none⟩
        else
          match o.filename with
          | none => ⟨0, none⟩
          | some filename =>
              let ret := facDecision jhash k st o.writes (openDomain taskpath filename)
              ⟨ret, some (if o.writes then operateWrite else operateRead, ret = 0)⟩

end Decision

/-! ### What the policy says -/

/-- What a rule grants a program. -/
inductive Privilege
  | all
  | readOnly
deriving DecidableEq

/-- The first entry with the hash of the program. -/
def listedPrivilege (hash : Digest) (l : List DacPolicy) : Option Privilege :=
  (l.find? fun d => d.processHash = hash).bind fun d =>
    if d.priviType = priviAll then some .all
    else if d.priviType = priviReadOnly then some .readOnly
    else none

/-- The measurements that the rule asks for have passed. -/
def MeasurePassed (k : Kernel) (m : MacPolicy) (s : SecDomain) : Prop :=
  (m.measureFlags &&& fileProtectMeasureEnv ≠ 0 → k.tsbMeasureKernelMemoryAll = 0) ∧
    (m.measureFlags &&& fileProtectMeasureProcess ≠ 0 → 0 ≤ k.measureProcess s)

/-- The rule lists the program with rights that cover the access. -/
def RuleExempts (k : Kernel) (m : MacPolicy) (s : SecDomain) (writes : Bool) : Prop :=
  ∃ hash, k.calcSubHash s.subName = some hash ∧ MeasurePassed k m { s with subHash := hash } ∧
    (listedPrivilege hash m.listDac = some .all ∨
      (listedPrivilege hash m.listDac = some .readOnly ∧ writes = false))

/-- The rule denies the access. -/
def RuleDenies (k : Kernel) (m : MacPolicy) (s : SecDomain) (writes : Bool) : Prop :=
  (m.type = fileReadProtect ∨ writes = true) ∧ ¬ RuleExempts k m s writes

/-- The path whitelist has the object. -/
def OnWhitelist (jhash : Jhash) (st : State) (s : SecDomain) : Prop :=
  queryWhitelistPath jhash st.whitelistPathHashRandom st.whitelistPathHashtable s = 0

/-- The first rule that matches the object denies the access. -/
def FirstRuleDenies (k : Kernel) (st : State) (s : SecDomain) (writes : Bool) : Prop :=
  ∃ m, (st.listPolicyFac.find? fun m => k.regexec m.objName s.objName) = some m ∧
    RuleDenies k m s writes

/-- The open comes to the policy: the module is on, the hook before it admits the open,
and it is for an ordinary file with a name by a program with one. -/
def FileOpen.Reaches (st : State) (o : FileOpen) (taskpath filename : CStr) : Prop :=
  st.facSwitch = true ∧ o.oldFileOpen = 0 ∧ fileFilter o = false ∧ o.ownOpen = false ∧
    o.task.kzalloc = true ∧ o.task.taskpath = some taskpath ∧ o.filename = some filename

/-- The list has no more programs than the number beside it: the loader appends one for
each. -/
def MacPolicy.Loaded (m : MacPolicy) : Prop := m.listDac.length ≤ m.privilegedProcessNum.toNat

section Rules

variable {k : Kernel} {m : MacPolicy} {s : SecDomain} {hash : Digest}

theorem dacPrivilege_eq (l : List DacPolicy) : dacPrivilege hash l =
    match listedPrivilege hash l with
    | some .all => 0
    | some .readOnly => controlWrite
    | none => -1 := by
  induction l with
  | nil => rfl
  | cons d l ih =>
      rw [dacPrivilege]
      by_cases hd : d.processHash = hash
      · rw [if_neg (not_not.mpr (Digest.memcmp_eq_zero.mpr hd))]
        simp only [listedPrivilege, List.find?_cons, hd, decide_true, Option.bind_some]
        split_ifs <;> rfl
      · rw [if_pos fun h => hd (Digest.memcmp_eq_zero.mp h), ih]
        simp only [listedPrivilege, List.find?_cons, hd, decide_false]

/-- The measurements decide whether what the list grants stands. -/
theorem queryDacPolicyState_of_passed (h : MeasurePassed k m s) :
    queryDacPolicyState k m s = dacPrivilege s.subHash m.listDac := by
  have henv : ¬ (m.measureFlags &&& fileProtectMeasureEnv ≠ 0 ∧ k.tsbMeasureKernelMemoryAll ≠ 0) :=
    fun hn => hn.2 (h.1 hn.1)
  have hproc : ¬ (m.measureFlags &&& fileProtectMeasureProcess ≠ 0 ∧ k.measureProcess s < 0) :=
    fun hn => not_lt.mpr (h.2 hn.1) hn.2
  simp only [queryDacPolicyState, if_neg henv, if_neg hproc, ite_self]

theorem queryDacPolicyState_of_not_passed (h : ¬ MeasurePassed k m s) :
    queryDacPolicyState k m s < 0 := by
  simp only [queryDacPolicyState]
  split_ifs with hret henv hproc
  · omega
  · omega
  · refine absurd ⟨fun he => ?_, fun hp => ?_⟩ h
    · exact not_not.mp fun hk => henv ⟨he, hk⟩
    · exact not_lt.mp fun hk => hproc ⟨hp, hk⟩
  · omega

/-- **The three answers of the search of the privileged programs.** -/
theorem queryDacPolicyState_spec (k : Kernel) (m : MacPolicy) (s : SecDomain) :
    (queryDacPolicyState k m s = 0 ∧ MeasurePassed k m s ∧
        listedPrivilege s.subHash m.listDac = some .all) ∨
      (queryDacPolicyState k m s = controlWrite ∧ MeasurePassed k m s ∧
        listedPrivilege s.subHash m.listDac = some .readOnly) ∨
      (queryDacPolicyState k m s < 0 ∧
        ¬ (MeasurePassed k m s ∧ listedPrivilege s.subHash m.listDac ≠ none)) := by
  by_cases h : MeasurePassed k m s
  · rw [queryDacPolicyState_of_passed h, dacPrivilege_eq]
    cases hp : listedPrivilege s.subHash m.listDac with
    | none => exact .inr (.inr ⟨by decide, fun hn => hn.2 rfl⟩)
    | some p =>
        cases p with
        | all => exact .inl ⟨rfl, h, rfl⟩
        | readOnly => exact .inr (.inl ⟨rfl, h, rfl⟩)
  · exact .inr (.inr ⟨queryDacPolicyState_of_not_passed h, fun hn => h hn.1⟩)

/-- A rule that lists somebody has a number above zero. -/
theorem MacPolicy.Loaded.pos (hm : m.Loaded) (hl : listedPrivilege hash m.listDac ≠ none) :
    m.privilegedProcessNum > 0 := by
  have hne : m.listDac ≠ [] := by
    intro hnil
    rw [hnil] at hl
    exact hl rfl
  have hpos : 0 < m.privilegedProcessNum.toNat := (List.length_pos_of_ne_nil hne).trans_le hm
  exact UInt16.lt_iff_toNat_lt.mpr hpos

/-- **A rule that matches denies what it says:** its answer stops the open when it is
`CONTROL_READ`, or when it is no pass and the open writes. -/
theorem facVerdict_denies_iff (hm : m.Loaded) (hh : k.calcSubHash s.subName = some hash)
    (writes : Bool) :
    (facVerdict k m s = controlRead ∨ (facVerdict k m s ≠ 0 ∧ writes = true)) ↔
      RuleDenies k m s writes := by
  have hex : RuleExempts k m s writes ↔ MeasurePassed k m { s with subHash := hash } ∧
      (listedPrivilege hash m.listDac = some .all ∨
        (listedPrivilege hash m.listDac = some .readOnly ∧ writes = false)) := by
    simp only [RuleExempts, hh, Option.some.injEq, exists_eq_left']
  rw [RuleDenies, hex, facVerdict, hh]
  dsimp only
  rcases queryDacPolicyState_spec k m { s with subHash := hash } with
    ⟨hq, hp, hl⟩ | ⟨hq, hp, hl⟩ | ⟨hq, hn⟩
  · have hpos : m.privilegedProcessNum > 0 := hm.pos (hl ▸ Option.some_ne_none _)
    rw [if_pos ⟨hpos, hq.ge⟩, hq, hl]
    simp [hp, controlRead]
  · have hpos : m.privilegedProcessNum > 0 := hm.pos (hl ▸ Option.some_ne_none _)
    rw [if_pos ⟨hpos, hq ▸ by decide⟩, hq, hl]
    cases writes <;> simp [hp, controlRead, controlWrite]
  · have hno : ¬ (MeasurePassed k m { s with subHash := hash } ∧
        (listedPrivilege hash m.listDac = some .all ∨
          (listedPrivilege hash m.listDac = some .readOnly ∧ writes = false))) := by
      rintro ⟨hp, hl⟩
      refine hn ⟨hp, ?_⟩
      rcases hl with hl | ⟨hl, -⟩
      · exact hl ▸ Option.some_ne_none _
      · exact hl ▸ Option.some_ne_none _
    rw [if_neg fun h => not_lt.mpr h.2 hq]
    by_cases ht : m.type = fileReadProtect
    · simp [ht, hno]
    · simp [ht, hno, controlRead, controlWrite]

end Rules

section Decision

variable {jhash : Jhash} {k : Kernel} {st : State} {s : SecDomain}

/-- The search is that of the first rule that matches. -/
theorem queryFacPolicyState_eq_find (s : SecDomain) (l : List MacPolicy) :
    queryFacPolicyState k s l =
      match l.find? fun m => k.regexec m.objName s.objName with
      | none => 0
      | some m => facVerdict k m s := by
  induction l with
  | nil => rfl
  | cons m l ih =>
      cases hm : k.regexec m.objName s.objName with
      | false => simp [queryFacPolicyState, macWildcardCmp, hm, ih]
      | true => simp [queryFacPolicyState, macWildcardCmp, hm]

/-- **The rules deny what the first of them that matches denies**, as long as the program
has a hash. -/
theorem queryFacPolicyState_denies_iff (hloaded : ∀ m ∈ st.listPolicyFac, m.Loaded)
    (writes : Bool) :
    (queryFacPolicyState k s st.listPolicyFac = controlRead ∨
        (queryFacPolicyState k s st.listPolicyFac ≠ 0 ∧ writes = true)) ↔
      (k.calcSubHash s.subName).isSome = true ∧ FirstRuleDenies k st s writes := by
  rw [queryFacPolicyState_eq_find, FirstRuleDenies]
  cases hf : st.listPolicyFac.find? fun m => k.regexec m.objName s.objName with
  | none => simp [controlRead]
  | some m =>
      cases hh : k.calcSubHash s.subName with
      | none => simp [facVerdict, hh, controlRead]
      | some hash =>
          have hm : m.Loaded := hloaded m (List.mem_of_find?_eq_some hf)
          simpa using facVerdict_denies_iff hm hh writes

theorem facDecision_ne_zero_iff (hloaded : ∀ m ∈ st.listPolicyFac, m.Loaded) (writes : Bool) :
    facDecision jhash k st writes s ≠ 0 ↔
      (writes = true ∧ OnWhitelist jhash st s) ∨
        ((k.calcSubHash s.subName).isSome = true ∧ FirstRuleDenies k st s writes) := by
  have hrules := queryFacPolicyState_denies_iff (k := k) (s := s) hloaded writes
  rw [← hrules]
  unfold facDecision OnWhitelist
  dsimp only
  have hne : (-eacces : ℤ) ≠ 0 := by decide
  split_ifs with hw hr hwr
  · exact iff_of_true hne (.inl hw)
  · exact iff_of_true hne (.inr (.inl hr))
  · exact iff_of_true hne (.inr (.inr hwr))
  · refine iff_of_false (fun h => h rfl) ?_
    rintro (h | h | h)
    exacts [hw h, hr h, hwr h]

theorem facDecision_eq (writes : Bool) :
    facDecision jhash k st writes s = 0 ∨ facDecision jhash k st writes s = -eacces := by
  unfold facDecision
  dsimp only
  split_ifs
  · exact .inr rfl
  · exact .inr rfl
  · exact .inr rfl
  · exact .inl rfl

/-- An open that comes to the policy is decided by it, unless a super process makes it. -/
theorem FileOpen.Reaches.ret_eq {o : FileOpen} {taskpath filename : CStr}
    (h : o.Reaches st taskpath filename) :
    (smeasureFacFileOpen jhash k st o).ret = if isSuperProcess taskpath then 0
      else facDecision jhash k st o.writes (openDomain taskpath filename) := by
  obtain ⟨hsw, hold, hfilter, hown, hkz, ht, hf⟩ := h
  simp only [smeasureFacFileOpen, hsw, hold, hfilter, hown, hkz, ht, hf, Bool.true_eq_false,
    ne_eq, not_true_eq_false, Bool.false_eq_true, if_false]
  split_ifs <;> rfl

/-- An open that does not come to the policy gets the answer of the hook before. -/
theorem ret_of_not_reaches {o : FileOpen} (h : ∀ taskpath filename, ¬ o.Reaches st taskpath filename) :
    (smeasureFacFileOpen jhash k st o).ret = if st.facSwitch = false then 0 else o.oldFileOpen := by
  unfold smeasureFacFileOpen
  by_cases hsw : st.facSwitch = false
  · rw [if_pos hsw, if_pos hsw]
  rw [if_neg hsw, if_neg hsw]
  by_cases hold : o.oldFileOpen ≠ 0
  · rw [if_pos hold]
  rw [if_neg hold, not_not.mp hold]
  by_cases hfilter : fileFilter o = true
  · rw [if_pos hfilter]
  rw [if_neg hfilter]
  by_cases hown : o.ownOpen = true
  · rw [if_pos hown]
  rw [if_neg hown]
  by_cases hkz : o.task.kzalloc = false
  · rw [if_pos hkz]
  rw [if_neg hkz]
  cases ht : o.task.taskpath with
  | none => rfl
  | some taskpath =>
      cases hf : o.filename with
      | none =>
          dsimp only
          split_ifs <;> rfl
      | some filename =>
          refine absurd ⟨?_, not_not.mp hold, ?_, ?_, ?_, ht, hf⟩ (h taskpath filename)
          · exact eq_true_of_ne_false hsw
          · exact eq_false_of_ne_true hfilter
          · exact eq_false_of_ne_true hown
          · exact eq_true_of_ne_false hkz

end Decision

/-- The decision that the policy asks for of every program: a write to an object on the path whitelist is
denied, and whatever the first rule that matches denies. -/
def PolicyDenies (jhash : Jhash) (k : Kernel) (st : State) (s : SecDomain) (writes : Bool) : Prop :=
  (writes = true ∧ OnWhitelist jhash st s) ∨ FirstRuleDenies k st s writes

/-- **Opening a file is decided by the first rule that matches.**  An open that comes to
the policy is denied, with `-EACCES`, exactly when its program is no super process and the
open writes to an object on the path whitelist, or the program has a hash and the first rule
that matches denies the open.  Every other open gets the answer of the hook before. -/
theorem fac_file_open_denies_iff (jhash : Jhash) (k : Kernel) (st : State) (o : FileOpen)
    (hloaded : ∀ m ∈ st.listPolicyFac, m.Loaded) :
    (∀ taskpath filename, o.Reaches st taskpath filename →
      ((smeasureFacFileOpen jhash k st o).ret = 0 ∨
          (smeasureFacFileOpen jhash k st o).ret = -eacces) ∧
        ((smeasureFacFileOpen jhash k st o).ret ≠ 0 ↔ isSuperProcess taskpath = false ∧
          ((o.writes = true ∧ OnWhitelist jhash st (openDomain taskpath filename)) ∨
            ((k.calcSubHash (openDomain taskpath filename).subName).isSome = true ∧
              FirstRuleDenies k st (openDomain taskpath filename) o.writes)))) ∧
      ((∀ taskpath filename, ¬ o.Reaches st taskpath filename) →
        (smeasureFacFileOpen jhash k st o).ret = if st.facSwitch = false then 0 else o.oldFileOpen) := by
  refine ⟨fun taskpath filename h => ?_, ret_of_not_reaches⟩
  rw [h.ret_eq]
  cases hs : isSuperProcess taskpath with
  | true => simp
  | false =>
      simp only [Bool.false_eq_true, if_false, true_and]
      exact ⟨facDecision_eq o.writes, facDecision_ne_zero_iff hloaded o.writes⟩

/-- One rule protects every path against writing and lists the program with `PRIVI_READ_ONLY`;
`/bin/cp` opens `/etc/shadow` to write and is denied. -/
theorem fac_file_open_denies_read_only :
    ∃ (k : Kernel) (st : State) (o : FileOpen) (taskpath filename : CStr),
      (∀ m ∈ st.listPolicyFac, m.Loaded) ∧ o.Reaches st taskpath filename ∧ o.writes = true ∧
        (smeasureFacFileOpen (fun _ _ => 0) k st o).ret = -eacces := by
  let cp : CStr := ⟨[47, 98, 105, 110, 47, 99, 112], by decide⟩
  let shadow : CStr := ⟨[47, 101, 116, 99, 47, 115, 104, 97, 100, 111, 119], by decide⟩
  let m : MacPolicy := ⟨0, 0, 1, shadow, [⟨priviReadOnly, Digest.zero, cp⟩]⟩
  let k : Kernel := ⟨fun _ _ => true, fun _ => some Digest.zero, 0, fun _ => 0⟩
  let st : State := ⟨[m], Table.empty, 0, true, none⟩
  let o : FileOpen := ⟨0, some ⟨false, false, none⟩, false, some shadow, 3, ⟨true, some cp⟩⟩
  have hl : ∀ m ∈ st.listPolicyFac, m.Loaded := by
    intro x hx
    rw [List.mem_singleton.mp hx]
    exact le_refl 1
  have hr : o.Reaches st cp shadow := ⟨rfl, rfl, rfl, rfl, rfl, rfl, rfl⟩
  obtain ⟨hret, hiff⟩ := (fac_file_open_denies_iff (fun _ _ => 0) k st o hl).1 cp shadow hr
  refine ⟨k, st, o, cp, shadow, hl, hr, by decide, ?_⟩
  refine hret.resolve_left (hiff.mpr ⟨by decide, .inr ⟨rfl, ?_⟩⟩)
  refine ⟨m, rfl, .inr (by decide), ?_⟩
  rintro ⟨hash, hh, -, hp⟩
  rw [← Option.some.inj hh] at hp
  exact absurd hp (by decide)

/-- **A super process writes to a protected file.**  One rule protects every path against
writing and lists nobody; a program of `/usr/local/httcsec/` opens `/etc/shadow` to write:
the policy denies it, and the open passes. -/
theorem fac_file_open_passes_super_process :
    ∃ (k : Kernel) (st : State) (o : FileOpen) (taskpath filename : CStr),
      (∀ m ∈ st.listPolicyFac, m.Loaded) ∧ o.Reaches st taskpath filename ∧
        PolicyDenies (fun _ _ => 0) k st (openDomain taskpath filename) o.writes ∧
        (smeasureFacFileOpen (fun _ _ => 0) k st o).ret = 0 := by
  let prog : CStr := ⟨superPath ++ [120], by decide⟩
  let shadow : CStr := ⟨[47, 101, 116, 99, 47, 115, 104, 97, 100, 111, 119], by decide⟩
  let m : MacPolicy := ⟨0, 0, 0, shadow, []⟩
  let k : Kernel := ⟨fun _ _ => true, fun _ => some Digest.zero, 0, fun _ => 0⟩
  let st : State := ⟨[m], Table.empty, 0, true, none⟩
  let o : FileOpen := ⟨0, some ⟨false, false, none⟩, false, some shadow, 3, ⟨true, some prog⟩⟩
  have hr : o.Reaches st prog shadow := ⟨rfl, rfl, rfl, rfl, rfl, rfl, rfl⟩
  refine ⟨k, st, o, prog, shadow, fun x hx => ?_, hr, .inr ⟨m, rfl, .inr (by decide), ?_⟩, ?_⟩
  · rw [List.mem_singleton.mp hx]
    exact le_refl 0
  · rintro ⟨hash, -, -, hp⟩
    rcases hp with hp | ⟨hp, -⟩
    · exact Option.some_ne_none _ hp.symm
    · exact Option.some_ne_none _ hp.symm
  · rw [hr.ret_eq, if_pos (by decide)]

end Fac
end TsbAgent
