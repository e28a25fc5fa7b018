/-
# The verdict on a process

Two functions of `tsb/kernel/dmeasure/task/task.c` measure the mappings of a registered task again and compare them
with what was recorded: the periodic `task_dmeasure_check`, which logs the result, and `tsb_measure_process_taskp`,
which returns it.

| | `task_dmeasure_check` | `tsb_measure_process_taskp` |
| --- | --- | --- |
| no libraries | passes over names that end in `.so` | stops after the first mapping |
| hashing fails | leaves the loop, with **`ret` still 0** | returns an error |
| feature switched off, or the pid is another task's | logs nothing | measures |

So a process whose mapping could not be read is logged as a success.  The name is the `d_iname` of the dentry,
which is not the name of the file when that is long; and a name of less than three characters is compared from
before the array.  Both loops are an `Inspection`, and `verdicts_iff` says for which states they are truthful and
agree.
-/

import TsbAgent.Lib.Inspect
import TsbAgent.Lib.Word
import TsbAgent.Dmeasure.FileHashCache
import TsbAgent.Dmeasure.Tasks

namespace TsbAgent
namespace Dmeasure
namespace Verdict

open Libc Word Tasks

/-! ### The memory of a task -/

/-- A page of memory. -/
abbrev Page := { b : Bytes // b.length = pageSize }

/-- The memory of a task: whether `kzalloc` grants that many bytes, and the pages that `get_user_pages_remote` can
get from an address on, as many as are wanted at most. -/
structure AddressSpace where
  kzalloc : ℕ → Bool
  pages : ℕ → ℕ → List Page

/-- The bytes that the loop of `task_cal_mem_sm3` gives to `sm3_update`. -/
def gather : List Page → ℕ → ℤ → Bytes
  | [], _, _ => []
  | p :: ps, off, length =>
      let plen := min length (pageSize - off)
      (p.1.drop off).take plen.toNat ++ gather ps 0 (length - plen)

/-- `npages`, an `int`. -/
def npages (start : ℕ) (length : ℤ) : ℤ :=
  int32 (sizeT ((start % pageSize : ℕ) + length + pageSize - 1) / pageSize : ℕ)

/-- `task_cal_mem_sm3`; no result is an error. -/
def taskCalMemSm3 (sm3 : Bytes → Digest) (mm : AddressSpace) (start : ℕ) (length : ℤ) : Option Digest :=
  let n := npages start length
  if n < 0 ∨ mm.kzalloc (8 * n.toNat) = false then none
  else if (mm.pages start n.toNat).length ≠ n.toNat then none
  else some (sm3 (gather (mm.pages start n.toNat) (start % pageSize) length))

/-- What the kernel has at the moment: the switch of the feature, the tasks by their pid, the memory of a task, and
the hash function. -/
structure Kernel where
  isEnabled : Bool
  pidToTask : ℤ → Option ℕ
  mm : ℕ → Option AddressSpace
  sm3 : Bytes → Digest

/-- `task_cal_proc_mem_sm3`. -/
def Kernel.taskCalProcMemSm3 (k : Kernel) (task start : ℕ) (length : ℤ) : Option Digest :=
  match k.mm task with
  | none => none
  | some mm => taskCalMemSm3 k.sm3 mm start length

/-! ### The mappings -/

/-- `PROCESS_DMEASURE_MODE_NON_MEASURE`. -/
def modeNonMeasure : ℤ := 2

/-- A name up to this length is in the dentry itself, with its end. -/
def dnameInlineLen : ℕ := 32

/-- The dentry of a mapped file: its name, its `d_iname`, and the three bytes before that array. -/
structure Dentry where
  name : CStr
  iname : CStr
  before : { b : Bytes // b.length = 3 }
  inline : name.strlen < dnameInlineLen → iname = name
deriving DecidableEq

/-- `".so"`. -/
def soBytes : Bytes := [46, 115, 111]

/-- The comparison in `task_dmeasure_check`: of three bytes, from `strlen - 3` on. -/
def Dentry.looksShared (d : Dentry) : Bool := decide ((d.before.1 ++ d.iname.bytes).drop d.iname.strlen = soBytes)

/-- The file is a shared library: its name ends in `.so`. -/
def Dentry.IsShared (d : Dentry) : Prop := soBytes <:+ d.name.bytes

instance (d : Dentry) : Decidable d.IsShared := inferInstanceAs (Decidable (_ <:+ _))

/-- `struct mmap_reference`. -/
structure MmapReference where
  addr : UInt64
  len : UInt64
  sm3Value : Digest
  file : Dentry
deriving DecidableEq

/-- What the mapping is measured as now; the length is passed as an `int`. -/
def Kernel.measure (k : Kernel) (task : ℕ) (m : MmapReference) : Option Digest :=
  k.taskCalProcMemSm3 task m.addr.toNat (int32 m.len.toNat)

/-! ### The two functions -/

/-- The loop of `task_dmeasure_check`. -/
def checkLoop (k : Kernel) (x : DtaskInfo) (o : PolicyObject) : Inspection MmapReference Digest where
  skip := fun m => decide (o.item.shareLibMode = modeNonMeasure) && m.file.looksShared
  once := false
  read := k.measure x.task.address
  recorded := MmapReference.sm3Value

/-- The loop of `tsb_measure_process_taskp`. -/
def measureLoop (k : Kernel) (x : DtaskInfo) (o : PolicyObject) : Inspection MmapReference Digest where
  skip := fun _ => false
  once := decide (o.item.shareLibMode = modeNonMeasure)
  read := k.measure x.task.address
  recorded := MmapReference.sm3Value

/-- `RESULT_SUCCESS` and `RESULT_FAIL`. -/
inductive AuditResult
  | success
  | fail
deriving DecidableEq

/-- A call of `send_audit_log`. -/
structure AuditLog where
  name : CStr
  result : AuditResult
  hash : Digest
  pid : ℤ
deriving DecidableEq

/-- What `task_dmeasure_check` logs after its loop. -/
def auditLog (x : DtaskInfo) : Inspection.Outcome Digest → AuditLog
  | .finished | .failed => ⟨x.path, .success, Digest.zero, x.task.pid⟩
  | .differs hash => ⟨x.path, .fail, hash, x.task.pid⟩

/-- What `task_dmeasure_check` has done: the mappings it hashed, what it logged, the tasks, and the milliseconds
until it runs again, when it does. -/
structure Checked where
  hashed : List MmapReference
  logs : List AuditLog
  state : State
  period : Option ℕ

/-- The period of the work; 0 and less stand for ten seconds. -/
def period (o : PolicyObject) : ℕ :=
  if o.item.beMeasureInterval ≤ 0 then 10000 else o.item.beMeasureInterval.toNat

/-- `task_dmeasure_check`, as the work of the entry `e`; `maps` are the mappings of the entries. -/
def taskDmeasureCheck (k : Kernel) (s : State) (maps : ℕ → List MmapReference) (e : ℕ) : Except Fault Checked := do
  let x ← s.entry e
  let o ← s.policy x.policy
  if k.isEnabled = false then .ok ⟨[], [], s, some (period o)⟩
  else if o.processSwitch = false ∨ k.pidToTask x.task.pid ≠ some x.task.address then do
    let s' ← s.removeTaskInfo e
    .ok ⟨[], [], s', none⟩
  else
    let r := (checkLoop k x o).run (maps e)
    .ok ⟨r.1, [auditLog x r.2], s, some (period o)⟩

/-- What `tsb_measure_process_taskp` returns. -/
inductive MeasureRet
  | success
  | policyNotFound
  | calcHash
  | measureFaile
deriving DecidableEq

/-- The return value after the loop. -/
def measureRet : Inspection.Outcome Digest → MeasureRet
  | .finished => .success
  | .failed => .calcHash
  | .differs _ => .measureFaile

/-- What `tsb_measure_process_taskp` has done: the mappings it hashed, and what it returns. -/
structure Answer where
  hashed : List MmapReference
  ret : MeasureRet

/-- `tsb_measure_process_taskp`; an entry that is found has its switch on. -/
def tsbMeasureProcessTaskp (k : Kernel) (s : State) (maps : ℕ → List MmapReference) (t : Task) :
    Except Fault Answer := do
  let found ← s.checkDtaskInfo t
  match found with
  | none => .ok ⟨[], .policyNotFound⟩
  | some e =>
      let x ← s.entry e
      let o ← s.policy x.policy
      if o.processSwitch = false then .ok ⟨[], .policyNotFound⟩
      else
        let r := (measureLoop k x o).run (maps e)
        .ok ⟨r.1, measureRet r.2⟩

/-! ### What is claimed -/

/-- The policy requires the mapping to be measured. -/
def Required (o : PolicyObject) (m : MmapReference) : Bool :=
  !(decide (o.item.shareLibMode = modeNonMeasure) && decide m.file.IsShared)

/-- A success was logged. -/
def Checked.Success (c : Checked) : Prop := ∃ a ∈ c.logs, a.result = .success

/-- **The verdicts on a task are true:** a success is logged only when everything that has to be measured is as it
was recorded; it is logged exactly when the measurement returns 0; and neither passes over a mapping that has to be
measured, nor measures another. -/
structure Truthful (k : Kernel) (x : DtaskInfo) (o : PolicyObject) (l : List MmapReference) (c : Checked)
    (r : Answer) : Prop where
  measured : c.Success → ∀ m ∈ l, Required o m = true → k.measure x.task.address m = some m.sm3Value
  same : c.Success ↔ r.ret = .success
  check : c.hashed <+: l.filter (Required o) ∧ (c.Success → c.hashed = l.filter (Required o))
  measure : r.hashed <+: l.filter (Required o) ∧ (r.ret = .success → r.hashed = l.filter (Required o))

/-- Both functions come to an end on the entry `e` of the task `t`, and their verdicts are true. -/
def Verdicts (k : Kernel) (s : State) (maps : ℕ → List MmapReference) (t : Task) (e : ℕ) : Prop :=
  ∃ x o c r, s.entry e = .ok x ∧ s.policy x.policy = .ok o ∧ taskDmeasureCheck k s maps e = .ok c ∧
    tsbMeasureProcessTaskp k s maps t = .ok r ∧ Truthful k x o (maps e) c r

/-- The check comes to its loop. -/
def Live (k : Kernel) (x : DtaskInfo) : Prop := k.isEnabled = true ∧ k.pidToTask x.task.pid = some x.task.address

/-- **The condition.**  Without libraries, the first mapping is no library, and all others are when it has not
changed.  In a loop that is run, every mapping it comes to is told by its name, and can be hashed when it has to
be; where the loop is not run, something has changed or cannot be hashed. -/
structure Sound (k : Kernel) (x : DtaskInfo) (o : PolicyObject) (l : List MmapReference) : Prop where
  first : o.item.shareLibMode = modeNonMeasure → ∀ m rest, l = m :: rest →
    ¬ m.file.IsShared ∧ (k.measure x.task.address m = some m.sm3Value → ∀ y ∈ rest, y.file.IsShared)
  live : Live k x → ∀ m, (checkLoop k x o).Reached l m →
    (o.item.shareLibMode = modeNonMeasure → (m.file.looksShared = true ↔ m.file.IsShared)) ∧
      (Required o m = true → k.measure x.task.address m ≠ none)
  idle : ¬ Live k x → ∃ m ∈ l, Required o m = true ∧ k.measure x.task.address m ≠ some m.sm3Value

/-! ### Names -/

section Names

variable {o : PolicyObject} {m : MmapReference}

theorem required_eq_false_iff : Required o m = false ↔ o.item.shareLibMode = modeNonMeasure ∧ m.file.IsShared := by
  rw [Required, Bool.not_eq_false', Bool.and_eq_true, decide_eq_true_iff, decide_eq_true_iff]

theorem required_of_measured (hmode : o.item.shareLibMode ≠ modeNonMeasure) : Required o m = true := by
  rw [← Bool.not_eq_false, required_eq_false_iff]
  exact fun h => hmode h.1

end Names

/-! ### The two loops -/

section Loops

variable {k : Kernel} {x : DtaskInfo} {o : PolicyObject} {l : List MmapReference}

/-- What the loop of the check needs. -/
theorem sure_checkLoop : (checkLoop k x o).Sure (Required o) l ↔ ∀ m, (checkLoop k x o).Reached l m →
    (o.item.shareLibMode = modeNonMeasure → (m.file.looksShared = true ↔ m.file.IsShared)) ∧
      (Required o m = true → k.measure x.task.address m ≠ none) := by
  refine forall_congr' fun m => imp_congr_right fun _ => and_congr ?_ Iff.rfl
  rw [required_eq_false_iff]
  change ((decide (o.item.shareLibMode = modeNonMeasure) && m.file.looksShared) = true ↔ _) ↔ _
  rw [Bool.and_eq_true, decide_eq_true_iff, and_congr_right_iff]

/-- What the loop of the measurement needs. -/
theorem complete_measureLoop : (measureLoop k x o).Complete (Required o) l ↔
    (o.item.shareLibMode = modeNonMeasure → ∀ m rest, l = m :: rest →
      ¬ m.file.IsShared ∧ (k.measure x.task.address m = some m.sm3Value → ∀ y ∈ rest, y.file.IsShared)) := by
  rcases eq_or_ne o.item.shareLibMode modeNonMeasure with hmode | hmode
  · rw [imp_iff_right hmode]
    cases l with
    | nil => exact iff_of_true Inspection.complete_nil fun m rest h => absurd h (List.cons_ne_nil _ _).symm
    | cons m rest =>
        rw [Inspection.complete_once_iff rfl (decide_eq_true hmode), ← Bool.not_eq_false]
        simp only [required_eq_false_iff, hmode, true_and]
        constructor
        · rintro h m' rest' heq
          obtain ⟨rfl, rfl⟩ := List.cons.inj heq
          exact h
        · exact fun h => h m rest rfl
  · refine iff_of_true ?_ fun h => absurd h hmode
    exact Inspection.complete_of_forall (fun _ => rfl) (decide_eq_false hmode) fun m => required_of_measured hmode

/-- A success is logged when no difference was found. -/
theorem success_auditLog (hashed : List MmapReference) (out : Inspection.Outcome Digest) (s : State)
    (n : Option ℕ) : (⟨hashed, [auditLog x out], s, n⟩ : Checked).Success ↔ out.Quiet := by
  constructor
  · rintro ⟨a, ha, hres⟩ b rfl
    obtain rfl := List.mem_singleton.mp ha
    cases hres
  · intro hquiet
    refine ⟨auditLog x out, List.mem_singleton_self _, ?_⟩
    cases out with
    | finished => rfl
    | failed => rfl
    | differs b => exact absurd rfl (hquiet b)

theorem measureRet_eq_success (out : Inspection.Outcome Digest) : measureRet out = .success ↔ out = .finished := by
  cases out with
  | finished => exact iff_of_true rfl rfl
  | failed => exact iff_of_false (fun h => by cases h) fun h => by cases h
  | differs b => exact iff_of_false (fun h => by cases h) fun h => by cases h

/-- **Both loops are run:** the verdicts are true when the one skips what it may, and the other is complete. -/
theorem truthful_live (s : State) (n : Option ℕ) :
    Truthful k x o l ⟨((checkLoop k x o).run l).1, [auditLog x ((checkLoop k x o).run l).2], s, n⟩
        ⟨((measureLoop k x o).run l).1, measureRet ((measureLoop k x o).run l).2⟩ ↔
      (checkLoop k x o).Exact (Required o) l ∧ (measureLoop k x o).Complete (Required o) l := by
  constructor
  · rintro ⟨hmeasured, -, hcheck, hmeasure⟩
    rw [success_auditLog] at hmeasured hcheck
    rw [measureRet_eq_success] at hmeasure
    exact ⟨⟨hcheck.1, fun hquiet => ⟨hcheck.2 hquiet, hmeasured hquiet⟩⟩, hmeasure⟩
  · rintro ⟨hexact, hcomplete⟩
    refine ⟨?_, ?_, ?_, ?_⟩
    · rw [success_auditLog]
      exact fun hquiet => (hexact.2 hquiet).2
    · rw [success_auditLog, measureRet_eq_success, hexact.quiet_iff, hcomplete.finished_iff]
      rfl
    · rw [success_auditLog]
      exact ⟨hexact.1, fun hquiet => (hexact.2 hquiet).1⟩
    · rw [measureRet_eq_success]
      exact hcomplete

/-- **Only the measurement is run:** then it has to find something. -/
theorem truthful_idle (s : State) (n : Option ℕ) :
    Truthful k x o l ⟨[], [], s, n⟩ ⟨((measureLoop k x o).run l).1, measureRet ((measureLoop k x o).run l).2⟩ ↔
      (measureLoop k x o).Complete (Required o) l ∧
        ∃ m ∈ l, Required o m = true ∧ k.measure x.task.address m ≠ some m.sm3Value := by
  have hno : ¬ (⟨[], [], s, n⟩ : Checked).Success := by
    rintro ⟨a, ha, -⟩
    exact List.not_mem_nil ha
  constructor
  · rintro ⟨-, hsame, -, hmeasure⟩
    rw [measureRet_eq_success] at hsame hmeasure
    refine ⟨hmeasure, ?_⟩
    by_contra hall
    refine hno (hsame.mpr ((Inspection.Complete.finished_iff hmeasure).mpr fun m hm hR => ?_))
    by_contra hne
    exact hall ⟨m, hm, hR, hne⟩
  · rintro ⟨hcomplete, m, hm, hR, hne⟩
    refine ⟨fun h => absurd h hno, ?_, ⟨List.nil_prefix, fun h => absurd h hno⟩, ?_⟩
    · rw [measureRet_eq_success, hcomplete.finished_iff]
      exact iff_of_false hno fun hall => hne (hall m hm hR)
    · rw [measureRet_eq_success]
      exact hcomplete

end Loops

/-! ### The two functions -/

section Functions

variable {k : Kernel} {s : State} {maps : ℕ → List MmapReference} {t : Task} {e : ℕ} {x : DtaskInfo}
  {o : PolicyObject}

/-- A registered task has an entry in the table, with a policy whose switch is on. -/
theorem found (h : s.checkDtaskInfo t = .ok (some e)) :
    e ∈ s.table ∧ ∃ x o, s.entry e = .ok x ∧ s.policy x.policy = .ok o ∧ o.processSwitch = true := by
  obtain ⟨hmem, htest⟩ := Heap.mem_of_search h
  refine ⟨hmem, ?_⟩
  cases hx : s.entry e with
  | error f =>
      rw [hx] at htest
      cases htest
  | ok x =>
      rw [hx] at htest
      change (if x.task = t then (do let o ← s.policy x.policy; pure o.processSwitch) else pure false) =
        .ok true at htest
      split_ifs at htest
      · cases ho : s.policy x.policy with
        | error f =>
            rw [ho] at htest
            cases htest
        | ok o =>
            rw [ho] at htest
            exact ⟨x, o, rfl, ho, Except.ok.inj htest⟩
      · cases htest

theorem taskDmeasureCheck_live (hx : s.entry e = .ok x) (ho : s.policy x.policy = .ok o)
    (hon : o.processSwitch = true) (hlive : Live k x) : taskDmeasureCheck k s maps e =
      .ok ⟨((checkLoop k x o).run (maps e)).1, [auditLog x ((checkLoop k x o).run (maps e)).2], s,
        some (period o)⟩ := by
  simp only [taskDmeasureCheck, hx, ho, bind, Except.bind]
  rw [hlive.1, hon, hlive.2, if_neg (by decide), if_neg (by simp)]

theorem taskDmeasureCheck_idle (hx : s.entry e = .ok x) (ho : s.policy x.policy = .ok o) (he : e ∈ s.table)
    (hidle : ¬ Live k x) : ∃ s' n, taskDmeasureCheck k s maps e = .ok ⟨[], [], s', n⟩ := by
  simp only [taskDmeasureCheck, hx, ho, bind, Except.bind]
  cases hon : k.isEnabled with
  | false => exact ⟨s, some (period o), if_pos rfl⟩
  | true =>
      have hgone : k.pidToTask x.task.pid ≠ some x.task.address := fun h => hidle ⟨hon, h⟩
      rw [if_neg (by decide), if_pos (.inr hgone), State.removeTaskInfo]
      simp only [hx, ho, bind, Except.bind]
      rw [if_pos he]
      exact ⟨s.removed e x o, none, rfl⟩

theorem tsbMeasureProcessTaskp_found (h : s.checkDtaskInfo t = .ok (some e)) (hx : s.entry e = .ok x)
    (ho : s.policy x.policy = .ok o) (hon : o.processSwitch = true) : tsbMeasureProcessTaskp k s maps t =
      .ok ⟨((measureLoop k x o).run (maps e)).1, measureRet ((measureLoop k x o).run (maps e)).2⟩ := by
  simp only [tsbMeasureProcessTaskp, h, hx, ho, bind, Except.bind]
  rw [hon, if_neg (by decide)]

/-- What the functions return is what they are truthful about. -/
theorem verdicts_eq {c : Checked} {r : Answer} (hx : s.entry e = .ok x) (ho : s.policy x.policy = .ok o)
    (hc : taskDmeasureCheck k s maps e = .ok c) (hr : tsbMeasureProcessTaskp k s maps t = .ok r) :
    Verdicts k s maps t e ↔ Truthful k x o (maps e) c r := by
  constructor
  · rintro ⟨x', o', c', r', hx', ho', hc', hr', htrue⟩
    obtain rfl := Except.ok.inj (hx.symm.trans hx')
    obtain rfl := Except.ok.inj (ho.symm.trans ho')
    obtain rfl := Except.ok.inj (hc.symm.trans hc')
    obtain rfl := Except.ok.inj (hr.symm.trans hr')
    exact htrue
  · exact fun htrue => ⟨x, o, c, r, hx, ho, hc, hr, htrue⟩

theorem verdicts_iff_sound (h : s.checkDtaskInfo t = .ok (some e)) (hx : s.entry e = .ok x)
    (ho : s.policy x.policy = .ok o) (hon : o.processSwitch = true) (he : e ∈ s.table) :
    Verdicts k s maps t e ↔ Sound k x o (maps e) := by
  have hr := @tsbMeasureProcessTaskp_found k s maps t e x o h hx ho hon
  rcases em (Live k x) with hlive | hidle
  · rw [verdicts_eq hx ho (taskDmeasureCheck_live hx ho hon hlive) hr, truthful_live, Inspection.exact_iff rfl,
      sure_checkLoop, complete_measureLoop]
    constructor
    · rintro ⟨hcheck, hfirst⟩
      exact ⟨hfirst, fun _ => hcheck, fun hidle => absurd hlive hidle⟩
    · exact fun hsound => ⟨hsound.live hlive, hsound.first⟩
  · obtain ⟨s', n, hc⟩ := @taskDmeasureCheck_idle k s maps e x o hx ho he hidle
    rw [verdicts_eq hx ho hc hr, truthful_idle, complete_measureLoop]
    constructor
    · rintro ⟨hfirst, hchanged⟩
      exact ⟨hfirst, fun hlive => absurd hlive hidle, fun _ => hchanged⟩
    · exact fun hsound => ⟨hsound.first, hsound.idle hidle⟩

end Functions

/-- **When the verdicts are true:** for every registered task both functions come to an end and are truthful,
**exactly when** its mappings are as `Sound` says. -/
theorem verdicts_iff (k : Kernel) (s : State) (maps : ℕ → List MmapReference) (t : Task) :
    (∀ e, s.checkDtaskInfo t = .ok (some e) → Verdicts k s maps t e) ↔
      ∀ e x o, s.checkDtaskInfo t = .ok (some e) → s.entry e = .ok x → s.policy x.policy = .ok o →
        Sound k x o (maps e) := by
  constructor
  · intro hall e x o h hx ho
    obtain ⟨he, x', o', hx', ho', hon⟩ := found h
    obtain rfl := Except.ok.inj (hx.symm.trans hx')
    obtain rfl := Except.ok.inj (ho.symm.trans ho')
    exact (verdicts_iff_sound h hx ho hon he).mp (hall e h)
  · intro hall e h
    obtain ⟨he, x, o, hx, ho, hon⟩ := found h
    exact (verdicts_iff_sound h hx ho hon he).mpr (hall e x o h hx ho)

theorem length_a : ([97] : Bytes).length = 1 := rfl

theorem nulFree_a : (0 : UInt8) ∉ ([97] : Bytes) := by decide

theorem nulFree_abc : (0 : UInt8) ∉ ([97, 98, 99] : Bytes) := by decide

/-- A policy that requires everything to be measured. -/
def fullPolicy : PolicyObject :=
  ⟨⟨.fullPath, 2, 2, 1, 0, 1, [97], length_a⟩, 1, true⟩

/-- One registered task, whose check runs. -/
def oneTask : State :=
  { State.init with
    policies := State.init.policies.alloc fullPolicy
    list := [0]
    entries := State.init.entries.alloc ⟨⟨0x1000, 7⟩, ⟨[97], nulFree_a⟩, 0⟩
    table := [0]
    taskInfoCount := 1
    work := fun _ => .started }

/-- The memory of the task cannot be had. -/
def noMemory : Kernel := ⟨true, fun _ => some 0x1000, fun _ => none, fun _ => Digest.zero⟩

/-- A file `abc`. -/
def abcFile : Dentry :=
  ⟨⟨[97, 98, 99], nulFree_abc⟩, ⟨[97, 98, 99], nulFree_abc⟩, ⟨[0, 0, 255], rfl⟩, fun _ => rfl⟩

/-- Its mapping. -/
def oneMapping : MmapReference := ⟨0x400000, 0x1000, Digest.ones, abcFile⟩

/-- The only mapping cannot be hashed: the check logs a success, and the measurement returns an error. -/
theorem unread_mapping_logged_as_success :
    (∃ c, taskDmeasureCheck noMemory oneTask (fun _ => [oneMapping]) 0 = .ok c ∧
      c.logs = [⟨⟨[97], nulFree_a⟩, .success, Digest.zero, 7⟩]) ∧
    (∃ r, tsbMeasureProcessTaskp noMemory oneTask (fun _ => [oneMapping]) ⟨0x1000, 7⟩ = .ok r ∧
      r.ret = .calcHash) ∧
    ¬ ∀ e, oneTask.checkDtaskInfo ⟨0x1000, 7⟩ = .ok (some e) →
      Verdicts noMemory oneTask (fun _ => [oneMapping]) ⟨0x1000, 7⟩ e := by
  have hc : taskDmeasureCheck noMemory oneTask (fun _ => [oneMapping]) 0 =
      .ok ⟨[oneMapping], [⟨⟨[97], nulFree_a⟩, .success, Digest.zero, 7⟩], oneTask, some 10000⟩ := rfl
  have hr : tsbMeasureProcessTaskp noMemory oneTask (fun _ => [oneMapping]) ⟨0x1000, 7⟩ =
      .ok ⟨[oneMapping], .calcHash⟩ := rfl
  refine ⟨⟨_, hc, rfl⟩, ⟨_, hr, rfl⟩, fun hall => ?_⟩
  obtain ⟨x, o, c, r, -, -, hc', hr', htrue⟩ := hall 0 rfl
  obtain rfl := Except.ok.inj (hc.symm.trans hc')
  obtain rfl := Except.ok.inj (hr.symm.trans hr')
  have hret := htrue.same.mp ⟨_, List.mem_singleton_self _, rfl⟩
  cases hret

end Verdict
end Dmeasure
end TsbAgent
