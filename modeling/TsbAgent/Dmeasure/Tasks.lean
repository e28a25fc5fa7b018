/-
# Measured tasks and their policies

`tsb/kernel/dmeasure/task/task.c` keeps a table of the tasks that are measured; each entry points to
the `process_policy` that asked for it, in the list of `policy/policy_dmeasure.c`.  The threads of the kernel
meet at two locks and at the work queue, and a step is what one of them does between two such points.

| who | under the lock of the policies | under the task mutex | under no lock |
| --- | --- | --- | --- |
| add, delete, reload | `add`, `del`, `clean` | | `addDone` |
| collection of existed tasks | `query` | | `check`, `init`, `link`, `fail`, `sub`, `child` |
| mmap hook | `mmapQuery`, inside the mutex | `mmap` to `mmapInit` | |
| mprotect hook, exit, unload | | `mprotect`, `exit`, `unload` | |
| periodic check | | `measure` | `start`, `reschedule` |

So a hook holds the mutex over three steps, between which policies come and go, and a collection holds
nothing at all.  Every object is on a heap: a step that reads one that has been freed ends in a `Fault`.
The 4096 buckets of the table are one list here, the newest entry first.
-/

import TsbAgent.Dmeasure.Policy
import TsbAgent.Lib.Heap

namespace TsbAgent
namespace Dmeasure

open Run Libc

/-! ### Where a policy is inserted -/

/-- How many nodes the walk of `add_process_policy` leaves before the new one. -/
def fullPathPosition : Bool → List ObjectIdType → ℕ
  | _, [] => 0
  | hash, y :: ys =>
      match y with
      | .hash => fullPathPosition true ys + 1
      | .fullPath => 1
      | .process => if hash then 1 else 0
      | .other _ => fullPathPosition hash ys + 1

/-- The place of a new policy among nodes of these types. -/
def addPosition (l : List ObjectIdType) (x : ObjectIdType) : ℕ :=
  match x with
  | .hash => 0
  | .process => l.length
  | _ => fullPathPosition false l

theorem fullPathPosition_le (hash : Bool) (l : List ObjectIdType) : fullPathPosition hash l ≤ l.length := by
  induction l generalizing hash with
  | nil => exact Nat.le_refl _
  | cons y ys ih =>
      cases y with
      | hash => exact Nat.succ_le_succ (ih true)
      | fullPath => exact Nat.succ_le_succ (Nat.zero_le _)
      | process => cases hash <;> simp [fullPathPosition]
      | other code => exact Nat.succ_le_succ (ih hash)

theorem addPosition_le (l : List ObjectIdType) (x : ObjectIdType) : addPosition l x ≤ l.length := by
  cases x with
  | hash => exact Nat.zero_le _
  | process => exact Nat.le_refl _
  | fullPath => exact fullPathPosition_le false l
  | other code => exact fullPathPosition_le false l

namespace Tasks

/-! ### The objects -/

/-- `PROCESS_DMEASURE_MODE_MEASURE`. -/
def modeMeasure : ℤ := 1

/-- A task is the address of its `task_struct` and its pid. -/
structure Task where
  address : ℕ
  pid : ℤ
deriving DecidableEq

/-- `struct process_policy`: the item, its counter and its switch. -/
structure PolicyObject where
  item : ProcessPolicy
  objCount : ℕ
  processSwitch : Bool
deriving DecidableEq

/-- `struct dtask_info`; `policy` is the address of its policy. -/
structure DtaskInfo where
  task : Task
  path : CStr
  policy : ℕ
deriving DecidableEq

/-- The delayed work of an entry.  While it runs, it first waits for the mutex and at the end, without
the mutex, schedules itself again. -/
inductive Work
  | idle
  | pending
  | started
  | measured
deriving DecidableEq

/-- The check runs. -/
def Work.Running (w : Work) : Prop := w = .started ∨ w = .measured

instance (w : Work) : Decidable w.Running := inferInstanceAs (Decidable (_ ∨ _))

/-- `cancel_delayed_work`: a check that runs is not waited for. -/
def Work.cancel : Work → Work
  | .pending => .idle
  | w => w

/-- A mmap hook that holds the mutex: before its query, with the entry of the parent, and before
`init_dtask_info`. -/
inductive Hook
  | checked (t : Task) (q : Query) (parent : Option ℕ)
  | found (t : Task) (path : CStr) (p : ℕ)

/-- Where a thread is that adds policies or collects tasks. -/
inductive Thread
  | idle
  | added (p : ℕ)
  | collecting
  | checked (t : Task) (q : Query)
  | found (t : Task) (path : CStr) (p : ℕ) (child : Bool)
  | inited (t : Task) (p e : ℕ) (child : Bool)
  | registered (p : ℕ)
  | children (p : ℕ)

/-- Back from `add_exist_task_info`. -/
def Thread.after (p : ℕ) (child : Bool) : Thread := if child then .children p else .registered p

structure State where
  policies : Heap PolicyObject
  list : List ℕ
  entries : Heap DtaskInfo
  table : List ℕ
  taskInfoCount : ℤ
  work : ℕ → Work
  hook : Option Hook
  threads : ℕ → Thread

/-- The module has been loaded. -/
def State.init : State := ⟨.empty, [], .empty, [], 0, fun _ => .idle, none, fun _ => .idle⟩

/-- A freed object was used. -/
inductive Fault
  | policy (p : ℕ)
  | entry (e : ℕ)
deriving DecidableEq

namespace State

def policy (s : State) (p : ℕ) : Except Fault PolicyObject :=
  match s.policies.read p with
  | some o => .ok o
  | none => .error (.policy p)

def entry (s : State) (e : ℕ) : Except Fault DtaskInfo :=
  match s.entries.read e with
  | some x => .ok x
  | none => .error (.entry e)

def setThread (s : State) (k : ℕ) (th : Thread) : State := { s with threads := Function.update s.threads k th }

def setHook (s : State) (h : Option Hook) : State := { s with hook := h }

def setWork (s : State) (e : ℕ) (w : Work) : State := { s with work := Function.update s.work e w }

/-! ### The list -/

/-- The locked section of `parse_add_policy_dmeasure_process`, for one item. -/
def addPolicy (s : State) (k : ℕ) (x : ProcessPolicy) : Except Fault State := do
  let objects ← s.list.mapM s.policy
  let p := s.policies.next
  .ok { s with
    policies := s.policies.alloc ⟨x, 0, true⟩
    list := s.list.insertIdx (addPosition (objects.map (·.item.objectIdType)) x.objectIdType) p
    threads := Function.update s.threads k (.added p) }

/-- A policy leaves the list and stays for its tasks. -/
def switchOff (s : State) (p : ℕ) : Except Fault State := do
  let o ← s.policy p
  .ok { s with
    policies := s.policies.store p { o with processSwitch := false }
    list := s.list.erase p }

/-- The locked section of `parse_del_policy_dmeasure_process`, for one item. -/
def delPolicy (s : State) (x : DmeasureProcessItem) : Except Fault State := do
  let found ← Heap.search (fun p => do let o ← s.policy p; pure (x.names o.item)) s.list
  match found with
  | none => .ok s
  | some p => do
      let o ← s.policy p
      if o.objCount ≠ 0 then s.switchOff p
      else .ok { s with policies := s.policies.kfree p, list := s.list.erase p }

/-- `clean_process_policy`, where the `kfree` is commented out. -/
def cleanProcessPolicy (s : State) : Except Fault State := s.list.foldlM switchOff s

/-- `query_policy_dmeasure_process`. -/
def queryPolicyDmeasureProcess (s : State) (q : Query) : Except Fault (Option ℕ) :=
  Heap.search (fun p => do let o ← s.policy p; pure (q.isExist o.item)) s.list

/-! ### The table -/

/-- `check_dtask_info`: entries whose policy is switched off are passed over. -/
def checkDtaskInfo (s : State) (t : Task) : Except Fault (Option ℕ) :=
  Heap.search (fun e => do
    let x ← s.entry e
    if x.task = t then (do let o ← s.policy x.policy; pure o.processSwitch) else pure false) s.table

/-- `init_dtask_info`, where nothing fails: the new entry is not in the table yet, but its work is scheduled. -/
def initDtaskInfo (s : State) (t : Task) (path : CStr) (p : ℕ) : Except Fault State := do
  let o ← s.policy p
  .ok { s with
    policies := s.policies.store p { o with objCount := o.objCount + 1 }
    entries := s.entries.alloc ⟨t, path, p⟩
    work := Function.update s.work s.entries.next .pending }

/-- `hlist_add_head`, and the count. -/
def link (s : State) (e : ℕ) : State :=
  { s with table := e :: s.table, taskInfoCount := s.taskInfoCount + 1 }

/-- What `remove_task_info` leaves of an entry `x` and its policy `o`. -/
def removed (s : State) (e : ℕ) (x : DtaskInfo) (o : PolicyObject) : State :=
  { s with
    policies :=
      if o.processSwitch = false ∧ o.objCount - 1 = 0 then s.policies.kfree x.policy
      else s.policies.store x.policy { o with objCount := o.objCount - 1 }
    entries := s.entries.kfree e
    table := s.table.erase e
    taskInfoCount := s.taskInfoCount - 1
    work := Function.update s.work e (s.work e).cancel }

/-- `remove_task_info`; `hlist_del` on an entry that is in no list goes through a null pointer. -/
def removeTaskInfo (s : State) (e : ℕ) : Except Fault State := do
  let x ← s.entry e
  let o ← s.policy x.policy
  if e ∈ s.table then .ok (s.removed e x o) else .error (.entry e)

/-! ### The mmap hook -/

/-- `add_tmp_mem_map` up to the query; the executable and its hash can be had when `ready`. -/
def mmap (s : State) (t parent : Task) (q : Query) (ready : Bool) : Except Fault State := do
  let old ← s.checkDtaskInfo t
  if old.isSome ∨ ready = false then .ok s
  else do
    let taskInfo ← s.checkDtaskInfo parent
    .ok (s.setHook (some (.checked t q taskInfo)))

/-- The query, and which policy is taken: the parent's when there is none, and none when the parent runs
the same program. -/
def mmapQuery (s : State) (t : Task) (q : Query) (parent : Option ℕ) : Except Fault State := do
  let found ← s.queryPolicyDmeasureProcess q
  match found, parent with
  | none, none => .ok (s.setHook none)
  | none, some e => do
      let x ← s.entry e
      let o ← s.policy x.policy
      .ok (s.setHook (if o.item.subProcessMode = modeMeasure then some (.found t q.fullPath x.policy) else none))
  | some p, none => .ok (s.setHook (some (.found t q.fullPath p)))
  | some p, some e => do
      let x ← s.entry e
      .ok (s.setHook (if x.path = q.fullPath then none else some (.found t q.fullPath p)))

/-- The rest, and the mutex is released. -/
def mmapInit (s : State) (t : Task) (path : CStr) (p : ℕ) (ok : Bool) : Except Fault State :=
  if ok then do
    let s' ← s.initDtaskInfo t path p
    .ok ((s'.link s.entries.next).setHook none)
  else .ok (s.setHook none)

end State

/-! ### Steps -/

inductive Event
  | add (k : ℕ) (x : ProcessPolicy)
  | addDone (k : ℕ) (isStart : Bool)
  | del (x : DmeasureProcessItem)
  | clean
  | collect (k : ℕ)
  | check (k : ℕ) (t : Task) (q : Query)
  | query (k : ℕ) (ready : Bool)
  | init (k : ℕ) (ok : Bool)
  | link (k : ℕ)
  | fail (k : ℕ)
  | sub (k : ℕ)
  | child (k : ℕ) (t : Task) (path : CStr)
  | childrenDone (k : ℕ)
  | collected (k : ℕ)
  | mmap (t parent : Task) (q : Query) (ready : Bool)
  | mmapQuery
  | mmapInit (ok : Bool)
  | mprotect (t : Task)
  | exit (t : Task)
  | unload
  | start (e : ℕ) (isEnabled : Bool)
  | measure (e : ℕ) (gone : Bool)
  | reschedule (e : ℕ)

/-- What the thread `k` does next; `none` when it is somewhere else. -/
def threadStep (s : State) : Event → Option (Except Fault State)
  | .add k x =>
      match s.threads k with
      | .idle => some (s.addPolicy k x)
      | _ => none
  | .addDone k isStart =>
      match s.threads k with
      | .added p => some do
          let o ← s.policy p
          let collects := isStart = false ∧ o.item.oldProcessMode = modeMeasure
          .ok (s.setThread k (if collects then .collecting else .idle))
      | _ => none
  | .collect k =>
      match s.threads k with
      | .idle => some (.ok (s.setThread k .collecting))
      | _ => none
  | .check k t q =>
      match s.threads k with
      | .collecting => some do
          let old ← s.checkDtaskInfo t
          .ok (if old.isSome then s else s.setThread k (.checked t q))
      | _ => none
  | .query k ready =>
      match s.threads k with
      | .checked t q =>
          if ready then some do
            let found ← s.queryPolicyDmeasureProcess q
            match found with
            | none => .ok (s.setThread k .collecting)
            | some p => .ok (s.setThread k (.found t q.fullPath p false))
          else some (.ok (s.setThread k .collecting))
      | _ => none
  | .init k ok =>
      match s.threads k with
      | .found t path p child =>
          if ok then some do
            let s' ← s.initDtaskInfo t path p
            .ok (s'.setThread k (.inited t p s.entries.next child))
          else some (.ok (s.setThread k (.after p child)))
      | _ => none
  | .link k =>
      match s.threads k with
      | .inited _ p e child => some do
          let _ ← s.entry e
          .ok ((s.link e).setThread k (.after p child))
      | _ => none
  -- `out_error`: the work is cancelled and the entry freed, the policy's counter stays as it is
  | .fail k =>
      match s.threads k with
      | .inited _ p e child => some do
          let _ ← s.entry e
          let s' := { s with entries := s.entries.kfree e }
          .ok ((s'.setWork e (s.work e).cancel).setThread k (.after p child))
      | _ => none
  | .sub k =>
      match s.threads k with
      | .registered p => some do
          let o ← s.policy p
          .ok (s.setThread k (if o.item.subProcessMode = modeMeasure then .children p else .collecting))
      | _ => none
  | .child k t path =>
      match s.threads k with
      | .children p => some do
          let old ← s.checkDtaskInfo t
          .ok (if old.isSome then s else s.setThread k (.found t path p true))
      | _ => none
  | .childrenDone k =>
      match s.threads k with
      | .children _ => some (.ok (s.setThread k .collecting))
      | _ => none
  | .collected k =>
      match s.threads k with
      | .collecting => some (.ok (s.setThread k .idle))
      | _ => none
  | _ => none

/-- A step.  Where the mutex is needed, no hook holds it. -/
def step (s : State) : Event → Option (Except Fault State)
  | .del x => some (s.delPolicy x)
  | .clean => some s.cleanProcessPolicy
  | .mmap t parent q ready => if s.hook.isNone then some (s.mmap t parent q ready) else none
  | .mmapQuery =>
      match s.hook with
      | some (.checked t q parent) => some (s.mmapQuery t q parent)
      | _ => none
  | .mmapInit ok =>
      match s.hook with
      | some (.found t path p) => some (s.mmapInit t path p ok)
      | _ => none
  -- `convert_tmp_mem_map` and `tsb_measure_process` read the entry they find
  | .mprotect t =>
      if s.hook.isNone then some do
        let found ← s.checkDtaskInfo t
        match found with
        | none => .ok s
        | some e => do
            let _ ← s.entry e
            .ok s
      else none
  | .exit t =>
      if s.hook.isNone then some do
        let found ← s.checkDtaskInfo t
        match found with
        | none => .ok s
        | some e => s.removeTaskInfo e
      else none
  | .unload => if s.hook.isNone then some (s.table.foldlM State.removeTaskInfo s) else none
  | .start e isEnabled =>
      if s.work e = .pending then
        if isEnabled then some do
          let _ ← s.entry e
          .ok (s.setWork e .started)
        else some (.ok (s.setWork e .measured))
      else none
  | .measure e gone =>
      if s.work e = .started ∧ s.hook.isNone then some do
        let x ← s.entry e
        let o ← s.policy x.policy
        if o.processSwitch = false ∨ gone then do
          let s' ← s.removeTaskInfo e
          .ok (s'.setWork e .idle)
        else .ok (s.setWork e .measured)
      else none
  | .reschedule e =>
      if s.work e = .measured then some do
        let x ← s.entry e
        let _ ← s.policy x.policy
        .ok (s.setWork e .pending)
      else none
  | ev => threadStep s ev

/-- After a fault there are no more steps. -/
def machine : Except Fault State → Event → Option (Except Fault State)
  | .ok s, ev => step s ev
  | .error _, _ => none

end Tasks
end Dmeasure
end TsbAgent
