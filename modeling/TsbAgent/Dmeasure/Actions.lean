/-
# Kernel measurements that run again and again

`dmeasure_register_action`, `dmeasure_unregister_action`, `modify_dmeasure_action` and the delayed work
`dmeasure_actions` of `tsb/kernel/dmeasure/dmeasure/dmeasure.c`, statement by statement where another
thread can come in between.  `dmutex` is held from the first statement of a registration to its last; the
work takes no lock.

| statement of `dmeasure_actions` | what it reads |
| --- | --- |
| `begun` | `is_enabled` |
| `enabled` | `status`, `measure_mode` |
| `allowed` | `check`, and calls it |
| `calling` | nothing until the function returns |
| `out` | nothing; the work is scheduled again |

Two statements go wrong.  The cancel of a removal does not wait for a worker: the function may run on, and
the worker schedules the work again, which then calls `NULL`.  And `INIT_DELAYED_WORK` of a registration
may forget a work that is pending.  `actions_stop` says that these are all: in every run without such
steps `NULL` is never called, and no function after it was unregistered.
-/

import TsbAgent.Lib.DelayedWork
import TsbAgent.Lib.Libc
import TsbAgent.Lib.Run
import Mathlib.Data.Set.Insert

namespace TsbAgent
namespace Dmeasure
namespace Actions

open Libc Run DelayedWork

/-! ### The table -/

/-- The indices of `dm_action`. -/
inductive Index
  | sectionAction
  | syscallAction
  | idtAction
  | moduleAction
  | filesystemAction
  | netAction
deriving DecidableEq

/-- The names of the actions. -/
def Index.name : Index → Bytes
  -- "kernel_section"
  | .sectionAction => [107, 101, 114, 110, 101, 108, 95, 115, 101, 99, 116, 105, 111, 110]
  -- "syscall_table"
  | .syscallAction => [115, 121, 115, 99, 97, 108, 108, 95, 116, 97, 98, 108, 101]
  -- "idt_table"
  | .idtAction => [105, 100, 116, 95, 116, 97, 98, 108, 101]
  -- "module_list"
  | .moduleAction => [109, 111, 100, 117, 108, 101, 95, 108, 105, 115, 116]
  -- "filesystem"
  | .filesystemAction => [102, 105, 108, 101, 115, 121, 115, 116, 101, 109]
  -- "network"
  | .netAction => [110, 101, 116, 119, 111, 114, 107]

/-- The actions in the order of the table. -/
def indices : List Index :=
  [.sectionAction, .syscallAction, .idtAction, .moduleAction, .filesystemAction, .netAction]

/-- `struct dmeasure_node`. -/
structure DmeasureNode (φ : Type*) where
  name : CStr
  check : φ

/-- The name of the node begins with the name of the action. -/
def Index.Named {φ : Type*} (i : Index) (node : DmeasureNode φ) : Prop :=
  strncmp i.name.length i.name node.name.bytes = 0

instance {φ : Type*} (i : Index) (node : DmeasureNode φ) : Decidable (i.Named node) :=
  inferInstanceAs (Decidable (_ = _))

/-- Where a worker is in `dmeasure_actions`. -/
inductive Phase (φ : Type*)
  | begun
  | enabled
  | allowed
  | calling (f : φ)
  | out

/-- `struct dmeasure_action`; `gone` are the functions that were unregistered and not registered again. -/
structure DmeasureAction (φ : Type*) where
  inuse : Bool
  status : ℤ
  check : Option φ
  dwork : Work (Phase φ)
  gone : Set φ

/-- What the holder of `dmutex` does next. -/
inductive Holder
  | setUp (i : Index)
  | schedule (i : Index)
  | clear (i : Index)
deriving DecidableEq

/-- The table, `is_enabled`, `dmutex`, and whether `NULL` was called. -/
structure State (φ : Type*) where
  isEnabled : Bool
  dmAction : Index → DmeasureAction φ
  dmutex : Option Holder
  nullCalled : Bool

/-- The table before anything is registered. -/
def State.init {φ : Type*} (isEnabled : Bool) : State φ :=
  ⟨isEnabled, fun _ => ⟨false, 0, none, .fresh, ∅⟩, none, false⟩

/-- One action is changed. -/
def State.set {φ : Type*} (s : State φ) (i : Index) (a : DmeasureAction φ) : State φ :=
  { s with dmAction := Function.update s.dmAction i a }

/-! ### The statements -/

/-- What happens next: the configuration changes, a call takes the mutex, the holder of the mutex goes on, a
timer fires, a worker takes the work, or it goes on. -/
inductive Event (φ : Type*)
  | configure (isEnabled : Bool)
  | modify (name : CStr) (status : ℤ)
  | register (i : Index) (node : DmeasureNode φ)
  | unregister (i : Index) (node : DmeasureNode φ)
  | holder
  | fire (i : Index)
  | start (i : Index) (stray : Bool)
  | work (i : Index)

section Step

variable {φ : Type*} (grabs : Bool) (measureMode : Index → Bool)

/-- `modify_dmeasure_action`. -/
def modifyDmeasureAction (s : State φ) (name : CStr) (status : ℤ) : State φ :=
  match indices.find? fun i => strcmp i.name name.bytes = 0 with
  | none => s
  | some i => s.set i { s.dmAction i with status := status }

/-- `dmeasure_register_action` up to the function pointer. -/
def dmeasureRegisterAction (s : State φ) (i : Index) (node : DmeasureNode φ) : State φ :=
  if i.Named node then
    { s.set i { s.dmAction i with check := some node.check, gone := (s.dmAction i).gone \ {node.check} } with
      dmutex := some (.setUp i) }
  else s

/-- `dmeasure_unregister_action` up to the cancel. -/
def dmeasureUnregisterAction (s : State φ) (i : Index) (node : DmeasureNode φ) : State φ :=
  if i.Named node then
    let a := s.dmAction i
    { s.set i { a with dwork := if a.inuse then a.dwork.cancel grabs else a.dwork } with
      dmutex := some (.clear i) }
  else s

/-- The rest of a registration and of a removal, which returns 0. -/
def holderStep (s : State φ) : Holder → State φ
  | .setUp i =>
      { s.set i { s.dmAction i with dwork := (s.dmAction i).dwork.setUp } with dmutex := some (.schedule i) }
  | .schedule i =>
      { s.set i { s.dmAction i with inuse := true, dwork := (s.dmAction i).dwork.schedule } with dmutex := none }
  | .clear i =>
      let a := s.dmAction i
      { s.set i { a with check := none, gone := {f | a.check = some f} ∪ a.gone } with dmutex := none }

/-- A worker goes on to `p`. -/
def State.move (s : State φ) (i : Index) (p : Option (Phase φ)) : State φ :=
  s.set i { s.dmAction i with dwork := (s.dmAction i).dwork.move p }

/-- A statement of `dmeasure_actions`. -/
def dmeasureActions (s : State φ) (i : Index) : Phase φ → State φ
  | .begun => s.move i (some (if s.isEnabled then .enabled else .out))
  | .enabled =>
      s.move i (some (if (s.dmAction i).status % 2 = 1 ∧ measureMode i = false then .allowed else .out))
  | .allowed =>
      match (s.dmAction i).check with
      | some f => s.move i (some (.calling f))
      | none => { s.move i (some .out) with nullCalled := true }
  | .calling _ => s.move i (some .out)
  | .out => s.set i { s.dmAction i with dwork := ((s.dmAction i).dwork.schedule).move none }

/-- One event; `none` when it cannot happen. -/
def step (s : State φ) : Event φ → Option (State φ)
  | .configure isEnabled => some { s with isEnabled := isEnabled }
  | .modify name status => if s.dmutex.isSome then none else some (modifyDmeasureAction s name status)
  | .register i node => if s.dmutex.isSome then none else some (dmeasureRegisterAction s i node)
  | .unregister i node => if s.dmutex.isSome then none else some (dmeasureUnregisterAction grabs s i node)
  | .holder => s.dmutex.map (holderStep s)
  | .fire i => (s.dmAction i).dwork.fire.map fun w => s.set i { s.dmAction i with dwork := w }
  | .start i stray =>
      ((s.dmAction i).dwork.start .begun stray).map fun w => s.set i { s.dmAction i with dwork := w }
  | .work i => (s.dmAction i).dwork.running.map (dmeasureActions measureMode s i)

end Step

/-! ### What is claimed -/

/-- **The actions stop:** `NULL` was not called, and no worker is in a function that was unregistered. -/
structure Stopped {φ : Type*} (s : State φ) : Prop where
  notNull : s.nullCalled = false
  notCalled : ∀ i f, (s.dmAction i).dwork.running = some (.calling f) → f ∉ (s.dmAction i).gone

/-- A registration sets up no work that is pending, and a removal cancels no work that a worker has, nor one
that the cancel does not take back from the queue. -/
def Clean {φ : Type*} (grabs : Bool) (s : State φ) : Event φ → Prop
  | .unregister i node => i.Named node → (s.dmAction i).inuse = true →
      (s.dmAction i).dwork.running = none ∧ ((s.dmAction i).dwork.queue = .queued → grabs = true)
  | .holder => ∀ i, s.dmutex = some (.setUp i) → (s.dmAction i).dwork.queue = .idle
  | _ => True

/-! ### The invariant -/

section Invariant

variable {φ : Type*} {grabs : Bool} {measureMode : Index → Bool} {s s' : State φ} {i : Index}
  {a a' : DmeasureAction φ}

/-- An action without a function, or that was never scheduled, is quiet; no timer was left behind; and what
can be called was not unregistered. -/
structure DmeasureAction.Sound (a : DmeasureAction φ) : Prop where
  stray : a.dwork.stray = 0
  quiet : a.check = none ∨ a.inuse = false → a.dwork.Quiet
  live : ∀ f, a.check = some f → f ∉ a.gone
  calling : ∀ f, a.dwork.running = some (.calling f) → f ∉ a.gone

/-- A registration under way has set the function, a removal has made the action quiet. -/
def Holder.Ok (s : State φ) : Holder → Prop
  | .setUp i => (s.dmAction i).check ≠ none
  | .schedule i => (s.dmAction i).check ≠ none
  | .clear i => (s.dmAction i).dwork.Quiet

/-- What every clean step preserves. -/
structure Inv (s : State φ) : Prop where
  sound : ∀ i, (s.dmAction i).Sound
  holder : ∀ h, s.dmutex = some h → h.Ok s
  notNull : s.nullCalled = false

theorem Inv.stopped (h : Inv s) : Stopped s := ⟨h.notNull, fun i => (h.sound i).calling⟩

theorem inv_init (isEnabled : Bool) : Inv (State.init isEnabled : State φ) where
  sound _ :=
    { stray := rfl
      quiet := fun _ => quiet_fresh
      live := fun f hf => by cases hf
      calling := fun f hf => by cases hf }
  holder _ h := by cases h
  notNull := rfl

@[simp] theorem dmAction_set_self : (s.set i a).dmAction i = a := Function.update_self ..

theorem dmAction_set_of_ne {j : Index} (h : j ≠ i) : (s.set i a).dmAction j = s.dmAction j :=
  Function.update_of_ne h ..

/-- Changing one action keeps the others sound. -/
theorem sound_set (h : Inv s) (ha : a.Sound) : ∀ j, ((s.set i a).dmAction j).Sound := by
  intro j
  rcases eq_or_ne j i with rfl | hj
  · rw [dmAction_set_self]
    exact ha
  · rw [dmAction_set_of_ne hj]
    exact h.sound j

/-- What the holder of the mutex relies on stays, when the action keeps its function and stays quiet. -/
theorem Holder.Ok.set {h : Holder} (hok : h.Ok s) (hcheck : a.check = (s.dmAction i).check)
    (hquiet : (s.dmAction i).dwork.Quiet → a.dwork.Quiet) : h.Ok (s.set i a) := by
  have hsame (j : Index) : ((s.set i a).dmAction j).check = (s.dmAction j).check := by
    rcases eq_or_ne j i with rfl | hj
    · rw [dmAction_set_self, hcheck]
    · rw [dmAction_set_of_ne hj]
  cases h with
  | setUp j => exact fun hnone => hok ((hsame j).symm.trans hnone)
  | schedule j => exact fun hnone => hok ((hsame j).symm.trans hnone)
  | clear j =>
      show ((s.set i a).dmAction j).dwork.Quiet
      rcases eq_or_ne j i with rfl | hj
      · rw [dmAction_set_self]
        exact hquiet hok
      · rw [dmAction_set_of_ne hj]
        exact hok

/-- A step of one action that leaves its function alone. -/
theorem Inv.set (h : Inv s) (ha : a.Sound) (hcheck : a.check = (s.dmAction i).check)
    (hquiet : (s.dmAction i).dwork.Quiet → a.dwork.Quiet) : Inv (s.set i a) where
  sound := sound_set h ha
  holder d hd := (h.holder d hd).set hcheck hquiet
  notNull := h.notNull

/-- A step of the holder of the mutex. -/
theorem Inv.hold (h : Inv s) (ha : a.Sound) {d : Option Holder} (hd : ∀ k, d = some k → k.Ok (s.set i a)) :
    Inv { s.set i a with dmutex := d } where
  sound := sound_set h ha
  holder k hk := by
    have hok := hd k hk
    cases k with
    | setUp j => exact hok
    | schedule j => exact hok
    | clear j => exact hok
  notNull := h.notNull

/-- A worker moves on. -/
theorem DmeasureAction.Sound.move (ha : a.Sound) {p : Phase φ} (hp : a.dwork.running = some p)
    {q : Option (Phase φ)} (hq : ∀ f, q = some (.calling f) → f ∉ a.gone) :
    DmeasureAction.Sound { a with dwork := a.dwork.move q } where
  stray := ha.stray
  quiet hor := absurd (hp.symm.trans (ha.quiet hor).running) (by simp)
  live := ha.live
  calling := hq

/-- **A statement of the work:** a function is there when it is called. -/
theorem Inv.work (h : Inv s) {p : Phase φ} (hp : (s.dmAction i).dwork.running = some p) :
    Inv (dmeasureActions measureMode s i p) := by
  have ha := h.sound i
  have hnot : ¬ (s.dmAction i).dwork.Quiet := fun hq => absurd (hp.symm.trans hq.running) (by simp)
  have hmove (q : Option (Phase φ)) (hq : ∀ f, q = some (.calling f) → f ∉ (s.dmAction i).gone) :
      Inv (s.move i q) :=
    h.set (ha.move hp hq) rfl fun hquiet => absurd hquiet hnot
  cases p with
  | begun =>
      refine hmove _ fun f hf => ?_
      split_ifs at hf
      · cases hf
      · cases hf
  | enabled =>
      refine hmove _ fun f hf => ?_
      split_ifs at hf
      · cases hf
      · cases hf
  | allowed =>
      rw [dmeasureActions]
      split
      · next f hf =>
          refine hmove _ fun g hg => ?_
          obtain rfl : f = g := by
            cases hg
            rfl
          exact ha.live f hf
      · next hnone => exact absurd (ha.quiet (.inl hnone)) hnot
  | calling f => exact hmove _ fun g hg => by cases hg
  | out =>
      refine h.set ⟨?_, fun hor => absurd (ha.quiet hor) hnot, ha.live, fun f hf => by cases hf⟩ rfl
        fun hquiet => absurd hquiet hnot
      exact stray_schedule.trans ha.stray

/-- **A registration:** the new function is no longer gone, and no worker is in it. -/
theorem Inv.register (h : Inv s) (node : DmeasureNode φ) : Inv (dmeasureRegisterAction s i node) := by
  rw [dmeasureRegisterAction]
  rcases em (i.Named node) with hn | hn
  swap
  · rw [if_neg hn]
    exact h
  rw [if_pos hn]
  have ha := h.sound i
  refine h.hold ?_ fun k hk => ?_
  · refine ⟨ha.stray, fun hor => ?_, fun f hf hgone => ?_, fun f hf hgone => ?_⟩
    · exact ha.quiet (hor.imp_left fun hnone => by cases hnone)
    · obtain rfl := Option.some.inj hf
      exact hgone.2 rfl
    · exact ha.calling f hf hgone.1
  · obtain rfl := Option.some.inj hk
    show ((s.set i _).dmAction i).check ≠ none
    rw [dmAction_set_self]
    exact Option.some_ne_none _

/-- **A removal:** after a clean cancel the action is quiet. -/
theorem Inv.unregister (h : Inv s) {node : DmeasureNode φ} (hclean : Clean grabs s (.unregister i node)) :
    Inv (dmeasureUnregisterAction grabs s i node) := by
  rw [dmeasureUnregisterAction]
  rcases em (i.Named node) with hn | hn
  swap
  · rw [if_neg hn]
    exact h
  rw [if_pos hn]
  have ha := h.sound i
  have hquiet : Work.Quiet
      (if (s.dmAction i).inuse then (s.dmAction i).dwork.cancel grabs else (s.dmAction i).dwork) := by
    cases hin : (s.dmAction i).inuse with
    | false =>
        rw [if_neg Bool.false_ne_true]
        exact ha.quiet (.inr hin)
    | true =>
        rw [if_pos rfl, quiet_cancel_iff]
        obtain ⟨hrunning, hqueued⟩ := hclean hn hin
        exact ⟨hrunning, ha.stray, hqueued⟩
  refine h.hold ?_ fun k hk => ?_
  · refine ⟨hquiet.stray, fun _ => hquiet, ha.live, fun f hf => ?_⟩
    exact absurd (hf.symm.trans hquiet.running) (by simp)
  · obtain rfl := Option.some.inj hk
    show ((s.set i _).dmAction i).dwork.Quiet
    rw [dmAction_set_self]
    exact hquiet

/-- **The rest of a registration and of a removal.** -/
theorem Inv.holderStep (h : Inv s) {d : Holder} (hd : s.dmutex = some d) (hclean : Clean grabs s .holder) :
    Inv (holderStep s d) := by
  have hok := h.holder d hd
  cases d with
  | setUp i =>
      have ha := h.sound i
      have hstray := stray_setUp (hclean i hd)
      refine h.hold ?_ fun k hk => ?_
      · refine ⟨hstray.trans ha.stray, fun hor => ?_, ha.live, ha.calling⟩
        have hq := ha.quiet hor
        exact ⟨rfl, hstray.trans hq.stray, hq.running⟩
      · obtain rfl := Option.some.inj hk
        show ((s.set i _).dmAction i).check ≠ none
        rw [dmAction_set_self]
        exact hok
  | schedule i =>
      have ha := h.sound i
      refine h.hold ?_ fun k hk => by cases hk
      refine ⟨stray_schedule.trans ha.stray, fun hor => ?_, ha.live, fun f hf => ?_⟩
      · rcases hor with hnone | hin
        · exact absurd hnone hok
        · cases hin
      · exact ha.calling f (running_schedule.symm.trans hf)
  | clear i =>
      have ha := h.sound i
      refine h.hold ?_ fun k hk => by cases hk
      refine ⟨ha.stray, fun _ => hok, fun f hf => ?_, fun f hf => ?_⟩
      · cases hf
      · exact absurd (hf.symm.trans hok.running) (by simp)

/-- A policy changes the status only. -/
theorem Inv.modify (h : Inv s) (name : CStr) (status : ℤ) : Inv (modifyDmeasureAction s name status) := by
  rw [modifyDmeasureAction]
  split
  · exact h
  · next i _ =>
      have ha := h.sound i
      refine h.set ?_ rfl id
      exact ⟨ha.stray, ha.quiet, ha.live, ha.calling⟩

/-- **Every clean step keeps the invariant.** -/
theorem Inv.step {e : Event φ} (h : Inv s) (hclean : Clean grabs s e)
    (hstep : step grabs measureMode s e = some s') : Inv s' := by
  cases e with
  | configure isEnabled =>
      obtain rfl := Option.some.inj hstep
      refine ⟨h.sound, fun d hd => ?_, h.notNull⟩
      have hok := h.holder d hd
      cases d with
      | setUp i => exact hok
      | schedule i => exact hok
      | clear i => exact hok
  | modify name status =>
      rw [Actions.step] at hstep
      split_ifs at hstep
      obtain rfl := Option.some.inj hstep
      exact h.modify name status
  | register i node =>
      rw [Actions.step] at hstep
      split_ifs at hstep
      obtain rfl := Option.some.inj hstep
      exact h.register node
  | unregister i node =>
      rw [Actions.step] at hstep
      split_ifs at hstep
      obtain rfl := Option.some.inj hstep
      exact h.unregister hclean
  | holder =>
      obtain ⟨d, hd, rfl⟩ := Option.map_eq_some_iff.mp hstep
      exact h.holderStep hd hclean
  | fire i =>
      obtain ⟨w, hw, rfl⟩ := Option.map_eq_some_iff.mp hstep
      have ha := h.sound i
      have hnot : ¬ (s.dmAction i).dwork.Quiet := fun hq => absurd (hw.symm.trans hq.not_fire) (by simp)
      obtain ⟨hrunning, hstray⟩ := fire_eq hw
      refine h.set ⟨hstray.trans ha.stray, fun hor => absurd (ha.quiet hor) hnot, ha.live, fun f hf => ?_⟩ rfl
        fun hq => absurd hq hnot
      exact ha.calling f (hrunning.symm.trans hf)
  | start i stray =>
      obtain ⟨w, hw, rfl⟩ := Option.map_eq_some_iff.mp hstep
      have ha := h.sound i
      have hnot : ¬ (s.dmAction i).dwork.Quiet := fun hq => absurd (hw.symm.trans (hq.not_start stray)) (by simp)
      obtain ⟨-, hrunning, hstray⟩ := start_eq hw
      refine h.set ⟨?_, fun hor => absurd (ha.quiet hor) hnot, ha.live, fun f hf => ?_⟩ rfl
        fun hq => absurd hq hnot
      · exact Nat.le_zero.mp (hstray.trans ha.stray.le)
      · cases hrunning.symm.trans hf
  | work i =>
      obtain ⟨p, hp, rfl⟩ := Option.map_eq_some_iff.mp hstep
      exact h.work hp

end Invariant

/-- **Actions stop when they are unregistered,** in every state of every run whose removals find no worker
and whose registrations find nothing pending. -/
theorem actions_stop {φ : Type*} (grabs : Bool) (measureMode : Index → Bool) (isEnabled : Bool)
    (events : List (Event φ)) (s : State φ)
    (hclean : Meets (step grabs measureMode) (Clean grabs) (State.init isEnabled) events)
    (hrun : run (step grabs measureMode) (State.init isEnabled) events = some s) : Stopped s :=
  (run_invariant (fun _ _ _ h hclean hstep => h.step hclean hstep) (inv_init isEnabled) hclean hrun).stopped

/-- A node for the kernel sections. -/
def sectionNode : DmeasureNode ℕ := ⟨⟨Index.sectionAction.name, by decide⟩, 7⟩

/-- It is registered, switched on, and a worker takes it. -/
def startSection : List (Event ℕ) :=
  [.register .sectionAction sectionNode, .holder, .holder, .modify sectionNode.name 1, .fire .sectionAction,
    .start .sectionAction false]

/-- The worker comes to the function and calls it. -/
def callSection : List (Event ℕ) := [.work .sectionAction, .work .sectionAction, .work .sectionAction]

/-- The function returns, and the work is scheduled again. -/
def returnSection : List (Event ℕ) := [.work .sectionAction, .work .sectionAction]

/-- It is unregistered. -/
def stopSection : List (Event ℕ) := [.unregister .sectionAction sectionNode, .holder]

theorem actions_stop_section : ∃ s, run (step true fun _ => false) (State.init true)
    (startSection ++ callSection ++ returnSection ++ stopSection) = some s ∧ Stopped s := by
  have hclean : Meets (step true fun _ => false) (Clean true) (State.init true)
      (startSection ++ callSection ++ returnSection ++ stopSection) := by
    refine meets_cons_of_step trivial rfl ?_
    refine meets_cons_of_step (fun i hi => ?_) rfl ?_
    · cases hi
      rfl
    refine meets_cons_of_step (fun i hi => by cases hi) rfl ?_
    refine meets_cons_of_step trivial rfl (meets_cons_of_step trivial rfl (meets_cons_of_step trivial rfl ?_))
    refine meets_cons_of_step trivial rfl (meets_cons_of_step trivial rfl (meets_cons_of_step trivial rfl ?_))
    refine meets_cons_of_step trivial rfl (meets_cons_of_step trivial rfl ?_)
    refine meets_cons_of_step (fun _ _ => ⟨rfl, fun hq => by cases hq⟩) rfl ?_
    exact meets_cons_of_step (fun i hi => by cases hi) rfl trivial
  obtain ⟨s, hs⟩ : ∃ s, run (step true fun _ => false) (State.init true)
      (startSection ++ callSection ++ returnSection ++ stopSection) = some s := ⟨_, rfl⟩
  exact ⟨s, hs, actions_stop _ _ _ _ _ hclean hs⟩

/-- **Unregistered while it runs:** the function runs on, and the next round of the work calls `NULL`. -/
theorem unregistered_while_running :
    (∃ s, run (step true fun _ => false) (State.init true) (startSection ++ callSection ++ stopSection) = some s ∧
      (s.dmAction .sectionAction).dwork.running = some (.calling 7) ∧ 7 ∈ (s.dmAction .sectionAction).gone) ∧
    ∃ s, run (step true fun _ => false) (State.init true)
      (startSection ++ callSection ++ stopSection ++ returnSection ++
        [.fire .sectionAction, .start .sectionAction false] ++ callSection) = some s ∧ s.nullCalled = true :=
  ⟨⟨_, rfl, rfl, .inl rfl⟩, ⟨_, rfl, rfl⟩⟩

end Actions
end Dmeasure
end TsbAgent
