/-
# Registering and dispatching ioctl commands

`tsb/kernel/platform/msg/ioctl.c`.  A module registers a function for a command and
unregisters it before it is unloaded; `httcsec_miscdev_ioctl` calls the function of the
command it is given.  The table is written under a spinlock and read without it; what
keeps an unregistered function from being called is the use count of its command:

| thread | steps |
| --- | --- |
| dispatch | `enter`: `atomic_inc`; `read` of the table; the call, until `finish`; `leave`: `atomic_dec` |
| register | `register`: one section under the lock |
| unregister | `unregister`: one section under the lock; `wait` while the count is above 0; `returns` |

A dispatch counts itself before it reads the table, and unregistering clears the table
before it reads the count.  So a dispatch that has read the old function is counted when
the count is read, and one that is not yet counted reads the table after it was cleared
(`unregister_safe`).  The counts are numbers of threads, so `atomic_t` does not overflow.
-/

import TsbAgent.Basic
import TsbAgent.Lib.Run
import TsbAgent.Lib.Tally

namespace TsbAgent
namespace IoCommand

open Run Tally

def maxCommandNr : ℕ := 256
def httcsecMiscDeviceType : UInt32 := 0xAF
def eperm : ℤ := 1
def enotty : ℤ := 25

/-- `_IOC_NR`. -/
def iocNr (cmd : UInt32) : ℕ := (cmd &&& 0xff).toNat

/-- `_IOC_TYPE`. -/
def iocType (cmd : UInt32) : UInt32 := (cmd >>> 8) &&& 0xff

/-- Where a thread is: outside, with what its last call returned, in a dispatch before and
after it has read the table, and after the call; or waiting in `httcsec_io_command_unregister`. -/
inductive Proc (φ : Type*)
  | user (ret : Option ℤ)
  | counted (nr : ℕ)
  | running (nr : ℕ) (func : φ)
  | leaving (nr : ℕ) (r : ℤ)
  | waiting (nr : ℕ)

/-- The command whose use count a thread holds. -/
def Proc.uses {φ : Type*} : Proc φ → Option ℕ
  | .counted nr => some nr
  | .running nr _ => some nr
  | .leaving nr _ => some nr
  | _ => none

/-- `cmd_array`, `cmd_ref_nums` and the threads; a null function is `none`. -/
structure State (θ φ : Type*) where
  cmdArray : ℕ → Option φ
  cmdRefNums : ℕ → ℤ
  procs : θ → Proc φ

/-- A step of a thread; `r` is what a lock section, or the function called, returns. -/
inductive Act (θ φ : Type*)
  | enter (t : θ) (cmd : UInt32)
  | read (t : θ)
  | finish (t : θ) (r : ℤ)
  | leave (t : θ)
  | register (t : θ) (nr : ℤ) (func : Option φ) (r : ℤ)
  | unregister (t : θ) (nr : ℤ) (func : Option φ) (r : ℤ)
  | wait (t : θ)
  | returns (t : θ)

variable {θ φ : Type*} [DecidableEq θ]

def Act.thread : Act θ φ → θ
  | .enter t _ | .read t | .finish t _ | .leave t => t
  | .register t _ _ _ | .unregister t _ _ _ | .wait t | .returns t => t

def State.init : State θ φ := ⟨fun _ => none, fun _ => 0, fun _ => .user none⟩

def State.to (s : State θ φ) (t : θ) (pr : Proc φ) : State θ φ :=
  { s with procs := Function.update s.procs t pr }

/-- A thread moves and adds `d` to the use count of a command. -/
def State.count (s : State θ φ) (t : θ) (pr : Proc φ) (nr : ℕ) (d : ℤ) : State θ φ :=
  { s.to t pr with cmdRefNums := Function.update s.cmdRefNums nr (s.cmdRefNums nr + d) }

/-- A thread moves and writes the table. -/
def State.store (s : State θ φ) (t : θ) (pr : Proc φ) (nr : ℕ) (func : Option φ) : State θ φ :=
  { s.to t pr with cmdArray := Function.update s.cmdArray nr func }

/-- A dispatch up to its `atomic_inc`. -/
def enter (s : State θ φ) (t : θ) (cmd : UInt32) : State θ φ :=
  if iocType cmd = httcsecMiscDeviceType then
    if iocNr cmd < maxCommandNr then s.count t (.counted (iocNr cmd)) (iocNr cmd) 1
    else s.to t (.user (some (-enotty)))
  else s.to t (.user (some (-enotty)))

/-- What a dispatch does with the function it has read. -/
def afterRead (nr : ℕ) : Option φ → Proc φ
  | some func => .running nr func
  | none => .leaving nr (-enotty)

/-- The result of the section of `httcsec_io_command_register`. -/
def registerRet (s : State θ φ) (nr : ℤ) : ℤ :=
  if nr < 0 ∨ nr ≥ maxCommandNr ∨ (s.cmdArray nr.toNat).isSome then -eperm else 0

/-- The result of the section of `httcsec_io_command_unregister`. -/
def unregisterRet [DecidableEq φ] (s : State θ φ) (nr : ℤ) (func : Option φ) : ℤ :=
  if func = s.cmdArray nr.toNat then 0 else -eperm

/-- One step.  `httcsec_io_command_unregister` does not check `nr`; its callers pass commands. -/
def step [DecidableEq φ] (s : State θ φ) : Act θ φ → Option (State θ φ)
  | .enter t cmd =>
      match s.procs t with
      | .user _ => some (enter s t cmd)
      | _ => none
  | .read t =>
      match s.procs t with
      | .counted nr => some (s.to t (afterRead nr (s.cmdArray nr)))
      | _ => none
  | .finish t r =>
      match s.procs t with
      | .running nr _ => some (s.to t (.leaving nr r))
      | _ => none
  | .leave t =>
      match s.procs t with
      | .leaving nr r => some (s.count t (.user (some r)) nr (-1))
      | _ => none
  | .register t nr func r =>
      match s.procs t with
      | .user _ =>
          if registerRet s nr ≠ r then none
          else if r = 0 then some (s.store t (.user (some r)) nr.toNat func)
          else some (s.to t (.user (some r)))
      | _ => none
  | .unregister t nr func r =>
      match s.procs t with
      | .user _ =>
          if nr < 0 ∨ nr ≥ maxCommandNr ∨ unregisterRet s nr func ≠ r then none
          else if r = 0 then some (s.store t (.waiting nr.toNat) nr.toNat none)
          else some (s.to t (.user (some r)))
      | _ => none
  | .wait t =>
      match s.procs t with
      | .waiting nr => if s.cmdRefNums nr > 0 then some s else none
      | _ => none
  | .returns t =>
      match s.procs t with
      | .waiting nr => if s.cmdRefNums nr > 0 then none else some (s.to t (.user (some 0)))
      | _ => none

/-- A dispatch begins: it takes a use count. -/
def Act.begins (t : θ) : Act θ φ → Bool
  | .enter t' cmd => t' = t && iocType cmd = httcsecMiscDeviceType
  | _ => false

/-- A dispatch gives its use count back. -/
def Act.releases (t : θ) : Act θ φ → Bool
  | .leave t' => t' = t
  | _ => false

/-- The use counts are the dispatches under way, and each dispatch gives its own back once. -/
structure UseCounts (as : List (Act θ φ)) (s : State θ φ) : Prop where
  refs : ∀ nr, s.cmdRefNums nr = tally (fun pr : Proc φ => pr.uses = some nr) s.procs
  released : ∀ t, as.countP (Act.begins t) =
    as.countP (Act.releases t) + if (s.procs t).uses.isSome then 1 else 0

/-! ### What a step does -/

section Steps

variable {s s' : State θ φ}

theorem iocNr_lt (cmd : UInt32) : iocNr cmd < maxCommandNr := by
  rw [iocNr, UInt32.toNat_and]
  exact Nat.lt_succ_of_le Nat.and_le_right

/-- **What a step does:** a thread moves within its call, takes or gives back a use count, or
writes the table. -/
inductive Moves (s : State θ φ) : Act θ φ → State θ φ → Prop
  | enter {t : θ} {ret : Option ℤ} {cmd : UInt32} (hp : s.procs t = .user ret)
      (hcmd : iocType cmd = httcsecMiscDeviceType) :
      Moves s (.enter t cmd) (s.count t (.counted (iocNr cmd)) (iocNr cmd) 1)
  | refuse {t : θ} {ret : Option ℤ} {cmd : UInt32} (hp : s.procs t = .user ret)
      (hcmd : iocType cmd ≠ httcsecMiscDeviceType) :
      Moves s (.enter t cmd) (s.to t (.user (some (-enotty))))
  | read {t : θ} {nr : ℕ} (hp : s.procs t = .counted nr) :
      Moves s (.read t) (s.to t (afterRead nr (s.cmdArray nr)))
  | finish {t : θ} {nr : ℕ} {func : φ} {r : ℤ} (hp : s.procs t = .running nr func) :
      Moves s (.finish t r) (s.to t (.leaving nr r))
  | leave {t : θ} {nr : ℕ} {r : ℤ} (hp : s.procs t = .leaving nr r) :
      Moves s (.leave t) (s.count t (.user (some r)) nr (-1))
  | register {t : θ} {ret : Option ℤ} {func : Option φ} {nr : ℕ} (hp : s.procs t = .user ret) :
      Moves s (.register t nr func 0) (s.store t (.user (some 0)) nr func)
  | unregister {t : θ} {ret : Option ℤ} {func : Option φ} {nr : ℕ} (hp : s.procs t = .user ret) :
      Moves s (.unregister t nr func 0) (s.store t (.waiting nr) nr none)
  | fail {t : θ} {ret : Option ℤ} {r : ℤ} {a : Act θ φ} (hp : s.procs t = .user ret)
      (ha : ∃ nr func, a = .register t nr func r ∨ a = .unregister t nr func r) (hr : r ≠ 0) :
      Moves s a (s.to t (.user (some r)))
  | wait {t : θ} {nr : ℕ} (hp : s.procs t = .waiting nr) (href : s.cmdRefNums nr > 0) : Moves s (.wait t) s
  | returns {t : θ} {nr : ℕ} (hp : s.procs t = .waiting nr) (href : ¬ s.cmdRefNums nr > 0) :
      Moves s (.returns t) (s.to t (.user (some 0)))

theorem moves_of_step [DecidableEq φ] {a : Act θ φ} (h : step s a = some s') : Moves s a s' := by
  cases a with
  | enter t cmd =>
      cases hp : s.procs t with
      | user ret =>
          obtain rfl : enter s t cmd = s' := by simpa [step, hp] using h
          by_cases hcmd : iocType cmd = httcsecMiscDeviceType
          · rw [enter, if_pos hcmd, if_pos (iocNr_lt cmd)]
            exact .enter hp hcmd
          · rw [enter, if_neg hcmd]
            exact .refuse hp hcmd
      | _ => simp [step, hp] at h
  | read t =>
      cases hp : s.procs t with
      | counted nr =>
          obtain rfl : s.to t (afterRead nr (s.cmdArray nr)) = s' := by simpa [step, hp] using h
          exact .read hp
      | _ => simp [step, hp] at h
  | finish t r =>
      cases hp : s.procs t with
      | running nr func =>
          obtain rfl : s.to t (.leaving nr r) = s' := by simpa [step, hp] using h
          exact .finish hp
      | _ => simp [step, hp] at h
  | leave t =>
      cases hp : s.procs t with
      | leaving nr r =>
          obtain rfl : s.count t (.user (some r)) nr (-1) = s' := by simpa [step, hp] using h
          exact .leave hp
      | _ => simp [step, hp] at h
  | register t nr func r =>
      cases hp : s.procs t with
      | user ret =>
          simp only [step, hp] at h
          split at h
          · cases h
          · rename_i hret
            split at h
            · rename_i hr
              subst hr
              obtain rfl := Option.some.inj h
              rw [not_not, registerRet] at hret
              have hnr : 0 ≤ nr := by
                by_contra hneg
                rw [if_pos (.inl (not_le.mp hneg))] at hret
                exact absurd hret (by decide)
              obtain ⟨n, rfl⟩ := Int.eq_ofNat_of_zero_le hnr
              exact .register hp
            · rename_i hr
              obtain rfl := Option.some.inj h
              exact .fail hp ⟨nr, func, .inl rfl⟩ hr
      | _ => simp [step, hp] at h
  | unregister t nr func r =>
      cases hp : s.procs t with
      | user ret =>
          simp only [step, hp] at h
          split at h
          · cases h
          · rename_i hret
            split at h
            · rename_i hr
              subst hr
              obtain rfl := Option.some.inj h
              have hnr : 0 ≤ nr := not_lt.mp fun hneg => hret (.inl hneg)
              obtain ⟨n, rfl⟩ := Int.eq_ofNat_of_zero_le hnr
              exact .unregister hp
            · rename_i hr
              obtain rfl := Option.some.inj h
              exact .fail hp ⟨nr, func, .inr rfl⟩ hr
      | _ => simp [step, hp] at h
  | wait t =>
      cases hp : s.procs t with
      | waiting nr =>
          simp only [step, hp] at h
          split at h
          · obtain rfl := Option.some.inj h
            exact .wait hp ‹_›
          · cases h
      | _ => simp [step, hp] at h
  | returns t =>
      cases hp : s.procs t with
      | waiting nr =>
          simp only [step, hp] at h
          split at h
          · cases h
          · obtain rfl := Option.some.inj h
            exact .returns hp ‹_›
      | _ => simp [step, hp] at h

/-- Other threads stay where they are. -/
theorem Moves.procs_of_ne {a : Act θ φ} (h : Moves s a s') {t : θ} (ht : a.thread ≠ t) :
    s'.procs t = s.procs t := by
  cases h with
  | fail hp ha hr =>
      obtain ⟨nr, func, rfl | rfl⟩ := ha <;> exact Function.update_of_ne (Ne.symm ht) ..
  | wait hp href => rfl
  | _ => exact Function.update_of_ne (Ne.symm ht) ..

end Steps

/-! ### The use counts -/

section Counts

variable {s s' : State θ φ} {t : θ} {nr : ℕ} {pr : Proc φ} {a : Act θ φ} {as : List (Act θ φ)}

/-- The invariant of the use counts. -/
structure Counted (s : State θ φ) : Prop where
  bounded : ∀ nr, Bounded (fun pr : Proc φ => pr.uses = some nr) s.procs
  refs : ∀ nr, s.cmdRefNums nr = tally (fun pr : Proc φ => pr.uses = some nr) s.procs

theorem counted_init {θ φ : Type*} : Counted (State.init : State θ φ) := by
  have hnone : ∀ nr t, ¬ ((State.init : State θ φ).procs t).uses = some nr := fun nr t h => by cases h
  constructor
  · exact fun nr => bounded_of_forall_not (hnone nr)
  · intro nr
    have hbounded : Bounded (fun pr : Proc φ => pr.uses = some nr) (State.init : State θ φ).procs :=
      bounded_of_forall_not (hnone nr)
    rw [(tally_eq_zero hbounded).mpr (hnone nr)]
    rfl

/-- The users of a command after a move of one thread. -/
theorem Counted.tally_to (h : Counted s) (t : θ) (pr : Proc φ) (nr : ℕ) :
    (tally (fun pr : Proc φ => pr.uses = some nr) (s.to t pr).procs : ℤ) +
        (if (s.procs t).uses = some nr then 1 else 0) =
      s.cmdRefNums nr + (if pr.uses = some nr then 1 else 0) := by
  have hupd := tally_update (h.bounded nr) t pr
  have href := h.refs nr
  simp only [State.to]
  split_ifs at hupd ⊢ <;> omega

/-- A thread moves without a change of what it uses. -/
theorem Counted.to (h : Counted s) (huses : pr.uses = (s.procs t).uses) : Counted (s.to t pr) where
  bounded nr := (h.bounded nr).update t pr
  refs nr := by
    have htally := h.tally_to t pr nr
    rw [huses] at htally
    exact (add_right_cancel htally).symm

/-- A store into the table does not matter to the counts. -/
theorem Counted.store (h : Counted s) (huses : pr.uses = (s.procs t).uses) {func : Option φ} :
    Counted (s.store t pr nr func) :=
  ⟨(h.to huses).bounded, (h.to huses).refs⟩

/-- A thread adds to a count what it uses more of that command than before. -/
theorem Counted.count (h : Counted s) {d : ℤ}
    (hd : ∀ n, (if pr.uses = some n then 1 else 0) =
      (if (s.procs t).uses = some n then 1 else 0) + if n = nr then d else 0) :
    Counted (s.count t pr nr d) where
  bounded n := (h.bounded n).update t pr
  refs n := by
    have htally := h.tally_to t pr n
    have hn := hd n
    simp only [State.count, Function.update_apply]
    split_ifs at hn htally ⊢ with hnr <;> subst_vars <;> omega

theorem Moves.counted (hmove : Moves s a s') (h : Counted s) : Counted s' := by
  cases hmove with
  | enter hp hcmd => exact h.count fun n => by rw [hp]; simp [Proc.uses, eq_comm]
  | refuse hp hcmd => exact h.to (by rw [hp]; rfl)
  | @read t nr hp =>
      refine h.to ?_
      rw [hp]
      cases s.cmdArray nr <;> rfl
  | finish hp => exact h.to (by rw [hp]; rfl)
  | leave hp =>
      refine h.count fun n => ?_
      rw [hp]
      simp only [Proc.uses, reduceCtorEq, ↓reduceIte, Option.some.injEq, eq_comm (a := n)]
      split_ifs <;> rfl
  | register hp => exact h.store (by rw [hp]; rfl)
  | unregister hp => exact h.store (by rw [hp]; rfl)
  | fail hp ha hr => exact h.to (by rw [hp]; rfl)
  | wait hp href => exact h
  | returns hp href => exact h.to (by rw [hp]; rfl)

/-- A thread is in a dispatch. -/
def inside (s : State θ φ) (t : θ) : ℕ := if (s.procs t).uses.isSome then 1 else 0

@[simp] theorem inside_to (s : State θ φ) (t : θ) (pr : Proc φ) :
    inside (s.to t pr) t = if pr.uses.isSome then 1 else 0 := by
  simp [inside, State.to]

@[simp] theorem inside_count (s : State θ φ) (t : θ) (pr : Proc φ) (nr : ℕ) (d : ℤ) :
    inside (s.count t pr nr d) t = if pr.uses.isSome then 1 else 0 := inside_to s t pr

@[simp] theorem inside_store (s : State θ φ) (t : θ) (pr : Proc φ) (nr : ℕ) (func : Option φ) :
    inside (s.store t pr nr func) t = if pr.uses.isSome then 1 else 0 := inside_to s t pr

omit [DecidableEq θ] in
theorem inside_of_procs (hp : s.procs t = pr) : inside s t = if pr.uses.isSome then 1 else 0 := by
  rw [inside, hp]

/-- **A step of a thread begins a dispatch, gives its use count back, or leaves it in or out.** -/
theorem Moves.inside (hmove : Moves s a s') (t : θ) :
    (if Act.begins t a then 1 else 0) + inside s t = (if Act.releases t a then 1 else 0) + inside s' t := by
  by_cases ht : a.thread = t
  · subst ht
    cases hmove with
    | enter hp hcmd => simp [Act.begins, Act.releases, Act.thread, inside_of_procs hp, hcmd, Proc.uses]
    | refuse hp hcmd => simp [Act.begins, Act.releases, Act.thread, inside_of_procs hp, hcmd, Proc.uses]
    | @read t nr hp =>
        cases hfunc : s.cmdArray nr <;>
          simp [Act.begins, Act.releases, Act.thread, inside_of_procs hp, Proc.uses, afterRead]
    | fail hp ha hr =>
        obtain ⟨nr, func, rfl | rfl⟩ := ha <;>
          simp [Act.begins, Act.releases, Act.thread, inside_of_procs hp, Proc.uses]
    | wait hp href => simp [Act.begins, Act.releases]
    | _ hp => simp [Act.begins, Act.releases, Act.thread, inside_of_procs hp, Proc.uses]
  · have hin : IoCommand.inside s' t = IoCommand.inside s t := by
      rw [IoCommand.inside, IoCommand.inside, hmove.procs_of_ne ht]
    have hbegin : Act.begins t a = false := by
      cases a <;> simp_all [Act.begins, Act.thread]
    have hrelease : Act.releases t a = false := by
      cases a <;> simp_all [Act.releases, Act.thread]
    rw [hin, hbegin, hrelease]

theorem released_run [DecidableEq φ] (hrun : run step s as = some s') (t : θ) :
    as.countP (Act.begins t) + inside s t = as.countP (Act.releases t) + inside s' t := by
  induction as generalizing s with
  | nil =>
      obtain rfl := Option.some.inj hrun
      rfl
  | cons a as ih =>
      rw [run_cons] at hrun
      obtain ⟨s₁, h₁, h₂⟩ := Option.bind_eq_some_iff.mp hrun
      have hmove := (moves_of_step h₁).inside t
      have hrest := ih h₂
      rw [List.countP_cons, List.countP_cons]
      omega

theorem useCounts_run [DecidableEq φ] (hrun : run step State.init as = some s) : UseCounts as s where
  refs nr :=
    (run_preserves (fun _ _ _ h hs => (moves_of_step hs).counted h) counted_init hrun).refs nr
  released t := (Nat.add_zero _).symm.trans (released_run hrun t)

end Counts

/-! ### What an unregistered function is safe from -/

section Safety

variable {s s' : State θ φ} {t : θ} {nr : ℕ} {f : φ} {a : Act θ φ} {as bs : List (Act θ φ)}

/-- The step does not register the function for the command. -/
def NotAnew (nr : ℕ) (f : φ) (a : Act θ φ) : Prop := ∀ t, a ≠ .register t nr (some f) 0

/-- No dispatch of the command has the function or can read it. -/
def Gone (nr : ℕ) (f : φ) (s : State θ φ) : Prop :=
  s.cmdArray nr ≠ some f ∧ ∀ t, s.procs t ≠ .running nr f

omit [DecidableEq θ] in
theorem Act.thread_eq_of_fail {r : ℤ}
    (ha : ∃ nr func, a = .register t nr func r ∨ a = .unregister t nr func r) : a.thread = t := by
  obtain ⟨nr, func, rfl | rfl⟩ := ha <;> rfl

/-- The table has the function only where it had it or it is registered. -/
theorem Moves.cleared (hmove : Moves s a s') (h : s.cmdArray nr ≠ some f) (ha : NotAnew nr f a) :
    s'.cmdArray nr ≠ some f := by
  cases hmove with
  | @register t ret func n hp =>
      simp only [State.store, Function.update_apply]
      split
      · rename_i hn
        subst hn
        intro hfunc
        subst hfunc
        exact ha t rfl
      · exact h
  | unregister hp =>
      simp only [State.store, Function.update_apply]
      split
      · exact (Option.some_ne_none f).symm
      · exact h
  | _ => exact h

/-- A dispatch has the function only where it had it or the table has it. -/
theorem Moves.not_running (hmove : Moves s a s') (h : Gone nr f s) (t : θ) : s'.procs t ≠ .running nr f := by
  by_cases ht : a.thread = t
  · subst ht
    cases hmove with
    | @read t n hp =>
        intro hrun
        cases hfunc : s.cmdArray n with
        | none => simp [State.to, Act.thread, hfunc, afterRead] at hrun
        | some g =>
            simp only [State.to, Act.thread, hfunc, afterRead, Function.update_self, Proc.running.injEq] at hrun
            obtain ⟨rfl, rfl⟩ := hrun
            exact h.1 hfunc
    | fail hp ha hr =>
        rw [Act.thread_eq_of_fail ha]
        simp [State.to]
    | wait hp href => exact h.2 _
    | _ => simp [State.to, State.count, State.store, Act.thread]
  · rw [hmove.procs_of_ne ht]
    exact h.2 t

theorem Moves.gone (hmove : Moves s a s') (h : Gone nr f s) (ha : NotAnew nr f a) : Gone nr f s' :=
  ⟨hmove.cleared h.1 ha, hmove.not_running h⟩

variable [DecidableEq φ]

theorem gone_run (h : Gone nr f s) (has : ∀ a ∈ as, NotAnew nr f a) (hrun : run step s as = some s') :
    Gone nr f s' :=
  run_invariant (fun _ _ _ h ha hs => (moves_of_step hs).gone h ha) h
    (meets_of_forall fun a ha _ => has a ha) hrun

theorem cleared_run (h : s.cmdArray nr ≠ some f) (has : ∀ a ∈ as, NotAnew nr f a)
    (hrun : run step s as = some s') : s'.cmdArray nr ≠ some f :=
  @run_invariant _ _ _ _ (fun s : State θ φ => s.cmdArray nr ≠ some f) _ _ _
    (fun _ _ _ h ha hs => (moves_of_step hs).cleared h ha) h (meets_of_forall fun a ha _ => has a ha) hrun

/-- A thread waits on as long as it does nothing else. -/
theorem waiting_run (h : s.procs t = .waiting nr) (has : ∀ a ∈ as, a.thread = t → a = .wait t)
    (hrun : run step s as = some s') : s'.procs t = .waiting nr := by
  refine @run_invariant _ _ _ _ (fun s : State θ φ => s.procs t = .waiting nr) _ _ _
    (fun s a s' h ha hs => ?_) h (meets_of_forall fun a ha _ => has a ha) hrun
  by_cases ht : a.thread = t
  · obtain rfl := ha ht
    cases moves_of_step hs with
    | fail hp hfail hr => obtain ⟨_, _, h | h⟩ := hfail <;> cases h
    | wait hp href => exact h
  · exact ((moves_of_step hs).procs_of_ne ht).trans h

/-- When unregistering returns, nobody uses the command, so nobody has its function. -/
theorem gone_of_returns (hcount : Counted s) (hwait : s.procs t = .waiting nr)
    (hclear : s.cmdArray nr ≠ some f) (hs : step s (.returns t) = some s') : Gone nr f s' := by
  have hmove := moves_of_step hs
  have hfree : ¬ s.cmdRefNums nr > 0 := by
    simp only [step, hwait] at hs
    split at hs
    · cases hs
    · assumption
  have hzero : tally (fun pr : Proc φ => pr.uses = some nr) s.procs = 0 := by
    have href := hcount.refs nr
    omega
  have hnone := (tally_eq_zero (hcount.bounded nr)).mp hzero
  refine hmove.gone ⟨hclear, fun t' ht' => hnone t' ?_⟩ fun t' h => by cases h
  rw [ht']
  rfl

/-- **Unregistering is safe:** in every run the use counts are right, each dispatch gives its own back
once, and after `httcsec_io_command_unregister` has returned `0` no dispatch of the command runs the
function unless it was registered anew. -/
theorem unregister_safe (hrun : run step State.init as = some s) :
    UseCounts as s ∧
      ∀ before during after t nr f, as = before ++ .unregister t nr (some f) 0 ::
          (during ++ .returns t :: after) →
        (∀ a ∈ during, a.thread = t → a = .wait t) → ∀ t', s.procs t' = .running nr f →
          ∃ t'', .register t'' nr (some f) 0 ∈ during ++ after := by
  refine ⟨useCounts_run hrun, fun before during after t nr f has hwaits t' hrunning => ?_⟩
  by_contra hnone
  have hanew : ∀ a ∈ during ++ after, NotAnew nr f a := by
    intro a ha t'' h
    subst h
    exact hnone ⟨t'', ha⟩
  rw [has, run_append] at hrun
  obtain ⟨s₁, h₁, hrun⟩ := Option.bind_eq_some_iff.mp hrun
  rw [run_cons] at hrun
  obtain ⟨s₂, h₂, hrun⟩ := Option.bind_eq_some_iff.mp hrun
  rw [run_append] at hrun
  obtain ⟨s₃, h₃, hrun⟩ := Option.bind_eq_some_iff.mp hrun
  rw [run_cons] at hrun
  obtain ⟨s₄, h₄, hrun⟩ := Option.bind_eq_some_iff.mp hrun
  have hcounted : Counted s₃ := by
    have hfirst : run step State.init (before ++ .unregister t nr (some f) 0 :: during) = some s₃ := by
      rw [run_append, h₁, Option.bind_some, run_cons_of_step h₂, h₃]
    exact run_preserves (fun _ _ _ h hs => (moves_of_step hs).counted h) counted_init hfirst
  have hcleared : s₂.procs t = .waiting nr ∧ s₂.cmdArray nr ≠ some f := by
    cases moves_of_step h₂ with
    | unregister hp => exact ⟨Function.update_self .., by simp [State.store]⟩
    | fail hp hfail hr =>
        obtain ⟨_, _, h | h⟩ := hfail <;> cases h
        exact absurd rfl hr
  have hwaiting := waiting_run hcleared.1 hwaits h₃
  have hclear := cleared_run hcleared.2 (fun a ha => hanew a (List.mem_append_left _ ha)) h₃
  have hgone := gone_of_returns hcounted hwaiting hclear h₄
  exact (gone_run hgone (fun a ha => hanew a (List.mem_append_right _ ha)) hrun).2 t' hrunning

end Safety

/-- A function that runs while it is unregistered: unregistering waits for it, and then it is gone. -/
theorem unregister_safe_waits : ∃ s : State ℕ ℕ,
    run step State.init ([.register 0 5 (some 7) 0, .enter 1 0xAF05, .read 1] ++ .unregister 0 5 (some 7) 0 ::
      ([.wait 0, .finish 1 3, .wait 0, .leave 1] ++ .returns 0 :: [.enter 1 0xAF05, .read 1])) = some s ∧
      s.procs 1 = .leaving 5 (-enotty) ∧ ¬ ∃ t, s.procs t = .running 5 7 := by
  refine ⟨_, rfl, rfl, fun ⟨t, ht⟩ => ?_⟩
  obtain ⟨t', ht'⟩ := (unregister_safe rfl).2 [.register 0 5 (some 7) 0, .enter 1 0xAF05, .read 1]
    [.wait 0, .finish 1 3, .wait 0, .leave 1] [.enter 1 0xAF05, .read 1] 0 5 7 rfl
    (by simp [Act.thread]) t ht
  simp at ht'

end IoCommand
end TsbAgent
