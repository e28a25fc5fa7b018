/-
# Delayed work

A work item that a timer puts into a queue, from which a worker takes it and runs its function:

| operation | what it does |
| --- | --- |
| schedule | arms the timer, unless the item is armed or queued already |
| fire | the timer puts the item into the queue |
| start | a worker takes it; an item does not run twice at the same time, but may be scheduled while it runs |
| cancel | disarms the timer, or takes the item back from the queue where the system can do this |
| set up | forgets the timer and the queue |

Cancelling says nothing about a worker, and setting up an item that is armed or queued leaves a timer
behind that no cancel finds: it is counted, and may still start the function.  An item is `Quiet` when
nothing can start until it is scheduled again.  `quiet_cancel_iff` says when it is after a cancel.
-/

import Mathlib.Tactic.Common

namespace TsbAgent
namespace DelayedWork

variable {π : Type*}

/-- The pending bit of an item, and where it is. -/
inductive Queue
  | idle
  | armed
  | queued
deriving DecidableEq

/-- An item, the timers that were left behind, and where its function is when it runs. -/
structure Work (π : Type*) where
  queue : Queue
  stray : ℕ
  running : Option π

/-- An item that was never scheduled. -/
def Work.fresh : Work π := ⟨.idle, 0, none⟩

/-- Arm the timer; the item is pending otherwise. -/
def Work.schedule (w : Work π) : Work π := if w.queue = .idle then { w with queue := .armed } else w

/-- Set the item up. -/
def Work.setUp (w : Work π) : Work π :=
  { w with queue := .idle, stray := if w.queue = .idle then w.stray else w.stray + 1 }

/-- Cancel; `grabs` says whether a queued item is taken back. -/
def Work.cancel (grabs : Bool) (w : Work π) : Work π :=
  if w.queue = .queued ∧ grabs = false then w else { w with queue := .idle }

/-- The timer fires. -/
def Work.fire (w : Work π) : Option (Work π) := if w.queue = .armed then some { w with queue := .queued } else none

/-- A worker starts the function at `p`, from the queue or for a timer that was left behind. -/
def Work.start (p : π) (stray : Bool) (w : Work π) : Option (Work π) :=
  if w.running.isSome then none
  else if stray then
    if 0 < w.stray then some { w with stray := w.stray - 1, running := some p } else none
  else if w.queue = .queued then some { w with queue := .idle, running := some p }
  else none

/-- The function is somewhere else, or has returned. -/
def Work.move (p : Option π) (w : Work π) : Work π := { w with running := p }

/-- Nothing runs and nothing will start. -/
structure Work.Quiet (w : Work π) : Prop where
  queue : w.queue = .idle
  stray : w.stray = 0
  running : w.running = none

variable {w w' : Work π} {p : π}

theorem quiet_fresh : (Work.fresh : Work π).Quiet := ⟨rfl, rfl, rfl⟩

theorem Work.Quiet.not_fire (h : w.Quiet) : w.fire = none := by
  rw [Work.fire, h.queue, if_neg (by decide)]

theorem Work.Quiet.not_start (h : w.Quiet) (stray : Bool) : w.start p stray = none := by
  rw [Work.start, h.running, h.queue, h.stray]
  cases stray with
  | false => rfl
  | true => rfl

/-- **A cancel leaves the item quiet** just when no worker has it, no timer was left behind, and it can be
taken back from the queue if it is there. -/
theorem quiet_cancel_iff {grabs : Bool} :
    (w.cancel grabs).Quiet ↔ w.running = none ∧ w.stray = 0 ∧ (w.queue = .queued → grabs = true) := by
  rw [Work.cancel]
  rcases em (w.queue = .queued ∧ grabs = false) with h | h
  · rw [if_pos h]
    refine iff_of_false (fun hq => ?_) fun hall => ?_
    · exact absurd (h.1.symm.trans hq.queue) (by decide)
    · exact absurd ((hall.2.2 h.1).symm.trans h.2) (by decide)
  · rw [if_neg h]
    constructor
    · intro hq
      refine ⟨hq.running, hq.stray, fun hqueued => ?_⟩
      cases grabs with
      | false => exact absurd ⟨hqueued, rfl⟩ h
      | true => rfl
    · rintro ⟨hrunning, hstray, -⟩
      exact ⟨rfl, hstray, hrunning⟩

/-- Setting up leaves no timer behind when the item is not pending. -/
theorem stray_setUp (h : w.queue = .idle) : w.setUp.stray = w.stray := by
  rw [Work.setUp, if_pos h]

@[simp] theorem stray_schedule : w.schedule.stray = w.stray := by
  rw [Work.schedule]
  split_ifs with h
  · rfl
  · rfl

@[simp] theorem running_schedule : w.schedule.running = w.running := by
  rw [Work.schedule]
  split_ifs with h
  · rfl
  · rfl

/-- The timer changes no worker. -/
theorem fire_eq (h : w.fire = some w') : w'.running = w.running ∧ w'.stray = w.stray := by
  rw [Work.fire] at h
  split_ifs at h with hq
  obtain rfl := Option.some.inj h
  exact ⟨rfl, rfl⟩

/-- A start puts the function where it begins. -/
theorem start_eq {stray : Bool} (h : w.start p stray = some w') :
    w.running = none ∧ w'.running = some p ∧ w'.stray ≤ w.stray := by
  rw [Work.start] at h
  rcases em (w.running.isSome = true) with hr | hr
  · rw [if_pos hr] at h
    cases h
  rw [if_neg hr] at h
  have hnone : w.running = none := Option.not_isSome_iff_eq_none.mp hr
  cases stray with
  | false =>
      rw [if_neg Bool.false_ne_true] at h
      split_ifs at h with hq
      obtain rfl := Option.some.inj h
      exact ⟨hnone, rfl, Nat.le_refl _⟩
  | true =>
      rw [if_pos rfl] at h
      split_ifs at h with hs
      obtain rfl := Option.some.inj h
      exact ⟨hnone, rfl, Nat.sub_le _ _⟩

end DelayedWork
end TsbAgent
