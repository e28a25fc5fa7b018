/-
# Binary semaphores that several processes share

A call leaves a list of operations on semaphores: a get that succeeded or failed, a release.  It is
`Balanced` when there are as many releases as successful gets, and no release without a get that
has succeeded before and was not yet released; `balanced_iff_hold` says the same by counting what
is held.

Processes make calls one after the other, their operations come in any order that the semaphore allows
(`Interleaves`).  When all calls are balanced, at most one process holds the semaphore, and it is free
whenever no call is in progress (`free_of_balanced`).
-/

import TsbAgent.Lib.Run
import Mathlib.Data.List.Count
import Mathlib.Data.List.Induction
import Mathlib.Logic.Function.Basic

namespace TsbAgent
namespace Semaphore

open Run

variable {ι : Type*} [DecidableEq ι]

/-- An operation on the semaphore `i`. -/
inductive Op (ι : Type*)
  | get (i : ι) (ok : Bool)
  | release (i : ι)
deriving DecidableEq

/-- As many releases as successful gets, and each after one. -/
structure Balanced (ops : List (Op ι)) : Prop where
  count : ∀ i, ops.count (.release i) = ops.count (.get i true)
  guarded : ∀ i ops₁ ops₂, ops = ops₁ ++ .release i :: ops₂ →
    ops₁.count (.release i) < ops₁.count (.get i true)

/-- How often `i` is held after an operation; `none` when it is released and not held. -/
def hold (i : ι) (n : ℕ) (op : Op ι) : Option ℕ :=
  if op = .get i true then some (n + 1)
  else if op = .release i then (if n = 0 then none else some (n - 1))
  else some n

section Hold

variable {i : ι} {n m : ℕ} {ops : List (Op ι)}

/-- What is held is what was got and not released. -/
theorem count_of_hold (h : run (hold i) n ops = some m) :
    m + ops.count (.release i) = n + ops.count (.get i true) := by
  induction ops generalizing n with
  | nil =>
      obtain rfl := Option.some.inj h
      rfl
  | cons op ops ih =>
      rw [run_cons] at h
      obtain ⟨k, hk, h⟩ := Option.bind_eq_some_iff.mp h
      have hrest := ih h
      unfold hold at hk
      rw [List.count_cons, List.count_cons]
      split_ifs at hk with hget hrel h0
      · obtain rfl := Option.some.inj hk
        simp only [hget, beq_self_eq_true, if_true]
        rw [if_neg (by simp)]
        omega
      · obtain rfl := Option.some.inj hk
        simp only [hrel, beq_self_eq_true, if_true]
        rw [if_neg (by simp)]
        omega
      · obtain rfl := Option.some.inj hk
        rw [if_neg (by simpa using hrel), if_neg (by simpa using hget)]
        exact hrest

/-- A list of operations can be followed exactly when every release finds the semaphore held. -/
theorem hold_isSome_iff : (∃ m, run (hold i) n ops = some m) ↔
    ∀ ops₁ ops₂, ops = ops₁ ++ .release i :: ops₂ → ops₁.count (.release i) < n + ops₁.count (.get i true) := by
  constructor
  · rintro ⟨m, h⟩ ops₁ ops₂ rfl
    rw [run_append] at h
    obtain ⟨k, hk, h⟩ := Option.bind_eq_some_iff.mp h
    have hcount := count_of_hold hk
    obtain ⟨l, hl, -⟩ := Option.bind_eq_some_iff.mp h
    have hpos : k ≠ 0 := by
      rintro rfl
      simp [hold] at hl
    omega
  · intro h
    induction ops using List.reverseRecOn with
    | nil => exact ⟨n, rfl⟩
    | append_singleton ops op ih =>
        obtain ⟨m, hm⟩ := ih fun ops₁ ops₂ happ => h ops₁ (ops₂ ++ [op]) (by rw [happ]; simp)
        have hstep : ∃ k, hold i m op = some k := by
          unfold hold
          split_ifs with hget hrel h0
          · exact ⟨_, rfl⟩
          · have hlt := h ops [] (by rw [hrel])
            have hcount := count_of_hold hm
            omega
          · exact ⟨_, rfl⟩
          · exact ⟨_, rfl⟩
        obtain ⟨k, hk⟩ := hstep
        refine ⟨k, ?_⟩
        rw [run_append, hm, Option.bind_some, run_cons, hk]
        rfl

/-- **Balanced is: followed to the end, nothing is held.** -/
theorem balanced_iff_hold : Balanced ops ↔ ∀ i, run (hold i) 0 ops = some 0 := by
  constructor
  · intro h i
    obtain ⟨m, hm⟩ := hold_isSome_iff.mpr fun ops₁ ops₂ happ => by
      rw [Nat.zero_add]
      exact h.guarded i ops₁ ops₂ happ
    have hcount := count_of_hold hm
    have hsame := h.count i
    obtain rfl : m = 0 := by omega
    exact hm
  · intro h
    refine ⟨fun i => ?_, fun i ops₁ ops₂ happ => ?_⟩
    · have hcount := count_of_hold (h i)
      omega
    · have hlt := hold_isSome_iff.mp ⟨0, h i⟩ ops₁ ops₂ happ
      omega

theorem Balanced.append {ops' : List (Op ι)} (h : Balanced ops) (h' : Balanced ops') : Balanced (ops ++ ops') := by
  rw [balanced_iff_hold] at h h' ⊢
  intro i
  rw [run_append, h i, Option.bind_some, h' i]

theorem balanced_nil : Balanced ([] : List (Op ι)) := balanced_iff_hold.mpr fun _ => rfl

theorem balanced_flatten {calls : List (List (Op ι))} (h : ∀ ops ∈ calls, Balanced ops) :
    Balanced calls.flatten := by
  induction calls with
  | nil => exact balanced_nil
  | cons ops calls ih =>
      obtain ⟨hops, hcalls⟩ := List.forall_mem_cons.mp h
      rw [List.flatten_cons]
      exact hops.append (ih hcalls)

end Hold

/-! ### Several processes -/

section Processes

variable {P : Type*} [DecidableEq P]

/-- A semaphore, and how often each process holds it. -/
structure State (P : Type*) where
  value : ℕ
  held : P → ℕ

/-- A semaphore that is free. -/
def State.free : State P := ⟨1, fun _ => 0⟩

/-- An operation of a process, as far as it concerns the semaphore `i`.  A get only succeeds while the
value is positive; nothing holds back a release. -/
def step (i : ι) (s : State P) (e : P × Op ι) : Option (State P) :=
  if e.2 = .get i true then
    if s.value = 0 then none
    else some ⟨s.value - 1, Function.update s.held e.1 (s.held e.1 + 1)⟩
  else if e.2 = .release i then
    some ⟨s.value + 1, Function.update s.held e.1 (s.held e.1 - 1)⟩
  else some s

/-- The operations of the process `p`. -/
def proj (p : P) (events : List (P × Op ι)) : List (Op ι) :=
  events.filterMap fun e => if e.1 = p then some e.2 else none

/-- Every process is somewhere in its calls. -/
def Interleaves (calls : P → List (List (Op ι))) (events : List (P × Op ι)) : Prop :=
  ∀ p, proj p events <+: (calls p).flatten

/-- No process is inside a call. -/
def Idle (calls : P → List (List (Op ι))) (events : List (P × Op ι)) : Prop :=
  ∀ p, ∃ k, proj p events = ((calls p).take k).flatten

/-- The semaphore is free, or one process holds it once. -/
def Exclusive (s : State P) : Prop :=
  (s.value = 1 ∧ ∀ p, s.held p = 0) ∨ (s.value = 0 ∧ ∃ q, s.held q = 1 ∧ ∀ p, p ≠ q → s.held p = 0)

variable {i : ι} {calls : P → List (List (Op ι))} {events : List (P × Op ι)} {s s' : State P}

omit [DecidableEq ι] in
theorem proj_append (p : P) (events events' : List (P × Op ι)) :
    proj p (events ++ events') = proj p events ++ proj p events' :=
  List.filterMap_append

/-- One operation: a process that follows `hold` is followed by the state. -/
theorem held_step {e : P × Op ι} {m : ℕ} (hm : hold i (s.held e.1) e.2 = some m) (h : step i s e = some s') :
    s'.held = Function.update s.held e.1 m ∧ s'.value + m = s.value + s.held e.1 := by
  unfold hold at hm
  unfold step at h
  split_ifs at h with hget h0 hrel
  · obtain rfl := Option.some.inj h
    rw [if_pos hget] at hm
    obtain rfl := Option.some.inj hm
    exact ⟨rfl, by dsimp only; omega⟩
  · obtain rfl := Option.some.inj h
    rw [if_neg hget, if_pos hrel] at hm
    split_ifs at hm with hzero
    obtain rfl := Option.some.inj hm
    exact ⟨rfl, by dsimp only; omega⟩
  · obtain rfl := Option.some.inj h
    rw [if_neg hget, if_neg hrel] at hm
    obtain rfl := Option.some.inj hm
    exact ⟨(Function.update_eq_self _ _).symm, rfl⟩

/-- Who takes a free semaphore, or gives back what it holds, leaves it so. -/
theorem Exclusive.update {p : P} {m v : ℕ} (hs : Exclusive s) (hsum : v + m = s.value + s.held p) :
    Exclusive ⟨v, Function.update s.held p m⟩ := by
  rcases hs with ⟨hv, hall⟩ | ⟨hv, q, hq, hrest⟩
  · have hp := hall p
    obtain ⟨rfl, rfl⟩ | ⟨rfl, rfl⟩ : (v = 1 ∧ m = 0) ∨ (v = 0 ∧ m = 1) := by omega
    · refine .inl ⟨rfl, fun r => ?_⟩
      by_cases hr : r = p <;> simp [hr, hall]
    · refine .inr ⟨rfl, p, Function.update_self .., fun r hr => ?_⟩
      simp [hr, hall]
  · by_cases hpq : p = q
    · subst hpq
      obtain ⟨rfl, rfl⟩ | ⟨rfl, rfl⟩ : (v = 1 ∧ m = 0) ∨ (v = 0 ∧ m = 1) := by omega
      · refine .inl ⟨rfl, fun r => ?_⟩
        by_cases hr : r = p
        · simp [hr]
        · simp [hr, hrest r hr]
      · refine .inr ⟨rfl, p, Function.update_self .., fun r hr => ?_⟩
        simp [hr, hrest r hr]
    · have hp := hrest p hpq
      obtain ⟨rfl, rfl⟩ : v = 0 ∧ m = 0 := by omega
      have hself : Function.update s.held p 0 = s.held := by
        rw [← hp]
        exact Function.update_eq_self p s.held
      rw [hself]
      exact .inr ⟨rfl, q, hq, hrest⟩

/-- **Where every process follows `hold`, the semaphore is exclusive,** and holds what the processes do. -/
theorem exclusive_of_run (hdef : ∀ p, ∃ m, run (hold i) 0 (proj p events) = some m)
    (hrun : run (step i) State.free events = some s) :
    Exclusive s ∧ ∀ p, run (hold i) 0 (proj p events) = some (s.held p) := by
  induction events using List.reverseRecOn generalizing s with
  | nil =>
      obtain rfl := Option.some.inj hrun
      exact ⟨.inl ⟨rfl, fun _ => rfl⟩, fun _ => rfl⟩
  | append_singleton events e ih =>
      obtain ⟨s₁, h₁, h₂⟩ := Option.bind_eq_some_iff.mp (run_append.symm.trans hrun)
      obtain ⟨s₂, hstep, hs₂⟩ := Option.bind_eq_some_iff.mp h₂
      obtain rfl := Option.some.inj hs₂
      have hprefix : ∀ p, ∃ m, run (hold i) 0 (proj p events) = some m := by
        intro p
        obtain ⟨m, hm⟩ := hdef p
        rw [proj_append, run_append] at hm
        obtain ⟨k, hk, -⟩ := Option.bind_eq_some_iff.mp hm
        exact ⟨k, hk⟩
      obtain ⟨hexcl, hheld⟩ := ih hprefix h₁
      obtain ⟨m, hm⟩ := hdef e.1
      have hself : proj e.1 [e] = [e.2] := by simp [proj]
      rw [proj_append, run_append, hheld e.1, Option.bind_some, hself, run_cons] at hm
      obtain ⟨k, hk, hm⟩ := Option.bind_eq_some_iff.mp hm
      obtain rfl := Option.some.inj hm
      obtain ⟨hupd, hsum⟩ := held_step hk hstep
      refine ⟨?_, fun p => ?_⟩
      · have hexcl' := hexcl.update hsum
        rwa [← hupd] at hexcl'
      · rw [proj_append, run_append, hheld p, Option.bind_some, hupd]
        by_cases hp : p = e.1
        · rw [hp, hself, run_cons, hk, Function.update_self]
          rfl
        · have hother : proj p [e] = [] := by simp [proj, Ne.symm hp]
          rw [hother, Function.update_of_ne hp]
          rfl

/-- **Balanced calls keep a semaphore exclusive,** and it is free whenever no call is in progress. -/
theorem free_of_balanced (hbal : ∀ p, ∀ ops ∈ calls p, Balanced ops) (hint : Interleaves calls events)
    (hrun : run (step i) State.free events = some s) : Exclusive s ∧ (Idle calls events → s.value = 1) := by
  have hdef : ∀ p, ∃ m, run (hold i) 0 (proj p events) = some m := by
    intro p
    obtain ⟨rest, hrest⟩ := hint p
    have hall := balanced_iff_hold.mp (balanced_flatten (hbal p)) i
    rw [← hrest, run_append] at hall
    obtain ⟨m, hm, -⟩ := Option.bind_eq_some_iff.mp hall
    exact ⟨m, hm⟩
  obtain ⟨hexcl, hheld⟩ := exclusive_of_run hdef hrun
  refine ⟨hexcl, fun hidle => ?_⟩
  rcases hexcl with ⟨hv, -⟩ | ⟨-, q, hq, -⟩
  · exact hv
  · obtain ⟨k, hk⟩ := hidle q
    have hdone : run (hold i) 0 ((calls q).take k).flatten = some 0 :=
      balanced_iff_hold.mp (balanced_flatten fun ops hops => hbal q ops (List.mem_of_mem_take hops)) i
    rw [← hk, hheld q, hq] at hdone
    exact absurd hdone (by simp)

end Processes

end Semaphore
end TsbAgent
