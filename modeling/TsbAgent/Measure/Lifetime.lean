/-
# The lifetime of a wait queue node

A node of `smeasure_wqueue.c` is freed by whoever drops its last reference.
`refer` starts at 1 for the measurer; every caller that finds the node in the
tree adds 1 (`smeasure_wqueue_node_search`, tree lock), and measurer and callers
each take 1 off when they are done (`smeasure_wqueue_wake_up`,
`smeasure_wqueue_node_clean`, node lock).  The two locks do not get in each
other's way: a node is out of the tree before its first reference is dropped.

The measurer drops its reference before its last use of the node:

    queue->condition = 1; queue->refer--; ... spin_unlock(...); wake_up(&queue->wait);

A caller whose `wait_event` sees the condition need not sleep.  It can run
`smeasure_wqueue_node_clean` between the unlock and the `wake_up`, and when it
is the last one it frees the node the measurer is about to wake.  Without that
order of steps (`WakesFirst`) the counting is right: `wqueue_node_lifetime`.

`touched` are the nodes an action reads or writes: for an action on the tree
these may be all nodes in it, for a waiting caller its node, whether or not the
condition is set.  `refer` counts processes, so the 32 bits of the field suffice.
-/

import TsbAgent.Lib.Tally
import TsbAgent.Measure.Wqueue

namespace TsbAgent
namespace Wqueue

open Libc SearchTree

/-- The node a caller holds a reference to. -/
def Proc.holds : Proc → Option ℕ
  | .measuring _ queue => queue
  | .popped _ queue _ => some queue
  | .waiting _ queue => some queue
  | _ => none

/-- The node a caller measures for, until its `wake_up` is over. -/
def Proc.measures : Proc → Option ℕ
  | .measuring _ queue => queue
  | .popped _ queue _ => some queue
  | .waking _ queue _ => some queue
  | _ => none

/-- The number of callers that hold a node. -/
noncomputable def holders (s : State) (id : ℕ) : ℕ :=
  Tally.tally (fun pr : Proc => pr.holds = some id) s.procs

/-- The nodes an action of a caller reads or writes. -/
def touched (s : State) : Act → List ℕ
  | .handle pid _ _ =>
      match s.procs pid with
      | .idle => (inorder s.tree).map Prod.fst
      | _ => []
  | .pop pid _ =>
      match s.procs pid with
      | .measuring _ (some id) => id :: (inorder s.tree).map Prod.fst
      | _ => []
  | .publish pid =>
      match s.procs pid with
      | .popped _ id _ => [id]
      | _ => []
  | .wake pid =>
      match s.procs pid with
      | .waking _ id _ => [id]
      | _ => []
  | .clean pid =>
      match s.procs pid with
      | .waiting _ id => [id]
      | _ => []

/-- The node that is there before a step and not after it: the `kfree` calls. -/
def freed (s s' : State) (id : ℕ) : Bool := (s.heap id).isSome && (s'.heap id).isNone

/-- How often a run frees a node. -/
def frees (rb : RbTree (ℕ × CStr)) (id : ℕ) : State → List Act → ℕ
  | _, [] => 0
  | s, a :: acts =>
      match step rb s a with
      | none => 0
      | some s' => (if freed s s' id then 1 else 0) + frees rb id s' acts

/-- The order of steps the code relies on: the last reference is not dropped while
the measurer is between its lock section and its `wake_up`. -/
def WakesFirst (s : State) : Act → Prop
  | .clean pid => ∀ path id q, s.procs pid = .waiting path id → s.heap id = some q → q.refer = 1 →
      ∀ pid' p r, s.procs pid' ≠ .waking p id r
  | _ => True

/-- What the reference counting is for. -/
structure Lifetime (rb : RbTree (ℕ × CStr)) (acts : List Act) (s : State) : Prop where
  refer : ∀ id q, s.heap id = some q → q.refer = holders s id
  touched : ∀ a, ∀ id ∈ touched s a, (s.heap id).isSome = true
  once : ∀ id, frees rb id State.init acts = if id < s.next ∧ s.heap id = none then 1 else 0
  held : ∀ id, (s.heap id).isSome = true → ∃ pid, (s.procs pid).holds = some id

/-! ### What every step keeps -/

/-- The invariant: `refer` counts the holders, what is held or about to be woken is
in memory, a node has one measurer, and the tree has the nodes being measured. -/
structure Life (s : State) : Prop where
  bounded : ∀ id, Tally.Bounded (fun pr : Proc => pr.holds = some id) s.procs
  heap : ∀ id q, s.heap id = some q → id < s.next ∧ q.refer = holders s id ∧ 0 < q.refer
  held : ∀ pid id, (s.procs pid).holds = some id → ∃ q, s.heap id = some q
  measured : ∀ pid id, (s.procs pid).measures = some id → ∃ q, s.heap id = some q
  owner : ∀ pid pid' id, (s.procs pid).measures = some id → (s.procs pid').measures = some id →
    pid = pid'
  tree : ∀ x ∈ inorder s.tree, ∃ pid path, s.procs pid = .measuring path (some x.1)
  node : ∀ pid path id, s.procs pid = .measuring path (some id) →
    (id, wqueueKey path) ∈ inorder s.tree
  nodup : ((inorder s.tree).map Prod.fst).Nodup

theorem life_init : Life State.init where
  bounded := fun id => Tally.bounded_of_forall_not fun _ h => by simp [State.init, Proc.holds] at h
  heap := fun id q h => by simp [State.init] at h
  held := fun pid id h => by simp [State.init, Proc.holds] at h
  measured := fun pid id h => by simp [State.init, Proc.measures] at h
  owner := fun pid pid' id h => by simp [State.init, Proc.measures] at h
  tree := fun x hx => absurd hx List.not_mem_nil
  node := fun pid path id h => by simp [State.init] at h
  nodup := List.nodup_nil

section Preservation

variable {rb : RbTree (ℕ × CStr)} {s s' : State} {pid id : ℕ} {path : CStr}

/-- The holders of a node after a step of one caller. -/
theorem Life.holders_update (h : Life s) {pr : Proc}
    (hprocs : s'.procs = Function.update s.procs pid pr) (i : ℕ) :
    holders s' i + (if (s.procs pid).holds = some i then 1 else 0) =
      holders s i + (if pr.holds = some i then 1 else 0) := by
  rw [holders, hprocs]
  exact Tally.tally_update (h.bounded i) pid pr

/-- The step of one caller from `pr₀` to `pr`, with node `id` becoming `o`. -/
structure Moves (s s' : State) (pid : ℕ) (pr₀ pr : Proc) (id : ℕ) (o : Option SmeasureWqueue) :
    Prop where
  before : s.procs pid = pr₀
  procs : s'.procs = Function.update s.procs pid pr
  next : s'.next = s.next
  heap : s'.heap = Function.update s.heap id o

/-- What such a step has to do to node `id`: the count follows the caller, and the
node stays as long as somebody uses it. -/
structure Counts (s : State) (pid : ℕ) (pr₀ pr : Proc) (id : ℕ) (o : Option SmeasureWqueue) :
    Prop where
  hold₀ : ∀ i, pr₀.holds = some i → i = id
  hold : ∀ i, pr.holds = some i → i = id
  measure : ∀ i, pr.measures = some i → pr₀.measures = some i ∧ i = id
  refer : ∀ q, o = some q → id < s.next ∧ 0 < q.refer ∧
    q.refer + (if pr₀.holds = some id then 1 else 0) =
      holders s id + (if pr.holds = some id then 1 else 0)
  last : o = none → pr.holds ≠ some id ∧ pr.measures ≠ some id ∧ ∀ pid', pid' ≠ pid →
    (s.procs pid').holds ≠ some id ∧ (s.procs pid').measures ≠ some id

/-- A step of one caller that creates no node. -/
theorem Life.update (h : Life s) {pr₀ pr : Proc} {o : Option SmeasureWqueue}
    (hm : Moves s s' pid pr₀ pr id o) (hc : Counts s pid pr₀ pr id o)
    (htree : ∀ x ∈ inorder s'.tree, ∃ pid path, s'.procs pid = .measuring path (some x.1))
    (hnode : ∀ pid path i, s'.procs pid = .measuring path (some i) →
      (i, wqueueKey path) ∈ inorder s'.tree)
    (hnodup : ((inorder s'.tree).map Prod.fst).Nodup) : Life s' := by
  have hother : ∀ pid', pid' ≠ pid → s'.procs pid' = s.procs pid' := by
    intro pid' hne
    rw [hm.procs, Function.update_of_ne hne]
  have hself : s'.procs pid = pr := by rw [hm.procs, Function.update_self]
  have hkept : ∀ i, i ≠ id → ∀ q, s.heap i = some q → s'.heap i = some q := by
    intro i hne q hq
    rw [hm.heap, Function.update_of_ne hne, hq]
  -- a node that somebody uses after the step is not the one that was freed
  have hused : ∀ pid', (s'.procs pid').holds = some id ∨ (s'.procs pid').measures = some id →
      ∃ q, s'.heap id = some q := by
    intro pid' hp
    rw [hm.heap, Function.update_self]
    refine Option.ne_none_iff_exists'.mp fun ho => ?_
    obtain ⟨h₁, h₂, h₃⟩ := hc.last ho
    rcases eq_or_ne pid' pid with rfl | hne
    · rw [hself] at hp
      exact hp.elim h₁ h₂
    · rw [hother pid' hne] at hp
      exact hp.elim (h₃ pid' hne).1 (h₃ pid' hne).2
  refine ⟨fun i => ?_, fun i q hq => ?_, fun pid' i hi => ?_, fun pid' i hi => ?_,
    fun pid₁ pid₂ i h₁ h₂ => ?_, htree, hnode, hnodup⟩
  · rw [hm.procs]
    exact (h.bounded i).update pid pr
  · have hcount := h.holders_update hm.procs i
    rw [hm.before] at hcount
    rcases eq_or_ne i id with rfl | hne
    · rw [hm.heap, Function.update_self] at hq
      obtain ⟨hlt, hpos, hrefer⟩ := hc.refer q hq
      exact ⟨hm.next ▸ hlt, by omega, hpos⟩
    · rw [hm.heap, Function.update_of_ne hne] at hq
      rw [if_neg fun he => hne (hc.hold₀ i he), if_neg fun he => hne (hc.hold i he)] at hcount
      obtain ⟨hlt, hrefer, hpos⟩ := h.heap i q hq
      exact ⟨hm.next ▸ hlt, by omega, hpos⟩
  · rcases eq_or_ne i id with rfl | hne
    · exact hused pid' (Or.inl hi)
    · rcases eq_or_ne pid' pid with rfl | hp
      · exact absurd (hc.hold i (hself ▸ hi)) hne
      · obtain ⟨q, hq⟩ := h.held pid' i (hother pid' hp ▸ hi)
        exact ⟨q, hkept i hne q hq⟩
  · rcases eq_or_ne i id with rfl | hne
    · exact hused pid' (Or.inr hi)
    · rcases eq_or_ne pid' pid with rfl | hp
      · exact absurd (hc.measure i (hself ▸ hi)).2 hne
      · obtain ⟨q, hq⟩ := h.measured pid' i (hother pid' hp ▸ hi)
        exact ⟨q, hkept i hne q hq⟩
  · have hback : ∀ pid', (s'.procs pid').measures = some i → (s.procs pid').measures = some i := by
      intro pid' hi
      rcases eq_or_ne pid' pid with rfl | hp
      · rw [hm.before]
        exact (hc.measure i (hself ▸ hi)).1
      · rwa [hother pid' hp] at hi
    exact h.owner pid₁ pid₂ i (hback pid₁ h₁) (hback pid₂ h₂)

/-- The same, for a caller that measures neither before nor after the step. -/
theorem Life.keep (h : Life s) {pr₀ pr : Proc} {o : Option SmeasureWqueue}
    (hm : Moves s s' pid pr₀ pr id o) (hc : Counts s pid pr₀ pr id o) (htree : s'.tree = s.tree)
    (hpr₀ : ∀ p i, pr₀ ≠ .measuring p (some i)) (hpr : ∀ p i, pr ≠ .measuring p (some i)) :
    Life s' := by
  refine h.update hm hc (fun x hx => ?_) (fun pid' path i hp => ?_) (htree ▸ h.nodup)
  · obtain ⟨pid', path, hp⟩ := h.tree x (htree ▸ hx)
    have hne : pid' ≠ pid := by
      rintro rfl
      exact hpr₀ path x.1 (hm.before.symm.trans hp)
    exact ⟨pid', path, by rw [hm.procs, Function.update_of_ne hne, hp]⟩
  · rw [hm.procs] at hp
    rcases eq_or_ne pid' pid with rfl | hne
    · rw [Function.update_self] at hp
      exact absurd hp (hpr path i)
    · rw [Function.update_of_ne hne] at hp
      exact htree ▸ h.node pid' path i hp

/-- Nobody uses a node that is still to be created. -/
theorem Life.unused (h : Life s) (pid : ℕ) :
    (s.procs pid).holds ≠ some s.next ∧ (s.procs pid).measures ≠ some s.next := by
  have hfresh : ∀ q, s.heap s.next ≠ some q := by
    intro q hq
    have hlt := (h.heap _ q hq).1
    omega
  constructor
  · intro hp
    obtain ⟨q, hq⟩ := h.held pid _ hp
    exact hfresh q hq
  · intro hp
    obtain ⟨q, hq⟩ := h.measured pid _ hp
    exact hfresh q hq

/-- A step that changes no node. -/
theorem Life.advance (h : Life s) {pr₀ pr : Proc} (hbefore : s.procs pid = pr₀)
    (hprocs : s'.procs = Function.update s.procs pid pr) (hnext : s'.next = s.next)
    (hheap : s'.heap = s.heap) (htree : s'.tree = s.tree) (h₀ : pr₀.holds = none)
    (h₁ : pr.holds = none) (h₂ : pr.measures = none) : Life s' := by
  have hm : Moves s s' pid pr₀ pr s.next (s.heap s.next) :=
    ⟨hbefore, hprocs, hnext, by rw [hheap, Function.update_eq_self]⟩
  refine h.keep hm ⟨?_, ?_, ?_, fun q hq => ?_, fun _ => ?_⟩ htree (fun p i hp => ?_) fun p i hp => ?_
  · intro i hi
    rw [h₀] at hi
    cases hi
  · intro i hi
    rw [h₁] at hi
    cases hi
  · intro i hi
    rw [h₂] at hi
    cases hi
  · have hlt := (h.heap _ q hq).1
    omega
  · rw [h₁, h₂]
    exact ⟨by simp, by simp, fun pid' _ => h.unused pid'⟩
  · rw [hp] at h₀
    cases h₀
  · rw [hp] at h₁
    cases h₁

/-- A caller that finds the node of another. -/
theorem Life.join (h : Life s) {q : SmeasureWqueue} (hq : s.heap id = some q)
    (hm : Moves s s' pid .idle (.waiting path id) id (some { q with refer := q.refer + 1 }))
    (htree : s'.tree = s.tree) : Life s' := by
  obtain ⟨hlt, hrefer, hpos⟩ := h.heap id q hq
  refine h.keep hm ⟨fun i hi => ?_, fun i hi => (Option.some.inj hi).symm, fun i hi => ?_,
    fun r hr => ?_, fun ho => ?_⟩ htree (fun _ _ => Proc.noConfusion) (fun _ _ => Proc.noConfusion)
  · cases hi
  · cases hi
  · obtain rfl := Option.some.inj hr
    exact ⟨hlt, Nat.succ_pos _, by simp [Proc.holds, hrefer]⟩
  · cases ho

/-- A caller that finds no node and creates one. -/
theorem Life.create (h : Life s) (hidle : s.procs pid = .idle)
    (htree : s'.tree = wqueuePush rb s.tree s.next path)
    (hheap : s'.heap = Function.update s.heap s.next (some ⟨1, false, 0⟩))
    (hnext : s'.next = s.next + 1)
    (hprocs : s'.procs = Function.update s.procs pid (.measuring path (some s.next))) : Life s' := by
  have hother : ∀ {pid'}, pid' ≠ pid → s'.procs pid' = s.procs pid' := by
    intro pid' hne
    rw [hprocs, Function.update_of_ne hne]
  have hself : s'.procs pid = .measuring path (some s.next) := by rw [hprocs, Function.update_self]
  have hnew : s'.heap s.next = some ⟨1, false, 0⟩ := by rw [hheap, Function.update_self]
  have hkept : ∀ {i}, i ≠ s.next → s'.heap i = s.heap i := by
    intro i hne
    rw [hheap, Function.update_of_ne hne]
  have hlive : ∀ i, (∃ q, s.heap i = some q) → ∃ q, s'.heap i = some q := by
    rintro i ⟨q, hq⟩
    have hlt := (h.heap i q hq).1
    exact ⟨q, (hkept (by omega)).trans hq⟩
  have hperm : (inorder s'.tree).Perm ((s.next, wqueueKey path) :: inorder s.tree) := by
    rw [htree]
    exact inorder_wqueuePush_perm ..
  refine ⟨fun i => ?_, fun i q hq => ?_, fun pid' i hi => ?_, fun pid' i hi => ?_,
    fun pid₁ pid₂ i h₁ h₂ => ?_, fun x hx => ?_, fun pid' p i hp => ?_, ?_⟩
  · rw [hprocs]
    exact (h.bounded i).update _ _
  · have hcount := h.holders_update hprocs i
    rw [hidle, if_neg (by simp [Proc.holds])] at hcount
    rcases eq_or_ne i s.next with rfl | hne
    · obtain rfl := Option.some.inj (hnew.symm.trans hq)
      have hzero : holders s s.next = 0 :=
        (Tally.tally_eq_zero (h.bounded _)).mpr fun pid' => (h.unused pid').1
      rw [hzero, if_pos (by rfl)] at hcount
      exact ⟨by omega, hcount.symm, Nat.one_pos⟩
    · rw [hkept hne] at hq
      obtain ⟨hlt, hrefer, hpos⟩ := h.heap i q hq
      have hother : (Proc.measuring path (some s.next)).holds ≠ some i :=
        fun he => hne (Option.some.inj he).symm
      rw [if_neg hother] at hcount
      exact ⟨by omega, hrefer.trans hcount.symm, hpos⟩
  · rcases eq_or_ne pid' pid with rfl | hne
    · rw [hself] at hi
      obtain rfl := Option.some.inj hi
      exact ⟨_, hnew⟩
    · rw [hother hne] at hi
      exact hlive i (h.held pid' i hi)
  · rcases eq_or_ne pid' pid with rfl | hne
    · rw [hself] at hi
      obtain rfl := Option.some.inj hi
      exact ⟨_, hnew⟩
    · rw [hother hne] at hi
      exact hlive i (h.measured pid' i hi)
  · rcases eq_or_ne pid₁ pid with hp₁ | hne₁ <;> rcases eq_or_ne pid₂ pid with hp₂ | hne₂
    · exact hp₁.trans hp₂.symm
    · rw [hp₁, hself] at h₁
      rw [hother hne₂, ← Option.some.inj h₁] at h₂
      exact absurd h₂ (h.unused pid₂).2
    · rw [hp₂, hself] at h₂
      rw [hother hne₁, ← Option.some.inj h₂] at h₁
      exact absurd h₁ (h.unused pid₁).2
    · rw [hother hne₁] at h₁
      rw [hother hne₂] at h₂
      exact h.owner pid₁ pid₂ i h₁ h₂
  · rcases List.mem_cons.mp (hperm.mem_iff.mp hx) with rfl | hx
    · exact ⟨pid, path, hself⟩
    · obtain ⟨pid', p, hp⟩ := h.tree x hx
      have hne : pid' ≠ pid := by
        rintro rfl
        rw [hidle] at hp
        cases hp
      exact ⟨pid', p, (hother hne).trans hp⟩
  · rcases eq_or_ne pid' pid with rfl | hne
    · obtain ⟨rfl, hi⟩ := Proc.measuring.inj (hself.symm.trans hp)
      rw [← Option.some.inj hi]
      exact hperm.mem_iff.mpr List.mem_cons_self
    · rw [hother hne] at hp
      exact hperm.mem_iff.mpr (List.mem_cons_of_mem _ (h.node pid' p i hp))
  · refine (hperm.map Prod.fst).nodup_iff.mpr (List.nodup_cons.mpr ⟨fun hmem => ?_, h.nodup⟩)
    obtain ⟨x, hx, hx₁⟩ := List.mem_map.mp hmem
    obtain ⟨pid', p, hp⟩ := h.tree x hx
    exact (h.unused pid').2 (by rw [hp, hx₁]; rfl)

/-- The measurer takes its node out of the tree. -/
theorem Life.pop (h : Life s) {ret : UInt32}
    (hm : Moves s s' pid (.measuring path (some id)) (.popped path id ret) id (s.heap id))
    (htree : s'.tree = rb.erase s.tree (id, wqueueKey path)) : Life s' := by
  have hin := h.node pid path id hm.before
  refine h.update hm ⟨fun i hi => (Option.some.inj hi).symm, fun i hi => (Option.some.inj hi).symm,
    fun i hi => ⟨hi, (Option.some.inj hi).symm⟩, fun q hq => ?_, fun ho => ?_⟩
    (fun x hx => ?_) (fun pid' p i hp => ?_) ?_
  · obtain ⟨hlt, hrefer, hpos⟩ := h.heap id q hq
    exact ⟨hlt, hpos, by rw [hrefer]; rfl⟩
  · obtain ⟨q, hq⟩ := h.held pid id (by rw [hm.before]; rfl)
    rw [hq] at ho
    cases ho
  · -- a node still in the tree is another one, so its measurer is another caller
    rw [htree] at hx
    have hmem := rb.mem_of_mem_erase hin hx
    have hne : x.1 ≠ id := by
      intro he
      have hxe : x = (id, wqueueKey path) := List.inj_on_of_nodup_map h.nodup hmem hin he
      exact rb.notMem_erase hin (List.Nodup.of_map _ h.nodup) (hxe ▸ hx)
    obtain ⟨pid', p, hp⟩ := h.tree x hmem
    have hpid : pid' ≠ pid := by
      rintro rfl
      exact hne (Option.some.inj (Proc.measuring.inj (hp.symm.trans hm.before)).2)
    exact ⟨pid', p, by rw [hm.procs, Function.update_of_ne hpid, hp]⟩
  · rw [hm.procs] at hp
    rcases eq_or_ne pid' pid with rfl | hne
    · rw [Function.update_self] at hp
      cases hp
    · rw [Function.update_of_ne hne] at hp
      rw [htree]
      refine rb.mem_erase_of_ne hin (fun he => hne ?_) (h.node pid' p i hp)
      obtain ⟨rfl, -⟩ := Prod.ext_iff.mp he
      exact h.owner pid' pid i (by rw [hp]; rfl) (by rw [hm.before]; rfl)
  · rw [htree]
    exact h.nodup.sublist ((rb.inorder_erase_sublist hin).map _)

/-- The last holder of a node is alone with it, once nobody is to be woken. -/
theorem Life.alone (h : Life s) {q : SmeasureWqueue} (hq : s.heap id = some q)
    (hlast : q.refer - 1 = 0) (hp : (s.procs pid).holds = some id) :
    ∀ pid', pid' ≠ pid → (s.procs pid').holds ≠ some id := by
  obtain ⟨-, hrefer, hpos⟩ := h.heap id q hq
  have hone : holders s id = 1 := by omega
  exact fun pid' hne hp' => hne (Tally.eq_of_tally_eq_one hone hp' hp)

/-- The lock section of `smeasure_wqueue_wake_up`, when callers are left. -/
theorem Life.publish (h : Life s) {ret : UInt32} {q : SmeasureWqueue} (hq : s.heap id = some q)
    (hleft : q.refer - 1 ≠ 0) (hm : Moves s s' pid (.popped path id ret) (.waking path id ret) id
      (some ⟨q.refer - 1, true, ret⟩)) (htree : s'.tree = s.tree) : Life s' := by
  obtain ⟨hlt, hrefer, hpos⟩ := h.heap id q hq
  refine h.keep hm ⟨fun i hi => (Option.some.inj hi).symm, fun i hi => ?_,
    fun i hi => ⟨hi, (Option.some.inj hi).symm⟩, fun r hr => ?_, fun ho => ?_⟩ htree
    (fun _ _ => Proc.noConfusion) (fun _ _ => Proc.noConfusion)
  · cases hi
  · obtain rfl := Option.some.inj hr
    simp only [Proc.holds, if_true, reduceCtorEq, if_false]
    omega
  · cases ho

/-- The same lock section, when the measurer is the last and frees the node. -/
theorem Life.publish_last (h : Life s) {ret : UInt32} {q : SmeasureWqueue}
    (hq : s.heap id = some q) (hlast : q.refer - 1 = 0)
    (hm : Moves s s' pid (.popped path id ret) (.done path ret) id none)
    (htree : s'.tree = s.tree) : Life s' := by
  have hholds : (s.procs pid).holds = some id := by rw [hm.before]; rfl
  have hmeas : (s.procs pid).measures = some id := by rw [hm.before]; rfl
  refine h.keep hm ⟨fun i hi => (Option.some.inj hi).symm, fun i hi => ?_, fun i hi => ?_,
    fun r hr => ?_, fun _ => ⟨?_, ?_, fun pid' hne => ⟨h.alone hq hlast hholds pid' hne, ?_⟩⟩⟩ htree
    (fun _ _ => Proc.noConfusion) (fun _ _ => Proc.noConfusion)
  · cases hi
  · cases hi
  · cases hr
  · exact nofun
  · exact nofun
  · exact fun hp => hne (h.owner pid' pid id hp hmeas)

/-- `smeasure_wqueue_node_clean`: the last caller frees the node, which by then
nobody is about to wake. -/
theorem Life.clean (h : Life s) {q : SmeasureWqueue} (hq : s.heap id = some q)
    (hwake : q.refer = 1 → ∀ pid' p r, s.procs pid' ≠ .waking p id r)
    (hm : Moves s s' pid (.waiting path id) (.done path q.result) id
      (if q.refer - 1 = 0 then none else some { q with refer := q.refer - 1 }))
    (htree : s'.tree = s.tree) : Life s' := by
  obtain ⟨hlt, hrefer, hpos⟩ := h.heap id q hq
  have hholds : (s.procs pid).holds = some id := by rw [hm.before]; rfl
  refine h.keep hm ⟨fun i hi => (Option.some.inj hi).symm, fun i hi => ?_, fun i hi => ?_,
    fun r hr => ?_, fun ho => ?_⟩ htree (fun _ _ => Proc.noConfusion) (fun _ _ => Proc.noConfusion)
  · cases hi
  · cases hi
  · split_ifs at hr
    obtain rfl := Option.some.inj hr
    simp only [Proc.holds, if_true, reduceCtorEq, if_false]
    omega
  · split_ifs at ho with hlast
    have halone := h.alone hq hlast hholds
    refine ⟨nofun, nofun, fun pid' hne => ⟨halone pid' hne, fun hp => ?_⟩⟩
    -- a measurer that holds no reference is one that is about to wake
    have hnone := halone pid' hne
    cases hpr : s.procs pid' with
    | measuring p i =>
        rw [hpr] at hnone hp
        exact hnone hp
    | popped p i r =>
        rw [hpr] at hnone hp
        exact hnone hp
    | waking p i r =>
        rw [hpr] at hp
        obtain rfl := Option.some.inj hp
        exact hwake (by omega) pid' p r hpr
    | _ => rw [hpr] at hp; cases hp

/-- **One lock section keeps the invariant**, when the last reference is not
dropped before the `wake_up`. -/
theorem life_step (h : Life s) {a : Act} (ha : WakesFirst s a) (hs : step rb s a = some s') :
    Life s' := by
  cases step_taken rb hs with
  | join hidle _ hq => exact h.join hq ⟨hidle, rfl, rfl, rfl⟩ rfl
  | create hidle => exact h.create hidle rfl rfl rfl rfl
  | alone hidle => exact h.advance hidle rfl rfl rfl rfl rfl rfl rfl
  | @pop pid path id ret hm =>
      exact h.pop ⟨hm, rfl, rfl, (Function.update_eq_self id s.heap).symm⟩ rfl
  | popAlone hm => exact h.advance hm rfl rfl rfl rfl rfl rfl rfl
  | publishLast hm hq hlast => exact h.publish_last hq hlast ⟨hm, rfl, rfl, rfl⟩ rfl
  | publish hm hq hleft => exact h.publish hq hleft ⟨hm, rfl, rfl, rfl⟩ rfl
  | wake hm => exact h.advance hm rfl rfl rfl rfl rfl rfl rfl
  | clean hm hq => exact h.clean hq (ha _ _ _ hm hq) ⟨hm, rfl, rfl, rfl⟩ rfl

/-- What an action touches is in memory. -/
theorem Life.touched (h : Life s) (a : Act) : ∀ id ∈ touched s a, (s.heap id).isSome = true := by
  have hlive : ∀ pid {id}, (s.procs pid).holds = some id ∨ (s.procs pid).measures = some id →
      (s.heap id).isSome = true := by
    rintro pid id (hp | hp)
    · exact Option.isSome_iff_exists.mpr (h.held pid id hp)
    · exact Option.isSome_iff_exists.mpr (h.measured pid id hp)
  have htree : ∀ id ∈ (inorder s.tree).map Prod.fst, (s.heap id).isSome = true := by
    intro id hid
    obtain ⟨x, hx, rfl⟩ := List.mem_map.mp hid
    obtain ⟨pid, path, hp⟩ := h.tree x hx
    exact hlive pid (Or.inl (by rw [hp]; rfl))
  intro id hid
  cases a with
  | handle pid path kzalloc =>
      simp only [Wqueue.touched] at hid
      split at hid
      · exact htree id hid
      · cases hid
  | pop pid ret =>
      simp only [Wqueue.touched] at hid
      split at hid
      case h_1 path i hm =>
        rcases List.mem_cons.mp hid with rfl | hid
        · exact hlive pid (Or.inl (by rw [hm]; rfl))
        · exact htree id hid
      case h_2 => cases hid
  | publish pid =>
      simp only [Wqueue.touched] at hid
      split at hid
      case h_1 path i ret hm =>
        obtain rfl := List.mem_singleton.mp hid
        exact hlive pid (Or.inl (by rw [hm]; rfl))
      case h_2 => cases hid
  | wake pid =>
      simp only [Wqueue.touched] at hid
      split at hid
      case h_1 path i ret hm =>
        obtain rfl := List.mem_singleton.mp hid
        exact hlive pid (Or.inr (by rw [hm]; rfl))
      case h_2 => cases hid
  | clean pid =>
      simp only [Wqueue.touched] at hid
      split at hid
      case h_1 path i hm =>
        obtain rfl := List.mem_singleton.mp hid
        exact hlive pid (Or.inl (by rw [hm]; rfl))
      case h_2 => cases hid

/-- A step brings no freed node back; the node it may create is a new one. -/
theorem step_heap {a : Act} (hs : step rb s a = some s') :
    (s'.next = s.next ∧ ∀ i, s.heap i = none → s'.heap i = none) ∨
      (s'.next = s.next + 1 ∧ ∃ q, s'.heap = Function.update s.heap s.next (some q)) := by
  have hupdate : ∀ {i : ℕ} {q : SmeasureWqueue} (o : Option SmeasureWqueue), s.heap i = some q →
      ∀ j, s.heap j = none → Function.update s.heap i o j = none := by
    intro i q o hq j hj
    have hne : j ≠ i := by
      rintro rfl
      rw [hj] at hq
      cases hq
    rw [Function.update_of_ne hne, hj]
  cases step_taken rb hs with
  | join _ _ hq => exact Or.inl ⟨rfl, hupdate _ hq⟩
  | create => exact Or.inr ⟨rfl, _, rfl⟩
  | publishLast _ hq => exact Or.inl ⟨rfl, hupdate _ hq⟩
  | publish _ hq => exact Or.inl ⟨rfl, hupdate _ hq⟩
  | clean _ hq => exact Or.inl ⟨rfl, hupdate _ hq⟩
  | _ => exact Or.inl ⟨rfl, fun _ hi => hi⟩

/-- One step frees a node exactly when it turns from live to gone. -/
theorem Life.freed_step (h : Life s) {a : Act} (hs : step rb s a = some s') (id : ℕ) :
    (if freed s s' id then 1 else 0) + (if id < s.next ∧ s.heap id = none then 1 else 0) =
      if id < s'.next ∧ s'.heap id = none then 1 else 0 := by
  rw [freed]
  rcases step_heap hs with ⟨hnext, hgone⟩ | ⟨hnext, q, hheap⟩
  · cases hq : s.heap id with
    | none => simp [hgone id hq, hnext]
    | some q =>
        have hlt := (h.heap id q hq).1
        cases hq' : s'.heap id <;> simp [hnext, hlt]
  · rcases eq_or_ne id s.next with rfl | hne
    · simp [hheap]
    · have hlt : id < s.next + 1 ↔ id < s.next := by omega
      rw [hheap, Function.update_of_ne hne, hnext]
      cases s.heap id <;> simp [hlt]

end Preservation

section Run

variable {rb : RbTree (ℕ × CStr)}

theorem life_run {acts : List Act} {s : State} (hrun : Run.run (step rb) State.init acts = some s)
    (hok : Run.Meets (step rb) WakesFirst State.init acts) : Life s :=
  Run.run_invariant (fun _ _ _ h ha hs => life_step h ha hs) life_init hok hrun

/-- How often a run frees a node: once if it was there and is gone. -/
theorem frees_run (id : ℕ) {acts : List Act} {s s' : State} (h : Life s)
    (hrun : Run.run (step rb) s acts = some s') (hok : Run.Meets (step rb) WakesFirst s acts) :
    frees rb id s acts + (if id < s.next ∧ s.heap id = none then 1 else 0) =
      if id < s'.next ∧ s'.heap id = none then 1 else 0 := by
  induction acts generalizing s with
  | nil =>
      obtain rfl := Option.some.inj hrun
      rw [frees, Nat.zero_add]
  | cons a acts ih =>
      obtain ⟨ha, hrest⟩ := hok
      rw [Run.run_cons] at hrun
      obtain ⟨s₁, h₁, h₂⟩ := Option.bind_eq_some_iff.mp hrun
      have hstep := h.freed_step h₁ id
      have hih := ih (life_step h ha h₁) h₂ (hrest s₁ h₁)
      simp only [frees, h₁]
      omega

end Run

/-- **When the reference counting is right.**  In every run, of any number of
callers in any order, in which the last reference to a node is never dropped
between the measurer's lock section and its `wake_up`: `refer` is the number of
callers that hold the node, every node an action touches is in memory, every node
that was created and is gone was freed once and the others not at all, and what is
still in memory is still held. -/
theorem wqueue_node_lifetime (rb : RbTree (ℕ × CStr)) (acts : List Act) (s : State)
    (hrun : Run.run (step rb) State.init acts = some s)
    (hok : Run.Meets (step rb) WakesFirst State.init acts) : Lifetime rb acts s := by
  have hlife := life_run hrun hok
  refine ⟨fun id q hq => (hlife.heap id q hq).2.1, hlife.touched, fun id => ?_, fun id hid => ?_⟩
  · have hfrees := frees_run id life_init hrun hok
    rwa [if_neg (show ¬ (id < State.init.next ∧ State.init.heap id = none) from
      fun h0 => Nat.not_lt_zero _ h0.1), Nat.add_zero] at hfrees
  · obtain ⟨q, hq⟩ := Option.isSome_iff_exists.mp hid
    obtain ⟨-, hrefer, hpos⟩ := hlife.heap id q hq
    by_contra hnone
    have hzero : holders s id = 0 :=
      (Tally.tally_eq_zero (hlife.bounded id)).mpr fun pid hp => hnone ⟨pid, hp⟩
    omega

/-- Two callers for `/bin/ls`: one measures, the other waits for it. -/
def twoCallers : List Act :=
  [.handle 0 binLs true, .handle 1 binLs true, .pop 0 1, .publish 0]

/-- The measurer wakes the other caller before that one drops the last reference. -/
theorem wqueue_node_lifetime_two_callers :
    ∃ s, Run.run (step (RbTree.naive (ℕ × CStr))) State.init (twoCallers ++ [.wake 0, .clean 1]) =
        some s ∧ s.next = 1 ∧ s.heap 0 = none ∧
      Lifetime (RbTree.naive (ℕ × CStr)) (twoCallers ++ [.wake 0, .clean 1]) s := by
  refine ⟨_, rfl, rfl, rfl, wqueue_node_lifetime _ _ _ rfl ?_⟩
  refine ⟨trivial, fun s₁ h₁ => ⟨trivial, fun s₂ h₂ => ⟨trivial, fun s₃ h₃ => ⟨trivial,
    fun s₄ h₄ => ⟨trivial, fun s₅ h₅ => ⟨?_, fun _ _ => trivial⟩⟩⟩⟩⟩⟩
  obtain rfl := Option.some.inj h₁
  obtain rfl := Option.some.inj h₂
  obtain rfl := Option.some.inj h₃
  obtain rfl := Option.some.inj h₄
  obtain rfl := Option.some.inj h₅
  intro path id q _ _ _ pid p r hp
  -- after its `wake_up` the measurer is done, the other caller waits, nobody else is there
  match pid with
  | 0 => cases hp
  | 1 => cases hp
  | pid + 2 => cases hp

/-- **The node is freed before it is woken.**  The waiting caller sees the condition
without sleeping and drops the last reference; the `wake_up` that the measurer has
still to do is on a freed node. -/
theorem wqueue_wakes_freed_node :
    (∃ s, Run.run (step (RbTree.naive (ℕ × CStr))) State.init (twoCallers ++ [.clean 1]) = some s ∧
      0 ∈ touched s (.wake 0) ∧ s.heap 0 = none) ∧
      ¬ ∀ rb acts s, Run.run (step rb) State.init acts = some s → Lifetime rb acts s := by
  have hrun : ∃ s, Run.run (step (RbTree.naive (ℕ × CStr))) State.init
      (twoCallers ++ [.clean 1]) = some s ∧ 0 ∈ touched s (.wake 0) ∧ s.heap 0 = none :=
    ⟨_, rfl, List.mem_cons_self, rfl⟩
  refine ⟨hrun, fun h => ?_⟩
  obtain ⟨s, hs, ht, hfree⟩ := hrun
  have hlive := (h _ _ s hs).touched (.wake 0) 0 ht
  rw [hfree] at hlive
  cases hlive

end Wqueue
end TsbAgent
