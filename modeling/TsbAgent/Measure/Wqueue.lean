/-
# The measurement wait queue

`tsb/kernel/smeasure/engine/smeasure_wqueue.c` and `smeasure_rbtree.c`.  A
program that is already being measured is not measured again: the callers after
the first wait and take the first one's verdict.  The measurements in flight are
in a red-black tree, by path.

The key of a node is the path cut to 31 bytes (`snprintf` into `key[32]`), and
`__smeasure_wqueue_tree_compare` compares only as many bytes as the shorter key
has.  So a search for `q` finds the node of `p` whenever one of `q` and the
31-byte start of `p` begins the other (`treeCompare_eq_zero`).

The processes are modelled at the granularity of the lock sections:

| action | code |
| --- | --- |
| `handle` | `smeasure_wqueue_node_search` under the tree lock |
| `pop` | the measurement, then `smeasure_rbtree_pop` under the tree lock |
| `publish` | the node lock section of `smeasure_wqueue_wake_up` |
| `wake` | `wake_up` after that section |
| `clean` | `wait_event` passed, then `smeasure_wqueue_node_clean` |

`paths`, `measured` and `received` are not in the code: they record which path
each node was created for, which verdicts were published and which were taken.
-/

import TsbAgent.Basic
import TsbAgent.Lib.Run
import TsbAgent.Lib.SearchTree
import Mathlib.Data.Set.Defs
import Mathlib.Logic.Function.Basic

namespace TsbAgent
namespace Wqueue

open Libc SearchTree

/-- `smeasure_wqueue_t`, less the tree node and the wait head. -/
structure SmeasureWqueue where
  refer : ℕ
  condition : Bool
  result : UInt32

/-- The key of a node: `snprintf(key, 32, "%s", path)`. -/
def wqueueKey (path : CStr) : CStr := path.take 31

/-- `__smeasure_wqueue_tree_compare`. -/
def treeCompare (k₁ k₂ : CStr) : ℤ :=
  memcmp (if k₁.strlen > k₂.strlen then k₂.strlen else k₁.strlen) k₁.bytes k₂.bytes

/-- Where a caller of the measurement queue is. -/
inductive Proc
  | idle
  | measuring (path : CStr) (queue : Option ℕ)
  | popped (path : CStr) (queue : ℕ) (ret : UInt32)
  | waking (path : CStr) (queue : ℕ) (ret : UInt32)
  | waiting (path : CStr) (queue : ℕ)
  | done (path : CStr) (ret : UInt32)

/-- A verdict for a path, passed through a node. -/
structure Verdict where
  queue : ℕ
  path : CStr
  ret : UInt32
deriving DecidableEq

/-- The tree, the nodes in memory and the processes. -/
structure State where
  tree : BinaryTree (ℕ × CStr)
  heap : ℕ → Option SmeasureWqueue
  next : ℕ
  procs : ℕ → Proc
  paths : ℕ → CStr
  measured : List Verdict
  received : List Verdict

/-- `smeasure_wqueue_init`. -/
def State.init : State :=
  ⟨.nil, fun _ => none, 0, fun _ => .idle, fun _ => CStr.empty, [], []⟩

/-- One lock section of one process. -/
inductive Act
  | handle (pid : ℕ) (path : CStr) (kzalloc : Bool)
  | pop (pid : ℕ) (ret : UInt32)
  | publish (pid : ℕ)
  | wake (pid : ℕ)
  | clean (pid : ℕ)

/-- The path a call is made with. -/
def Act.path : Act → Option CStr
  | .handle _ path _ => some path
  | _ => none

section Steps

variable (rb : RbTree (ℕ × CStr))

/-- `smeasure_rbtree_search` for a path. -/
def wqueueSearch (t : BinaryTree (ℕ × CStr)) (path : CStr) : Option (ℕ × CStr) :=
  search (fun x => treeCompare path x.2) t

/-- `smeasure_rbtree_push` of a new node. -/
def wqueuePush (t : BinaryTree (ℕ × CStr)) (queue : ℕ) (path : CStr) : BinaryTree (ℕ × CStr) :=
  rb.insertColor (link (fun x => treeCompare (wqueueKey path) x.2) (queue, wqueueKey path) t)

/-- The tree after the push has the new node besides the old ones. -/
theorem inorder_wqueuePush_perm (t : BinaryTree (ℕ × CStr)) (queue : ℕ) (path : CStr) :
    (inorder (wqueuePush rb t queue path)).Perm ((queue, wqueueKey path) :: inorder t) := by
  rw [wqueuePush, rb.inorder_insertColor]
  exact inorder_link_perm ..

/-- `smeasure_wqueue_node_search`, up to the return of `smeasure_wqueue_handle`
or its `wait_event`. -/
def nodeSearch (s : State) (pid : ℕ) (path : CStr) (kzalloc : Bool) : Option State :=
  match wqueueSearch s.tree path with
  | some (id, _) =>
      (s.heap id).map fun q =>
        { s with
          heap := Function.update s.heap id (some { q with refer := q.refer + 1 })
          procs := Function.update s.procs pid (.waiting path id) }
  | none =>
      if kzalloc then
        some { s with
          tree := wqueuePush rb s.tree s.next path
          heap := Function.update s.heap s.next (some ⟨1, false, 0⟩)
          next := s.next + 1
          procs := Function.update s.procs pid (.measuring path (some s.next))
          paths := Function.update s.paths s.next path }
      else some { s with procs := Function.update s.procs pid (.measuring path none) }

/-- The node lock section of `smeasure_wqueue_wake_up`: the last reference frees. -/
def wakeUpNode (s : State) (pid : ℕ) (path : CStr) (id : ℕ) (ret : UInt32) : Option State :=
  (s.heap id).map fun q =>
    if q.refer - 1 = 0 then
      { s with
        heap := Function.update s.heap id none
        procs := Function.update s.procs pid (.done path ret)
        measured := ⟨id, path, ret⟩ :: s.measured }
    else
      { s with
        heap := Function.update s.heap id (some ⟨q.refer - 1, true, ret⟩)
        procs := Function.update s.procs pid (.waking path id ret)
        measured := ⟨id, path, ret⟩ :: s.measured }

/-- `smeasure_wqueue_node_clean`, once `wait_event` has seen the condition. -/
def nodeClean (s : State) (pid : ℕ) (path : CStr) (id : ℕ) : Option State :=
  (s.heap id).bind fun q =>
    if q.condition then
      some { s with
        heap := Function.update s.heap id
          (if q.refer - 1 = 0 then none else some { q with refer := q.refer - 1 })
        procs := Function.update s.procs pid (.done path q.result)
        received := ⟨id, path, q.result⟩ :: s.received }
    else none

/-- One step; an action of a process that is elsewhere is disabled. -/
def step (s : State) : Act → Option State
  | .handle pid path kzalloc =>
      match s.procs pid with
      | .idle => nodeSearch rb s pid path kzalloc
      | _ => none
  | .pop pid ret =>
      match s.procs pid with
      | .measuring path (some id) =>
          some { s with
            tree := rb.erase s.tree (id, wqueueKey path)
            procs := Function.update s.procs pid (.popped path id ret) }
      | .measuring path none => some { s with procs := Function.update s.procs pid (.done path ret) }
      | _ => none
  | .publish pid =>
      match s.procs pid with
      | .popped path id ret => wakeUpNode s pid path id ret
      | _ => none
  | .wake pid =>
      match s.procs pid with
      | .waking path _ ret => some { s with procs := Function.update s.procs pid (.done path ret) }
      | _ => none
  | .clean pid =>
      match s.procs pid with
      | .waiting path id => nodeClean s pid path id
      | _ => none

/-- What a step can do, action by action. -/
inductive Taken (s : State) : Act → State → Prop
  | join {pid path kzalloc id k q} (hidle : s.procs pid = .idle)
      (hs : wqueueSearch s.tree path = some (id, k)) (hq : s.heap id = some q) :
      Taken s (.handle pid path kzalloc) { s with
        heap := Function.update s.heap id (some { q with refer := q.refer + 1 })
        procs := Function.update s.procs pid (.waiting path id) }
  | create {pid path} (hidle : s.procs pid = .idle) (hs : wqueueSearch s.tree path = none) :
      Taken s (.handle pid path true) { s with
        tree := wqueuePush rb s.tree s.next path
        heap := Function.update s.heap s.next (some ⟨1, false, 0⟩)
        next := s.next + 1
        procs := Function.update s.procs pid (.measuring path (some s.next))
        paths := Function.update s.paths s.next path }
  | alone {pid path} (hidle : s.procs pid = .idle) (hs : wqueueSearch s.tree path = none) :
      Taken s (.handle pid path false)
        { s with procs := Function.update s.procs pid (.measuring path none) }
  | pop {pid path id ret} (hm : s.procs pid = .measuring path (some id)) :
      Taken s (.pop pid ret) { s with
        tree := rb.erase s.tree (id, wqueueKey path)
        procs := Function.update s.procs pid (.popped path id ret) }
  | popAlone {pid path ret} (hm : s.procs pid = .measuring path none) :
      Taken s (.pop pid ret) { s with procs := Function.update s.procs pid (.done path ret) }
  | publishLast {pid path id ret q} (hm : s.procs pid = .popped path id ret)
      (hq : s.heap id = some q) (hlast : q.refer - 1 = 0) :
      Taken s (.publish pid) { s with
        heap := Function.update s.heap id none
        procs := Function.update s.procs pid (.done path ret)
        measured := ⟨id, path, ret⟩ :: s.measured }
  | publish {pid path id ret q} (hm : s.procs pid = .popped path id ret)
      (hq : s.heap id = some q) (hleft : q.refer - 1 ≠ 0) :
      Taken s (.publish pid) { s with
        heap := Function.update s.heap id (some ⟨q.refer - 1, true, ret⟩)
        procs := Function.update s.procs pid (.waking path id ret)
        measured := ⟨id, path, ret⟩ :: s.measured }
  | wake {pid path id ret} (hm : s.procs pid = .waking path id ret) :
      Taken s (.wake pid) { s with procs := Function.update s.procs pid (.done path ret) }
  | clean {pid path id q} (hm : s.procs pid = .waiting path id) (hq : s.heap id = some q)
      (hc : q.condition = true) :
      Taken s (.clean pid) { s with
        heap := Function.update s.heap id
          (if q.refer - 1 = 0 then none else some { q with refer := q.refer - 1 })
        procs := Function.update s.procs pid (.done path q.result)
        received := ⟨id, path, q.result⟩ :: s.received }

/-- **Every step is one of these.** -/
theorem step_taken {s s' : State} {a : Act} (hs : step rb s a = some s') : Taken rb s a s' := by
  cases a with
  | handle pid path kzalloc =>
      simp only [step] at hs
      split at hs
      case h_2 => cases hs
      case h_1 hidle =>
        unfold nodeSearch at hs
        cases hf : wqueueSearch s.tree path with
        | some x =>
            rw [hf] at hs
            obtain ⟨q, hq, rfl⟩ := Option.map_eq_some_iff.mp hs
            exact .join hidle hf hq
        | none =>
            rw [hf] at hs
            cases kzalloc with
            | true =>
                obtain rfl := Option.some.inj hs
                exact .create hidle hf
            | false =>
                obtain rfl := Option.some.inj hs
                exact .alone hidle hf
  | pop pid ret =>
      simp only [step] at hs
      split at hs
      case h_1 path id hm =>
        obtain rfl := Option.some.inj hs
        exact .pop hm
      case h_2 path hm =>
        obtain rfl := Option.some.inj hs
        exact .popAlone hm
      case h_3 => cases hs
  | publish pid =>
      simp only [step] at hs
      split at hs
      case h_2 => cases hs
      case h_1 path id ret hm =>
        obtain ⟨q, hq, hs⟩ := Option.map_eq_some_iff.mp hs
        split_ifs at hs with hlast <;> subst hs
        · exact .publishLast hm hq hlast
        · exact .publish hm hq hlast
  | wake pid =>
      simp only [step] at hs
      split at hs
      case h_2 => cases hs
      case h_1 path id ret hm =>
        obtain rfl := Option.some.inj hs
        exact .wake hm
  | clean pid =>
      simp only [step] at hs
      split at hs
      case h_2 => cases hs
      case h_1 path id hm =>
        obtain ⟨q, hq, hs⟩ := Option.bind_eq_some_iff.mp hs
        by_cases hc : q.condition = true
        case neg => rw [if_neg hc] at hs; cases hs
        rw [if_pos hc] at hs
        obtain rfl := Option.some.inj hs
        exact .clean hm hq hc

end Steps

/-! ### The key comparison -/

theorem treeCompare_eq (k₁ k₂ : CStr) :
    treeCompare k₁ k₂ = memcmp (min k₁.bytes.length k₂.bytes.length) k₁.bytes k₂.bytes := by
  have hmin : (if k₁.strlen > k₂.strlen then k₂.strlen else k₁.strlen) =
      min k₁.bytes.length k₂.bytes.length := by
    unfold CStr.strlen
    split_ifs <;> omega
  rw [treeCompare, hmin]

/-- **The comparison takes a prefix for the same key.** -/
theorem treeCompare_eq_zero {k₁ k₂ : CStr} :
    treeCompare k₁ k₂ = 0 ↔ k₁.bytes <+: k₂.bytes ∨ k₂.bytes <+: k₁.bytes := by
  rw [treeCompare_eq, memcmp_min_eq_zero]

theorem treeCompare_swap (k₁ k₂ : CStr) : treeCompare k₂ k₁ = -treeCompare k₁ k₂ := by
  rw [treeCompare_eq, treeCompare_eq, min_comm, memcmp_swap]

theorem treeCompare_neg {k₁ k₂ : CStr} : treeCompare k₁ k₂ < 0 ↔
    ∃ c x y s t, k₁.bytes = c ++ x :: s ∧ k₂.bytes = c ++ y :: t ∧ x < y := by
  rw [treeCompare_eq, memcmp_neg (min_le_left _ _) (min_le_right _ _)]
  constructor
  · rintro ⟨c, x, y, s, t, h₁, h₂, -, hxy⟩
    exact ⟨c, x, y, s, t, h₁, h₂, hxy⟩
  · rintro ⟨c, x, y, s, t, h₁, h₂, hxy⟩
    refine ⟨c, x, y, s, t, h₁, h₂, ?_, hxy⟩
    rw [h₁, h₂, List.length_append, List.length_append, List.length_cons, List.length_cons]
    omega

/-- A path and its key compare alike against another key. -/
theorem treeCompare_key_neg {p q : CStr} :
    treeCompare (wqueueKey q) (wqueueKey p) < 0 ↔ treeCompare q (wqueueKey p) < 0 := by
  rw [treeCompare_neg, treeCompare_neg]
  constructor
  · rintro ⟨c, x, y, s, t, h₁, h₂, hxy⟩
    obtain ⟨r, hr⟩ := List.take_prefix 31 q.bytes
    refine ⟨c, x, y, s ++ r, t, ?_, h₂, hxy⟩
    rw [← hr, show q.bytes.take 31 = c ++ x :: s from h₁, List.append_assoc, List.cons_append]
  · rintro ⟨c, x, y, s, t, h₁, h₂, hxy⟩
    have hc : c.length < 31 := by
      have hlen := congrArg List.length h₂
      rw [List.length_append, List.length_cons] at hlen
      have hkey : (wqueueKey p).bytes.length ≤ 31 := List.length_take_le 31 p.bytes
      omega
    obtain ⟨k, hk⟩ : ∃ k, 31 = c.length + (k + 1) := ⟨30 - c.length, by omega⟩
    refine ⟨c, x, y, s.take k, t, ?_, h₂, hxy⟩
    change q.bytes.take 31 = c ++ x :: s.take k
    rw [h₁, hk, List.take_length_add_append, List.take_succ_cons]

theorem treeCompare_trans {k₁ k₂ k₃ : CStr} (h₁₂ : treeCompare k₁ k₂ < 0)
    (h₂₃ : treeCompare k₂ k₃ < 0) : treeCompare k₁ k₃ < 0 := by
  obtain ⟨c, x, y, s, t, h₁, h₂, hxy⟩ := treeCompare_neg.mp h₁₂
  obtain ⟨d, u, v, s', t', h₂', h₃, huv⟩ := treeCompare_neg.mp h₂₃
  refine treeCompare_neg.mpr ?_
  rcases List.append_eq_append_iff.mp (h₂.symm.trans h₂') with ⟨e, rfl, he⟩ | ⟨e, rfl, he⟩
  · rcases e with _ | ⟨z, e⟩
    · obtain ⟨rfl, -⟩ := List.cons.inj he
      exact ⟨c, x, v, s, t', h₁, by simpa using h₃, UInt8.lt_trans hxy huv⟩
    · obtain ⟨rfl, -⟩ := List.cons.inj he
      exact ⟨c, x, y, s, e ++ v :: t', h₁, by simpa using h₃, hxy⟩
  · rcases e with _ | ⟨z, e⟩
    · obtain ⟨rfl, -⟩ := List.cons.inj he
      exact ⟨d, x, v, s, t', by simpa using h₁, h₃, UInt8.lt_trans hxy huv⟩
    · obtain ⟨rfl, -⟩ := List.cons.inj he
      exact ⟨d, u, v, e ++ x :: s, t', by simpa using h₁, h₃, huv⟩

/-- No path of `P` begins with the key of another, and none begins the key of
another. -/
def NoPrefix (P : Set CStr) : Prop :=
  ∀ p ∈ P, ∀ q ∈ P,
    ((wqueueKey p).bytes <+: q.bytes ∨ q.bytes <+: (wqueueKey p).bytes) → q = p

/-- The comparisons of the search and of the insertion are one total order on
`P`, and its equality is equality of paths. -/
structure KeyOrder (P : Set CStr) : Prop where
  search_eq : ∀ p ∈ P, ∀ q ∈ P, treeCompare q (wqueueKey p) = 0 ↔ q = p
  push_eq : ∀ p ∈ P, ∀ q ∈ P, treeCompare (wqueueKey q) (wqueueKey p) = 0 ↔ q = p
  search_push : ∀ p ∈ P, ∀ q ∈ P,
    treeCompare q (wqueueKey p) < 0 ↔ treeCompare (wqueueKey q) (wqueueKey p) < 0
  swap : ∀ p ∈ P, ∀ q ∈ P,
    treeCompare (wqueueKey p) (wqueueKey q) < 0 ↔ 0 < treeCompare (wqueueKey q) (wqueueKey p)
  trans : ∀ p ∈ P, ∀ q ∈ P, ∀ r ∈ P, treeCompare (wqueueKey p) (wqueueKey q) < 0 →
    treeCompare (wqueueKey q) (wqueueKey r) < 0 → treeCompare (wqueueKey p) (wqueueKey r) < 0

theorem wqueueKey_begins (p : CStr) : (wqueueKey p).bytes <+: p.bytes := List.take_prefix _ _

/-- **The comparison orders the paths exactly when none begins with another's
key.** -/
theorem keyOrder_iff (P : Set CStr) : KeyOrder P ↔ NoPrefix P := by
  constructor
  · intro h p hp q hq hpq
    exact (h.search_eq p hp q hq).mp (treeCompare_eq_zero.mpr hpq.symm)
  · intro h
    refine ⟨fun p hp q hq => ⟨fun h0 => ?_, ?_⟩, fun p hp q hq => ⟨fun h0 => ?_, ?_⟩,
      fun p _ q _ => treeCompare_key_neg.symm, fun p _ q _ => ?_,
      fun p _ q _ r _ => treeCompare_trans⟩
    · exact h p hp q hq (treeCompare_eq_zero.mp h0).symm
    · rintro rfl
      exact treeCompare_eq_zero.mpr (Or.inr (wqueueKey_begins q))
    · rcases treeCompare_eq_zero.mp h0 with h1 | h1
      · exact (h q hq p hp (Or.inl (h1.trans (wqueueKey_begins p)))).symm
      · exact h p hp q hq (Or.inl (h1.trans (wqueueKey_begins q)))
    · rintro rfl
      exact treeCompare_eq_zero.mpr (Or.inl List.prefix_rfl)
    · rw [treeCompare_swap (wqueueKey q)]
      omega

/-! ### What every run keeps -/

/-- A caller and the node it holds are about the same path. -/
def ProcOk (s : State) : Proc → Prop
  | .measuring path (some id) =>
      path = s.paths id ∧ id < s.next ∧ (id, wqueueKey path) ∈ inorder s.tree
  | .popped path id _ => path = s.paths id ∧ id < s.next
  | .waiting path id => path = s.paths id ∧ id < s.next
  | _ => True

/-- The invariant: every node in the tree carries the key of its path, every
caller holds a node of its path, a node has one measurer, and what was published
or received was measured. -/
structure Inv (P : Set CStr) (s : State) : Prop where
  node : ∀ x ∈ inorder s.tree, x.2 = wqueueKey (s.paths x.1) ∧ s.paths x.1 ∈ P ∧ x.1 < s.next
  proc : ∀ pid, ProcOk s (s.procs pid)
  owner : ∀ pid pid' p p' id, s.procs pid = .measuring p (some id) →
    s.procs pid' = .measuring p' (some id) → pid = pid'
  heap : ∀ id q, s.heap id = some q →
    id < s.next ∧ (q.condition = true → ⟨id, s.paths id, q.result⟩ ∈ s.measured)
  received : ∀ v ∈ s.received, v ∈ s.measured

theorem inv_init (P : Set CStr) : Inv P State.init := by
  refine ⟨fun x hx => ?_, fun _ => trivial, fun _ _ _ _ _ h => ?_, fun _ _ h => ?_, fun v hv => ?_⟩
  · exact absurd hx List.not_mem_nil
  · exact Proc.noConfusion h
  · exact absurd h (by simp [State.init])
  · exact absurd hv List.not_mem_nil

section Preservation

variable {rb : RbTree (ℕ × CStr)} {P : Set CStr} {s s' : State} {pid id : ℕ} {path : CStr}

/-- The callers that hold no node of theirs being changed stay in order. -/
theorem ProcOk.mono {pr : Proc} (h : ProcOk s pr) (hnext : s.next ≤ s'.next)
    (hpaths : ∀ i < s.next, s'.paths i = s.paths i)
    (htree : ∀ p i, pr = .measuring p (some i) → (i, wqueueKey p) ∈ inorder s.tree →
      (i, wqueueKey p) ∈ inorder s'.tree) : ProcOk s' pr := by
  cases pr with
  | measuring p q =>
      cases q with
      | none => trivial
      | some i =>
          obtain ⟨h₁, h₂, h₃⟩ := h
          exact ⟨h₁.trans (hpaths i h₂).symm, by omega, htree p i rfl h₃⟩
  | popped p i r => exact ⟨h.1.trans (hpaths i h.2).symm, by have := h.2; omega⟩
  | waiting p i => exact ⟨h.1.trans (hpaths i h.2).symm, by have := h.2; omega⟩
  | _ => trivial

/-- A step of one caller that creates no node. -/
theorem Inv.update {pr : Proc} (h : Inv P s)
    (hprocs : s'.procs = Function.update s.procs pid pr) (hnext : s'.next = s.next)
    (hpaths : s'.paths = s.paths) (htree : ∀ x ∈ inorder s'.tree, x ∈ inorder s.tree)
    (hkeep : ∀ pid', pid' ≠ pid → ∀ p i, s.procs pid' = .measuring p (some i) →
      (i, wqueueKey p) ∈ inorder s.tree → (i, wqueueKey p) ∈ inorder s'.tree)
    (hpr : ProcOk s' pr) (hnew : ∀ p i, pr ≠ .measuring p (some i))
    {o : Option SmeasureWqueue} (hheap : s'.heap = Function.update s.heap id o)
    (ho : ∀ q, o = some q →
      id < s.next ∧ (q.condition = true → ⟨id, s.paths id, q.result⟩ ∈ s'.measured))
    (hmeas : ∀ v ∈ s.measured, v ∈ s'.measured)
    (hrec : ∀ v ∈ s'.received, v ∈ s'.measured) : Inv P s' := by
  refine ⟨fun x hx => ?_, fun pid' => ?_, fun pid₁ pid₂ p₁ p₂ i h₁ h₂ => ?_, fun i q hq => ?_, hrec⟩
  · rw [hnext, hpaths]
    exact h.node x (htree x hx)
  · rw [hprocs]
    rcases eq_or_ne pid' pid with rfl | hne
    · rwa [Function.update_self]
    · rw [Function.update_of_ne hne]
      exact (h.proc pid').mono hnext.ge (fun i _ => congrFun hpaths i)
        fun p i hpi => hkeep pid' hne p i hpi
  · have hold : ∀ pid' p, s'.procs pid' = .measuring p (some i) →
        s.procs pid' = .measuring p (some i) := by
      intro pid' p hp
      rw [hprocs] at hp
      rcases eq_or_ne pid' pid with rfl | hne
      · rw [Function.update_self] at hp
        exact absurd hp (hnew p i)
      · rwa [Function.update_of_ne hne] at hp
    exact h.owner pid₁ pid₂ p₁ p₂ i (hold _ _ h₁) (hold _ _ h₂)
  · rw [hnext, hpaths]
    rw [hheap] at hq
    rcases eq_or_ne i id with rfl | hne
    · rw [Function.update_self] at hq
      exact ho q hq
    · rw [Function.update_of_ne hne] at hq
      exact ⟨(h.heap i q hq).1, fun hc => hmeas _ ((h.heap i q hq).2 hc)⟩

/-- A step of one caller that moves it on and leaves the nodes alone. -/
theorem Inv.advance {pr : Proc} (h : Inv P s) (hpr : ProcOk s pr)
    (hnew : ∀ p i, pr ≠ .measuring p (some i)) :
    Inv P { s with procs := Function.update s.procs pid pr } := by
  refine h.update rfl rfl rfl (fun _ hx => hx) (fun _ _ _ _ _ hx => hx) ?_ hnew
    (Function.update_eq_self 0 s.heap).symm (fun q hq => h.heap 0 q hq) (fun _ hv => hv) h.received
  exact hpr.mono le_rfl (fun _ _ => rfl) fun _ _ _ hx => hx

/-- The caller that finds a node waits for the node of its own path. -/
theorem Inv.join (hP : NoPrefix P) (h : Inv P s) {k : CStr} {q : SmeasureWqueue} (hpath : path ∈ P)
    (hs : wqueueSearch s.tree path = some (id, k)) (hq : s.heap id = some q) :
    Inv P { s with
      heap := Function.update s.heap id (some { q with refer := q.refer + 1 })
      procs := Function.update s.procs pid (.waiting path id) } := by
  obtain ⟨hmem, hcmp⟩ := search_eq_some hs
  obtain ⟨hk, hin, hlt⟩ := h.node _ hmem
  have hpid : path = s.paths id := by
    rw [hk] at hcmp
    exact hP _ hin _ hpath (treeCompare_eq_zero.mp hcmp).symm
  refine h.update rfl rfl rfl (fun _ hx => hx) (fun _ _ _ _ _ hx => hx) ⟨hpid, hlt⟩
    (fun _ _ => Proc.noConfusion) rfl (fun r hr => ?_) (fun _ hv => hv) h.received
  obtain rfl := Option.some.inj hr
  exact h.heap id q hq

/-- The caller that finds none creates the node of its path. -/
theorem Inv.create (h : Inv P s) (hpath : path ∈ P) :
    Inv P { s with
      tree := wqueuePush rb s.tree s.next path
      heap := Function.update s.heap s.next (some ⟨1, false, 0⟩)
      next := s.next + 1
      procs := Function.update s.procs pid (.measuring path (some s.next))
      paths := Function.update s.paths s.next path } := by
  have hold : ∀ i < s.next, Function.update s.paths s.next path i = s.paths i :=
    fun i hi => Function.update_of_ne (by omega) ..
  have htree : ∀ x, x ∈ inorder (wqueuePush rb s.tree s.next path) ↔
      x = (s.next, wqueueKey path) ∨ x ∈ inorder s.tree := by
    intro x
    rw [(inorder_wqueuePush_perm rb s.tree s.next path).mem_iff, List.mem_cons]
  refine ⟨fun x hx => ?_, fun pid' => ?_, fun pid₁ pid₂ p₁ p₂ i h₁ h₂ => ?_, fun i q hq => ?_,
    h.received⟩
  · rcases (htree x).mp hx with rfl | hx
    · simp only [Function.update_self]
      exact ⟨trivial, hpath, by omega⟩
    · obtain ⟨hk, hin, hlt⟩ := h.node x hx
      simp only [hold _ hlt]
      exact ⟨hk, hin, by omega⟩
  · rcases eq_or_ne pid' pid with rfl | hne
    · have hself : path = Function.update s.paths s.next path s.next := by
        rw [Function.update_self]
      simp only [Function.update_self]
      exact ⟨hself, Nat.lt_succ_self _, (htree _).mpr (Or.inl rfl)⟩
    · simp only [Function.update_of_ne hne]
      exact (h.proc pid').mono (Nat.le_succ _) hold fun p i _ hx => (htree _).mpr (Or.inr hx)
  · have hnew : ∀ pid' p, Function.update s.procs pid (.measuring path (some s.next)) pid' =
        .measuring p (some i) → pid' = pid ∧ i = s.next ∨
          i < s.next ∧ s.procs pid' = .measuring p (some i) := by
      intro pid' p hp
      rcases eq_or_ne pid' pid with rfl | hne
      · rw [Function.update_self] at hp
        injection hp with _ hi
        exact Or.inl ⟨rfl, (Option.some.inj hi).symm⟩
      · rw [Function.update_of_ne hne] at hp
        have hok := h.proc pid'
        rw [hp] at hok
        exact Or.inr ⟨hok.2.1, hp⟩
    rcases hnew _ _ h₁ with ⟨rfl, hi⟩ | ⟨hlt, h₁⟩ <;> rcases hnew _ _ h₂ with ⟨rfl, hj⟩ | ⟨hlt', h₂⟩
    · rfl
    · omega
    · omega
    · exact h.owner pid₁ pid₂ p₁ p₂ i h₁ h₂
  · rcases eq_or_ne i s.next with rfl | hne
    · simp only [Function.update_self, Option.some.injEq] at hq
      subst hq
      exact ⟨by simp, fun hc => absurd hc Bool.false_ne_true⟩
    · simp only [Function.update_of_ne hne] at hq
      obtain ⟨hlt, hm⟩ := h.heap i q hq
      simp only [hold i hlt]
      exact ⟨by omega, hm⟩

theorem Inv.pop (h : Inv P s) {ret : UInt32} (hm : s.procs pid = .measuring path (some id)) :
    Inv P { s with
      tree := rb.erase s.tree (id, wqueueKey path)
      procs := Function.update s.procs pid (.popped path id ret) } := by
  have hok := h.proc pid
  rw [hm] at hok
  obtain ⟨hp, hlt, hin⟩ := hok
  refine h.update rfl rfl rfl (fun x hx => rb.mem_of_mem_erase hin hx)
    (fun pid' hne p i hpi hx => rb.mem_erase_of_ne hin (fun he => hne ?_) hx) ⟨hp, hlt⟩
    (fun _ _ => Proc.noConfusion) (Function.update_eq_self id s.heap).symm
    (fun q hq => h.heap id q hq) (fun _ hv => hv) h.received
  obtain ⟨rfl, -⟩ := Prod.ext_iff.mp he
  exact h.owner pid' pid p path i hpi hm

/-- Publishing a verdict, with the node left in memory or not. -/
theorem Inv.publish (h : Inv P s) {ret : UInt32} {pr : Proc} {o : Option SmeasureWqueue}
    (hm : s.procs pid = .popped path id ret) (hpr : ProcOk s pr)
    (hnew : ∀ p i, pr ≠ .measuring p (some i)) (ho : ∀ q, o = some q → q.result = ret) :
    Inv P { s with
      heap := Function.update s.heap id o
      procs := Function.update s.procs pid pr
      measured := ⟨id, path, ret⟩ :: s.measured } := by
  have hok := h.proc pid
  rw [hm] at hok
  obtain ⟨rfl, hlt⟩ := hok
  have hgrow : ∀ v ∈ s.measured, v ∈ Verdict.mk id (s.paths id) ret :: s.measured :=
    fun v hv => List.mem_cons_of_mem _ hv
  refine h.update rfl rfl rfl (fun _ hx => hx) (fun _ _ _ _ _ hx => hx)
    (hpr.mono le_rfl (fun _ _ => rfl) fun _ _ _ hx => hx) hnew rfl (fun q hq => ⟨hlt, fun _ => ?_⟩)
    hgrow fun v hv => hgrow v (h.received v hv)
  rw [ho q hq]
  exact List.mem_cons_self

theorem Inv.clean (h : Inv P s) {q : SmeasureWqueue} {o : Option SmeasureWqueue}
    (hm : s.procs pid = .waiting path id) (hq : s.heap id = some q) (hc : q.condition = true)
    (ho : ∀ r, o = some r → r.result = q.result) :
    Inv P { s with
      heap := Function.update s.heap id o
      procs := Function.update s.procs pid (.done path q.result)
      received := ⟨id, path, q.result⟩ :: s.received } := by
  have hok := h.proc pid
  rw [hm] at hok
  obtain ⟨rfl, hlt⟩ := hok
  have hmeas := (h.heap id q hq).2 hc
  refine h.update rfl rfl rfl (fun _ hx => hx) (fun _ _ _ _ _ hx => hx) trivial
    (fun _ _ => Proc.noConfusion) rfl (fun r hr => ⟨hlt, fun _ => ?_⟩) (fun _ hv => hv)
    (fun v hv => ?_)
  · rw [ho r hr]
    exact hmeas
  · rcases List.mem_cons.mp hv with rfl | hv
    · exact hmeas
    · exact h.received v hv

/-- **One lock section keeps the invariant**, for calls with paths of `P`. -/
theorem inv_step (hP : NoPrefix P) (h : Inv P s) {a : Act} (ha : ∀ p, a.path = some p → p ∈ P)
    (hs : step rb s a = some s') : Inv P s' := by
  cases step_taken rb hs with
  | join _ hf hq => exact h.join hP (ha _ rfl) hf hq
  | create => exact h.create (ha _ rfl)
  | alone => exact h.advance trivial fun _ _ he => by simp at he
  | pop hm => exact h.pop hm
  | popAlone => exact h.advance trivial fun _ _ => Proc.noConfusion
  | publishLast hm => exact h.publish hm trivial (fun _ _ => Proc.noConfusion) (fun _ hq => nomatch hq)
  | publish hm =>
      refine h.publish hm trivial (fun _ _ => Proc.noConfusion) fun q hq => ?_
      obtain rfl := Option.some.inj hq
      rfl
  | wake => exact h.advance trivial fun _ _ => Proc.noConfusion
  | clean hm hq hc =>
      refine h.clean hm hq hc fun r hr => ?_
      split_ifs at hr
      obtain rfl := Option.some.inj hr
      rfl

end Preservation

/-- In every run of calls with paths of `P`: a caller waits only for a
measurement of its own path, and the verdict it takes is one that a measurement
of that path produced. -/
def Delivery (rb : RbTree (ℕ × CStr)) (P : Set CStr) : Prop :=
  ∀ acts s, (∀ a ∈ acts, ∀ p, a.path = some p → p ∈ P) →
    Run.run (step rb) State.init acts = some s →
      (∀ pid p id, s.procs pid = .waiting p id → p = s.paths id) ∧
        ∀ v ∈ s.received, v ∈ s.measured

section Delivery

variable {rb : RbTree (ℕ × CStr)} {P : Set CStr}

theorem inv_run (hP : NoPrefix P) {acts : List Act} {s : State}
    (hacts : ∀ a ∈ acts, ∀ p, a.path = some p → p ∈ P)
    (hrun : Run.run (step rb) State.init acts = some s) : Inv P s := by
  have hmeets : Run.Meets (step rb) (fun _ a => ∀ p, a.path = some p → p ∈ P) State.init acts :=
    Run.meets_of_forall fun a ha _ => hacts a ha
  exact Run.run_invariant (fun _ _ _ h ha hs => inv_step hP h ha hs) (inv_init P) hmeets hrun

/-- The state after one call that finds no node. -/
def firstCall (rb : RbTree (ℕ × CStr)) (p : CStr) : State :=
  { State.init with
    tree := wqueuePush rb .nil 0 p
    heap := Function.update State.init.heap 0 (some ⟨1, false, 0⟩)
    next := 1
    procs := Function.update State.init.procs 0 (.measuring p (some 0))
    paths := Function.update State.init.paths 0 p }

/-- The state after a second call that joins the first. -/
def secondCall (rb : RbTree (ℕ × CStr)) (p q : CStr) : State :=
  { firstCall rb p with
    heap := Function.update (firstCall rb p).heap 0 (some ⟨2, false, 0⟩)
    procs := Function.update (firstCall rb p).procs 1 (.waiting q 0) }

theorem step_firstCall (rb : RbTree (ℕ × CStr)) (p : CStr) :
    step rb State.init (.handle 0 p true) = some (firstCall rb p) := rfl

/-- A call with a path that the key of the first matches waits for the first. -/
theorem step_secondCall (rb : RbTree (ℕ × CStr)) {p q : CStr} (h : treeCompare q (wqueueKey p) = 0) :
    step rb (firstCall rb p) (.handle 1 q true) = some (secondCall rb p q) := by
  have hsearch : wqueueSearch (firstCall rb p).tree q = some (0, wqueueKey p) := by
    refine search_of_inorder_singleton ?_ h
    change inorder (rb.insertColor _) = _
    rw [rb.inorder_insertColor]
    rfl
  change nodeSearch rb (firstCall rb p) 1 q true = _
  rw [nodeSearch, hsearch]
  rfl

theorem run_join (rb : RbTree (ℕ × CStr)) {p q : CStr} (h : treeCompare q (wqueueKey p) = 0) :
    Run.run (step rb) State.init [.handle 0 p true, .handle 1 q true] = some (secondCall rb p q) := by
  rw [Run.run_cons_of_step (step_firstCall rb p), Run.run_cons_of_step (step_secondCall rb h),
    Run.run_nil]

end Delivery

/-- **When the verdicts are those of the caller's own path.**  For every
red-black tree and every set `P` of paths: no run over `P` joins two paths or
hands one the verdict of another, if and only if the comparison is a total order
on `P` whose equality is equality of paths, if and only if no path of `P` begins
with the 31-byte key of another or begins that key. -/
theorem wqueue_delivery_iff (rb : RbTree (ℕ × CStr)) (P : Set CStr) :
    (Delivery rb P ↔ NoPrefix P) ∧ (KeyOrder P ↔ NoPrefix P) := by
  refine ⟨⟨fun h p hp q hq hpq => ?_, fun hP acts s hacts hrun => ?_⟩, keyOrder_iff P⟩
  · have hrun := run_join rb (treeCompare_eq_zero.mpr hpq.symm)
    have hacts : ∀ a ∈ [Act.handle 0 p true, Act.handle 1 q true],
        ∀ r, a.path = some r → r ∈ P := by
      intro a ha r hr
      rcases List.mem_pair.mp ha with rfl | rfl
      · exact Option.some.inj hr ▸ hp
      · exact Option.some.inj hr ▸ hq
    exact (h _ _ hacts hrun).1 1 q 0 rfl
  · have hinv := inv_run hP hacts hrun
    refine ⟨fun pid p id hw => ?_, hinv.received⟩
    have hok := hinv.proc pid
    rw [hw] at hok
    exact hok.1

/-- The paths `/bin/ls` and `/bin/lsblk`. -/
def binLs : CStr := ⟨[47, 98, 105, 110, 47, 108, 115], by decide⟩

@[inherit_doc binLs] def binLsblk : CStr := ⟨[47, 98, 105, 110, 47, 108, 115, 98, 108, 107], by decide⟩

/-- **A caller takes the verdict on another program.**  `/bin/ls` is being
measured; a call for `/bin/lsblk` joins it and takes its verdict `1`, although
the only measurement ever made is that of `/bin/ls`. -/
theorem wqueue_joins_other_path :
    (∃ acts s, Run.run (step (RbTree.naive (ℕ × CStr))) State.init acts = some s ∧
      s.measured = [⟨0, binLs, 1⟩] ∧ s.received = [⟨0, binLsblk, 1⟩]) ∧
      ¬ ∀ rb, Delivery rb Set.univ := by
  have hrun : ∃ acts s, Run.run (step (RbTree.naive (ℕ × CStr))) State.init acts = some s ∧
      s.measured = [⟨0, binLs, 1⟩] ∧ s.received = [⟨0, binLsblk, 1⟩] :=
    ⟨[.handle 0 binLs true, .handle 1 binLsblk true, .pop 0 1, .publish 0, .wake 0, .clean 1],
      _, rfl, rfl, rfl⟩
  refine ⟨hrun, fun h => ?_⟩
  obtain ⟨acts, s, hs, hm, hr⟩ := hrun
  have hsub := (h _ acts s (fun _ _ _ _ => trivial) hs).2 ⟨0, binLsblk, 1⟩
  rw [hm, hr] at hsub
  exact absurd (hsub List.mem_cons_self) (by decide)

end Wqueue
end TsbAgent
