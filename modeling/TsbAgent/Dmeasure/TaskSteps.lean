/-
# A step is a sequence of moves

`step_moves`: a permitted step, from a state in order, ends without a fault and has made moves.  First what the
functions find in such a state, where every read succeeds; then the steps, one by one.  `run_moves` is the
induction over runs.
-/

import TsbAgent.Dmeasure.TaskMoves

namespace TsbAgent
namespace Dmeasure
namespace Tasks

open Run Relation Libc

/-! ### What the functions find -/

section Reads

variable {s : State} {p e k : ℕ} {o : PolicyObject} {x : DtaskInfo} {t : Task}

theorem policy_ok (ho : s.policies.read p = some o) : s.policy p = .ok o := by
  unfold State.policy
  rw [ho]

theorem entry_ok (hx : s.entries.read e = some x) : s.entry e = .ok x := by
  unfold State.entry
  rw [hx]

theorem Inv.search_list (h : Inv s) (f : ProcessPolicy → Bool) :
    Heap.search (fun p => do let o ← s.policy p; pure (f o.item)) s.list =
      .ok (s.list.find? fun p => (s.policies.read p).any fun o => f o.item) := by
  refine Heap.search_eq fun p hp => ?_
  obtain ⟨o, ho⟩ := h.listed p hp
  rw [policy_ok ho, ho]
  rfl

theorem Inv.queryPolicyDmeasureProcess_eq (h : Inv s) (q : Query) :
    s.queryPolicyDmeasureProcess q =
      .ok (s.list.find? fun p => (s.policies.read p).any fun o => q.isExist o.item) :=
  h.search_list q.isExist

theorem Inv.checkDtaskInfo_eq (h : Inv s) (t : Task) :
    s.checkDtaskInfo t = .ok (s.table.find? (Measured s t)) := by
  refine Heap.search_eq fun e he => ?_
  obtain ⟨x, hx⟩ := h.registered e he
  obtain ⟨o, ho⟩ := h.policy e x hx
  rw [entry_ok hx, Measured, hx, Option.any_some]
  by_cases htask : x.task = t
  · show (if x.task = t then (do let o ← s.policy x.policy; pure o.processSwitch) else pure false) = _
    rw [if_pos htask, policy_ok ho, ho]
    simp only [htask, true_and, Option.any_some, Bool.decide_eq_true]
    rfl
  · show (if x.task = t then (do let o ← s.policy x.policy; pure o.processSwitch) else pure false) = _
    rw [if_neg htask]
    simp only [htask, false_and, decide_false]
    rfl

/-- All nodes of the list can be read. -/
theorem Inv.mapM_list (h : Inv s) :
    ∃ objects, s.list.mapM s.policy = .ok objects ∧ objects.length = s.list.length := by
  have hall : ∀ l : List ℕ, (∀ p ∈ l, ∃ o, s.policies.read p = some o) →
      ∃ objects, l.mapM s.policy = .ok objects ∧ objects.length = l.length := by
    intro l hl
    induction l with
    | nil => exact ⟨[], rfl, rfl⟩
    | cons p l ih =>
        obtain ⟨⟨o, ho⟩, hrest⟩ := List.forall_mem_cons.mp hl
        obtain ⟨objects, hobjects, hlen⟩ := ih hrest
        refine ⟨o :: objects, ?_, congrArg (· + 1) hlen⟩
        rw [List.mapM_cons, policy_ok ho, hobjects]
        rfl
  exact hall s.list h.listed

theorem removeTaskInfo_eq (he : e ∈ s.table) (hx : s.entries.read e = some x)
    (ho : s.policies.read x.policy = some o) : s.removeTaskInfo e = .ok (s.removed e x o) := by
  unfold State.removeTaskInfo
  rw [entry_ok hx]
  show (do let o ← s.policy x.policy; if e ∈ s.table then .ok (s.removed e x o) else .error (Fault.entry e)) = _
  rw [policy_ok ho]
  exact if_pos he

/-- The work of an entry that is not checked just now is cancelled. -/
theorem setWork_removed (hrun : ¬ (s.work e).Running) : (s.removed e x o).setWork e .idle = s.removed e x o := by
  have hidle := cancel_eq_idle hrun
  unfold State.setWork State.removed
  rw [hidle, Function.update_idem]

/-- A task without an entry that is measured may be registered, when nobody else does it. -/
theorem fresh_of_find (hreg : ¬ Registering s t) (hnone : s.table.find? (Measured s t) = none) : Fresh s t :=
  ⟨hreg, fun e he => by simpa using List.find?_eq_none.mp hnone e he⟩

end Reads

/-! ### A step is a sequence of moves -/

section Steps

variable {exact unique : Prop} {s s' : State} {ev : Event} {m : Except Fault State}

/-- A step ends without a fault, and has made moves. -/
def Moves (exact unique : Prop) (s : State) (m : Except Fault State) : Prop :=
  ∃ s', m = .ok s' ∧ ReflTransGen (Move exact unique) s s'

theorem moves_same : Moves exact unique s (.ok s) := ⟨s, rfl, .refl⟩

theorem moves_single (h : Move exact unique s s') : Moves exact unique s (.ok s') := ⟨s', rfl, .single h⟩

/-- A thread goes on without a policy and without a task. -/
theorem moves_thread {k : ℕ} {th : Thread} (hold : (s.threads k).owns = none) (howns : th.owns = none)
    (hholds : th.holds = none) (hreg : th.registers = none) : Moves exact unique s (.ok (s.setThread k th)) := by
  refine moves_single (.thread k th hold howns (fun p hp => ?_) fun _ t ht => ?_)
  · rw [hholds] at hp
    exact absurd hp (by simp)
  · rw [hreg] at ht
    exact absurd ht (by simp)

/-- A thread goes on with a policy it already has. -/
theorem moves_keep {k p : ℕ} {th : Thread} (h : Inv s) (hold : (s.threads k).owns = none) (howns : th.owns = none)
    (hhas : (s.threads k).holds = some p) (hholds : th.holds = none ∨ th.holds = some p)
    (hreg : th.registers = none) : Moves exact unique s (.ok (s.setThread k th)) := by
  refine moves_single (.thread k th hold howns (fun q hq => ?_) fun _ t ht => ?_)
  · rcases hholds with hnone | hsome
    · rw [hnone] at hq
      exact absurd hq (by simp)
    · obtain rfl := Option.some.inj (hsome.symm.trans hq)
      exact h.held _ (.inl ⟨k, hhas⟩)
  · rw [hreg] at ht
    exact absurd ht (by simp)

/-- A thread has asked for the entry of a task, and begins to register it when there is none. -/
theorem moves_check {k : ℕ} {t : Task} {th : Thread} (h : Inv s) (halone : unique → ¬ Registering s t)
    (hold : (s.threads k).owns = none) (howns : th.owns = none)
    (halive : ∀ p, th.holds = some p → ∃ o, s.policies.read p = some o) (hreg : th.registers = some t) :
    Moves exact unique s (do
      let old ← s.checkDtaskInfo t
      .ok (if old.isSome then s else s.setThread k th)) := by
  rw [h.checkDtaskInfo_eq]
  show Moves exact unique s (.ok (if (s.table.find? (Measured s t)).isSome then s else _))
  split_ifs with hfound
  · exact moves_same
  · refine moves_single (.thread k th hold howns halive fun hu t' ht' => .inr ?_)
    obtain rfl := Option.some.inj (hreg.symm.trans ht')
    exact fresh_of_find (halone hu) (by simpa using hfound)

theorem Inv.held_thread {k p : ℕ} (h : Inv s) (hk : (s.threads k).holds = some p) :
    ∃ o, s.policies.read p = some o :=
  h.held p (.inl ⟨k, hk⟩)

/-- The threads that add policies and collect tasks. -/
theorem threadStep_moves (h : Inv s) (hsafe : Safe s ev) (hcount : exact → Counted s ev)
    (halone : unique → Alone s ev) (hs : threadStep s ev = some m) : Moves exact unique s m := by
  cases ev with
  | add k x =>
      simp only [threadStep] at hs
      split at hs
      case h_2 => exact absurd hs (by simp)
      case h_1 hk =>
        obtain rfl := Option.some.inj hs
        obtain ⟨objects, hobjects, hlen⟩ := h.mapM_list
        unfold State.addPolicy
        rw [hobjects]
        refine moves_single (.add k _ x hk ?_)
        have hle := addPosition_le (objects.map (·.item.objectIdType)) x.objectIdType
        rwa [List.length_map, hlen] at hle
  | addDone k isStart =>
      simp only [threadStep] at hs
      split at hs
      case h_2 => exact absurd hs (by simp)
      case h_1 p hk =>
        obtain rfl := Option.some.inj hs
        obtain ⟨o, ho⟩ := h.held_thread (k := k) (p := p) (by rw [hk]; rfl)
        rw [policy_ok ho]
        refine moves_thread (by rw [hk]; rfl) ?_ ?_ ?_ <;> split_ifs <;> rfl
  | collect k =>
      simp only [threadStep] at hs
      split at hs
      case h_2 => exact absurd hs (by simp)
      case h_1 hk =>
        obtain rfl := Option.some.inj hs
        exact moves_thread (by rw [hk]; rfl) rfl rfl rfl
  | check k t q =>
      simp only [threadStep] at hs
      split at hs
      case h_2 => exact absurd hs (by simp)
      case h_1 hk =>
        obtain rfl := Option.some.inj hs
        exact moves_check h halone (by rw [hk]; rfl) rfl (fun p hp => absurd hp (by simp [Thread.holds])) rfl
  | query k ready =>
      simp only [threadStep] at hs
      split at hs
      case h_2 => exact absurd hs (by simp)
      case h_1 t q hk =>
        split_ifs at hs with hready
        · obtain rfl := Option.some.inj hs
          rw [h.queryPolicyDmeasureProcess_eq]
          cases hfind : s.list.find? fun p => (s.policies.read p).any fun o => q.isExist o.item with
          | none => exact moves_thread (by rw [hk]; rfl) rfl rfl rfl
          | some p =>
              refine moves_single (.thread k _ (by rw [hk]; rfl) rfl (fun p' hp' => ?_) fun _ t' ht' => .inl ?_)
              · obtain rfl := Option.some.inj hp'
                exact h.listed p (List.mem_of_find?_eq_some hfind)
              · rw [hk]
                exact ht'
        · obtain rfl := Option.some.inj hs
          exact moves_thread (by rw [hk]; rfl) rfl rfl rfl
  | init k ok =>
      simp only [threadStep] at hs
      split at hs
      case h_2 => exact absurd hs (by simp)
      case h_1 t path p child hk =>
        split_ifs at hs with hok
        · obtain rfl := Option.some.inj hs
          obtain ⟨o, ho⟩ := h.held_thread (k := k) (p := p) (by rw [hk]; rfl)
          unfold State.initDtaskInfo
          rw [policy_ok ho]
          exact moves_single (.initThread k t path p child o hk ho)
        · obtain rfl := Option.some.inj hs
          exact moves_keep h (by rw [hk]; rfl) (after_owns p child) (p := p) (by rw [hk]; rfl)
            (.inr (by cases child <;> rfl)) (after_registers p child)
  | link k =>
      simp only [threadStep] at hs
      split at hs
      case h_2 => exact absurd hs (by simp)
      case h_1 t p e child hk =>
        obtain rfl := Option.some.inj hs
        obtain ⟨-, x, hx, -⟩ := h.owned k e (by rw [hk]; rfl)
        rw [entry_ok hx]
        exact moves_single (.link k t p e child hk)
  | fail k =>
      simp only [threadStep] at hs
      split at hs
      case h_2 => exact absurd hs (by simp)
      case h_1 t p e child hk =>
        obtain rfl := Option.some.inj hs
        have hown : (s.threads k).owns = some e := by rw [hk]; rfl
        obtain ⟨-, x, hx, -⟩ := h.owned k e hown
        rw [entry_ok hx]
        exact moves_single (.fail k t p e child hk (hsafe e hown) hcount)
  | sub k =>
      simp only [threadStep] at hs
      split at hs
      case h_2 => exact absurd hs (by simp)
      case h_1 p hk =>
        obtain rfl := Option.some.inj hs
        obtain ⟨o, ho⟩ := h.held_thread (k := k) (p := p) (by rw [hk]; rfl)
        rw [policy_ok ho]
        refine moves_keep h (by rw [hk]; rfl) ?_ (p := p) (by rw [hk]; rfl) ?_ ?_
        · split_ifs <;> rfl
        · split_ifs
          · exact .inr rfl
          · exact .inl rfl
        · split_ifs <;> rfl
  | child k t path =>
      simp only [threadStep] at hs
      split at hs
      case h_2 => exact absurd hs (by simp)
      case h_1 p hk =>
        obtain rfl := Option.some.inj hs
        refine moves_check h halone (by rw [hk]; rfl) rfl (fun p' hp' => ?_) rfl
        obtain rfl := Option.some.inj hp'
        exact h.held_thread (k := k) (by rw [hk]; rfl)
  | childrenDone k =>
      simp only [threadStep] at hs
      split at hs
      case h_2 => exact absurd hs (by simp)
      case h_1 p hk =>
        obtain rfl := Option.some.inj hs
        exact moves_thread (by rw [hk]; rfl) rfl rfl rfl
  | collected k =>
      simp only [threadStep] at hs
      split at hs
      case h_2 => exact absurd hs (by simp)
      case h_1 hk =>
        obtain rfl := Option.some.inj hs
        exact moves_thread (by rw [hk]; rfl) rfl rfl rfl
  | _ => exact absurd hs (by simp [threadStep])

theorem moves_cons {s₁ : State} (h : Move exact unique s s₁) (hm : Moves exact unique s₁ m) :
    Moves exact unique s m := by
  obtain ⟨s', rfl, hm⟩ := hm
  exact ⟨s', rfl, hm.head h⟩

/-- The hook gives the mutex back. -/
theorem moves_release : Moves exact unique s (.ok (s.setHook none)) :=
  moves_single (.hook none (fun _ _ h => absurd h (by simp)) (fun _ _ _ h => absurd h (by simp))
    fun _ _ h => absurd h (by simp))

theorem clean_moves {l : List ℕ} (h : Inv s) (hnodup : l.Nodup) (hl : ∀ p ∈ l, p ∈ s.list)
    (hexact : exact → ∀ p ∈ l, ∀ o, s.policies.read p = some o → o.objCount ≠ 0) :
    Moves exact unique s (l.foldlM State.switchOff s) := by
  induction l generalizing s with
  | nil => exact moves_same
  | cons p l ih =>
      obtain ⟨hp, hrest⟩ := List.forall_mem_cons.mp hl
      obtain ⟨hnot, hnodup⟩ := List.nodup_cons.mp hnodup
      obtain ⟨o, ho⟩ := h.listed p hp
      have hmove : Move exact unique s { s with
          policies := s.policies.store p { o with processSwitch := false }
          list := s.list.erase p } :=
        .off p o hp ho fun hx => hexact hx p List.mem_cons_self o ho
      rw [List.foldlM_cons, State.switchOff, policy_ok ho]
      refine moves_cons hmove (ih (h.move hmove) hnodup (fun q hq => ?_) fun hx q hq o' ho' => ?_)
      · have hne : q ≠ p := fun heq => hnot (heq ▸ hq)
        exact (List.mem_erase_of_ne hne).mpr (hrest q hq)
      · have hne : p ≠ q := fun heq => hnot (heq ▸ hq)
        rw [Heap.read_store_of_ne hne] at ho'
        exact hexact hx q (List.mem_cons_of_mem _ hq) o' ho'

theorem unload_moves {l : List ℕ} (h : Inv s) (hh : s.hook = none) (hnodup : l.Nodup) (hl : ∀ e ∈ l, e ∈ s.table)
    (hsafe : ∀ e ∈ l, ¬ (s.work e).Running ∧ ∀ x o, s.entries.read e = some x →
      s.policies.read x.policy = some o → o.processSwitch = false → ¬ Held s x.policy) :
    Moves exact unique s (l.foldlM State.removeTaskInfo s) := by
  induction l generalizing s with
  | nil => exact moves_same
  | cons e l ih =>
      obtain ⟨he, hrest⟩ := List.forall_mem_cons.mp hl
      obtain ⟨hnot, hnodup⟩ := List.nodup_cons.mp hnodup
      obtain ⟨⟨hrun, hheld⟩, hsafe⟩ := List.forall_mem_cons.mp hsafe
      obtain ⟨x, hx⟩ := h.registered e he
      obtain ⟨o, ho⟩ := h.policy e x hx
      have hmove : Move exact unique s ((s.removed e x o).setWork e .idle) :=
        .remove e x o hh he hx ho fun hoff _ => hheld x o hx ho hoff
      rw [setWork_removed hrun] at hmove
      rw [List.foldlM_cons, removeTaskInfo_eq he hx ho]
      refine moves_cons hmove (ih (h.move hmove) hh hnodup (fun e' he' => ?_) fun e' he' => ?_)
      · have hne : e' ≠ e := fun heq => hnot (heq ▸ he')
        exact (List.mem_erase_of_ne hne).mpr (hrest e' he')
      · have hne : e' ≠ e := fun heq => hnot (heq ▸ he')
        obtain ⟨hrun', hheld'⟩ := hsafe e' he'
        have hwork : (s.removed e x o).work e' = s.work e' := Function.update_of_ne hne ..
        refine ⟨hwork ▸ hrun', fun x' o' hx' ho' hoff => ?_⟩
        obtain ⟨o₀, ho₀, hswitch, -⟩ := policies_removed (e := e) ho (h.objCount_pos hx ho) ho'
        exact hheld' x' o₀ (Heap.read_of_kfree hx') ho₀ (hswitch ▸ hoff)

theorem mmap_moves {t parent : Task} {q : Query} {ready : Bool} (h : Inv s) (halone : unique → ¬ Registering s t) :
    Moves exact unique s (s.mmap t parent q ready) := by
  unfold State.mmap
  rw [h.checkDtaskInfo_eq, h.checkDtaskInfo_eq]
  show Moves exact unique s (if (s.table.find? (Measured s t)).isSome ∨ ready = false then .ok s else _)
  split_ifs with hold
  · exact moves_same
  · refine moves_single (.hook _ (fun hk p hnew hp => ?_) (fun t' q' e hnew => ?_) fun hu hk hnew => .inr ?_)
    · obtain rfl := Option.some.inj hnew
      exact absurd hp (by simp [Hook.holds])
    · obtain ⟨-, -, hfind⟩ := Hook.checked.inj (Option.some.inj hnew)
      exact List.mem_of_find?_eq_some hfind
    · obtain rfl := Option.some.inj hnew
      show Fresh s t
      exact fresh_of_find (halone hu) (by simpa using (not_or.mp hold).1)

/-- The hook has decided for a policy. -/
theorem moves_found {t : Task} {q : Query} {parent : Option ℕ} {path : CStr} {p : ℕ}
    (hh : s.hook = some (.checked t q parent)) (hp : ∃ o, s.policies.read p = some o) :
    Moves exact unique s (.ok (s.setHook (some (.found t path p)))) := by
  refine moves_single (.hook _ (fun hk p' hnew hp' => ?_) (fun t' q' e hnew => ?_) fun _ hk hnew => .inl ?_)
  · obtain rfl := Option.some.inj hnew
    obtain rfl := Option.some.inj hp'
    exact hp
  · exact absurd hnew (by simp)
  · obtain rfl := Option.some.inj hnew
    exact ⟨_, hh, rfl⟩

theorem mmapQuery_moves {t : Task} {q : Query} {parent : Option ℕ} (h : Inv s)
    (hh : s.hook = some (.checked t q parent)) : Moves exact unique s (s.mmapQuery t q parent) := by
  unfold State.mmapQuery
  rw [h.queryPolicyDmeasureProcess_eq]
  cases hfind : s.list.find? fun p => (s.policies.read p).any fun o => q.isExist o.item with
  | none =>
      cases parent with
      | none => exact moves_release
      | some e =>
          obtain ⟨x, hx⟩ := h.registered e (h.parent t q e hh)
          obtain ⟨o, ho⟩ := h.policy e x hx
          dsimp only [bind, Except.bind]
          rw [entry_ok hx]
          dsimp only
          rw [policy_ok ho]
          dsimp only
          split_ifs
          · exact moves_found hh ⟨o, ho⟩
          · exact moves_release
  | some p =>
      have hp := h.listed p (List.mem_of_find?_eq_some hfind)
      cases parent with
      | none => exact moves_found hh hp
      | some e =>
          obtain ⟨x, hx⟩ := h.registered e (h.parent t q e hh)
          dsimp only [bind, Except.bind]
          rw [entry_ok hx]
          dsimp only
          split_ifs
          · exact moves_release
          · exact moves_found hh hp

theorem mmapInit_moves {t : Task} {path : CStr} {p : ℕ} {ok : Bool} (h : Inv s)
    (hh : s.hook = some (.found t path p)) :
    Moves exact unique s (s.mmapInit t path p ok) := by
  unfold State.mmapInit State.initDtaskInfo
  obtain ⟨o, ho⟩ := h.held p (.inr ⟨_, hh, rfl⟩)
  rw [policy_ok ho]
  split_ifs
  · exact moves_single (.initHook t path p o hh ho)
  · exact moves_release

theorem delPolicy_moves {x : DmeasureProcessItem} (h : Inv s) (hsafe : Safe s (.del x)) :
    Moves exact unique s (s.delPolicy x) := by
  unfold State.delPolicy
  rw [h.search_list x.names]
  cases hfind : s.list.find? fun p => (s.policies.read p).any fun o => x.names o.item with
  | none => exact moves_same
  | some p =>
      have hp := List.mem_of_find?_eq_some hfind
      obtain ⟨o, ho⟩ := h.listed p hp
      dsimp only [bind, Except.bind]
      rw [policy_ok ho]
      dsimp only
      split_ifs with hcount
      · rw [State.switchOff, policy_ok ho]
        exact moves_single (.off p o hp ho fun _ => hcount)
      · have hzero : o.objCount = 0 := by simpa using hcount
        exact moves_single (.free p o hp ho hzero (hsafe p o hfind ho hzero))

theorem measure_moves {e : ℕ} {gone : Bool} (h : Inv s) (hh : s.hook = none) (hwork : s.work e = .started)
    (hsafe : Safe s (.measure e gone)) :
    Moves exact unique s (do
      let x ← s.entry e
      let o ← s.policy x.policy
      if o.processSwitch = false ∨ gone then do
        let s' ← s.removeTaskInfo e
        .ok (s'.setWork e .idle)
      else .ok (s.setWork e .measured)) := by
  obtain ⟨x, hx⟩ := h.work e (by rw [hwork]; decide)
  obtain ⟨o, ho⟩ := h.policy e x hx
  dsimp only [bind, Except.bind]
  rw [entry_ok hx]
  dsimp only
  rw [policy_ok ho]
  dsimp only
  split_ifs with hrem
  · obtain ⟨he, hheld⟩ := hsafe x o hx ho hrem
    rw [removeTaskInfo_eq he hx ho]
    exact moves_single (.remove e x o hh he hx ho hheld)
  · exact moves_single (.work e .measured x hx)

theorem exit_moves {t : Task} (h : Inv s) (hh : s.hook = none) (hsafe : Safe s (.exit t)) :
    Moves exact unique s (do
      let found ← s.checkDtaskInfo t
      match found with
      | none => .ok s
      | some e => s.removeTaskInfo e) := by
  rw [h.checkDtaskInfo_eq]
  cases hfind : s.table.find? (Measured s t) with
  | none => exact moves_same
  | some e =>
      have he := List.mem_of_find?_eq_some hfind
      have hmeasured := List.find?_some hfind
      obtain ⟨x, hx⟩ := h.registered e he
      obtain ⟨o, ho⟩ := h.policy e x hx
      dsimp only [bind, Except.bind]
      rw [removeTaskInfo_eq he hx ho]
      have hon : o.processSwitch = true := by
        rw [Measured, hx, Option.any_some, ho] at hmeasured
        exact (of_decide_eq_true hmeasured).2
      rw [← setWork_removed (hsafe e he hmeasured)]
      exact moves_single (.remove e x o hh he hx ho fun hoff => absurd (hon.symm.trans hoff) (by decide))

/-- **A permitted step from a state in order makes moves, and no fault.** -/
theorem step_moves (h : Inv s) (hsafe : Safe s ev) (hcount : exact → Counted s ev) (halone : unique → Alone s ev)
    (hs : step s ev = some m) : Moves exact unique s m := by
  cases ev with
  | del x =>
      obtain rfl := Option.some.inj hs
      exact delPolicy_moves h hsafe
  | clean =>
      obtain rfl := Option.some.inj hs
      exact clean_moves h h.list_nodup (fun p hp => hp) fun hx => hcount hx
  | mmap t parent q ready =>
      simp only [step] at hs
      split_ifs at hs with hh
      obtain rfl := Option.some.inj hs
      exact mmap_moves h halone
  | mmapQuery =>
      simp only [step] at hs
      split at hs
      case h_2 => exact absurd hs (by simp)
      case h_1 t q parent hh =>
        obtain rfl := Option.some.inj hs
        exact mmapQuery_moves h hh
  | mmapInit ok =>
      simp only [step] at hs
      split at hs
      case h_2 => exact absurd hs (by simp)
      case h_1 t path p hh =>
        obtain rfl := Option.some.inj hs
        exact mmapInit_moves h hh
  | mprotect t =>
      simp only [step] at hs
      split_ifs at hs with hh
      obtain rfl := Option.some.inj hs
      rw [h.checkDtaskInfo_eq]
      cases hfind : s.table.find? (Measured s t) with
      | none => exact moves_same
      | some e =>
          obtain ⟨x, hx⟩ := h.registered e (List.mem_of_find?_eq_some hfind)
          dsimp only [bind, Except.bind]
          rw [entry_ok hx]
          exact moves_same
  | exit t =>
      simp only [step] at hs
      split_ifs at hs with hh
      obtain rfl := Option.some.inj hs
      exact exit_moves h (by simpa using hh) hsafe
  | unload =>
      simp only [step] at hs
      split_ifs at hs with hh
      obtain rfl := Option.some.inj hs
      exact unload_moves h (by simpa using hh) h.table_nodup (fun e he => he) hsafe
  | start e isEnabled =>
      simp only [step] at hs
      split_ifs at hs with hwork henabled
      · obtain rfl := Option.some.inj hs
        obtain ⟨x, hx⟩ := h.work e (by rw [hwork]; decide)
        rw [entry_ok hx]
        exact moves_single (.work e .started x hx)
      · obtain rfl := Option.some.inj hs
        obtain ⟨x, hx⟩ := h.work e (by rw [hwork]; decide)
        exact moves_single (.work e .measured x hx)
  | measure e gone =>
      simp only [step] at hs
      split_ifs at hs with hrun
      obtain rfl := Option.some.inj hs
      exact measure_moves h (by simpa using hrun.2) hrun.1 hsafe
  | reschedule e =>
      simp only [step] at hs
      split_ifs at hs with hwork
      obtain rfl := Option.some.inj hs
      obtain ⟨x, hx⟩ := h.work e (by rw [hwork]; decide)
      obtain ⟨o, ho⟩ := h.policy e x hx
      rw [entry_ok hx]
      dsimp only [bind, Except.bind]
      rw [policy_ok ho]
      exact moves_single (.work e .pending x hx)
  | _ => exact threadStep_moves h hsafe hcount halone hs

theorem inv_init : Inv State.init where
  policies_sound := Heap.sound_empty
  entries_sound := Heap.sound_empty
  list_nodup := List.nodup_nil
  listed := fun _ h => absurd h (by simp [State.init])
  switch := fun _ _ h => absurd h (by simp [State.init])
  table_nodup := List.nodup_nil
  registered := fun _ h => absurd h (by simp [State.init])
  entry := fun _ _ h => absurd h (by simp [State.init])
  owned := fun _ _ h => absurd h (by simp [State.init, Thread.owns])
  owned_inj := fun _ _ _ h => absurd h (by simp [State.init, Thread.owns])
  policy := fun _ _ h => absurd h (by simp [State.init])
  refs := fun _ _ h => absurd h (by simp [State.init])
  held := by
    rintro p (⟨k, hk⟩ | ⟨hk, hnone, -⟩)
    · exact absurd hk (by simp [State.init, Thread.holds])
    · exact absurd hnone (by simp [State.init])
  parent := fun _ _ _ h => absurd h (by simp [State.init])
  work := fun _ h => absurd rfl h
  count := rfl

/-- A condition on the steps of a machine that has not failed. -/
def Permits (ok : State → Event → Prop) (m : Except Fault State) (ev : Event) : Prop := ∀ s, m = .ok s → ok s ev

/-- No fault so far, and the state is in order. -/
def Sound (J : State → Prop) (m : Except Fault State) : Prop := ∃ s, m = .ok s ∧ Inv s ∧ J s

/-- **What every move keeps holds after every permitted run,** and the run has not failed. -/
theorem run_moves {ok : State → Event → Prop} {J : State → Prop} {events : List Event}
    (hsafe : ∀ s ev, ok s ev → Safe s ev) (hcount : exact → ∀ s ev, ok s ev → Counted s ev)
    (halone : unique → ∀ s ev, ok s ev → Alone s ev)
    (hJ : ∀ s s', Inv s → J s → Move exact unique s s' → J s') (h0 : J State.init)
    (hok : Meets machine (Permits ok) (.ok State.init) events)
    (hrun : run machine (.ok State.init) events = some m) : Sound J m := by
  refine run_invariant ?_ ⟨State.init, rfl, inv_init, h0⟩ hok hrun
  rintro _ ev m' ⟨s, rfl, hinv, hs⟩ hev hstep
  have hev := hev s rfl
  obtain ⟨s', rfl, hmoves⟩ := step_moves hinv (hsafe s ev hev) (fun hx => hcount hx s ev hev)
    (fun hu => halone hu s ev hev) hstep
  exact ⟨s', rfl, moves_preserve hJ hinv hs hmoves⟩

end Steps

/-! ### A program, its policy and the request to delete it -/

def samplePolicy : ProcessPolicy := ⟨.fullPath, 0, 0, 0, 0, 1, [97], rfl⟩

def sampleItem : DmeasureProcessItem := ⟨.fullPath, 0, 0, 0, 0, 1, [97], rfl⟩

def sampleQuery : Query := ⟨CStr.ofBytes [97], CStr.empty, []⟩

/-- After the addition of the policy no thread is under way. -/
theorem sample_threads (k : ℕ) :
    Function.update (Function.update State.init.threads 0 (.added 0)) 0 .idle k = .idle := by
  by_cases h : k = 0
  · subst h
    rw [Function.update_self]
  · rw [Function.update_of_ne h, Function.update_of_ne h]
    rfl

end Tasks
end Dmeasure
end TsbAgent
