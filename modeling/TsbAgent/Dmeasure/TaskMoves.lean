/-
# What a step of the measured tasks can do

A step is made of moves: a thread goes on, a policy is added, switched off or freed, an entry is made,
linked, dropped or removed.  `Move` lists them with what is known when they are made.  Everything about runs is
proved for the moves; `Inv.move` says that they keep a state in order.

A state is in order when what can be reached is on the heap: the list and the table, the policies
of all entries, the entries that have work, and what a hook or a thread points to.  Two kinds of steps break this,
and `Safe` excludes them:

- a policy is freed that a registration has looked up and not yet counted;
- an entry is freed while its check runs, or before its collection has put it into the table.

The parameters `exact` and `unique` of `Move` ask for more than `Safe`, for the two results that need it.
-/

import TsbAgent.Dmeasure.Tasks
import Mathlib.Logic.Relation

namespace TsbAgent
namespace Dmeasure
namespace Tasks

open Run Relation Libc

/-! ### Who points where -/

/-- The policy that a thread points to. -/
def Thread.holds : Thread → Option ℕ
  | .added p | .found _ _ p _ | .inited _ p _ _ | .registered p | .children p => some p
  | _ => none

/-- The entry that a thread has made and not linked. -/
def Thread.owns : Thread → Option ℕ
  | .inited _ _ e _ => some e
  | _ => none

/-- The task that a thread registers. -/
def Thread.registers : Thread → Option Task
  | .checked t _ | .found t _ _ _ | .inited t _ _ _ => some t
  | _ => none

def Hook.holds : Hook → Option ℕ
  | .found _ _ p => some p
  | .checked _ _ _ => none

def Hook.registers : Hook → Task
  | .found t _ _ | .checked t _ _ => t

/-- A registration in progress, or the addition of the policy, points to the policy. -/
def Held (s : State) (p : ℕ) : Prop :=
  (∃ k, (s.threads k).holds = some p) ∨ ∃ hk, s.hook = some hk ∧ hk.holds = some p

/-- A registration of the task is in progress. -/
def Registering (s : State) (t : Task) : Prop :=
  (∃ k, (s.threads k).registers = some t) ∨ ∃ hk, s.hook = some hk ∧ hk.registers = t

/-- The test of `check_dtask_info`. -/
def Measured (s : State) (t : Task) (e : ℕ) : Bool :=
  (s.entries.read e).any fun x => x.task = t ∧ (s.policies.read x.policy).any (·.processSwitch)

/-- The policy that a deletion finds. -/
def named (s : State) (x : DmeasureProcessItem) : Option ℕ :=
  s.list.find? fun p => (s.policies.read p).any fun o => x.names o.item

/-! ### The conditions -/

/-- **Nothing is freed that somebody still uses.** -/
def Safe (s : State) : Event → Prop
  | .del x => ∀ p o, named s x = some p → s.policies.read p = some o → o.objCount = 0 → ¬ Held s p
  | .exit t => ∀ e ∈ s.table, Measured s t e → ¬ (s.work e).Running
  | .unload => ∀ e ∈ s.table, ¬ (s.work e).Running ∧
      ∀ x o, s.entries.read e = some x → s.policies.read x.policy = some o →
        o.processSwitch = false → ¬ Held s x.policy
  | .measure e gone => ∀ x o, s.entries.read e = some x → s.policies.read x.policy = some o →
      o.processSwitch = false ∨ gone = true →
        e ∈ s.table ∧ (o.processSwitch = false → o.objCount = 1 → ¬ Held s x.policy)
  | .fail k => ∀ e, (s.threads k).owns = some e → ¬ (s.work e).Running
  | _ => True

/-- **Nothing is forgotten:** a reload finds every policy in use, and no collection fails after
`init_dtask_info`. -/
def Counted (s : State) : Event → Prop
  | .clean => ∀ p ∈ s.list, ∀ o, s.policies.read p = some o → o.objCount ≠ 0
  | .fail _ => False
  | _ => True

/-- **No task is registered twice at a time.** -/
def Alone (s : State) : Event → Prop
  | .check _ t _ | .child _ t _ | .mmap t _ _ _ => ¬ Registering s t
  | _ => True

/-! ### Moves -/

/-- A registration of `t` may begin. -/
def Fresh (s : State) (t : Task) : Prop := ¬ Registering s t ∧ ∀ e ∈ s.table, Measured s t e = false

/-- What a step does, piece by piece. -/
inductive Move (exact unique : Prop) (s : State) : State → Prop
  | thread (k : ℕ) (th : Thread) (hold : (s.threads k).owns = none) (hnew : th.owns = none)
      (halive : ∀ p, th.holds = some p → ∃ o, s.policies.read p = some o)
      (hreg : unique → ∀ t, th.registers = some t → (s.threads k).registers = some t ∨ Fresh s t) :
      Move exact unique s (s.setThread k th)
  | hook (new : Option Hook)
      (halive : ∀ hk p, new = some hk → hk.holds = some p → ∃ o, s.policies.read p = some o)
      (hparent : ∀ t q e, new = some (.checked t q (some e)) → e ∈ s.table)
      (hreg : unique → ∀ hk, new = some hk →
        (∃ old, s.hook = some old ∧ old.registers = hk.registers) ∨ Fresh s hk.registers) :
      Move exact unique s (s.setHook new)
  | work (e : ℕ) (w : Work) (x : DtaskInfo) (hx : s.entries.read e = some x) : Move exact unique s (s.setWork e w)
  | add (k n : ℕ) (x : ProcessPolicy) (hk : s.threads k = .idle) (hn : n ≤ s.list.length) :
      Move exact unique s { s with
        policies := s.policies.alloc ⟨x, 0, true⟩
        list := s.list.insertIdx n s.policies.next
        threads := Function.update s.threads k (.added s.policies.next) }
  | off (p : ℕ) (o : PolicyObject) (hp : p ∈ s.list) (ho : s.policies.read p = some o)
      (hexact : exact → o.objCount ≠ 0) :
      Move exact unique s { s with
        policies := s.policies.store p { o with processSwitch := false }
        list := s.list.erase p }
  | free (p : ℕ) (o : PolicyObject) (hp : p ∈ s.list) (ho : s.policies.read p = some o) (hcount : o.objCount = 0)
      (hheld : ¬ Held s p) :
      Move exact unique s { s with policies := s.policies.kfree p, list := s.list.erase p }
  | initThread (k : ℕ) (t : Task) (path : CStr) (p : ℕ) (child : Bool) (o : PolicyObject)
      (hk : s.threads k = .found t path p child) (ho : s.policies.read p = some o) :
      Move exact unique s { s with
        policies := s.policies.store p { o with objCount := o.objCount + 1 }
        entries := s.entries.alloc ⟨t, path, p⟩
        work := Function.update s.work s.entries.next .pending
        threads := Function.update s.threads k (.inited t p s.entries.next child) }
  | initHook (t : Task) (path : CStr) (p : ℕ) (o : PolicyObject)
      (hh : s.hook = some (.found t path p)) (ho : s.policies.read p = some o) :
      Move exact unique s { s with
        policies := s.policies.store p { o with objCount := o.objCount + 1 }
        entries := s.entries.alloc ⟨t, path, p⟩
        table := s.entries.next :: s.table
        taskInfoCount := s.taskInfoCount + 1
        work := Function.update s.work s.entries.next .pending
        hook := none }
  | link (k : ℕ) (t : Task) (p e : ℕ) (child : Bool) (hk : s.threads k = .inited t p e child) :
      Move exact unique s ((s.link e).setThread k (.after p child))
  | fail (k : ℕ) (t : Task) (p e : ℕ) (child : Bool) (hk : s.threads k = .inited t p e child)
      (hrun : ¬ (s.work e).Running) (hexact : ¬ exact) :
      Move exact unique s (({ s with entries := s.entries.kfree e }.setWork e (s.work e).cancel).setThread k
        (.after p child))
  | remove (e : ℕ) (x : DtaskInfo) (o : PolicyObject) (hh : s.hook = none) (he : e ∈ s.table)
      (hx : s.entries.read e = some x) (ho : s.policies.read x.policy = some o)
      (hheld : o.processSwitch = false → o.objCount = 1 → ¬ Held s x.policy) :
      Move exact unique s ((s.removed e x o).setWork e .idle)

/-- **A state in order.** -/
structure Inv (s : State) : Prop where
  policies_sound : s.policies.Sound
  entries_sound : s.entries.Sound
  list_nodup : s.list.Nodup
  listed : ∀ p ∈ s.list, ∃ o, s.policies.read p = some o
  switch : ∀ p o, s.policies.read p = some o → (o.processSwitch = true ↔ p ∈ s.list)
  table_nodup : s.table.Nodup
  registered : ∀ e ∈ s.table, ∃ x, s.entries.read e = some x
  entry : ∀ e x, s.entries.read e = some x → e ∈ s.table ∨ ∃ k, (s.threads k).owns = some e
  owned : ∀ k e, (s.threads k).owns = some e →
    e ∉ s.table ∧ ∃ x, s.entries.read e = some x ∧ (s.threads k).registers = some x.task
  owned_inj : ∀ k k' e, (s.threads k).owns = some e → (s.threads k').owns = some e → k = k'
  policy : ∀ e x, s.entries.read e = some x → ∃ o, s.policies.read x.policy = some o
  refs : ∀ p o, s.policies.read p = some o → Heap.count (fun x => x.policy = p) s.entries ≤ o.objCount
  held : ∀ p, Held s p → ∃ o, s.policies.read p = some o
  parent : ∀ t q e, s.hook = some (.checked t q (some e)) → e ∈ s.table
  work : ∀ e, s.work e ≠ .idle → ∃ x, s.entries.read e = some x
  count : s.taskInfoCount = s.table.length

/-! ### Every move keeps the order -/

section Moves

variable {exact unique : Prop} {s s' : State} {k k' p e : ℕ} {th : Thread} {o : PolicyObject} {x : DtaskInfo}

theorem owns_update {f : ℕ → Thread} (hold : (f k).owns = none) (hnew : th.owns = none) :
    (Function.update f k th k').owns = (f k').owns := by
  by_cases hk : k' = k
  · subst hk
    rw [Function.update_self, hold, hnew]
  · rw [Function.update_of_ne hk]

/-- A thread that moves on holds what it holds now, and the rest is held as before. -/
theorem held_update {f : ℕ → Thread} (h : (Function.update f k th k').holds = some p) :
    th.holds = some p ∨ (f k').holds = some p := by
  by_cases hk : k' = k
  · subst hk
    rw [Function.update_self] at h
    exact .inl h
  · rw [Function.update_of_ne hk] at h
    exact .inr h

theorem after_owns (p : ℕ) (child : Bool) : (Thread.after p child).owns = none := by
  cases child <;> rfl

theorem after_holds {q : ℕ} {child : Bool} (h : (Thread.after p child).holds = some q) : q = p := by
  cases child <;> exact (Option.some.inj h).symm

theorem after_registers (p : ℕ) (child : Bool) : (Thread.after p child).registers = none := by
  cases child <;> rfl

theorem cancel_eq_idle {w : Work} (h : ¬ w.Running) : w.cancel = .idle := by
  unfold Work.Running at h
  cases w with
  | idle => rfl
  | pending => rfl
  | started => exact absurd (.inl rfl) h
  | measured => exact absurd (.inr rfl) h

/-- Nobody has a pointer to an address that is not allocated yet. -/
theorem Inv.count_new (h : Inv s) : Heap.count (fun x => x.policy = s.policies.next) s.entries = 0 := by
  refine Heap.count_eq_zero fun i x hx => ?_
  obtain ⟨o, ho⟩ := h.policy i x hx
  have hlt := Heap.lt_of_read ho
  rw [decide_eq_false_iff_not]
  omega

theorem Inv.thread (h : Inv s) (hold : (s.threads k).owns = none) (hnew : th.owns = none)
    (halive : ∀ p, th.holds = some p → ∃ o, s.policies.read p = some o) : Inv (s.setThread k th) := by
  have howns : ∀ k', ((s.setThread k th).threads k').owns = (s.threads k').owns := fun _ => owns_update hold hnew
  refine { h with entry := ?_, owned := ?_, owned_inj := ?_, held := ?_ }
  · intro e x hx
    simp only [howns]
    exact h.entry e x hx
  · intro k' e he
    have hk : k' ≠ k := by
      rintro rfl
      rw [howns, hold] at he
      exact absurd he (by simp)
    have hsame : (s.setThread k th).threads k' = s.threads k' := Function.update_of_ne hk ..
    rw [hsame] at he ⊢
    exact h.owned k' e he
  · intro k' k'' e he he'
    rw [howns] at he he'
    exact h.owned_inj k' k'' e he he'
  · rintro p (⟨k', hp⟩ | hp)
    · rcases held_update hp with hp | hp
      · exact halive p hp
      · exact h.held p (.inl ⟨k', hp⟩)
    · exact h.held p (.inr hp)

theorem Inv.setHook {new : Option Hook} (h : Inv s)
    (halive : ∀ hk p, new = some hk → hk.holds = some p → ∃ o, s.policies.read p = some o)
    (hparent : ∀ t q e, new = some (.checked t q (some e)) → e ∈ s.table) : Inv (s.setHook new) := by
  refine { h with held := ?_, parent := hparent }
  rintro p (hp | ⟨hk, hnew, hp⟩)
  · exact h.held p (.inl hp)
  · exact halive hk p hnew hp

theorem Inv.setWork {w : Work} (h : Inv s) (hx : s.entries.read e = some x) : Inv (s.setWork e w) := by
  refine { h with work := ?_ }
  intro e' he'
  by_cases hee : e' = e
  · exact ⟨x, hee ▸ hx⟩
  · refine h.work e' ?_
    have hsame : (s.setWork e w).work e' = s.work e' := Function.update_of_ne hee ..
    rwa [hsame] at he'

theorem Inv.alloc {n : ℕ} {y : ProcessPolicy} (h : Inv s) (hn : n ≤ s.list.length) :
    Inv { s with
      policies := s.policies.alloc ⟨y, 0, true⟩
      list := s.list.insertIdx n s.policies.next } := by
  have hperm := List.perm_insertIdx s.policies.next s.list hn
  have hnot : s.policies.next ∉ s.list := by
    intro hmem
    obtain ⟨o, ho⟩ := h.listed _ hmem
    exact absurd (Heap.lt_of_read ho) (Nat.lt_irrefl _)
  have halive : ∀ p, (∃ o, s.policies.read p = some o) → ∃ o, (s.policies.alloc ⟨y, 0, true⟩).read p = some o :=
    fun p ⟨o, ho⟩ => ⟨o, Heap.read_alloc ho⟩
  refine { h with
    policies_sound := h.policies_sound.alloc
    list_nodup := hperm.nodup_iff.mpr (List.nodup_cons.mpr ⟨hnot, h.list_nodup⟩)
    listed := ?_, switch := ?_, policy := fun e x hx => halive _ (h.policy e x hx), refs := ?_
    held := fun p hp => halive p (h.held p hp) }
  · intro p hp
    rcases List.mem_cons.mp (hperm.mem_iff.mp hp) with rfl | hp
    · exact ⟨_, Heap.read_alloc_self⟩
    · exact halive p (h.listed p hp)
  · intro p o ho
    rw [hperm.mem_iff, List.mem_cons]
    by_cases hp : p = s.policies.next
    · subst hp
      obtain rfl := Option.some.inj (Heap.read_alloc_self.symm.trans ho)
      exact iff_of_true rfl (.inl rfl)
    · rw [Heap.read_alloc_of_ne hp] at ho
      rw [or_iff_right hp]
      exact h.switch p o ho
  · intro p o ho
    by_cases hp : p = s.policies.next
    · subst hp
      show Heap.count _ s.entries ≤ _
      rw [h.count_new]
      exact Nat.zero_le _
    · rw [Heap.read_alloc_of_ne hp] at ho
      exact h.refs p o ho

theorem Inv.off (h : Inv s) (ho : s.policies.read p = some o) :
    Inv { s with
      policies := s.policies.store p { o with processSwitch := false }
      list := s.list.erase p } := by
  refine { h with
    policies_sound := h.policies_sound.store ho
    list_nodup := h.list_nodup.erase p
    listed := ?_, switch := ?_, policy := ?_, refs := ?_, held := ?_ }
  · intro q hq
    exact (Heap.exists_read_store ho).mpr (h.listed q (List.mem_of_mem_erase hq))
  · intro q o' ho'
    by_cases hpq : p = q
    · subst hpq
      obtain rfl := Option.some.inj ((Heap.read_store_self ho).symm.trans ho')
      exact iff_of_false (by simp) h.list_nodup.not_mem_erase
    · rw [Heap.read_store_of_ne hpq] at ho'
      rw [List.mem_erase_of_ne (Ne.symm hpq)]
      exact h.switch q o' ho'
  · intro e x hx
    exact (Heap.exists_read_store ho).mpr (h.policy e x hx)
  · intro q o' ho'
    by_cases hpq : p = q
    · subst hpq
      obtain rfl := Option.some.inj ((Heap.read_store_self ho).symm.trans ho')
      exact h.refs p o ho
    · rw [Heap.read_store_of_ne hpq] at ho'
      exact h.refs q o' ho'
  · intro q hq
    exact (Heap.exists_read_store ho).mpr (h.held q hq)

/-- Nobody refers to a policy whose counter is zero. -/
theorem Inv.ne_of_objCount_eq_zero (h : Inv s) (ho : s.policies.read p = some o) (hcount : o.objCount = 0)
    (hx : s.entries.read e = some x) : p ≠ x.policy := by
  rintro rfl
  have hpos := Heap.count_pos (P := fun y => y.policy = x.policy) hx (by simp)
  have hle := h.refs _ o ho
  omega

theorem Inv.free (h : Inv s) (ho : s.policies.read p = some o) (hcount : o.objCount = 0) (hheld : ¬ Held s p) :
    Inv { s with policies := s.policies.kfree p, list := s.list.erase p } := by
  have halive : ∀ q, p ≠ q → (∃ o, s.policies.read q = some o) → ∃ o, (s.policies.kfree p).read q = some o :=
    fun q hpq ⟨o, ho⟩ => ⟨o, (Heap.read_kfree_of_ne hpq).trans ho⟩
  refine { h with
    policies_sound := h.policies_sound.kfree ho
    list_nodup := h.list_nodup.erase p
    listed := ?_, switch := ?_, policy := ?_, refs := ?_, held := ?_ }
  · intro q hq
    obtain ⟨hne, hq⟩ := h.list_nodup.mem_erase_iff.mp hq
    exact halive q (Ne.symm hne) (h.listed q hq)
  · intro q o' ho'
    rw [List.mem_erase_of_ne (Ne.symm (Heap.ne_of_read_kfree ho'))]
    exact h.switch q o' (Heap.read_of_kfree ho')
  · intro e x hx
    exact halive _ (h.ne_of_objCount_eq_zero ho hcount hx) (h.policy e x hx)
  · intro q o' ho'
    exact h.refs q o' (Heap.read_of_kfree ho')
  · intro q hq
    refine halive q ?_ (h.held q hq)
    rintro rfl
    exact hheld hq

/-! ### Entries come and go -/

variable {t : Task} {path : CStr} {q : ℕ} {o' : PolicyObject}

/-- A new entry is counted, and no other policy changes. -/
theorem policies_init (ho : s.policies.read p = some o)
    (hq : (s.policies.store p { o with objCount := o.objCount + 1 }).read q = some o') :
    ∃ o₀, s.policies.read q = some o₀ ∧ o'.processSwitch = o₀.processSwitch ∧
      o'.objCount = o₀.objCount + if p = q then 1 else 0 := by
  by_cases hpq : p = q
  · subst hpq
    obtain rfl := Option.some.inj ((Heap.read_store_self ho).symm.trans hq)
    exact ⟨o, ho, rfl, by rw [if_pos rfl]⟩
  · rw [Heap.read_store_of_ne hpq] at hq
    exact ⟨o', hq, rfl, by rw [if_neg hpq, Nat.add_zero]⟩

theorem count_init : Heap.count (fun x => x.policy = q) (s.entries.alloc ⟨t, path, p⟩) =
    Heap.count (fun x => x.policy = q) s.entries + if p = q then 1 else 0 := by
  rw [Heap.count_alloc]
  simp only [decide_eq_true_eq]

theorem policies_removed (ho : s.policies.read x.policy = some o) (hpos : 0 < o.objCount)
    (hq : (s.removed e x o).policies.read q = some o') :
    ∃ o₀, s.policies.read q = some o₀ ∧ o'.processSwitch = o₀.processSwitch ∧
      o'.objCount + (if x.policy = q then 1 else 0) = o₀.objCount := by
  unfold State.removed at hq
  dsimp only at hq
  by_cases hpq : x.policy = q
  · subst hpq
    rw [if_pos rfl]
    split_ifs at hq with hfree
    · rw [Heap.read_kfree_self] at hq
      exact absurd hq (by simp)
    · obtain rfl := Option.some.inj ((Heap.read_store_self ho).symm.trans hq)
      exact ⟨o, ho, rfl, by dsimp only; omega⟩
  · rw [if_neg hpq, Nat.add_zero]
    split_ifs at hq with hfree
    · exact ⟨o', Heap.read_of_kfree hq, rfl, rfl⟩
    · rw [Heap.read_store_of_ne hpq] at hq
      exact ⟨o', hq, rfl, rfl⟩

/-- A removal frees at most the policy of the entry. -/
theorem alive_removed (ho : s.policies.read x.policy = some o) (hq : ∃ o', s.policies.read q = some o')
    (hkeep : o.processSwitch = false → o.objCount - 1 = 0 → x.policy ≠ q) :
    ∃ o', (s.removed e x o).policies.read q = some o' := by
  unfold State.removed
  dsimp only
  split_ifs with hfree
  · rw [Heap.read_kfree_of_ne (hkeep hfree.1 hfree.2)]
    exact hq
  · exact (Heap.exists_read_store ho).mpr hq

theorem sound_removed (h : s.policies.Sound) (ho : s.policies.read x.policy = some o) :
    (s.removed e x o).policies.Sound := by
  unfold State.removed
  dsimp only
  split_ifs
  · exact h.kfree ho
  · exact h.store ho

theorem count_removed (hx : s.entries.read e = some x) :
    Heap.count (fun y => y.policy = q) (s.entries.kfree e) + (if x.policy = q then 1 else 0) =
      Heap.count (fun y => y.policy = q) s.entries := by
  rw [← Heap.count_kfree hx]
  simp only [decide_eq_true_eq]

theorem Inv.objCount_pos (h : Inv s) (hx : s.entries.read e = some x) (ho : s.policies.read x.policy = some o) :
    0 < o.objCount := by
  have hpos := Heap.count_pos (P := fun y => y.policy = x.policy) hx (by simp)
  exact Nat.lt_of_lt_of_le hpos (h.refs _ o ho)

theorem Inv.remove (h : Inv s) (hh : s.hook = none) (he : e ∈ s.table) (hx : s.entries.read e = some x)
    (ho : s.policies.read x.policy = some o)
    (hheld : o.processSwitch = false → o.objCount = 1 → ¬ Held s x.policy) :
    Inv ((s.removed e x o).setWork e .idle) := by
  have hpos := h.objCount_pos hx ho
  have hmem : ∀ e', e' ∈ s.table.erase e ↔ e' ≠ e ∧ e' ∈ s.table := fun e' => h.table_nodup.mem_erase_iff
  have hread : ∀ e', e' ≠ e → (s.entries.kfree e).read e' = s.entries.read e' :=
    fun e' hne => Heap.read_kfree_of_ne (Ne.symm hne)
  refine { h with
    policies_sound := sound_removed (e := e) h.policies_sound ho
    entries_sound := h.entries_sound.kfree hx
    listed := ?_, switch := ?_, table_nodup := h.table_nodup.erase e, registered := ?_, entry := ?_, owned := ?_
    policy := ?_, refs := ?_, held := ?_, parent := ?_, work := ?_, count := ?_ }
  · intro p hp
    refine alive_removed (e := e) ho (h.listed p hp) fun hoff _ hpx => ?_
    have hon := (h.switch p o (hpx ▸ ho)).mpr hp
    exact absurd (hoff.symm.trans hon) (by decide)
  · intro p o' ho'
    obtain ⟨o₀, ho₀, hswitch, -⟩ := policies_removed (e := e) ho hpos ho'
    rw [hswitch]
    exact h.switch p o₀ ho₀
  · intro e' he'
    obtain ⟨hne, he'⟩ := (hmem e').mp he'
    obtain ⟨x', hx'⟩ := h.registered e' he'
    exact ⟨x', (hread e' hne).trans hx'⟩
  · intro e' x' hx'
    have hne := Ne.symm (Heap.ne_of_read_kfree hx')
    rcases h.entry e' x' (Heap.read_of_kfree hx') with he' | hk
    · exact .inl ((hmem e').mpr ⟨hne, he'⟩)
    · exact .inr hk
  · intro k e' he'
    obtain ⟨hnot, x', hx', hreg⟩ := h.owned k e' he'
    have hne : e' ≠ e := fun heq => hnot (heq ▸ he)
    exact ⟨fun hin => hnot ((hmem e').mp hin).2, x', (hread e' hne).trans hx', hreg⟩
  · intro e' x' hx'
    refine alive_removed (e := e) ho (h.policy e' x' (Heap.read_of_kfree hx')) fun _ hone hpx => ?_
    -- the last entry of the policy was `e`
    have hleft : 0 < Heap.count (fun y => y.policy = x.policy) (s.entries.kfree e) :=
      Heap.count_pos hx' (by simp [hpx])
    have hcount := @count_removed s e x x.policy hx
    rw [if_pos rfl] at hcount
    have hle := h.refs _ o ho
    omega
  · intro p o' ho'
    obtain ⟨o₀, ho₀, -, hobj⟩ := policies_removed (e := e) ho hpos ho'
    have hcount := @count_removed s e x p hx
    have hle := h.refs p o₀ ho₀
    show Heap.count _ (s.entries.kfree e) ≤ _
    omega
  · intro p hp
    refine alive_removed (e := e) ho (h.held p hp) fun hoff hone hpx => ?_
    exact hheld hoff (by omega) (hpx ▸ hp)
  · intro t q e' hhook
    exact absurd (hh.symm.trans hhook) (by simp)
  · intro e' he'
    have hne : e' ≠ e := by
      rintro rfl
      exact he' (Function.update_self ..)
    have hsame : ((s.removed e x o).setWork e .idle).work e' = s.work e' :=
      (Function.update_of_ne hne ..).trans (Function.update_of_ne hne ..)
    rw [hsame] at he'
    obtain ⟨x', hx'⟩ := h.work e' he'
    exact ⟨x', (hread e' hne).trans hx'⟩
  · show s.taskInfoCount - 1 = ((s.table.erase e).length : ℤ)
    have hlen := List.length_erase_of_mem he
    have htable := List.length_pos_of_mem he
    have hcount := h.count
    omega

theorem not_mem_table_new (h : Inv s) : s.entries.next ∉ s.table := by
  intro hmem
  obtain ⟨x, hx⟩ := h.registered _ hmem
  exact absurd (Heap.lt_of_read hx) (Nat.lt_irrefl _)

theorem not_owned_new (h : Inv s) : (s.threads k).owns ≠ some s.entries.next := by
  intro hk
  obtain ⟨-, x, hx, -⟩ := h.owned k _ hk
  exact absurd (Heap.lt_of_read hx) (Nat.lt_irrefl _)

/-- What a new entry leaves in order, whoever takes it. -/
theorem Inv.init_policy (h : Inv s) (ho : s.policies.read p = some o)
    (hx : (s.entries.alloc ⟨t, path, p⟩).read e = some x) :
    ∃ o', (s.policies.store p { o with objCount := o.objCount + 1 }).read x.policy = some o' := by
  rw [Heap.exists_read_store ho]
  by_cases he : e = s.entries.next
  · subst he
    obtain rfl := Option.some.inj (Heap.read_alloc_self.symm.trans hx)
    exact ⟨o, ho⟩
  · rw [Heap.read_alloc_of_ne he] at hx
    exact h.policy e x hx

theorem Inv.init_refs (h : Inv s) (ho : s.policies.read p = some o)
    (hq : (s.policies.store p { o with objCount := o.objCount + 1 }).read q = some o') :
    Heap.count (fun x => x.policy = q) (s.entries.alloc ⟨t, path, p⟩) ≤ o'.objCount := by
  obtain ⟨o₀, ho₀, -, hobj⟩ := policies_init ho hq
  rw [count_init, hobj]
  exact Nat.add_le_add_right (h.refs q o₀ ho₀) _

theorem Inv.init_switch (h : Inv s) (ho : s.policies.read p = some o)
    (hq : (s.policies.store p { o with objCount := o.objCount + 1 }).read q = some o') :
    o'.processSwitch = true ↔ q ∈ s.list := by
  obtain ⟨o₀, ho₀, hswitch, -⟩ := policies_init ho hq
  rw [hswitch]
  exact h.switch q o₀ ho₀

theorem Inv.init_work (h : Inv s) (he : Function.update s.work s.entries.next .pending e ≠ .idle) :
    ∃ x, (s.entries.alloc ⟨t, path, p⟩).read e = some x := by
  by_cases hee : e = s.entries.next
  · subst hee
    exact ⟨_, Heap.read_alloc_self⟩
  · rw [Function.update_of_ne hee] at he
    obtain ⟨x, hx⟩ := h.work e he
    exact ⟨x, Heap.read_alloc hx⟩

theorem Inv.initHook (h : Inv s) (ho : s.policies.read p = some o) :
    Inv { s with
      policies := s.policies.store p { o with objCount := o.objCount + 1 }
      entries := s.entries.alloc ⟨t, path, p⟩
      table := s.entries.next :: s.table
      taskInfoCount := s.taskInfoCount + 1
      work := Function.update s.work s.entries.next .pending
      hook := none } := by
  refine { h with
    policies_sound := h.policies_sound.store ho
    entries_sound := h.entries_sound.alloc
    listed := fun q hq => (Heap.exists_read_store ho).mpr (h.listed q hq)
    switch := fun q o' hq => h.init_switch ho hq
    table_nodup := List.nodup_cons.mpr ⟨not_mem_table_new h, h.table_nodup⟩
    registered := ?_, entry := ?_, owned := ?_
    policy := fun e x hx => h.init_policy ho hx
    refs := fun q o' hq => h.init_refs ho hq
    held := ?_, parent := ?_
    work := fun e he => h.init_work he
    count := ?_ }
  · intro e he
    rcases List.mem_cons.mp he with rfl | he
    · exact ⟨_, Heap.read_alloc_self⟩
    · obtain ⟨x, hx⟩ := h.registered e he
      exact ⟨x, Heap.read_alloc hx⟩
  · intro e x hx
    by_cases he : e = s.entries.next
    · exact .inl (List.mem_cons.mpr (.inl he))
    · rw [Heap.read_alloc_of_ne he] at hx
      rcases h.entry e x hx with hmem | hk
      · exact .inl (List.mem_cons_of_mem _ hmem)
      · exact .inr hk
  · intro k e he
    obtain ⟨hnot, x, hx, hreg⟩ := h.owned k e he
    refine ⟨?_, x, Heap.read_alloc hx, hreg⟩
    rw [List.mem_cons]
    rintro (rfl | hmem)
    · exact not_owned_new h he
    · exact hnot hmem
  · rintro q (hq | ⟨hk, hnone, -⟩)
    · exact (Heap.exists_read_store ho).mpr (h.held q (.inl hq))
    · exact absurd hnone (by simp)
  · intro t q e hnone
    exact absurd hnone (by simp)
  · show s.taskInfoCount + 1 = ((s.entries.next :: s.table).length : ℤ)
    rw [List.length_cons, h.count]
    exact (Nat.cast_succ _).symm

theorem Inv.initThread {child : Bool} (h : Inv s) (hk : s.threads k = .found t path p child)
    (ho : s.policies.read p = some o) :
    Inv { s with
      policies := s.policies.store p { o with objCount := o.objCount + 1 }
      entries := s.entries.alloc ⟨t, path, p⟩
      work := Function.update s.work s.entries.next .pending
      threads := Function.update s.threads k (.inited t p s.entries.next child) } := by
  have hself : Function.update s.threads k (.inited t p s.entries.next child) k =
      .inited t p s.entries.next child := Function.update_self ..
  have hother : ∀ k', k' ≠ k →
      Function.update s.threads k (.inited t p s.entries.next child) k' = s.threads k' :=
    fun k' hne => Function.update_of_ne hne ..
  refine { h with
    policies_sound := h.policies_sound.store ho
    entries_sound := h.entries_sound.alloc
    listed := fun q hq => (Heap.exists_read_store ho).mpr (h.listed q hq)
    switch := fun q o' hq => h.init_switch ho hq
    registered := ?_, entry := ?_, owned := ?_, owned_inj := ?_
    policy := fun e x hx => h.init_policy ho hx
    refs := fun q o' hq => h.init_refs ho hq
    held := ?_
    work := fun e he => h.init_work he }
  all_goals dsimp only
  · intro e he
    obtain ⟨x, hx⟩ := h.registered e he
    exact ⟨x, Heap.read_alloc hx⟩
  · intro e x hx
    by_cases he : e = s.entries.next
    · refine .inr ⟨k, ?_⟩
      rw [hself, he]
      rfl
    · rw [Heap.read_alloc_of_ne he] at hx
      rcases h.entry e x hx with hmem | ⟨k', hk'⟩
      · exact .inl hmem
      · refine .inr ⟨k', ?_⟩
        rw [hother k' (by rintro rfl; rw [hk] at hk'; exact absurd hk' (by simp [Thread.owns]))]
        exact hk'
  · intro k' e he
    by_cases hkk : k' = k
    · subst hkk
      rw [hself] at he ⊢
      obtain rfl := Option.some.inj he
      exact ⟨not_mem_table_new h, _, Heap.read_alloc_self, rfl⟩
    · rw [hother k' hkk] at he ⊢
      obtain ⟨hnot, x, hx, hreg⟩ := h.owned k' e he
      exact ⟨hnot, x, Heap.read_alloc hx, hreg⟩
  · intro k₁ k₂ e h₁ h₂
    by_cases hk₁ : k₁ = k
    · by_cases hk₂ : k₂ = k
      · rw [hk₁, hk₂]
      · subst hk₁
        rw [hself] at h₁
        rw [hother k₂ hk₂] at h₂
        obtain rfl := Option.some.inj h₁
        exact absurd h₂ (not_owned_new h)
    · rw [hother k₁ hk₁] at h₁
      by_cases hk₂ : k₂ = k
      · subst hk₂
        rw [hself] at h₂
        obtain rfl := Option.some.inj h₂
        exact absurd h₁ (not_owned_new h)
      · rw [hother k₂ hk₂] at h₂
        exact h.owned_inj k₁ k₂ e h₁ h₂
  · rintro q (⟨k', hq⟩ | hq)
    · rw [Heap.exists_read_store ho]
      rcases held_update hq with hq | hq
      · obtain rfl := Option.some.inj hq
        exact ⟨o, ho⟩
      · exact h.held q (.inl ⟨k', hq⟩)
    · exact (Heap.exists_read_store ho).mpr (h.held q (.inr hq))

/-- A thread that gives up its entry leaves those of the others. -/
theorem owns_of_release (h : Inv s) (hk : (s.threads k).owns = some e) (hnew : th.owns = none) {e' : ℕ}
    (hk' : (Function.update s.threads k th k').owns = some e') : (s.threads k').owns = some e' ∧ k' ≠ k ∧ e' ≠ e := by
  have hne : k' ≠ k := by
    rintro rfl
    rw [Function.update_self, hnew] at hk'
    exact absurd hk' (by simp)
  rw [Function.update_of_ne hne] at hk'
  refine ⟨hk', hne, ?_⟩
  rintro rfl
  exact hne (h.owned_inj k' k e' hk' hk)

/-- Who has given up nothing holds the same policy as before. -/
theorem held_of_release (h : Inv s) {t : Task} {child : Bool} (hk : s.threads k = .inited t p e child)
    (hq : Held (s.setThread k (.after p child)) q) : ∃ o, s.policies.read q = some o := by
  rcases hq with ⟨k', hq⟩ | hq
  · rcases held_update hq with hq | hq
    · obtain rfl := after_holds hq
      exact h.held q (.inl ⟨k, by rw [hk]; rfl⟩)
    · exact h.held q (.inl ⟨k', hq⟩)
  · exact h.held q (.inr hq)

theorem Inv.link {child : Bool} (h : Inv s) (hk : s.threads k = .inited t p e child) :
    Inv ((s.link e).setThread k (.after p child)) := by
  have hown : (s.threads k).owns = some e := by rw [hk]; rfl
  obtain ⟨hnot, x, hx, -⟩ := h.owned k e hown
  have hheld : ∀ q, Held (s.setThread k (.after p child)) q → ∃ o, s.policies.read q = some o :=
    fun q hq => held_of_release h hk hq
  refine { h with
    table_nodup := List.nodup_cons.mpr ⟨hnot, h.table_nodup⟩
    registered := ?_, entry := ?_, owned := ?_, owned_inj := ?_
    held := hheld
    parent := fun t q e he => List.mem_cons_of_mem _ (h.parent t q e he)
    count := ?_ }
  · intro e' he'
    rcases List.mem_cons.mp he' with rfl | he'
    · exact ⟨x, hx⟩
    · exact h.registered e' he'
  · intro e' x' hx'
    rcases h.entry e' x' hx' with hmem | ⟨k', hk'⟩
    · exact .inl (List.mem_cons_of_mem _ hmem)
    · by_cases hkk : k' = k
      · subst hkk
        obtain rfl := Option.some.inj (hown.symm.trans hk')
        exact .inl List.mem_cons_self
      · refine .inr ⟨k', ?_⟩
        have hsame : ((s.link e).setThread k (.after p child)).threads k' = s.threads k' :=
          Function.update_of_ne hkk ..
        rw [hsame]
        exact hk'
  · intro k' e' he'
    obtain ⟨hold, hkk, hee⟩ := owns_of_release h hown (after_owns p child) he'
    obtain ⟨hnot', x', hx', hreg⟩ := h.owned k' e' hold
    have hsame : ((s.link e).setThread k (.after p child)).threads k' = s.threads k' :=
      Function.update_of_ne hkk ..
    refine ⟨?_, x', hx', hsame ▸ hreg⟩
    exact fun hmem => (List.mem_cons.mp hmem).elim hee hnot'
  · intro k₁ k₂ e' h₁ h₂
    exact h.owned_inj k₁ k₂ e' (owns_of_release h hown (after_owns p child) h₁).1
      (owns_of_release h hown (after_owns p child) h₂).1
  · show s.taskInfoCount + 1 = ((e :: s.table).length : ℤ)
    rw [List.length_cons, h.count]
    exact (Nat.cast_succ _).symm

theorem Inv.fail {child : Bool} (h : Inv s) (hk : s.threads k = .inited t p e child)
    (hrun : ¬ (s.work e).Running) :
    Inv (({ s with entries := s.entries.kfree e }.setWork e (s.work e).cancel).setThread k (.after p child)) := by
  have hown : (s.threads k).owns = some e := by rw [hk]; rfl
  obtain ⟨hnot, x, hx, -⟩ := h.owned k e hown
  have hidle := cancel_eq_idle hrun
  have hread : ∀ e', e' ≠ e → (s.entries.kfree e).read e' = s.entries.read e' :=
    fun e' hne => Heap.read_kfree_of_ne (Ne.symm hne)
  have hheld : ∀ q, Held (s.setThread k (.after p child)) q → ∃ o, s.policies.read q = some o :=
    fun q hq => held_of_release h hk hq
  refine { h with
    entries_sound := h.entries_sound.kfree hx
    registered := ?_, entry := ?_, owned := ?_, owned_inj := ?_
    policy := fun e' x' hx' => h.policy e' x' (Heap.read_of_kfree hx')
    refs := ?_
    held := hheld
    work := ?_ }
  · intro e' he'
    obtain ⟨x', hx'⟩ := h.registered e' he'
    have hne : e' ≠ e := fun heq => hnot (heq ▸ he')
    exact ⟨x', (hread e' hne).trans hx'⟩
  · intro e' x' hx'
    rcases h.entry e' x' (Heap.read_of_kfree hx') with hmem | ⟨k', hk'⟩
    · exact .inl hmem
    · have hkk : k' ≠ k := by
        rintro rfl
        exact Heap.ne_of_read_kfree hx' (Option.some.inj (hown.symm.trans hk'))
      refine .inr ⟨k', ?_⟩
      show (Function.update s.threads k _ k').owns = some e'
      rw [Function.update_of_ne hkk]
      exact hk'
  · intro k' e' he'
    obtain ⟨hold, hkk, hee⟩ := owns_of_release h hown (after_owns p child) he'
    obtain ⟨hnot', x', hx', hreg⟩ := h.owned k' e' hold
    refine ⟨hnot', x', (hread e' hee).trans hx', ?_⟩
    show (Function.update s.threads k _ k').registers = _
    rw [Function.update_of_ne hkk]
    exact hreg
  · intro k₁ k₂ e' h₁ h₂
    exact h.owned_inj k₁ k₂ e' (owns_of_release h hown (after_owns p child) h₁).1
      (owns_of_release h hown (after_owns p child) h₂).1
  · intro q o' ho'
    have hcount := @count_removed s e x q hx
    have hle := h.refs q o' ho'
    show Heap.count _ (s.entries.kfree e) ≤ _
    omega
  · intro e' he'
    by_cases hee : e' = e
    · subst hee
      refine absurd ?_ he'
      show Function.update s.work e' _ e' = _
      rw [Function.update_self, hidle]
    · have hsame : Function.update s.work e (s.work e).cancel e' = s.work e' := Function.update_of_ne hee ..
      obtain ⟨x', hx'⟩ := h.work e' (hsame ▸ he')
      exact ⟨x', (hread e' hee).trans hx'⟩

/-- **Every move keeps the state in order.** -/
theorem Inv.move (h : Inv s) (hm : Move exact unique s s') : Inv s' := by
  cases hm with
  | thread k th hold hnew halive hreg => exact h.thread hold hnew halive
  | hook new halive hparent hreg => exact h.setHook halive hparent
  | work e w x hx => exact h.setWork hx
  | add k n x hk hn =>
      have halloc := h.alloc (y := x) hn
      refine @Inv.thread _ k (.added s.policies.next) halloc ?_ rfl ?_
      · show (s.threads k).owns = none
        rw [hk]
        rfl
      · intro p hp
        obtain rfl := Option.some.inj hp
        exact ⟨_, Heap.read_alloc_self⟩
  | off p o hp ho hexact => exact h.off ho
  | free p o hp ho hcount hheld => exact h.free ho hcount hheld
  | initThread k t path p child o hk ho => exact h.initThread hk ho
  | initHook t path p o hh ho => exact h.initHook ho
  | link k t p e child hk => exact h.link hk
  | fail k t p e child hk hrun hexact => exact h.fail hk hrun
  | remove e x o hh he hx ho hheld => exact h.remove hh he hx ho hheld

/-- A sequence of moves keeps what every move keeps, from a state in order. -/
theorem moves_preserve {J : State → Prop} (hJ : ∀ s s', Inv s → J s → Move exact unique s s' → J s')
    (h : Inv s) (hs : J s) (hm : ReflTransGen (Move exact unique) s s') : Inv s' ∧ J s' := by
  induction hm with
  | refl => exact ⟨h, hs⟩
  | tail _ hmove ih =>
      obtain ⟨hinv, hj⟩ := ih
      exact ⟨hinv.move hmove, hJ _ _ hinv hj hmove⟩

end Moves

end Tasks
end Dmeasure
end TsbAgent
