/-
# The table of measured tasks

Three kinds of steps spoil the table of `task.c`:

| step | what happens |
| --- | --- |
| `exit`, `unload` | an entry goes while its check runs: the check reads it, and schedules its work again |
| `measure`, `fail` | an entry goes that its collection links later, or whose check runs before the link |
| `check`, `child`, `mmap` | a task is registered by two threads: both find no entry, and both add one |

The lookup passes over entries whose policy is switched off, so such a task gets a second entry;
but a policy is never switched on again, so at most one entry of a task counts.  `task_table` says that in every
run without such steps each task has at most one entry with an enabled policy, the count is right, an entry
is freed once, and no work is left behind for an entry that is gone.
-/

import TsbAgent.Dmeasure.TaskSteps

namespace TsbAgent
namespace Dmeasure
namespace Tasks

open Run Relation Libc

/-- A task has one entry whose policy is in the list, and none while it is being registered; only one thread
registers it. -/
structure Unique (s : State) : Prop where
  once : ∀ e e' x x', e ∈ s.table → e' ∈ s.table → s.entries.read e = some x → s.entries.read e' = some x' →
    x.task = x'.task → x.policy ∈ s.list → x'.policy ∈ s.list → e = e'
  unmeasured : ∀ t, Registering s t → ∀ e ∈ s.table, ∀ x, s.entries.read e = some x → x.task = t → x.policy ∉ s.list
  threads : ∀ k k' t, (s.threads k).registers = some t → (s.threads k').registers = some t → k = k'
  hook : ∀ k hk, s.hook = some hk → (s.threads k).registers ≠ some hk.registers

theorem unique_init : Unique State.init where
  once := fun _ _ _ _ h => absurd h (by simp [State.init])
  unmeasured := fun _ _ _ h => absurd h (by simp [State.init])
  threads := fun _ _ _ h => absurd h (by simp [State.init, Thread.registers])
  hook := fun _ _ h => absurd h (by simp [State.init])

section Moves

variable {exact : Prop} {s s' : State} {k p e : ℕ} {th : Thread} {x : DtaskInfo} {t : Task} {path : CStr}

/-- The policy of a measured entry is in the list. -/
theorem Inv.measured_iff (h : Inv s) (hx : s.entries.read e = some x) :
    Measured s t e = true ↔ x.task = t ∧ x.policy ∈ s.list := by
  obtain ⟨o, ho⟩ := h.policy e x hx
  rw [Measured, hx, Option.any_some, ho, Option.any_some, decide_eq_true_eq, h.switch _ o ho]

theorem Fresh.unmeasured (hf : Fresh s t) (h : Inv s) (he : e ∈ s.table) (hx : s.entries.read e = some x)
    (htask : x.task = t) : x.policy ∉ s.list := by
  intro hlist
  have hmeasured := (h.measured_iff hx).mpr ⟨htask, hlist⟩
  rw [hf.2 e he] at hmeasured
  exact absurd hmeasured (by decide)

/-- Where nothing is added, neither to the table nor to the registrations. -/
theorem Unique.mono (hU : Unique s) (htable : ∀ e ∈ s'.table, e ∈ s.table)
    (hread : ∀ e ∈ s'.table, ∀ x, s'.entries.read e = some x → s.entries.read e = some x)
    (hlist : ∀ e x, s.entries.read e = some x → x.policy ∈ s'.list → x.policy ∈ s.list)
    (hthreads : ∀ k t, (s'.threads k).registers = some t → (s.threads k).registers = some t)
    (hhook : ∀ hk, s'.hook = some hk → s.hook = some hk) : Unique s' := by
  constructor
  · intro e e' x x' he he' hx hx' htask hp hp'
    have hx := hread e he x hx
    have hx' := hread e' he' x' hx'
    exact hU.once e e' x x' (htable e he) (htable e' he') hx hx' htask (hlist e x hx hp) (hlist e' x' hx' hp')
  · intro t ht e he x hx htask hp
    have hx := hread e he x hx
    refine hU.unmeasured t ?_ e (htable e he) x hx htask (hlist e x hx hp)
    rcases ht with ⟨k, hk⟩ | ⟨hk, hsome, hreg⟩
    · exact .inl ⟨k, hthreads k t hk⟩
    · exact .inr ⟨hk, hhook hk hsome, hreg⟩
  · intro k k' t hk hk'
    exact hU.threads k k' t (hthreads k t hk) (hthreads k' t hk')
  · intro k hk hsome hreg
    exact hU.hook k hk (hhook hk hsome) (hthreads k _ hreg)

/-- A thread that goes on and registers nothing new. -/
theorem registers_update {f : ℕ → Thread} (hreg : ∀ t, th.registers = some t → (f k).registers = some t) (k' : ℕ)
    (t : Task) (h : (Function.update f k th k').registers = some t) : (f k').registers = some t := by
  by_cases hk : k' = k
  · subst hk
    rw [Function.update_self] at h
    exact hreg t h
  · rwa [Function.update_of_ne hk] at h

theorem Unique.thread (hU : Unique s) (h : Inv s)
    (hreg : ∀ t, th.registers = some t → (s.threads k).registers = some t ∨ Fresh s t) : Unique (s.setThread k th) := by
  -- who registers `t` now did so before, or is `k` and `t` is fresh
  have hcases : ∀ k' t, ((s.setThread k th).threads k').registers = some t →
      (s.threads k').registers = some t ∨ (k' = k ∧ Fresh s t) := by
    intro k' t ht
    by_cases hk : k' = k
    · subst hk
      have ht : (Function.update s.threads k' th k').registers = some t := ht
      rw [Function.update_self] at ht
      exact (hreg t ht).imp id fun hf => ⟨rfl, hf⟩
    · have ht : (Function.update s.threads k th k').registers = some t := ht
      rw [Function.update_of_ne hk] at ht
      exact .inl ht
  constructor
  · exact hU.once
  · intro t ht e he x hx htask
    rcases ht with ⟨k', hk'⟩ | hhook
    · rcases hcases k' t hk' with hold | ⟨-, hf⟩
      · exact hU.unmeasured t (.inl ⟨k', hold⟩) e he x hx htask
      · exact hf.unmeasured h he hx htask
    · exact hU.unmeasured t (.inr hhook) e he x hx htask
  · intro k₁ k₂ t h₁ h₂
    rcases hcases k₁ t h₁ with hold₁ | ⟨rfl, hf⟩
    · rcases hcases k₂ t h₂ with hold₂ | ⟨rfl, hf⟩
      · exact hU.threads k₁ k₂ t hold₁ hold₂
      · exact absurd (.inl ⟨k₁, hold₁⟩) hf.1
    · rcases hcases k₂ t h₂ with hold₂ | ⟨rfl, -⟩
      · exact absurd (.inl ⟨k₂, hold₂⟩) hf.1
      · rfl
  · intro k' hk hsome hk'
    rcases hcases k' _ hk' with hold | ⟨-, hf⟩
    · exact hU.hook k' hk hsome hold
    · exact hf.1 (.inr ⟨hk, hsome, rfl⟩)

theorem Unique.setHook {new : Option Hook} (hU : Unique s) (h : Inv s)
    (hreg : ∀ hk, new = some hk → (∃ old, s.hook = some old ∧ old.registers = hk.registers) ∨ Fresh s hk.registers) :
    Unique (s.setHook new) := by
  constructor
  · exact hU.once
  · intro t ht e he x hx htask
    rcases ht with hthread | ⟨hk, hnew, rfl⟩
    · exact hU.unmeasured t (.inl hthread) e he x hx htask
    · rcases hreg hk hnew with hold | hf
      · exact hU.unmeasured _ (.inr hold) e he x hx htask
      · exact hf.unmeasured h he hx htask
  · exact hU.threads
  · intro k hk hnew hthread
    rcases hreg hk hnew with ⟨old, hold, hsame⟩ | hf
    · exact hU.hook k old hold (hsame ▸ hthread)
    · exact hf.1 (.inl ⟨k, hthread⟩)

/-- An entry joins the table at the end of its registration. -/
theorem Unique.join (hU : Unique s) (ht : Registering s t) (htask : x.task = t) (htable : s'.table = e :: s.table)
    (hx : s'.entries.read e = some x)
    (hread : ∀ e' ∈ s.table, ∀ x', s'.entries.read e' = some x' → s.entries.read e' = some x')
    (hlist : s'.list = s.list) (hthreads : ∀ k t, (s'.threads k).registers = some t → (s.threads k).registers = some t)
    (hhook : ∀ hk, s'.hook = some hk → s.hook = some hk) (hdone : ¬ Registering s' t) : Unique s' := by
  have hnew : ∀ e' ∈ s.table, ∀ x', s'.entries.read e' = some x' → x'.task = t → x'.policy ∉ s'.list := by
    intro e' he' x' hx' htask'
    rw [hlist]
    exact hU.unmeasured t ht e' he' x' (hread e' he' x' hx') htask'
  constructor
  · intro e₁ e₂ x₁ x₂ h₁ h₂ hx₁ hx₂ hsame hp₁ hp₂
    rw [htable] at h₁ h₂
    rcases List.mem_cons.mp h₁ with rfl | hold₁
    · rcases List.mem_cons.mp h₂ with rfl | hold₂
      · rfl
      · obtain rfl := Option.some.inj (hx.symm.trans hx₁)
        exact absurd hp₂ (hnew e₂ hold₂ x₂ hx₂ (hsame.symm.trans htask))
    · rcases List.mem_cons.mp h₂ with rfl | hold₂
      · obtain rfl := Option.some.inj (hx.symm.trans hx₂)
        exact absurd hp₁ (hnew e₁ hold₁ x₁ hx₁ (hsame.trans htask))
      · rw [hlist] at hp₁ hp₂
        exact hU.once e₁ e₂ x₁ x₂ hold₁ hold₂ (hread e₁ hold₁ x₁ hx₁) (hread e₂ hold₂ x₂ hx₂) hsame hp₁ hp₂
  · intro t' ht' e' he' x' hx' htask'
    rw [htable] at he'
    rcases List.mem_cons.mp he' with rfl | he'
    · obtain rfl := Option.some.inj (hx.symm.trans hx')
      obtain rfl := htask.symm.trans htask'
      exact absurd ht' hdone
    · rw [hlist]
      refine hU.unmeasured t' ?_ e' he' x' (hread e' he' x' hx') htask'
      rcases ht' with ⟨k, hk⟩ | ⟨hk, hsome, hreg⟩
      · exact .inl ⟨k, hthreads k t' hk⟩
      · exact .inr ⟨hk, hhook hk hsome, hreg⟩
  · intro k k' t' hk hk'
    exact hU.threads k k' t' (hthreads k t' hk) (hthreads k' t' hk')
  · intro k hk hsome hreg
    exact hU.hook k hk (hhook hk hsome) (hthreads k _ hreg)

theorem Unique.link {child : Bool} (hU : Unique s) (h : Inv s) (hk : s.threads k = .inited t p e child) :
    Unique ((s.link e).setThread k (.after p child)) := by
  have hregk : (s.threads k).registers = some t := by rw [hk]; rfl
  obtain ⟨-, x, hx, hreg⟩ := h.owned k e (by rw [hk]; rfl)
  have htask : x.task = t := Option.some.inj (hreg.symm.trans hregk)
  have hthreads : ∀ k' t', (Function.update s.threads k (.after p child) k').registers = some t' →
      (s.threads k').registers = some t' ∧ k' ≠ k := by
    intro k' t' ht'
    have hne : k' ≠ k := by
      rintro rfl
      rw [Function.update_self, after_registers] at ht'
      exact absurd ht' (by simp)
    rw [Function.update_of_ne hne] at ht'
    exact ⟨ht', hne⟩
  refine hU.join (.inl ⟨k, hregk⟩) htask rfl hx (fun _ _ _ h => h) rfl (fun k' t' ht' => (hthreads k' t' ht').1)
    (fun _ h => h) ?_
  rintro (⟨k', hk'⟩ | ⟨hh, hsome, hreg'⟩)
  · obtain ⟨hold, hne⟩ := hthreads k' t hk'
    exact hne (hU.threads k' k t hold hregk)
  · exact hU.hook k hh hsome (hreg' ▸ hregk)

theorem Unique.initHook {o : PolicyObject} (hU : Unique s) (h : Inv s) (hh : s.hook = some (.found t path p)) :
    Unique { s with
      policies := s.policies.store p { o with objCount := o.objCount + 1 }
      entries := s.entries.alloc ⟨t, path, p⟩
      table := s.entries.next :: s.table
      taskInfoCount := s.taskInfoCount + 1
      work := Function.update s.work s.entries.next .pending
      hook := none } := by
  refine hU.join (.inr ⟨_, hh, rfl⟩) rfl rfl Heap.read_alloc_self (fun e he x hx => ?_) rfl (fun _ _ h => h)
    (fun _ h => absurd h (by simp)) ?_
  · have hne : e ≠ s.entries.next := fun heq => not_mem_table_new h (heq ▸ he)
    rwa [Heap.read_alloc_of_ne hne] at hx
  · rintro (⟨k, hk⟩ | ⟨hk, hsome, -⟩)
    · exact hU.hook k _ hh hk
    · exact absurd hsome (by simp)

theorem Unique.move (hU : Unique s) (h : Inv s) (hm : Move exact True s s') : Unique s' := by
  cases hm with
  | thread k th hold hnew halive hreg => exact hU.thread h (hreg trivial)
  | hook new halive hparent hreg => exact hU.setHook h (hreg trivial)
  | work e w x hx =>
      exact hU.mono (fun _ he => he) (fun _ _ _ hx => hx) (fun _ _ _ hp => hp) (fun _ _ ht => ht) fun _ hh => hh
  | add k n x hk hn =>
      refine hU.mono (fun _ he => he) (fun _ _ _ hx => hx) (fun e y hy hp => ?_)
        (registers_update fun t ht => absurd ht (by simp [Thread.registers])) fun _ hh => hh
      -- an entry does not point to a policy that is not there yet
      obtain ⟨o, ho⟩ := h.policy e y hy
      rcases List.mem_cons.mp ((List.perm_insertIdx _ s.list hn).mem_iff.mp hp) with heq | hp
      · exact absurd (Heap.lt_of_read ho) (by rw [heq]; exact Nat.lt_irrefl _)
      · exact hp
  | off p o hp ho hexact =>
      exact hU.mono (fun _ he => he) (fun _ _ _ hx => hx) (fun _ _ _ hp => List.mem_of_mem_erase hp)
        (fun _ _ ht => ht) fun _ hh => hh
  | free p o hp ho hcount hheld =>
      exact hU.mono (fun _ he => he) (fun _ _ _ hx => hx) (fun _ _ _ hp => List.mem_of_mem_erase hp)
        (fun _ _ ht => ht) fun _ hh => hh
  | initThread k t path p child o hk ho =>
      refine hU.mono (fun _ he => he) (fun e he x hx => ?_) (fun _ _ _ hp => hp)
        (registers_update fun t' ht' => ?_) fun _ hh => hh
      · have hne : e ≠ s.entries.next := fun heq => not_mem_table_new h (heq ▸ he)
        have hx : (s.entries.alloc ⟨t, path, p⟩).read e = some x := hx
        rwa [Heap.read_alloc_of_ne hne] at hx
      · rw [hk]
        exact ht'
  | initHook t path p o hh ho => exact hU.initHook h hh
  | link k t p e child hk => exact hU.link h hk
  | fail k t p e child hk hrun hexact =>
      refine hU.mono (fun _ he => he) (fun _ _ _ hx => Heap.read_of_kfree hx) (fun _ _ _ hp => hp)
        (registers_update fun t' ht' => ?_) fun _ hh => hh
      rw [after_registers] at ht'
      exact absurd ht' (by simp)
  | remove e x o hh he hx ho hheld =>
      exact hU.mono (fun _ he => List.mem_of_mem_erase he) (fun _ _ _ hx => Heap.read_of_kfree hx)
        (fun _ _ _ hp => hp) (fun _ _ ht => ht) fun _ hh => hh

end Moves

/-- **The table in order.** -/
structure TaskTable (s : State) : Prop where
  once : ∀ t, ∀ e ∈ s.table, ∀ e' ∈ s.table, Measured s t e = true → Measured s t e' = true → e = e'
  count : s.taskInfoCount = s.table.length
  alive : ∀ e ∈ s.table, ∃ x, s.entries.read e = some x
  freed_le : ∀ e, s.entries.freed.count e ≤ 1
  freed : ∀ e < s.entries.next, e ∉ s.table → (∀ k, (s.threads k).owns ≠ some e) → s.entries.freed.count e = 1
  work : ∀ e, s.work e ≠ .idle → ∃ x, s.entries.read e = some x

theorem taskTable_of_unique {s : State} (h : Inv s) (hU : Unique s) : TaskTable s where
  once := by
    intro t e he e' he' hm hm'
    obtain ⟨x, hx⟩ := h.registered e he
    obtain ⟨x', hx'⟩ := h.registered e' he'
    obtain ⟨htask, hp⟩ := (h.measured_iff hx).mp hm
    obtain ⟨htask', hp'⟩ := (h.measured_iff hx').mp hm'
    exact hU.once e e' x x' he he' hx hx' (htask.trans htask'.symm) hp hp'
  count := h.count
  alive := h.registered
  freed_le := fun e => List.nodup_iff_count_le_one.mp h.entries_sound.nodup e
  freed := by
    intro e he hnot hown
    refine h.entries_sound.count_freed he ?_
    by_contra hne
    obtain ⟨x, hx⟩ := Option.ne_none_iff_exists'.mp hne
    rcases h.entry e x hx with hmem | ⟨k, hk⟩
    · exact hnot hmem
    · exact hown k hk
  work := h.work

/-- **In every run whose steps free nothing that is used and register no task twice at a time,** no step touches a
freed entry and the table is in order. -/
theorem task_table {events : List Event} {m : Except Fault State}
    (hok : Meets machine (Permits fun s ev => Safe s ev ∧ Alone s ev) (.ok State.init) events)
    (hrun : run machine (.ok State.init) events = some m) : ∃ s, m = .ok s ∧ TaskTable s := by
  have hmove : ∀ s s', Inv s → Unique s → Move False True s s' → Unique s' := fun _ _ hinv hU hm => hU.move hinv hm
  obtain ⟨s, rfl, hinv, hunique⟩ := run_moves (fun _ _ h => h.1) (fun h => absurd h id) (fun _ _ _ h => h.2) hmove
    unique_init hok hrun
  exact ⟨s, rfl, taskTable_of_unique hinv hunique⟩

/-- A program is registered, checked once, and exits. -/
theorem task_table_exit :
    let events : List Event :=
      [.add 0 samplePolicy, .addDone 0 true, .mmap ⟨1, 1⟩ ⟨0, 0⟩ sampleQuery true, .mmapQuery,
      .mmapInit true, .start 0 true, .measure 0 false, .reschedule 0, .exit ⟨1, 1⟩]
    ∃ s, run machine (.ok State.init) events = some (.ok s) ∧ TaskTable s ∧ s.entries.freed = [0] := by
  intro events
  have hok : Meets machine (Permits fun s ev => Safe s ev ∧ Alone s ev) (.ok State.init) events := by
    have htrue : ∀ s ev, Safe s ev = True → Alone s ev = True → Safe s ev ∧ Alone s ev := fun s ev h h' =>
      ⟨of_eq_true h, of_eq_true h'⟩
    refine meets_cons_of_step (fun _ _ => htrue _ _ rfl rfl) rfl ?_
    refine meets_cons_of_step (fun _ _ => htrue _ _ rfl rfl) rfl ?_
    -- nobody registers a task yet
    refine meets_cons_of_step (fun s hs => ⟨trivial, ?_⟩) rfl ?_
    · obtain rfl := Except.ok.inj hs
      rintro (⟨k, hk⟩ | ⟨hk, hnone, -⟩)
      · have hk : (Function.update (Function.update State.init.threads 0 (.added 0)) 0 .idle k).registers =
            some ⟨1, 1⟩ := hk
        rw [sample_threads] at hk
        exact absurd hk (by decide)
      · exact absurd (show none = some hk from hnone) (by simp)
    refine meets_cons_of_step (fun _ _ => htrue _ _ rfl rfl) rfl ?_
    refine meets_cons_of_step (fun _ _ => htrue _ _ rfl rfl) rfl ?_
    refine meets_cons_of_step (fun _ _ => htrue _ _ rfl rfl) rfl ?_
    -- the check does not remove the entry
    refine meets_cons_of_step (fun s hs => ⟨fun x o hx ho hrem => ?_, trivial⟩) rfl ?_
    · obtain rfl := Except.ok.inj hs
      obtain rfl := Option.some.inj hx
      obtain rfl := Option.some.inj ho
      exact absurd hrem (by decide)
    refine meets_cons_of_step (fun _ _ => htrue _ _ rfl rfl) rfl ?_
    -- and it has ended before the exit
    refine meets_cons_of_step (fun s hs => ⟨fun e he _ => ?_, trivial⟩) rfl trivial
    · obtain rfl := Except.ok.inj hs
      obtain rfl : e = 0 := List.mem_singleton.mp he
      decide
  obtain ⟨s, hs, htable⟩ := task_table hok rfl
  obtain rfl := Except.ok.inj hs
  exact ⟨_, rfl, htable, rfl⟩

/-- A task exits while its check waits for the mutex, or after the check has released it: the check uses the
freed entry.  Two collections find a task without an entry: it gets two. -/
theorem task_table_fails :
    let registered : List Event := [.add 0 samplePolicy, .addDone 0 true, .mmap ⟨1, 1⟩ ⟨0, 0⟩ sampleQuery true,
      .mmapQuery, .mmapInit true, .start 0 true]
    run machine (.ok State.init) (registered ++ [.exit ⟨1, 1⟩, .measure 0 false]) = some (.error (.entry 0)) ∧
    run machine (.ok State.init) (registered ++ [.measure 0 false, .exit ⟨1, 1⟩, .reschedule 0]) =
      some (.error (.entry 0)) ∧
    ∃ s, run machine (.ok State.init) [.add 0 samplePolicy, .addDone 0 true, .collect 0, .collect 1,
      .check 0 ⟨1, 1⟩ sampleQuery, .check 1 ⟨1, 1⟩ sampleQuery, .query 0 true, .query 1 true, .init 0 true,
      .init 1 true, .link 0, .link 1] = some (.ok s) ∧
      s.table = [1, 0] ∧ Measured s ⟨1, 1⟩ 0 = true ∧ Measured s ⟨1, 1⟩ 1 = true := by
  exact ⟨rfl, rfl, _, rfl, rfl, rfl, rfl⟩

end Tasks
end Dmeasure
end TsbAgent
