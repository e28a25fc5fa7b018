/-
# The lifetime of a measurement policy

`obj_count` of a `process_policy` is raised for every entry of the task table that points to it and lowered when
the entry goes.  A policy leaves the list when it is deleted, or with all others at a reload; the last
entry frees it then.  Four things go wrong with this:

| step | what happens |
| --- | --- |
| `del` | frees a policy that a registration has looked up and not counted yet |
| `exit`, `unload`, `measure` | an entry goes while its check runs, which still reads the policy through it |
| `clean` | a policy without tasks leaves the list and is never freed, the `kfree` is commented out |
| `fail` | the entry of a collection is dropped and its policy stays counted, so it is never freed |

`policy_lifetime` says that these are all: in every run without such steps no policy is used after it was
freed, the counters are right, and a policy that has left the list is freed once, with its last task.
-/

import TsbAgent.Dmeasure.TaskSteps

namespace TsbAgent
namespace Dmeasure
namespace Tasks

open Run Relation Libc

/-- The counters are exact, and a policy that has left the list waits for a task. -/
structure Exact (s : State) : Prop where
  count : ∀ p o, s.policies.read p = some o → o.objCount = Heap.count (fun x => x.policy = p) s.entries
  kept : ∀ p o, s.policies.read p = some o → p ∉ s.list → 0 < o.objCount

theorem exact_init : Exact State.init where
  count := fun _ _ h => absurd h (by simp [State.init])
  kept := fun _ _ h => absurd h (by simp [State.init])

section Moves

variable {unique : Prop} {s s' : State} {p e : ℕ} {o : PolicyObject} {x : DtaskInfo} {t : Task} {path : CStr}

theorem Exact.alloc {n : ℕ} {y : ProcessPolicy} (hE : Exact s) (h : Inv s) (hn : n ≤ s.list.length)
    (threads : ℕ → Thread) :
    Exact { s with
      policies := s.policies.alloc ⟨y, 0, true⟩
      list := s.list.insertIdx n s.policies.next
      threads := threads } := by
  have hperm := List.perm_insertIdx s.policies.next s.list hn
  constructor
  · intro p o ho
    by_cases hp : p = s.policies.next
    · subst hp
      obtain rfl := Option.some.inj (Heap.read_alloc_self.symm.trans ho)
      exact h.count_new.symm
    · rw [Heap.read_alloc_of_ne hp] at ho
      exact hE.count p o ho
  · intro p o ho hnot
    rw [hperm.mem_iff, List.mem_cons, not_or] at hnot
    rw [Heap.read_alloc_of_ne hnot.1] at ho
    exact hE.kept p o ho hnot.2

theorem Exact.off (hE : Exact s) (ho : s.policies.read p = some o) (hcount : o.objCount ≠ 0) :
    Exact { s with
      policies := s.policies.store p { o with processSwitch := false }
      list := s.list.erase p } := by
  constructor
  · intro q o' ho'
    by_cases hpq : p = q
    · subst hpq
      obtain rfl := Option.some.inj ((Heap.read_store_self ho).symm.trans ho')
      exact hE.count p o ho
    · rw [Heap.read_store_of_ne hpq] at ho'
      exact hE.count q o' ho'
  · intro q o' ho' hnot
    by_cases hpq : p = q
    · subst hpq
      obtain rfl := Option.some.inj ((Heap.read_store_self ho).symm.trans ho')
      exact Nat.pos_of_ne_zero hcount
    · rw [Heap.read_store_of_ne hpq] at ho'
      rw [List.mem_erase_of_ne (Ne.symm hpq)] at hnot
      exact hE.kept q o' ho' hnot

theorem Exact.free (hE : Exact s) :
    Exact { s with policies := s.policies.kfree p, list := s.list.erase p } := by
  constructor
  · intro q o' ho'
    exact hE.count q o' (Heap.read_of_kfree ho')
  · intro q o' ho' hnot
    rw [List.mem_erase_of_ne (Ne.symm (Heap.ne_of_read_kfree ho'))] at hnot
    exact hE.kept q o' (Heap.read_of_kfree ho') hnot

/-- A new entry, whoever makes it. -/
theorem Exact.initEntry (hE : Exact s) (ho : s.policies.read p = some o) (hlist : s'.list = s.list)
    (hpolicies : s'.policies = s.policies.store p { o with objCount := o.objCount + 1 })
    (hentries : s'.entries = s.entries.alloc ⟨t, path, p⟩) : Exact s' := by
  constructor
  · intro q o' ho'
    rw [hpolicies] at ho'
    obtain ⟨o₀, ho₀, -, hobj⟩ := policies_init ho ho'
    rw [hentries, count_init, hobj, hE.count q o₀ ho₀]
  · intro q o' ho' hnot
    rw [hpolicies] at ho'
    rw [hlist] at hnot
    obtain ⟨o₀, ho₀, -, hobj⟩ := policies_init ho ho'
    have hpos := hE.kept q o₀ ho₀ hnot
    omega

/-- The last entry of a policy that is switched off frees it. -/
theorem Exact.remove (hE : Exact s) (h : Inv s) (hx : s.entries.read e = some x)
    (ho : s.policies.read x.policy = some o) : Exact ((s.removed e x o).setWork e .idle) := by
  have hpos := h.objCount_pos hx ho
  constructor
  · intro q o' ho'
    obtain ⟨o₀, ho₀, -, hobj⟩ := policies_removed (e := e) ho hpos ho'
    have hcount := @count_removed s e x q hx
    have hexact := hE.count q o₀ ho₀
    show _ = Heap.count _ (s.entries.kfree e)
    omega
  · intro q o' ho' hnot
    obtain ⟨o₀, ho₀, -, hobj⟩ := policies_removed (e := e) ho hpos ho'
    have hkept := hE.kept q o₀ ho₀ hnot
    by_cases hq : x.policy = q
    · subst hq
      obtain rfl := Option.some.inj (ho.symm.trans ho₀)
      have hoff : o.processSwitch = false := by
        rw [Bool.eq_false_iff, ne_eq, h.switch _ o ho]
        exact hnot
      by_contra hzero
      -- the counter has come to zero, so the policy was freed
      have hone : o.objCount - 1 = 0 := by
        rw [if_pos rfl] at hobj
        omega
      have hgone : ((s.removed e x o).setWork e .idle).policies.read x.policy = none := by
        show (if o.processSwitch = false ∧ o.objCount - 1 = 0 then s.policies.kfree x.policy
          else s.policies.store x.policy { o with objCount := o.objCount - 1 }).read x.policy = none
        rw [if_pos ⟨hoff, hone⟩, Heap.read_kfree_self]
      rw [hgone] at ho'
      exact absurd ho' (by simp)
    · rw [if_neg hq] at hobj
      omega

theorem Exact.move (hE : Exact s) (h : Inv s) (hm : Move True unique s s') : Exact s' := by
  cases hm with
  | thread k th hold hnew halive hreg => exact ⟨hE.count, hE.kept⟩
  | hook new halive hparent hreg => exact ⟨hE.count, hE.kept⟩
  | work e w x hx => exact ⟨hE.count, hE.kept⟩
  | add k n x hk hn => exact hE.alloc h hn _
  | off p o hp ho hexact => exact hE.off ho (hexact trivial)
  | free p o hp ho hcount hheld => exact hE.free
  | initThread k t path p child o hk ho => exact hE.initEntry ho rfl rfl rfl
  | initHook t path p o hh ho => exact hE.initEntry ho rfl rfl rfl
  | link k t p e child hk => exact ⟨hE.count, hE.kept⟩
  | fail k t p e child hk hrun hexact => exact absurd trivial hexact
  | remove e x o hh he hx ho hheld => exact hE.remove h hx ho

end Moves

/-- **What the counters are for.**  `freed` is the list of all `kfree`; an entry that no thread has still to put
into the table is registered. -/
structure PolicyLifetime (s : State) : Prop where
  used : ∀ e x, s.entries.read e = some x → ∃ o, s.policies.read x.policy = some o
  once : ∀ p, s.policies.freed.count p ≤ 1
  freed : ∀ p < s.policies.next, p ∉ s.list → (∀ e x, s.entries.read e = some x → x.policy ≠ p) →
    s.policies.freed.count p = 1
  count : (∀ k, (s.threads k).owns = none) → ∀ p o, s.policies.read p = some o →
    o.objCount = (s.table.filter fun e => (s.entries.read e).any fun x => x.policy = p).length

theorem policyLifetime_of_exact {s : State} (h : Inv s) (hE : Exact s) : PolicyLifetime s where
  used := h.policy
  once := fun p => List.nodup_iff_count_le_one.mp h.policies_sound.nodup p
  freed := by
    intro p hp hnot hunused
    refine h.policies_sound.count_freed hp ?_
    by_contra hne
    obtain ⟨o, ho⟩ := Option.ne_none_iff_exists'.mp hne
    have hzero := hE.count p o ho
    rw [Heap.count_eq_zero fun e x hx => decide_eq_false (hunused e x hx)] at hzero
    have hpos := hE.kept p o ho hnot
    omega
  count := by
    intro hnone p o ho
    rw [hE.count p o ho]
    refine Heap.count_eq_length_filter h.table_nodup fun e => ⟨h.registered e, ?_⟩
    rintro ⟨x, hx⟩
    rcases h.entry e x hx with he | ⟨k, hk⟩
    · exact he
    · rw [hnone k] at hk
      exact absurd hk (by simp)

/-- **In every run whose steps free nothing that is used and forget nothing,** no step uses a freed policy and the
policies live as long as their tasks. -/
theorem policy_lifetime {events : List Event} {m : Except Fault State}
    (hok : Meets machine (Permits fun s ev => Safe s ev ∧ Counted s ev) (.ok State.init) events)
    (hrun : run machine (.ok State.init) events = some m) : ∃ s, m = .ok s ∧ PolicyLifetime s := by
  have hmove : ∀ s s', Inv s → Exact s → Move True False s s' → Exact s' := fun _ _ hinv hE hm => hE.move hinv hm
  obtain ⟨s, rfl, hinv, hexact⟩ := run_moves (fun _ _ h => h.1) (fun _ _ _ h => h.2) (fun h => absurd h id) hmove
    exact_init hok hrun
  exact ⟨s, rfl, policyLifetime_of_exact hinv hexact⟩

/-- A program is registered, its policy deleted, and the next check removes the entry and the policy. -/
theorem policy_lifetime_deleted :
    let events : List Event :=
      [.add 0 samplePolicy, .addDone 0 true, .mmap ⟨1, 1⟩ ⟨0, 0⟩ sampleQuery true, .mmapQuery,
      .mmapInit true, .del sampleItem, .start 0 true, .measure 0 false]
    ∃ s, run machine (.ok State.init) events = some (.ok s) ∧ PolicyLifetime s ∧ s.policies.freed = [0] := by
  intro events
  have hok : Meets machine (Permits fun s ev => Safe s ev ∧ Counted s ev) (.ok State.init) events := by
    have htrue : ∀ s ev, Safe s ev = True → Counted s ev = True → Safe s ev ∧ Counted s ev := fun s ev h h' =>
      ⟨of_eq_true h, of_eq_true h'⟩
    refine meets_cons_of_step (fun _ _ => htrue _ _ rfl rfl) rfl ?_
    refine meets_cons_of_step (fun _ _ => htrue _ _ rfl rfl) rfl ?_
    refine meets_cons_of_step (fun _ _ => htrue _ _ rfl rfl) rfl ?_
    refine meets_cons_of_step (fun _ _ => htrue _ _ rfl rfl) rfl ?_
    refine meets_cons_of_step (fun _ _ => htrue _ _ rfl rfl) rfl ?_
    -- the policy that is deleted has a task
    refine meets_cons_of_step (fun s hs => ⟨fun p o hp ho h0 => ?_, trivial⟩) rfl ?_
    · obtain rfl := Except.ok.inj hs
      obtain rfl : 0 = p := Option.some.inj hp
      obtain rfl := Option.some.inj ho
      exact absurd h0 (by decide)
    refine meets_cons_of_step (fun _ _ => htrue _ _ rfl rfl) rfl ?_
    -- the entry is in the table, and nobody else looks at the policy
    refine meets_cons_of_step (fun s hs => ⟨fun x o hx ho _ => ⟨?_, fun _ _ => ?_⟩, trivial⟩) rfl trivial
    · obtain rfl := Except.ok.inj hs
      exact List.mem_cons_self
    · obtain rfl := Except.ok.inj hs
      obtain rfl := Option.some.inj hx
      rintro (⟨k, hk⟩ | ⟨hk, hnone, -⟩)
      · have hk : (Function.update (Function.update State.init.threads 0 (.added 0)) 0 .idle k).holds = some 0 := hk
        rw [sample_threads] at hk
        exact absurd hk (by decide)
      · exact absurd (show none = some hk from hnone) (by simp)
  obtain ⟨s, hs, hlife⟩ := policy_lifetime hok rfl
  obtain rfl := Except.ok.inj hs
  exact ⟨_, rfl, hlife, rfl⟩

/-- A hook looks the policy up, a deletion frees it, and the hook goes on with it.  A reload forgets a policy that
no task uses.  A collection that fails leaves the counter at one. -/
theorem policy_lifetime_fails :
    run machine (.ok State.init) [.add 0 samplePolicy, .addDone 0 true, .mmap ⟨1, 1⟩ ⟨0, 0⟩ sampleQuery true,
      .mmapQuery, .del sampleItem, .mmapInit true] = some (.error (.policy 0)) ∧
    (∃ s, run machine (.ok State.init) [.add 0 samplePolicy, .addDone 0 true, .clean] = some (.ok s) ∧
      s.policies.next = 1 ∧ s.list = [] ∧ s.entries.next = 0 ∧ s.policies.freed = []) ∧
    ∃ s o, run machine (.ok State.init) [.add 0 samplePolicy, .addDone 0 true, .collect 0,
      .check 0 ⟨1, 1⟩ sampleQuery, .query 0 true, .init 0 true, .fail 0, .sub 0, .collected 0] = some (.ok s) ∧
      s.table = [] ∧ s.policies.read 0 = some o ∧ o.objCount = 1 := by
  exact ⟨rfl, ⟨_, rfl, rfl, rfl, rfl, rfl⟩, _, _, rfl, rfl, rfl, rfl⟩

end Tasks
end Dmeasure
end TsbAgent
