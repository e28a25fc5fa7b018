/-
# The list of protected processes

`tsb/kernel/smeasure/protection/process_protect.c`: a process asks to be protected and
takes a slot of `protect_list`, which it gives back by asking again or by exiting.
Every access to the list is under the mutex, but a call takes it more than once:

| action | lock section |
| --- | --- |
| `request` | `is_exist_list` in `ioctl_user_protect_request` |
| `choose` | `get_free_item` |
| `fill` | the two stores into the slot chosen; the call returns `0` |
| `unprotect` | `is_exist_list` in `ioctl_user_unprotect_request` |
| `exit` | `is_exist_list` in `unprotect_request`, from the exit notifier |
| `clear` | the `memset` of the slot found |

A slot that `get_free_item` has returned is still free for the next caller.  Two
requests that choose before either fills get the same slot, both return `0`, and the
first is no longer in the list (`protect_request_lost`).  `protected_until_unprotect`
says that nothing else goes wrong: where every slot is still free when it is filled
(`FillsFree`), a process keeps one slot until it gives it up.
-/

import TsbAgent.Basic
import TsbAgent.Lib.Run
import Mathlib.Data.Fintype.Card
import Mathlib.Data.PNat.Basic
import Mathlib.Logic.Function.Basic
import Mathlib.Order.Fin.Basic

namespace TsbAgent
namespace ProcessProtect

open Run

/-- `PROCESS_MAX_NUM`. -/
abbrev processMaxNum : ℕ := 16

def nodeItemUsed : ℕ := 1
def nodeItemFree : ℕ := 0

/-- `struct process_node`. -/
structure ProcessNode where
  pid : ℕ
  inuse : ℕ
  deriving DecidableEq

/-- A node after `memset(node, 0, sizeof(struct process_node))`. -/
def ProcessNode.zero : ProcessNode := ⟨0, 0⟩

/-- The node of a protected process. -/
def ProcessNode.used (p : ℕ+) : ProcessNode := ⟨p, nodeItemUsed⟩

/-- `protect_list`. -/
abbrev ProtectList := Fin processMaxNum → ProcessNode

/-- `is_exist_list`, `none` for its `-1`. -/
def isExistList (l : ProtectList) (pid : ℕ) : Option (Fin processMaxNum) :=
  (List.finRange processMaxNum).find? fun i => (l i).pid = pid

/-- `get_free_item`. -/
def getFreeItem (l : ProtectList) : Option (Fin processMaxNum) :=
  (List.finRange processMaxNum).find? fun i => (l i).inuse = nodeItemFree

/-- Where a process is: in user mode, with what its last call returned, or between the
lock sections of a call. -/
inductive Proc
  | user (ret : Option ℤ)
  | absent
  | chosen (node : Fin processMaxNum)
  | found (node : Fin processMaxNum) (ret : Option ℤ)

structure State where
  list : ProtectList
  procs : ℕ+ → Proc

inductive Act
  | request (p : ℕ+)
  | choose (p : ℕ+)
  | fill (p : ℕ+)
  | unprotect (p : ℕ+)
  | exit (p : ℕ+)
  | clear (p : ℕ+)

/-- Before the first call. -/
def State.init : State := ⟨fun _ => .zero, fun _ => .user none⟩

def State.to (s : State) (p : ℕ+) (pr : Proc) : State :=
  { s with procs := Function.update s.procs p pr }

/-- A store into a slot, the last of the process's call. -/
def State.store (s : State) (i : Fin processMaxNum) (node : ProcessNode) (p : ℕ+) (ret : Option ℤ) : State :=
  ⟨Function.update s.list i node, Function.update s.procs p (.user ret)⟩

/-- Where `is_exist_list` leaves a request. -/
def afterRequest : Option (Fin processMaxNum) → Proc
  | some _ => .user (some (-eexist))
  | none => .absent

/-- Where `get_free_item` leaves a request. -/
def afterChoose : Option (Fin processMaxNum) → Proc
  | some i => .chosen i
  | none => .user (some (-1))

/-- Where `is_exist_list` leaves a call that gives the slot up; `missing` and `ret` are what
the call returns without and with a slot. -/
def afterLook (missing ret : Option ℤ) : Option (Fin processMaxNum) → Proc
  | some i => .found i ret
  | none => .user missing

/-- One lock section. -/
def step (s : State) : Act → Option State
  | .request p =>
      match s.procs p with
      | .user _ => some (s.to p (afterRequest (isExistList s.list p)))
      | _ => none
  | .choose p =>
      match s.procs p with
      | .absent => some (s.to p (afterChoose (getFreeItem s.list)))
      | _ => none
  | .fill p =>
      match s.procs p with
      | .chosen i => some (s.store i (.used p) p (some 0))
      | _ => none
  | .unprotect p =>
      match s.procs p with
      | .user _ => some (s.to p (afterLook (some (-eexist)) (some 0) (isExistList s.list p)))
      | _ => none
  | .exit p =>
      match s.procs p with
      | .user _ => some (s.to p (afterLook none none (isExistList s.list p)))
      | _ => none
  | .clear p =>
      match s.procs p with
      | .found i ret => some (s.store i .zero p ret)
      | _ => none

/-- The slots in use. -/
def occupied (s : State) : Finset (Fin processMaxNum) :=
  Finset.univ.filter fun i => (s.list i).inuse ≠ nodeItemFree

/-- A process has a slot of the list, and no other. -/
def OneSlot (s : State) (p : ℕ+) : Prop :=
  ∃ i, s.list i = .used p ∧ ∀ j, (s.list j).pid = p → j = i

/-- The order of sections the code relies on: a slot is filled while it is still free. -/
def FillsFree (s : State) : Act → Prop
  | .fill p => ∀ i, s.procs p = .chosen i → (s.list i).inuse = nodeItemFree
  | _ => True

/-! ### What a section finds -/

section Sections

variable {l : ProtectList} {s s' : State} {p q : ℕ+} {i j : Fin processMaxNum}

theorem isExistList_some {pid : ℕ} (h : isExistList l pid = some i) : (l i).pid = pid := by
  simpa using List.find?_some h

theorem isExistList_none {pid : ℕ} (h : isExistList l pid = none) (i : Fin processMaxNum) :
    (l i).pid ≠ pid := fun hi =>
  List.find?_eq_none.mp h i (List.mem_finRange i) (decide_eq_true hi)

theorem ProcessNode.zero_ne_used : ProcessNode.zero ≠ .used p := fun h =>
  Nat.zero_ne_one (congrArg ProcessNode.inuse h)

theorem ProcessNode.used_injective (h : ProcessNode.used p = .used q) : p = q :=
  PNat.eq (congrArg ProcessNode.pid h)

/-- **What a lock section does**, with the process before and after it. -/
theorem step_cases {a : Act} (h : step s a = some s') :
    (∃ p ret, a = .request p ∧ s.procs p = .user ret ∧ s' = s.to p (afterRequest (isExistList s.list p))) ∨
    (∃ p, a = .choose p ∧ s.procs p = .absent ∧ s' = s.to p (afterChoose (getFreeItem s.list))) ∨
    (∃ p i, a = .fill p ∧ s.procs p = .chosen i ∧ s' = s.store i (.used p) p (some 0)) ∨
    (∃ p ret missing ok, (a = .unprotect p ∨ a = .exit p) ∧ s.procs p = .user ret ∧
      s' = s.to p (afterLook missing ok (isExistList s.list p))) ∨
    (∃ p i ret, a = .clear p ∧ s.procs p = .found i ret ∧ s' = s.store i .zero p ret) := by
  cases a with
  | request p =>
      cases hp : s.procs p with
      | user ret => exact .inl ⟨p, ret, rfl, hp, by simpa [step, hp] using h.symm⟩
      | _ => simp [step, hp] at h
  | choose p =>
      cases hp : s.procs p with
      | absent => exact .inr (.inl ⟨p, rfl, hp, by simpa [step, hp] using h.symm⟩)
      | _ => simp [step, hp] at h
  | fill p =>
      cases hp : s.procs p with
      | chosen i => exact .inr (.inr (.inl ⟨p, i, rfl, hp, by simpa [step, hp] using h.symm⟩))
      | _ => simp [step, hp] at h
  | unprotect p =>
      cases hp : s.procs p with
      | user ret =>
          exact .inr (.inr (.inr (.inl ⟨p, ret, _, _, .inl rfl, hp, by simpa [step, hp] using h.symm⟩)))
      | _ => simp [step, hp] at h
  | exit p =>
      cases hp : s.procs p with
      | user ret =>
          exact .inr (.inr (.inr (.inl ⟨p, ret, _, _, .inr rfl, hp, by simpa [step, hp] using h.symm⟩)))
      | _ => simp [step, hp] at h
  | clear p =>
      cases hp : s.procs p with
      | found i ret =>
          exact .inr (.inr (.inr (.inr ⟨p, i, ret, rfl, hp, by simpa [step, hp] using h.symm⟩)))
      | _ => simp [step, hp] at h

end Sections

/-! ### What every section keeps -/

/-- A process between two sections: a request has no slot yet, a call that gives its slot
up has found it. -/
def Between (l : ProtectList) (p : ℕ+) : Proc → Prop
  | .user _ => True
  | .absent => ∀ i, (l i).pid ≠ p
  | .chosen _ => ∀ i, (l i).pid ≠ p
  | .found i _ => l i = .used p

/-- The invariant: a slot is empty or has one process, a process has one slot, and every
call is where it thinks it is. -/
structure Inv (s : State) : Prop where
  node : ∀ i, s.list i = .zero ∨ ∃ p : ℕ+, s.list i = .used p
  unique : ∀ i j p, s.list i = .used p → s.list j = .used p → i = j
  between : ∀ p, Between s.list p (s.procs p)

section Preservation

variable {s s' : State} {p q : ℕ+} {i j : Fin processMaxNum} {pr : Proc}

theorem inv_init : Inv State.init where
  node _ := .inl rfl
  unique _ _ _ h _ := absurd h ProcessNode.zero_ne_used
  between _ := trivial

/-- A slot with the pid of a process is that process's. -/
theorem Inv.used_of_pid (h : Inv s) (hi : (s.list i).pid = p) : s.list i = .used p := by
  rcases h.node i with h0 | ⟨q, hq⟩
  · rw [h0] at hi
    exact absurd hi.symm p.ne_zero
  · rw [hq] at hi ⊢
    rw [PNat.eq hi]

theorem Inv.zero_of_free (h : Inv s) (hi : (s.list i).inuse = nodeItemFree) : s.list i = .zero := by
  rcases h.node i with h0 | ⟨q, hq⟩
  · exact h0
  · rw [hq] at hi
    exact absurd hi Nat.one_ne_zero

theorem Inv.oneSlot (h : Inv s) (hi : s.list i = .used p) : OneSlot s p :=
  ⟨i, hi, fun j hj => h.unique j i p (h.used_of_pid hj) hi⟩

/-- A process moves and leaves the list alone. -/
theorem Inv.to (h : Inv s) (hp : Between s.list p pr) : Inv (s.to p pr) where
  node := h.node
  unique := h.unique
  between q := by
    by_cases hq : q = p
    · subst hq
      simpa [State.to] using hp
    · simpa [State.to, hq] using h.between q

theorem Inv.request (h : Inv s) : Inv (s.to p (afterRequest (isExistList s.list p))) := by
  refine h.to ?_
  cases hl : isExistList s.list p with
  | some i => trivial
  | none => exact isExistList_none hl

theorem Inv.choose (h : Inv s) (hp : s.procs p = .absent) :
    Inv (s.to p (afterChoose (getFreeItem s.list))) := by
  have hb := h.between p
  rw [hp] at hb
  refine h.to ?_
  cases getFreeItem s.list with
  | some i => exact hb
  | none => trivial

theorem Inv.look (h : Inv s) (missing ret : Option ℤ) :
    Inv (s.to p (afterLook missing ret (isExistList s.list p))) := by
  refine h.to ?_
  cases hl : isExistList s.list p with
  | some i => exact h.used_of_pid (isExistList_some hl)
  | none => trivial

/-- A store into another slot, of a node that is not the process's, leaves the process where it is. -/
theorem Between.store (h : Between s.list q pr) {node : ProcessNode} (hnode : node.pid ≠ q)
    (hslot : s.list i ≠ .used q) : Between (Function.update s.list i node) q pr := by
  have hkeep : (∀ j, (s.list j).pid ≠ q) → ∀ j, (Function.update s.list i node j).pid ≠ q := by
    intro habsent j
    by_cases hj : j = i
    · rwa [hj, Function.update_self]
    · rw [Function.update_of_ne hj]
      exact habsent j
  cases pr with
  | user ret => trivial
  | absent => exact hkeep h
  | chosen k => exact hkeep h
  | found k ret =>
      have hk : k ≠ i := by
        intro hk
        subst hk
        exact hslot h
      exact (Function.update_of_ne hk ..).trans h

/-- A process ends its call with a store: an empty node or the only one of its own, into a slot
that is nobody else's. -/
theorem Inv.store (h : Inv s) {node : ProcessNode} (ret : Option ℤ)
    (hnode : node = .zero ∨ (node = .used p ∧ ∀ j, (s.list j).pid ≠ p))
    (hslot : ∀ q, q ≠ p → s.list i ≠ .used q) : Inv (s.store i node p ret) := by
  constructor
  · intro j
    by_cases hj : j = i
    · subst hj
      simpa [State.store] using hnode.imp_right fun hn => ⟨p, hn.1⟩
    · simpa [State.store, hj] using h.node j
  · intro j k q hj hk
    have hown : node = .used q → ∀ j', (s.list j').pid ≠ q := by
      intro hn
      rcases hnode with hz | ⟨hu, habsent⟩
      · exact absurd (hz.symm.trans hn) ProcessNode.zero_ne_used
      · rwa [← ProcessNode.used_injective (hu.symm.trans hn)]
    simp only [State.store, Function.update_apply] at hj hk
    split at hj <;> split at hk
    · rw [‹j = i›, ‹k = i›]
    · exact absurd (congrArg ProcessNode.pid hk) (hown hj k)
    · exact absurd (congrArg ProcessNode.pid hj) (hown hk j)
    · exact h.unique j k q hj hk
  · intro q
    by_cases hq : q = p
    · subst hq
      simp [State.store, Between]
    · have hne : node.pid ≠ q := by
        rcases hnode with rfl | ⟨rfl, -⟩
        · exact q.ne_zero.symm
        · exact fun he => hq (PNat.eq he).symm
      simpa [State.store, hq] using (h.between q).store hne (hslot q hq)

/-- A request fills a slot that nobody has filled since. -/
theorem Inv.fill (h : Inv s) (hp : s.procs p = .chosen i) (hfree : (s.list i).inuse = nodeItemFree) :
    Inv (s.store i (.used p) p (some 0)) := by
  have habsent := h.between p
  rw [hp] at habsent
  refine h.store (some 0) (.inr ⟨rfl, habsent⟩) fun q _ hi => ?_
  rw [h.zero_of_free hfree] at hi
  exact ProcessNode.zero_ne_used hi

/-- A call clears the slot it has found, which is still its own. -/
theorem Inv.clear (h : Inv s) {ret : Option ℤ} (hp : s.procs p = .found i ret) :
    Inv (s.store i .zero p ret) := by
  have hown := h.between p
  rw [hp] at hown
  refine h.store ret (.inl rfl) fun q hq hi => hq ?_
  exact ProcessNode.used_injective (hi.symm.trans hown)

/-- **Every section keeps the invariant** when it fills a free slot. -/
theorem Inv.step (h : Inv s) {a : Act} (hok : FillsFree s a) (hs : step s a = some s') : Inv s' := by
  obtain ⟨p, ret, rfl, hp, rfl⟩ | ⟨p, rfl, hp, rfl⟩ | ⟨p, i, rfl, hp, rfl⟩ |
    ⟨p, ret, missing, ok, -, hp, rfl⟩ | ⟨p, i, ret, rfl, hp, rfl⟩ := step_cases hs
  · exact h.request
  · exact h.choose hp
  · exact h.fill hp (hok i hp)
  · exact h.look missing ok
  · exact h.clear hp

theorem Inv.run {as : List Act} (h : Inv s) (hok : Meets ProcessProtect.step FillsFree s as)
    (hrun : Run.run ProcessProtect.step s as = some s') : Inv s' :=
  run_invariant (fun _ _ _ h hok hs => h.step hok hs) h hok hrun

end Preservation

/-! ### Who keeps a slot -/

/-- A process that has a slot and is not about to clear it. -/
def Holds (s : State) (p : ℕ+) : Prop :=
  (∃ i, s.list i = .used p) ∧ ∀ i ret, s.procs p ≠ .found i ret

/-- The actions with which a process gives its slot up. -/
def GivesUp (p : ℕ+) (a : Act) : Prop := a = .unprotect p ∨ a = .exit p

section Holding

variable {s s' : State} {p q : ℕ+} {i : Fin processMaxNum}

theorem holds_fill (hs : step s (.fill p) = some s') : Holds s' p := by
  obtain ⟨_, _, h, -⟩ | ⟨_, h, -⟩ | ⟨q, i, h, -, rfl⟩ | ⟨_, _, _, _, h | h, -⟩ |
    ⟨_, _, _, h, -⟩ := step_cases hs
  case inr.inr.inl =>
    cases h
    exact ⟨⟨i, Function.update_self ..⟩, by simp [State.store]⟩
  all_goals cases h

/-- A process keeps its slot when a process moves that is another or has not found it. -/
theorem Holds.to (h : Holds s p) {pr : Proc} (hpr : q = p → ∀ i ret, pr ≠ .found i ret) :
    Holds (s.to q pr) p := by
  refine ⟨h.1, fun i ret => ?_⟩
  by_cases hq : p = q
  · subst hq
    simpa [State.to] using hpr rfl i ret
  · simpa [State.to, hq] using h.2 i ret

/-- A process keeps its slot when another slot is written. -/
theorem Holds.store (h : Holds s p) {node : ProcessNode} {ret : Option ℤ} (hi : s.list i ≠ .used p) :
    Holds (s.store i node q ret) p := by
  obtain ⟨⟨j, hj⟩, hproc⟩ := h
  constructor
  · have hne : j ≠ i := by
      intro he
      subst he
      exact hi hj
    exact ⟨j, (Function.update_of_ne hne ..).trans hj⟩
  · intro k ret'
    by_cases hq : p = q
    · subst hq
      simp [State.store]
    · simpa [State.store, hq] using hproc k ret'

/-- **A process keeps its slot** in every section with which it does not give it up. -/
theorem Holds.step (h : Holds s p) (hinv : Inv s) {a : Act} (ha : ¬ GivesUp p a) (hok : FillsFree s a)
    (hs : step s a = some s') : Holds s' p := by
  obtain ⟨q, ret, rfl, -, rfl⟩ | ⟨q, rfl, -, rfl⟩ | ⟨q, i, rfl, hq, rfl⟩ |
    ⟨q, ret, missing, ok, hgive, -, rfl⟩ | ⟨q, i, ret, rfl, hq, rfl⟩ := step_cases hs
  · refine h.to fun _ i ret => ?_
    cases isExistList s.list q <;> simp [afterRequest]
  · refine h.to fun _ i ret => ?_
    cases getFreeItem s.list <;> simp [afterChoose]
  · refine h.store ?_
    rw [hinv.zero_of_free (hok i hq)]
    exact ProcessNode.zero_ne_used
  · refine h.to fun he => absurd ?_ ha
    rwa [he] at hgive
  · refine h.store fun hi => ?_
    have hown := hinv.between q
    rw [hq] at hown
    rw [ProcessNode.used_injective (hi.symm.trans hown)] at h
    exact h.2 i ret hq

theorem Holds.run {as : List Act} (h : Holds s p) (hinv : Inv s) (has : ∀ a ∈ as, ¬ GivesUp p a)
    (hok : Meets ProcessProtect.step FillsFree s as) (hrun : Run.run ProcessProtect.step s as = some s') :
    Holds s' p := by
  induction as generalizing s with
  | nil =>
      obtain rfl := Option.some.inj hrun
      exact h
  | cons a as ih =>
      obtain ⟨ha, hrest⟩ := hok
      rw [run_cons] at hrun
      obtain ⟨s₁, h₁, h₂⟩ := Option.bind_eq_some_iff.mp hrun
      have hkeep := h.step hinv (has a List.mem_cons_self) ha h₁
      exact ih hkeep (hinv.step ha h₁) (fun b hb => has b (List.mem_cons_of_mem _ hb)) (hrest s₁ h₁) h₂

theorem Inv.oneSlot_of_holds (hinv : Inv s) (h : Holds s p) : OneSlot s p := by
  obtain ⟨⟨i, hi⟩, -⟩ := h
  exact hinv.oneSlot hi

/-- What the order of sections is for: a request that fills the slot of another process takes it
from that process. -/
theorem Inv.lost_of_fill_taken (h : Inv s) (hp : s.procs p = .chosen i) (hi : s.list i = .used q)
    (hs : ProcessProtect.step s (.fill p) = some s') : ¬ OneSlot s' q := by
  have habsent := h.between p
  rw [hp] at habsent
  obtain rfl : s.store i (.used p) p (some 0) = s' := by simpa [ProcessProtect.step, hp] using hs
  rintro ⟨j, hj, -⟩
  by_cases hji : j = i
  · subst hji
    obtain rfl := ProcessNode.used_injective ((Function.update_self ..).symm.trans hj)
    exact habsent j (congrArg ProcessNode.pid hi)
  · have hj' : s.list j = .used q := (Function.update_of_ne hji ..).symm.trans hj
    exact hji (h.unique j i q hj' hi)

theorem card_occupied_le (s : State) : (occupied s).card ≤ processMaxNum :=
  (Finset.card_le_univ _).trans_eq (Fintype.card_fin _)

/-- **Protection is not lost:** where every slot is still free when it is filled, a process whose
request has returned `0` has one slot of the list until it unprotects or exits. -/
theorem protected_until_unprotect {before after : List Act}
    (hok : Meets step FillsFree State.init (before ++ .fill p :: after))
    (hrun : run step State.init (before ++ .fill p :: after) = some s)
    (hkeep : ∀ a ∈ after, ¬ GivesUp p a) : OneSlot s p ∧ (occupied s).card ≤ processMaxNum := by
  obtain ⟨hbefore, hrest⟩ := meets_append hok
  rw [run_append] at hrun
  obtain ⟨s₁, h₁, h₂⟩ := Option.bind_eq_some_iff.mp hrun
  rw [run_cons] at h₂
  obtain ⟨s₂, hfill, hafter⟩ := Option.bind_eq_some_iff.mp h₂
  obtain ⟨hfree, hmeets⟩ := hrest s₁ h₁
  have hinv₁ : Inv s₁ := inv_init.run hbefore h₁
  have hinv₂ : Inv s₂ := hinv₁.step hfree hfill
  have hinv : Inv s := hinv₂.run (hmeets s₂ hfill) hafter
  have hholds := (holds_fill hfill).run hinv₂ hkeep (hmeets s₂ hfill) hafter
  exact ⟨hinv.oneSlot_of_holds hholds, card_occupied_le s⟩

end Holding

/-- Two requests, one after the other. -/
theorem protected_until_unprotect_two : ∃ s,
    run step State.init ([.request 1, .choose 1] ++ .fill 1 :: [.request 2, .choose 2, .fill 2]) = some s ∧
      OneSlot s 1 ∧ (occupied s).card ≤ processMaxNum := by
  refine ⟨_, rfl, @protected_until_unprotect _ 1 [.request 1, .choose 1]
    [.request 2, .choose 2, .fill 2] ?_ rfl ?_⟩
  · refine meets_cons_of_step trivial rfl (meets_cons_of_step trivial rfl
      (meets_cons_of_step ?_ rfl (meets_cons_of_step trivial rfl (meets_cons_of_step trivial rfl
        (meets_cons_of_step ?_ rfl trivial)))))
    · rintro _ ⟨⟩
      rfl
    · rintro _ ⟨⟩
      rfl
  · simp [GivesUp]

/-- Two requests choose before either fills: both return `0` and the first has no slot. -/
theorem protect_request_lost : ∃ before after s,
    run step State.init (before ++ .fill 1 :: after) = some s ∧ (∀ a ∈ after, ¬ GivesUp 1 a) ∧
      s.procs 1 = .user (some 0) ∧ s.procs 2 = .user (some 0) ∧ ¬ OneSlot s 1 := by
  refine ⟨[.request 1, .request 2, .choose 1, .choose 2], [.fill 2], _, rfl, by simp [GivesUp], rfl, rfl, ?_⟩
  rintro ⟨i, hi, -⟩
  revert i
  decide

end ProcessProtect
end TsbAgent
