/-
# Free lists in an array

A pool of `n` units with one number per unit: for a free unit the number of the next free
one, for a unit in use the mark `-2`.  The list starts at `head` and ends with `-1`.
`alloc` takes the first unit, `free` puts a unit back in front; neither looks at `n`.

`InOrder n p l` says that the pool is in order and that `l` is its list: no unit occurs
twice in it, and exactly the units that are not in use occur.  Both operations keep it
(`InOrder.alloc`, `InOrder.free`).
-/

import Mathlib.Algebra.Order.Ring.Int
import Mathlib.Data.List.Nodup
import Mathlib.Tactic.Common

namespace TsbAgent
namespace FreeList

/-- The end of the list. -/
def listEnd : ℤ := -1

/-- The mark of a unit in use. -/
def inUseMark : ℤ := -2

/-- The head of the list and the number of each unit. -/
structure Pool where
  head : ℤ
  next : ℕ → ℤ

namespace Pool

/-- The unit is in use. -/
def InUse (p : Pool) (i : ℕ) : Prop := p.next i = inUseMark

instance (p : Pool) (i : ℕ) : Decidable (p.InUse i) := inferInstanceAs (Decidable (_ = _))

/-- All `n` units are free, the last one first. -/
def full (n : ℕ) : Pool := ⟨n - 1, fun i => i - 1⟩

/-- Take the first unit. -/
def alloc (p : Pool) : Option (ℕ × Pool) :=
  if p.head = listEnd then none
  else some (p.head.toNat, ⟨p.next p.head.toNat, Function.update p.next p.head.toNat inUseMark⟩)

/-- Put a unit back, unless it is not in use. -/
def free (p : Pool) (i : ℕ) : Option Pool :=
  if p.InUse i then some ⟨i, Function.update p.next i p.head⟩ else none

end Pool

/-- The list that starts at `h`. -/
def Linked (next : ℕ → ℤ) : ℤ → List ℕ → Prop
  | h, [] => h = listEnd
  | h, i :: l => h = i ∧ Linked next (next i) l

/-- **A pool in order:** `l` is its free list, without repetition, and holds exactly the
units that are not in use. -/
structure InOrder (n : ℕ) (p : Pool) (l : List ℕ) : Prop where
  linked : Linked p.next p.head l
  nodup : l.Nodup
  lt : ∀ i ∈ l, i < n
  mem_iff : ∀ i < n, i ∈ l ↔ ¬ p.InUse i

variable {n : ℕ} {p p' : Pool} {l : List ℕ} {i : ℕ}

/-- An entry that is not on the list does not matter to it. -/
theorem linked_update {next : ℕ → ℤ} {h v : ℤ} (hi : i ∉ l) :
    Linked (Function.update next i v) h l ↔ Linked next h l := by
  induction l generalizing h with
  | nil => rfl
  | cons j l ih =>
      rw [List.mem_cons, not_or] at hi
      rw [Linked, Linked, Function.update_of_ne (Ne.symm hi.1), ih hi.2]

theorem linked_head_eq_end {next : ℕ → ℤ} {h : ℤ} (hl : Linked next h l) :
    h = listEnd ↔ l = [] := by
  cases l with
  | nil => exact iff_of_true hl rfl
  | cons j l =>
      refine iff_of_false ?_ (List.cons_ne_nil _ _)
      rw [hl.1, listEnd]
      omega

theorem linked_range (next : ℕ → ℤ) (hnext : ∀ i < n, next i = i - 1) :
    Linked next (n - 1) (List.range n).reverse := by
  induction n with
  | zero => rfl
  | succ n ih =>
      rw [List.range_succ, List.reverse_append]
      refine ⟨by omega, ?_⟩
      rw [hnext n (Nat.lt_succ_self n)]
      exact ih fun i hi => hnext i (Nat.lt_succ_of_lt hi)

/-- The pool at the start. -/
theorem inOrder_full (n : ℕ) : InOrder n (Pool.full n) (List.range n).reverse where
  linked := linked_range _ fun _ _ => rfl
  nodup := List.nodup_reverse.mpr List.nodup_range
  lt := fun i hi => List.mem_range.mp (List.mem_reverse.mp hi)
  mem_iff := fun i hi => by
    have hne : ¬ (Pool.full n).InUse i := by
      simp only [Pool.InUse, Pool.full, inUseMark]
      omega
    exact iff_of_true (List.mem_reverse.mpr (List.mem_range.mpr hi)) hne

/-- Nothing is given out exactly when every unit is in use. -/
theorem InOrder.alloc_eq_none (h : InOrder n p l) : p.alloc = none ↔ ∀ i < n, p.InUse i := by
  have hend : p.alloc = none ↔ l = [] := by
    rw [← linked_head_eq_end h.linked, Pool.alloc]
    split_ifs with he <;> simp [he]
  rw [hend]
  constructor
  · rintro rfl i hi
    exact not_not.mp fun hn => List.not_mem_nil ((h.mem_iff i hi).mpr hn)
  · intro hall
    cases l with
    | nil => rfl
    | cons j l =>
        have hj := h.lt j List.mem_cons_self
        exact absurd (hall j hj) ((h.mem_iff j hj).mp List.mem_cons_self)

/-- **What `alloc` does:** the unit was free, it is the only one that changes, and the rest
of the list stays. -/
theorem InOrder.alloc (h : InOrder n p l) (ha : p.alloc = some (i, p')) :
    i < n ∧ ¬ p.InUse i ∧ (∀ j, p'.InUse j ↔ j = i ∨ p.InUse j) ∧ ∃ l', InOrder n p' l' := by
  cases l with
  | nil =>
      have hend : p.head = listEnd := h.linked
      rw [Pool.alloc, if_pos hend] at ha
      exact absurd ha (Option.some_ne_none _).symm
  | cons k l =>
      have hhead : p.head = k := h.linked.1
      have hk : k < n := h.lt k List.mem_cons_self
      have hfree : ¬ p.InUse k := (h.mem_iff k hk).mp List.mem_cons_self
      have hnd : k ∉ l ∧ l.Nodup := List.nodup_cons.mp h.nodup
      have hne : (k : ℤ) ≠ listEnd := by rw [listEnd]; omega
      rw [Pool.alloc, hhead, if_neg hne, Int.toNat_natCast, Option.some.injEq, Prod.mk.injEq] at ha
      obtain ⟨rfl, rfl⟩ := ha
      have huse : ∀ j, Pool.InUse ⟨p.next k, Function.update p.next k inUseMark⟩ j ↔
          j = k ∨ p.InUse j := by
        intro j
        by_cases hj : j = k
        · subst hj
          simp [Pool.InUse]
        · simp [Pool.InUse, hj]
      refine ⟨hk, hfree, huse, l, ?_, hnd.2, fun j hj => h.lt j (List.mem_cons_of_mem _ hj), ?_⟩
      · exact (linked_update hnd.1).mpr h.linked.2
      · intro j hj
        rw [huse, not_or, ← h.mem_iff j hj, List.mem_cons]
        constructor
        · exact fun hm => ⟨fun he => hnd.1 (he ▸ hm), .inr hm⟩
        · exact fun hm => hm.2.resolve_left hm.1

theorem free_eq_none : p.free i = none ↔ ¬ p.InUse i := by
  rw [Pool.free]
  split_ifs with h <;> simp [h]

/-- **What `free` does:** the unit was in use, and it is the only one that changes. -/
theorem InOrder.free (h : InOrder n p l) (hi : i < n) (hf : p.free i = some p') :
    p.InUse i ∧ (∀ j, p'.InUse j ↔ j ≠ i ∧ p.InUse j) ∧ InOrder n p' (i :: l) := by
  rw [Pool.free] at hf
  split_ifs at hf with huse
  obtain rfl := Option.some.inj hf
  have hnot : i ∉ l := fun hm => (h.mem_iff i hi).mp hm huse
  have hhead : p.head ≠ inUseMark := by
    cases l with
    | nil => rw [h.linked, listEnd, inUseMark]; decide
    | cons k l => rw [h.linked.1, inUseMark]; omega
  have hin : ∀ j, Pool.InUse ⟨(i : ℤ), Function.update p.next i p.head⟩ j ↔ j ≠ i ∧ p.InUse j := by
    intro j
    by_cases hj : j = i
    · subst hj
      simp [Pool.InUse, hhead]
    · simp [Pool.InUse, hj]
  refine ⟨huse, hin, ⟨rfl, ?_⟩, List.nodup_cons.mpr ⟨hnot, h.nodup⟩, ?_, ?_⟩
  · change Linked _ (Function.update p.next i p.head i) l
    rw [Function.update_self, linked_update hnot]
    exact h.linked
  · exact List.forall_mem_cons.mpr ⟨hi, h.lt⟩
  · intro j hj
    rw [hin, List.mem_cons, h.mem_iff j hj]
    tauto

end FreeList
end TsbAgent
