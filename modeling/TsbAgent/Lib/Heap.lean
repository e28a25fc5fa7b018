/-
# Objects that are allocated and freed

A heap is the list of all objects ever allocated; the place in the list is the address, and a freed
object leaves `none` behind.  No address is used twice, so a `read` that finds `none` is a use after
the free and nothing else.  `freed` is the list of all calls of `kfree`; a heap is `Sound` when they are the
objects that are gone, each freed once.

`count P` is the number of objects on the heap with `P`; `count_alloc` and `count_kfree` say what the
operations do to it.  `search` is a walk along a list of addresses that reads every object it passes.
-/

import Mathlib.Data.List.Count
import Mathlib.Data.List.Nodup
import Mathlib.Tactic.Common

namespace TsbAgent

/-- The objects, in the order of their allocation, and what was freed. -/
structure Heap (α : Type*) where
  cells : List (Option α)
  freed : List ℕ

namespace Heap

variable {α : Type*}

/-- Nothing is allocated yet. -/
def empty : Heap α := ⟨[], []⟩

/-- The address of the next object. -/
def next (h : Heap α) : ℕ := h.cells.length

/-- The object at an address, `none` when it is freed or was never there. -/
def read (h : Heap α) (i : ℕ) : Option α := (h.cells[i]?).join

/-- A new object, at the address `next`. -/
def alloc (h : Heap α) (a : α) : Heap α := ⟨h.cells ++ [some a], h.freed⟩

/-- Overwrite an object. -/
def store (h : Heap α) (i : ℕ) (a : α) : Heap α := ⟨h.cells.set i (some a), h.freed⟩

def kfree (h : Heap α) (i : ℕ) : Heap α := ⟨h.cells.set i none, i :: h.freed⟩

/-- The number of objects with `P`. -/
def count (P : α → Bool) (h : Heap α) : ℕ := h.cells.countP fun c => c.any P

section Read

variable {h : Heap α} {i j : ℕ} {a b : α}

theorem read_eq_some_iff : h.read i = some a ↔ h.cells[i]? = some (some a) := by
  unfold read
  rw [Option.join_eq_some_iff]

theorem lt_of_read (hi : h.read i = some a) : i < h.next :=
  (List.getElem?_eq_some_iff.mp (read_eq_some_iff.mp hi)).1

@[simp] theorem read_empty : (empty : Heap α).read i = none := rfl

@[simp] theorem read_alloc_self : (h.alloc a).read h.next = some a := by
  rw [read_eq_some_iff]
  simp [alloc, next]

theorem read_alloc_of_ne (hi : i ≠ h.next) : (h.alloc a).read i = h.read i := by
  unfold read alloc
  unfold next at hi
  dsimp only
  rcases Nat.lt_or_gt_of_ne hi with hlt | hgt
  · rw [List.getElem?_append_left hlt]
  · have h1 : (h.cells ++ [some a]).length ≤ i := by
      rw [List.length_append, List.length_singleton]
      omega
    rw [List.getElem?_eq_none h1, List.getElem?_eq_none (by omega)]

/-- An object that was there is still there after an allocation. -/
theorem read_alloc (hi : h.read i = some b) : (h.alloc a).read i = some b := by
  rw [read_alloc_of_ne (Nat.ne_of_lt (lt_of_read hi))]
  exact hi

theorem read_store_self (hi : h.read i = some b) : (h.store i a).read i = some a := by
  have hlt := lt_of_read hi
  unfold next at hlt
  rw [read_eq_some_iff]
  simp [store, hlt]

theorem read_store_of_ne (hij : i ≠ j) : (h.store i a).read j = h.read j := by
  unfold read store
  rw [List.getElem?_set_ne hij]

/-- Overwriting frees nothing and allocates nothing. -/
theorem exists_read_store (hi : h.read i = some b) :
    (∃ c, (h.store i a).read j = some c) ↔ ∃ c, h.read j = some c := by
  by_cases hij : i = j
  · subst hij
    exact iff_of_true ⟨a, read_store_self hi⟩ ⟨b, hi⟩
  · rw [read_store_of_ne hij]

theorem read_kfree_self : (h.kfree i).read i = none := by
  unfold read kfree
  rw [List.getElem?_set_self']
  cases h.cells[i]? <;> rfl

theorem read_kfree_of_ne (hij : i ≠ j) : (h.kfree i).read j = h.read j := by
  unfold read kfree
  rw [List.getElem?_set_ne hij]

theorem ne_of_read_kfree (hj : (h.kfree i).read j = some a) : i ≠ j := by
  rintro rfl
  rw [read_kfree_self] at hj
  exact absurd hj (by simp)

/-- What is left after a free was there before. -/
theorem read_of_kfree (hj : (h.kfree i).read j = some a) : h.read j = some a := by
  rwa [read_kfree_of_ne (ne_of_read_kfree hj)] at hj

@[simp] theorem next_alloc : (h.alloc a).next = h.next + 1 := by
  simp [alloc, next]

@[simp] theorem next_store : (h.store i a).next = h.next := by
  simp [store, next]

@[simp] theorem next_kfree : (h.kfree i).next = h.next := by
  simp [kfree, next]

end Read

section Sound

variable {h : Heap α} {i : ℕ} {a b : α}

/-- What is gone was freed, once. -/
structure Sound (h : Heap α) : Prop where
  nodup : h.freed.Nodup
  mem_freed : ∀ i, i ∈ h.freed ↔ i < h.next ∧ h.read i = none

theorem sound_empty : (empty : Heap α).Sound :=
  ⟨List.nodup_nil, fun i => by simp [empty, next]⟩

theorem Sound.alloc (hs : h.Sound) : (h.alloc a).Sound := by
  refine ⟨hs.nodup, fun i => ?_⟩
  show i ∈ h.freed ↔ _
  rw [hs.mem_freed, next_alloc]
  by_cases hi : i = h.next
  · subst hi
    simp
  · rw [read_alloc_of_ne hi]
    have hlt : i < h.next ↔ i < h.next + 1 := by omega
    rw [hlt]

theorem Sound.store (hs : h.Sound) (hi : h.read i = some b) : (h.store i a).Sound := by
  refine ⟨hs.nodup, fun j => ?_⟩
  show j ∈ h.freed ↔ _
  have hnone : (h.store i a).read j = none ↔ h.read j = none := by
    have halive := exists_read_store (a := a) (j := j) hi
    rw [← Option.isSome_iff_exists, ← Option.isSome_iff_exists] at halive
    rw [← Option.not_isSome_iff_eq_none, ← Option.not_isSome_iff_eq_none, halive]
  rw [hs.mem_freed, next_store, hnone]

theorem Sound.kfree (hs : h.Sound) (hi : h.read i = some b) : (h.kfree i).Sound := by
  have hnot : i ∉ h.freed := by
    intro hmem
    rw [((hs.mem_freed i).mp hmem).2] at hi
    exact absurd hi (by simp)
  refine ⟨List.nodup_cons.mpr ⟨hnot, hs.nodup⟩, fun j => ?_⟩
  show j ∈ i :: h.freed ↔ _
  rw [List.mem_cons, hs.mem_freed, next_kfree]
  by_cases hij : i = j
  · subst hij
    exact iff_of_true (.inl rfl) ⟨lt_of_read hi, read_kfree_self⟩
  · rw [read_kfree_of_ne hij, or_iff_right (Ne.symm hij)]

/-- What is gone was freed exactly once. -/
theorem Sound.count_freed (hs : h.Sound) (hlt : i < h.next) (hi : h.read i = none) : h.freed.count i = 1 :=
  List.count_eq_one_of_mem hs.nodup ((hs.mem_freed i).mpr ⟨hlt, hi⟩)

end Sound

section Count

variable {P : α → Bool} {h : Heap α} {i : ℕ} {a b : α}

theorem count_alloc : count P (h.alloc a) = count P h + if P a then 1 else 0 := by
  unfold count alloc
  dsimp only
  rw [List.countP_append, List.countP_singleton]
  rfl

theorem count_pos (hi : h.read i = some a) (hP : P a = true) : 0 < count P h := by
  unfold count
  rw [List.countP_pos_iff]
  obtain ⟨hlt, hget⟩ := List.getElem?_eq_some_iff.mp (read_eq_some_iff.mp hi)
  exact ⟨some a, hget ▸ List.getElem_mem hlt, hP⟩

theorem count_kfree (hi : h.read i = some b) : count P (h.kfree i) + (if P b then 1 else 0) = count P h := by
  obtain ⟨hlt, hget⟩ := List.getElem?_eq_some_iff.mp (read_eq_some_iff.mp hi)
  have hmem : P b = true → 0 < h.cells.countP fun c => c.any P := fun hP => count_pos hi hP
  unfold count kfree
  dsimp only
  rw [List.countP_set hlt, hget]
  cases hb : P b with
  | false => simp [hb]
  | true =>
      have hpos := hmem hb
      simp only [Option.any_some, Option.any_none, hb, if_true, Bool.false_eq_true, if_false]
      omega

/-- Where no object has `P`. -/
theorem count_eq_zero (hall : ∀ i a, h.read i = some a → P a = false) : count P h = 0 := by
  unfold count
  rw [List.countP_eq_zero]
  intro c hc
  obtain ⟨i, hi⟩ := List.mem_iff_getElem?.mp hc
  cases c with
  | none => simp
  | some a => simp [hall i a (read_eq_some_iff.mpr hi)]

theorem cells_eq : h.cells = (List.range h.next).map h.read := by
  refine List.ext_getElem (by simp [next]) fun i hi _ => ?_
  simp [read, List.getElem?_eq_getElem hi]

/-- The count along a list of all objects. -/
theorem count_eq_length_filter {l : List ℕ} (hl : l.Nodup) (hmem : ∀ i, i ∈ l ↔ ∃ a, h.read i = some a) :
    count P h = (l.filter fun i => (h.read i).any P).length := by
  have hperm :
      ((List.range h.next).filter fun i => (h.read i).any P).Perm (l.filter fun i => (h.read i).any P) := by
    rw [List.perm_ext_iff_of_nodup (List.nodup_range.filter _) (hl.filter _)]
    intro i
    rw [List.mem_filter, List.mem_filter, hmem, List.mem_range]
    refine and_congr_left fun hP => ?_
    cases ha : h.read i with
    | none =>
        rw [ha] at hP
        exact absurd hP (by simp)
    | some a => exact iff_of_true (lt_of_read ha) ⟨a, rfl⟩
  rw [← hperm.length_eq, ← List.countP_eq_length_filter, count, cells_eq, List.countP_map]
  rfl

end Count

/-! ### Walks -/

section Search

variable {φ : Type*} {test : ℕ → Except φ Bool} {P : ℕ → Bool} {l : List ℕ}

/-- The first address that passes the test. -/
def search (test : ℕ → Except φ Bool) : List ℕ → Except φ (Option ℕ)
  | [] => .ok none
  | i :: l => do if ← test i then .ok (some i) else search test l

/-- Where no test fails, a walk finds what it looks for. -/
theorem search_eq (h : ∀ i ∈ l, test i = .ok (P i)) : search test l = .ok (l.find? P) := by
  induction l with
  | nil => rfl
  | cons i l ih =>
      obtain ⟨hi, hl⟩ := List.forall_mem_cons.mp h
      rw [search, hi, List.find?_cons]
      cases P i with
      | true => rfl
      | false => exact ih hl

/-- What a walk finds is on the list, and passes the test. -/
theorem mem_of_search {i : ℕ} (h : search test l = .ok (some i)) : i ∈ l ∧ test i = .ok true := by
  induction l with
  | nil => cases h
  | cons j l ih =>
      rw [search] at h
      cases htest : test j with
      | error f =>
          rw [htest] at h
          cases h
      | ok b =>
          rw [htest] at h
          cases b with
          | true =>
              obtain rfl : j = i := by cases h; rfl
              exact ⟨List.mem_cons_self, htest⟩
          | false =>
              obtain ⟨hmem, hi⟩ := ih h
              exact ⟨List.mem_cons_of_mem _ hmem, hi⟩

end Search

end Heap
end TsbAgent
