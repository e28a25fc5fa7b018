/-
# Walks in a binary search tree

`search` and `link` walk down a binary tree by the sign of a comparison, the way
a client of the kernel's red-black tree does it: the tree code itself only
rebalances (`rb_insert_color`) and unlinks (`rb_erase`).  `RbTree` takes these
two as given, with what their documentation promises: rebalancing changes no
in-order sequence, erasing removes one element from it.

Nothing here asks the comparison to be an order.  A search returns an element of
the tree that the comparison accepts (`search_eq_some`), and a tree of one
element is searched exactly (`search_of_inorder_singleton`).
-/

import Mathlib.Data.Tree.Basic
import Mathlib.Data.List.Basic
import Mathlib.Data.Int.Notation
import Mathlib.Tactic.Common

namespace TsbAgent
namespace SearchTree

variable {α : Type*}

/-- The in-order sequence of a tree. -/
def inorder : BinaryTree α → List α
  | .nil => []
  | .node x l r => inorder l ++ x :: inorder r

/-- The descent of a search; `cmp x` is the sign of the wanted key against `x`. -/
def search (cmp : α → ℤ) : BinaryTree α → Option α
  | .nil => none
  | .node x l r => if cmp x = 0 then some x else if cmp x < 0 then search cmp l else search cmp r

/-- The descent of an insertion, ending in `rb_link_node`. -/
def link (cmp : α → ℤ) (y : α) : BinaryTree α → BinaryTree α
  | .nil => .node y .nil .nil
  | .node x l r => if cmp x < 0 then .node x (link cmp y l) r else .node x l (link cmp y r)

/-- The red-black tree operations a client does not write itself. -/
structure RbTree (α : Type*) [DecidableEq α] where
  insertColor : BinaryTree α → BinaryTree α
  inorder_insertColor : ∀ t, inorder (insertColor t) = inorder t
  erase : BinaryTree α → α → BinaryTree α
  inorder_erase : ∀ t x, x ∈ inorder t → inorder (erase t x) = (inorder t).erase x

/-- Rebalancing left out and erasing by rebuilding: the promises can be kept. -/
def RbTree.naive (α : Type*) [DecidableEq α] : RbTree α where
  insertColor := id
  inorder_insertColor := fun _ => rfl
  erase := fun t x => ((inorder t).erase x).foldr (fun y t => .node y .nil t) .nil
  inorder_erase := fun t x _ => by
    generalize (inorder t).erase x = l
    induction l with
    | nil => rfl
    | cons y l ih => simp [inorder, ih]

theorem RbTree.inorder_erase_sublist [DecidableEq α] (rb : RbTree α) {t : BinaryTree α} {x : α}
    (hx : x ∈ inorder t) : (inorder (rb.erase t x)).Sublist (inorder t) := by
  rw [rb.inorder_erase t x hx]
  exact List.erase_sublist

theorem RbTree.mem_of_mem_erase [DecidableEq α] (rb : RbTree α) {t : BinaryTree α} {x y : α}
    (hx : x ∈ inorder t) (hy : y ∈ inorder (rb.erase t x)) : y ∈ inorder t :=
  (rb.inorder_erase_sublist hx).subset hy

theorem RbTree.notMem_erase [DecidableEq α] (rb : RbTree α) {t : BinaryTree α} {x : α}
    (hx : x ∈ inorder t) (hnd : (inorder t).Nodup) : x ∉ inorder (rb.erase t x) := by
  rw [rb.inorder_erase t x hx]
  exact hnd.not_mem_erase

theorem RbTree.mem_erase_of_ne [DecidableEq α] (rb : RbTree α) {t : BinaryTree α} {x y : α}
    (hx : x ∈ inorder t) (hne : y ≠ x) (hy : y ∈ inorder t) : y ∈ inorder (rb.erase t x) := by
  rw [rb.inorder_erase t x hx]
  exact (List.mem_erase_of_ne hne).mpr hy

theorem search_eq_some {cmp : α → ℤ} {t : BinaryTree α} {x : α} (h : search cmp t = some x) :
    x ∈ inorder t ∧ cmp x = 0 := by
  induction t with
  | nil => simp [search] at h
  | node y l r ihl ihr =>
      rw [search] at h
      split_ifs at h with h₀ h₁
      · obtain rfl := Option.some.inj h
        exact ⟨by simp [inorder], h₀⟩
      · obtain ⟨hm, hc⟩ := ihl h
        exact ⟨by simp [inorder, hm], hc⟩
      · obtain ⟨hm, hc⟩ := ihr h
        exact ⟨by simp [inorder, hm], hc⟩

/-- Inserting adds the one element. -/
theorem inorder_link_perm (cmp : α → ℤ) (y : α) (t : BinaryTree α) :
    (inorder (link cmp y t)).Perm (y :: inorder t) := by
  induction t with
  | nil => exact List.Perm.refl _
  | node z l r ihl ihr =>
      rw [link]
      split_ifs
      · exact ihl.append_right _
      · exact ((ihr.cons z).append_left (inorder l)).trans
          (((List.Perm.swap y z _).append_left _).trans List.perm_middle)

theorem search_of_inorder_singleton {cmp : α → ℤ} {t : BinaryTree α} {x : α}
    (ht : inorder t = [x]) (hc : cmp x = 0) : search cmp t = some x := by
  cases t with
  | nil => simp [inorder] at ht
  | node y l r =>
      have hyx : y = x := by
        have hy : y ∈ inorder (.node y l r) := by simp [inorder]
        rw [ht] at hy
        exact List.mem_singleton.mp hy
      rw [search, hyx, if_pos hc]

end SearchTree
end TsbAgent
