/-
# A memory with addresses on both sides

Code that adds an `int` to a pointer may copy to a place before the buffer.  A `Memory` therefore has the integers
as addresses; `bytes` reads it and `store` copies to it.

`Laid ws p pieces` says that the copies `ws` contain the `pieces`, one after the other from `p` on.  When no two
copies have a byte in common, the pieces are what is read there (`bytes_stores_laid`), in whatever order the copies
are made and whatever the memory held before.

`cells` reads a memory as elements of one size: a copy to the place of an element changes this element
(`cells_store`), or adds one at the end (`cells_store_succ`).
-/

import TsbAgent.Lib.Libc
import Mathlib.Data.List.GetD
import Mathlib.Algebra.Order.Ring.Nat
import Mathlib.Algebra.Order.Ring.Int

namespace TsbAgent

open Libc

/-- The bytes at all addresses. -/
abbrev Memory := ℤ → UInt8

namespace Memory

/-- `n` bytes from `p` on. -/
def bytes (m : Memory) (p : ℤ) (n : ℕ) : Bytes := (List.range n).map fun (i : ℕ) => m (p + i)

/-- The memory after `b` has been copied to `p`. -/
def store (m : Memory) (p : ℤ) (b : Bytes) : Memory :=
  fun q => if p ≤ q ∧ q < p + b.length then b.getD (q - p).toNat 0 else m q

/-- The memory after some copies, the first one first. -/
def stores (m : Memory) (ws : List (ℤ × Bytes)) : Memory := ws.foldl (fun m w => m.store w.1 w.2) m

/-- The copy has no byte in common with `n` bytes from `p`. -/
def Apart (p : ℤ) (n : ℕ) (w : ℤ × Bytes) : Prop := p + n ≤ w.1 ∨ w.1 + w.2.length ≤ p

/-- No two copies have a byte in common. -/
def Separate (ws : List (ℤ × Bytes)) : Prop := ws.Pairwise fun w v => Apart w.1 w.2.length v

/-- The pieces are among the copies, one after the other from `p` on. -/
def Laid (ws : List (ℤ × Bytes)) : ℤ → List Bytes → Prop
  | _, [] => True
  | p, b :: bs => (p, b) ∈ ws ∧ Laid ws (p + b.length) bs

variable {m : Memory} {p q : ℤ} {n k : ℕ} {b : Bytes} {bs : List Bytes} {ws : List (ℤ × Bytes)}

@[simp] theorem length_bytes (m : Memory) (p : ℤ) (n : ℕ) : (m.bytes p n).length = n := by
  rw [bytes, List.length_map, List.length_range]

@[simp] theorem bytes_zero (m : Memory) (p : ℤ) : m.bytes p 0 = [] := rfl

/-- What is read splits at any place. -/
theorem bytes_add (m : Memory) (p : ℤ) (n k : ℕ) : m.bytes p (n + k) = m.bytes p n ++ m.bytes (p + n) k := by
  rw [bytes, bytes, bytes, List.range_add, List.map_append, List.map_map]
  refine congrArg _ (List.map_congr_left fun i _ => congrArg m ?_)
  push_cast
  rw [add_assoc]

theorem bytes_store_self : (m.store q b).bytes q b.length = b := by
  refine List.ext_getElem (by rw [length_bytes]) fun i h₁ h₂ => ?_
  have hin : q ≤ q + i ∧ q + i < q + b.length := by omega
  have hsub : (q + i - q).toNat = i := by omega
  simp only [bytes, List.getElem_map, List.getElem_range]
  rw [store, if_pos hin, hsub, List.getD_eq_getElem _ _ h₂]

theorem bytes_store_of_apart (h : Apart p n (q, b)) : (m.store q b).bytes p n = m.bytes p n := by
  refine List.map_congr_left fun i hi => ?_
  have hi := List.mem_range.mp hi
  change p + n ≤ q ∨ q + b.length ≤ p at h
  have hout : ¬ (q ≤ p + i ∧ p + i < q + b.length) := by omega
  rw [store, if_neg hout]

/-- What no copy touches stays. -/
theorem bytes_stores_of_apart (h : ∀ w ∈ ws, Apart p n w) : (m.stores ws).bytes p n = m.bytes p n := by
  induction ws generalizing m with
  | nil => rfl
  | cons w ws ih =>
      obtain ⟨hw, hrest⟩ := List.forall_mem_cons.mp h
      change ((m.store w.1 w.2).stores ws).bytes p n = m.bytes p n
      rw [ih hrest, bytes_store_of_apart hw]

/-- What one of the copies wrote stays. -/
theorem bytes_stores_of_mem (h : Separate ws) (hmem : (q, b) ∈ ws) : (m.stores ws).bytes q b.length = b := by
  induction ws generalizing m with
  | nil => cases hmem
  | cons w ws ih =>
      obtain ⟨hw, hrest⟩ := List.pairwise_cons.mp h
      change ((m.store w.1 w.2).stores ws).bytes q b.length = b
      rcases List.mem_cons.mp hmem with rfl | hmem
      · rw [bytes_stores_of_apart hw, bytes_store_self]
      · exact ih hrest hmem

/-- **What is laid out is read.** -/
theorem bytes_stores_laid (h : Separate ws) (hl : Laid ws p bs) :
    (m.stores ws).bytes p bs.flatten.length = bs.flatten := by
  induction bs generalizing p with
  | nil => rfl
  | cons b bs ih =>
      obtain ⟨hmem, hrest⟩ := hl
      rw [List.flatten_cons, List.length_append, bytes_add, bytes_stores_of_mem h hmem, ih hrest]

/-- A copy of a part of another memory holds what that memory holds. -/
theorem bytes_copy {m' : Memory} (hq : q ≤ p) (h : p + n ≤ q + k) :
    (m'.store q (m.bytes q k)).bytes p n = m.bytes p n := by
  refine List.map_congr_left fun i hi => ?_
  have hi := List.mem_range.mp hi
  have hin : q ≤ p + i ∧ p + i < q + (m.bytes q k).length := by
    rw [length_bytes]
    omega
  have hk : (p + i - q).toNat < k := by omega
  have hback : q + ((p + i - q).toNat : ℤ) = p + i := by omega
  rw [store, if_pos hin, List.getD_eq_getElem _ _ (by rw [length_bytes]; exact hk)]
  simp only [bytes, List.getElem_map, List.getElem_range, hback]

/-! ### Elements of one size -/

/-- The first `k` elements of `n` bytes each. -/
def cells (m : Memory) (n k : ℕ) : List Bytes := (List.range k).map fun (i : ℕ) => m.bytes (i * n) n

@[simp] theorem length_cells (m : Memory) (n k : ℕ) : (m.cells n k).length = k := by
  rw [cells, List.length_map, List.length_range]

theorem getElem?_cells {i : ℕ} (h : i < k) : (m.cells n k)[i]? = some (m.bytes (i * n) n) := by
  rw [cells, List.getElem?_map, List.getElem?_range h, Option.map_some]

/-- Fewer elements are the first ones. -/
theorem take_cells {j : ℕ} (h : j ≤ k) : (m.cells n k).take j = m.cells n j := by
  rw [cells, cells, ← List.map_take, List.take_range, Nat.min_eq_left h]

/-- Elements do not overlap. -/
theorem apart_cell {i j : ℕ} (h : i ≠ j) (hb : b.length = n) : Apart (i * n) n (j * n, b) := by
  have hle : ∀ {i j : ℕ}, i < j → (i * n + n : ℤ) ≤ j * n := by
    intro i j hij
    have hmul : (i + 1) * n ≤ j * n := Nat.mul_le_mul_right n hij
    rw [Nat.add_mul, Nat.one_mul] at hmul
    exact_mod_cast hmul
  rcases Nat.lt_or_gt_of_ne h with hij | hji
  · exact .inl (hle hij)
  · refine .inr ?_
    change (j * n + b.length : ℤ) ≤ i * n
    rw [hb]
    exact hle hji

/-- **A copy to an element changes this element.** -/
theorem cells_store {j : ℕ} (hb : b.length = n) : (m.store (j * n) b).cells n k = (m.cells n k).set j b := by
  refine List.ext_getElem? fun i => ?_
  rcases Nat.lt_or_ge i k with hi | hi
  · rw [getElem?_cells hi, List.getElem?_set]
    rcases eq_or_ne j i with rfl | hij
    · rw [if_pos rfl, length_cells, if_pos hi, ← hb, bytes_store_self]
    · rw [if_neg hij, getElem?_cells hi, bytes_store_of_apart (apart_cell hij.symm hb)]
  · rw [List.getElem?_eq_none (by rw [length_cells]; exact hi),
      List.getElem?_eq_none (by rw [List.length_set, length_cells]; exact hi)]

/-- **A copy behind the last element adds one.** -/
theorem cells_store_succ (hb : b.length = n) : (m.store (k * n) b).cells n (k + 1) = m.cells n k ++ [b] := by
  have hrest : (m.store (k * n) b).cells n k = m.cells n k := by
    rw [cells_store hb, List.set_eq_of_length_le (by rw [length_cells])]
  have hlast : (m.store (k * n) b).bytes (k * n) n = b := by rw [← hb, bytes_store_self]
  rw [← hrest, cells, cells, List.range_succ, List.map_append, List.map_singleton, hlast]

/-- **A copy of all elements has the same elements.** -/
theorem cells_copy {m' : Memory} {j : ℕ} (h : k * n ≤ j) : (m'.store 0 (m.bytes 0 j)).cells n k = m.cells n k := by
  refine List.map_congr_left fun i hi => ?_
  have hi : (i + 1) * n ≤ k * n := Nat.mul_le_mul_right n (List.mem_range.mp hi)
  rw [Nat.add_mul, Nat.one_mul] at hi
  have hpos : (0 : ℤ) ≤ i * n := by exact_mod_cast Nat.zero_le (i * n)
  refine bytes_copy hpos ?_
  rw [Int.zero_add]
  exact_mod_cast hi.trans h

end Memory

/-- An access to `length` bytes, from `offset` on, of a block of `size` bytes. -/
structure Span where
  offset : ℤ
  length : ℕ
  size : ℕ
deriving DecidableEq

/-- The access stays inside the block. -/
def Span.Inside (s : Span) : Prop := 0 ≤ s.offset ∧ s.offset + s.length ≤ s.size

instance (s : Span) : Decidable s.Inside := inferInstanceAs (Decidable (_ ∧ _))

end TsbAgent
