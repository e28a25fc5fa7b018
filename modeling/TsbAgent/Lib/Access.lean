/-
# Accesses to areas of memory

A run of a parser is watched by the list of its accesses: each touches `length` bytes from
`offset` on of an area of `size` bytes, or as many entries of an array.  The run is safe when
every access stays inside its area.
-/

import Mathlib.Data.List.Basic

namespace TsbAgent

/-- An access to `length` bytes, from `offset` on, of an area of `size` bytes. -/
structure Access where
  offset : ℕ
  length : ℕ
  size : ℕ
deriving DecidableEq

/-- The access stays inside the area. -/
def Access.InBounds (a : Access) : Prop := a.offset + a.length ≤ a.size

instance (a : Access) : Decidable a.InBounds := inferInstanceAs (Decidable (_ ≤ _))

/-- Every access of the run stays inside its area. -/
def Safe (l : List Access) : Prop := ∀ a ∈ l, a.InBounds

instance (l : List Access) : Decidable (Safe l) := inferInstanceAs (Decidable (∀ a ∈ l, a.InBounds))

@[simp] theorem safe_nil : Safe [] := fun _ h => absurd h List.not_mem_nil

@[simp] theorem safe_cons {a : Access} {l : List Access} :
    Safe (a :: l) ↔ a.offset + a.length ≤ a.size ∧ Safe l :=
  List.forall_mem_cons

@[simp] theorem safe_append {l m : List Access} : Safe (l ++ m) ↔ Safe l ∧ Safe m :=
  List.forall_mem_append

theorem safe_ite {p : Prop} [Decidable p] {l m : List Access} :
    Safe (if p then l else m) ↔ (p → Safe l) ∧ (¬ p → Safe m) := by
  split_ifs with h
  · exact ⟨fun hl => ⟨fun _ => hl, fun hn => absurd h hn⟩, fun hl => hl.1 h⟩
  · exact ⟨fun hm => ⟨fun hp => absurd hp h, fun _ => hm⟩, fun hm => hm.2 h⟩

end TsbAgent
