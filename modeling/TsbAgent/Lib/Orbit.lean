/-
# Loops that follow a pointer

A loop whose state is a position, and whose body says where it goes on, `next`, or that it ends.
`orbit next n x` is where it is after `n` rounds from `x`.  Where the positions that the loop can go on
from are finitely many, it ends exactly when it never comes back to a position (`ends_iff`).

`collect` runs the loop with fuel and lists what its rounds give out; more fuel than it needs changes
nothing (`collect_unique`).
-/

import Mathlib.Data.Set.Finite.Basic
import Mathlib.Data.Fintype.EquivFin

namespace TsbAgent
namespace Orbit

variable {α β : Type*} (next : α → Option α) (out : α → List β)

/-- Where the loop is after `n` rounds, none when it has ended. -/
def orbit : ℕ → α → Option α
  | 0, x => some x
  | n + 1, x => (next x).bind (orbit n)

/-- What the rounds give out, none when the fuel is used up. -/
def collect : ℕ → α → Option (List β)
  | 0, _ => none
  | fuel + 1, x =>
      match next x with
      | none => some []
      | some y => (collect fuel y).map (out x ++ ·)

variable {next out} {x y : α} {i j k n : ℕ}

theorem orbit_succ : orbit next (n + 1) x = (next x).bind (orbit next n) := rfl

theorem orbit_add : orbit next (i + n) x = (orbit next i x).bind (orbit next n) := by
  induction i generalizing x with
  | zero => rw [Nat.zero_add]; rfl
  | succ i ih =>
      rw [Nat.succ_add, orbit_succ, orbit_succ]
      cases next x with
      | none => rfl
      | some y => exact ih

theorem orbit_succ' : orbit next (n + 1) x = (orbit next n x).bind next := by
  rw [orbit_add]
  refine Option.bind_congr fun y _ => ?_
  cases h : next y <;> simp [orbit, h]

theorem orbit_none_of_le (h : orbit next i x = none) (hij : i ≤ j) : orbit next j x = none := by
  obtain ⟨n, rfl⟩ := Nat.exists_eq_add_of_le hij
  rw [orbit_add, h, Option.bind_none]

/-- A loop that ends has not been anywhere twice. -/
theorem orbit_eq_none_of_eq (hend : orbit next k x = none) (hij : i < j)
    (h : orbit next i x = orbit next j x) : orbit next i x = none := by
  -- the shortest end would not be the shortest, if the rounds after `i` and after `j` were the same
  classical
  by_contra hne
  have hex : ∃ m, orbit next m x = none := ⟨k, hend⟩
  have hm : orbit next (Nat.find hex) x = none := Nat.find_spec hex
  have hjm : j < Nat.find hex := by
    rcases Nat.lt_or_ge j (Nat.find hex) with hlt | hge
    · exact hlt
    · exact absurd (h.trans (orbit_none_of_le hm hge)) hne
  have hearly : orbit next (i + (Nat.find hex - j)) x = none := by
    rw [orbit_add, h, ← orbit_add, Nat.add_sub_cancel' hjm.le, hm]
  exact Nat.find_min hex (by omega) hearly

/-- **A loop over finitely many positions ends exactly when it never comes back.** -/
theorem ends_iff {S : Set α} (hfin : S.Finite) (hS : ∀ y, next y ≠ none → y ∈ S) :
    (∃ k, orbit next k x = none) ↔
      ∀ i j, i < j → orbit next i x = orbit next j x → orbit next i x = none := by
  refine ⟨fun ⟨k, hk⟩ i j hij h => orbit_eq_none_of_eq hk hij h, fun h => ?_⟩
  by_contra hrun
  rw [not_exists] at hrun
  -- otherwise the rounds are an injection into the positions
  choose f hf using fun i => Option.ne_none_iff_exists'.mp (hrun i)
  have hmem (i : ℕ) : f i ∈ S := by
    refine hS _ fun hnone => hrun (i + 1) ?_
    rw [orbit_succ', hf, Option.bind_some, hnone]
  have hinj : Function.Injective fun i => (⟨f i, hmem i⟩ : S) := by
    intro i j hij
    have hsame : orbit next i x = orbit next j x := by rw [hf, hf, Subtype.mk.inj hij]
    rcases lt_trichotomy i j with hlt | heq | hgt
    · exact absurd (h i j hlt hsame) (hrun i)
    · exact heq
    · exact absurd (h j i hgt hsame.symm) (hrun j)
  have := hfin.to_subtype
  exact not_injective_infinite_finite _ hinj

/-- The fuel is enough when the loop has ended. -/
theorem collect_isSome_iff : (∃ l, collect next out n x = some l) ↔ orbit next n x = none := by
  induction n generalizing x with
  | zero => simp [collect, orbit]
  | succ n ih =>
      rw [collect, orbit_succ]
      cases next x with
      | none => simp
      | some y => simpa using ih

/-- **What comes out** is what some round gave. -/
theorem mem_collect_iff {l : List β} {b : β} (h : collect next out n x = some l) :
    b ∈ l ↔ ∃ i y, orbit next i x = some y ∧ next y ≠ none ∧ b ∈ out y := by
  induction n generalizing x l with
  | zero => cases h
  | succ n ih =>
      rw [collect] at h
      cases hx : next x with
      | none =>
          rw [hx] at h
          obtain rfl := Option.some.inj h
          refine iff_of_false List.not_mem_nil ?_
          rintro ⟨i, y, hi, hy, -⟩
          cases i with
          | zero =>
              obtain rfl := Option.some.inj hi
              exact hy hx
          | succ i =>
              rw [orbit_succ, hx] at hi
              cases hi
      | some z =>
          rw [hx] at h
          obtain ⟨l', hl', rfl⟩ := Option.map_eq_some_iff.mp h
          rw [List.mem_append, ih hl']
          constructor
          · rintro (hb | ⟨i, y, hi, hy, hb⟩)
            · exact ⟨0, x, rfl, by rw [hx]; simp, hb⟩
            · exact ⟨i + 1, y, by rw [orbit_succ, hx, Option.bind_some, hi], hy, hb⟩
          · rintro ⟨i, y, hi, hy, hb⟩
            cases i with
            | zero =>
                obtain rfl := Option.some.inj hi
                exact .inl hb
            | succ i =>
                rw [orbit_succ, hx, Option.bind_some] at hi
                exact .inr ⟨i, y, hi, hy, hb⟩

theorem collect_add {l : List β} (h : collect next out n x = some l) :
    collect next out (n + k) x = some l := by
  induction n generalizing x l with
  | zero => cases h
  | succ n ih =>
      rw [Nat.succ_add, collect]
      rw [collect] at h
      cases hx : next x with
      | none => rwa [hx] at h
      | some y =>
          rw [hx] at h
          obtain ⟨l', hl', rfl⟩ := Option.map_eq_some_iff.mp h
          dsimp only
          rw [ih hl', Option.map_some]

/-- Fuel does not change what comes out. -/
theorem collect_unique {l l' : List β} (h : collect next out n x = some l)
    (h' : collect next out k x = some l') : l = l' := by
  have hn := collect_add (k := k) h
  have hk := collect_add (k := n) h'
  rw [Nat.add_comm] at hk
  exact Option.some.inj (hn.symm.trans hk)

end Orbit
end TsbAgent
