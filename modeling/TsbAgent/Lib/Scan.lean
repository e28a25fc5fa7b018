/-
# Loops that search a table

`for (i = start; more; i++) if (stop) return i;`, watched by its accesses: `test` is made each time the
condition is evaluated, `acc i` in the body.  `Reaches` says which bodies are run, without the loop.
-/

import TsbAgent.Lib.Access
import Mathlib.Algebra.Order.Ring.Nat

namespace TsbAgent
namespace Scan

/-- The loop from `i` on: its accesses, the index it stops at, and the index at which the condition
fails otherwise. -/
def scan (more stop : ℕ → Prop) [DecidablePred more] [DecidablePred stop] (test : Access)
    (acc : ℕ → List Access) : ℕ → ℕ → List Access × (ℕ ⊕ ℕ)
  | 0, i => ([test], .inr i)
  | fuel + 1, i =>
      if more i then
        if stop i then (test :: acc i, .inl i)
        else
          let r := scan more stop test acc fuel (i + 1)
          (test :: (acc i ++ r.1), r.2)
      else ([test], .inr i)

/-- The body is run for `j` when the loop starts at `i`. -/
def Reaches (more stop : ℕ → Prop) (i j : ℕ) : Prop :=
  i ≤ j ∧ (∀ k, i ≤ k → k ≤ j → more k) ∧ ∀ k, i ≤ k → k < j → ¬ stop k

/-- The condition fails at `j`, and no body before has stopped the loop. -/
def Passes (more stop : ℕ → Prop) (i j : ℕ) : Prop :=
  i ≤ j ∧ ¬ more j ∧ ∀ k, i ≤ k → k < j → more k ∧ ¬ stop k

section Indices

variable {more stop : ℕ → Prop} {i j k : ℕ}

theorem reaches_self (h : more i) : Reaches more stop i i :=
  ⟨le_rfl, fun _ hk hki => le_antisymm hki hk ▸ h, fun _ hk hki => absurd hki (not_lt.mpr hk)⟩

theorem Reaches.head (h : Reaches more stop i j) : more i := h.2.1 i le_rfl h.1

/-- What is reached from `i` is `i`, or is reached from the next index. -/
theorem reaches_iff (hmore : more i) : Reaches more stop i j ↔ j = i ∨ ¬ stop i ∧ Reaches more stop (i + 1) j := by
  constructor
  · rintro ⟨hij, hall, hnot⟩
    rcases Nat.eq_or_lt_of_le hij with rfl | hlt
    · exact Or.inl rfl
    · exact Or.inr ⟨hnot i le_rfl hlt, hlt, fun k hk => hall k (by omega), fun k hk => hnot k (by omega)⟩
  · rintro (rfl | ⟨hi, hij, hall, hnot⟩)
    · exact reaches_self hmore
    · refine ⟨by omega, fun k hk hkj => ?_, fun k hk hkj => ?_⟩
      · rcases Nat.eq_or_lt_of_le hk with rfl | hlt
        · exact hmore
        · exact hall k hlt hkj
      · rcases Nat.eq_or_lt_of_le hk with rfl | hlt
        · exact hi
        · exact hnot k hlt hkj

theorem Passes.of_succ (h : Passes more stop (i + 1) j) (hmore : more i) (hstop : ¬ stop i) :
    Passes more stop i j := by
  refine ⟨by have := h.1; omega, h.2.1, fun k hk hkj => ?_⟩
  rcases Nat.eq_or_lt_of_le hk with rfl | hlt
  · exact ⟨hmore, hstop⟩
  · exact h.2.2 k hlt hkj

/-- A loop that passes every index does not stop. -/
theorem Passes.not_stop (h : Passes more stop i j) (hk : Reaches more stop i k) : ¬ stop k := by
  by_cases hkj : k < j
  · exact (h.2.2 k hk.1 hkj).2
  · exact absurd (hk.2.1 j h.1 (not_lt.mp hkj)) h.2.1

theorem Passes.unique (h : Passes more stop i j) (hk : Passes more stop i k) : j = k := by
  rcases lt_trichotomy j k with hlt | heq | hlt
  · exact absurd (hk.2.2 j h.1 hlt).1 h.2.1
  · exact heq
  · exact absurd (h.2.2 k hk.1 hlt).1 hk.2.1

/-- The loop stops at one index only. -/
theorem Reaches.unique (hj : Reaches more stop i j) (hsj : stop j) (hk : Reaches more stop i k)
    (hsk : stop k) : j = k := by
  rcases lt_trichotomy j k with hlt | heq | hlt
  · exact absurd hsj (hk.2.2 j hj.1 hlt)
  · exact heq
  · exact absurd hsk (hj.2.2 k hk.1 hlt)

end Indices

variable {more stop : ℕ → Prop} [DecidablePred more] [DecidablePred stop] {i : ℕ}
variable {test : Access} {acc : ℕ → List Access} {fuel : ℕ}

/-- **The loop is safe when the test and the bodies it runs are.** -/
theorem safe_scan_iff (htest : test.InBounds) (hfuel : ∀ k, i + fuel ≤ k → ¬ more k) :
    Safe (scan more stop test acc fuel i).1 ↔ ∀ j, Reaches more stop i j → Safe (acc j) := by
  induction fuel generalizing i with
  | zero =>
      rw [scan]
      exact iff_of_true (safe_cons.mpr ⟨htest, safe_nil⟩) fun j hj => absurd hj.head (hfuel i le_rfl)
  | succ fuel ih =>
      have ih := ih (i := i + 1) fun k hk => hfuel k (by omega)
      rw [scan]
      by_cases hmore : more i
      · rw [if_pos hmore]
        simp only [reaches_iff hmore]
        by_cases hstop : stop i
        · rw [if_pos hstop, safe_cons]
          constructor
          · rintro h j (rfl | hj)
            · exact h.2
            · exact absurd hstop hj.1
          · exact fun h => ⟨htest, h i (Or.inl rfl)⟩
        · rw [if_neg hstop, safe_cons, safe_append, ih]
          constructor
          · rintro h j (rfl | hj)
            · exact h.2.1
            · exact h.2.2 j hj.2
          · exact fun h => ⟨htest, h i (Or.inl rfl), fun j hj => h j (Or.inr ⟨hstop, hj⟩)⟩
      · rw [if_neg hmore]
        exact iff_of_true (safe_cons.mpr ⟨htest, safe_nil⟩) fun j hj => absurd hj.head hmore

/-- The loop ends: it stops at an index it reaches, or it passes them all. -/
theorem scan_spec (hfuel : ∀ k, i + fuel ≤ k → ¬ more k) :
    (∃ j, (scan more stop test acc fuel i).2 = .inl j ∧ Reaches more stop i j ∧ stop j) ∨
      ∃ j, (scan more stop test acc fuel i).2 = .inr j ∧ Passes more stop i j := by
  induction fuel generalizing i with
  | zero =>
      rw [scan]
      exact Or.inr ⟨i, rfl, le_rfl, hfuel i le_rfl, fun k hk hki => absurd hki (not_lt.mpr hk)⟩
  | succ fuel ih =>
      have ih := ih (i := i + 1) fun k hk => hfuel k (by omega)
      rw [scan]
      by_cases hmore : more i
      · rw [if_pos hmore]
        by_cases hstop : stop i
        · rw [if_pos hstop]
          exact Or.inl ⟨i, rfl, reaches_self hmore, hstop⟩
        · rw [if_neg hstop]
          rcases ih with ⟨j, hj, hreach, hsj⟩ | ⟨j, hj, hpass⟩
          · exact Or.inl ⟨j, hj, (reaches_iff hmore).mpr (Or.inr ⟨hstop, hreach⟩), hsj⟩
          · exact Or.inr ⟨j, hj, hpass.of_succ hmore hstop⟩
      · rw [if_neg hmore]
        exact Or.inr ⟨i, rfl, le_rfl, hmore, fun k hk hki => absurd hki (not_lt.mpr hk)⟩

end Scan
end TsbAgent
