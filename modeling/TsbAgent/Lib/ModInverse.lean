/-
# The binary algorithm of Euclid with its cofactor

Two numbers `a` and `b` with the same greatest common divisor as `x` and an odd modulus `m`, and `u`, `v` with
`a = u * x`, `b = v * x` modulo `m`.  Halving an even number together with its cofactor, and taking one odd number
away from the other, keep this; both make the product of `a` and `b` at least twice as small.
-/

import Mathlib.Data.Int.GCD
import Mathlib.Data.Nat.Prime.Basic
import Mathlib.Data.Nat.ModEq
import Mathlib.Tactic.Linarith
import Mathlib.Tactic.Ring
import Mathlib.Algebra.Order.Ring.Nat

namespace TsbAgent
namespace ModInverse

/-- The invariant of the algorithm for `x` modulo `m`. -/
structure Inverting (m x a b u v : ℕ) : Prop where
  odd : m % 2 = 1
  a_pos : 0 < a
  b_pos : 0 < b
  gcd_eq : Nat.gcd a b = Nat.gcd x m
  u_lt : u < m
  v_lt : v < m
  a_eq : a ≡ u * x [MOD m]
  b_eq : b ≡ v * x [MOD m]

variable {m x a b u v : ℕ}

/-- Half of a residue modulo an odd number. -/
def half (m u : ℕ) : ℕ := if u % 2 = 0 then u / 2 else (u + m) / 2

/-- The difference of two residues. -/
def diff (m u v : ℕ) : ℕ := if u < v then u + m - v else u - v

theorem two_half (hm : m % 2 = 1) (u : ℕ) : 2 * half m u = u ∨ 2 * half m u = u + m := by
  rw [half]
  split_ifs <;> omega

theorem half_lt (hm : m % 2 = 1) (hu : u < m) : half m u < m := by
  rw [half]
  split_ifs <;> omega

theorem diff_lt (hu : u < m) (hv : v < m) : diff m u v < m := by
  rw [diff]
  split_ifs <;> omega

theorem diff_add (hv : v < m) : diff m u v + v = u ∨ diff m u v + v = u + m := by
  rw [diff]
  split_ifs <;> omega

theorem coprime_two (hm : m % 2 = 1) : Nat.gcd m 2 = 1 :=
  (Nat.coprime_two_right.mpr (Nat.odd_iff.mpr hm) : Nat.Coprime m 2)

theorem half_modEq (hm : m % 2 = 1) (ha : a % 2 = 0) (h : a ≡ u * x [MOD m]) : a / 2 ≡ half m u * x [MOD m] := by
  refine Nat.ModEq.cancel_left_of_coprime (coprime_two hm) ?_
  have htwo : 2 * (a / 2) = a := by omega
  rw [htwo, ← Nat.mul_assoc]
  refine h.trans ?_
  rcases two_half hm u with hh | hh
  · rw [hh]
  · rw [hh, Nat.add_mul, Nat.mul_comm m x]
    exact (Nat.add_mul_modulus_modEq_iff.mpr (Nat.ModEq.refl _)).symm

theorem diff_modEq (hv : v < m) (hab : b ≤ a) (h₁ : a ≡ u * x [MOD m]) (h₂ : b ≡ v * x [MOD m]) :
    a - b ≡ diff m u v * x [MOD m] := by
  refine Nat.ModEq.add_right_cancel h₂ ?_
  rw [Nat.sub_add_cancel hab, ← Nat.add_mul]
  refine h₁.trans ?_
  rcases diff_add (u := u) hv with hd | hd
  · rw [hd]
  · rw [hd, Nat.add_mul, Nat.mul_comm m x]
    exact (Nat.add_mul_modulus_modEq_iff.mpr (Nat.ModEq.refl _)).symm

namespace Inverting

theorem swap (h : Inverting m x a b u v) : Inverting m x b a v u :=
  ⟨h.odd, h.b_pos, h.a_pos, by rw [Nat.gcd_comm, h.gcd_eq], h.v_lt, h.u_lt, h.b_eq, h.a_eq⟩

/-- The common divisor divides an odd modulus, so one of the two is odd. -/
theorem odd_of_even (h : Inverting m x a b u v) (ha : a % 2 = 0) : b % 2 = 1 := by
  rcases Nat.mod_two_eq_zero_or_one b with hb | hb
  · have hgcd : 2 ∣ Nat.gcd a b := Nat.dvd_gcd (Nat.dvd_of_mod_eq_zero ha) (Nat.dvd_of_mod_eq_zero hb)
    rw [h.gcd_eq] at hgcd
    have hdvd : 2 ∣ m := hgcd.trans (Nat.gcd_dvd_right x m)
    have hodd := h.odd
    omega
  · exact hb

/-- Halving an even number and its cofactor. -/
theorem halved (h : Inverting m x a b u v) (ha : a % 2 = 0) : Inverting m x (a / 2) b (half m u) v where
  odd := h.odd
  a_pos := by have hpos := h.a_pos; omega
  b_pos := h.b_pos
  gcd_eq := by
    have hcop : Nat.Coprime 2 b := (Nat.coprime_two_left.mpr (Nat.odd_iff.mpr (h.odd_of_even ha)))
    rw [← h.gcd_eq, ← hcop.gcd_mul_left_cancel (a / 2), show 2 * (a / 2) = a by omega]
  u_lt := half_lt h.odd h.u_lt
  v_lt := h.v_lt
  a_eq := half_modEq h.odd ha h.a_eq
  b_eq := h.b_eq

/-- Taking the smaller number away from the larger. -/
theorem taken (h : Inverting m x a b u v) (hlt : b < a) : Inverting m x (a - b) b (diff m u v) v where
  odd := h.odd
  a_pos := Nat.sub_pos_of_lt hlt
  b_pos := h.b_pos
  gcd_eq := by rw [← h.gcd_eq, Nat.gcd_sub_self_left hlt.le]
  u_lt := diff_lt h.u_lt h.v_lt
  v_lt := h.v_lt
  a_eq := diff_modEq h.v_lt hlt.le h.a_eq h.b_eq
  b_eq := h.b_eq

/-- Where the two meet, the cofactor takes `x` to the greatest common divisor. -/
theorem done (h : Inverting m x a a u v) : u * x ≡ Nat.gcd x m [MOD m] := by
  have hgcd := h.gcd_eq
  rw [Nat.gcd_self] at hgcd
  rw [← hgcd]
  exact h.a_eq.symm

end Inverting

/-- The start: `x` with cofactor one, the modulus with cofactor zero. -/
theorem inverting_start (hm : m % 2 = 1) (h₁ : 1 < m) (hx : 0 < x) : Inverting m x x m 1 0 :=
  ⟨hm, hx, by omega, rfl, h₁, by omega, by rw [Nat.one_mul], by rw [Nat.zero_mul]; exact Nat.modEq_zero_iff_dvd.mpr dvd_rfl⟩

end ModInverse
end TsbAgent
