/-
# The curve and the order of its base point

`ecc_curve` (`tss-main/httcutils/src/sm/sm2.c`): the curve `y^2 = x^3 + a x + b` modulo the prime, with `a = -3` as
`ecc_point_double_jacobian` and `ecc_valid_public_key` have it, the base point `g`, its order `n` and the cofactor
`h`, which is one.  That `n` is the order is found by running the ladder on numbers (`order_basePoint`): `n` is prime, its
successor splits into primes that do so in turn, and the multiples `(n - 1) / 2` and `(n + 1) / 2` of `g` are opposite.
-/

import TsbAgent.Httcutils.EccMult2

namespace TsbAgent
namespace Httcutils

open CoZ LucasPrime WeierstrassCurve.Affine

/-! ### The constants -/

/-- `ecc_curve.g`. -/
def eccG : EccPoint where
  x := ⟨[0xC7, 0x74, 0x4C, 0x33, 0x89, 0x45, 0x5A, 0x71, 0xE1, 0x0B, 0x66, 0xF2, 0xBF, 0x0B, 0xE3, 0x8F,
    0x94, 0xC9, 0x39, 0x6A, 0x46, 0x04, 0x99, 0x5F, 0x19, 0x81, 0x19, 0x1F, 0x2C, 0xAE, 0xC4, 0x32], by decide⟩
  y := ⟨[0xA0, 0xF0, 0x39, 0x21, 0xE5, 0x32, 0xDF, 0x02, 0x40, 0x47, 0x2A, 0xC6, 0x7C, 0x87, 0xA9, 0xD0,
    0x53, 0x21, 0x69, 0x6B, 0xE3, 0xCE, 0xBD, 0x59, 0x9C, 0x77, 0xF6, 0xF4, 0xA2, 0x36, 0x37, 0xBC], by decide⟩

/-- `ecc_curve.n`. -/
@[irreducible] def eccN : Vli :=
  ⟨[0x23, 0x41, 0xD5, 0x39, 0x09, 0xF4, 0xBB, 0x53, 0x2B, 0x05, 0xC6, 0x21, 0x6B, 0xDF, 0x03, 0x72,
    0xFF, 0xFF, 0xFF, 0xFF, 0xFF, 0xFF, 0xFF, 0xFF, 0xFF, 0xFF, 0xFF, 0xFF, 0xFE, 0xFF, 0xFF, 0xFF], by decide⟩

/-- `ecc_curve.h`. -/
def eccH : Vli :=
  ⟨[0x01, 0x00, 0x00, 0x00, 0x00, 0x00, 0x00, 0x00, 0x00, 0x00, 0x00, 0x00, 0x00, 0x00, 0x00, 0x00,
    0x00, 0x00, 0x00, 0x00, 0x00, 0x00, 0x00, 0x00, 0x00, 0x00, 0x00, 0x00, 0x00, 0x00, 0x00, 0x00], by decide⟩

/-- `ecc_curve.a`. -/
def eccA : Vli :=
  ⟨[0xFC, 0xFF, 0xFF, 0xFF, 0xFF, 0xFF, 0xFF, 0xFF, 0x00, 0x00, 0x00, 0x00, 0xFF, 0xFF, 0xFF, 0xFF,
    0xFF, 0xFF, 0xFF, 0xFF, 0xFF, 0xFF, 0xFF, 0xFF, 0xFF, 0xFF, 0xFF, 0xFF, 0xFE, 0xFF, 0xFF, 0xFF], by decide⟩

/-- `ecc_curve.b`. -/
def eccB : Vli :=
  ⟨[0x93, 0x0E, 0x94, 0x4D, 0x41, 0xBD, 0xBC, 0xDD, 0x92, 0x8F, 0xAB, 0x15, 0xF5, 0x89, 0x97, 0xF3,
    0xA7, 0x09, 0x65, 0xCF, 0x4B, 0x9E, 0x5A, 0x4D, 0x34, 0x5E, 0x9F, 0x9D, 0x9E, 0xFA, 0xE9, 0x28], by decide⟩

/-! ### The order is prime -/

instance prime_654550279 : Fact (Nat.Prime 654550279) where
  out := by
    refine @prime_of_factors 654550279 3 (2, 1) 30 [2, 2, 2, 5, 293, 55849] (by decide) (by decide) (by decide +kernel)
      ?_ (by decide +kernel) (by decide +kernel)
    intro r hr
    simp only [List.mem_cons, List.not_mem_nil, or_false] at hr
    rcases hr with rfl | rfl | rfl | rfl | rfl | rfl <;> norm_num

instance prime_100140269 : Fact (Nat.Prime 100140269) where
  out := by
    refine @prime_of_factors 100140269 15 (4, 1) 27 [2, 3, 5, 389, 8581] (by decide) (by decide) (by decide +kernel) ?_
      (by decide +kernel) (by decide +kernel)
    intro r hr
    simp only [List.mem_cons, List.not_mem_nil, or_false] at hr
    rcases hr with rfl | rfl | rfl | rfl | rfl <;> norm_num

instance prime_372382040837 : Fact (Nat.Prime 372382040837) where
  out := by
    refine @prime_of_factors 372382040837 8 (3, 1) 39 [2, 3, 31, 857, 2336119] (by decide) (by decide)
      (by decide +kernel) ?_ (by decide +kernel) (by decide +kernel)
    intro r hr
    simp only [List.mem_cons, List.not_mem_nil, or_false] at hr
    rcases hr with rfl | rfl | rfl | rfl | rfl <;> norm_num

instance prime_5958112653391 : Fact (Nat.Prime 5958112653391) where
  out := by
    refine @prime_of_factors 5958112653391 3 (2, 1) 43 [2, 2, 2, 2, 372382040837] (by decide) (by decide)
      (by decide +kernel) ?_ (by decide +kernel) (by decide +kernel)
    intro r hr
    simp only [List.mem_cons, List.not_mem_nil, or_false] at hr
    rcases hr with rfl | rfl | rfl | rfl | rfl
    all_goals first | exact prime_372382040837.out | exact Nat.prime_two

instance prime_167961876849786315949 : Fact (Nat.Prime 167961876849786315949) where
  out := by
    refine @prime_of_factors 167961876849786315949 120 (11, 1) 68 [2, 5, 5, 563809, 5958112653391] (by decide)
      (by decide) (by decide +kernel) ?_ (by decide +kernel) (by decide +kernel)
    intro r hr
    simp only [List.mem_cons, List.not_mem_nil, or_false] at hr
    rcases hr with rfl | rfl | rfl | rfl | rfl
    all_goals first | exact prime_5958112653391.out | norm_num

instance prime_111915589 : Fact (Nat.Prime 111915589) where
  out := by
    refine @prime_of_factors 111915589 8 (3, 1) 27 [2, 5, 17, 658327] (by decide) (by decide) (by decide +kernel) ?_
      (by decide +kernel) (by decide +kernel)
    intro r hr
    simp only [List.mem_cons, List.not_mem_nil, or_false] at hr
    rcases hr with rfl | rfl | rfl | rfl <;> norm_num

instance prime_219864019 : Fact (Nat.Prime 219864019) where
  out := by
    refine @prime_of_factors 219864019 8 (3, 1) 28 [2, 2, 5, 1151, 9551] (by decide) (by decide) (by decide +kernel) ?_
      (by decide +kernel) (by decide +kernel)
    intro r hr
    simp only [List.mem_cons, List.not_mem_nil, or_false] at hr
    rcases hr with rfl | rfl | rfl | rfl | rfl <;> norm_num

instance prime_894846557329 : Fact (Nat.Prime 894846557329) where
  out := by
    refine @prime_of_factors 894846557329 99 (10, 1) 40 [2, 5, 11, 37, 219864019] (by decide) (by decide)
      (by decide +kernel) ?_ (by decide +kernel) (by decide +kernel)
    intro r hr
    simp only [List.mem_cons, List.not_mem_nil, or_false] at hr
    rcases hr with rfl | rfl | rfl | rfl | rfl
    all_goals first | exact prime_219864019.out | norm_num

instance prime_3188707352744406625033816673132027 : Fact (Nat.Prime 3188707352744406625033816673132027) where
  out := by
    refine @prime_of_factors 3188707352744406625033816673132027 8 (3, 1) 112
      [2, 2, 3, 3, 23, 193, 5657, 35221, 111915589, 894846557329] (by decide) (by decide) (by decide +kernel) ?_
      (by decide +kernel) (by decide +kernel)
    intro r hr
    simp only [List.mem_cons, List.not_mem_nil, or_false] at hr
    rcases hr with rfl | rfl | rfl | rfl | rfl | rfl | rfl | rfl | rfl | rfl
    all_goals first | exact prime_111915589.out | exact prime_894846557329.out | norm_num

theorem eccN_val : eccN.val = 0xFFFFFFFEFFFFFFFFFFFFFFFFFFFFFFFF7203DF6B21C6052B53BBF40939D54123 := by decide +kernel

instance : Fact eccN.val.Prime where
  out := by
    rw [eccN_val]
    refine @prime_of_factors _ 8 (3, 1) 256
      [2, 2, 97, 8501, 100140269, 654550279, 167961876849786315949, 3188707352744406625033816673132027] (by norm_num)
      (by decide +kernel) (by decide +kernel) ?_ (by decide +kernel) (by decide +kernel)
    intro r hr
    simp only [List.mem_cons, List.not_mem_nil, or_false] at hr
    rcases hr with rfl | rfl | rfl | rfl | rfl | rfl | rfl | rfl
    all_goals first
      | exact prime_100140269.out | exact prime_654550279.out | exact prime_167961876849786315949.out
      | exact prime_3188707352744406625033816673132027.out | norm_num

theorem eccN_prime : eccN.val.Prime := Fact.out

/-! ### The curve -/

/-- The curve of `ecc_curve`. -/
def eccCurve : WeierstrassCurve.Affine Fp := { a₁ := 0, a₂ := 0, a₃ := 0, a₄ := eccA.val, a₆ := eccB.val }

theorem short_eccCurve : Short eccCurve := ⟨rfl, rfl, rfl⟩

theorem eccCurve_a₄ : eccCurve.a₄ = -3 := by
  have hsum : eccA.val + 3 = eccP.val := by decide +kernel
  have hcast := congrArg (fun n : ℕ => (n : Fp)) hsum
  rw [Nat.cast_add, ZMod.natCast_self, Nat.cast_ofNat] at hcast
  exact eq_neg_of_add_eq_zero_left hcast

theorem eccCurve_Δ_ne_zero : eccCurve.Δ ≠ 0 := by
  have hdvd : ¬ eccP.val ∣ 16 * (4 * eccA.val ^ 3 + 27 * eccB.val ^ 2) := by decide +kernel
  rw [← ZMod.natCast_eq_zero_iff] at hdvd
  intro hzero
  apply hdvd
  have hΔ : eccCurve.Δ = -((16 * (4 * eccA.val ^ 3 + 27 * eccB.val ^ 2) : ℕ) : Fp) := by
    rw [WeierstrassCurve.Δ, WeierstrassCurve.b₂, WeierstrassCurve.b₄, WeierstrassCurve.b₆, WeierstrassCurve.b₈, eccCurve]
    push_cast
    ring
  rw [hΔ, neg_eq_zero] at hzero
  exact hzero

/-- A pair of coordinates that meets the equation is a point. -/
theorem nonsingular_eccCurve {x y : Fp} (h : y ^ 2 = x ^ 3 + eccA.val * x + eccB.val) :
    eccCurve.Nonsingular x y := by
  rw [← equation_iff_nonsingular_of_Δ_ne_zero eccCurve_Δ_ne_zero, equation_iff, eccCurve]
  linear_combination h

/-! ### The base point -/

theorem nonsingular_eccG : eccCurve.Nonsingular (eccG.x.val : Fp) eccG.y.val := by
  have hmod : eccG.y.val ^ 2 % eccP.val = (eccG.x.val ^ 3 + eccA.val * eccG.x.val + eccB.val) % eccP.val := by
    decide +kernel
  have hcast := (ZMod.natCast_eq_natCast_iff' _ _ _).mpr hmod
  push_cast at hcast
  exact nonsingular_eccCurve hcast

/-- The point of `ecc_curve.g`. -/
def basePoint : eccCurve.Point := .some _ _ nonsingular_eccG

/-- Its coordinates are reduced, and neither is zero. -/
theorem eccG_bounds : (0 < eccG.x.val ∧ eccG.x.val < eccP.val) ∧ 0 < eccG.y.val ∧ eccG.y.val < eccP.val := by
  decide +kernel

theorem eccG_isPoint : eccG.IsPoint basePoint :=
  ⟨_, _, ⟨⟨eccG_bounds.1.2, rfl⟩, ⟨eccG_bounds.2.2, rfl⟩⟩, rep_some nonsingular_eccG⟩

theorem eccG_x_ne_zero : eccG.x.val ≠ 0 := eccG_bounds.1.1.ne'

theorem repMod_basePoint : RepMod basePoint (eccG.x.val, eccG.y.val) 1 := rep_some nonsingular_eccG

theorem eccG_y_ne_zero : ((eccG.y.val : ℕ) : Fp) ≠ 0 := by
  rw [Ne, ZMod.natCast_eq_zero_iff]
  exact Nat.not_dvd_of_pos_of_lt eccG_bounds.2.1 eccG_bounds.2.2

theorem eccN_nsmul : eccN.val • basePoint = 0 := by
  have hend : endsOpposite eccP.val ((eccN.val - 1) / 2) 254 (eccG.x.val, eccG.y.val) = true := by decide +kernel
  have hzero := nsmul_eq_zero_of_endsOpposite short_eccCurve eccCurve_a₄ two_lt_eccP repMod_basePoint
    eccG_y_ne_zero (by decide +kernel) hend
  rwa [show 2 * ((eccN.val - 1) / 2) + 1 = eccN.val by decide +kernel] at hzero

/-- **`ecc_curve.n` is the order of `ecc_curve.g`.** -/
theorem order_basePoint : addOrderOf basePoint = eccN.val :=
  addOrderOf_eq_prime eccN_nsmul (Point.some_ne_zero nonsingular_eccG)

end Httcutils
end TsbAgent
