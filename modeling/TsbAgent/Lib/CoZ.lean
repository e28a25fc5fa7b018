/-
# Adding points in Jacobian coordinates

On a curve `y^2 = x^3 + a x + b` over a field, `X`, `Y` and `Z ≠ 0` stand for the point with the coordinates
`X / Z^2` and `Y / Z^3`.  Two points with the same `Z` are added without knowing it: `add` gives the sum and the
first point again, `sub` the difference, all three with `Z` times the difference of the two `X` (`coZ_add`,
`coZ_same`, `coZ_sub`).  `coZ_double` is the doubling for `a = -3`, with one half of the usual `Z`.  The points are
those of `WeierstrassCurve.Affine`, so the sums are sums in its group.
-/

import Mathlib.AlgebraicGeometry.EllipticCurve.Affine.Point
import Mathlib.Tactic.FieldSimp
import Mathlib.Tactic.LinearCombination

namespace TsbAgent
namespace CoZ

open WeierstrassCurve.Affine

variable {F : Type*} [Field F] {W : WeierstrassCurve.Affine F}

/-- A curve `y^2 = x^3 + a x + b`. -/
structure Short (W : WeierstrassCurve.Affine F) : Prop where
  a₁ : W.a₁ = 0
  a₂ : W.a₂ = 0
  a₃ : W.a₃ = 0

/-- `X`, `Y` and `Z` stand for the point `P`. -/
structure Rep (P : W.Point) (X Y Z : F) : Prop where
  ne_zero : Z ≠ 0
  eq : ∃ x y h, P = .some x y h ∧ X = x * Z ^ 2 ∧ Y = y * Z ^ 3

variable {P Q : W.Point} {X Y X₁ Y₁ X₂ Y₂ Z : F}

theorem Rep.of_eq {X' Y' Z' : F} (h : Rep P X Y Z) (hX : X' = X) (hY : Y' = Y) (hZ : Z' = Z) : Rep P X' Y' Z' := by
  rw [hX, hY, hZ]
  exact h

theorem rep_some {x y : F} (h : W.Nonsingular x y) : Rep (.some x y h) x y 1 :=
  ⟨one_ne_zero, x, y, h, rfl, by ring, by ring⟩

/-- The same point with another `Z`. -/
theorem Rep.scale (h : Rep P X Y Z) {z : F} (hz : z ≠ 0) : Rep P (X * z ^ 2) (Y * z ^ 3) (Z * z) := by
  obtain ⟨x, y, hns, hP, hX, hY⟩ := h.eq
  refine ⟨mul_ne_zero h.ne_zero hz, x, y, hns, hP, ?_, ?_⟩
  · rw [hX]; ring
  · rw [hY]; ring

/-- With `Z = 1` the coordinates are those of the point. -/
theorem Rep.affine (h : Rep P X Y 1) : ∃ hns, P = .some X Y hns := by
  obtain ⟨x, y, hns, hP, hX, hY⟩ := h.eq
  rw [one_pow, mul_one] at hX hY
  subst hX hY
  exact ⟨hns, hP⟩

/-- The coordinates are those of the point, with the powers of `Z`. -/
theorem Rep.coords {x y : F} {hns : W.Nonsingular x y} (h : Rep (.some x y hns) X Y Z) :
    X = x * Z ^ 2 ∧ Y = y * Z ^ 3 := by
  obtain ⟨x', y', hns', hP, hX, hY⟩ := h.eq
  obtain ⟨rfl, rfl⟩ := Point.some.inj hP
  exact ⟨hX, hY⟩

/-- They stand for one point only. -/
theorem Rep.point_unique (h₁ : Rep P X Y Z) (h₂ : Rep Q X Y Z) : P = Q := by
  obtain ⟨x₁, y₁, hns₁, hP, hX₁, hY₁⟩ := h₁.eq
  obtain ⟨x₂, y₂, hns₂, hQ, hX₂, hY₂⟩ := h₂.eq
  have hx : x₁ = x₂ := mul_right_cancel₀ (pow_ne_zero 2 h₁.ne_zero) (hX₁.symm.trans hX₂)
  have hy : y₁ = y₂ := mul_right_cancel₀ (pow_ne_zero 3 h₁.ne_zero) (hY₁.symm.trans hY₂)
  subst hx hy
  exact hP.trans hQ.symm

theorem Rep.neg (hW : Short W) (h : Rep P X Y Z) : Rep (-P) X (-Y) Z := by
  obtain ⟨x, y, hns, hP, hX, hY⟩ := h.eq
  refine ⟨h.ne_zero, x, W.negY x y, (nonsingular_neg x y).mpr hns, by rw [hP, Point.neg_some], hX, ?_⟩
  rw [WeierstrassCurve.Affine.negY, hW.a₁, hW.a₃, hY]
  ring

/-- Two points with the same `Z` and the same `X` are the same or opposite. -/
theorem Rep.eq_or_neg (h₁ : Rep P X Y₁ Z) (h₂ : Rep Q X Y₂ Z) : P = Q ∨ P = -Q := by
  obtain ⟨x₁, y₁, hns₁, hP, hX₁, -⟩ := h₁.eq
  obtain ⟨x₂, y₂, hns₂, hQ, hX₂, -⟩ := h₂.eq
  have hx : x₁ = x₂ := mul_right_cancel₀ (pow_ne_zero 2 h₁.ne_zero) (hX₁.symm.trans hX₂)
  rw [hP, hQ]
  exact Point.X_eq_iff.mp hx

/-- The first point again, with the `Z` of the sum. -/
theorem coZ_same (h₁ : Rep P X₁ Y₁ Z) (hX : X₁ ≠ X₂) :
    Rep P (X₁ * (X₂ - X₁) ^ 2) (Y₁ * (X₂ * (X₂ - X₁) ^ 2 - X₁ * (X₂ - X₁) ^ 2)) (Z * (X₂ - X₁)) :=
  (h₁.scale (sub_ne_zero.mpr hX.symm)).of_eq rfl (by ring) rfl

variable [DecidableEq F]

/-- Where neither the sum nor the difference is zero the `X` differ. -/
theorem Rep.X_ne (h₁ : Rep P X₁ Y₁ Z) (h₂ : Rep Q X₂ Y₂ Z) (hsum : P + Q ≠ 0) (hdiff : P - Q ≠ 0) : X₁ ≠ X₂ := by
  rintro rfl
  rcases h₁.eq_or_neg h₂ with h | h
  · exact hdiff (sub_eq_zero.mpr h)
  · exact hsum (by rw [h, neg_add_cancel])

/-- The `X` of a sum. -/
def sumX (X₁ Y₁ X₂ Y₂ : F) : F := (Y₂ - Y₁) ^ 2 - X₁ * (X₂ - X₁) ^ 2 - X₂ * (X₂ - X₁) ^ 2

/-- The `Y` of a sum. -/
def sumY (X₁ Y₁ X₂ Y₂ : F) : F :=
  (Y₂ - Y₁) * (X₁ * (X₂ - X₁) ^ 2 - sumX X₁ Y₁ X₂ Y₂) - Y₁ * (X₂ * (X₂ - X₁) ^ 2 - X₁ * (X₂ - X₁) ^ 2)

/-- The sum of two points with the same `Z`. -/
theorem coZ_add (hW : Short W) (h₁ : Rep P X₁ Y₁ Z) (h₂ : Rep Q X₂ Y₂ Z) (hX : X₁ ≠ X₂) :
    Rep (P + Q) (sumX X₁ Y₁ X₂ Y₂) (sumY X₁ Y₁ X₂ Y₂) (Z * (X₂ - X₁)) := by
  obtain ⟨x₁, y₁, hns₁, hP, hX₁, hY₁⟩ := h₁.eq
  obtain ⟨x₂, y₂, hns₂, hQ, hX₂, hY₂⟩ := h₂.eq
  have hx : x₁ ≠ x₂ := fun h => hX (by rw [hX₁, hX₂, h])
  have hd : x₁ - x₂ ≠ 0 := sub_ne_zero.mpr hx
  refine ⟨mul_ne_zero h₁.ne_zero (sub_ne_zero.mpr hX.symm), _, _, _, by rw [hP, hQ]; exact Point.add_of_X_ne hx, ?_, ?_⟩
  all_goals
    rw [slope_of_X_ne hx]
    -- the slope of the line through the two points
    obtain ⟨l, hl⟩ : ∃ l, l = (y₁ - y₂) / (x₁ - x₂) := ⟨_, rfl⟩
    have hy : y₂ = y₁ - l * (x₁ - x₂) := by rw [hl, div_mul_cancel₀ _ hd]; ring
    rw [← hl, hX₁, hY₁, hX₂, hY₂, hy]
    simp only [sumX, sumY, addX, addY, negAddY, WeierstrassCurve.Affine.negY, hW.a₁, hW.a₂, hW.a₃]
    ring

/-- The difference of two points with the same `Z`. -/
theorem coZ_sub (hW : Short W) (h₁ : Rep P X₁ Y₁ Z) (h₂ : Rep Q X₂ Y₂ Z) (hX : X₁ ≠ X₂) :
    Rep (P - Q) (sumX X₁ Y₁ X₂ (-Y₂)) (sumY X₁ Y₁ X₂ (-Y₂)) (Z * (X₂ - X₁)) := by
  rw [sub_eq_add_neg]
  exact coZ_add hW h₁ (h₂.neg hW) hX

/-- Doubling for `a = -3`; `B` is half of three times `(X + Z^2) (X - Z^2)`. -/
theorem coZ_double (hW : Short W) (ha : W.a₄ = -3) (h2 : (2 : F) ≠ 0) (h : Rep P X Y Z) (hY : Y ≠ 0) {B : F}
    (hB : 2 * B = 3 * ((X + Z ^ 2) * (X - Z ^ 2))) :
    Rep (P + P) (B ^ 2 - X * Y ^ 2 - X * Y ^ 2) (B * (X * Y ^ 2 - (B ^ 2 - X * Y ^ 2 - X * Y ^ 2)) - (Y ^ 2) ^ 2)
      (Y * Z) := by
  obtain ⟨x, y, hns, hP, hX, hYy⟩ := h.eq
  have hy : y ≠ 0 := fun h0 => hY (by rw [hYy, h0, zero_mul])
  have hneg : W.negY x y = -y := by
    rw [WeierstrassCurve.Affine.negY, hW.a₁, hW.a₃]
    ring
  have hyne : y ≠ W.negY x y := by
    rw [hneg]
    intro h0
    have h2y : 2 * y = 0 := by linear_combination h0
    exact (mul_ne_zero h2 hy) h2y
  refine ⟨mul_ne_zero hY h.ne_zero, _, _, _, by rw [hP]; exact Point.add_self_of_Y_ne hyne, ?_, ?_⟩
  all_goals
    rw [slope_of_Y_ne rfl hyne, hneg]
    -- the slope of the tangent, and what `B` is by it
    obtain ⟨l, hl⟩ : ∃ l, l = (3 * x ^ 2 + 2 * W.a₂ * x + W.a₄ - W.a₁ * y) / (y - -y) := ⟨_, rfl⟩
    have hl' : l * (2 * y) = 3 * x ^ 2 - 3 := by
      rw [hl, hW.a₁, hW.a₂, ha, show y - -y = 2 * y by ring, div_mul_cancel₀ _ (mul_ne_zero h2 hy)]
      ring
    have hBl : B = l * y * Z ^ 4 := by
      refine mul_left_cancel₀ h2 ?_
      rw [hB, hX]
      linear_combination (-(Z ^ 4)) * hl'
    rw [← hl, hBl, hX, hYy]
    simp only [addX, addY, negAddY, WeierstrassCurve.Affine.negY, hW.a₁, hW.a₂, hW.a₃]
    ring

end CoZ
end TsbAgent
