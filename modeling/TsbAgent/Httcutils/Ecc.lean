/-
# Points of the curve

`tss-main/httcutils/src/sm/ecc.c`: the operations on points, in Jacobian coordinates and with a common `Z` that is
not stored (`XYcZ_add`, `XYcZ_addC`).  None of them looks for zero or for two equal points.

The group is that of `WeierstrassCurve.Affine` over the field of the prime: `Stands` says that the bytes of a point,
with a `Z`, stand for a point of the group, and each operation is a sum there as long as the points it adds are
neither equal nor opposite.  Doubling is for `a = -3` alone.
-/

import TsbAgent.Httcutils.EccPrime
import TsbAgent.Lib.CoZ
import Mathlib.Data.Nat.Bitwise

namespace TsbAgent
namespace Httcutils

open CoZ WeierstrassCurve.Affine

/-- `ecc_point`. -/
structure EccPoint where
  x : Vli
  y : Vli
deriving DecidableEq

/-! ### The functions -/

/-- `if (vli_test_bit(X1, 0)) { carry = vli_add(X1, X1, p); vli_rshift1(X1); X1[ECC_NUMWORD-1] |= carry << 7; }
else vli_rshift1(X1);` -/
def halfFast (v : Vli) : Vli :=
  if vliTestBit v 0 then
    let sum := vliAdd v eccP
    let half := vliRshift1 sum.2
    half.set (eccNumword - 1) (half.get (eccNumword - 1) ||| (sum.1 <<< 7))
  else vliRshift1 v

/-- `ecc_point_double_jacobian`: `X1`, `Y1` and `Z1`. -/
def eccPointDoubleJacobian (p : EccPoint) (z : Vli) : EccPoint × Vli :=
  if vliIsZero z then (p, z)
  else
    let t4 := modSquareFast p.y
    let t5 := modMultFast p.x t4
    let t4 := modSquareFast t4
    let y1 := modMultFast p.y z
    let z1 := modSquareFast z
    let x1 := modAdd p.x z1
    let z1 := modAdd z1 z1
    let z1 := modSub x1 z1
    let x1 := modMultFast x1 z1
    let z1 := modAdd x1 x1
    let x1 := modAdd x1 z1
    let x1 := halfFast x1
    let z1 := modSquareFast x1
    let z1 := modSub z1 t5
    let z1 := modSub z1 t5
    let t5 := modSub t5 z1
    let x1 := modMultFast x1 t5
    let t4 := modSub x1 t4
    (⟨z1, t4⟩, y1)

/-- `apply_z`. -/
def applyZ (p : EccPoint) (z : Vli) : EccPoint :=
  let t1 := modSquareFast z
  let x1 := modMultFast p.x t1
  let t1 := modMultFast t1 z
  ⟨x1, modMultFast p.y t1⟩

/-- `XYcZ_initial_double`: the double of the point, and the point, with the same `Z`. -/
def xycZInitialDouble (p : EccPoint) (initialZ : Option Vli) : EccPoint × EccPoint :=
  let z := initialZ.getD vliOne
  let double := eccPointDoubleJacobian (applyZ p z) z
  (double.1, applyZ p double.2)

/-- `XYcZ_add`: the first point again, and the sum. -/
def xycZAdd (p q : EccPoint) : EccPoint × EccPoint :=
  let t5 := modSub q.x p.x
  let t5 := modSquareFast t5
  let x1 := modMultFast p.x t5
  let x2 := modMultFast q.x t5
  let y2 := modSub q.y p.y
  let t5 := modSquareFast y2
  let t5 := modSub t5 x1
  let t5 := modSub t5 x2
  let x2 := modSub x2 x1
  let y1 := modMultFast p.y x2
  let x2 := modSub x1 t5
  let y2 := modMultFast y2 x2
  let y2 := modSub y2 y1
  (⟨x1, y1⟩, ⟨t5, y2⟩)

/-- `XYcZ_addC`: the difference, and the sum. -/
def xycZAddC (p q : EccPoint) : EccPoint × EccPoint :=
  let t5 := modSub q.x p.x
  let t5 := modSquareFast t5
  let x1 := modMultFast p.x t5
  let x2 := modMultFast q.x t5
  let t5 := modAdd q.y p.y
  let y2 := modSub q.y p.y
  let t6 := modSub x2 x1
  let y1 := modMultFast p.y t6
  let t6 := modAdd x1 x2
  let x2 := modSquareFast y2
  let x2 := modSub x2 t6
  let t7 := modSub x1 x2
  let y2 := modMultFast y2 t7
  let y2 := modSub y2 y1
  let t7 := modSquareFast t5
  let t7 := modSub t7 t6
  let t6 := modSub t7 x1
  let t6 := modMultFast t6 t5
  let y1 := modSub t6 y1
  (⟨t7, y1⟩, ⟨x2, y2⟩)

/-- `ecc_point_add`. -/
def eccPointAdd (left right : EccPoint) : EccPoint :=
  applyZ (xycZAdd left right).2 (modInv (modSub right.x left.x))

/-! ### The operations in the field -/

/-- The coordinates of `p` represent `X` and `Y`. -/
structure EccPoint.Holds (p : EccPoint) (X Y : Fp) : Prop where
  x : Httcutils.Holds p.x X
  y : Httcutils.Holds p.y Y

variable {p q : EccPoint} {X Y X₁ Y₁ X₂ Y₂ Z : Fp} {z : Vli}

theorem EccPoint.Holds.of_eq {X' Y' : Fp} (h : p.Holds X Y) (hX : X = X') (hY : Y = Y') : p.Holds X' Y' := by
  rw [← hX, ← hY]
  exact h

theorem EccPoint.Holds.applyZ (hp : p.Holds X Y) (hz : Httcutils.Holds z Z) :
    (applyZ p z).Holds (X * Z ^ 2) (Y * Z ^ 3) := by
  have ht := hz.square
  have hx := hp.x.mult ht
  have hy := hp.y.mult (ht.mult hz)
  exact ⟨hx, hy.of_eq (by ring)⟩

theorem EccPoint.Holds.xycZAdd (hp : p.Holds X₁ Y₁) (hq : q.Holds X₂ Y₂) :
    (xycZAdd p q).1.Holds (X₁ * (X₂ - X₁) ^ 2) (Y₁ * (X₂ * (X₂ - X₁) ^ 2 - X₁ * (X₂ - X₁) ^ 2)) ∧
      (xycZAdd p q).2.Holds (sumX X₁ Y₁ X₂ Y₂) (sumY X₁ Y₁ X₂ Y₂) := by
  have hA := (hq.x.sub hp.x).square
  have hB := hp.x.mult hA
  have hC := hq.x.mult hA
  have hD := hq.y.sub hp.y
  have hx := (hD.square.sub hB).sub hC
  have hE := hp.y.mult (hC.sub hB)
  have hy := (hD.mult (hB.sub hx)).sub hE
  exact ⟨⟨hB, hE⟩, hx, hy⟩

theorem EccPoint.Holds.xycZAddC (hp : p.Holds X₁ Y₁) (hq : q.Holds X₂ Y₂) :
    (xycZAddC p q).1.Holds (sumX X₁ Y₁ X₂ (-Y₂)) (sumY X₁ Y₁ X₂ (-Y₂)) ∧
      (xycZAddC p q).2.Holds (sumX X₁ Y₁ X₂ Y₂) (sumY X₁ Y₁ X₂ Y₂) := by
  have hA := (hq.x.sub hp.x).square
  have hB := hp.x.mult hA
  have hC := hq.x.mult hA
  have hS := hq.y.add hp.y
  have hD := hq.y.sub hp.y
  have hE := hp.y.mult (hC.sub hB)
  have hBC := hB.add hC
  have hx := hD.square.sub hBC
  have hy := (hD.mult (hB.sub hx)).sub hE
  have hx' := hS.square.sub hBC
  have hy' := ((hx'.sub hB).mult hS).sub hE
  refine ⟨⟨hx'.of_eq ?_, hy'.of_eq ?_⟩, hx.of_eq ?_, hy.of_eq ?_⟩
  all_goals
    simp only [sumX, sumY]
    ring

theorem vliTestBit_eq (v : Vli) (bit : ℕ) : vliTestBit v bit = v.val.testBit bit := by
  have hbyte : (v.get (bit / 8)).toNat.testBit (bit % 8) = v.val.testBit bit := by
    rw [v.toNat_get, show (256 : ℕ) = 2 ^ 8 from rfl, ← pow_mul, Nat.testBit_mod_two_pow, Nat.testBit_div_two_pow,
      Nat.mod_add_div, decide_eq_true (Nat.mod_lt bit (by decide)), Bool.true_and]
  rw [vliTestBit, Nat.and_two_pow, hbyte]
  cases v.val.testBit bit <;> simp

theorem two_ne_zero_fp : (2 : Fp) ≠ 0 := by
  intro h
  have hdvd := (ZMod.natCast_eq_zero_iff 2 eccP.val).mp (by exact_mod_cast h)
  exact absurd (Nat.le_of_dvd (by decide) hdvd) two_lt_eccP.not_ge

/-- Halving: an odd representative takes the prime first. -/
theorem two_mul_halfFast (v : Vli) :
    2 * (halfFast v).val = if v.val % 2 = 0 then v.val else v.val + eccP.val := by
  have hp : eccP.val < 2 ^ 256 := vli_lt eccP
  have hodd := eccP_odd
  rcases Nat.mod_two_eq_zero_or_one v.val with hz | h₁
  · have hbit : vliTestBit v 0 = false := by
      rw [vliTestBit_eq, Nat.testBit_zero]
      exact decide_eq_false (by omega)
    rw [halfFast, hbit, if_neg Bool.false_ne_true, if_pos hz, vliRshift1_val]
    omega
  · have hbit : vliTestBit v 0 = true := by
      rw [vliTestBit_eq, Nat.testBit_zero]
      exact decide_eq_true h₁
    obtain ⟨hc, hadd⟩ := vliAdd_spec v eccP
    have hsum := vli_lt (vliAdd v eccP).2
    have hhalf : (vliRshift1 (vliAdd v eccP).2).val < 2 ^ 255 := by
      rw [vliRshift1_val]
      omega
    rw [halfFast, hbit, if_pos rfl, if_neg (by omega)]
    dsimp only
    rcases Nat.le_one_iff_eq_zero_or_eq_one.mp hc with hc | hc
    · have hzero : (vliAdd v eccP).1 = 0 := UInt8.toNat_inj.mp hc
      have hset := (vliRshift1 (vliAdd v eccP).2).val_set ((vliRshift1 (vliAdd v eccP).2).get (eccNumword - 1))
        (show eccNumword - 1 < eccNumword by decide)
      rw [hzero, show (0 : UInt8) <<< 7 = 0 from rfl, UInt8.or_zero]
      rw [vliRshift1_val] at hset
      rw [hc] at hadd
      omega
    · have hone : (vliAdd v eccP).1 = 1 := UInt8.toNat_inj.mp hc
      rw [hone, show (1 : UInt8) <<< 7 = 0x80 from rfl, setTop_val hhalf, vliRshift1_val, Nat.mul_add, ← pow_succ']
      rw [hc, mul_one] at hadd
      omega

theorem Holds.half {v : Vli} {x y : Fp} (h : Holds v x) (hy : 2 * y = x) : Holds (halfFast v) y := by
  have hlt := h.lt
  have htwice := two_mul_halfFast v
  have hcast := congrArg (fun n : ℕ => (n : Fp)) htwice
  refine ⟨by split_ifs at htwice <;> omega, mul_left_cancel₀ two_ne_zero_fp ?_⟩
  rw [hy, ← h.eq]
  split_ifs at hcast
  · simpa only [Nat.cast_mul, Nat.cast_ofNat] using hcast
  · simpa only [Nat.cast_mul, Nat.cast_ofNat, Nat.cast_add, ZMod.natCast_self, add_zero] using hcast

theorem EccPoint.Holds.double (hp : p.Holds X Y) (hz : Httcutils.Holds z Z) (hZ : Z ≠ 0) {B : Fp}
    (hB : 2 * B = 3 * ((X + Z ^ 2) * (X - Z ^ 2))) :
    (eccPointDoubleJacobian p z).1.Holds (B ^ 2 - X * Y ^ 2 - X * Y ^ 2)
        (B * (X * Y ^ 2 - (B ^ 2 - X * Y ^ 2 - X * Y ^ 2)) - (Y ^ 2) ^ 2) ∧
      Httcutils.Holds (eccPointDoubleJacobian p z).2 (Y * Z) := by
  have hne : ¬ vliIsZero z = true := fun h => hZ (hz.eq_zero_iff.mpr ((vliIsZero_iff z).mp h))
  rw [eccPointDoubleJacobian, if_neg hne]
  have hY2 := hp.y.square
  have hXY := hp.x.mult hY2
  have hY4 := hY2.square
  have hz1 := hz.square
  have hx1 := hp.x.add hz1
  have hd := hx1.mult (hx1.sub (hz1.add hz1))
  have hb := (hd.add (hd.add hd)).half (hB.trans (by ring))
  have hx := (hb.square.sub hXY).sub hXY
  exact ⟨⟨hx, (hb.mult (hXY.sub hx)).sub hY4⟩, hp.y.mult hz⟩

/-! ### The points they stand for -/

variable {W : WeierstrassCurve.Affine Fp} {P Q : W.Point}

/-- The coordinates of `p`, with `Z`, stand for `P`. -/
def EccPoint.Stands (p : EccPoint) (P : W.Point) (Z : Fp) : Prop := ∃ X Y, p.Holds X Y ∧ Rep P X Y Z

/-- The bytes of `p` are the coordinates of `P`. -/
def EccPoint.IsPoint (p : EccPoint) (P : W.Point) : Prop := p.Stands P 1

theorem EccPoint.Stands.applyZ (hp : p.Stands P Z) {Z' : Fp} (hz : Httcutils.Holds z Z') (hne : Z' ≠ 0) :
    (applyZ p z).Stands P (Z * Z') := by
  obtain ⟨X, Y, hh, hr⟩ := hp
  exact ⟨_, _, hh.applyZ hz, hr.scale hne⟩

/-- A point is on the curve by one pair of coordinates only. -/
theorem EccPoint.IsPoint.unique (hp : p.IsPoint P) (hq : q.IsPoint P) : p = q := by
  obtain ⟨X, Y, hh, hr⟩ := hp
  obtain ⟨X', Y', hh', hr'⟩ := hq
  obtain ⟨hns, hP⟩ := hr.affine
  obtain ⟨hns', hP'⟩ := hr'.affine
  obtain ⟨hX, hY⟩ := Point.some.inj (hP.symm.trans hP')
  have hx : p.x = q.x := hh.x.unique (hX ▸ hh'.x)
  have hy : p.y = q.y := hh.y.unique (hY ▸ hh'.y)
  cases p
  cases q
  exact congrArg₂ EccPoint.mk hx hy

/-- `XYcZ_add`, with the `Z` of its results. -/
theorem EccPoint.Stands.xycZAdd (hW : Short W) (hp : p.Stands P Z) (hq : q.Stands Q Z) (hsum : P + Q ≠ 0)
    (hdiff : P - Q ≠ 0) :
    ∃ D, D ≠ 0 ∧ Httcutils.Holds (modSub q.x p.x) D ∧ (xycZAdd p q).1.Stands P (Z * D) ∧
      (xycZAdd p q).2.Stands (P + Q) (Z * D) := by
  obtain ⟨X₁, Y₁, hh₁, hr₁⟩ := hp
  obtain ⟨X₂, Y₂, hh₂, hr₂⟩ := hq
  have hX := hr₁.X_ne hr₂ hsum hdiff
  obtain ⟨hsame, hadd⟩ := hh₁.xycZAdd hh₂
  exact ⟨X₂ - X₁, sub_ne_zero.mpr hX.symm, hh₂.x.sub hh₁.x, ⟨_, _, hsame, coZ_same hr₁ hX⟩,
    _, _, hadd, coZ_add hW hr₁ hr₂ hX⟩

theorem EccPoint.Stands.xycZAddC (hW : Short W) (hp : p.Stands P Z) (hq : q.Stands Q Z) (hsum : P + Q ≠ 0)
    (hdiff : P - Q ≠ 0) :
    ∃ Z', (xycZAddC p q).1.Stands (P - Q) Z' ∧ (xycZAddC p q).2.Stands (P + Q) Z' := by
  obtain ⟨X₁, Y₁, hh₁, hr₁⟩ := hp
  obtain ⟨X₂, Y₂, hh₂, hr₂⟩ := hq
  have hX := hr₁.X_ne hr₂ hsum hdiff
  obtain ⟨hsub, hadd⟩ := hh₁.xycZAddC hh₂
  exact ⟨Z * (X₂ - X₁), ⟨_, _, hsub, coZ_sub hW hr₁ hr₂ hX⟩, _, _, hadd, coZ_add hW hr₁ hr₂ hX⟩

/-- A point that is not its own negative has `Y ≠ 0`. -/
theorem Y_ne_zero (hW : Short W) (h : Rep P X Y Z) (hP : P + P ≠ 0) : Y ≠ 0 := by
  rintro rfl
  have hneg := h.neg hW
  rw [neg_zero] at hneg
  have heq := h.point_unique hneg
  exact hP (by nth_rewrite 1 [heq]; exact neg_add_cancel P)

theorem EccPoint.Stands.double (hW : Short W) (ha : W.a₄ = -3) (hp : p.Stands P Z) (hz : Httcutils.Holds z Z)
    (hP : P + P ≠ 0) :
    ∃ Z', Z' ≠ 0 ∧ Httcutils.Holds (eccPointDoubleJacobian p z).2 (Z' * Z) ∧
      (eccPointDoubleJacobian p z).1.Stands (P + P) (Z' * Z) := by
  obtain ⟨X, Y, hh, hr⟩ := hp
  have hY := Y_ne_zero hW hr hP
  have hB : 2 * (3 * ((X + Z ^ 2) * (X - Z ^ 2)) / 2) = 3 * ((X + Z ^ 2) * (X - Z ^ 2)) :=
    mul_div_cancel₀ _ two_ne_zero_fp
  obtain ⟨hpt, hZ⟩ := hh.double hz hr.ne_zero hB
  exact ⟨Y, hY, hZ, _, _, hpt, coZ_double hW ha two_ne_zero_fp hr hY hB⟩

/-- `ecc_point_add`. -/
theorem EccPoint.IsPoint.add (hW : Short W) (hp : p.IsPoint P) (hq : q.IsPoint Q) (hsum : P + Q ≠ 0)
    (hdiff : P - Q ≠ 0) : (eccPointAdd p q).IsPoint (P + Q) := by
  obtain ⟨D, hD, hz, -, hadd⟩ := hp.xycZAdd hW hq hsum hdiff
  have happly := hadd.applyZ hz.inv (inv_ne_zero hD)
  rw [one_mul, mul_inv_cancel₀ hD] at happly
  exact happly

end Httcutils
end TsbAgent
