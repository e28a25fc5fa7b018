/-
# Multiples of a point

`ecc_point_mult` (`tss-main/httcutils/src/sm/ecc.c`) is a Montgomery ladder: it carries the multiples `m` and `m + 1`
of the point with a common `Z` (`Carries`), takes a bit of the scalar at a time, and finds the inverse of the last
`Z` from the coordinates of the point itself, which by then is one of the two it holds.

`EccPoint.IsPoint.mult`: the result is the multiple by the scalar, for a point with `x ≠ 0` and a scalar from two on,
as long as no addition of the ladder meets zero (`Regular`); for a point of odd order `N` above `2^255`, as the base
point, this leaves out the scalars `N - 1` and `N` (`regular_of_order`).  The ladder takes the top bit of the scalar
for set and never looks at bit `0` before its end, so the scalar one gives three times the point
(`EccPoint.IsPoint.mult_one`).
-/

import TsbAgent.Httcutils.Ecc
import TsbAgent.Lib.CoZLadder

namespace TsbAgent
namespace Httcutils

open CoZ WeierstrassCurve.Affine

/-! ### The functions -/

/-- One turn of the loop of `ecc_point_mult` on `R[0]` and `R[1]`; `nb` is the bit negated. -/
def ladderStep (bit : Bool) (r : EccPoint × EccPoint) : EccPoint × EccPoint :=
  if bit then
    let c := xycZAddC r.2 r.1
    let s := xycZAdd c.2 c.1
    (s.1, s.2)
  else
    let c := xycZAddC r.1 r.2
    let s := xycZAdd c.2 c.1
    (s.2, s.1)

/-- The loop of `ecc_point_mult`, from `i` down to one. -/
def ladder (scalar : Vli) : ℕ → EccPoint × EccPoint → EccPoint × EccPoint
  | 0, r => r
  | i + 1, r => ladder scalar i (ladderStep (vliTestBit scalar (i + 1)) r)

/-- The inverse of the last `Z`: from `R[1]`, `R[0]`, and from `R[1-nb]`, which is the point or its negative. -/
def finalZ (point x1 x0 b : EccPoint) : Vli :=
  let z := modSub x1.x x0.x
  let z := modMultFast z b.y
  let z := modMultFast z point.x
  let z := modInv z
  let z := modMultFast z point.y
  modMultFast z b.x

/-- What `ecc_point_mult` does after the loop. -/
def ladderEnd (point : EccPoint) (bit : Bool) (r : EccPoint × EccPoint) : EccPoint :=
  if bit then
    let c := xycZAddC r.2 r.1
    let z := finalZ point c.1 c.2 c.1
    let s := xycZAdd c.2 c.1
    applyZ s.1 z
  else
    let c := xycZAddC r.1 r.2
    let z := finalZ point c.2 c.1 c.1
    let s := xycZAdd c.2 c.1
    applyZ s.2 z

/-- `ecc_point_mult`. -/
def eccPointMult (point : EccPoint) (scalar : Vli) (initialZ : Option Vli) : EccPoint :=
  let double := xycZInitialDouble point initialZ
  ladderEnd point (vliTestBit scalar 0) (ladder scalar (vliNumBits scalar - 2) (double.2, double.1))

/-! ### A turn of the ladder -/

variable {W : WeierstrassCurve.Affine Fp} {P : W.Point} {point : EccPoint} {r : EccPoint × EccPoint} {m : ℕ}

/-- `R[0]` and `R[1]` stand for the multiples `m` and `m + 1`. -/
def Carries (r : EccPoint × EccPoint) (P : W.Point) (m : ℕ) : Prop :=
  ∃ Z, r.1.Stands (m • P) Z ∧ r.2.Stands ((m + 1) • P) Z

/-- No addition of a turn from `m` on meets zero. -/
structure Regular (P : W.Point) (m : ℕ) : Prop where
  one : P ≠ 0
  even : (2 * m) • P ≠ 0
  odd : (2 * m + 1) • P ≠ 0
  next : (2 * m + 2) • P ≠ 0

/-- `XYcZ_addC` on the two: the point, or its negative, and the multiple `2 m + 1`. -/
theorem Carries.addC (hW : Short W) (h : Carries r P m) (hreg : Regular P m) :
    (∃ Z, (xycZAddC r.2 r.1).1.Stands P Z ∧ (xycZAddC r.2 r.1).2.Stands ((2 * m + 1) • P) Z) ∧
      ∃ Z, (xycZAddC r.1 r.2).1.Stands (-P) Z ∧ (xycZAddC r.1 r.2).2.Stands ((2 * m + 1) • P) Z := by
  obtain ⟨Z, h₀, h₁⟩ := h
  have hsum := succ_nsmul_add P m
  have hdiff := succ_nsmul_sub P m
  constructor
  · have hc := h₁.xycZAddC hW h₀ (by rw [hsum]; exact hreg.odd) (by rw [hdiff]; exact hreg.one)
    rwa [hsum, hdiff] at hc
  · have hsum' := (add_comm _ _).trans hsum
    have hdiff' : m • P - (m + 1) • P = -P := by rw [← neg_sub, hdiff]
    have hc := h₀.xycZAddC hW h₁ (by rw [hsum']; exact hreg.odd) (by rw [hdiff', neg_ne_zero]; exact hreg.one)
    rwa [hsum', hdiff'] at hc

/-- **A turn of the ladder** goes from `m` to `2 m` and the bit. -/
theorem Carries.step (hW : Short W) (h : Carries r P m) (hreg : Regular P m) (bit : Bool) :
    Carries (ladderStep bit r) P (2 * m + bit.toNat) := by
  obtain ⟨⟨Z, hd, hs⟩, Z', hd', hs'⟩ := h.addC hW hreg
  cases bit with
  | true =>
      obtain ⟨D, -, -, hsame, hadd⟩ := hs.xycZAdd hW hd (by rw [odd_add]; exact hreg.next)
        (by rw [odd_sub]; exact hreg.even)
      rw [odd_add] at hadd
      exact ⟨_, hsame, hadd⟩
  | false =>
      obtain ⟨D, -, -, hsame, hadd⟩ := hs'.xycZAdd hW hd' (by rw [← sub_eq_add_neg, odd_sub]; exact hreg.even)
        (by rw [sub_neg_eq_add, odd_add]; exact hreg.next)
      rw [← sub_eq_add_neg, odd_sub] at hadd
      exact ⟨_, hadd, hsame⟩

/-- The loop carries the scalar shifted down, to bit `1`. -/
theorem Carries.ladder (hW : Short W) (scalar : Vli) (i : ℕ) {r : EccPoint × EccPoint}
    (h : Carries r P (scalar.val / 2 ^ (i + 1)))
    (hreg : ∀ j, 1 ≤ j → j ≤ i → Regular P (scalar.val / 2 ^ (j + 1))) :
    Carries (ladder scalar i r) P (scalar.val / 2) := by
  induction i generalizing r with
  | zero => rwa [zero_add, pow_one] at h
  | succ i ih =>
      rw [Httcutils.ladder, vliTestBit_eq]
      refine ih ?_ fun j h₁ hj => hreg j h₁ (hj.trans i.le_succ)
      rw [div_pow_succ]
      exact h.step hW (hreg (i + 1) (by omega) le_rfl) _

/-! ### The end of the ladder -/

/-- The inverse of the last `Z`, from the point and the one of the two that is the point or its negative. -/
theorem finalZ_holds {x1 x0 b : EccPoint} {x y Yb Z D E : Fp} (hpoint : point.Holds x y)
    (hE : Holds (modSub x1.x x0.x) E) (hb : b.Holds (x * Z ^ 2) Yb) (hYb : E * Yb = D * (y * Z ^ 3)) (hx : x ≠ 0)
    (hy : y ≠ 0) (hZ : Z ≠ 0) (hD : D ≠ 0) : Holds (finalZ point x1 x0 b) (Z * D)⁻¹ := by
  have hz := ((((hE.mult hb.y).mult hpoint.x).inv).mult hpoint.y).mult hb.x
  refine hz.of_eq ?_
  rw [hYb]
  field_simp

/-- **The end of `ecc_point_mult`**: the coordinates of the multiple `2 m` and the last bit. -/
theorem Carries.ladderEnd (hW : Short W) (h : Carries r P m) (hreg : Regular P m) (hP : P + P ≠ 0)
    (hpoint : point.IsPoint P) (hx : point.x.val ≠ 0) (bit : Bool) :
    (ladderEnd point bit r).IsPoint ((2 * m + bit.toNat) • P) := by
  obtain ⟨⟨Z, hd, hs⟩, Z', hd', hs'⟩ := h.addC hW hreg
  obtain ⟨x, y, hh, hrep⟩ := hpoint
  have hy := Y_ne_zero hW hrep hP
  have hx0 : x ≠ 0 := fun h0 => hx (hh.x.eq_zero_iff.mp h0)
  obtain ⟨hns, rfl⟩ := hrep.affine
  cases bit with
  | true =>
      obtain ⟨D, hD, hE, hsame, -⟩ := hs.xycZAdd hW hd (by rw [odd_add]; exact hreg.next)
        (by rw [odd_sub]; exact hreg.even)
      obtain ⟨X₁, Y₁, hb, hr₁⟩ := hd
      obtain ⟨rfl, rfl⟩ := hr₁.coords
      have hz := finalZ_holds (D := D) hh hE hb rfl hx0 hy hr₁.ne_zero hD
      have hfinal := hsame.applyZ hz (inv_ne_zero (mul_ne_zero hr₁.ne_zero hD))
      rw [mul_inv_cancel₀ (mul_ne_zero hr₁.ne_zero hD)] at hfinal
      exact hfinal
  | false =>
      obtain ⟨D, hD, hE, -, hadd⟩ := hs'.xycZAdd hW hd' (by rw [← sub_eq_add_neg, odd_sub]; exact hreg.even)
        (by rw [sub_neg_eq_add, odd_add]; exact hreg.next)
      rw [← sub_eq_add_neg, odd_sub] at hadd
      obtain ⟨X₁, Y₁, hb, hr₁⟩ := hd'
      obtain ⟨X₂, Y₂, hs₂, -⟩ := hs'
      have hneg := hr₁.neg hW
      rw [neg_neg] at hneg
      obtain ⟨rfl, hYb⟩ := hneg.coords
      -- the difference of the two `x` is taken the other way
      have hDeq : D = x * Z' ^ 2 - X₂ := hE.eq.symm.trans (hb.x.sub hs₂.x).eq
      have hE' := (hs₂.x.sub hb.x).of_eq (show _ = -D by rw [hDeq]; ring)
      have hz := finalZ_holds (D := D) hh hE' hb (by rw [← hYb]; ring) hx0 hy hr₁.ne_zero hD
      have hfinal := hadd.applyZ hz (inv_ne_zero (mul_ne_zero hr₁.ne_zero hD))
      rw [mul_inv_cancel₀ (mul_ne_zero hr₁.ne_zero hD)] at hfinal
      exact hfinal

/-! ### The whole function -/

/-- The first two points of the ladder: the point and its double, for every `Z` it may start with. -/
theorem EccPoint.IsPoint.initialDouble (hW : Short W) (ha : W.a₄ = -3) (hpoint : point.IsPoint P) (hP : P + P ≠ 0)
    {initialZ : Option Vli} (hz : ∀ z ∈ initialZ, z.val < eccP.val ∧ z.val ≠ 0) :
    Carries ((xycZInitialDouble point initialZ).2, (xycZInitialDouble point initialZ).1) P 1 := by
  obtain ⟨Z, hZ, hne⟩ : ∃ Z, Httcutils.Holds (initialZ.getD vliOne) Z ∧ Z ≠ 0 := by
    cases initialZ with
    | none => exact ⟨1, holds_vliOne, one_ne_zero⟩
    | some z =>
        obtain ⟨hlt, hnz⟩ := hz z rfl
        have hh : Httcutils.Holds z (z.val : Fp) := ⟨hlt, rfl⟩
        exact ⟨_, hh, fun h0 => hnz (hh.eq_zero_iff.mp h0)⟩
  have hscaled := hpoint.applyZ hZ hne
  rw [one_mul] at hscaled
  obtain ⟨Z', hZ', hd, hdouble⟩ := hscaled.double hW ha hZ hP
  have hsame := hpoint.applyZ hd (mul_ne_zero hZ' hne)
  rw [one_mul] at hsame
  refine ⟨Z' * Z, ?_, ?_⟩
  · rw [one_nsmul]
    exact hsame
  · rw [one_add_one_eq_two, two_nsmul]
    exact hdouble

/-- The two multiples the loop starts with are of the top bit of the scalar. -/
theorem top_bit {k : ℕ} (hk : 2 ≤ k) : k / 2 ^ (Nat.size k - 2 + 1) = 1 := by
  have hsize : 2 ≤ Nat.size k := by
    rw [← Nat.lt_iff_add_one_le, Nat.lt_size]
    exact hk
  have hlt := Nat.lt_size_self k
  have hle : 2 ^ (Nat.size k - 1) ≤ k := Nat.lt_size.mp (by omega)
  have hpow : 2 ^ Nat.size k = 2 * 2 ^ (Nat.size k - 1) := by
    rw [← pow_succ']
    congr 1
    omega
  rw [show Nat.size k - 2 + 1 = Nat.size k - 1 by omega]
  exact Nat.div_eq_of_lt_le (by omega) (by omega)

/-- **`ecc_point_mult` is the multiple by the scalar**, from two on, where no addition of the ladder meets zero. -/
theorem EccPoint.IsPoint.mult (hW : Short W) (ha : W.a₄ = -3) (hpoint : point.IsPoint P) (hx : point.x.val ≠ 0)
    {scalar : Vli} (hk : 2 ≤ scalar.val)
    (hreg : ∀ j, 1 ≤ j → j < Nat.size scalar.val → Regular P (scalar.val / 2 ^ j)) {initialZ : Option Vli}
    (hz : ∀ z ∈ initialZ, z.val < eccP.val ∧ z.val ≠ 0) :
    (eccPointMult point scalar initialZ).IsPoint (scalar.val • P) := by
  have hsize : 2 ≤ Nat.size scalar.val := by
    rw [← Nat.lt_iff_add_one_le, Nat.lt_size]
    exact hk
  have htop := top_bit hk
  have hfirst := hreg (Nat.size scalar.val - 2 + 1) (by omega) (by omega)
  rw [htop] at hfirst
  have hP : P + P ≠ 0 := by
    rw [← two_nsmul]
    exact hfirst.even
  have hstart := hpoint.initialDouble hW ha hP hz
  rw [← htop] at hstart
  have hloop := hstart.ladder hW scalar (Nat.size scalar.val - 2) fun j _ hj => hreg (j + 1) (by omega) (by omega)
  have hlast := hreg 1 le_rfl (by omega)
  rw [pow_one] at hlast
  have hend := hloop.ladderEnd hW hlast hP hpoint hx (vliTestBit scalar 0)
  have hbit : 2 * (scalar.val / 2) + (vliTestBit scalar 0).toNat = scalar.val := by
    have hsucc := div_pow_succ scalar.val 0
    rw [pow_zero, Nat.div_one, zero_add, pow_one] at hsucc
    rw [vliTestBit_eq]
    exact hsucc.symm
  rw [hbit] at hend
  rw [eccPointMult, vliNumBits_eq]
  exact hend

/-- With the scalar one the loop does not run, and the end of the ladder takes bit `0` after a top bit it has not
seen. -/
theorem EccPoint.IsPoint.mult_one (hW : Short W) (ha : W.a₄ = -3) (hpoint : point.IsPoint P) (hx : point.x.val ≠ 0)
    (hreg : Regular P 1) : (eccPointMult point vliOne none).IsPoint (3 • P) := by
  have hP : P + P ≠ 0 := by
    rw [← two_nsmul]
    exact hreg.even
  have hz : ∀ z ∈ (none : Option Vli), z.val < eccP.val ∧ z.val ≠ 0 := by simp
  have hstart := hpoint.initialDouble hW ha hP hz
  have hend := hstart.ladderEnd hW hreg hP hpoint hx true
  have hloop : vliNumBits vliOne - 2 = 0 := by rw [vliNumBits_eq, vliOne_val, Nat.size_one]
  have hbit : vliTestBit vliOne 0 = true := by rw [vliTestBit_eq, vliOne_val]; rfl
  rw [eccPointMult, hloop, hbit, Httcutils.ladder]
  exact hend

/-! ### Points of a large odd order -/

/-- For a point of odd order above `2^255` the ladder meets zero for the scalars `N - 1` and `N` only. -/
theorem regular_of_order {N k : ℕ} (hN : addOrderOf P = N) (hodd : N % 2 = 1) (hlarge : 2 ^ 255 + 1 < N)
    (hk : k < 2 ^ 256) (h₁ : k ≠ N - 1) (h₂ : k ≠ N) {j : ℕ} (hj : 1 ≤ j) (hsize : j < Nat.size k) :
    Regular P (k / 2 ^ j) := by
  obtain ⟨m, hm⟩ : ∃ m, m = k / 2 ^ j := ⟨_, rfl⟩
  have hpos : 1 ≤ m := by
    rw [hm, Nat.one_le_div_iff (Nat.pow_pos (by decide))]
    exact Nat.lt_size.mp hsize
  have hnot : ∀ n, 0 < n → n < 2 * N → n ≠ N → n • P ≠ 0 := by
    intro n h0 hlt hne hz
    have hdvd := addOrderOf_dvd_of_nsmul_eq_zero hz
    rw [hN] at hdvd
    obtain ⟨c, rfl⟩ := hdvd
    rcases c with _ | _ | c
    · omega
    · omega
    · have hle : N * 2 ≤ N * (c + 1 + 1) := Nat.mul_le_mul_left N (by omega)
      omega
  have hmul := Nat.div_mul_le_self k (2 ^ j)
  rw [← hm] at hmul
  have hbound : 2 * m + 1 ≠ N ∧ 2 * m ≤ k := by
    rcases j with _ | _ | j
    · omega
    · rw [zero_add, pow_one] at hm
      omega
    · -- the multiple is below half of the scalars there are
      have hle : 4 * m ≤ k := by
        refine le_trans ?_ hmul
        rw [Nat.mul_comm, pow_succ, pow_succ, Nat.mul_assoc]
        exact Nat.mul_le_mul_left m (Nat.le_mul_of_pos_left _ (Nat.pow_pos (by decide)))
      omega
  rw [← hm]
  refine ⟨?_, hnot _ (by omega) (by omega) (by omega), hnot _ (by omega) (by omega) hbound.1,
    hnot _ (by omega) (by omega) (by omega)⟩
  have hone := hnot 1 (by omega) (by omega) (by omega)
  rwa [one_nsmul] at hone

end Httcutils
end TsbAgent
