/-
# Multiples by a ladder

The multiples `m` and `m + 1` of a point give `2 m`, `2 m + 1` and `2 m + 2`, so a bit at a time any multiple
(`div_pow_succ`).  On a curve modulo a prime this can be computed on pairs of numbers, with a common `Z` that is not
needed (`TsbAgent.Lib.CoZ`): `run` stops where an addition would meet two equal `x`, and otherwise carries the two
multiples (`run_spec`).  Where they are opposite, `2 m + 1` times the point is zero (`nsmul_eq_zero`), which is how the
order of a point is found.
-/

import TsbAgent.Lib.CoZ
import Mathlib.Algebra.Field.ZMod
import Mathlib.Data.Nat.Bitwise

namespace TsbAgent
namespace CoZ

open WeierstrassCurve.Affine

/-! ### Two multiples and a bit -/

section Group

variable {A : Type*} [AddCommGroup A]

theorem succ_nsmul_add (P : A) (m : ℕ) : (m + 1) • P + m • P = (2 * m + 1) • P := by
  rw [← add_nsmul]
  congr 1
  omega

theorem succ_nsmul_sub (P : A) (m : ℕ) : (m + 1) • P - m • P = P := by
  rw [succ_nsmul, add_sub_cancel_left]

theorem odd_add (P : A) (m : ℕ) : (2 * m + 1) • P + P = (2 * m + 2) • P := (succ_nsmul P (2 * m + 1)).symm

theorem odd_sub (P : A) (m : ℕ) : (2 * m + 1) • P - P = (2 * m) • P := by
  rw [succ_nsmul, add_sub_cancel_right]

end Group

/-- A number shifted down by one bit less. -/
theorem div_pow_succ (k i : ℕ) : k / 2 ^ i = 2 * (k / 2 ^ (i + 1)) + (k.testBit i).toNat := by
  rw [Nat.testBit_eq_decide_div_mod_eq, pow_succ, ← Nat.div_div_eq_div_mul]
  rcases Nat.mod_two_eq_zero_or_one (k / 2 ^ i) with hz | h₁
  · rw [decide_eq_false (by omega), Bool.toNat_false]
    omega
  · rw [decide_eq_true h₁, Bool.toNat_true]
    omega

/-! ### On numbers modulo a prime -/

/-- `a - b` modulo `q`. -/
def subMod (q a b : ℕ) : ℕ := (a + (q - 1) * b) % q

/-- The sum of two points with the same `Z`. -/
def sumMod (q : ℕ) (u v : ℕ × ℕ) : ℕ × ℕ :=
  let d := subMod q v.1 u.1
  let b := u.1 * (d * d) % q
  let c := v.1 * (d * d) % q
  let e := subMod q v.2 u.2
  let x := subMod q (subMod q (e * e) b) c
  (x, subMod q (e * subMod q b x) (u.2 * subMod q c b))

/-- The first point with the `Z` of the sum. -/
def sameMod (q : ℕ) (u v : ℕ × ℕ) : ℕ × ℕ :=
  let d := subMod q v.1 u.1
  (u.1 * (d * d) % q, u.2 * (d * d * d) % q)

/-- The opposite point. -/
def negMod (q : ℕ) (u : ℕ × ℕ) : ℕ × ℕ := (u.1, subMod q 0 u.2)

/-- A turn of the ladder. -/
def turn (q : ℕ) (bit : Bool) (r : (ℕ × ℕ) × (ℕ × ℕ)) : Option ((ℕ × ℕ) × (ℕ × ℕ)) :=
  let sum := sumMod q r.2 r.1
  let diff := sumMod q r.2 (negMod q r.1)
  if r.1.1 % q = r.2.1 % q ∨ sum.1 % q = diff.1 % q then none
  else if bit then some (sameMod q sum diff, sumMod q sum diff)
  else some (sumMod q sum (negMod q diff), sameMod q sum diff)

/-- The turns for the bits of `k` below `i`. -/
def run (q k : ℕ) : ℕ → (ℕ × ℕ) × (ℕ × ℕ) → Option ((ℕ × ℕ) × (ℕ × ℕ))
  | 0, r => some r
  | i + 1, r =>
      match turn q (k.testBit i) r with
      | none => none
      | some r => run q k i r

/-- The point and its double with the same `Z`, for `a = -3`. -/
def start (q : ℕ) (u : ℕ × ℕ) : (ℕ × ℕ) × (ℕ × ℕ) :=
  let b := 3 * (u.1 * u.1 + (q - 1)) * ((q + 1) / 2) % q
  let s := u.1 * (u.2 * u.2) % q
  let x := subMod q (subMod q (b * b) s) s
  ((s, u.2 * (u.2 * (u.2 * u.2)) % q), (x, subMod q (b * subMod q s x) (u.2 * u.2 * (u.2 * u.2))))

/-- The ladder for `k` goes through and ends with opposite multiples. -/
def endsOpposite (q k i : ℕ) (u : ℕ × ℕ) : Bool :=
  match run q k i (start q u) with
  | none => false
  | some r => r.1.1 % q = r.2.1 % q ∧ (r.1.2 + r.2.2) % q = 0

/-- The ladder for `k` goes through and ends with a first coordinate that is not zero. -/
def endsNonzero (q k i : ℕ) (u : ℕ × ℕ) : Bool :=
  match run q k i (start q u) with
  | none => false
  | some r => r.1.1 % q ≠ 0

section Prime

variable {q : ℕ} [Fact q.Prime] {W : WeierstrassCurve.Affine (ZMod q)} {P Q : W.Point} {u v : ℕ × ℕ} {Z : ZMod q}

/-- The numbers, with `Z`, stand for the point. -/
def RepMod (P : W.Point) (u : ℕ × ℕ) (Z : ZMod q) : Prop := Rep P (u.1 : ZMod q) (u.2 : ZMod q) Z

@[simp] theorem cast_subMod (a b : ℕ) : ((subMod q a b : ℕ) : ZMod q) = a - b := by
  have hpos : 1 ≤ q := (Fact.out : q.Prime).one_le
  rw [subMod, ZMod.natCast_mod, Nat.cast_add, Nat.cast_mul, Nat.cast_sub hpos, ZMod.natCast_self]
  push_cast
  ring

theorem RepMod.neg (hW : Short W) (h : RepMod P u Z) : RepMod (-P) (negMod q u) Z := by
  refine (Rep.neg hW h).of_eq rfl ?_ rfl
  rw [negMod, cast_subMod, Nat.cast_zero, zero_sub]

theorem RepMod.same (h : RepMod P u Z) (hX : (u.1 : ZMod q) ≠ v.1) :
    RepMod P (sameMod q u v) (Z * ((v.1 : ZMod q) - u.1)) := by
  refine (coZ_same h hX).of_eq ?_ ?_ rfl
  all_goals
    simp only [sameMod, ZMod.natCast_mod, Nat.cast_mul, cast_subMod]
    ring

theorem RepMod.add (hW : Short W) (h₁ : RepMod P u Z) (h₂ : RepMod Q v Z) (hX : (u.1 : ZMod q) ≠ v.1) :
    RepMod (P + Q) (sumMod q u v) (Z * ((v.1 : ZMod q) - u.1)) := by
  refine (coZ_add hW h₁ h₂ hX).of_eq ?_ ?_ rfl
  all_goals
    simp only [sumMod, sumX, sumY, ZMod.natCast_mod, Nat.cast_mul, cast_subMod]
    ring

theorem cast_ne {a b : ℕ} (h : ¬ a % q = b % q) : (a : ZMod q) ≠ b := fun he =>
  h ((ZMod.natCast_eq_natCast_iff' a b q).mp he)

/-- The two multiples with the same `Z`. -/
def Carried (P : W.Point) (m : ℕ) (r : (ℕ × ℕ) × (ℕ × ℕ)) : Prop :=
  ∃ Z, RepMod (m • P) r.1 Z ∧ RepMod ((m + 1) • P) r.2 Z

theorem Carried.turn (hW : Short W) {m : ℕ} {bit : Bool} {r r' : (ℕ × ℕ) × (ℕ × ℕ)} (h : Carried P m r)
    (hturn : turn q bit r = some r') : Carried P (2 * m + bit.toNat) r' := by
  obtain ⟨Z, h₀, h₁⟩ := h
  rw [CoZ.turn] at hturn
  rcases em (r.1.1 % q = r.2.1 % q ∨ (sumMod q r.2 r.1).1 % q = (sumMod q r.2 (negMod q r.1)).1 % q) with hstop | hgo
  · rw [if_pos hstop] at hturn
    exact absurd hturn.symm (Option.some_ne_none r')
  · rw [if_neg hgo] at hturn
    rw [not_or] at hgo
    have hX : (r.2.1 : ZMod q) ≠ r.1.1 := (cast_ne hgo.1).symm
    have hX' := cast_ne hgo.2
    have hsum := RepMod.add hW h₁ h₀ hX
    have hdiff := RepMod.add hW h₁ (h₀.neg hW) hX
    rw [succ_nsmul_add] at hsum
    rw [← sub_eq_add_neg, succ_nsmul_sub] at hdiff
    cases bit with
    | true =>
        rw [if_pos rfl] at hturn
        obtain rfl := Option.some.inj hturn
        have hlast := RepMod.add hW hsum hdiff hX'
        rw [odd_add] at hlast
        exact ⟨_, hsum.same hX', hlast⟩
    | false =>
        rw [if_neg Bool.false_ne_true] at hturn
        obtain rfl := Option.some.inj hturn
        have hlast := RepMod.add hW hsum (hdiff.neg hW) hX'
        rw [← sub_eq_add_neg, odd_sub] at hlast
        exact ⟨_, hlast, hsum.same hX'⟩

theorem run_spec (hW : Short W) {k : ℕ} (i : ℕ) {r r' : (ℕ × ℕ) × (ℕ × ℕ)} (h : Carried P (k / 2 ^ i) r)
    (hrun : run q k i r = some r') : Carried P k r' := by
  induction i generalizing r with
  | zero =>
      rw [run] at hrun
      obtain rfl := Option.some.inj hrun
      rwa [pow_zero, Nat.div_one] at h
  | succ i ih =>
      rw [run] at hrun
      rcases hturn : CoZ.turn q (k.testBit i) r with _ | r₁
      · rw [hturn] at hrun
        exact absurd hrun.symm (Option.some_ne_none r')
      · rw [hturn] at hrun
        have hstep := h.turn hW hturn
        rw [← div_pow_succ] at hstep
        exact ih hstep hrun

/-- The double of a point, with its second coordinate for `Z`. -/
theorem RepMod.double (hW : Short W) (ha : W.a₄ = -3) (hq : 2 < q) (h : RepMod P u 1) (hy : (u.2 : ZMod q) ≠ 0) :
    RepMod (P + P) (start q u).2 u.2 := by
  have hpos : 1 ≤ q := by omega
  have hodd : q % 2 = 1 := ((Fact.out : q.Prime).eq_two_or_odd).resolve_left (by omega)
  have h2 : ((2 : ℕ) : ZMod q) ≠ 0 := fun h0 =>
    absurd (Nat.le_of_dvd (by decide) ((ZMod.natCast_eq_zero_iff 2 q).mp h0)) (by omega)
  have hhalf : ((2 : ℕ) : ZMod q) * (((q + 1) / 2 : ℕ) : ZMod q) = 1 := by
    rw [← Nat.cast_mul, Nat.mul_div_cancel' (by omega), Nat.cast_add, ZMod.natCast_self, zero_add, Nat.cast_one]
  rw [Nat.cast_ofNat] at h2 hhalf
  have hB : (2 : ZMod q) * (3 * ((u.1 : ZMod q) ^ 2 - 1) * (((q + 1) / 2 : ℕ) : ZMod q)) =
      3 * (((u.1 : ZMod q) + 1 ^ 2) * (u.1 - 1 ^ 2)) := by
    linear_combination (3 * ((u.1 : ZMod q) ^ 2 - 1)) * hhalf
  refine (coZ_double hW ha h2 h hy hB).of_eq ?_ ?_ (by ring)
  all_goals
    simp only [start, cast_subMod, ZMod.natCast_mod, Nat.cast_mul, Nat.cast_add, Nat.cast_sub hpos, ZMod.natCast_self]
    push_cast
    ring

/-- The two multiples the ladder starts with. -/
theorem carried_start (hW : Short W) (ha : W.a₄ = -3) (hq : 2 < q) (h : RepMod P u 1) (hy : (u.2 : ZMod q) ≠ 0) :
    Carried P 1 (start q u) := by
  refine ⟨u.2, ?_, ?_⟩
  · rw [one_nsmul]
    refine (Rep.scale h hy).of_eq ?_ ?_ (by ring)
    all_goals
      simp only [start, ZMod.natCast_mod, Nat.cast_mul]
      ring
  · rw [one_add_one_eq_two, two_nsmul]
    exact RepMod.double hW ha hq h hy

/-- `v` are the coordinates of the double. -/
def isDouble (q : ℕ) (u v : ℕ × ℕ) : Bool :=
  v.1 * u.2 ^ 2 % q = (start q u).2.1 % q ∧ v.2 * u.2 ^ 3 % q = (start q u).2.2 % q

theorem RepMod.of_isDouble (hW : Short W) (ha : W.a₄ = -3) (hq : 2 < q) (h : RepMod P u 1)
    (hy : (u.2 : ZMod q) ≠ 0) (hv : isDouble q u v = true) : RepMod (P + P) v 1 := by
  have hdouble := RepMod.double hW ha hq h hy
  obtain ⟨hx', hy'⟩ := of_decide_eq_true hv
  have hX := (ZMod.natCast_eq_natCast_iff' _ _ _).mpr hx'
  have hY := (ZMod.natCast_eq_natCast_iff' _ _ _).mpr hy'
  push_cast at hX hY
  have hscaled := Rep.scale hdouble (inv_ne_zero hy)
  refine hscaled.of_eq ?_ ?_ (mul_inv_cancel₀ hy).symm
  · rw [← hX, mul_assoc, ← mul_pow, mul_inv_cancel₀ hy, one_pow, mul_one]
  · rw [← hY, mul_assoc, ← mul_pow, mul_inv_cancel₀ hy, one_pow, mul_one]

/-- Opposite multiples `m` and `m + 1`. -/
theorem nsmul_eq_zero (hW : Short W) {m : ℕ} {r : (ℕ × ℕ) × (ℕ × ℕ)} (h : Carried P m r)
    (hx : r.1.1 % q = r.2.1 % q) (hy : (r.1.2 + r.2.2) % q = 0) : (2 * m + 1) • P = 0 := by
  obtain ⟨Z, h₀, h₁⟩ := h
  have hX : (r.1.1 : ZMod q) = r.2.1 := (ZMod.natCast_eq_natCast_iff' _ _ _).mpr hx
  have hY : (r.1.2 : ZMod q) + r.2.2 = 0 := by
    rw [← Nat.cast_add, ZMod.natCast_eq_zero_iff]
    exact Nat.dvd_of_mod_eq_zero hy
  have hneg : Rep (-((m + 1) • P)) (r.1.1 : ZMod q) (r.1.2 : ZMod q) Z :=
    (Rep.neg hW h₁).of_eq hX (by linear_combination hY) rfl
  have heq := Rep.point_unique h₀ hneg
  rw [← succ_nsmul_add, heq, add_neg_cancel]

theorem nsmul_eq_zero_of_endsOpposite (hW : Short W) (ha : W.a₄ = -3) (hq : 2 < q) (h : RepMod P u 1)
    (hy : (u.2 : ZMod q) ≠ 0) {k i : ℕ} (hk : k / 2 ^ i = 1) (hend : endsOpposite q k i u = true) :
    (2 * k + 1) • P = 0 := by
  have hstart := carried_start hW ha hq h hy
  rw [← hk] at hstart
  rw [endsOpposite] at hend
  rcases hrun : run q k i (start q u) with _ | r
  · rw [hrun] at hend
    exact absurd hend Bool.false_ne_true
  · rw [hrun] at hend
    have hopp := of_decide_eq_true hend
    exact nsmul_eq_zero hW (run_spec hW i hstart hrun) hopp.1 hopp.2

/-- The first coordinate of a multiple, found not to be zero. -/
theorem ne_zero_of_endsNonzero (hW : Short W) (ha : W.a₄ = -3) (hq : 2 < q) (h : RepMod P u 1)
    (hy : (u.2 : ZMod q) ≠ 0) {k i : ℕ} (hk : k / 2 ^ i = 1) (hend : endsNonzero q k i u = true) {X Y : ZMod q}
    (hrep : Rep (k • P) X Y 1) : X ≠ 0 := by
  have hstart := carried_start hW ha hq h hy
  rw [← hk] at hstart
  rw [endsNonzero] at hend
  rcases hrun : run q k i (start q u) with _ | r
  · rw [hrun] at hend
    exact absurd hend Bool.false_ne_true
  · rw [hrun] at hend
    have hne := of_decide_eq_true hend
    obtain ⟨Z, h₀, -⟩ := run_spec hW i hstart hrun
    obtain ⟨hns, heq⟩ := hrep.affine
    rw [heq] at h₀
    rintro rfl
    have hX := h₀.coords.1
    rw [zero_mul, ZMod.natCast_eq_zero_iff] at hX
    exact hne (Nat.mod_eq_zero_of_dvd hX)

end Prime

end CoZ
end TsbAgent
