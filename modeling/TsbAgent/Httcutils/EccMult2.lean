/-
# The sum of two multiples

`ecc_point_mult2` (`tss-main/httcutils/src/sm/ecc.c`) takes `s` times `g` and `t` times `p` at once: it adds the two
points first, then doubles for each bit and adds `g`, `p` or their sum.  The points it adds are brought to the `Z` of
the running one by `apply_z`.  As everywhere in the file nothing looks for zero or for equal points:
`EccPoint.IsPoint.mult2` says that the result is `s • g + t • p` where no doubling and no addition on the way meets
them (`Apart`).
-/

import TsbAgent.Httcutils.EccMult

namespace TsbAgent
namespace Httcutils

open CoZ WeierstrassCurve.Affine

/-! ### The functions -/

/-- `points[(!!vli_test_bit(s, i)) | ((!!vli_test_bit(t, i)) << 1)]`. -/
def pointPart (g p sum : EccPoint) (s t : Vli) (i : ℕ) : Option EccPoint :=
  match vliTestBit s i, vliTestBit t i with
  | false, false => none
  | true, false => some g
  | false, true => some p
  | true, true => some sum

/-- `if (pointpart) { .. }`: the point is brought to the same `Z` and added. -/
def addPart (part : Option EccPoint) (r : EccPoint × Vli) : EccPoint × Vli :=
  match part with
  | none => r
  | some part =>
      let t := applyZ part r.2
      let tz := modSub r.1.x t.x
      ((xycZAdd t r.1).2, modMultFast r.2 tz)

/-- The loop of `ecc_point_mult2`, from `i - 1` down to zero. -/
def mult2Loop (parts : ℕ → Option EccPoint) : ℕ → EccPoint × Vli → EccPoint × Vli
  | 0, r => r
  | i + 1, r => mult2Loop parts i (addPart (parts i) (eccPointDoubleJacobian r.1 r.2))

/-- `ecc_point_mult2`; `none` where both scalars are zero and there is no point to start with. -/
def eccPointMult2 (g p : EccPoint) (s t : Vli) : Option EccPoint :=
  let parts := pointPart g p (eccPointAdd g p) s t
  let numBits := max (vliNumBits s) (vliNumBits t)
  (parts (numBits - 1)).map fun first =>
    let r := mult2Loop parts (numBits - 1) (first, vliOne)
    applyZ r.1 (modInv r.2)

/-! ### What it adds up -/

variable {W : WeierstrassCurve.Affine Fp} {G P : W.Point} {g p : EccPoint} {s t : Vli}

/-- What is added for bit `i`. -/
def partOf (G P : W.Point) (s t i : ℕ) : W.Point := (s.testBit i).toNat • G + (t.testBit i).toNat • P

/-- The sum of the multiples by the bits from `i` on. -/
def combined (G P : W.Point) (s t i : ℕ) : W.Point := (s / 2 ^ i) • G + (t / 2 ^ i) • P

/-- The doubling for bit `i` does not give zero, and what is added is neither the double nor its negative. -/
structure Apart (G P : W.Point) (s t i : ℕ) : Prop where
  double : 2 • combined G P s t (i + 1) ≠ 0
  sum : (s.testBit i || t.testBit i) = true → combined G P s t i ≠ 0
  diff : (s.testBit i || t.testBit i) = true → partOf G P s t i - 2 • combined G P s t (i + 1) ≠ 0

theorem combined_succ (G P : W.Point) (s t i : ℕ) :
    combined G P s t i = partOf G P s t i + 2 • combined G P s t (i + 1) := by
  rw [combined, combined, partOf, div_pow_succ s i, div_pow_succ t i]
  simp only [add_nsmul, mul_nsmul', nsmul_add]
  abel

/-- The four entries of `points`. -/
theorem pointPart_spec (hW : Short W) (hg : g.IsPoint G) (hp : p.IsPoint P) (hsum : G + P ≠ 0) (hdiff : G - P ≠ 0)
    (i : ℕ) :
    (pointPart g p (eccPointAdd g p) s t i = none ∧ (s.val.testBit i || t.val.testBit i) = false) ∨
      ∃ part, pointPart g p (eccPointAdd g p) s t i = some part ∧ part.IsPoint (partOf G P s.val t.val i) ∧
        (s.val.testBit i || t.val.testBit i) = true := by
  rw [pointPart, vliTestBit_eq, vliTestBit_eq, partOf]
  cases s.val.testBit i <;> cases t.val.testBit i
  · exact .inl ⟨rfl, rfl⟩
  · refine .inr ⟨p, rfl, ?_, rfl⟩
    rwa [Bool.toNat_false, Bool.toNat_true, zero_nsmul, one_nsmul, zero_add]
  · refine .inr ⟨g, rfl, ?_, rfl⟩
    rwa [Bool.toNat_false, Bool.toNat_true, zero_nsmul, one_nsmul, add_zero]
  · refine .inr ⟨eccPointAdd g p, rfl, ?_, rfl⟩
    rw [Bool.toNat_true, one_nsmul, one_nsmul]
    exact hg.add hW hp hsum hdiff

/-- The running point and its `Z`. -/
def Running (r : EccPoint × Vli) (P : W.Point) : Prop := ∃ Z, Holds r.2 Z ∧ r.1.Stands P Z

/-- Adding a point to the running one. -/
theorem Running.addPart (hW : Short W) {r : EccPoint × Vli} {D Q : W.Point} {part : EccPoint} (h : Running r D)
    (hpart : part.IsPoint Q) (hsum : Q + D ≠ 0) (hdiff : Q - D ≠ 0) : Running (addPart (some part) r) (Q + D) := by
  obtain ⟨Z, hz, hs⟩ := h
  obtain ⟨X, Y, hh, hr⟩ := hs
  have hq := hpart.applyZ hz hr.ne_zero
  rw [one_mul] at hq
  obtain ⟨E, hE, hx, -, hadd⟩ := hq.xycZAdd hW ⟨X, Y, hh, hr⟩ hsum hdiff
  exact ⟨Z * E, hz.mult hx, hadd⟩

/-- **A turn of the loop.** -/
theorem Running.turn (hW : Short W) (ha : W.a₄ = -3) (hg : g.IsPoint G) (hp : p.IsPoint P) (hsum : G + P ≠ 0)
    (hdiff : G - P ≠ 0) {r : EccPoint × Vli} {i : ℕ} (h : Running r (combined G P s.val t.val (i + 1)))
    (happart : Apart G P s.val t.val i) :
    Running (Httcutils.addPart (pointPart g p (eccPointAdd g p) s t i) (eccPointDoubleJacobian r.1 r.2))
      (combined G P s.val t.val i) := by
  obtain ⟨Z, hz, hs⟩ := h
  have hdouble := happart.double
  rw [two_nsmul] at hdouble
  obtain ⟨Z', -, hz', hs'⟩ := hs.double hW ha hz hdouble
  have hrun : Running (eccPointDoubleJacobian r.1 r.2) (2 • combined G P s.val t.val (i + 1)) := by
    rw [two_nsmul]
    exact ⟨_, hz', hs'⟩
  rcases @pointPart_spec W G P g p s t hW hg hp hsum hdiff i with ⟨hpart, hbits⟩ | ⟨part, hpart, hpt, hbits⟩
  · rw [Bool.or_eq_false_iff] at hbits
    rw [hpart, combined_succ, partOf, hbits.1, hbits.2, Bool.toNat_false, zero_nsmul, zero_nsmul, zero_add, zero_add]
    exact hrun
  · have hcomb := combined_succ G P s.val t.val i
    have hne := happart.sum hbits
    rw [hcomb] at hne
    rw [hpart, hcomb]
    exact hrun.addPart hW hpt hne (happart.diff hbits)

theorem Running.loop (hW : Short W) (ha : W.a₄ = -3) (hg : g.IsPoint G) (hp : p.IsPoint P) (hsum : G + P ≠ 0)
    (hdiff : G - P ≠ 0) (i : ℕ) {r : EccPoint × Vli} (h : Running r (combined G P s.val t.val i))
    (happart : ∀ j < i, Apart G P s.val t.val j) :
    Running (mult2Loop (pointPart g p (eccPointAdd g p) s t) i r) (s.val • G + t.val • P) := by
  induction i generalizing r with
  | zero => rwa [combined, pow_zero, Nat.div_one, Nat.div_one] at h
  | succ i ih =>
      rw [mult2Loop]
      exact ih (h.turn hW ha hg hp hsum hdiff (happart i i.lt_succ_self))
        fun j hj => happart j (hj.trans i.lt_succ_self)

/-- The top bit of the two scalars is set in one of them. -/
theorem top_bits {s t : ℕ} (h : s ≠ 0 ∨ t ≠ 0) :
    (s.testBit (max s.size t.size - 1) || t.testBit (max s.size t.size - 1)) = true ∧
      s / 2 ^ (max s.size t.size - 1 + 1) = 0 ∧ t / 2 ^ (max s.size t.size - 1 + 1) = 0 := by
  have hpos : 0 < max s.size t.size := by
    rw [lt_max_iff, Nat.size_pos, Nat.size_pos]
    omega
  have hs : s < 2 ^ max s.size t.size := Nat.size_le.mp (le_max_left _ _)
  have ht : t < 2 ^ max s.size t.size := Nat.size_le.mp (le_max_right _ _)
  rw [Nat.sub_add_cancel hpos]
  refine ⟨?_, Nat.div_eq_of_lt hs, Nat.div_eq_of_lt ht⟩
  -- otherwise both would be below half of the power
  by_contra hno
  rw [Bool.not_eq_true, Bool.or_eq_false_iff] at hno
  have hlow : ∀ k : ℕ, k < 2 ^ max s.size t.size → k.testBit (max s.size t.size - 1) = false →
      k < 2 ^ (max s.size t.size - 1) := fun k hk hbit => by
    refine Nat.lt_pow_two_of_testBit k fun i hi => ?_
    rcases Nat.eq_or_lt_of_le hi with rfl | hlt
    · exact hbit
    · exact Nat.testBit_lt_two_pow (lt_of_lt_of_le hk (Nat.pow_le_pow_right (by decide) (by omega)))
  have hs' := Nat.size_le.mpr (hlow s hs hno.1)
  have ht' := Nat.size_le.mpr (hlow t ht hno.2)
  have hmax := max_le hs' ht'
  omega

/-- **`ecc_point_mult2` is the sum of the two multiples**, where no doubling and no addition meets zero or equal
points. -/
theorem EccPoint.IsPoint.mult2 (hW : Short W) (ha : W.a₄ = -3) (hg : g.IsPoint G) (hp : p.IsPoint P)
    (hsum : G + P ≠ 0) (hdiff : G - P ≠ 0) (hne : s.val ≠ 0 ∨ t.val ≠ 0)
    (happart : ∀ i < max s.val.size t.val.size - 1, Apart G P s.val t.val i) :
    ∃ r, eccPointMult2 g p s t = some r ∧ r.IsPoint (s.val • G + t.val • P) := by
  obtain ⟨htop, hs, ht⟩ := top_bits hne
  rcases @pointPart_spec W G P g p s t hW hg hp hsum hdiff (max s.val.size t.val.size - 1) with
    ⟨-, hbits⟩ | ⟨part, hpart, hpt, -⟩
  · rw [htop] at hbits
    exact absurd hbits.symm Bool.false_ne_true
  · have hcomb : combined G P s.val t.val (max s.val.size t.val.size - 1) =
        partOf G P s.val t.val (max s.val.size t.val.size - 1) := by
      rw [combined_succ, combined, hs, ht, zero_nsmul, zero_nsmul, add_zero, nsmul_zero, add_zero]
    have hstart : Running (part, vliOne) (combined G P s.val t.val (max s.val.size t.val.size - 1)) := by
      rw [hcomb]
      exact ⟨1, holds_vliOne, hpt⟩
    obtain ⟨Z, hz, hstands⟩ := hstart.loop hW ha hg hp hsum hdiff _ happart
    have hZ : Z ≠ 0 := by
      obtain ⟨X, Y, -, hr⟩ := hstands
      exact hr.ne_zero
    have hfinal := hstands.applyZ hz.inv (inv_ne_zero hZ)
    rw [mul_inv_cancel₀ hZ] at hfinal
    refine ⟨_, ?_, hfinal⟩
    rw [eccPointMult2, vliNumBits_eq, vliNumBits_eq, hpart]
    rfl

end Httcutils
end TsbAgent
