/-
# SM2 keys and signatures

`tss-main/httcutils/src/sm/sm2.c`: keys, signatures and the values they are made of come in network order and are
turned round before and after every computation (`ecc_b2e`).  A signature of a hash `e` with the key `d` and the nonce
`k` is `r = x(k G) + e` and `s = (k - r d) / (1 + d)` modulo `n`; the check adds `s G` and `(r + s) d G`, which is
`k G` again (`nonce_eq`).

What signing makes, checking takes (`sm2VerifyImpl_of_sign`), with what the code does not look at left out: nothing
tests `s` against zero, the ladder of `ecc_point_mult` fails for the scalars `n - 1` and `n` and takes zero and one
for two and three, and `ecc_point_mult2` fails where an addition on its way meets zero or equal points (`Clear`).  The
nonce is taken below `n` before it is turned round, so it need not be below `n` afterwards; the arithmetic modulo `n`
bears that.  The same holds of `r` and the hash, which both sides reduce in the same way.
-/

import TsbAgent.Httcutils.EccOrder
import TsbAgent.Httcutils.Sm3

namespace TsbAgent
namespace Httcutils

open CoZ Libc Word

/-! ### Bytes the other way round -/

/-- `ecc_b2e`, in place or not. -/
def eccB2e (b : Vli) : Vli := ⟨b.bytes.reverse, by rw [List.length_reverse, b.length_eq]⟩

/-- `ecc_b2e` on both coordinates. -/
def EccPoint.b2e (p : EccPoint) : EccPoint := ⟨eccB2e p.x, eccB2e p.y⟩

@[simp] theorem eccB2e_eccB2e (b : Vli) : eccB2e (eccB2e b) = b := by
  rw [eccB2e, eccB2e]
  cases b
  simp only [List.reverse_reverse]

@[simp] theorem EccPoint.b2e_b2e (p : EccPoint) : p.b2e.b2e = p := by
  rw [EccPoint.b2e, EccPoint.b2e, eccB2e_eccB2e, eccB2e_eccB2e]

/-! ### Modulo the order -/

theorem eccN_pos : 0 < eccN.val := eccN_prime.pos

theorem size_eccN : Nat.size eccN.val = 256 := by
  rw [eccN_val]
  exact le_antisymm (Nat.size_le.mpr (by norm_num)) (Nat.lt_size.mpr (by norm_num))

theorem eccN_odd : eccN.val % 2 = 1 := by norm_num [eccN_val]

theorem isSome_vliModMult (left right : Vli) : (vliModMult 514 left right eccN).isSome := by
  obtain ⟨r, hr, _⟩ := vliModMult_eq eccN_pos
    (show Nat.size left.val ≤ Nat.size eccN.val by rw [size_eccN]; exact Nat.size_le.mpr (vli_lt left)) right
  rw [hr 514 le_rfl]
  rfl

/-- `vli_mod_mult(.., ecc_curve.n)`. -/
@[irreducible] def modMultN (left right : Vli) : Vli := (vliModMult 514 left right eccN).get (isSome_vliModMult _ _)

theorem isSome_vliModInvN (input : Vli) : (vliModInv 513 input eccN).isSome := by
  rcases eq_or_ne input.val 0 with hz | hn
  · rw [vliModInv, if_pos ((vliIsZero_iff input).mpr hz)]
    rfl
  · obtain ⟨r, hr, _⟩ := vliModInv_eq eccN_odd eccN_prime.one_lt hn le_rfl
    rw [hr]
    rfl

/-- `vli_mod_inv(.., ecc_curve.n)`. -/
@[irreducible] def modInvN (input : Vli) : Vli := (vliModInv 513 input eccN).get (isSome_vliModInvN input)

/-- `vli_mod_add(.., ecc_curve.n)`. -/
@[irreducible] def modAddN (left right : Vli) : Vli := vliModAdd left right eccN

/-- `vli_mod_sub(.., ecc_curve.n)`. -/
@[irreducible] def modSubN (left right : Vli) : Vli := vliModSub left right eccN

/-- `if (vli_cmp(ecc_curve.n, v) != 1) vli_sub(v, v, ecc_curve.n);` -/
def belowN (v : Vli) : Vli := if vliCmp eccN v ≠ 1 then (vliSub v eccN).2 else v

/-! ### Keys -/

/-- The loop of `sm2_make_prikey` on the bytes it draws one after another. -/
def makePrikeyLoop (draw : ℕ → Vli) : ℕ → ℕ → Option Vli
  | 0, _ => none
  | tries + 1, i =>
      let pri := belowN (draw i)
      if ¬ vliIsZero pri then some (eccB2e pri) else makePrikeyLoop draw tries (i + 1)

/-- `sm2_make_prikey`; `none` for the answer `-1`. -/
def sm2MakePrikey (draw : ℕ → Vli) : Option Vli := makePrikeyLoop draw 11 0

/-- `sm2_make_pubkey`. -/
def sm2MakePubkey (prikey : Vli) : EccPoint := (eccPointMult eccG (eccB2e prikey) none).b2e

/-- `ecc_point_is_zero`. -/
def eccPointIsZero (point : EccPoint) : Bool := vliIsZero point.x ∧ vliIsZero point.y

/-- `ecc_valid_public_key`: zero for a point of the curve. -/
def eccValidPublicKey (publicKey : EccPoint) : ℤ :=
  if eccPointIsZero publicKey then 1
  else if vliCmp eccP publicKey.x ≠ 1 ∨ vliCmp eccP publicKey.y ≠ 1 then 1
  else
    let na := vliClear.set 0 3
    let tmp1 := modSquareFast publicKey.y
    let tmp2 := modSquareFast publicKey.x
    let tmp2 := modSub tmp2 na
    let tmp2 := modMultFast tmp2 publicKey.x
    let tmp2 := modAdd tmp2 eccB
    if vliCmp tmp1 tmp2 ≠ 0 then 1 else 0

/-! ### Signatures -/

/-- The nonce of `sm2_sign_impl` from the bytes drawn for it. -/
def sm2Nonce (random : Vli) : Vli := eccB2e (belowN random)

/-- `r` from the point of the nonce and the hash, the same in `sm2_sign_impl` and `sm2_verify_impl`. -/
def signedX (x hash : Vli) : Vli := belowN (modAddN x (eccB2e hash))

/-- `sm2_sign_impl`: `r` and `s`; `none` for the answer zero. -/
def sm2SignImpl (random prikey hash : Vli) : Option (Vli × Vli) :=
  let pri := eccB2e prikey
  if vliIsZero random then none
  else
    let rng := sm2Nonce random
    let p := eccPointMult eccG rng none
    let r := signedX p.x hash
    if vliIsZero r then none
    else
      let s := modMultN r pri
      let s := modSubN rng s
      let pri := modAddN pri vliOne
      let pri := modInvN pri
      let s := modMultN pri s
      some (eccB2e r, eccB2e s)

/-- `sm2_verify_impl`; `none` where `ecc_point_mult2` has no point to start with. -/
def sm2VerifyImpl (pubkey : EccPoint) (hash r s : Vli) : Option ℤ :=
  let pub := pubkey.b2e
  let rr := eccB2e r
  let ss := eccB2e s
  if vliIsZero rr ∨ vliIsZero ss then some (-1)
  else if vliCmp eccN rr ≠ 1 ∨ vliCmp eccN ss ≠ 1 then some (-1)
  else
    let t := modAddN rr ss
    (eccPointMult2 eccG pub ss t).map fun result => vliCmp (signedX result.x hash) rr

/-! ### The values modulo the order -/

/-- The scalars. -/
abbrev Fn : Type := ZMod eccN.val

theorem modMultN_lt (a b : Vli) : (modMultN a b).val < eccN.val ∧ ((modMultN a b).val : Fn) = a.val * b.val := by
  obtain ⟨r, hr, hval⟩ := vliModMult_eq eccN_pos
    (show Nat.size a.val ≤ Nat.size eccN.val by rw [size_eccN]; exact Nat.size_le.mpr (vli_lt a)) b
  have hget : modMultN a b = r := by
    unfold modMultN
    exact Option.get_of_eq_some _ (hr 514 le_rfl)
  rw [hget, hval]
  exact ⟨Nat.mod_lt _ eccN_pos, by rw [ZMod.natCast_mod, Nat.cast_mul]⟩

theorem cast_modInvN {a : Vli} (ha : (a.val : Fn) ≠ 0) : ((modInvN a).val : Fn) = (a.val : Fn)⁻¹ := by
  have hn : a.val ≠ 0 := fun h => ha (by rw [h, Nat.cast_zero])
  obtain ⟨r, hr, -, hmul⟩ := vliModInv_eq eccN_odd eccN_prime.one_lt hn le_rfl
  have hget : modInvN a = r := by
    unfold modInvN
    exact Option.get_of_eq_some _ hr
  have hcop : Nat.gcd a.val eccN.val = 1 := by
    rw [Nat.gcd_comm]
    refine (Nat.Prime.coprime_iff_not_dvd eccN_prime).mpr fun hdvd => ha ?_
    rwa [ZMod.natCast_eq_zero_iff]
  rw [hcop] at hmul
  have hone := (ZMod.natCast_eq_natCast_iff _ _ _).mpr hmul
  rw [Nat.cast_mul, Nat.cast_one] at hone
  rw [hget]
  exact eq_inv_of_mul_eq_one_left hone

theorem modAddN_lt {a b : Vli} (ha : a.val < eccN.val) (hb : b.val < eccN.val) :
    (modAddN a b).val < eccN.val ∧ ((modAddN a b).val : Fn) = a.val + b.val := by
  unfold modAddN
  rw [vliModAdd_val ha hb]
  exact ⟨Nat.mod_lt _ eccN_pos, by rw [ZMod.natCast_mod, Nat.cast_add]⟩

theorem cast_modSubN (a : Vli) {b : Vli} (hb : b.val < eccN.val) :
    ((modSubN a b).val : Fn) = a.val - b.val := by
  unfold modSubN
  rw [vliModSub_spec hb.le]
  split_ifs with h
  · rw [Nat.cast_sub (by omega), Nat.cast_add, ZMod.natCast_self, add_zero]
  · rw [Nat.cast_sub (by omega)]

theorem two_eccN : 2 ^ 256 < 2 * eccN.val := by norm_num [eccN_val]

theorem belowN_lt (v : Vli) : (belowN v).val < eccN.val := by
  have hv := vli_lt v
  have htwo := two_eccN
  rw [belowN]
  rcases Nat.lt_or_ge v.val eccN.val with h | h
  · rw [if_neg (fun hc => by rw [vliCmp_ne_one_iff] at hc; omega)]
    exact h
  · rw [if_pos ((vliCmp_ne_one_iff _ _).mpr h), vliSub_val h]
    omega

/-! ### Points of the curve -/

theorem eccB_bounds : 0 < eccB.val ∧ eccB.val < eccP.val := by decide +kernel

/-- What `ecc_valid_public_key` computes of the coordinates. -/
theorem curve_eq_iff {x y : Vli} (hx : x.val < eccP.val) (hy : y.val < eccP.val) :
    modSquareFast y = modAdd (modMultFast (modSub (modSquareFast x) (vliClear.set 0 3)) x) eccB ↔
      (y.val : Fp) ^ 2 = (x.val : Fp) ^ 3 + eccA.val * x.val + eccB.val := by
  have hthree : Httcutils.Holds (vliClear.set 0 3) (3 : Fp) := by
    have hval : (vliClear.set 0 3).val = 3 := by decide
    exact ⟨by rw [hval, eccP_val]; norm_num, by rw [hval, Nat.cast_ofNat]⟩
  have hb : Httcutils.Holds eccB (eccB.val : Fp) := holds_self eccB_bounds.2
  have hleft := (holds_self hy).square
  have hright := (((holds_self hx).square.sub hthree).mult (holds_self hx)).add hb
  have ha := eccCurve_a₄
  rw [show eccCurve.a₄ = (eccA.val : Fp) from rfl] at ha
  have hcurve : ((x.val : Fp) ^ 2 - 3) * x.val + eccB.val = (x.val : Fp) ^ 3 + eccA.val * x.val + eccB.val := by
    rw [ha]
    ring
  constructor
  · intro heq
    rw [← hcurve, ← hleft.eq, heq, hright.eq]
  · intro heq
    rw [heq, ← hcurve] at hleft
    exact hleft.unique hright

theorem not_below_iff (point : EccPoint) :
    (vliCmp eccP point.x ≠ 1 ∨ vliCmp eccP point.y ≠ 1) ↔ eccP.val ≤ point.x.val ∨ eccP.val ≤ point.y.val := by
  rw [vliCmp_ne_one_iff, vliCmp_ne_one_iff]

/-- The three tests of `ecc_valid_public_key`. -/
theorem eccValidPublicKey_eq_zero_iff (point : EccPoint) :
    eccValidPublicKey point = 0 ↔ ¬ (point.x.val = 0 ∧ point.y.val = 0) ∧ point.x.val < eccP.val ∧
      point.y.val < eccP.val ∧
      (point.y.val : Fp) ^ 2 = (point.x.val : Fp) ^ 3 + eccA.val * point.x.val + eccB.val := by
  have hzero : eccPointIsZero point = true ↔ point.x.val = 0 ∧ point.y.val = 0 := by
    rw [eccPointIsZero, decide_eq_true_iff, vliIsZero_iff, vliIsZero_iff]
  rw [eccValidPublicKey]
  rcases em (point.x.val = 0 ∧ point.y.val = 0) with hz | hnz
  · rw [if_pos (hzero.mpr hz)]
    exact ⟨fun h => absurd h (by decide), fun h => absurd hz h.1⟩
  · rw [if_neg (fun hd => hnz (hzero.mp hd))]
    rcases em (eccP.val ≤ point.x.val ∨ eccP.val ≤ point.y.val) with hlarge | hsmall
    · rw [if_pos ((not_below_iff point).mpr hlarge)]
      exact ⟨fun h => absurd h (by decide), fun h => by omega⟩
    · have hx : point.x.val < eccP.val := by omega
      have hy : point.y.val < eccP.val := by omega
      rw [if_neg (fun hd => hsmall ((not_below_iff point).mp hd))]
      dsimp only
      rcases em ((point.y.val : Fp) ^ 2 = (point.x.val : Fp) ^ 3 + eccA.val * point.x.val + eccB.val) with heq | hne
      · rw [if_neg (not_not.mpr ((vliCmp_eq_zero_iff _ _).mpr ((curve_eq_iff hx hy).mpr heq)))]
        exact ⟨fun _ => ⟨hnz, hx, hy, heq⟩, fun _ => rfl⟩
      · rw [if_pos (fun hd => hne ((curve_eq_iff hx hy).mp ((vliCmp_eq_zero_iff _ _).mp hd)))]
        exact ⟨fun h => absurd h (by decide), fun h => absurd h.2.2.2 hne⟩

theorem EccPoint.IsPoint.valid {point : EccPoint} {P : eccCurve.Point} (h : point.IsPoint P) :
    eccValidPublicKey point = 0 := by
  have hb : ¬ eccP.val ∣ eccB.val := Nat.not_dvd_of_pos_of_lt eccB_bounds.1 eccB_bounds.2
  rw [← ZMod.natCast_eq_zero_iff] at hb
  obtain ⟨X, Y, hh, hr⟩ := h
  obtain ⟨hns, -⟩ := hr.affine
  have hcurve : Y ^ 2 = X ^ 3 + eccA.val * X + eccB.val := by
    have heq := hns.1
    rw [WeierstrassCurve.Affine.equation_iff, eccCurve] at heq
    linear_combination heq
  rw [eccValidPublicKey_eq_zero_iff]
  refine ⟨fun hz => hb ?_, hh.x.lt, hh.y.lt, by rw [hh.x.eq, hh.y.eq]; exact hcurve⟩
  have hX := hh.x.eq_zero_iff.mpr hz.1
  have hY := hh.y.eq_zero_iff.mpr hz.2
  rw [hX, hY] at hcurve
  linear_combination -hcurve

/-- **`ecc_valid_public_key` answers zero for the points of the curve and for nothing else.** -/
theorem validPublicKey_iff (point : EccPoint) :
    eccValidPublicKey point = 0 ↔ ∃ P : eccCurve.Point, point.IsPoint P := by
  refine ⟨fun h => ?_, fun ⟨P, h⟩ => h.valid⟩
  rw [eccValidPublicKey_eq_zero_iff] at h
  obtain ⟨-, hx, hy, heq⟩ := h
  exact ⟨.some _ _ (nonsingular_eccCurve heq), _, _, ⟨holds_self hx, holds_self hy⟩,
    rep_some (nonsingular_eccCurve heq)⟩

/-! ### Multiples of the base point -/

theorem nsmul_basePoint_eq_zero {k : ℕ} : k • basePoint = 0 ↔ eccN.val ∣ k := by
  rw [← order_basePoint, addOrderOf_dvd_iff_nsmul_eq_zero]

theorem nsmul_basePoint_eq {j k : ℕ} : j • basePoint = k • basePoint ↔ (j : Fn) = k := by
  rw [ZMod.natCast_eq_natCast_iff, ← order_basePoint]
  exact nsmul_eq_nsmul_iff_modEq

/-- The scalars the ladder of `ecc_point_mult` gets right on the base point. -/
structure Scalar (k : Vli) : Prop where
  two_le : 2 ≤ k.val
  ne_pred : k.val ≠ eccN.val - 1
  ne : k.val ≠ eccN.val

theorem large_eccN : 2 ^ 255 + 1 < eccN.val := by norm_num [eccN_val]

/-- **Multiples of the base point.** -/
theorem Scalar.mult {k : Vli} (h : Scalar k) : (eccPointMult eccG k none).IsPoint (k.val • basePoint) :=
  eccG_isPoint.mult short_eccCurve eccCurve_a₄ eccG_x_ne_zero h.two_le
    (fun _ hj hsize => regular_of_order order_basePoint eccN_odd large_eccN (vli_lt k) h.ne_pred h.ne hj hsize)
    (by simp)

/-! ### The sum of two multiples -/

/-- The multiple of the base point that is held when the bits from `i` on are taken, for the second point `d` times
the base point. -/
def heldAt (d s t i : ℕ) : ℕ := s / 2 ^ i + t / 2 ^ i * d

/-- What is added for bit `i`. -/
def addedAt (d s t i : ℕ) : ℕ := (s.testBit i).toNat + (t.testBit i).toNat * d

/-- No doubling meets zero and no addition zero or two equal points. -/
def Clear (d s t : ℕ) : Prop :=
  ∀ i < max s.size t.size - 1, 2 * heldAt d s t (i + 1) % eccN.val ≠ 0 ∧
    ((s.testBit i || t.testBit i) = true →
      heldAt d s t i % eccN.val ≠ 0 ∧ addedAt d s t i % eccN.val ≠ 2 * heldAt d s t (i + 1) % eccN.val)

theorem combined_eq (d s t i : ℕ) : combined basePoint (d • basePoint) s t i = heldAt d s t i • basePoint := by
  rw [combined, heldAt, add_nsmul, mul_nsmul']

theorem partOf_eq (d s t i : ℕ) : partOf basePoint (d • basePoint) s t i = addedAt d s t i • basePoint := by
  rw [partOf, addedAt, add_nsmul, mul_nsmul']

theorem Clear.apart {d s t : ℕ} (h : Clear d s t) {i : ℕ} (hi : i < max s.size t.size - 1) :
    Apart basePoint (d • basePoint) s t i := by
  obtain ⟨hdouble, hbits⟩ := h i hi
  refine ⟨?_, fun hb => ?_, fun hb => ?_⟩
  · rw [combined_eq, ← mul_nsmul', Ne, nsmul_basePoint_eq_zero, Nat.dvd_iff_mod_eq_zero]
    exact hdouble
  · rw [combined_eq, Ne, nsmul_basePoint_eq_zero, Nat.dvd_iff_mod_eq_zero]
    exact (hbits hb).1
  · rw [partOf_eq, combined_eq, ← mul_nsmul', sub_ne_zero, Ne, nsmul_basePoint_eq, ZMod.natCast_eq_natCast_iff']
    exact (hbits hb).2

/-- **`ecc_point_mult2` on the base point and a multiple of it.** -/
theorem mult2_basePoint {d : ℕ} {pub : EccPoint} (hpub : pub.IsPoint (d • basePoint)) (hd : 2 ≤ d)
    (hd' : d + 1 < eccN.val) {s t : Vli} (hs : s.val ≠ 0) (hclear : Clear d s.val t.val) :
    ∃ r, eccPointMult2 eccG pub s t = some r ∧ r.IsPoint ((s.val + t.val * d) • basePoint) := by
  have hsum : basePoint + d • basePoint ≠ 0 := by
    rw [← succ_nsmul', Ne, nsmul_basePoint_eq_zero]
    exact fun hdvd => absurd (Nat.le_of_dvd (by omega) hdvd) (by omega)
  have hdiff : basePoint - d • basePoint ≠ 0 := by
    have hone := (nsmul_basePoint_eq (j := 1) (k := d)).not.mpr (by
      rw [ZMod.natCast_eq_natCast_iff', Nat.mod_eq_of_lt (by omega), Nat.mod_eq_of_lt (by omega)]
      omega)
    rwa [one_nsmul, ← Ne, ← sub_ne_zero] at hone
  obtain ⟨r, hr, hpt⟩ := eccG_isPoint.mult2 short_eccCurve eccCurve_a₄ hpub hsum hdiff (Or.inl hs)
    fun i hi => hclear.apart hi
  rw [← mul_nsmul', ← add_nsmul] at hpt
  exact ⟨r, hr, hpt⟩

/-! ### What signing makes -/

/-- The two parts of a signature and the key make the nonce. -/
theorem nonce_eq {d k r s : Fn} (hd : d + 1 ≠ 0) (hs : s = (d + 1)⁻¹ * (k - r * d)) : s + (r + s) * d = k := by
  have hmul : (d + 1) * s = k - r * d := by rw [hs, mul_inv_cancel_left₀ hd]
  linear_combination hmul

/-- A private key: below `n - 1` and not zero or one. -/
structure Key (prikey : Vli) : Prop where
  two_le : 2 ≤ (eccB2e prikey).val
  lt : (eccB2e prikey).val + 1 < eccN.val

theorem Key.scalar {prikey : Vli} (h : Key prikey) : Scalar (eccB2e prikey) := by
  have hlt := h.lt
  exact ⟨h.two_le, by omega, by omega⟩

/-- The public key of a private key. -/
theorem Key.pubkey {prikey : Vli} (h : Key prikey) :
    (sm2MakePubkey prikey).b2e.IsPoint ((eccB2e prikey).val • basePoint) := by
  rw [sm2MakePubkey, EccPoint.b2e_b2e]
  exact h.scalar.mult

/-- What `sm2_sign_impl` answers. -/
theorem sm2SignImpl_spec {random prikey hash r s : Vli} (hkey : Key prikey)
    (hsign : sm2SignImpl random prikey hash = some (r, s)) :
    eccB2e r = signedX (eccPointMult eccG (sm2Nonce random) none).x hash ∧ (eccB2e r).val ≠ 0 ∧
      (eccB2e s).val < eccN.val ∧
      ((eccB2e s).val : Fn) = (((eccB2e prikey).val : Fn) + 1)⁻¹ *
        ((sm2Nonce random).val - (eccB2e r).val * (eccB2e prikey).val) := by
  rw [sm2SignImpl] at hsign
  rcases em (vliIsZero random = true) with hz | hnz
  · rw [if_pos hz] at hsign
    exact absurd hsign.symm (Option.some_ne_none _)
  · rw [if_neg hnz] at hsign
    rcases em (vliIsZero (signedX (eccPointMult eccG (sm2Nonce random) none).x hash) = true) with hr | hr
    · rw [if_pos hr] at hsign
      exact absurd hsign.symm (Option.some_ne_none _)
    · rw [if_neg hr] at hsign
      obtain ⟨rfl, rfl⟩ := Prod.mk.inj (Option.some.inj hsign)
      have hlt := hkey.lt
      have hadd := modAddN_lt (a := eccB2e prikey) (b := vliOne) (by omega)
        (by rw [vliOne_val]; exact eccN_prime.one_lt)
      rw [vliOne_val, Nat.cast_one] at hadd
      have hne : (((eccB2e prikey).val : Fn) + 1) ≠ 0 := by
        rw [← Nat.cast_one, ← Nat.cast_add, Ne, ZMod.natCast_eq_zero_iff]
        exact fun hdvd => absurd (Nat.le_of_dvd (by omega) hdvd) (by omega)
      have hprod := modMultN_lt (signedX (eccPointMult eccG (sm2Nonce random) none).x hash) (eccB2e prikey)
      have hsub := cast_modSubN (sm2Nonce random) hprod.1
      have hinv := cast_modInvN (a := modAddN (eccB2e prikey) vliOne) (by rw [hadd.2]; exact hne)
      have hs := modMultN_lt (modInvN (modAddN (eccB2e prikey) vliOne))
        (modSubN (sm2Nonce random) (modMultN (signedX (eccPointMult eccG (sm2Nonce random) none).x hash)
          (eccB2e prikey)))
      rw [hinv, hadd.2, hsub, hprod.2] at hs
      rw [eccB2e_eccB2e, eccB2e_eccB2e]
      exact ⟨rfl, fun h0 => hr ((vliIsZero_iff _).mpr h0), hs.1, hs.2⟩

theorem sm2SignImpl_isSome {random prikey hash : Vli} (hrandom : random.val ≠ 0)
    (hr : (signedX (eccPointMult eccG (sm2Nonce random) none).x hash).val ≠ 0) :
    ∃ s, sm2SignImpl random prikey hash =
      some (eccB2e (signedX (eccPointMult eccG (sm2Nonce random) none).x hash), s) := by
  rw [sm2SignImpl, if_neg (fun h => hrandom ((vliIsZero_iff _).mp h)),
    if_neg (fun h => hr ((vliIsZero_iff _).mp h))]
  exact ⟨_, rfl⟩

/-- What `sm2_verify_impl` compares for numbers in range: the point is that of the signature. -/
theorem sm2VerifyImpl_of_range {prikey hash r s : Vli} (hkey : Key prikey) (hr : (eccB2e r).val ≠ 0)
    (hrlt : (eccB2e r).val < eccN.val) (hs : (eccB2e s).val ≠ 0) (hslt : (eccB2e s).val < eccN.val)
    (hclear : Clear (eccB2e prikey).val (eccB2e s).val (modAddN (eccB2e r) (eccB2e s)).val) :
    ∃ result : EccPoint,
      result.IsPoint (((eccB2e s).val + ((eccB2e r).val + (eccB2e s).val) * (eccB2e prikey).val) • basePoint) ∧
      sm2VerifyImpl (sm2MakePubkey prikey) hash r s = some (vliCmp (signedX result.x hash) (eccB2e r)) := by
  have hadd := modAddN_lt hrlt hslt
  obtain ⟨result, hresult, hpt⟩ := mult2_basePoint hkey.pubkey hkey.two_le hkey.lt hs hclear
  have hpoint : ((eccB2e s).val + (modAddN (eccB2e r) (eccB2e s)).val * (eccB2e prikey).val) • basePoint =
      ((eccB2e s).val + ((eccB2e r).val + (eccB2e s).val) * (eccB2e prikey).val) • basePoint := by
    rw [nsmul_basePoint_eq, Nat.cast_add, Nat.cast_mul, hadd.2]
    push_cast
    rfl
  rw [hpoint] at hpt
  have hzero : ¬ (vliIsZero (eccB2e r) = true ∨ vliIsZero (eccB2e s) = true) := by
    rw [vliIsZero_iff, vliIsZero_iff]
    exact fun h => h.elim hr hs
  have hbelow : ¬ (vliCmp eccN (eccB2e r) ≠ 1 ∨ vliCmp eccN (eccB2e s) ≠ 1) := by
    rw [vliCmp_ne_one_iff, vliCmp_ne_one_iff]
    omega
  refine ⟨result, hpt, ?_⟩
  rw [sm2VerifyImpl, if_neg hzero, if_neg hbelow]
  dsimp only
  rw [hresult, Option.map_some]

/-- **What signing makes, checking takes.** -/
theorem sm2VerifyImpl_of_sign {random prikey hash r s : Vli} (hkey : Key prikey)
    (hnonce : Scalar (sm2Nonce random)) (hsign : sm2SignImpl random prikey hash = some (r, s))
    (hs : (eccB2e s).val ≠ 0)
    (hclear : Clear (eccB2e prikey).val (eccB2e s).val (modAddN (eccB2e r) (eccB2e s)).val) :
    sm2VerifyImpl (sm2MakePubkey prikey) hash r s = some 0 := by
  obtain ⟨hr, hrne, hslt, hsval⟩ := sm2SignImpl_spec hkey hsign
  have hrlt : (eccB2e r).val < eccN.val := by
    rw [hr]
    exact belowN_lt _
  have hlt := hkey.lt
  obtain ⟨result, hpt, hverify⟩ := @sm2VerifyImpl_of_range prikey hash r s hkey hrne hrlt hs hslt hclear
  -- the point that is found is that of the nonce
  have hpoint : ((eccB2e s).val + ((eccB2e r).val + (eccB2e s).val) * (eccB2e prikey).val) • basePoint =
      (sm2Nonce random).val • basePoint := by
    have hne : (((eccB2e prikey).val : Fn) + 1) ≠ 0 := by
      rw [← Nat.cast_one, ← Nat.cast_add, Ne, ZMod.natCast_eq_zero_iff]
      exact fun hdvd => absurd (Nat.le_of_dvd (by omega) hdvd) (by omega)
    rw [nsmul_basePoint_eq]
    push_cast
    exact nonce_eq hne hsval
  rw [hpoint] at hpt
  rw [hverify, hpt.unique hnonce.mult, ← hr, (vliCmp_eq_zero_iff _ _).mpr rfl]

/-- The first coordinate and the hash, added modulo the order: two subtractions are enough. -/
theorem val_signedX {x hash : Vli} (hx : x.val < eccP.val) (hhash : (eccB2e hash).val < eccN.val) :
    (signedX x hash).val = (x.val + (eccB2e hash).val) % eccN.val := by
  have htwo := two_eccN
  obtain ⟨k, hk⟩ : ∃ k, (modAddN x (eccB2e hash)).val + eccN.val * k = x.val + (eccB2e hash).val := by
    obtain ⟨hc, hadd⟩ := vliAdd_spec x (eccB2e hash)
    obtain ⟨hb, hsub⟩ := vliSub_spec (vliAdd x (eccB2e hash)).2 eccN
    have hp := vli_lt eccP
    have hr := vli_lt (vliSub (vliAdd x (eccB2e hash)).2 eccN).2
    unfold modAddN
    rw [vliModAdd]
    split_ifs with hover
    · refine ⟨1, ?_⟩
      rw [vliCmp_nonneg_iff, Ne, ← UInt8.toNat_inj] at hover
      have hover : (vliAdd x (eccB2e hash)).1.toNat ≠ 0 ∨ eccN.val ≤ (vliAdd x (eccB2e hash)).2.val := hover
      omega
    · refine ⟨0, ?_⟩
      rw [not_or, not_not] at hover
      have hzero : (vliAdd x (eccB2e hash)).1.toNat = 0 := by rw [hover.1]; rfl
      omega
  obtain ⟨j, hj⟩ : ∃ j, (signedX x hash).val + eccN.val * j = (modAddN x (eccB2e hash)).val := by
    rw [signedX, belowN]
    split_ifs with hover
    · rw [vliCmp_ne_one_iff] at hover
      exact ⟨1, by rw [vliSub_val hover]; omega⟩
    · exact ⟨0, rfl⟩
  have hlt : (signedX x hash).val < eccN.val := belowN_lt _
  rw [← hk, ← hj, Nat.add_mul_mod_self_left, Nat.add_mul_mod_self_left, Nat.mod_eq_of_lt hlt]

/-- What a signature `r`, `s` of a hash `e` must satisfy for the private key `d`. -/
def Signed (d e r s : ℕ) : Prop :=
  0 < r ∧ r < eccN.val ∧ 0 < s ∧ s < eccN.val ∧
    ∃ p : EccPoint, p.IsPoint ((s + (r + s) * d) • basePoint) ∧ (p.x.val + e) % eccN.val = r

/-- **`sm2_verify_impl` takes such numbers** and no others. -/
theorem sm2VerifyImpl_eq_zero_iff {prikey hash r s : Vli} (hkey : Key prikey) (hhash : (eccB2e hash).val < eccN.val)
    (hclear : Clear (eccB2e prikey).val (eccB2e s).val (modAddN (eccB2e r) (eccB2e s)).val) :
    sm2VerifyImpl (sm2MakePubkey prikey) hash r s = some 0 ↔
      Signed (eccB2e prikey).val (eccB2e hash).val (eccB2e r).val (eccB2e s).val := by
  have hrefused : ¬ some (-1 : ℤ) = some 0 := by simp
  rw [Signed]
  rcases em (vliIsZero (eccB2e r) = true ∨ vliIsZero (eccB2e s) = true) with hzero | hzero
  · rw [sm2VerifyImpl, if_pos hzero]
    rw [vliIsZero_iff, vliIsZero_iff] at hzero
    refine iff_of_false hrefused fun h => ?_
    omega
  rcases em (vliCmp eccN (eccB2e r) ≠ 1 ∨ vliCmp eccN (eccB2e s) ≠ 1) with hbelow | hbelow
  · rw [sm2VerifyImpl, if_neg hzero, if_pos hbelow]
    rw [vliCmp_ne_one_iff, vliCmp_ne_one_iff] at hbelow
    refine iff_of_false hrefused fun h => ?_
    omega
  rw [vliIsZero_iff, vliIsZero_iff, not_or] at hzero
  rw [vliCmp_ne_one_iff, vliCmp_ne_one_iff, not_or, not_le, not_le] at hbelow
  obtain ⟨result, hpt, hverify⟩ :=
    @sm2VerifyImpl_of_range prikey hash r s hkey hzero.1 hbelow.1 hzero.2 hbelow.2 hclear
  have hx : result.x.val < eccP.val := by
    obtain ⟨_, _, hheld, -⟩ := hpt
    exact hheld.1.lt
  have hsigned : vliCmp (signedX result.x hash) (eccB2e r) = 0 ↔
      (result.x.val + (eccB2e hash).val) % eccN.val = (eccB2e r).val := by
    rw [vliCmp_eq_zero_iff, ← val_signedX hx hhash]
    exact ⟨fun h => by rw [h], fun h => Digits.ext_val h⟩
  rw [hverify, Option.some_inj, hsigned]
  constructor
  · intro h
    exact ⟨Nat.pos_of_ne_zero hzero.1, hbelow.1, Nat.pos_of_ne_zero hzero.2, hbelow.2, result, hpt, h⟩
  · rintro ⟨-, -, -, -, p, hp, h⟩
    rwa [hp.unique hpt] at h

/-! ### Messages -/

/-- `digit2str16`. -/
def digit2str16 (x : UInt32) : Bytes := [((x >>> 8) &&& 0xFF).toUInt8, (x &&& 0xFF).toUInt8]

/-- The pieces `sm3_z` hashes. -/
def sm3ZPieces (id : Bytes) (pub : EccPoint) : List Bytes :=
  [digit2str16 (UInt32.ofNat id.length <<< 3), id, (eccB2e eccA).bytes, (eccB2e eccB).bytes, (eccB2e eccG.x).bytes,
    (eccB2e eccG.y).bytes, pub.x.bytes, pub.y.bytes]

/-- `sm3_z`. -/
def sm3Z (id : Bytes) (pub : EccPoint) : Option Vli := digestOf (sm3ZPieces id pub)

/-- `ht_sm2_sign`, where `httc_malloc` may fail and the nonce is made of `random`: the answer and the signature. -/
def htSm2Sign (granted : Bool) (random : Vli) (message id : Bytes) (prikey : Vli) (pubkey : EccPoint) :
    Option (ℤ × Option (Vli × Vli)) :=
  (sm3Z id pubkey).bind fun za =>
    if granted then
      (digestOf [za.bytes ++ message]).map fun e =>
        match sm2SignImpl random prikey e with
        | some sign => (0, some sign)
        | none => (-1, none)
    else some (-1, none)

/-- `ht_sm2_verify`. -/
def htSm2Verify (sign : Vli × Vli) (msg userId : Bytes) (pubKey : EccPoint) : Option ℤ :=
  (sm3Z userId pubKey).bind fun za =>
    (digestOf [za.bytes, msg]).bind fun digest => sm2VerifyImpl pubKey digest sign.1 sign.2

/-- `ht_sm3_e` on arguments that are not null: the answer and the digest. -/
def htSm3E (userid : Bytes) (pubkey : EccPoint) (msgdate : Bytes) : Option (ℤ × Vli) :=
  (sm3Z userid pubkey).bind fun za => (digestOf [za.bytes, msgdate]).map fun ehash => (0, ehash)

theorem sm3Z_eq {id : Bytes} (h : id.length < 2 ^ 31) (pub : EccPoint) :
    sm3Z id pub = some (sm3 (sm3ZPieces id pub).flatten) := by
  refine digestOf_eq fun c hc => ?_
  simp only [sm3ZPieces, List.mem_cons, List.not_mem_nil, or_false] at hc
  rcases hc with rfl | rfl | rfl | rfl | rfl | rfl | rfl | rfl
  · exact show 2 < 2 ^ 31 by decide
  · exact h
  all_goals
    rw [Digits.length_eq]
    decide

/-- The digest that is signed. -/
def signedDigest (id message : Bytes) (pub : EccPoint) : Vli :=
  sm3 ((sm3 (sm3ZPieces id pub).flatten).bytes ++ message)

theorem htSm2Sign_eq {random : Vli} {message id : Bytes} {prikey : Vli} {pubkey : EccPoint}
    (hid : id.length < 2 ^ 31) (hmessage : message.length + 32 < 2 ^ 31) :
    htSm2Sign true random message id prikey pubkey =
      some (match sm2SignImpl random prikey (signedDigest id message pubkey) with
        | some sign => (0, some sign)
        | none => (-1, none)) := by
  have hone : ∀ c ∈ [(sm3 (sm3ZPieces id pubkey).flatten).bytes ++ message], c.length < 2 ^ 31 := by
    intro c hc
    rw [List.mem_singleton] at hc
    rw [hc, List.length_append, Digits.length_eq]
    omega
  rw [htSm2Sign, sm3Z_eq hid, Option.bind_some, if_pos rfl, digestOf_eq hone, List.flatten_singleton]
  rfl

theorem htSm2Verify_eq {sign : Vli × Vli} {msg userId : Bytes} {pubKey : EccPoint} (hid : userId.length < 2 ^ 31)
    (hmsg : msg.length < 2 ^ 31) :
    htSm2Verify sign msg userId pubKey = sm2VerifyImpl pubKey (signedDigest userId msg pubKey) sign.1 sign.2 := by
  have htwo : ∀ c ∈ [(sm3 (sm3ZPieces userId pubKey).flatten).bytes, msg], c.length < 2 ^ 31 := by
    intro c hc
    rw [List.mem_pair] at hc
    rcases hc with rfl | rfl
    · rw [Digits.length_eq]
      decide
    · exact hmsg
  rw [htSm2Verify, sm3Z_eq hid, Option.bind_some, digestOf_eq htwo, Option.bind_some]
  simp only [List.flatten_cons, List.flatten_nil, List.append_nil]
  rfl

instance (d s t : ℕ) : Decidable (Clear d s t) := inferInstanceAs (Decidable (∀ i < _, _))

/-- **A message that `ht_sm2_sign` signs, `ht_sm2_verify` takes**, with the public key of the private key: where the
nonce is none of the four scalars, `s` is not zero and nothing on the way of the check meets. -/
theorem htSm2Verify_of_htSm2Sign {random prikey : Vli} {message id : Bytes} {sign : Vli × Vli}
    (hid : id.length < 2 ^ 31) (hmessage : message.length + 32 < 2 ^ 31) (hkey : Key prikey)
    (hnonce : Scalar (sm2Nonce random))
    (hsign : htSm2Sign true random message id prikey (sm2MakePubkey prikey) = some (0, some sign))
    (hs : (eccB2e sign.2).val ≠ 0)
    (hclear : Clear (eccB2e prikey).val (eccB2e sign.2).val (modAddN (eccB2e sign.1) (eccB2e sign.2)).val) :
    htSm2Verify sign message id (sm2MakePubkey prikey) = some 0 := by
  rw [htSm2Sign_eq hid hmessage] at hsign
  rw [htSm2Verify_eq hid (by omega)]
  rcases hmade : sm2SignImpl random prikey (signedDigest id message (sm2MakePubkey prikey)) with _ | ⟨r, s⟩
  · rw [hmade] at hsign
    exact absurd (congrArg Prod.fst (Option.some.inj hsign)) (show (-1 : ℤ) ≠ 0 by decide)
  · rw [hmade] at hsign
    obtain rfl := Option.some.inj (congrArg Prod.snd (Option.some.inj hsign))
    exact sm2VerifyImpl_of_sign hkey hnonce hmade hs hclear

/-- The double of the base point. -/
def twiceG : EccPoint where
  x := Digits.ofNat 32 0x56cefd60d7c87c000d58ef57fa73ba4d9c0dfa08c08a7331495c2e1da3f2bd52
  y := Digits.ofNat 32 0x31b7e7e6cc8189f668535ce0f8eaf1bd6de84c182f6c8e716f780d3a970a23c3

theorem repMod_twiceG : RepMod (2 • basePoint) (twiceG.x.val, twiceG.y.val) 1 := by
  have hdouble : isDouble eccP.val (eccG.x.val, eccG.y.val) (twiceG.x.val, twiceG.y.val) = true := by decide +kernel
  rw [two_nsmul]
  exact repMod_basePoint.of_isDouble short_eccCurve eccCurve_a₄ two_lt_eccP eccG_y_ne_zero hdouble

theorem twiceG_isPoint : twiceG.IsPoint (2 • basePoint) :=
  ⟨_, _, ⟨⟨by decide +kernel, rfl⟩, ⟨by decide +kernel, rfl⟩⟩, repMod_twiceG⟩

/-- A private key, and bytes that make a nonce: both are the scalar two. -/
def prikeyTwo : Vli := eccB2e (Digits.ofNat 32 2)

theorem val_prikeyTwo : (eccB2e prikeyTwo).val = 2 := by decide

theorem key_prikeyTwo : Key prikeyTwo := by
  have hlarge := large_eccN
  exact ⟨val_prikeyTwo.ge, by rw [val_prikeyTwo]; omega⟩

theorem scalar_two : Scalar (sm2Nonce prikeyTwo) := ⟨by decide +kernel, by decide +kernel, by decide +kernel⟩

theorem mult_two : eccPointMult eccG (eccB2e prikeyTwo) none = twiceG :=
  key_prikeyTwo.scalar.mult.unique twiceG_isPoint

theorem pubkey_prikeyTwo : sm2MakePubkey prikeyTwo = twiceG.b2e := by rw [sm2MakePubkey, mult_two]

set_option maxRecDepth 4000 in
theorem digest_empty : signedDigest [] [] twiceG.b2e =
    eccB2e (Digits.ofNat 32 0x18fd19d8512672e22417b00471330f2d1d98cac5fc8dfc04cc3e1ecc60d646c9) := by decide +kernel

/-- The signature of the digest of nothing with the key two and the nonce two. -/
def rTwo : Fin eccN.val :=
  ⟨50567323275151078782222242428027689768251014979769465622229083434022991365147, by decide +kernel⟩

/-- Its other part. -/
def sTwo : Fin eccN.val :=
  ⟨82080540360255529568272183595335766253894280405111434153024420400278111469159, by decide +kernel⟩

theorem val_rTwo : (eccB2e (eccB2e (Digits.ofNat 32 rTwo.val))).val = rTwo.val := by decide +kernel

/-- What `sm2_sign_impl` makes with the key two and the nonce two for the digest of nothing. -/
theorem sign_two : ∃ s, sm2SignImpl prikeyTwo prikeyTwo (signedDigest [] [] twiceG.b2e) =
      some (eccB2e (Digits.ofNat 32 rTwo.val), s) ∧ (eccB2e s).val = sTwo.val := by
  have hr : signedX (eccPointMult eccG (sm2Nonce prikeyTwo) none).x (signedDigest [] [] twiceG.b2e) =
      Digits.ofNat 32 rTwo.val := by
    rw [show sm2Nonce prikeyTwo = eccB2e prikeyTwo by decide +kernel, mult_two, digest_empty]
    decide +kernel
  obtain ⟨s, hs⟩ := @sm2SignImpl_isSome prikeyTwo prikeyTwo (signedDigest [] [] twiceG.b2e) (by decide +kernel)
    (by rw [hr]; decide +kernel)
  obtain ⟨-, -, hlt, hval⟩ := sm2SignImpl_spec key_prikeyTwo hs
  rw [hr] at hs
  refine ⟨s, hs, ?_⟩
  -- three times the number, and twice `r`, are two
  have hmod : (3 * sTwo.val + 2 * rTwo.val) % eccN.val = 2 % eccN.val := by decide +kernel
  have hcast := (ZMod.natCast_eq_natCast_iff' _ _ _).mpr hmod
  have hthree : (3 : Fn) ≠ 0 := by
    have hdvd : ¬ eccN.val ∣ 3 := by decide +kernel
    rw [← ZMod.natCast_eq_zero_iff] at hdvd
    exact_mod_cast hdvd
  rw [hr, val_rTwo, val_prikeyTwo,
    show (sm2Nonce prikeyTwo).val = 2 by decide +kernel] at hval
  have heq : ((eccB2e s).val : Fn) = (sTwo.val : ℕ) := by
    rw [hval, show ((2 : ℕ) : Fn) + 1 = 3 by push_cast; ring, inv_mul_eq_iff_eq_mul₀ hthree]
    push_cast at hcast ⊢
    linear_combination -hcast
  rw [ZMod.natCast_eq_natCast_iff', Nat.mod_eq_of_lt hlt] at heq
  rw [heq]
  decide +kernel

theorem htSm2Verify_empty : ∃ sign, htSm2Sign true prikeyTwo [] [] prikeyTwo (sm2MakePubkey prikeyTwo) =
      some (0, some sign) ∧ htSm2Verify sign [] [] (sm2MakePubkey prikeyTwo) = some 0 := by
  obtain ⟨s, hsign, hs⟩ := sign_two
  rw [← pubkey_prikeyTwo] at hsign
  have hmade := @htSm2Sign_eq prikeyTwo [] [] prikeyTwo (sm2MakePubkey prikeyTwo) (by decide) (by decide)
  rw [hsign] at hmade
  have ht : (modAddN (eccB2e (eccB2e (Digits.ofNat 32 rTwo.val))) (eccB2e s)).val =
      (rTwo.val + sTwo.val) % eccN.val := by
    unfold modAddN
    rw [vliModAdd_val (by rw [val_rTwo]; exact rTwo.isLt) (by rw [hs]; exact sTwo.isLt), val_rTwo, hs]
  refine ⟨_, hmade, ?_⟩
  refine htSm2Verify_of_htSm2Sign (by decide) (by decide) key_prikeyTwo scalar_two hmade (by rw [hs]; decide) ?_
  rw [hs, ht]
  decide +kernel

/-- **`ht_sm2_verify` takes a signature exactly when** its two numbers are in range and the first coordinate of the
point they make, added to the digest of the message, is the first of them. -/
theorem htSm2Verify_eq_zero_iff {prikey : Vli} {message id : Bytes} {sign : Vli × Vli} (hid : id.length < 2 ^ 31)
    (hmessage : message.length < 2 ^ 31) (hkey : Key prikey)
    (hhash : (eccB2e (signedDigest id message (sm2MakePubkey prikey))).val < eccN.val)
    (hclear : Clear (eccB2e prikey).val (eccB2e sign.2).val (modAddN (eccB2e sign.1) (eccB2e sign.2)).val) :
    htSm2Verify sign message id (sm2MakePubkey prikey) = some 0 ↔
      Signed (eccB2e prikey).val (eccB2e (signedDigest id message (sm2MakePubkey prikey))).val
        (eccB2e sign.1).val (eccB2e sign.2).val := by
  rw [htSm2Verify_eq hid hmessage]
  exact sm2VerifyImpl_eq_zero_iff hkey hhash hclear

/-- One and three for a signature of nothing. -/
theorem htSm2Verify_eq_zero_iff_one_three :
    htSm2Verify (eccB2e (Digits.ofNat 32 1), eccB2e (Digits.ofNat 32 3)) [] [] (sm2MakePubkey prikeyTwo) = some 0 ↔
      Signed (eccB2e prikeyTwo).val (eccB2e (signedDigest [] [] (sm2MakePubkey prikeyTwo))).val
        (eccB2e (eccB2e (Digits.ofNat 32 1))).val (eccB2e (eccB2e (Digits.ofNat 32 3))).val := by
  refine htSm2Verify_eq_zero_iff (by decide) (by decide) key_prikeyTwo ?_ (by decide +kernel)
  rw [pubkey_prikeyTwo, digest_empty]
  decide +kernel

end Httcutils
end TsbAgent
