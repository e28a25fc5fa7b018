/-
# Agreeing on a key

`ht_sm2_dh_key` (`tss-main/httcutils/src/sm/sm2.c`): each side sends the public half `R` of a temporary key and
multiplies the sum of the other's public key and a multiple of the other's `R` by a number of its own keys.  Both reach
the same point (`sm2SharedPoint_comm`), so one as the requestor and one as the responder make the same key, and what
either keeps as the digest to expect is what the other sends (`htSm2DhKey_agree`).

The multiple of `R` is by the lower half of its first coordinate with the top bit set (`sm2_w`), which the ladder of
`ecc_point_mult` always gets right; the other scalars may hit its exceptions, and `ecc_point_add` two equal points
(`Party.Sound`).  `ht_sm2_dh_key` does not look at the answer of `sm2_shared_point`, which leaves the point as the stack
held it where the other's `R` is not on the curve.
-/

import TsbAgent.Httcutils.Sm2Cipher

namespace TsbAgent
namespace Httcutils

open CoZ Libc Word

/-! ### The functions -/

/-- The first 16 bytes, with zeros behind them. -/
def lowerHalf (x : Vli) : Vli :=
  ⟨x.bytes.take 16 ++ List.replicate 16 0, by
    rw [List.length_append, List.length_take, x.length_eq, List.length_replicate]
    rfl⟩

/-- `sm2_w`. -/
def sm2W (x : Vli) : Vli := (lowerHalf x).set 15 ((lowerHalf x).get 15 ||| 0x80)

/-- `tA` of `sm2_shared_point`. -/
def sharedScalar (selfPriKey selfTempPriKey : Vli) (selfTempPubKey : EccPoint) : Vli :=
  let temp1 := modMultN (eccB2e selfTempPriKey) (sm2W selfTempPubKey.b2e.x)
  modAddN (eccB2e selfPriKey) temp1

/-- The point of `sm2_shared_point` that is multiplied. -/
def sharedSum (otherPubKey otherTempPubKey : EccPoint) : EccPoint :=
  eccPointAdd otherPubKey.b2e (eccPointMult otherTempPubKey.b2e (sm2W otherTempPubKey.b2e.x) none)

/-- `sm2_shared_point`; `none` for the answer `-1`. -/
def sm2SharedPoint (selfPriKey selfTempPriKey : Vli) (selfTempPubKey otherPubKey otherTempPubKey : EccPoint) :
    Option EccPoint :=
  let tA := sharedScalar selfPriKey selfTempPriKey selfTempPubKey
  if eccValidPublicKey otherTempPubKey.b2e ≠ 0 then none
  else some (eccPointMult (sharedSum otherPubKey otherTempPubKey) (modMultN tA eccH) none).b2e

/-- `ECC_Key_ex_hash1`. -/
def eccKeyExHash1 (x : Vli) (ra rb : EccPoint) (za zb : Bytes) : Option Vli :=
  digestOf [x.bytes, za, zb, ra.x.bytes, ra.y.bytes, rb.x.bytes, rb.y.bytes]

/-- `ECC_Key_ex_hash2`. -/
def eccKeyExHash2 (temp : UInt8) (y : Vli) (hash : Vli) : Option Vli := digestOf [[temp], y.bytes, hash.bytes]

/-- What `ht_sm2_dh_key` writes. -/
structure DhKey where
  outkey : Bytes
  dgstS1 : Vli
  dgstSA : Vli

/-- What `ht_sm2_dh_key` computes of the point: the requestor's identity and temporary key first. -/
def dhKeyOf (uv : EccPoint) (keylen : ℕ) (first second : Bytes) (ra rb : EccPoint) : Option (Bytes × Vli × Vli) :=
  (sm3Kdf (uv.bytes ++ first ++ second) keylen).bind fun outkey =>
    (eccKeyExHash1 uv.x ra rb first second).bind fun hash1 =>
      (eccKeyExHash2 0x02 uv.y hash1).bind fun two =>
        (eccKeyExHash2 0x03 uv.y hash1).map fun three => (outkey, two, three)

/-- `ht_sm2_dh_key`, with what the stack held where the point is; `pubkey_a` is not read, and the private keys have 32
bytes by their type. -/
def htSm2DhKey (stack : EccPoint) (keylen : ℕ) (uidA uidB : Bytes) (prikeyA prikeyTempA : Vli)
    (pubkeyB pubkeyTempA pubkeyTempB : EccPoint) (role : ℤ) : Option (ℤ × Option DhKey) :=
  if uidA.length ≠ 32 ∨ uidA.length ≠ 32 ∨ uidB.length ≠ 32 then some (-1, none)
  else
    let uv := (sm2SharedPoint prikeyA prikeyTempA pubkeyTempA pubkeyB pubkeyTempB).getD stack
    if role = 0 then
      (dhKeyOf uv keylen uidA uidB pubkeyTempA pubkeyTempB).map fun r => (0, some ⟨r.1, r.2.1, r.2.2⟩)
    else
      (dhKeyOf uv keylen uidB uidA pubkeyTempB pubkeyTempA).map fun r => (0, some ⟨r.1, r.2.2, r.2.1⟩)

/-! ### The scalar of `sm2_w` -/

theorem lowerHalf_lt (x : Vli) : (lowerHalf x).val < 2 ^ 128 := by
  have hval : (lowerHalf x).val = ofHost (x.bytes.take 16) := by
    rw [Digits.val, lowerHalf, Digits.ofHost_append, Digits.ofHost_zeros, Nat.mul_zero, Nat.add_zero]
  have hlen : (x.bytes.take 16).length = 16 := by
    rw [List.length_take, x.length_eq]
    rfl
  have hlt := ofHost_lt (x.bytes.take 16)
  rw [hlen] at hlt
  rw [hval]
  exact lt_of_lt_of_le hlt (by decide)

theorem sm2W_bounds (x : Vli) : 2 ^ 127 ≤ (sm2W x).val ∧ (sm2W x).val < 2 ^ 128 := by
  have hlt := lowerHalf_lt x
  have hset := (lowerHalf x).val_set ((lowerHalf x).get 15 ||| 0x80) (show 15 < eccNumword by decide)
  have hbyte := (lowerHalf x).toNat_get 15
  have hge : 2 ^ 7 ≤ ((lowerHalf x).get 15 ||| 0x80).toNat := by
    rw [UInt8.toNat_or]
    exact Nat.right_le_or
  have hle : ((lowerHalf x).get 15 ||| 0x80).toNat ≤ 255 := Nat.le_of_lt_succ (UInt8.toNat_lt _)
  -- what is below the byte
  have hsmall : (lowerHalf x).val / 256 ^ 15 < 256 := Nat.div_lt_of_lt_mul (lt_of_lt_of_le hlt (by decide))
  have hsplit := Nat.div_add_mod (lowerHalf x).val (256 ^ 15)
  have hmod := Nat.mod_lt (lowerHalf x).val (show 0 < 256 ^ 15 by decide)
  rw [Nat.mod_eq_of_lt hsmall] at hbyte
  rw [hbyte] at hset
  rw [sm2W]
  have hlow := Nat.mul_le_mul_right (256 ^ 15) hge
  have hhigh := Nat.mul_le_mul_right (256 ^ 15) hle
  have h127 : (2 : ℕ) ^ 7 * 256 ^ 15 = 2 ^ 127 := by decide
  have h128 : 255 * 256 ^ 15 + 256 ^ 15 = 2 ^ 128 := by decide
  rw [h127] at hlow
  rw [Nat.mul_comm] at hsplit
  constructor <;> omega

/-- The ladder gets it right for every coordinate. -/
theorem scalar_sm2W (x : Vli) : Scalar (sm2W x) := by
  obtain ⟨hge, hlt⟩ := sm2W_bounds x
  have hlarge := large_eccN
  exact ⟨le_trans (by decide) hge, by omega, by omega⟩

/-! ### The common point -/

/-- The keys of one side: a private key and a temporary one. -/
structure Party where
  prikey : Vli
  tempPrikey : Vli

namespace Party

variable (a b : Party)

/-- The public key. -/
def pubkey : EccPoint := sm2MakePubkey a.prikey

/-- The temporary public key that is sent. -/
def tempPubkey : EccPoint := sm2MakePubkey a.tempPrikey

/-- The private key as a number. -/
def d : ℕ := (eccB2e a.prikey).val

/-- The temporary key as a number. -/
def r : ℕ := (eccB2e a.tempPrikey).val

/-- The scalar of `sm2_w` for the temporary public key. -/
def w : ℕ := (sm2W a.tempPubkey.b2e.x).val

/-- The scalar of `sm2_shared_point`. -/
def t : Vli := sharedScalar a.prikey a.tempPrikey a.tempPubkey

/-- The keys are in range, and the sum of the public ones is one the code can add. -/
structure Fit : Prop where
  key : Key a.prikey
  temp : Key a.tempPrikey
  tempX : a.tempPubkey.b2e.x.val ≠ 0
  apart : a.d % eccN.val ≠ a.w * a.r % eccN.val
  scalar : Scalar a.t

/-- Neither side meets an exception of the point functions with these keys. -/
structure Sound : Prop extends Fit a where
  sumX : (sharedSum a.pubkey a.tempPubkey).x.val ≠ 0

end Party

theorem Party.t_eq {a : Party} (hkey : Key a.prikey) :
    a.t.val < eccN.val ∧ (a.t.val : Fn) = a.d + a.w * a.r := by
  have hlt := hkey.lt
  have hprod := modMultN_lt (eccB2e a.tempPrikey) (sm2W a.tempPubkey.b2e.x)
  have hadd := modAddN_lt (a := eccB2e a.prikey) (by omega) hprod.1
  rw [hprod.2] at hadd
  rw [Party.t, sharedScalar, Party.d, Party.r, Party.w, mul_comm ((sm2W a.tempPubkey.b2e.x).val : Fn)]
  exact hadd

/-- The sum that the other side multiplies. -/
theorem Party.sum_isPoint {a : Party} (h : a.Fit) :
    (sharedSum a.pubkey a.tempPubkey).IsPoint (a.t.val • basePoint) := by
  obtain ⟨hlt, ht⟩ := Party.t_eq h.key
  have hmult := (scalar_sm2W a.tempPubkey.b2e.x).mult_multiple h.temp.scalar.not_dvd h.temp.pubkey h.tempX
  have hsum : a.d • basePoint + (a.w * a.r) • basePoint = a.t.val • basePoint := by
    rw [← add_nsmul, nsmul_basePoint_eq, ht]
    push_cast
    ring
  have hne : a.t.val • basePoint ≠ 0 := fun h0 => h.scalar.not_dvd (nsmul_basePoint_eq_zero.mp h0)
  have hdiff : a.d • basePoint - (a.w * a.r) • basePoint ≠ 0 := by
    rw [sub_ne_zero, Ne, nsmul_basePoint_eq, ZMod.natCast_eq_natCast_iff']
    exact h.apart
  have hadd := h.key.pubkey.add short_eccCurve hmult (by rw [← hsum] at hne; exact hne) hdiff
  rw [← hsum]
  exact hadd

/-- What one side computes of the keys of the other. -/
theorem sm2SharedPoint_eq {a b : Party} (ha : a.Sound) (hb : b.Sound) :
    ∃ p : EccPoint, p.IsPoint ((a.t.val * b.t.val) • basePoint) ∧
      sm2SharedPoint a.prikey a.tempPrikey a.tempPubkey b.pubkey b.tempPubkey = some p.b2e := by
  have hone : modMultN a.t eccH = a.t := by
    have hprod := modMultN_lt a.t eccH
    obtain ⟨hlt, -⟩ := Party.t_eq ha.key
    refine Digits.ext_val ?_
    have hval : (eccH.val : Fn) = 1 := by rw [show eccH.val = 1 by decide, Nat.cast_one]
    rw [hval, mul_one, ZMod.natCast_eq_natCast_iff', Nat.mod_eq_of_lt hprod.1, Nat.mod_eq_of_lt hlt] at hprod
    exact hprod.2
  refine ⟨_, ha.scalar.mult_multiple hb.scalar.not_dvd (Party.sum_isPoint hb.toFit) hb.sumX, ?_⟩
  have hvalid : eccValidPublicKey b.tempPubkey.b2e = 0 := hb.temp.pubkey.valid
  rw [sm2SharedPoint, if_neg (not_not.mpr hvalid),
    show sharedScalar a.prikey a.tempPrikey a.tempPubkey = a.t from rfl, hone]

/-- **Both sides reach the same point.** -/
theorem sm2SharedPoint_comm {a b : Party} (ha : a.Sound) (hb : b.Sound) :
    ∃ p, sm2SharedPoint a.prikey a.tempPrikey a.tempPubkey b.pubkey b.tempPubkey = some p ∧
      sm2SharedPoint b.prikey b.tempPrikey b.tempPubkey a.pubkey a.tempPubkey = some p := by
  obtain ⟨p, hp, hab⟩ := sm2SharedPoint_eq ha hb
  obtain ⟨p', hp', hba⟩ := sm2SharedPoint_eq hb ha
  rw [Nat.mul_comm] at hp'
  rw [hp'.unique hp] at hba
  exact ⟨p.b2e, hab, hba⟩

/-! ### The common key -/

theorem dhKeyOf_isSome (uv : EccPoint) (keylen : ℕ) {first second : Bytes} (h₁ : first.length = 32)
    (h₂ : second.length = 32) (ra rb : EccPoint) :
    ∃ r, dhKeyOf uv keylen first second ra rb = some r ∧ r.1.length = keylen := by
  have hseed : (uv.bytes ++ first ++ second).length < 2 ^ 31 := by
    rw [List.length_append, List.length_append, length_bytes, h₁, h₂]
    decide
  obtain ⟨outkey, hkey, hlen⟩ := length_sm3Kdf hseed keylen
  have hvli : ∀ v : Vli, v.bytes.length < 2 ^ 31 := fun v => by
    rw [v.length_eq]
    decide
  obtain ⟨hash1, hh₁⟩ : ∃ hash1, eccKeyExHash1 uv.x ra rb first second = some hash1 := digestOf_isSome (by
    intro c hc
    simp only [List.mem_cons, List.not_mem_nil, or_false] at hc
    rcases hc with rfl | rfl | rfl | rfl | rfl | rfl | rfl
    · exact hvli _
    · omega
    · omega
    all_goals exact hvli _)
  have hhash2 : ∀ temp, ∃ hash, eccKeyExHash2 temp uv.y hash1 = some hash := fun temp => digestOf_isSome (by
    intro c hc
    simp only [List.mem_cons, List.not_mem_nil, or_false] at hc
    rcases hc with rfl | rfl | rfl
    · exact show 1 < 2 ^ 31 by decide
    · exact hvli _
    · exact hvli _)
  obtain ⟨two, htwo⟩ := hhash2 0x02
  obtain ⟨three, hthree⟩ := hhash2 0x03
  refine ⟨(outkey, two, three), ?_, hlen⟩
  rw [dhKeyOf, hkey, Option.bind_some, hh₁, Option.bind_some, htwo, Option.bind_some, hthree, Option.map_some]

/-- **The two sides agree**: the requestor and the responder make the same key, of the length they ask for, and each
makes the digest the other expects. -/
theorem htSm2DhKey_agree {a b : Party} (ha : a.Sound) (hb : b.Sound) {ida idb : Bytes} (hida : ida.length = 32)
    (hidb : idb.length = 32) (stack stack' : EccPoint) (keylen : ℕ) {role : ℤ} (hrole : role ≠ 0) :
    ∃ ka kb, htSm2DhKey stack keylen ida idb a.prikey a.tempPrikey b.pubkey a.tempPubkey b.tempPubkey 0 =
        some (0, some ka) ∧
      htSm2DhKey stack' keylen idb ida b.prikey b.tempPrikey a.pubkey b.tempPubkey a.tempPubkey role =
        some (0, some kb) ∧
      ka.outkey = kb.outkey ∧ ka.outkey.length = keylen ∧ ka.dgstS1 = kb.dgstSA ∧ ka.dgstSA = kb.dgstS1 := by
  obtain ⟨p, hab, hba⟩ := sm2SharedPoint_comm ha hb
  obtain ⟨r, hr, hlen⟩ := dhKeyOf_isSome p keylen hida hidb a.tempPubkey b.tempPubkey
  have hcheck : ∀ {u v : Bytes}, u.length = 32 → v.length = 32 →
      ¬ (u.length ≠ 32 ∨ u.length ≠ 32 ∨ v.length ≠ 32) := fun hu hv => by omega
  refine ⟨⟨r.1, r.2.1, r.2.2⟩, ⟨r.1, r.2.2, r.2.1⟩, ?_, ?_, rfl, hlen, rfl, rfl⟩
  · rw [htSm2DhKey, if_neg (hcheck hida hidb), if_pos rfl, hab, Option.getD_some, hr, Option.map_some]
  · rw [htSm2DhKey, if_neg (hcheck hidb hida), if_neg hrole, hba, Option.getD_some, hr, Option.map_some]

/-- The number that is `t`. -/
theorem Party.val_t {a : Party} (hkey : Key a.prikey) : a.t.val = (a.d + a.w * a.r) % eccN.val := by
  obtain ⟨hlt, ht⟩ := Party.t_eq hkey
  rw [← Nat.cast_mul, ← Nat.cast_add, ZMod.natCast_eq_natCast_iff', Nat.mod_eq_of_lt hlt] at ht
  exact ht

theorem Party.sound_of_run {a : Party} (h : a.Fit) {i : ℕ} (hi : a.t.val / 2 ^ i = 1)
    (hend : endsNonzero eccP.val a.t.val i (eccG.x.val, eccG.y.val) = true) : a.Sound := by
  refine ⟨h, ?_⟩
  obtain ⟨X, Y, hh, hr⟩ := Party.sum_isPoint h
  intro h0
  exact ne_zero_of_endsNonzero short_eccCurve eccCurve_a₄ two_lt_eccP repMod_basePoint eccG_y_ne_zero hi hend hr
    (hh.x.eq_zero_iff.mpr h0)

/-- The private key four. -/
def prikeyFour : Vli := eccB2e (Digits.ofNat 32 4)

theorem val_prikeyFour : (eccB2e prikeyFour).val = 4 := by decide

theorem key_prikeyFour : Key prikeyFour := by
  have hlarge := large_eccN
  exact ⟨by rw [val_prikeyFour]; decide, by rw [val_prikeyFour]; omega⟩

theorem pubkey_prikeyFour : (sm2MakePubkey prikeyFour).b2e = fourG := by
  rw [sm2MakePubkey, EccPoint.b2e_b2e]
  have hmult := key_prikeyFour.scalar.mult
  rw [val_prikeyFour, show 4 = 2 * 2 from rfl] at hmult
  exact hmult.unique fourG_isPoint

/-- The keys two and four. -/
def requestor : Party := ⟨prikeyTwo, prikeyFour⟩

/-- The keys four and two. -/
def responder : Party := ⟨prikeyFour, prikeyTwo⟩

theorem requestor_sound : requestor.Sound := by
  have hkey : Key requestor.prikey := key_prikeyTwo
  have htemp : requestor.tempPubkey.b2e = fourG := pubkey_prikeyFour
  have hw : requestor.w = (sm2W fourG.x).val := by rw [Party.w, htemp]
  have hd : requestor.d = 2 := by decide +kernel
  have hr : requestor.r = 4 := by decide +kernel
  have ht := Party.val_t hkey
  rw [hw, hd, hr] at ht
  have hfit : requestor.Fit := by
    refine ⟨hkey, key_prikeyFour, ?_, ?_, ?_⟩
    · rw [htemp]
      decide +kernel
    · rw [hw, hd, hr]
      decide +kernel
    · constructor <;> rw [ht] <;> decide +kernel
  exact Party.sound_of_run (i := 129) hfit (by rw [ht]; decide +kernel) (by rw [ht]; decide +kernel)

theorem responder_sound : responder.Sound := by
  have hkey : Key responder.prikey := key_prikeyFour
  have htemp : responder.tempPubkey.b2e = twiceG := by
    rw [Party.tempPubkey, responder, pubkey_prikeyTwo, EccPoint.b2e_b2e]
  have hw : responder.w = (sm2W twiceG.x).val := by rw [Party.w, htemp]
  have hd : responder.d = 4 := by decide +kernel
  have hr : responder.r = 2 := by decide +kernel
  have ht := Party.val_t hkey
  rw [hw, hd, hr] at ht
  have hfit : responder.Fit := by
    refine ⟨hkey, key_prikeyTwo, ?_, ?_, ?_⟩
    · rw [htemp]
      decide +kernel
    · rw [hw, hd, hr]
      decide +kernel
    · constructor <;> rw [ht] <;> decide +kernel
  exact Party.sound_of_run (i := 128) hfit (by rw [ht]; decide +kernel) (by rw [ht]; decide +kernel)

theorem htSm2DhKey_two_four : ∃ ka kb,
    htSm2DhKey eccG 16 (List.replicate 32 1) (List.replicate 32 2) prikeyTwo prikeyFour responder.pubkey
        requestor.tempPubkey responder.tempPubkey 0 = some (0, some ka) ∧
      htSm2DhKey eccG 16 (List.replicate 32 2) (List.replicate 32 1) prikeyFour prikeyTwo requestor.pubkey
        responder.tempPubkey requestor.tempPubkey 1 = some (0, some kb) ∧
      ka.outkey = kb.outkey ∧ ka.outkey.length = 16 ∧ ka.dgstS1 = kb.dgstSA ∧ ka.dgstSA = kb.dgstS1 :=
  htSm2DhKey_agree requestor_sound responder_sound (by decide) (by decide) eccG eccG 16 (by decide)

end Httcutils
end TsbAgent
