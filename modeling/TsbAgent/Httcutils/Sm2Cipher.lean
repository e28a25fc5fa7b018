/-
# SM2 encryption

`tss-main/httcutils/src/sm/sm2.c`: `ht_sm2_encrypt` writes a byte `4`, the point `k G` of its nonce, a digest and the
message under a mask; `ht_sm2_decrypt` multiplies the point by the private key and finds the same point as the other
side, so the same mask.  What is encrypted for a public key is decrypted with its private key
(`htSm2Decrypt_of_htSm2Encrypt`), where none of the three points has a first coordinate that is zero: the ladder of
`ecc_point_mult` divides by it, and a zero in the common point makes both functions stop with the answer zero.

Both check that a point times the cofactor is on the curve.  The cofactor is one, which `ecc_point_mult` takes for
three; three times the point is on the curve as well.  `ht_sm2_decrypt` turns the point round in the caller's buffer.
-/

import TsbAgent.Httcutils.Sm2

namespace TsbAgent
namespace Httcutils

open CoZ Libc Word

/-! ### The functions -/

/-- `digit2str32`. -/
def digit2str32 (x : UInt32) : Bytes :=
  [((x >>> 24) &&& 0xFF).toUInt8, ((x >>> 16) &&& 0xFF).toUInt8, ((x >>> 8) &&& 0xFF).toUInt8, (x &&& 0xFF).toUInt8]

/-- The loop of `sm3_kdf`. -/
def kdfLoop (seed : Bytes) : ℕ → UInt32 → Option Bytes
  | 0, _ => some []
  | t + 1, ct =>
      (digestOf [seed, digit2str32 ct]).bind fun hash => (kdfLoop seed t (ct + 1)).map (hash.bytes ++ ·)

/-- `sm3_kdf`. -/
def sm3Kdf (seed : Bytes) (maskLen : ℕ) : Option Bytes :=
  (kdfLoop seed (maskLen / 32) 1).bind fun mask =>
    if maskLen % 32 ≠ 0 then
      (digestOf [seed, digit2str32 (1 + UInt32.ofNat (maskLen / 32))]).map fun hash =>
        mask ++ hash.bytes.take (maskLen % 32)
    else some mask

/-- Byte by byte. -/
def xorBytes (a b : Bytes) : Bytes := List.zipWith (· ^^^ ·) a b

/-- The bytes of a point. -/
def EccPoint.bytes (p : EccPoint) : Bytes := p.x.bytes ++ p.y.bytes

/-- `ht_sm2_encrypt` with the bytes drawn for the nonce: the answer, and the ciphertext where it is complete. -/
def htSm2Encrypt (random : Vli) (m : Bytes) (pubKey : EccPoint) : Option (ℤ × Option Bytes) :=
  let pub := pubKey.b2e
  let rng := eccB2e random
  let c1 := (eccPointMult eccG rng none).b2e
  let s := eccPointMult pub eccH none
  if eccValidPublicKey s ≠ 0 then some (-1, none)
  else
    let kP := (eccPointMult pub rng none).b2e
    (sm3Kdf kP.bytes m.length).bind fun t =>
      if vliIsZero kP.x ∨ vliIsZero kP.y then some (0, none)
      else
        (digestOf [kP.x.bytes, m, kP.y.bytes]).map fun c3 =>
          (0, some (0x04 :: (c1.bytes ++ c3.bytes ++ xorBytes m t)))

/-- 32 bytes read as a number; `none` where there are not so many. -/
def readVli (b : Bytes) (off : ℕ) : Option Vli :=
  if h : (fieldAt b off eccNumword).length = eccNumword then some ⟨fieldAt b off eccNumword, h⟩ else none

/-- `ht_sm2_decrypt`: the answer, the message where it is unmasked, and the buffer of the ciphertext afterwards;
`none` for a read behind the ciphertext, and for the mask of length `-1` that 96 bytes ask for. -/
def htSm2Decrypt (c : Bytes) (prikey : Vli) : Option (ℤ × Option Bytes × Bytes) :=
  if c.length < eccNumword * 3 ∨ c.headD 0 ≠ 0x04 then some (-1, none, c)
  else
    (readVli c 1).bind fun x => (readVli c (1 + eccNumword)).bind fun y =>
      let pri := eccB2e prikey
      let c1 := (EccPoint.mk x y).b2e
      let c' := c.take 1 ++ c1.bytes ++ c.drop (1 + eccNumword * 2)
      if eccValidPublicKey c1 ≠ 0 then some (-1, none, c')
      else if eccValidPublicKey (eccPointMult c1 eccH none) ≠ 0 then some (-1, none, c')
      else if c.length < eccNumword * 3 + 1 then none
      else
        let outlen := c.length - eccNumword * 3 - 1
        let dB := (eccPointMult c1 pri none).b2e
        (sm3Kdf dB.bytes outlen).bind fun mask =>
          if vliIsZero dB.x ∨ vliIsZero dB.y then some (0, none, c')
          else
            let m := xorBytes mask (c'.drop (1 + eccNumword * 2 + eccNumword))
            (digestOf [dB.x.bytes, m, dB.y.bytes]).bind fun hash =>
              (readVli c' (1 + eccNumword * 2)).map fun c3 =>
                if hash ≠ c3 then (-1, some m, c') else (0, some m, c')

/-! ### The mask -/

theorem digestOf_isSome {chunks : List Bytes} (h : ∀ c ∈ chunks, c.length < 2 ^ 31) :
    ∃ hash, digestOf chunks = some hash := ⟨_, digestOf_eq h⟩

theorem length_kdfLoop {seed : Bytes} (hseed : seed.length < 2 ^ 31) (t : ℕ) (ct : UInt32) :
    ∃ mask, kdfLoop seed t ct = some mask ∧ mask.length = 32 * t := by
  induction t generalizing ct with
  | zero => exact ⟨[], rfl, rfl⟩
  | succ t ih =>
      obtain ⟨mask, hmask, hlen⟩ := ih (ct + 1)
      obtain ⟨hash, hhash⟩ := @digestOf_isSome [seed, digit2str32 ct] (by
        intro c hc
        rw [List.mem_pair] at hc
        rcases hc with rfl | rfl
        · exact hseed
        · exact show 4 < 2 ^ 31 by decide)
      refine ⟨hash.bytes ++ mask, ?_, ?_⟩
      · rw [kdfLoop, hhash, Option.bind_some, hmask]
        rfl
      · rw [List.length_append, hash.length_eq, hlen]
        omega

/-- **`sm3_kdf` fills the mask.** -/
theorem length_sm3Kdf {seed : Bytes} (hseed : seed.length < 2 ^ 31) (maskLen : ℕ) :
    ∃ mask, sm3Kdf seed maskLen = some mask ∧ mask.length = maskLen := by
  obtain ⟨mask, hmask, hlen⟩ := length_kdfLoop hseed (maskLen / 32) 1
  rw [sm3Kdf, hmask, Option.bind_some]
  rcases eq_or_ne (maskLen % 32) 0 with hz | hn
  · rw [if_neg (not_not.mpr hz)]
    exact ⟨mask, rfl, by omega⟩
  · obtain ⟨hash, hhash⟩ := @digestOf_isSome [seed, digit2str32 (1 + UInt32.ofNat (maskLen / 32))] (by
      intro c hc
      rw [List.mem_pair] at hc
      rcases hc with rfl | rfl
      · exact hseed
      · exact show 4 < 2 ^ 31 by decide)
    rw [if_pos hn, hhash]
    refine ⟨mask ++ hash.bytes.take (maskLen % 32), rfl, ?_⟩
    rw [List.length_append, List.length_take, hash.length_eq, hlen]
    omega

theorem length_xorBytes {a b : Bytes} (h : a.length = b.length) : (xorBytes a b).length = a.length := by
  rw [xorBytes, List.length_zipWith, h, Nat.min_self]

/-- Masked twice, a message is itself. -/
theorem xorBytes_mask {m t : Bytes} (h : t.length = m.length) : xorBytes t (xorBytes m t) = m := by
  induction m generalizing t with
  | nil => rw [List.length_eq_zero_iff.mp h]; rfl
  | cons x m ih =>
      cases t with
      | nil => exact absurd h (by simp)
      | cons y t =>
          rw [List.length_cons, List.length_cons, Nat.add_right_cancel_iff] at h
          rw [xorBytes, xorBytes, List.zipWith_cons_cons, List.zipWith_cons_cons]
          refine congrArg₂ List.cons ?_ (ih h)
          rw [UInt8.xor_comm x y, ← UInt8.xor_assoc, UInt8.xor_self, UInt8.zero_xor]

/-! ### The points -/

theorem Scalar.not_dvd {k : Vli} (h : Scalar k) : ¬ eccN.val ∣ k.val := by
  rintro ⟨c, hc⟩
  have hlt := vli_lt k
  have htwo := two_eccN
  have h2 := h.two_le
  have hne := h.ne
  rcases c with _ | _ | c
  · omega
  · omega
  · have hle : eccN.val * 2 ≤ eccN.val * (c + 1 + 1) := Nat.mul_le_mul_left _ (by omega)
    omega

theorem order_multiple {j : ℕ} (hj : ¬ eccN.val ∣ j) : addOrderOf (j • basePoint) = eccN.val := by
  refine addOrderOf_eq_prime ?_ (fun h => hj (nsmul_basePoint_eq_zero.mp h))
  rw [← mul_nsmul, nsmul_basePoint_eq_zero]
  exact dvd_mul_left _ _

/-- Multiples of a multiple of the base point. -/
theorem Scalar.mult_multiple {k : Vli} (h : Scalar k) {j : ℕ} (hj : ¬ eccN.val ∣ j) {p : EccPoint}
    (hp : p.IsPoint (j • basePoint)) (hx : p.x.val ≠ 0) :
    (eccPointMult p k none).IsPoint ((k.val * j) • basePoint) := by
  rw [mul_nsmul']
  exact hp.mult short_eccCurve eccCurve_a₄ hx h.two_le
    (fun _ hi hsize => regular_of_order (order_multiple hj) eccN_odd large_eccN (vli_lt k) h.ne_pred h.ne hi hsize)
    (by simp)

/-- The cofactor is one, the multiple is three times the point, and it is on the curve. -/
theorem valid_mult_eccH {j : ℕ} (hj : ¬ eccN.val ∣ j) {p : EccPoint} (hp : p.IsPoint (j • basePoint))
    (hx : p.x.val ≠ 0) : eccValidPublicKey (eccPointMult p eccH none) = 0 := by
  have hlarge := large_eccN
  have hreg := regular_of_order (order_multiple hj) eccN_odd hlarge (show 2 < 2 ^ 256 by decide)
    (show 2 ≠ eccN.val - 1 by omega) (show 2 ≠ eccN.val by omega) le_rfl (show 1 < Nat.size 2 by decide)
  have hone : eccH = vliOne := by decide
  rw [hone]
  exact (hp.mult_one short_eccCurve eccCurve_a₄ hx hreg).valid

theorem b2e_zero_iff (v : Vli) : vliIsZero (eccB2e v) = true ↔ v.val = 0 := by
  rw [← vliIsZero_iff, vliIsZero, vliIsZero, eccB2e, List.all_reverse]

/-- **`ecc_point_mult` multiplies** every multiple of the base point but zero by every number of 32 bytes but `0`,
`n - 1` and `n`, and by three instead of by one; a first coordinate of zero is what its last division needs not to be. -/
theorem eccPointMult_multiple {j : ℕ} (hj : ¬ eccN.val ∣ j) {p : EccPoint} (hp : p.IsPoint (j • basePoint))
    (hx : p.x.val ≠ 0) {k : Vli} (hzero : k.val ≠ 0) (hpred : k.val ≠ eccN.val - 1) (hne : k.val ≠ eccN.val) :
    (eccPointMult p k none).IsPoint (((if k.val = 1 then 3 else k.val) * j) • basePoint) := by
  rcases eq_or_ne k.val 1 with hone | hmore
  · have hk : k = vliOne := Digits.ext_val (hone.trans vliOne_val.symm)
    have hlarge := large_eccN
    have hreg := regular_of_order (order_multiple hj) eccN_odd hlarge (show 2 < 2 ^ 256 by decide)
      (show 2 ≠ eccN.val - 1 by omega) (show 2 ≠ eccN.val by omega) le_rfl (show 1 < Nat.size 2 by decide)
    rw [if_pos hone, hk, mul_nsmul']
    exact hp.mult_one short_eccCurve eccCurve_a₄ hx hreg
  · rw [if_neg hmore]
    exact Scalar.mult_multiple ⟨by omega, hpred, hne⟩ hj hp hx

/-- Seven times the base point. -/
theorem eccPointMult_multiple_seven :
    (eccPointMult eccG (Digits.ofNat eccNumword 7) none).IsPoint
      (((if (Digits.ofNat eccNumword 7).val = 1 then 3 else (Digits.ofNat eccNumword 7).val) * 1) • basePoint) :=
  eccPointMult_multiple (j := 1) (fun h => absurd (Nat.le_of_dvd (by decide) h) (by decide +kernel))
    (by rw [one_nsmul]; exact eccG_isPoint) eccG_x_ne_zero (by decide) (by decide +kernel) (by decide +kernel)

/-- A point of odd order has a second coordinate. -/
theorem y_ne_zero_of_order {j : ℕ} (hj : ¬ eccN.val ∣ j) {p : EccPoint} (hp : p.IsPoint (j • basePoint)) :
    p.y.val ≠ 0 := by
  obtain ⟨X, Y, hh, hr⟩ := hp
  have hdouble : j • basePoint + j • basePoint ≠ 0 := by
    rw [← add_nsmul, Ne, nsmul_basePoint_eq_zero, ← two_mul]
    intro hdvd
    rcases eccN_prime.dvd_mul.mp hdvd with h2 | h
    · have hlarge := large_eccN
      have hle := Nat.le_of_dvd (by decide) h2
      omega
    · exact hj h
  exact fun h0 => Y_ne_zero short_eccCurve hr hdouble (hh.y.eq_zero_iff.mpr h0)

/-! ### The round trip -/

theorem readVli_append {a c : Bytes} {off : ℕ} (v : Vli) (ha : a.length = off) :
    readVli (a ++ (v.bytes ++ c)) off = some v := by
  have hfield := @fieldAt_append a v.bytes c off eccNumword ha v.length_eq
  rw [readVli, dif_pos (by rw [hfield]; exact v.length_eq)]
  cases v
  exact congrArg some (Digits.mk.injEq .. ▸ hfield)

/-- A ciphertext: the point in network order, the digest and the masked message. -/
def ciphertext (c1 : EccPoint) (c3 : Vli) (c2 : Bytes) : Bytes := 0x04 :: (c1.b2e.bytes ++ c3.bytes ++ c2)

/-- The same with the point turned round, as `ht_sm2_decrypt` leaves the buffer. -/
def turned (c1 : EccPoint) (c3 : Vli) (c2 : Bytes) : Bytes := 0x04 :: (c1.bytes ++ c3.bytes ++ c2)

theorem length_bytes (p : EccPoint) : p.bytes.length = 64 := by
  rw [EccPoint.bytes, List.length_append, p.x.length_eq, p.y.length_eq]
  rfl

theorem length_ciphertext (c1 : EccPoint) (c3 : Vli) (c2 : Bytes) : (ciphertext c1 c3 c2).length = c2.length + 97 := by
  rw [ciphertext, List.length_cons, List.length_append, List.length_append, length_bytes, c3.length_eq,
    show eccNumword = 32 from rfl]
  omega

/-- What `ht_sm2_decrypt` reads of a ciphertext. -/
theorem read_ciphertext (c1 : EccPoint) (c3 : Vli) (c2 : Bytes) :
    readVli (ciphertext c1 c3 c2) 1 = some (eccB2e c1.x) ∧
      readVli (ciphertext c1 c3 c2) (1 + eccNumword) = some (eccB2e c1.y) ∧
      (ciphertext c1 c3 c2).take 1 ++ c1.bytes ++ (ciphertext c1 c3 c2).drop (1 + eccNumword * 2) = turned c1 c3 c2 := by
  have hx := @readVli_append [0x04] ((eccB2e c1.y).bytes ++ (c3.bytes ++ c2)) 1 (eccB2e c1.x) rfl
  have hy := @readVli_append ([0x04] ++ (eccB2e c1.x).bytes) (c3.bytes ++ c2) (1 + eccNumword) (eccB2e c1.y)
    (by rw [List.length_append, (eccB2e c1.x).length_eq]; rfl)
  have hsplit : ciphertext c1 c3 c2 = [0x04] ++ ((eccB2e c1.x).bytes ++ ((eccB2e c1.y).bytes ++ (c3.bytes ++ c2))) := by
    simp only [ciphertext, EccPoint.bytes, EccPoint.b2e, List.append_assoc, List.singleton_append]
  have hdrop : (ciphertext c1 c3 c2).drop (1 + eccNumword * 2) = c3.bytes ++ c2 := by
    rw [ciphertext, Nat.add_comm, List.drop_succ_cons, List.append_assoc]
    exact List.drop_left' (length_bytes c1.b2e)
  rw [hdrop, turned, List.append_assoc c1.bytes]
  refine ⟨?_, ?_, rfl⟩
  · rw [hsplit]
    exact hx
  · rw [hsplit, ← List.append_assoc]
    exact hy

/-- What it reads of the buffer with the point turned round. -/
theorem read_turned (c1 : EccPoint) (c3 : Vli) (c2 : Bytes) :
    readVli (turned c1 c3 c2) (1 + eccNumword * 2) = some c3 ∧
      (turned c1 c3 c2).drop (1 + eccNumword * 2 + eccNumword) = c2 := by
  have hpre : ([0x04] ++ c1.bytes).length = 1 + eccNumword * 2 := by
    rw [List.length_append, length_bytes]
    rfl
  have hsplit : turned c1 c3 c2 = [0x04] ++ c1.bytes ++ (c3.bytes ++ c2) := by
    rw [turned, List.append_assoc, List.append_assoc]
    rfl
  constructor
  · rw [hsplit]
    exact readVli_append c3 hpre
  · rw [hsplit, ← List.append_assoc]
    exact List.drop_left' (by rw [List.length_append, hpre, c3.length_eq])

/-- **What `ht_sm2_decrypt` makes of a ciphertext with a multiple of the base point.** -/
theorem htSm2Decrypt_ciphertext {prikey : Vli} (hkey : Key prikey) {k : ℕ} (hk : ¬ eccN.val ∣ k) {c1 kP : EccPoint}
    (hc1 : c1.IsPoint (k • basePoint)) (hx : c1.x.val ≠ 0)
    (hkP : kP.IsPoint (((eccB2e prikey).val * k) • basePoint)) (hkPx : kP.x.val ≠ 0) {mask c2 : Bytes}
    (hmask : sm3Kdf kP.b2e.bytes c2.length = some mask) {hash : Vli}
    (hhash : digestOf [kP.b2e.x.bytes, xorBytes mask c2, kP.b2e.y.bytes] = some hash) (c3 : Vli) :
    htSm2Decrypt (ciphertext c1 c3 c2) prikey =
      some (if hash ≠ c3 then -1 else 0, some (xorBytes mask c2), turned c1 c3 c2) := by
  obtain ⟨hreadx, hready, hbuffer⟩ := read_ciphertext c1 c3 c2
  obtain ⟨hreadc3, hdrop⟩ := read_turned c1 c3 c2
  have hlen := length_ciphertext c1 c3 c2
  have hdB : eccPointMult c1 (eccB2e prikey) none = kP := (hkey.scalar.mult_multiple hk hc1 hx).unique hkP
  have hkPy : kP.y.val ≠ 0 := by
    refine y_ne_zero_of_order (fun hdvd => ?_) hkP
    exact (eccN_prime.dvd_mul.mp hdvd).elim hkey.scalar.not_dvd hk
  have hformat : ¬ ((ciphertext c1 c3 c2).length < eccNumword * 3 ∨ (ciphertext c1 c3 c2).headD 0 ≠ 0x04) := by
    rw [hlen, not_or, not_not]
    exact ⟨by rw [show eccNumword * 3 = 96 from rfl]; omega, rfl⟩
  have hturn : (EccPoint.mk (eccB2e c1.x) (eccB2e c1.y)).b2e = c1 := c1.b2e_b2e
  have hzero : ¬ (vliIsZero kP.b2e.x = true ∨ vliIsZero kP.b2e.y = true) := by
    rw [EccPoint.b2e, b2e_zero_iff, b2e_zero_iff]
    exact fun h => h.elim hkPx hkPy
  rw [htSm2Decrypt, if_neg hformat, hreadx, Option.bind_some, hready, Option.bind_some]
  dsimp only
  rw [hturn, hbuffer, hdB, if_neg (not_not.mpr hc1.valid), if_neg (not_not.mpr (valid_mult_eccH hk hc1 hx)), hlen,
    if_neg (show ¬ c2.length + 97 < eccNumword * 3 + 1 by rw [show eccNumword * 3 + 1 = 97 from rfl]; omega),
    show c2.length + 97 - eccNumword * 3 - 1 = c2.length from by rw [show eccNumword * 3 = 96 from rfl]; omega,
    hmask, Option.bind_some, if_neg hzero, hdrop, hhash, Option.bind_some, hreadc3, Option.map_some]
  split_ifs <;> rfl

/-- The pieces of the digest of a message that is encrypted. -/
theorem pieces_short {kP : EccPoint} {m : Bytes} (hm : m.length + 97 < 2 ^ 31) :
    ∀ c ∈ [kP.b2e.x.bytes, m, kP.b2e.y.bytes], c.length < 2 ^ 31 := by
  intro c hc
  simp only [List.mem_cons, List.not_mem_nil, or_false] at hc
  rcases hc with rfl | rfl | rfl
  · rw [Digits.length_eq]
    decide
  · omega
  · rw [Digits.length_eq]
    decide

/-- What `ht_sm2_encrypt` makes. -/
theorem htSm2Encrypt_eq {prikey random : Vli} (hkey : Key prikey) {m : Bytes}
    (hpub : (sm2MakePubkey prikey).b2e.x.val ≠ 0) {kP : EccPoint}
    (hkP : eccPointMult (sm2MakePubkey prikey).b2e (eccB2e random) none = kP) (hx : kP.x.val ≠ 0)
    (hy : kP.y.val ≠ 0) {mask : Bytes} (hmask : sm3Kdf kP.b2e.bytes m.length = some mask) {hash : Vli}
    (hhash : digestOf [kP.b2e.x.bytes, m, kP.b2e.y.bytes] = some hash) :
    htSm2Encrypt random m (sm2MakePubkey prikey) =
      some (0, some (ciphertext (eccPointMult eccG (eccB2e random) none) hash (xorBytes m mask))) := by
  have hzero : ¬ (vliIsZero kP.b2e.x = true ∨ vliIsZero kP.b2e.y = true) := by
    rw [EccPoint.b2e, b2e_zero_iff, b2e_zero_iff]
    exact fun h => h.elim hx hy
  rw [htSm2Encrypt]
  dsimp only
  rw [if_neg (not_not.mpr (valid_mult_eccH hkey.scalar.not_dvd hkey.pubkey hpub)), hkP, hmask, Option.bind_some,
    if_neg hzero, hhash]
  rfl

/-- **What is encrypted for a public key is decrypted with its private key**, and with another digest in its place it
is refused. -/
theorem htSm2Decrypt_of_htSm2Encrypt {prikey random : Vli} (hkey : Key prikey) (hrandom : Scalar (eccB2e random))
    {m : Bytes} (hm : m.length + 97 < 2 ^ 31) (hpub : (sm2MakePubkey prikey).b2e.x.val ≠ 0)
    (hc1 : (eccPointMult eccG (eccB2e random) none).x.val ≠ 0)
    (hkP : (eccPointMult (sm2MakePubkey prikey).b2e (eccB2e random) none).x.val ≠ 0) :
    ∃ c1 c3 c2, htSm2Encrypt random m (sm2MakePubkey prikey) = some (0, some (ciphertext c1 c3 c2)) ∧
      c2.length = m.length ∧ htSm2Decrypt (ciphertext c1 c3 c2) prikey = some (0, some m, turned c1 c3 c2) ∧
      ∀ c3' ≠ c3, htSm2Decrypt (ciphertext c1 c3' c2) prikey = some (-1, some m, turned c1 c3' c2) := by
  have hpoint := hrandom.mult_multiple hkey.scalar.not_dvd hkey.pubkey hpub
  have hne : ¬ eccN.val ∣ (eccB2e random).val * (eccB2e prikey).val := fun hdvd =>
    (eccN_prime.dvd_mul.mp hdvd).elim hrandom.not_dvd hkey.scalar.not_dvd
  have hpoint' := hpoint
  rw [Nat.mul_comm] at hpoint'
  have hseed : (eccPointMult (sm2MakePubkey prikey).b2e (eccB2e random) none).b2e.bytes.length < 2 ^ 31 := by
    rw [length_bytes]
    decide
  obtain ⟨mask, hmask, hlen⟩ := length_sm3Kdf hseed m.length
  obtain ⟨hash, hhash⟩ := digestOf_isSome
    (@pieces_short (eccPointMult (sm2MakePubkey prikey).b2e (eccB2e random) none) m hm)
  have hxor : (xorBytes m mask).length = m.length := length_xorBytes hlen.symm
  have hback := xorBytes_mask hlen
  rw [← hxor] at hmask
  have hdecrypt := htSm2Decrypt_ciphertext hkey hrandom.not_dvd hrandom.mult hc1 hpoint' hkP hmask
    (by rw [hback]; exact hhash)
  rw [hxor] at hmask
  rw [hback] at hdecrypt
  refine ⟨_, hash, xorBytes m mask,
    htSm2Encrypt_eq hkey hpub rfl hkP (y_ne_zero_of_order hne hpoint) hmask hhash, hxor, ?_, fun c3' hc3' => ?_⟩
  · rw [hdecrypt, if_neg (not_not.mpr rfl)]
  · rw [hdecrypt, if_pos hc3'.symm]

/-- Four times the base point. -/
def fourG : EccPoint where
  x := Digits.ofNat 32 0xc239507105c683242a81052ff641ed69009a084ad5cc937db21646cd34a0ced5
  y := Digits.ofNat 32 0xb1bf7ec4080f3c8735f1294ac0db19686bee2e96ab8c71fb7a253666cb66e009

theorem fourG_isPoint : fourG.IsPoint ((2 * 2) • basePoint) := by
  have hdouble : isDouble eccP.val (twiceG.x.val, twiceG.y.val) (fourG.x.val, fourG.y.val) = true := by decide +kernel
  have hy : ((twiceG.y.val : ℕ) : Fp) ≠ 0 := by
    rw [Ne, ZMod.natCast_eq_zero_iff]
    decide +kernel
  rw [mul_nsmul', two_nsmul (2 • basePoint)]
  exact ⟨_, _, ⟨⟨by decide +kernel, rfl⟩, ⟨by decide +kernel, rfl⟩⟩,
    repMod_twiceG.of_isDouble short_eccCurve eccCurve_a₄ two_lt_eccP hy hdouble⟩

theorem htSm2Decrypt_letter : ∃ c1 c3 c2,
    htSm2Encrypt prikeyTwo [0x61] (sm2MakePubkey prikeyTwo) = some (0, some (ciphertext c1 c3 c2)) ∧
      c2.length = [0x61].length ∧
      htSm2Decrypt (ciphertext c1 c3 c2) prikeyTwo = some (0, some [0x61], turned c1 c3 c2) ∧
      ∀ c3' ≠ c3, htSm2Decrypt (ciphertext c1 c3' c2) prikeyTwo = some (-1, some [0x61], turned c1 c3' c2) := by
  have hscalar := key_prikeyTwo.scalar
  have hpub : (sm2MakePubkey prikeyTwo).b2e = twiceG := by rw [pubkey_prikeyTwo, EccPoint.b2e_b2e]
  have hx : twiceG.x.val ≠ 0 := by decide +kernel
  have hfour : eccPointMult twiceG (eccB2e prikeyTwo) none = fourG := by
    have hmult := hscalar.mult_multiple (val_prikeyTwo ▸ hscalar.not_dvd) twiceG_isPoint hx
    rw [val_prikeyTwo] at hmult
    exact hmult.unique fourG_isPoint
  refine htSm2Decrypt_of_htSm2Encrypt key_prikeyTwo hscalar (by decide) ?_ ?_ ?_
  · rw [hpub]
    exact hx
  · rw [mult_two]
    exact hx
  · rw [hpub, hfour]
    decide +kernel

end Httcutils
end TsbAgent
