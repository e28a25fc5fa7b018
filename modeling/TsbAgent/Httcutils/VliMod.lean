/-
# Products and inverses modulo a number

`tss-main/httcutils/src/sm/ecc.c`: `vli_mod_mult` reduces a product by taking shifted copies of the modulus away from
it, and `vli_mod_inv` is the binary algorithm of Euclid; these are the ones for the order of the curve, for which
there is no fast reduction.

`vli_mod_mult` lays the modulus out in a buffer of `2 * ECC_NUMWORD` bytes so that its top bit meets that of the
product, and walks it down bit by bit.  Its `while` asks for `productBits > ECC_NUMWORD * 8` or a low half that is not
below `mod`, so it makes one turn more than there are shifts.  Where the first factor has no more bits than the
modulus the layout stays in the buffer and the result is the product modulo `mod` (`vliModMult_eq`).

`vli_mod_inv` keeps `a = u * input` and `b = v * input` modulo `mod` until `a` and `b` meet: it halves at each turn,
so 512 turns are enough, and ends with the factor that takes `input` to the greatest common divisor
(`vliModInv_eq`).  The sums of `u` and `v` with the modulus may need a bit that 32 bytes do not have; it comes back
with `|= 0x80`.
-/

import TsbAgent.Httcutils.Vli
import TsbAgent.Lib.ModInverse

namespace TsbAgent
namespace Httcutils

open Libc Word

/-! ### The functions -/

/-- `uint8_t one[ECC_NUMWORD]`: `vli_clear`, then `[0] = 1`. -/
def vliOne : Vli := vliClear.set 0 1

/-- `modMultiple` as it starts: the modulus from `digitShift` on, moved by `bitShift` bits. -/
def firstMultiple (mod : Vli) (digitShift bitShift : ℕ) : Option Product :=
  (Digits.zero (eccNumword + eccNumword)).put digitShift
    (if bitShift ≠ 0 then (vliLshift mod bitShift).2.bytes ++ [(vliLshift mod bitShift).1] else mod.bytes)

/-- `modMultiple` is not above `product`, from the comparison of the halves. -/
def fitsInto (modMultiple product : Product) : Bool :=
  let cmp := vliCmp modMultiple.high product.high
  cmp < 0 ∨ (cmp = 0 ∧ vliCmp modMultiple.low product.low ≤ 0)

/-- `product` with `modMultiple` taken away: the borrow of the low half is taken from the high half. -/
def takeAway (product modMultiple : Product) : Product :=
  let low := vliSub product.low modMultiple.low
  let high := if low.1 ≠ 0 then (vliSub product.high vliOne).2 else product.high
  Digits.join low.2 (vliSub high modMultiple.high).2

/-- `modMultiple` shifted down by one bit; the bit that leaves the high half enters the low half. -/
def halfMultiple (modMultiple : Product) : Product :=
  let carry := (modMultiple.high.get 0 &&& 1) <<< 7
  let low := vliRshift1 modMultiple.low
  Digits.join (low.set (eccNumword - 1) (low.get (eccNumword - 1) ||| carry)) (vliRshift1 modMultiple.high)

/-- The loop of `vli_mod_mult`. -/
def modMultLoop (mod : Vli) : ℕ → ℕ → Product → Product → Option Product
  | 0, _, _, _ => none
  | fuel + 1, productBits, modMultiple, product =>
      if productBits > eccNumword * 8 ∨ vliCmp modMultiple.low mod ≥ 0 then
        modMultLoop mod fuel (productBits - 1) (halfMultiple modMultiple)
          (if fitsInto modMultiple product then takeAway product modMultiple else product)
      else some product

/-- The bits of a product, from those of its halves. -/
def productBits (product : Product) : ℕ :=
  if vliNumBits product.high ≠ 0 then vliNumBits product.high + eccNumword * 8 else vliNumBits product.low

/-- `vli_mod_mult`; `none` for a write behind `modMultiple` and for a loop that goes on. -/
def vliModMult (fuel : ℕ) (left right mod : Vli) : Option Vli :=
  let product := vliMult left right
  let bits := productBits product
  let modBits := vliNumBits mod
  if bits < modBits then some product.low
  else
    (firstMultiple mod ((bits - modBits) / 8) ((bits - modBits) % 8)).bind fun modMultiple =>
      (modMultLoop mod fuel bits modMultiple product).map Digits.low

/-- `EVEN(vli)`. -/
def even (vli : Vli) : Bool := (vli.get 0 &&& 1) = 0

/-- `if (!EVEN(u)) carry = vli_add(u, u, mod); vli_rshift1(u); if (carry) u[ECC_NUMWORD-1] |= 0x80;` -/
def halve (mod u : Vli) : Vli :=
  let sum := if even u then (0, u) else vliAdd u mod
  let half := vliRshift1 sum.2
  if sum.1 ≠ 0 then half.set (eccNumword - 1) (half.get (eccNumword - 1) ||| 0x80) else half

/-- `if (vli_cmp(u, v) < 0) vli_add(u, u, mod); vli_sub(u, u, v);` -/
def takeFrom (mod u v : Vli) : Vli :=
  (vliSub (if vliCmp u v < 0 then (vliAdd u mod).2 else u) v).2

/-- The loop of `vli_mod_inv`. -/
def modInvLoop (mod : Vli) : ℕ → Vli → Vli → Vli → Vli → Option Vli
  | 0, _, _, _, _ => none
  | fuel + 1, a, b, u, v =>
      let cmpResult := vliCmp a b
      if cmpResult = 0 then some u
      else if even a then modInvLoop mod fuel (vliRshift1 a) b (halve mod u) v
      else if even b then modInvLoop mod fuel a (vliRshift1 b) u (halve mod v)
      else if cmpResult > 0 then
        modInvLoop mod fuel (vliRshift1 (vliSub a b).2) b (halve mod (takeFrom mod u v)) v
      else modInvLoop mod fuel a (vliRshift1 (vliSub b a).2) u (halve mod (takeFrom mod v u))

/-- `vli_mod_inv`. -/
def vliModInv (fuel : ℕ) (input mod : Vli) : Option Vli :=
  if vliIsZero input then some vliClear else modInvLoop mod fuel input mod vliOne vliClear

/-! ### Shifts -/

/-- The bits that leave a byte to the left, and those that stay. -/
theorem lshiftStep (temp : UInt8) {carry : UInt8} {shift : ℕ} (hs : shift ≤ 8) (hc : carry.toNat < 2 ^ shift) :
    (UInt8.ofNat (temp.toNat <<< shift) ||| carry).toNat + 256 * (temp.toNat >>> (8 - shift)) =
      temp.toNat * 2 ^ shift + carry.toNat := by
  have hpow : 2 ^ shift * 2 ^ (8 - shift) = 256 := by
    rw [← pow_add, Nat.add_sub_cancel' hs]
    rfl
  have hstay : (UInt8.ofNat (temp.toNat <<< shift)).toNat = 2 ^ shift * (temp.toNat % 2 ^ (8 - shift)) := by
    rw [UInt8.toNat_ofNat', Nat.shiftLeft_eq, show 2 ^ 8 = 2 ^ shift * 2 ^ (8 - shift) from hpow.symm,
      Nat.mul_comm, Nat.mul_mod_mul_left]
  rw [UInt8.toNat_or, hstay, ← Nat.two_pow_add_eq_or_of_lt hc, Nat.shiftRight_eq_div_pow]
  have hsplit := Nat.mod_add_div temp.toNat (2 ^ (8 - shift))
  calc 2 ^ shift * (temp.toNat % 2 ^ (8 - shift)) + carry.toNat + 256 * (temp.toNat / 2 ^ (8 - shift))
      = 2 ^ shift * (temp.toNat % 2 ^ (8 - shift)) + carry.toNat +
          2 ^ shift * 2 ^ (8 - shift) * (temp.toNat / 2 ^ (8 - shift)) := by rw [hpow]
    _ = 2 ^ shift * (temp.toNat % 2 ^ (8 - shift) + 2 ^ (8 - shift) * (temp.toNat / 2 ^ (8 - shift))) +
          carry.toNat := by ring
    _ = temp.toNat * 2 ^ shift + carry.toNat := by rw [hsplit, Nat.mul_comm]

theorem shiftOut_lt (temp : UInt8) {shift : ℕ} (hs : shift ≤ 8) : temp.toNat >>> (8 - shift) < 2 ^ shift := by
  have hpow : 2 ^ (8 - shift) * 2 ^ shift = 256 := by
    rw [← pow_add, Nat.sub_add_cancel hs]
    rfl
  rw [Nat.shiftRight_eq_div_pow]
  exact Nat.div_lt_of_lt_mul (by rw [hpow]; exact temp.toNat_lt)

theorem lshiftLoop_spec {shift : ℕ} (hs : shift ≤ 8) (b : Bytes) {carry : UInt8} (hc : carry.toNat < 2 ^ shift) :
    (lshiftLoop shift carry b).1.toNat < 2 ^ shift ∧
      ofHost (lshiftLoop shift carry b).2 + 256 ^ b.length * (lshiftLoop shift carry b).1.toNat =
        ofHost b * 2 ^ shift + carry.toNat := by
  induction b generalizing carry with
  | nil => exact ⟨hc, by simp [lshiftLoop, ofHost]⟩
  | cons x b ih =>
      have hout := shiftOut_lt x hs
      have hbyte : 2 ^ shift ≤ 2 ^ 8 := Nat.pow_le_pow_right (by decide) hs
      have hval : (UInt8.ofNat (x.toNat >>> (8 - shift))).toNat = x.toNat >>> (8 - shift) := by
        rw [UInt8.toNat_ofNat', Nat.mod_eq_of_lt (lt_of_lt_of_le hout hbyte)]
      obtain ⟨hlt, heq⟩ := @ih (UInt8.ofNat (x.toNat >>> (8 - shift))) (by rw [hval]; exact hout)
      have hstep := lshiftStep x hs hc
      refine ⟨hlt, ?_⟩
      rw [hval] at heq
      rw [lshiftLoop, ofHost, ofHost, List.length_cons, pow_succ']
      dsimp only
      linarith

theorem vliLshift_spec (vli : Vli) {shift : ℕ} (hs : shift ≤ 8) :
    (vliLshift vli shift).2.val + 2 ^ 256 * (vliLshift vli shift).1.toNat = vli.val * 2 ^ shift := by
  have hspec := (@lshiftLoop_spec shift hs vli.bytes 0 (Nat.pow_pos (by decide))).2
  rwa [vli.length_eq, pow_eccNumword] at hspec

theorem rshiftLoop_spec (b : Bytes) :
    (rshiftLoop b).1.toNat = 128 * (ofHost b % 2) ∧ ofHost (rshiftLoop b).2 = ofHost b / 2 := by
  induction b with
  | nil => exact ⟨rfl, rfl⟩
  | cons x b ih =>
      have hx := x.toNat_lt
      have hout : (x <<< 7).toNat = 128 * (x.toNat % 2) := by
        rw [UInt8.toNat_shiftLeft, Nat.shiftLeft_eq, show (7 : UInt8).toNat % 8 = 7 from rfl]
        omega
      have hhalf : (x >>> 1).toNat = x.toNat / 2 := by
        rw [UInt8.toNat_shiftRight, Nat.shiftRight_eq_div_pow]
        rfl
      have hbyte : ((x >>> 1) ||| (rshiftLoop b).1).toNat = x.toNat / 2 + 128 * (ofHost b % 2) := by
        have hor := Nat.two_pow_add_eq_or_of_lt (show x.toNat / 2 < 2 ^ 7 by omega) (ofHost b % 2)
        rw [UInt8.toNat_or, hhalf, ih.1, Nat.or_comm, ← hor, Nat.add_comm]
      refine ⟨?_, ?_⟩
      · rw [rshiftLoop, ofHost]
        dsimp only
        rw [hout]
        omega
      · rw [rshiftLoop, ofHost, ofHost, hbyte, ih.2]
        omega

@[simp] theorem vliRshift1_val (vli : Vli) : (vliRshift1 vli).val = vli.val / 2 := (rshiftLoop_spec vli.bytes).2

@[simp] theorem vliClear_val : vliClear.val = 0 := Digits.val_zero eccNumword

@[simp] theorem vliOne_val : vliOne.val = 1 := by decide

/-- Below half of what 32 bytes hold, `|= 0x80` adds that half. -/
theorem setTop_val {vli : Vli} (h : vli.val < 2 ^ 255) :
    (vli.set (eccNumword - 1) (vli.get (eccNumword - 1) ||| 0x80)).val = vli.val + 2 ^ 255 := by
  have htop : (vli.get (eccNumword - 1)).toNat < 2 ^ 7 := by
    rw [vli.toNat_get]
    exact lt_of_le_of_lt (Nat.mod_le _ _) (Nat.div_lt_of_lt_mul (lt_of_lt_of_le h (by decide)))
  have hor := Nat.two_pow_add_eq_or_of_lt htop 1
  have hbyte : (vli.get (eccNumword - 1) ||| 0x80).toNat = 2 ^ 7 + (vli.get (eccNumword - 1)).toNat := by
    rw [UInt8.toNat_or, Nat.or_comm]
    exact hor.symm
  have hset := vli.val_set (vli.get (eccNumword - 1) ||| 0x80) (show eccNumword - 1 < eccNumword by decide)
  rw [hbyte] at hset
  have hpow : 2 ^ 7 * 256 ^ (eccNumword - 1) = 2 ^ 255 := by decide
  rw [Nat.add_mul, hpow] at hset
  omega

theorem even_iff (vli : Vli) : even vli = true ↔ vli.val % 2 = 0 := by
  have hbyte := vli.toNat_get 0
  rw [pow_zero, Nat.div_one] at hbyte
  have hand : (vli.get 0 &&& 1).toNat = (vli.get 0).toNat % 2 := by
    rw [UInt8.toNat_and]
    exact Nat.and_one_is_mod _
  rw [even, decide_eq_true_eq, ← UInt8.toNat_inj, hand, hbyte]
  exact ⟨fun h => by rw [show (0 : UInt8).toNat = 0 from rfl] at h; omega,
    fun h => by rw [show (0 : UInt8).toNat = 0 from rfl]; omega⟩

/-! ### Sizes in bits -/

/-- A size is where the powers of two pass the number. -/
theorem size_eq {n s : ℕ} (hlt : n < 2 ^ s) (hle : ∀ j, s = j + 1 → 2 ^ j ≤ n) : Nat.size n = s := by
  refine le_antisymm (Nat.size_le.mpr hlt) ?_
  cases s with
  | zero => exact Nat.zero_le _
  | succ j => exact Nat.lt_size.mpr (hle j rfl)

theorem shiftsOf_spec (n : ℕ) (digit : UInt8) (h : digit.toNat < 2 ^ n) :
    digit.toNat < 2 ^ shiftsOf n digit ∧ ∀ j, shiftsOf n digit = j + 1 → 2 ^ j ≤ digit.toNat := by
  induction n generalizing digit with
  | zero => exact ⟨h, fun j hj => absurd hj (Nat.zero_ne_add_one j)⟩
  | succ n ih =>
      have hhalf : (digit >>> 1).toNat = digit.toNat / 2 := by
        rw [UInt8.toNat_shiftRight, Nat.shiftRight_eq_div_pow]
        rfl
      rcases eq_or_ne digit 0 with hz | hn
      · rw [shiftsOf, if_pos hz, hz]
        exact ⟨by decide, fun j hj => absurd hj (Nat.zero_ne_add_one j)⟩
      · have hpos : digit.toNat ≠ 0 := fun hd => hn (UInt8.toNat_inj.mp hd)
        obtain ⟨hlt, hle⟩ := ih (digit >>> 1) (by rw [hhalf]; rw [pow_succ] at h; omega)
        rw [shiftsOf, if_neg hn]
        rw [hhalf] at hlt hle
        refine ⟨by rw [pow_succ]; omega, fun j hj => ?_⟩
        have hj' : shiftsOf n (digit >>> 1) = j := Nat.succ_injective hj
        cases j with
        | zero => exact Nat.one_le_iff_ne_zero.mpr hpos
        | succ j =>
            have hprev := hle j hj'
            rw [pow_succ]
            omega

theorem digitsFrom_spec (vli : Vli) (k : ℕ) :
    below vli k = below vli (digitsFrom vli k) ∧ ∀ d, digitsFrom vli k = d + 1 → vli.get d ≠ 0 := by
  induction k with
  | zero => exact ⟨rfl, fun d hd => absurd hd (Nat.zero_ne_add_one d)⟩
  | succ k ih =>
      rcases eq_or_ne (vli.get k) 0 with hz | hn
      · rw [digitsFrom, if_pos hz]
        refine ⟨?_, ih.2⟩
        rw [below_succ, hz, ih.1]
        exact Nat.zero_mul _ ▸ Nat.add_zero _
      · rw [digitsFrom, if_neg hn]
        exact ⟨rfl, fun d hd => Nat.succ_injective hd ▸ hn⟩

/-- `vli_num_bits` is the size of the value. -/
theorem vliNumBits_eq (vli : Vli) : vliNumBits vli = Nat.size vli.val := by
  obtain ⟨hval, htop⟩ := digitsFrom_spec vli eccNumword
  rw [← val_eq_below] at hval
  rw [vliNumBits, vliNumDigits]
  rcases hd : digitsFrom vli eccNumword with _ | d
  · rw [hd] at hval
    rw [if_pos rfl, hval]
    rfl
  · have hne := htop d hd
    rw [hd, below_succ] at hval
    have hbelow := below_lt vli d
    obtain ⟨hlt, hle⟩ := shiftsOf_spec 8 (vli.get d) (vli.get_lt d)
    have hpow : (256 : ℕ) ^ d = 2 ^ (d * 8) := by rw [show (256 : ℕ) = 2 ^ 8 from rfl, ← pow_mul, Nat.mul_comm]
    rw [if_neg (Nat.succ_ne_zero d), Nat.add_sub_cancel]
    refine (size_eq ?_ fun j hj => ?_).symm
    · have hmul : ((vli.get d).toNat + 1) * 256 ^ d ≤ 2 ^ shiftsOf 8 (vli.get d) * 256 ^ d :=
        Nat.mul_le_mul_right _ hlt
      rw [Nat.add_comm, pow_add, ← hpow]
      rw [Nat.add_mul, Nat.one_mul] at hmul
      omega
    · rcases hs : shiftsOf 8 (vli.get d) with _ | i
      · rw [hs, pow_zero] at hlt
        exact absurd (UInt8.toNat_inj.mp (show (vli.get d).toNat = (0 : UInt8).toNat from Nat.lt_one_iff.mp hlt)) hne
      · have hmul : 2 ^ i * 256 ^ d ≤ (vli.get d).toNat * 256 ^ d := Nat.mul_le_mul_right _ (hle i hs)
        have hj' : j = i + d * 8 := by omega
        rw [hj', pow_add, ← hpow, hval]
        omega

/-- The halves give the size of the whole. -/
theorem productBits_eq (product : Product) : productBits product = Nat.size product.val := by
  rw [productBits, vliNumBits_eq, vliNumBits_eq, product_val]
  have hlow := vli_lt product.low
  generalize product.low.val = l at hlow ⊢
  generalize product.high.val = h
  rcases Nat.eq_zero_or_pos h with hz | hp
  · rw [if_neg (not_not.mpr (Nat.size_eq_zero.mpr hz)), hz, Nat.mul_zero, Nat.add_zero]
  · rw [if_pos (Nat.size_pos.mpr hp).ne']
    refine (size_eq ?_ fun j hj => ?_).symm
    · have hmul : (h + 1) * 2 ^ 256 ≤ 2 ^ Nat.size h * 2 ^ 256 := Nat.mul_le_mul_right _ (Nat.lt_size_self h)
      rw [pow_add]
      rw [Nat.add_mul, Nat.one_mul] at hmul
      rw [show 2 ^ (eccNumword * 8) = 2 ^ 256 from rfl]
      omega
    · obtain ⟨s, hs⟩ := Nat.exists_eq_succ_of_ne_zero (Nat.size_pos.mpr hp).ne'
      have hle : 2 ^ s ≤ h := Nat.lt_size.mp (by rw [hs]; exact Nat.lt_succ_self s)
      have hmul : 2 ^ s * 2 ^ 256 ≤ h * 2 ^ 256 := Nat.mul_le_mul_right _ hle
      have hj' : j = s + 256 := by
        rw [hs] at hj
        have hwords : eccNumword * 8 = 256 := rfl
        omega
      rw [hj', pow_add]
      omega

/-! ### The product modulo a number -/

theorem firstMultiple_spec {mod : Vli} {s : ℕ}
    (hfit : s / 8 + eccNumword + (if s % 8 ≠ 0 then 1 else 0) ≤ eccNumword + eccNumword) :
    ∃ mm, firstMultiple mod (s / 8) (s % 8) = some mm ∧ mm.val = mod.val * 2 ^ s := by
  have hpow : (256 : ℕ) ^ (s / 8) * 2 ^ (s % 8) = 2 ^ s := by
    rw [show (256 : ℕ) = 2 ^ 8 from rfl, ← pow_mul, ← pow_add, Nat.div_add_mod]
  rw [firstMultiple]
  rcases eq_or_ne (s % 8) 0 with hz | hn
  · rw [if_neg (not_not.mpr hz), Nat.add_zero] at hfit
    rw [if_neg (not_not.mpr hz)]
    obtain ⟨mm, hmm, hval⟩ := @Digits.put_zero (eccNumword + eccNumword) (s / 8) mod.bytes
      (by rw [mod.length_eq]; exact hfit)
    refine ⟨mm, hmm, ?_⟩
    rw [hz, pow_zero, Nat.mul_one] at hpow
    rw [hval, hpow, Nat.mul_comm]
    rfl
  · rw [if_pos hn] at hfit
    rw [if_pos hn]
    obtain ⟨mm, hmm, hval⟩ := @Digits.put_zero (eccNumword + eccNumword) (s / 8)
      ((vliLshift mod (s % 8)).2.bytes ++ [(vliLshift mod (s % 8)).1])
      (by rw [List.length_append, (vliLshift mod (s % 8)).2.length_eq]; exact hfit)
    refine ⟨mm, hmm, ?_⟩
    have hshift := vliLshift_spec mod (show s % 8 ≤ 8 by omega)
    rw [hval, Digits.ofHost_append, (vliLshift mod (s % 8)).2.length_eq, ofHost, ofHost, Nat.mul_zero, Nat.add_zero,
      pow_eccNumword]
    rw [show ofHost (vliLshift mod (s % 8)).2.bytes = (vliLshift mod (s % 8)).2.val from rfl, hshift, ← hpow]
    ring

theorem fitsInto_iff (mm p : Product) : fitsInto mm p = true ↔ mm.val ≤ p.val := by
  have h₁ := vli_lt mm.low
  have h₂ := vli_lt p.low
  rw [fitsInto, decide_eq_true_eq, vliCmp_neg_iff, vliCmp_eq_zero_iff, vliCmp_nonpos_iff,
    product_val, product_val]
  rcases lt_trichotomy mm.high.val p.high.val with h | h | h
  · have hmul : 2 ^ 256 * (mm.high.val + 1) ≤ 2 ^ 256 * p.high.val := Nat.mul_le_mul_left _ h
    rw [Nat.mul_add, Nat.mul_one] at hmul
    exact ⟨fun _ => by omega, fun _ => Or.inl h⟩
  · rw [h]
    refine ⟨fun hor => ?_, fun hle => Or.inr ⟨Digits.ext_val h, by omega⟩⟩
    rcases hor with hlt | hle
    · exact absurd hlt (lt_irrefl _)
    · omega
  · have hmul : 2 ^ 256 * (p.high.val + 1) ≤ 2 ^ 256 * mm.high.val := Nat.mul_le_mul_left _ h
    rw [Nat.mul_add, Nat.mul_one] at hmul
    refine ⟨fun hor => ?_, fun hle => by omega⟩
    rcases hor with hlt | hle
    · omega
    · rw [hle.1] at h
      exact absurd h (lt_irrefl _)

theorem takeAway_val {p mm : Product} (h : mm.val ≤ p.val) : (takeAway p mm).val = p.val - mm.val := by
  obtain ⟨hb, hlow⟩ := vliSub_spec p.low mm.low
  have hpl := vli_lt p.low
  have hph := vli_lt p.high
  have hml := vli_lt mm.low
  have hlt := vli_lt (vliSub p.low mm.low).2
  rw [takeAway, Digits.val_join]
  rw [product_val, product_val] at h
  rw [product_val p, product_val mm, pow_eccNumword]
  rcases eq_or_ne (vliSub p.low mm.low).1 0 with hz | hn
  · -- no borrow: the halves are subtracted on their own
    obtain ⟨hc, hhigh⟩ := vliSub_spec p.high mm.high
    have hhlt := vli_lt (vliSub p.high mm.high).2
    rw [if_neg (not_not.mpr hz)]
    rw [hz, show (0 : UInt8).toNat = 0 from rfl] at hlow
    omega
  · obtain ⟨hc₁, hone⟩ := vliSub_spec p.high vliOne
    obtain ⟨hc₂, hhigh⟩ := vliSub_spec (vliSub p.high vliOne).2 mm.high
    have holt := vli_lt (vliSub p.high vliOne).2
    have hhlt := vli_lt (vliSub (vliSub p.high vliOne).2 mm.high).2
    have hborrow : (vliSub p.low mm.low).1.toNat = 1 := by
      rcases Nat.eq_zero_or_pos (vliSub p.low mm.low).1.toNat with hz | hp
      · exact absurd (UInt8.toNat_inj.mp hz) hn
      · omega
    rw [if_pos hn]
    rw [hborrow] at hlow
    rw [vliOne_val] at hone
    omega

theorem halfMultiple_val (mm : Product) : (halfMultiple mm).val = mm.val / 2 := by
  have hlow := vli_lt mm.low
  have hbit : (mm.high.get 0 &&& 1).toNat = mm.high.val % 2 := by
    have hbyte := mm.high.toNat_get 0
    rw [pow_zero, Nat.div_one] at hbyte
    rw [UInt8.toNat_and, show (1 : UInt8).toNat = 1 from rfl, Nat.and_one_is_mod, hbyte]
    omega
  have hhalf : (vliRshift1 mm.low).val < 2 ^ 255 := by
    rw [vliRshift1_val]
    omega
  rw [halfMultiple, Digits.val_join, vliRshift1_val, product_val mm, pow_eccNumword]
  rcases Nat.mod_two_eq_zero_or_one mm.high.val with hz | h₁
  · rw [hz] at hbit
    have hcarry : mm.high.get 0 &&& 1 = 0 := UInt8.toNat_inj.mp hbit
    have hset := (vliRshift1 mm.low).val_set ((vliRshift1 mm.low).get (eccNumword - 1))
      (show eccNumword - 1 < eccNumword by decide)
    rw [hcarry, show (0 : UInt8) <<< 7 = 0 from rfl, UInt8.or_zero]
    rw [vliRshift1_val] at hset
    omega
  · rw [h₁] at hbit
    have hcarry : mm.high.get 0 &&& 1 = 1 := UInt8.toNat_inj.mp hbit
    rw [hcarry, show (1 : UInt8) <<< 7 = 0x80 from rfl, setTop_val hhalf, vliRshift1_val]
    omega

/-- What a turn leaves of the product. -/
theorem reduced_val (mm p : Product) :
    (if fitsInto mm p then takeAway p mm else p).val = if mm.val ≤ p.val then p.val - mm.val else p.val := by
  rcases Nat.lt_or_ge p.val mm.val with h | h
  · rw [if_neg (fun hf => by rw [fitsInto_iff] at hf; omega), if_neg (by omega)]
  · rw [if_pos ((fitsInto_iff mm p).mpr h), if_pos h, takeAway_val h]

/-- The loop goes on while the modulus has not been passed. -/
theorem goesOn {mod : Vli} {mm : Product} {bits : ℕ} (hle : mod.val ≤ mm.val) (hlt : mm.val < 2 ^ bits) :
    bits > eccNumword * 8 ∨ vliCmp mm.low mod ≥ 0 := by
  rcases Nat.lt_or_ge (eccNumword * 8) bits with h | h
  · exact Or.inl h
  · have hpow : 2 ^ bits ≤ 2 ^ 256 := Nat.pow_le_pow_right (by decide) h
    have hval := product_val mm
    exact Or.inr ((vliCmp_nonneg_iff _ _).mpr (by omega))

/-- With the modulus `s` bits up, `s + 2` turns reduce what is below twice the multiple. -/
theorem modMultLoop_eq {mod : Vli} (hmod : 0 < mod.val) (s : ℕ) {fuel : ℕ} (hfuel : s + 2 ≤ fuel) {mm p : Product}
    (hmm : mm.val = mod.val * 2 ^ s) (hp : p.val < 2 * mm.val) :
    ∃ q, modMultLoop mod fuel (Nat.size mod.val + s) mm p = some q ∧ q.val = p.val % mod.val := by
  induction s generalizing fuel mm p with
  | zero =>
      obtain ⟨fuel, rfl⟩ := Nat.exists_eq_add_of_le' hfuel
      have hsize := Nat.lt_size_self mod.val
      rw [pow_zero, Nat.mul_one] at hmm
      have hgo := @goesOn mod mm (Nat.size mod.val + 0) hmm.ge (by rw [hmm]; exact hsize)
      have hhalf : (halfMultiple mm).low.val < mod.val := by
        have hval := halfMultiple_val mm
        have hsplit := product_val (halfMultiple mm)
        omega
      have hstop : ¬ (Nat.size mod.val + 0 - 1 > eccNumword * 8 ∨ vliCmp (halfMultiple mm).low mod ≥ 0) := by
        have hle : Nat.size mod.val ≤ 256 := Nat.size_le.mpr (vli_lt mod)
        rw [not_or, vliCmp_nonneg_iff, not_le]
        exact ⟨by rw [show eccNumword * 8 = 256 from rfl]; omega, hhalf⟩
      rw [show fuel + (0 + 2) = fuel + 1 + 1 from rfl, modMultLoop, if_pos hgo, modMultLoop, if_neg hstop]
      refine ⟨_, rfl, ?_⟩
      rw [reduced_val, hmm]
      rw [hmm] at hp
      split_ifs with hle
      · rw [Nat.mod_eq_sub_mod hle, Nat.mod_eq_of_lt (by omega)]
      · rw [Nat.mod_eq_of_lt (by omega)]
  | succ s ih =>
      obtain ⟨fuel, rfl⟩ := Nat.exists_eq_add_of_le' hfuel
      have hsize := Nat.lt_size_self mod.val
      have hgo := @goesOn mod mm (Nat.size mod.val + (s + 1)) (by rw [hmm]; exact Nat.le_mul_of_pos_right _ (Nat.pow_pos (by decide)))
        (by rw [hmm, pow_add 2 (Nat.size mod.val)]; exact Nat.mul_lt_mul_of_pos_right hsize (Nat.pow_pos (by decide)))
      have hhalf : (halfMultiple mm).val = mod.val * 2 ^ s := by
        rw [halfMultiple_val, hmm, pow_succ, ← Nat.mul_assoc, Nat.mul_div_cancel _ (by decide)]
      have hreduced := reduced_val mm p
      rw [show fuel + (s + 1 + 2) = fuel + s + 2 + 1 by omega, modMultLoop, if_pos hgo,
        show Nat.size mod.val + (s + 1) - 1 = Nat.size mod.val + s by omega]
      obtain ⟨q, hq, hval⟩ := @ih (fuel + s + 2) (by omega) (halfMultiple mm)
        (if fitsInto mm p then takeAway p mm else p) hhalf
        (by rw [hreduced, hhalf]; rw [pow_succ, ← Nat.mul_assoc] at hmm; split_ifs <;> omega)
      refine ⟨q, hq, ?_⟩
      rw [hval, hreduced]
      split_ifs with hle
      · rw [hmm] at hle ⊢
        exact Nat.sub_mul_mod hle
      · rfl

theorem size_mul_le (a b : ℕ) : Nat.size (a * b) ≤ Nat.size a + Nat.size b := by
  rw [Nat.size_le, pow_add]
  exact Nat.mul_lt_mul'' (Nat.lt_size_self a) (Nat.lt_size_self b)

/-- **`vli_mod_mult` is the product modulo `mod`**: where the first factor has no more bits than the modulus the layout
of the modulus stays in its buffer, and 514 turns are enough. -/
theorem vliModMult_eq {left mod : Vli} (hmod : 0 < mod.val) (hl : Nat.size left.val ≤ Nat.size mod.val) (right : Vli) :
    ∃ r, (∀ fuel ≥ 514, vliModMult fuel left right mod = some r) ∧ r.val = left.val * right.val % mod.val := by
  have hprod := val_vliMult left right
  have hbits : productBits (vliMult left right) = Nat.size (left.val * right.val) := by
    rw [productBits_eq, hprod]
  have hsize : Nat.size (left.val * right.val) ≤ Nat.size mod.val + 256 := by
    have h₁ := size_mul_le left.val right.val
    have h₃ : Nat.size right.val ≤ 256 := Nat.size_le.mpr (vli_lt right)
    omega
  have hmodle : Nat.size mod.val ≤ 256 := Nat.size_le.mpr (vli_lt mod)
  have hlow : ∀ q : Product, q.val < mod.val → q.low.val = q.val := fun q hq => by
    have hval := product_val q
    have hlt := vli_lt mod
    omega
  rcases Nat.lt_or_ge (Nat.size (left.val * right.val)) (Nat.size mod.val) with h | h
  · refine ⟨(vliMult left right).low, fun fuel _ => ?_, ?_⟩
    · rw [vliModMult]
      simp only [hbits, vliNumBits_eq]
      rw [if_pos h]
    · have hlt : left.val * right.val < mod.val := by
        rcases Nat.lt_or_ge (left.val * right.val) mod.val with hlt | hge
        · exact hlt
        · have := Nat.size_le_size hge
          omega
      rw [hlow _ (by rw [hprod]; exact hlt), hprod, Nat.mod_eq_of_lt hlt]
  · obtain ⟨s, hs⟩ := Nat.exists_eq_add_of_le h
    have hs256 : s ≤ 256 := by omega
    have hfit : s / 8 + eccNumword + (if s % 8 ≠ 0 then 1 else 0) ≤ eccNumword + eccNumword := by
      rw [show eccNumword = 32 from rfl]
      split_ifs <;> omega
    obtain ⟨mm, hmm, hval⟩ := @firstMultiple_spec mod s hfit
    have hp : (vliMult left right).val < 2 * mm.val := by
      have hlt := Nat.lt_size_self (left.val * right.val)
      obtain ⟨k, hk⟩ := Nat.exists_eq_succ_of_ne_zero (Nat.size_pos.mpr hmod).ne'
      have hle : 2 ^ k ≤ mod.val := Nat.lt_size.mp (by rw [hk]; exact Nat.lt_succ_self k)
      have hmul : 2 ^ k * 2 ^ s ≤ mod.val * 2 ^ s := Nat.mul_le_mul_right _ hle
      rw [hs, hk, show k.succ + s = k + s + 1 by omega, pow_succ, pow_add] at hlt
      rw [hprod, hval]
      omega
    have hloop : ∀ fuel ≥ 514, ∃ q, modMultLoop mod fuel (Nat.size mod.val + s) mm (vliMult left right) = some q ∧
        q.val = left.val * right.val % mod.val := fun fuel hfuel => by
      rw [← hprod]
      exact modMultLoop_eq hmod s (by omega) hval hp
    obtain ⟨q, _, hqval⟩ := hloop 514 le_rfl
    refine ⟨q.low, fun fuel hfuel => ?_, ?_⟩
    · obtain ⟨q', hq', hqval'⟩ := hloop fuel hfuel
      rw [vliModMult]
      simp only [hbits, vliNumBits_eq]
      rw [if_neg (by omega), hs, Nat.add_sub_cancel_left, hmm, Option.bind_some, hq', Option.map_some,
        Digits.ext_val (hqval'.trans hqval.symm)]
    · rw [hlow q (by rw [hqval]; exact Nat.mod_lt _ hmod), hqval]

/-! ### The inverse modulo a number -/

open ModInverse

/-- The sum with the modulus may need 257 bits; the top one comes back after the shift. -/
theorem halve_val {mod u : Vli} (hm : mod.val % 2 = 1) :
    (halve mod u).val = half mod.val u.val := by
  obtain ⟨hc, hadd⟩ := vliAdd_spec u mod
  have hlt := vli_lt mod
  have hslt := vli_lt (vliAdd u mod).2
  rw [halve, half]
  rcases Nat.mod_two_eq_zero_or_one u.val with hz | h₁
  · rw [if_pos ((even_iff u).mpr hz), if_pos hz, if_neg (not_not.mpr rfl), vliRshift1_val]
  · have hodd : ¬ even u = true := fun he => by
      rw [even_iff] at he
      omega
    have hhalf : (vliRshift1 (vliAdd u mod).2).val < 2 ^ 255 := by
      rw [vliRshift1_val]
      omega
    rw [if_neg hodd, if_neg (show ¬ u.val % 2 = 0 by omega)]
    rcases eq_or_ne (vliAdd u mod).1 0 with hz | hn
    · rw [hz, show (0 : UInt8).toNat = 0 from rfl] at hadd
      rw [if_neg (not_not.mpr hz), vliRshift1_val]
      omega
    · have hone : (vliAdd u mod).1.toNat ≠ 0 := fun h => hn (UInt8.toNat_inj.mp h)
      have hone' : (vliAdd u mod).1.toNat = 1 := by omega
      rw [hone'] at hadd
      rw [if_pos hn, setTop_val hhalf, vliRshift1_val]
      omega

/-- Where `u` is the smaller, the sum may lose its top bit and the difference gets it back. -/
theorem takeFrom_val {mod u v : Vli} (hu : u.val < mod.val) (hv : v.val < mod.val) :
    (takeFrom mod u v).val = diff mod.val u.val v.val := by
  have hlt := vli_lt mod
  rw [takeFrom, diff]
  rcases Nat.lt_or_ge u.val v.val with h | h
  · obtain ⟨hc, hadd⟩ := vliAdd_spec u mod
    obtain ⟨hb, hsub⟩ := vliSub_spec (vliAdd u mod).2 v
    have halt := vli_lt (vliAdd u mod).2
    have hslt := vli_lt (vliSub (vliAdd u mod).2 v).2
    rw [if_pos ((vliCmp_neg_iff u v).mpr h), if_pos h]
    omega
  · obtain ⟨hb, hsub⟩ := vliSub_spec u v
    have hslt := vli_lt (vliSub u v).2
    rw [if_neg (fun hc => by rw [vliCmp_neg_iff] at hc; omega), if_neg (by omega)]
    omega

theorem vliSub_val {a b : Vli} (h : b.val ≤ a.val) : (vliSub a b).2.val = a.val - b.val := by
  obtain ⟨hb, hsub⟩ := vliSub_spec a b
  have hlt := vli_lt (vliSub a b).2
  have ha := vli_lt a
  omega

/-- The state of the loop is one of the algorithm. -/
abbrev Keeps (input mod a b u v : Vli) : Prop := Inverting mod.val input.val a.val b.val u.val v.val

theorem keeps_halved {input mod a b u v : Vli} (h : Keeps input mod a b u v) (ha : a.val % 2 = 0) :
    Keeps input mod (vliRshift1 a) b (halve mod u) v := by
  have hnext := Inverting.halved h ha
  rwa [← vliRshift1_val, ← halve_val h.odd] at hnext

/-- Taking one odd number away from the other leaves an even one, which is halved. -/
theorem keeps_taken {input mod a b u v : Vli} (h : Keeps input mod a b u v) (hlt : b.val < a.val)
    (ha : a.val % 2 = 1) (hb : b.val % 2 = 1) :
    Keeps input mod (vliRshift1 (vliSub a b).2) b (halve mod (takeFrom mod u v)) v := by
  have htaken := Inverting.taken h hlt
  rw [← takeFrom_val h.u_lt h.v_lt, ← vliSub_val hlt.le] at htaken
  exact keeps_halved htaken (by rw [vliSub_val hlt.le]; omega)

/-- Each turn makes the product of the two numbers at least twice as small. -/
theorem mul_half_lt {a b c k : ℕ} (h : a * b < 2 ^ (k + 1)) (hc : 2 * c ≤ a) : c * b < 2 ^ k := by
  have hmul : 2 * c * b ≤ a * b := Nat.mul_le_mul_right b hc
  rw [pow_succ] at h
  rw [Nat.mul_assoc] at hmul
  omega

theorem modInvLoop_eq {input mod : Vli} (k : ℕ) {fuel : ℕ} (hfuel : k + 1 ≤ fuel) {a b u v : Vli}
    (h : Keeps input mod a b u v) (hk : a.val * b.val < 2 ^ k) :
    ∃ r : Vli, modInvLoop mod fuel a b u v = some r ∧ r.val < mod.val ∧
      r.val * input.val ≡ Nat.gcd input.val mod.val [MOD mod.val] := by
  induction k generalizing fuel a b u v with
  | zero =>
      have hpos : 0 < a.val * b.val := Nat.mul_pos h.a_pos h.b_pos
      omega
  | succ k ih =>
      obtain ⟨fuel, rfl⟩ := Nat.exists_eq_add_of_le' hfuel
      have hk' : b.val * a.val < 2 ^ (k + 1) := by rw [Nat.mul_comm]; exact hk
      rw [show fuel + (k + 1 + 1) = fuel + (k + 1) + 1 from rfl, modInvLoop]
      rcases eq_or_ne (vliCmp a b) 0 with hz | hn
      · rw [if_pos hz]
        have hab := (vliCmp_eq_zero_iff a b).mp hz
        subst hab
        exact ⟨u, rfl, h.u_lt, Inverting.done h⟩
      · rw [if_neg hn]
        rcases Nat.mod_two_eq_zero_or_one a.val with ha | ha
        · rw [if_pos ((even_iff a).mpr ha)]
          exact ih (by omega) (keeps_halved h ha) (mul_half_lt hk (by rw [vliRshift1_val]; omega))
        · rw [if_neg (fun he => by rw [even_iff] at he; omega)]
          rcases Nat.mod_two_eq_zero_or_one b.val with hb | hb
          · rw [if_pos ((even_iff b).mpr hb)]
            refine ih (by omega) (Inverting.swap (keeps_halved (Inverting.swap h) hb)) ?_
            rw [Nat.mul_comm]
            exact mul_half_lt hk' (by rw [vliRshift1_val]; omega)
          · rw [if_neg (fun he => by rw [even_iff] at he; omega)]
            rcases Nat.lt_or_ge b.val a.val with hlt | hge
            · rw [if_pos ((vliCmp_pos_iff a b).mpr hlt)]
              exact ih (by omega) (keeps_taken h hlt ha hb)
                (mul_half_lt hk (by rw [vliRshift1_val, vliSub_val hlt.le]; omega))
            · have hne : a.val ≠ b.val := fun he => hn ((vliCmp_eq_zero_iff a b).mpr (Digits.ext_val he))
              have hlt : a.val < b.val := by omega
              rw [if_neg (fun hc => by rw [vliCmp_pos_iff] at hc; omega)]
              refine ih (by omega) (Inverting.swap (keeps_taken (Inverting.swap h) hlt hb ha)) ?_
              rw [Nat.mul_comm]
              exact mul_half_lt hk' (by rw [vliRshift1_val, vliSub_val hlt.le]; omega)

/-- **`vli_mod_inv` ends within 513 turns** for an odd modulus, and its result takes `input` to the greatest common
divisor of the two. -/
theorem vliModInv_eq {input mod : Vli} (hm : mod.val % 2 = 1) (h₁ : 1 < mod.val) (hinput : input.val ≠ 0)
    {fuel : ℕ} (hfuel : 513 ≤ fuel) :
    ∃ r : Vli, vliModInv fuel input mod = some r ∧ r.val < mod.val ∧
      r.val * input.val ≡ Nat.gcd input.val mod.val [MOD mod.val] := by
  have hstart : Keeps input mod input mod vliOne vliClear := by
    rw [Keeps, vliOne_val, vliClear_val]
    exact inverting_start hm h₁ (Nat.pos_of_ne_zero hinput)
  have hbound : input.val * mod.val < 2 ^ 512 := by
    rw [show 512 = 256 + 256 from rfl, pow_add]
    exact Nat.mul_lt_mul'' (vli_lt input) (vli_lt mod)
  rw [vliModInv, if_neg fun hz => hinput ((vliIsZero_iff input).mp hz)]
  exact modInvLoop_eq 512 hfuel hstart hbound

/-- **The inverse is one**: `vli_mod_mult` takes the result of `vli_mod_inv` and its input to `1`, for every input
without a common divisor with an odd modulus, also one above it. -/
theorem vliModMult_vliModInv {input mod : Vli} (hm : mod.val % 2 = 1) (h₁ : 1 < mod.val)
    (hcop : Nat.Coprime input.val mod.val) :
    ∃ inverse, vliModInv 513 input mod = some inverse ∧ vliModMult 514 inverse input mod = some vliOne := by
  have hinput : input.val ≠ 0 := by
    intro hz
    rw [hz, Nat.coprime_zero_left] at hcop
    omega
  obtain ⟨inverse, hinv, hlt, hmul⟩ := vliModInv_eq hm h₁ hinput le_rfl
  obtain ⟨r, hr, hval⟩ := @vliModMult_eq inverse mod (by omega) (Nat.size_le_size hlt.le) input
  refine ⟨inverse, hinv, ?_⟩
  rw [hr 514 le_rfl]
  rw [hcop] at hmul
  refine congrArg some (Digits.ext_val ?_)
  rw [hval, vliOne_val, hmul, Nat.mod_eq_of_lt h₁]

/-- Three modulo seven. -/
theorem vliModMult_vliModInv_three :
    ∃ inverse, vliModInv 513 (Digits.ofNat eccNumword 3) (Digits.ofNat eccNumword 7) = some inverse ∧
      vliModMult 514 inverse (Digits.ofNat eccNumword 3) (Digits.ofNat eccNumword 7) = some vliOne :=
  @vliModMult_vliModInv (Digits.ofNat eccNumword 3) (Digits.ofNat eccNumword 7) (by decide) (by decide) (by decide)

end Httcutils
end TsbAgent
