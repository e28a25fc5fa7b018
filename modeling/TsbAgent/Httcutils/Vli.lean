/-
# The integers of the elliptic curve code

`tss-main/httcutils/src/sm/ecc.c`: a `vli` is `ECC_NUMWORD` bytes, least significant first, and every operation is a
loop over the bytes that hands a carry on.  What the loops compute is stated on the values:

| the call | the value |
| --- | --- |
| `vli_add`, `vli_sub` | the sum, the difference, with what is carried out of the top byte |
| `vli_lshift`, `vli_rshift1` | times `2 ^ shift`, with the bits that leave; half |
| `vli_cmp`, `vli_is_zero`, `vli_num_bits`, `vli_test_bit` | the order, zero, the size in bits, a bit |
| `vli_mult`, `vli_square` | the product and the square, of twice as many bytes |
| `vli_mod_add`, `vli_mod_sub` | the sum and the difference modulo `mod` |

`vli_mult` sums a column in 16 bits and counts what overflows in 8; `vli_square` takes the pairs off the diagonal
once and doubles them in 16 bits, counting the bit that leaves.  Neither loses anything (`val_vliMult`,
`val_vliSquare`).
-/

import TsbAgent.Lib.Digits
import Mathlib.Algebra.Order.BigOperators.Group.Finset
import Mathlib.Tactic.Linarith

namespace TsbAgent
namespace Httcutils

open Libc Word

/-- `ECC_NUMWORD`. -/
abbrev eccNumword : ℕ := 32

/-- `uint8_t vli[ECC_NUMWORD]`. -/
abbrev Vli := Digits eccNumword

/-- `uint8_t product[2 * ECC_NUMWORD]`. -/
abbrev Product := Digits (eccNumword + eccNumword)

/-! ### Comparing -/

/-- `vli_clear`. -/
def vliClear : Vli := ⟨List.replicate eccNumword 0, List.length_replicate⟩

/-- `vli_is_zero`. -/
def vliIsZero (vli : Vli) : Bool := vli.bytes.all (· = 0)

/-- `vli_test_bit`: not zero when the bit is set. -/
def vliTestBit (vli : Vli) (bit : ℕ) : Bool := (vli.get (bit / 8)).toNat &&& 2 ^ (bit % 8) ≠ 0

/-- The loop of `vli_num_digits`, from `i` downwards. -/
def digitsFrom (vli : Vli) : ℕ → ℕ
  | 0 => 0
  | i + 1 => if vli.get i = 0 then digitsFrom vli i else i + 1

/-- `vli_num_digits`. -/
def vliNumDigits (vli : Vli) : ℕ := digitsFrom vli eccNumword

/-- `for (i = 0; digit; ++i) digit >>= 1`; eight shifts empty a byte. -/
def shiftsOf : ℕ → UInt8 → ℕ
  | 0, _ => 0
  | n + 1, digit => if digit = 0 then 0 else shiftsOf n (digit >>> 1) + 1

/-- `vli_num_bits`. -/
def vliNumBits (vli : Vli) : ℕ :=
  if vliNumDigits vli = 0 then 0
  else (vliNumDigits vli - 1) * 8 + shiftsOf 8 (vli.get (vliNumDigits vli - 1))

/-- The loop of `vli_cmp`, from `i` downwards. -/
def cmpFrom (left right : Vli) : ℕ → ℤ
  | 0 => 0
  | i + 1 =>
      if left.get i > right.get i then 1 else if left.get i < right.get i then -1 else cmpFrom left right i

/-- `vli_cmp`. -/
def vliCmp (left right : Vli) : ℤ := cmpFrom left right eccNumword

/-! ### Shifts -/

/-- The loop of `vli_lshift`: what leaves a byte comes into the next. -/
def lshiftLoop (shift : ℕ) : UInt8 → Bytes → UInt8 × Bytes
  | carry, [] => (carry, [])
  | carry, temp :: rest =>
      let next := lshiftLoop shift (UInt8.ofNat (temp.toNat >>> (8 - shift))) rest
      (next.1, (UInt8.ofNat (temp.toNat <<< shift) ||| carry) :: next.2)

theorem length_lshiftLoop (shift : ℕ) (carry : UInt8) (b : Bytes) :
    (lshiftLoop shift carry b).2.length = b.length := by
  induction b generalizing carry with
  | nil => rfl
  | cons x b ih => rw [lshiftLoop, List.length_cons, List.length_cons, ih]

/-- `vli_lshift`: what is returned, and `result`. -/
def vliLshift (vli : Vli) (shift : ℕ) : UInt8 × Vli :=
  ((lshiftLoop shift 0 vli.bytes).1,
    ⟨(lshiftLoop shift 0 vli.bytes).2, by rw [length_lshiftLoop, vli.length_eq]⟩)

/-- The loop of `vli_rshift1`, from the last byte to the first. -/
def rshiftLoop : Bytes → UInt8 × Bytes
  | [] => (0, [])
  | temp :: rest => (temp <<< 7, ((temp >>> 1) ||| (rshiftLoop rest).1) :: (rshiftLoop rest).2)

theorem length_rshiftLoop (b : Bytes) : (rshiftLoop b).2.length = b.length := by
  induction b with
  | nil => rfl
  | cons x b ih => rw [rshiftLoop, List.length_cons, List.length_cons, ih]

/-- `vli_rshift1`. -/
def vliRshift1 (vli : Vli) : Vli := ⟨(rshiftLoop vli.bytes).2, by rw [length_rshiftLoop, vli.length_eq]⟩

/-! ### Sums -/

/-- A flag as the byte C makes of it. -/
def flag (b : Bool) : UInt8 := if b then 1 else 0

/-- The loop of `vli_add`. -/
def addLoop : UInt8 → Bytes → Bytes → UInt8 × Bytes
  | carry, l :: ls, r :: rs =>
      let sum := l + r + carry
      let next := addLoop (if sum ≠ l then flag (sum < l) else carry) ls rs
      (next.1, sum :: next.2)
  | carry, _, _ => (carry, [])

theorem length_addLoop (carry : UInt8) (l r : Bytes) (h : l.length = r.length) :
    (addLoop carry l r).2.length = l.length := by
  induction l generalizing carry r with
  | nil => rfl
  | cons x l ih =>
      cases r with
      | nil => exact absurd h (Nat.succ_ne_zero _)
      | cons y r => rw [addLoop, List.length_cons, List.length_cons, ih _ r (Nat.succ_injective h)]

/-- `vli_add`: what is returned, and `result`. -/
def vliAdd (left right : Vli) : UInt8 × Vli :=
  ((addLoop 0 left.bytes right.bytes).1, ⟨(addLoop 0 left.bytes right.bytes).2, by
    rw [length_addLoop _ _ _ (left.length_eq.trans right.length_eq.symm), left.length_eq]⟩)

/-- The loop of `vli_sub`. -/
def subLoop : UInt8 → Bytes → Bytes → UInt8 × Bytes
  | borrow, l :: ls, r :: rs =>
      let diff := l - r - borrow
      let next := subLoop (if diff ≠ l then flag (diff > l) else borrow) ls rs
      (next.1, diff :: next.2)
  | borrow, _, _ => (borrow, [])

theorem length_subLoop (borrow : UInt8) (l r : Bytes) (h : l.length = r.length) :
    (subLoop borrow l r).2.length = l.length := by
  induction l generalizing borrow r with
  | nil => rfl
  | cons x l ih =>
      cases r with
      | nil => exact absurd h (Nat.succ_ne_zero _)
      | cons y r => rw [subLoop, List.length_cons, List.length_cons, ih _ r (Nat.succ_injective h)]

/-- `vli_sub`: what is returned, and `result`. -/
def vliSub (left right : Vli) : UInt8 × Vli :=
  ((subLoop 0 left.bytes right.bytes).1, ⟨(subLoop 0 left.bytes right.bytes).2, by
    rw [length_subLoop _ _ _ (left.length_eq.trans right.length_eq.symm), left.length_eq]⟩)

/-- `vli_mod_add`. -/
def vliModAdd (left right mod : Vli) : Vli :=
  let sum := vliAdd left right
  if sum.1 ≠ 0 ∨ vliCmp sum.2 mod ≥ 0 then (vliSub sum.2 mod).2 else sum.2

/-- `vli_mod_sub`. -/
def vliModSub (left right mod : Vli) : Vli :=
  let diff := vliSub left right
  if diff.1 ≠ 0 then (vliAdd diff.2 mod).2 else diff.2

/-! ### Products -/

/-- `r01 += product; r2 += (r01 < product)`. -/
def accumulate (acc : UInt16 × UInt8) (product : UInt16) : UInt16 × UInt8 :=
  (acc.1 + product, acc.2 + flag (acc.1 + product < product))

/-- The bytes of a column: `k < ECC_NUMWORD ? 0 : (k + 1) - ECC_NUMWORD`. -/
def columnMin (k : ℕ) : ℕ := if k < eccNumword then 0 else k + 1 - eccNumword

/-- The inner loop of `vli_mult`: `i <= k && i < ECC_NUMWORD`. -/
def multColumn (left right : Vli) (k : ℕ) (r01 : UInt16) : UInt16 × UInt8 :=
  (List.range' (columnMin k) (min (k + 1) eccNumword - columnMin k)).foldl
    (fun acc i => accumulate acc ((left.get i).toUInt16 * (right.get (k - i)).toUInt16)) (r01, 0)

/-- One turn of the inner loop of `vli_square`: a pair off the diagonal counts twice, and what doubling takes out
of 16 bits goes into `r2`. -/
def squareStep (left : Vli) (k : ℕ) (acc : UInt16 × UInt8) (i : ℕ) : UInt16 × UInt8 :=
  let product := (left.get i).toUInt16 * (left.get (k - i)).toUInt16
  if i < k - i then accumulate (acc.1, acc.2 + (product >>> 15).toUInt8) (product * 2) else accumulate acc product

/-- The inner loop of `vli_square`: `i <= k && i <= k - i`. -/
def squareColumn (left : Vli) (k : ℕ) (r01 : UInt16) : UInt16 × UInt8 :=
  (List.range' (columnMin k) (k / 2 + 1 - columnMin k)).foldl (squareStep left k) (r01, 0)

/-- The outer loop of both: the low byte of a column is written, the rest goes into the next one.  After the last
column the low byte of what is left is written. -/
def columnLoop (column : ℕ → UInt16 → UInt16 × UInt8) : ℕ → ℕ → UInt16 → Bytes
  | 0, _, r01 => [r01.toUInt8]
  | n + 1, k, r01 =>
      let sum := column k r01
      sum.1.toUInt8 :: columnLoop column n (k + 1) ((sum.1 >>> 8) ||| (sum.2.toUInt16 <<< 8))

theorem length_columnLoop (column : ℕ → UInt16 → UInt16 × UInt8) (n k : ℕ) (r01 : UInt16) :
    (columnLoop column n k r01).length = n + 1 := by
  induction n generalizing k r01 with
  | zero => rfl
  | succ n ih => rw [columnLoop, List.length_cons, ih]

/-- `vli_mult`. -/
def vliMult (left right : Vli) : Product :=
  ⟨columnLoop (multColumn left right) (eccNumword * 2 - 1) 0 0, length_columnLoop _ _ _ _⟩

/-- `vli_square`. -/
def vliSquare (left : Vli) : Product :=
  ⟨columnLoop (squareColumn left) (eccNumword * 2 - 1) 0 0, length_columnLoop _ _ _ _⟩

/-! ### What the sums are -/

theorem toNat_flag (b : Bool) : (flag b).toNat = if b then 1 else 0 := by cases b <;> rfl

/-- One byte of a sum: the carry that goes on is what the byte cannot hold. -/
theorem addStep {carry : UInt8} (l r : UInt8) (hc : carry.toNat ≤ 1) :
    (l + r + carry).toNat + 256 * (if l + r + carry ≠ l then flag (l + r + carry < l) else carry).toNat =
      l.toNat + r.toNat + carry.toNat := by
  have hl := l.toNat_lt
  have hr := r.toNat_lt
  have hsum : (l + r + carry).toNat = (l.toNat + r.toNat + carry.toNat) % 256 := by
    rw [UInt8.toNat_add, UInt8.toNat_add]
    omega
  rcases eq_or_ne (l + r + carry) l with he | he
  · have hval := congrArg UInt8.toNat he
    rw [if_neg (not_not.mpr he)]
    omega
  · have hval : (l + r + carry).toNat ≠ l.toNat := fun h => he (UInt8.toNat_inj.mp h)
    rw [if_pos he, toNat_flag]
    simp only [decide_eq_true_eq, UInt8.lt_iff_toNat_lt]
    split_ifs <;> omega

/-- One byte of a difference. -/
theorem subStep {borrow : UInt8} (l r : UInt8) (hb : borrow.toNat ≤ 1) :
    (l - r - borrow).toNat + r.toNat + borrow.toNat =
      l.toNat + 256 * (if l - r - borrow ≠ l then flag (l - r - borrow > l) else borrow).toNat := by
  have hl := l.toNat_lt
  have hr := r.toNat_lt
  have hdiff : (l - r - borrow).toNat = (l.toNat + 512 - r.toNat - borrow.toNat) % 256 := by
    rw [UInt8.toNat_sub, UInt8.toNat_sub]
    omega
  rcases eq_or_ne (l - r - borrow) l with he | he
  · have hval := congrArg UInt8.toNat he
    rw [if_neg (not_not.mpr he)]
    omega
  · have hval : (l - r - borrow).toNat ≠ l.toNat := fun h => he (UInt8.toNat_inj.mp h)
    rw [if_pos he, toNat_flag]
    simp only [decide_eq_true_eq, gt_iff_lt, UInt8.lt_iff_toNat_lt]
    split_ifs <;> omega

theorem flag_le_one {p : Prop} [Decidable p] {b : Bool} {c : UInt8} (hc : c.toNat ≤ 1) :
    (if p then flag b else c).toNat ≤ 1 := by
  split
  · rw [toNat_flag]
    split <;> decide
  · exact hc

theorem addLoop_spec (l r : Bytes) {carry : UInt8} (hlen : l.length = r.length) (hc : carry.toNat ≤ 1) :
    (addLoop carry l r).1.toNat ≤ 1 ∧
      ofHost (addLoop carry l r).2 + 256 ^ l.length * (addLoop carry l r).1.toNat =
        ofHost l + ofHost r + carry.toNat := by
  induction l generalizing carry r with
  | nil =>
      cases r with
      | nil => exact ⟨hc, by simp [addLoop, ofHost]⟩
      | cons y r => exact absurd hlen.symm (Nat.succ_ne_zero _)
  | cons x l ih =>
      cases r with
      | nil => exact absurd hlen (Nat.succ_ne_zero _)
      | cons y r =>
          have hstep := addStep x y hc
          obtain ⟨hle, heq⟩ := ih r (Nat.succ_injective hlen)
            (@flag_le_one (x + y + carry ≠ x) _ (decide (x + y + carry < x)) carry hc)
          refine ⟨hle, ?_⟩
          rw [addLoop, ofHost, ofHost, ofHost, List.length_cons, pow_succ']
          dsimp only
          linarith

theorem subLoop_spec (l r : Bytes) {borrow : UInt8} (hlen : l.length = r.length) (hb : borrow.toNat ≤ 1) :
    (subLoop borrow l r).1.toNat ≤ 1 ∧
      ofHost (subLoop borrow l r).2 + ofHost r + borrow.toNat =
        ofHost l + 256 ^ l.length * (subLoop borrow l r).1.toNat := by
  induction l generalizing borrow r with
  | nil =>
      cases r with
      | nil => exact ⟨hb, by simp [subLoop, ofHost]⟩
      | cons y r => exact absurd hlen.symm (Nat.succ_ne_zero _)
  | cons x l ih =>
      cases r with
      | nil => exact absurd hlen (Nat.succ_ne_zero _)
      | cons y r =>
          have hstep := subStep x y hb
          obtain ⟨hle, heq⟩ := ih r (Nat.succ_injective hlen)
            (@flag_le_one (x - y - borrow ≠ x) _ (decide (x - y - borrow > x)) borrow hb)
          refine ⟨hle, ?_⟩
          rw [subLoop, ofHost, ofHost, ofHost, List.length_cons, pow_succ']
          dsimp only
          linarith

theorem pow_eccNumword : 256 ^ eccNumword = 2 ^ 256 := by decide

theorem vli_lt (v : Vli) : v.val < 2 ^ 256 := by
  have hlt := v.val_lt
  rwa [pow_eccNumword] at hlt

theorem product_val (p : Product) : p.val = p.low.val + 2 ^ 256 * p.high.val := by
  rw [p.val_low_high, pow_eccNumword]

theorem vliAdd_spec (left right : Vli) :
    (vliAdd left right).1.toNat ≤ 1 ∧
      (vliAdd left right).2.val + 2 ^ 256 * (vliAdd left right).1.toNat = left.val + right.val := by
  have hspec := @addLoop_spec left.bytes right.bytes 0 (left.length_eq.trans right.length_eq.symm) (Nat.zero_le 1)
  rwa [left.length_eq, pow_eccNumword] at hspec

theorem vliSub_spec (left right : Vli) :
    (vliSub left right).1.toNat ≤ 1 ∧
      (vliSub left right).2.val + right.val = left.val + 2 ^ 256 * (vliSub left right).1.toNat := by
  have hspec := @subLoop_spec left.bytes right.bytes 0 (left.length_eq.trans right.length_eq.symm) (Nat.zero_le 1)
  rwa [left.length_eq, pow_eccNumword] at hspec

/-! ### What the comparisons say -/

theorem vliIsZero_iff (vli : Vli) : vliIsZero vli = true ↔ vli.val = 0 := by
  rw [vliIsZero, List.all_eq_true, Digits.val]
  induction vli.bytes with
  | nil => simp [ofHost]
  | cons x b ih =>
      have hzero : (x = 0) ↔ x.toNat = 0 := ⟨fun h => by rw [h]; rfl, fun h => UInt8.toNat_inj.mp h⟩
      rw [List.forall_mem_cons, ih, decide_eq_true_eq, hzero, ofHost]
      omega

/-- The value of the first `k` bytes. -/
def below (v : Vli) (k : ℕ) : ℕ := ∑ i ∈ Finset.range k, (v.get i).toNat * 256 ^ i

theorem below_succ (v : Vli) (k : ℕ) : below v (k + 1) = below v k + (v.get k).toNat * 256 ^ k :=
  Finset.sum_range_succ _ _

theorem below_lt (v : Vli) (k : ℕ) : below v k < 256 ^ k := by
  induction k with
  | zero => exact Nat.one_pos
  | succ k ih =>
      have hbyte : (v.get k).toNat * 256 ^ k ≤ 255 * 256 ^ k :=
        Nat.mul_le_mul_right _ (Nat.le_of_lt_succ (v.get_lt k))
      rw [below_succ, pow_succ]
      omega

theorem val_eq_below (v : Vli) : v.val = below v eccNumword := v.val_eq_sum

/-- A larger byte outweighs all the bytes below it. -/
theorem below_lt_below {v w : Vli} {k : ℕ} (h : (v.get k).toNat < (w.get k).toNat) :
    below v (k + 1) < below w (k + 1) := by
  have hmul : ((v.get k).toNat + 1) * 256 ^ k ≤ (w.get k).toNat * 256 ^ k := Nat.mul_le_mul_right _ h
  have hlt := below_lt v k
  rw [below_succ, below_succ]
  rw [Nat.add_mul, Nat.one_mul] at hmul
  omega

theorem cmpFrom_eq (left right : Vli) (k : ℕ) :
    cmpFrom left right k =
      if below left k < below right k then -1 else if below left k = below right k then 0 else 1 := by
  induction k with
  | zero => rfl
  | succ k ih =>
      rcases lt_trichotomy (left.get k).toNat (right.get k).toNat with h | h | h
      · have hlt := below_lt_below h
        rw [cmpFrom, if_neg (by rw [gt_iff_lt, UInt8.lt_iff_toNat_lt]; omega),
          if_pos (UInt8.lt_iff_toNat_lt.mpr h), if_pos hlt]
      · rw [cmpFrom, if_neg (by rw [gt_iff_lt, UInt8.lt_iff_toNat_lt]; omega),
          if_neg (by rw [UInt8.lt_iff_toNat_lt]; omega), ih, below_succ, below_succ, h]
        simp only [Nat.add_lt_add_iff_right, Nat.add_right_cancel_iff]
      · have hlt := below_lt_below h
        rw [cmpFrom, if_pos (by rw [gt_iff_lt, UInt8.lt_iff_toNat_lt]; exact h), if_neg (by omega),
          if_neg (by omega)]

/-- `vli_cmp` compares the values. -/
theorem vliCmp_eq (left right : Vli) :
    vliCmp left right = if left.val < right.val then -1 else if left.val = right.val then 0 else 1 := by
  rw [vliCmp, cmpFrom_eq, val_eq_below, val_eq_below]

theorem vliCmp_nonneg_iff (left right : Vli) : vliCmp left right ≥ 0 ↔ right.val ≤ left.val := by
  rw [vliCmp_eq]
  split_ifs <;> omega

theorem vliCmp_neg_iff (left right : Vli) : vliCmp left right < 0 ↔ left.val < right.val := by
  rw [vliCmp_eq]
  split_ifs <;> omega

theorem vliCmp_pos_iff (left right : Vli) : vliCmp left right > 0 ↔ right.val < left.val := by
  rw [vliCmp_eq]
  split_ifs <;> omega

theorem vliCmp_nonpos_iff (left right : Vli) : vliCmp left right ≤ 0 ↔ left.val ≤ right.val := by
  rw [vliCmp_eq]
  split_ifs <;> omega

theorem vliCmp_eq_zero_iff (left right : Vli) : vliCmp left right = 0 ↔ left = right := by
  refine ⟨fun h => Digits.ext_val ?_, fun h => ?_⟩
  · rw [vliCmp_eq] at h
    rcases lt_trichotomy left.val right.val with hlt | heq | hlt
    · rw [if_pos hlt] at h
      exact absurd h (by decide)
    · exact heq
    · rw [if_neg (by omega), if_neg (by omega)] at h
      exact absurd h (by decide)
  · rw [vliCmp_eq, h, if_neg (lt_irrefl _), if_pos rfl]

theorem vliCmp_ne_one_iff (left right : Vli) : vliCmp left right ≠ 1 ↔ left.val ≤ right.val := by
  rw [vliCmp_eq]
  split_ifs <;> omega

/-! ### Sums modulo a number -/

theorem vliModAdd_val {left right mod : Vli} (hl : left.val < mod.val) (hr : right.val < mod.val) :
    (vliModAdd left right mod).val = (left.val + right.val) % mod.val := by
  obtain ⟨hc, hadd⟩ := vliAdd_spec left right
  obtain ⟨hb, hsub⟩ := vliSub_spec (vliAdd left right).2 mod
  have hmod := vli_lt mod
  have hlt := vli_lt (vliAdd left right).2
  have hslt := vli_lt (vliSub (vliAdd left right).2 mod).2
  rcases Nat.lt_or_ge (left.val + right.val) mod.val with h | h
  · -- nothing is carried out, and the sum is below the modulus
    have hzero : (vliAdd left right).1.toNat = 0 := by
      rcases Nat.eq_zero_or_pos (vliAdd left right).1.toNat with hz | hp
      · exact hz
      · have := Nat.mul_le_mul_left (2 ^ 256) hp
        omega
    rw [hzero, Nat.mul_zero, Nat.add_zero] at hadd
    have hskip : ¬ ((vliAdd left right).1 ≠ 0 ∨ vliCmp (vliAdd left right).2 mod ≥ 0) := by
      rw [not_or, not_not, vliCmp_nonneg_iff, not_le, hadd]
      exact ⟨UInt8.toNat_inj.mp hzero, h⟩
    rw [vliModAdd]
    rw [if_neg hskip, hadd, Nat.mod_eq_of_lt h]
  · have htake : (vliAdd left right).1 ≠ 0 ∨ vliCmp (vliAdd left right).2 mod ≥ 0 := by
      rcases eq_or_ne (vliAdd left right).1 0 with hz | hn
      · have hzero : (vliAdd left right).1.toNat = 0 := congrArg UInt8.toNat hz
        rw [hzero, Nat.mul_zero, Nat.add_zero] at hadd
        exact Or.inr ((vliCmp_nonneg_iff _ _).mpr (by rw [hadd]; exact h))
      · exact Or.inl hn
    have hreduce : (left.val + right.val) % mod.val = left.val + right.val - mod.val := by
      rw [Nat.mod_eq_sub_mod h, Nat.mod_eq_of_lt (by omega)]
    rw [vliModAdd]
    rw [if_pos htake, hreduce]
    have hc' : (vliAdd left right).1.toNat = 0 ∨ (vliAdd left right).1.toNat = 1 := by omega
    have hb' : (vliSub (vliAdd left right).2 mod).1.toNat = 0 ∨
        (vliSub (vliAdd left right).2 mod).1.toNat = 1 := by omega
    rcases hc' with hc' | hc' <;> rcases hb' with hb' | hb' <;> rw [hc'] at hadd <;> rw [hb'] at hsub <;> omega

/-- The left number need not be below the modulus. -/
theorem vliModSub_spec {left right mod : Vli} (hr : right.val ≤ mod.val) :
    (vliModSub left right mod).val =
      if left.val < right.val then left.val + mod.val - right.val else left.val - right.val := by
  obtain ⟨hb, hsub⟩ := vliSub_spec left right
  obtain ⟨hc, hadd⟩ := vliAdd_spec (vliSub left right).2 mod
  have hmod := vli_lt mod
  have hlt := vli_lt (vliAdd (vliSub left right).2 mod).2
  have hslt := vli_lt (vliSub left right).2
  rcases Nat.lt_or_ge left.val right.val with h | h
  · have hone : (vliSub left right).1.toNat = 1 := by
      rcases Nat.eq_zero_or_pos (vliSub left right).1.toNat with hz | hp
      · rw [hz] at hsub
        omega
      · omega
    have hne : (vliSub left right).1 ≠ 0 := fun hz => by
      rw [hz] at hone
      exact absurd hone (by decide)
    rw [vliModSub]
    rw [if_pos hne, if_pos h]
    have hc' : (vliAdd (vliSub left right).2 mod).1.toNat = 0 ∨
        (vliAdd (vliSub left right).2 mod).1.toNat = 1 := by omega
    rw [hone] at hsub
    rcases hc' with hc' | hc' <;> rw [hc'] at hadd <;> omega
  · have hzero : (vliSub left right).1.toNat = 0 := by
      rcases Nat.eq_zero_or_pos (vliSub left right).1.toNat with hz | hp
      · exact hz
      · have := Nat.mul_le_mul_left (2 ^ 256) hp
        omega
    rw [vliModSub]
    rw [if_neg (not_not.mpr (UInt8.toNat_inj.mp hzero)), if_neg (by omega)]
    rw [hzero] at hsub
    omega

theorem vliModSub_val {left right mod : Vli} (hl : left.val < mod.val) (hr : right.val < mod.val) :
    (vliModSub left right mod).val = (left.val + (mod.val - right.val)) % mod.val := by
  rw [vliModSub_spec hr.le]
  split_ifs with h
  · rw [Nat.mod_eq_of_lt (by omega)]
    omega
  · rw [show left.val + (mod.val - right.val) = left.val - right.val + mod.val by omega, Nat.add_mod_right,
      Nat.mod_eq_of_lt (by omega)]

/-! ### What the products are -/

/-- What `r01` and `r2` hold together. -/
def held (acc : UInt16 × UInt8) : ℕ := acc.1.toNat + 2 ^ 16 * acc.2.toNat

theorem held_accumulate {acc : UInt16 × UInt8} {product : UInt16} (h : held acc + product.toNat < 2 ^ 24) :
    held (accumulate acc product) = held acc + product.toNat := by
  have hacc := acc.1.toNat_lt
  have hprod := product.toNat_lt
  have hsum : (acc.1 + product).toNat = (acc.1.toNat + product.toNat) % 2 ^ 16 := UInt16.toNat_add _ _
  have hcarry : (flag (acc.1 + product < product)).toNat = (acc.1.toNat + product.toNat) / 2 ^ 16 := by
    rw [toNat_flag]
    simp only [decide_eq_true_eq, UInt16.lt_iff_toNat_lt]
    split_ifs <;> omega
  rw [held] at h
  rw [accumulate, held, held, hsum, UInt8.toNat_add, hcarry]
  omega

/-- A loop whose turns add what they say keeps the exact sum as long as 24 bits hold it. -/
theorem held_foldl {step : UInt16 × UInt8 → ℕ → UInt16 × UInt8} {c : ℕ → ℕ}
    (hstep : ∀ acc i, held acc + c i < 2 ^ 24 → held (step acc i) = held acc + c i) (is : List ℕ)
    (acc : UInt16 × UInt8) (h : held acc + (is.map c).sum < 2 ^ 24) :
    held (is.foldl step acc) = held acc + (is.map c).sum := by
  induction is generalizing acc with
  | nil => rfl
  | cons i is ih =>
      rw [List.map_cons, List.sum_cons] at h ⊢
      have hone := hstep acc i (by omega)
      rw [List.foldl_cons, ih _ (by rw [hone]; omega), hone]
      omega

theorem columnMin_eq (k : ℕ) : columnMin k = k + 1 - eccNumword := by
  rw [columnMin]
  split_ifs <;> omega

theorem sum_range' (c : ℕ → ℕ) (a b : ℕ) :
    ((List.range' a (b - a)).map c).sum = ∑ i ∈ Finset.Ico a b, c i := rfl

/-- Two bytes of the factors in column `k`. -/
def cross (left right : Vli) (k i : ℕ) : ℕ := (left.get i).toNat * (right.get (k - i)).toNat

theorem cross_le (left right : Vli) (k i : ℕ) : cross left right k i ≤ 255 * 255 :=
  Nat.mul_le_mul (Nat.le_of_lt_succ (left.get_lt i)) (Nat.le_of_lt_succ (right.get_lt (k - i)))

theorem toNat_cross (left right : Vli) (k i : ℕ) :
    ((left.get i).toUInt16 * (right.get (k - i)).toUInt16).toNat = cross left right k i := by
  have hle := cross_le left right k i
  rw [UInt16.toNat_mul, UInt8.toNat_toUInt16, UInt8.toNat_toUInt16]
  exact Nat.mod_eq_of_lt (by rw [cross] at hle; omega)

/-- What the bytes of column `k` add up to. -/
def columnSum (left right : Vli) (k : ℕ) : ℕ :=
  ∑ i ∈ Finset.Ico (k + 1 - eccNumword) (min (k + 1) eccNumword), cross left right k i

theorem columnSum_le (left right : Vli) (k : ℕ) : columnSum left right k ≤ 32 * (255 * 255) := by
  have hcard := Finset.sum_le_card_nsmul (Finset.Ico (k + 1 - eccNumword) (min (k + 1) eccNumword))
    (cross left right k) (255 * 255) fun i _ => cross_le left right k i
  rw [Nat.card_Ico, Nat.nsmul_eq_mul] at hcard
  refine hcard.trans (Nat.mul_le_mul_right _ (show min (k + 1) 32 - (k + 1 - 32) ≤ 32 from ?_))
  omega

theorem held_start (r01 : UInt16) : held (r01, 0) = r01.toNat := by
  rw [held]
  exact Nat.add_zero _

theorem held_multColumn (left right : Vli) (k : ℕ) (r01 : UInt16) :
    held (multColumn left right k r01) = r01.toNat + columnSum left right k := by
  have hle := columnSum_le left right k
  have hr := r01.toNat_lt
  have hsum : ((List.range' (columnMin k) (min (k + 1) eccNumword - columnMin k)).map (cross left right k)).sum =
      columnSum left right k := by
    rw [sum_range', columnMin_eq, columnSum]
  have hfold := @held_foldl
    (fun acc i => accumulate acc ((left.get i).toUInt16 * (right.get (k - i)).toUInt16)) (cross left right k)
    (fun acc i h => by rw [← toNat_cross] at h ⊢; exact held_accumulate h)
    (List.range' (columnMin k) (min (k + 1) eccNumword - columnMin k)) (r01, 0)
    (by rw [held_start, hsum]; omega)
  rw [multColumn, hfold, held_start, hsum]

/-- A pair off the diagonal counts twice, although 16 bits may not hold it. -/
theorem held_squareStep (left : Vli) (k : ℕ) (acc : UInt16 × UInt8) (i : ℕ)
    (h : held acc + (if i < k - i then 2 else 1) * cross left left k i < 2 ^ 24) :
    held (squareStep left k acc i) = held acc + (if i < k - i then 2 else 1) * cross left left k i := by
  have hle := cross_le left left k i
  have hcross := toNat_cross left left k i
  rw [squareStep]
  split_ifs at h ⊢ with hlt
  · generalize (left.get i).toUInt16 * (left.get (k - i)).toUInt16 = product at hcross ⊢
    have hdouble : (product * 2).toNat = 2 * product.toNat % 2 ^ 16 := by
      rw [UInt16.toNat_mul, Nat.mul_comm]
      rfl
    have htop : (product >>> 15).toUInt8.toNat = product.toNat / 2 ^ 15 := by
      have hp := product.toNat_lt
      rw [UInt16.toNat_toUInt8, UInt16.toNat_shiftRight, Nat.shiftRight_eq_div_pow]
      exact Nat.mod_eq_of_lt (by rw [show (15 : UInt16).toNat % 16 = 15 from rfl]; omega)
    have hacc : held (acc.1, acc.2 + (product >>> 15).toUInt8) = held acc + 2 ^ 16 * (product.toNat / 2 ^ 15) := by
      rw [held] at h
      rw [held, held, UInt8.toNat_add, htop]
      dsimp only
      omega
    rw [held_accumulate (by rw [hacc, hdouble]; omega), hacc, hdouble]
    omega
  · rw [held_accumulate (by rw [hcross]; omega), hcross]
    omega

theorem held_squareColumn (left : Vli) (k : ℕ) (r01 : UInt16) :
    held (squareColumn left k r01) = r01.toNat + columnSum left left k := by
  have hle := columnSum_le left left k
  have hr := r01.toNat_lt
  have hsum : ((List.range' (columnMin k) (k / 2 + 1 - columnMin k)).map
      fun i => (if i < k - i then 2 else 1) * cross left left k i).sum = columnSum left left k := by
    rw [sum_range', columnMin_eq]
    exact Digits.sum_column_square (fun i => (left.get i).toNat) k eccNumword
  have hfold := held_foldl (held_squareStep left k) (List.range' (columnMin k) (k / 2 + 1 - columnMin k)) (r01, 0)
    (by rw [held_start, hsum]; omega)
  rw [squareColumn, hfold, held_start, hsum]

theorem toNat_low_byte {sum : UInt16 × UInt8} {t : ℕ} (h : held sum = t) : sum.1.toUInt8.toNat = t % 256 := by
  rw [UInt16.toNat_toUInt8, ← h, held]
  omega

/-- What goes into the next column is the sum without its low byte. -/
theorem toNat_carried {sum : UInt16 × UInt8} {t : ℕ} (h : held sum = t) :
    ((sum.1 >>> 8) ||| (sum.2.toUInt16 <<< 8)).toNat = t / 256 := by
  have h₁ := sum.1.toNat_lt
  have h₂ := sum.2.toNat_lt
  have hlow : (sum.1 >>> 8).toNat = sum.1.toNat / 2 ^ 8 := by
    rw [UInt16.toNat_shiftRight, Nat.shiftRight_eq_div_pow]
    rfl
  have hhigh : (sum.2.toUInt16 <<< 8).toNat = 2 ^ 8 * sum.2.toNat := by
    rw [UInt16.toNat_shiftLeft, UInt8.toNat_toUInt16, Nat.shiftLeft_eq, show (8 : UInt16).toNat % 16 = 8 from rfl,
      Nat.mod_eq_of_lt (by omega), Nat.mul_comm]
  rw [UInt16.toNat_or, hlow, hhigh, Nat.or_comm, ← Nat.two_pow_add_eq_or_of_lt (by omega), ← h, held]
  omega

/-- The bytes the outer loop writes are those of the weighted sum of the columns. -/
theorem ofHost_columnLoop {column : ℕ → UInt16 → UInt16 × UInt8} {c : ℕ → ℕ}
    (hcolumn : ∀ k r01, held (column k r01) = r01.toNat + c k) (n k : ℕ) (r01 : UInt16) :
    ofHost (columnLoop column n k r01) =
      (r01.toNat + ∑ j ∈ Finset.range n, c (k + j) * 256 ^ j) % 256 ^ (n + 1) := by
  induction n generalizing k r01 with
  | zero =>
      rw [columnLoop, ofHost, ofHost, UInt16.toNat_toUInt8, Finset.sum_range_zero, Nat.mul_zero, Nat.add_zero,
        Nat.add_zero]
      rfl
  | succ n ih =>
      have hsum := hcolumn k r01
      have hshift : ∑ j ∈ Finset.range n, c (k + (j + 1)) * 256 ^ (j + 1) =
          256 * ∑ j ∈ Finset.range n, c (k + 1 + j) * 256 ^ j := by
        rw [Finset.mul_sum]
        refine Finset.sum_congr rfl fun j _ => ?_
        rw [show k + (j + 1) = k + 1 + j by omega, pow_succ]
        ring
      rw [columnLoop, ofHost, ih, toNat_low_byte hsum, toNat_carried hsum, Finset.sum_range_succ', hshift,
        pow_succ' 256 (n + 1), Nat.mod_mul, Nat.add_zero, pow_zero, Nat.mul_one]
      generalize ∑ j ∈ Finset.range n, c (k + 1 + j) * 256 ^ j = rest
      have hlow : (r01.toNat + (256 * rest + c k)) % 256 = (r01.toNat + c k) % 256 := by omega
      have hdiv : (r01.toNat + (256 * rest + c k)) / 256 = (r01.toNat + c k) / 256 + rest := by omega
      rw [Nat.add_zero k, hlow, hdiv]

theorem sum_columns (left right : Vli) :
    ∑ k ∈ Finset.range (eccNumword * 2 - 1), columnSum left right k * 256 ^ k = left.val * right.val := by
  rw [left.val_eq_sum, right.val_eq_sum, Digits.sum_mul_sum_columns, Nat.mul_comm eccNumword 2]
  rfl

theorem val_columnLoop {column : ℕ → UInt16 → UInt16 × UInt8} {left right : Vli}
    (hcolumn : ∀ k r01, held (column k r01) = r01.toNat + columnSum left right k) :
    ofHost (columnLoop column (eccNumword * 2 - 1) 0 0) = left.val * right.val := by
  have hlt : left.val * right.val < 256 ^ (eccNumword * 2 - 1 + 1) := by
    have hmul := Nat.mul_lt_mul'' left.val_lt right.val_lt
    rwa [← pow_add] at hmul
  rw [ofHost_columnLoop hcolumn, ← Nat.mod_eq_of_lt hlt, ← sum_columns left right]
  simp only [Nat.zero_add]
  rw [show (0 : UInt16).toNat = 0 from rfl, Nat.zero_add]

/-- No column of `vli_mult` loses a carry. -/
theorem val_vliMult (left right : Vli) : (vliMult left right).val = left.val * right.val :=
  val_columnLoop (held_multColumn left right)

theorem val_vliSquare (left : Vli) : (vliSquare left).val = left.val * left.val :=
  val_columnLoop (held_squareColumn left)

end Httcutils
end TsbAgent
