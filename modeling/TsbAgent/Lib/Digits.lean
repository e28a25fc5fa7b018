/-
# Numbers of a fixed number of bytes

A number of `n` bytes, least significant first, as a structure that carries its length: its value is `Word.ofHost`
of the bytes, below `256 ^ n`, and the value determines the bytes.  The arithmetic on such numbers goes from byte to
byte with a carry; what one byte hands to the next is said here once, and so is the arrangement of a product by
columns: the bytes `i` and `j` of the factors meet in column `i + j`.
-/

import TsbAgent.Lib.Word
import Mathlib.Algebra.BigOperators.Intervals
import Mathlib.Algebra.BigOperators.Ring.Finset
import Mathlib.Data.List.GetD
import Mathlib.Data.Nat.Size
import Mathlib.Tactic.Linarith

namespace TsbAgent

open Libc Word

/-- `n` bytes, least significant first. -/
@[ext]
structure Digits (n : ℕ) where
  bytes : Bytes
  length_eq : bytes.length = n

namespace Digits

variable {n m : ℕ}

instance : DecidableEq (Digits n) := fun _ _ => decidable_of_iff _ Digits.ext_iff.symm

/-- The number with these bytes. -/
def val (v : Digits n) : ℕ := ofHost v.bytes

/-- The byte at `i`. -/
def get (v : Digits n) (i : ℕ) : UInt8 := v.bytes.getD i 0

/-- The `n` bytes of a number. -/
def ofNat (n k : ℕ) : Digits n := ⟨hostBytes n k, length_hostBytes n k⟩

/-- The first `m` bytes. -/
def low (v : Digits (m + n)) : Digits m :=
  ⟨v.bytes.take m, by rw [List.length_take, v.length_eq]; exact Nat.min_eq_left (Nat.le_add_right m n)⟩

/-- The bytes from `m`. -/
def high (v : Digits (m + n)) : Digits n :=
  ⟨v.bytes.drop m, by rw [List.length_drop, v.length_eq, Nat.add_sub_cancel_left]⟩

/-- A number in two parts, the low one first. -/
def join (l : Digits m) (h : Digits n) : Digits (m + n) :=
  ⟨l.bytes ++ h.bytes, by rw [List.length_append, l.length_eq, h.length_eq]⟩

/-- One byte replaced. -/
def set (v : Digits n) (i : ℕ) (b : UInt8) : Digits n := ⟨v.bytes.set i b, by rw [List.length_set, v.length_eq]⟩

/-- Bytes written from `off` on; `none` when they do not fit. -/
def put (v : Digits n) (off : ℕ) (b : Bytes) : Option (Digits n) :=
  if h : off + b.length ≤ n then
    some ⟨v.bytes.take off ++ b ++ v.bytes.drop (off + b.length), by
      have hlen := v.length_eq
      simp only [List.length_append, List.length_take, List.length_drop]
      omega⟩
  else none

/-- All bytes zero. -/
def zero (n : ℕ) : Digits n := ⟨List.replicate n 0, List.length_replicate⟩

/-! ### Values -/

theorem ofHost_append (a b : Bytes) : ofHost (a ++ b) = ofHost a + 256 ^ a.length * ofHost b := by
  induction a with
  | nil => rw [List.nil_append, ofHost, List.length_nil, pow_zero, Nat.one_mul, Nat.zero_add]
  | cons x a ih => rw [List.cons_append, ofHost, ofHost, ih, List.length_cons]; ring

theorem hostBytes_add (a b n : ℕ) : hostBytes (a + b) n = hostBytes a n ++ hostBytes b (n / 256 ^ a) := by
  induction a generalizing n with
  | zero => rw [Nat.zero_add, pow_zero, Nat.div_one]; rfl
  | succ a ih =>
      rw [Nat.add_right_comm, hostBytes, ih, hostBytes, List.cons_append, Nat.div_div_eq_div_mul, ← pow_succ']

theorem val_lt (v : Digits n) : v.val < 256 ^ n := by
  have hlt := ofHost_lt v.bytes
  rwa [v.length_eq] at hlt

/-- The value determines the bytes. -/
theorem ext_val {v w : Digits n} (h : v.val = w.val) : v = w := by
  have hv := hostBytes_ofHost v.bytes
  have hw := hostBytes_ofHost w.bytes
  rw [v.length_eq] at hv
  rw [w.length_eq] at hw
  have hbytes : v.bytes = w.bytes := by rw [← hv, ← hw]; exact congrArg (hostBytes n) h
  cases v
  cases w
  cases hbytes
  rfl

theorem val_join (l : Digits m) (h : Digits n) : (join l h).val = l.val + 256 ^ m * h.val := by
  rw [join, val, ofHost_append, l.length_eq]
  rfl

@[simp] theorem low_join (l : Digits m) (h : Digits n) : (join l h).low = l := by
  have hbytes : (l.bytes ++ h.bytes).take m = l.bytes := List.take_left' l.length_eq
  exact ext_val (congrArg ofHost hbytes)

@[simp] theorem high_join (l : Digits m) (h : Digits n) : (join l h).high = h := by
  have hbytes : (l.bytes ++ h.bytes).drop m = h.bytes := List.drop_left' l.length_eq
  exact ext_val (congrArg ofHost hbytes)

theorem join_low_high (v : Digits (m + n)) : join v.low v.high = v := by
  have hbytes : v.bytes.take m ++ v.bytes.drop m = v.bytes := List.take_append_drop m v.bytes
  exact ext_val (congrArg ofHost hbytes)

theorem val_low_high (v : Digits (m + n)) : v.val = v.low.val + 256 ^ m * v.high.val := by
  rw [← val_join, join_low_high]

/-- The value is the sum of the bytes, each at its place. -/
theorem ofHost_eq_sum (b : Bytes) :
    ofHost b = ∑ i ∈ Finset.range b.length, (b.getD i 0).toNat * 256 ^ i := by
  induction b with
  | nil => rfl
  | cons x b ih =>
      rw [ofHost, ih, List.length_cons, Finset.sum_range_succ', Finset.mul_sum, List.getD_cons_zero, pow_zero,
        Nat.mul_one, Nat.add_comm]
      congr 1
      refine Finset.sum_congr rfl fun i _ => ?_
      rw [List.getD_cons_succ, pow_succ]
      ring

theorem val_eq_sum (v : Digits n) : v.val = ∑ i ∈ Finset.range n, (v.get i).toNat * 256 ^ i := by
  have hsum := ofHost_eq_sum v.bytes
  rwa [v.length_eq] at hsum

theorem get_lt (v : Digits n) (i : ℕ) : (v.get i).toNat < 256 := (v.get i).toNat_lt

theorem ofHost_getD (b : Bytes) (i : ℕ) : (b.getD i 0).toNat = ofHost b / 256 ^ i % 256 := by
  induction b generalizing i with
  | nil => simp [ofHost]
  | cons x b ih =>
      have hx := x.toNat_lt
      cases i with
      | zero =>
          rw [List.getD_cons_zero, ofHost, pow_zero, Nat.div_one]
          omega
      | succ i =>
          have hdiv : (x.toNat + 256 * ofHost b) / 256 = ofHost b := by omega
          rw [List.getD_cons_succ, ih, ofHost, pow_succ', ← Nat.div_div_eq_div_mul, hdiv]

theorem toNat_get (v : Digits n) (i : ℕ) : (v.get i).toNat = v.val / 256 ^ i % 256 := ofHost_getD v.bytes i

theorem ofHost_set (a : Bytes) {i : ℕ} (b : UInt8) (h : i < a.length) :
    ofHost (a.set i b) + (a.getD i 0).toNat * 256 ^ i = ofHost a + b.toNat * 256 ^ i := by
  induction a generalizing i with
  | nil => exact absurd h (Nat.not_lt_zero i)
  | cons x a ih =>
      cases i with
      | zero =>
          rw [List.set_cons_zero, List.getD_cons_zero, ofHost, ofHost, pow_zero]
          omega
      | succ i =>
          have hrec := ih (Nat.lt_of_succ_lt_succ h)
          rw [List.set_cons_succ, List.getD_cons_succ, ofHost, ofHost, pow_succ']
          linarith

theorem val_set (v : Digits n) {i : ℕ} (b : UInt8) (h : i < n) :
    (v.set i b).val + (v.get i).toNat * 256 ^ i = v.val + b.toNat * 256 ^ i :=
  ofHost_set v.bytes b (by rw [v.length_eq]; exact h)

theorem ofHost_zeros (k : ℕ) : ofHost (List.replicate k 0) = 0 := by
  induction k with
  | zero => rfl
  | succ k ih =>
      rw [List.replicate_succ, ofHost, ih]
      rfl

@[simp] theorem val_zero (n : ℕ) : (zero n).val = 0 := ofHost_zeros n

/-- Bytes put into zeros count from where they are put. -/
theorem put_zero {off : ℕ} {b : Bytes} (h : off + b.length ≤ n) :
    ∃ v, (zero n).put off b = some v ∧ v.val = 256 ^ off * ofHost b := by
  refine ⟨_, dif_pos h, ?_⟩
  have hoff : min off n = off := by omega
  show ofHost ((List.replicate n 0).take off ++ b ++ (List.replicate n 0).drop (off + b.length)) = _
  rw [List.take_replicate, List.drop_replicate, ofHost_append, ofHost_append, ofHost_zeros, ofHost_zeros,
    List.length_replicate, hoff]
  omega

/-! ### Products by columns -/

/-- The bytes that meet in column `k` are those from `k + 1 - n` to `min k (n - 1)`. -/
theorem sum_mul_sum_columns (a b : ℕ → ℕ) (x n : ℕ) :
    (∑ i ∈ Finset.range n, a i * x ^ i) * ∑ j ∈ Finset.range n, b j * x ^ j =
      ∑ k ∈ Finset.range (2 * n - 1),
        (∑ i ∈ Finset.Ico (k + 1 - n) (min (k + 1) n), a i * b (k - i)) * x ^ k := by
  rw [Finset.sum_mul_sum]
  simp only [Finset.sum_mul]
  rw [Finset.sum_sigma', Finset.sum_sigma']
  refine Finset.sum_nbij' (fun p => ⟨p.1 + p.2, p.1⟩) (fun p => ⟨p.2, p.1 - p.2⟩) ?_ ?_ ?_ ?_ ?_
  · intro p hp
    simp only [Finset.mem_sigma, Finset.mem_range, Finset.mem_Ico] at hp ⊢
    omega
  · intro p hp
    simp only [Finset.mem_sigma, Finset.mem_range, Finset.mem_Ico] at hp ⊢
    omega
  · intro p _
    simp
  · intro p hp
    simp only [Finset.mem_sigma, Finset.mem_range, Finset.mem_Ico] at hp
    have hsum : p.2 + (p.1 - p.2) = p.1 := by omega
    simp [hsum]
  · intro p _
    have hsub : p.1 + p.2 - p.1 = p.2 := by omega
    rw [hsub, pow_add]
    ring

/-- Half of a column of a square is enough, when the pairs off the diagonal count twice. -/
theorem sum_column_square (a : ℕ → ℕ) (k n : ℕ) :
    ∑ i ∈ Finset.Ico (k + 1 - n) (k / 2 + 1), (if i < k - i then 2 else 1) * (a i * a (k - i)) =
      ∑ i ∈ Finset.Ico (k + 1 - n) (min (k + 1) n), a i * a (k - i) := by
  rcases Nat.lt_or_ge k (2 * n - 1) with hk | hk
  · have hsplit : ∀ f : ℕ → ℕ, ∑ i ∈ Finset.Ico (k + 1 - n) (min (k + 1) n), f i =
        ∑ i ∈ Finset.Ico (k + 1 - n) (k / 2 + 1), f i +
          ∑ i ∈ Finset.Ico (k / 2 + 1) (min (k + 1) n), f i :=
      fun f => (Finset.sum_Ico_consecutive f (by omega) (by omega)).symm
    have hmirror : ∑ i ∈ Finset.Ico (k / 2 + 1) (min (k + 1) n), a i * a (k - i) =
        ∑ i ∈ Finset.Ico (k + 1 - n) (k / 2 + 1), if i < k - i then a i * a (k - i) else 0 := by
      rw [← Finset.sum_filter]
      refine Finset.sum_nbij' (fun i => k - i) (fun i => k - i) ?_ ?_ ?_ ?_ ?_
      · intro i hi
        simp only [Finset.mem_filter, Finset.mem_Ico] at hi ⊢
        omega
      · intro i hi
        simp only [Finset.mem_filter, Finset.mem_Ico] at hi ⊢
        omega
      · intro i hi
        simp only [Finset.mem_Ico] at hi
        omega
      · intro i hi
        simp only [Finset.mem_filter, Finset.mem_Ico] at hi
        omega
      · intro i hi
        simp only [Finset.mem_Ico] at hi
        have hback : k - (k - i) = i := by omega
        rw [hback, Nat.mul_comm]
    rw [hsplit, hmirror, ← Finset.sum_add_distrib]
    refine Finset.sum_congr rfl fun i _ => ?_
    split_ifs <;> ring
  · rw [Finset.Ico_eq_empty_of_le (show k / 2 + 1 ≤ k + 1 - n by omega),
      Finset.Ico_eq_empty_of_le (show min (k + 1) n ≤ k + 1 - n by omega), Finset.sum_empty, Finset.sum_empty]

end Digits
end TsbAgent
