/-
# Numbers and tokens in text

`%ld` and `%d` print an integer in decimal digits, `atol` and `atoi` read one: blanks, a sign,
digits up to the first other byte.  `strtok` cuts a text at a delimiter, in place; here it
returns the token and what a further call with a null pointer goes on with.

What is printed is read back as long as it is a `long` (`atol_printInt`), or an `int`
(`atoi_printInt`), and a token is what stands before the first delimiter (`strtok_append`).
-/

import TsbAgent.Lib.Word
import Mathlib.Algebra.Order.Ring.Int
import Mathlib.Algebra.Order.Ring.Nat

namespace TsbAgent
namespace Text

open Libc Word

/-- The byte of a digit. -/
def digit (d : ℕ) : UInt8 := UInt8.ofNat (48 + d)

/-- The digits of a number. -/
def decimal (n : ℕ) : Bytes :=
  if n < 10 then [digit n] else decimal (n / 10) ++ [digit (n % 10)]

/-- `%ld` and `%d`. -/
def printInt (z : ℤ) : Bytes := if z < 0 then 45 :: decimal (-z).toNat else decimal z.toNat

/-- `isdigit`. -/
def isDigit (c : UInt8) : Bool := 48 ≤ c.toNat && c.toNat ≤ 57

/-- `isspace`. -/
def isSpace (c : UInt8) : Bool := c = 32 || (9 ≤ c.toNat && c.toNat ≤ 13)

/-- The number that digits stand for. -/
def value (b : Bytes) : ℕ := b.foldl (fun n c => 10 * n + (c.toNat - 48)) 0

/-- `strtol` stays in the range of a `long`. -/
def clampLong (z : ℤ) : ℤ := max (-2 ^ 63) (min z (2 ^ 63 - 1))

/-- `atol`. -/
def atol (b : Bytes) : ℤ :=
  match b.dropWhile isSpace with
  | 45 :: r => clampLong (-value (r.takeWhile isDigit))
  | 43 :: r => clampLong (value (r.takeWhile isDigit))
  | r => clampLong (value (r.takeWhile isDigit))

/-- `atoi`. -/
def atoi (b : Bytes) : ℤ := int32 (atol b)

/-- `strtok`: the token and what follows its delimiter. -/
def strtok (delim : UInt8) (b : Bytes) : Option (Bytes × Bytes) :=
  match b.dropWhile (· = delim) with
  | [] => none
  | r => some (r.takeWhile (· ≠ delim), (r.dropWhile (· ≠ delim)).drop 1)

section Decimal

variable {n : ℕ}

theorem toNat_digit (h : n < 10) : (digit n).toNat = 48 + n := by
  rw [digit, UInt8.toNat_ofNat']
  omega

/-- Only digits are printed. -/
theorem isDigit_of_mem_decimal {c : UInt8} (h : c ∈ decimal n) : isDigit c = true := by
  have hdigit {d : ℕ} (hd : d < 10) : isDigit (digit d) = true := by
    rw [isDigit, toNat_digit hd, Bool.and_eq_true, decide_eq_true_eq, decide_eq_true_eq]
    omega
  fun_induction decimal n with
  | case1 n hlt =>
      rw [List.mem_singleton.mp h]
      exact hdigit hlt
  | case2 n hge ih =>
      rcases List.mem_append.mp h with hfront | hlast
      · exact ih hfront
      · rw [List.mem_singleton.mp hlast]
        exact hdigit (Nat.mod_lt _ (by decide))

theorem decimal_ne_nil : decimal n ≠ [] := by
  fun_cases decimal n with
  | case1 hlt => exact List.cons_ne_nil _ _
  | case2 hge => exact List.append_ne_nil_of_right_ne_nil _ (List.cons_ne_nil _ _)

/-- **The digits of a number stand for it.** -/
theorem value_decimal (n : ℕ) : value (decimal n) = n := by
  fun_induction decimal n with
  | case1 n hlt =>
      show 10 * 0 + ((digit n).toNat - 48) = n
      rw [toNat_digit hlt]
      omega
  | case2 n hge ih =>
      have hmod : n % 10 < 10 := Nat.mod_lt _ (by decide)
      rw [value, List.foldl_append, ← value, ih]
      show 10 * (n / 10) + ((digit (n % 10)).toNat - 48) = n
      rw [toNat_digit hmod]
      omega

end Decimal

section Parse

variable {n : ℕ} {delim : UInt8} {token rest : Bytes}

/-- **`atol` reads back what `%ld` prints,** for every `long` that is not negative. -/
theorem atol_printInt (h : n < 2 ^ 63) : atol (printInt n) = n := by
  have hdigits : (decimal n).takeWhile isDigit = decimal n :=
    List.takeWhile_eq_self_iff.mpr fun c hc => isDigit_of_mem_decimal hc
  have hclamp : clampLong (value (decimal n)) = n := by
    rw [value_decimal, clampLong]
    omega
  rw [printInt, if_neg (by omega), Int.toNat_natCast]
  cases hd : decimal n with
  | nil => exact absurd hd decimal_ne_nil
  | cons c cs =>
      have hc : isDigit c = true := isDigit_of_mem_decimal (hd ▸ List.mem_cons_self)
      rw [isDigit, Bool.and_eq_true, decide_eq_true_eq, decide_eq_true_eq] at hc
      have hspace : ¬ isSpace c = true := by
        rw [isSpace, Bool.or_eq_true, decide_eq_true_eq, Bool.and_eq_true, decide_eq_true_eq, decide_eq_true_eq]
        rintro (rfl | hblank)
        · exact absurd hc.1 (by decide)
        · omega
      rw [hd] at hdigits hclamp
      rw [atol, List.dropWhile_cons_of_neg hspace]
      split
      · rename_i heq
        obtain ⟨rfl, -⟩ := List.cons.inj heq
        exact absurd hc.1 (by decide)
      · rename_i heq
        obtain ⟨rfl, -⟩ := List.cons.inj heq
        exact absurd hc.1 (by decide)
      · rw [hdigits, hclamp]

theorem atoi_printInt (h : n < 2 ^ 31) : atoi (printInt n) = n := by
  rw [atoi, atol_printInt (by omega), int32_eq (by omega) (by omega)]

theorem strtok_append (hne : token ≠ []) (hfree : delim ∉ token) :
    strtok delim (token ++ delim :: rest) = some (token, rest) := by
  obtain ⟨c, cs, rfl⟩ := List.exists_cons_of_ne_nil hne
  have hc : c ≠ delim := by
    rintro rfl
    exact hfree List.mem_cons_self
  have hskip : (c :: cs ++ delim :: rest).dropWhile (· = delim) = c :: (cs ++ delim :: rest) :=
    List.dropWhile_cons_of_neg (by simpa using hc)
  have hall : ∀ x ∈ c :: cs, (fun x => decide (x ≠ delim)) x = true := by
    intro x hx
    rw [decide_eq_true_eq]
    rintro rfl
    exact hfree hx
  rw [strtok, hskip]
  dsimp only
  rw [← List.cons_append, List.takeWhile_append_of_pos hall, List.dropWhile_append_of_pos hall,
    List.takeWhile_cons_of_neg (by simp), List.dropWhile_cons_of_neg (by simp), List.append_nil]
  rfl

end Parse

end Text
end TsbAgent
