/-
# Byte comparison as the C library does it

`memcmp`, `strcmp` and `strncmp` over byte lists.  `memcmp` compares a fixed
number of bytes; the string functions stop at the first zero byte, and that is
the whole difference: `strncmp n a b = 0` says only that the first `n` bytes of
`a` and `b` agree *up to their first zero byte* (`strncmp_eq_zero`).  On
strings without a zero byte the two notions agree (`strcmp_eq_zero`), on binary
data they do not.

A byte list stands for the memory a pointer points to.  A string literal
`CStr` is stored without its terminator, so a read one past the end of the list
gives the zero byte.
-/

import Mathlib.Data.List.TakeWhile
import Mathlib.Tactic.Common

namespace TsbAgent
namespace Libc

abbrev Bytes := List UInt8

/-- The byte a pointer to `a` reads; the terminator once `a` is used up. -/
def deref (a : Bytes) : UInt8 := a.headD 0

@[simp] theorem deref_nil : deref [] = 0 := rfl

@[simp] theorem deref_cons (x : UInt8) (a : Bytes) : deref (x :: a) = x := rfl

/-- The sign of the difference of two bytes, taken as `unsigned char`. -/
def byteCmp (x y : UInt8) : ℤ := if x = y then 0 else if x < y then -1 else 1

theorem byteCmp_eq_zero {x y : UInt8} : byteCmp x y = 0 ↔ x = y := by
  unfold byteCmp
  split_ifs with h₁ h₂ <;> simp [h₁]

theorem byteCmp_neg {x y : UInt8} : byteCmp x y < 0 ↔ x < y := by
  unfold byteCmp
  split_ifs with h₁ h₂
  · subst h₁; simp
  · simp [h₂]
  · simp [h₂]

theorem byteCmp_swap (x y : UInt8) : byteCmp y x = -byteCmp x y := by
  unfold byteCmp
  by_cases h₁ : x = y
  · simp [h₁]
  · by_cases h₂ : x < y
    · simp [h₁, Ne.symm h₁, h₂, UInt8.le_of_lt h₂]
    · have h₃ : y < x := UInt8.lt_of_le_of_ne (UInt8.not_lt.mp h₂) (Ne.symm h₁)
      simp [h₁, Ne.symm h₁, h₂, h₃]

/-- `memcmp(a, b, n)`. -/
def memcmp : ℕ → Bytes → Bytes → ℤ
  | 0, _, _ => 0
  | n + 1, a, b =>
      if deref a = deref b then memcmp n a.tail b.tail else byteCmp (deref a) (deref b)

theorem memcmp_cons (n : ℕ) (x y : UInt8) (a b : Bytes) :
    memcmp (n + 1) (x :: a) (y :: b) = if x = y then memcmp n a b else byteCmp x y := rfl

/-- `strncmp(a, b, n)`. -/
def strncmp : ℕ → Bytes → Bytes → ℤ
  | 0, _, _ => 0
  | n + 1, a, b =>
      if deref a = deref b then
        if deref a = 0 then 0 else strncmp n a.tail b.tail
      else byteCmp (deref a) (deref b)

/-- `strcmp(a, b)`. -/
def strcmp : Bytes → Bytes → ℤ
  | [], b => byteCmp 0 (deref b)
  | x :: a, b =>
      if x = deref b then
        if x = 0 then 0 else strcmp a b.tail
      else byteCmp x (deref b)

/-- The string stored at `a`: the bytes before the first zero byte. -/
def cstr (a : Bytes) : Bytes := a.takeWhile (· ≠ 0)

theorem zero_notMem_cstr (a : Bytes) : (0 : UInt8) ∉ cstr a := by
  intro h
  simpa using List.mem_takeWhile_imp h

theorem cstr_of_nulFree {a : Bytes} (h : (0 : UInt8) ∉ a) : cstr a = a := by
  rw [cstr, List.takeWhile_eq_self_iff]
  intro x hx
  have : x ≠ 0 := fun h0 => h (h0 ▸ hx)
  simpa using this

@[simp] theorem cstr_nil : cstr [] = [] := rfl

theorem cstr_cons (x : UInt8) (a : Bytes) : cstr (x :: a) = if x = 0 then [] else x :: cstr a := by
  unfold cstr
  by_cases h : x = 0 <;> simp [h]

theorem cstr_take (a : Bytes) (n : ℕ) : cstr (a.take n) = (cstr a).take n := by
  induction a generalizing n with
  | nil => simp
  | cons x a ih =>
      cases n with
      | zero => simp
      | succ n =>
          rw [List.take_succ_cons, cstr_cons, cstr_cons]
          by_cases hx : x = 0
          · simp [hx]
          · simp [hx, ih]

/-- What follows the terminator does not belong to the string. -/
theorem cstr_append_of_mem {a : Bytes} (h : (0 : UInt8) ∈ a) (b : Bytes) : cstr (a ++ b) = cstr a := by
  induction a with
  | nil => cases h
  | cons x a ih =>
      rw [List.cons_append, cstr_cons, cstr_cons]
      split_ifs with hx
      · rfl
      · rw [ih ((List.mem_cons.mp h).resolve_left fun h0 => hx h0.symm)]

/-- Without a terminator the string runs on. -/
theorem cstr_append_of_notMem {a : Bytes} (h : (0 : UInt8) ∉ a) (b : Bytes) :
    cstr (a ++ b) = a ++ cstr b := by
  induction a with
  | nil => rfl
  | cons x a ih =>
      rw [List.mem_cons, not_or] at h
      rw [List.cons_append, cstr_cons, if_neg fun h0 => h.1 h0.symm, ih h.2, List.cons_append]

/-- **`memcmp` decides equality of the first `n` bytes.** -/
theorem memcmp_eq_zero {n : ℕ} {a b : Bytes} (ha : n ≤ a.length) (hb : n ≤ b.length) :
    memcmp n a b = 0 ↔ a.take n = b.take n := by
  induction n generalizing a b with
  | zero => simp [memcmp]
  | succ n ih =>
      obtain ⟨x, a, rfl⟩ := List.exists_cons_of_length_pos (show 0 < a.length by omega)
      obtain ⟨y, b, rfl⟩ := List.exists_cons_of_length_pos (show 0 < b.length by omega)
      simp only [List.length_cons, Nat.add_le_add_iff_right] at ha hb
      rw [memcmp_cons, List.take_succ_cons, List.take_succ_cons, List.cons.injEq]
      by_cases h : x = y
      · simp [h, ih ha hb]
      · simp [h, byteCmp_eq_zero]

theorem memcmp_swap (n : ℕ) (a b : Bytes) : memcmp n b a = -memcmp n a b := by
  induction n generalizing a b with
  | zero => simp [memcmp]
  | succ n ih =>
      rw [memcmp, memcmp]
      by_cases h : deref a = deref b
      · rw [if_pos h, if_pos h.symm, ih]
      · rw [if_neg h, if_neg (Ne.symm h), byteCmp_swap]

/-- **What a negative `memcmp` means:** a first difference within the compared
bytes, and there the smaller byte on the left. -/
theorem memcmp_neg {n : ℕ} {a b : Bytes} (ha : n ≤ a.length) (hb : n ≤ b.length) :
    memcmp n a b < 0 ↔
      ∃ c x y s t, a = c ++ x :: s ∧ b = c ++ y :: t ∧ c.length < n ∧ x < y := by
  induction n generalizing a b with
  | zero => simp [memcmp]
  | succ n ih =>
      obtain ⟨x, a, rfl⟩ := List.exists_cons_of_length_pos (show 0 < a.length by omega)
      obtain ⟨y, b, rfl⟩ := List.exists_cons_of_length_pos (show 0 < b.length by omega)
      simp only [List.length_cons, Nat.add_le_add_iff_right] at ha hb
      rw [memcmp_cons]
      by_cases h : x = y
      · subst h
        rw [if_pos rfl, ih ha hb]
        constructor
        · rintro ⟨c, u, v, s, t, rfl, rfl, hlen, huv⟩
          exact ⟨x :: c, u, v, s, t, rfl, rfl, by simpa using hlen, huv⟩
        · rintro ⟨c, u, v, s, t, hs, ht, hlen, huv⟩
          rcases c with _ | ⟨z, c⟩
          · simp only [List.nil_append, List.cons.injEq] at hs ht
            rw [← hs.1, ← ht.1] at huv
            exact absurd huv (UInt8.lt_irrefl x)
          · simp only [List.cons_append, List.cons.injEq] at hs ht
            exact ⟨c, u, v, s, t, hs.2, ht.2, by simpa using hlen, huv⟩
      · rw [if_neg h, byteCmp_neg]
        constructor
        · exact fun hxy => ⟨[], x, y, a, b, rfl, rfl, by simp, hxy⟩
        · rintro ⟨c, u, v, s, t, hs, ht, -, huv⟩
          rcases c with _ | ⟨z, c⟩
          · simp only [List.nil_append, List.cons.injEq] at hs ht
            rwa [hs.1, ht.1]
          · simp only [List.cons_append, List.cons.injEq] at hs ht
            exact absurd (hs.1.trans ht.1.symm) h

/-- Over the shorter of the two lengths, `memcmp` accepts every prefix. -/
theorem memcmp_min_eq_zero {a b : Bytes} :
    memcmp (min a.length b.length) a b = 0 ↔ a <+: b ∨ b <+: a := by
  rw [memcmp_eq_zero (min_le_left _ _) (min_le_right _ _)]
  rcases Nat.le_total a.length b.length with h | h
  · rw [min_eq_left h, List.take_length]
    constructor
    · exact fun he => Or.inl (he ▸ List.take_prefix _ _)
    · rintro (hp | hp)
      · exact List.prefix_iff_eq_take.mp hp
      · have := hp.eq_of_length (Nat.le_antisymm hp.length_le h)
        rw [this, List.take_length]
  · rw [min_eq_right h, List.take_length]
    constructor
    · exact fun he => Or.inr (he ▸ List.take_prefix _ _)
    · rintro (hp | hp)
      · have := hp.eq_of_length (Nat.le_antisymm hp.length_le h)
        rw [this, List.take_length]
      · exact (List.prefix_iff_eq_take.mp hp).symm

/-- Two stored strings agree when their first bytes do and, unless that byte
already ends both, their rests do. -/
theorem cstr_cons_inj {x y : UInt8} {a b : Bytes} :
    cstr (x :: a) = cstr (y :: b) ↔ x = y ∧ (x = 0 ∨ cstr a = cstr b) := by
  rw [cstr_cons, cstr_cons]
  by_cases hx : x = 0
  · by_cases hy : y = 0
    · simp [hx, hy]
    · simp [hx, hy, Ne.symm hy]
  · by_cases hy : y = 0
    · simp [hx, hy]
    · simp [hx, hy]

theorem cstr_nil_eq_cons {y : UInt8} {b : Bytes} : [] = cstr (y :: b) ↔ 0 = y := by
  rw [cstr_cons]
  by_cases hy : y = 0
  · simp [hy]
  · simp [hy, Ne.symm hy]

/-- **`strncmp` decides equality up to the first zero byte only.** -/
theorem strncmp_eq_zero {n : ℕ} {a b : Bytes} :
    strncmp n a b = 0 ↔ cstr (a.take n) = cstr (b.take n) := by
  induction n generalizing a b with
  | zero => simp [strncmp]
  | succ n ih =>
      rcases a with _ | ⟨x, a⟩ <;> rcases b with _ | ⟨y, b⟩
      · simp [strncmp]
      · rw [List.take_nil, List.take_succ_cons, cstr_nil, cstr_nil_eq_cons]
        by_cases h : 0 = y
        · simp [strncmp, h]
        · simp [strncmp, h, byteCmp_eq_zero]
      · rw [List.take_nil, List.take_succ_cons, cstr_nil, eq_comm (b := []), cstr_nil_eq_cons]
        by_cases h : x = 0
        · simp [strncmp, h]
        · simp [strncmp, h, Ne.symm h, byteCmp_eq_zero]
      · rw [List.take_succ_cons, List.take_succ_cons, cstr_cons_inj, ← ih]
        by_cases h : x = y
        · by_cases h0 : y = 0 <;> simp [strncmp, h, h0]
        · simp [strncmp, h, byteCmp_eq_zero]

/-- `strcmp` decides equality of the strings stored at `a` and `b`. -/
theorem strcmp_eq_zero_iff_cstr {a b : Bytes} : strcmp a b = 0 ↔ cstr a = cstr b := by
  induction a generalizing b with
  | nil =>
      rcases b with _ | ⟨y, b⟩
      · simp [strcmp, byteCmp]
      · rw [cstr_nil, cstr_nil_eq_cons, strcmp, deref_cons, byteCmp_eq_zero]
  | cons x a ih =>
      rcases b with _ | ⟨y, b⟩
      · rw [cstr_nil, eq_comm (b := []), cstr_nil_eq_cons]
        by_cases h : x = 0
        · simp [strcmp, h]
        · simp [strcmp, h, Ne.symm h, byteCmp_eq_zero]
      · rw [cstr_cons_inj, ← ih]
        by_cases h : x = y
        · by_cases h0 : y = 0 <;> simp [strcmp, h, h0]
        · simp [strcmp, h, byteCmp_eq_zero]

/-- A C string: its bytes before the terminator, none of them zero. -/
structure CStr where
  bytes : Bytes
  nulFree : (0 : UInt8) ∉ bytes
deriving DecidableEq

@[ext] theorem CStr.ext {s t : CStr} (h : s.bytes = t.bytes) : s = t := by
  cases s; cases t; cases h; rfl

/-- `""`. -/
def CStr.empty : CStr := ⟨[], List.not_mem_nil⟩

/-- The string a `char` array holds. -/
def CStr.ofBytes (a : Bytes) : CStr := ⟨cstr a, zero_notMem_cstr a⟩

/-- The string before a terminator. -/
theorem CStr.ofBytes_terminated (s : CStr) (r : Bytes) : CStr.ofBytes (s.bytes ++ 0 :: r) = s := by
  apply CStr.ext
  have hend : cstr (0 :: r) = [] := by rw [cstr_cons, if_pos rfl]
  show cstr (s.bytes ++ 0 :: r) = s.bytes
  rw [cstr_append_of_notMem s.nulFree, hend, List.append_nil]

/-- The first `n` characters of a string. -/
def CStr.take (s : CStr) (n : ℕ) : CStr :=
  ⟨s.bytes.take n, fun h => s.nulFree (List.mem_of_mem_take h)⟩

/-- `strlen`. -/
def CStr.strlen (s : CStr) : ℕ := s.bytes.length

/-- **On C strings `strcmp` is equality.** -/
theorem strcmp_eq_zero {s t : CStr} : strcmp s.bytes t.bytes = 0 ↔ s = t := by
  rw [strcmp_eq_zero_iff_cstr, cstr_of_nulFree s.nulFree, cstr_of_nulFree t.nulFree]
  exact ⟨CStr.ext, fun h => h ▸ rfl⟩

/-- Two binary strings that share a zero byte and differ after it: equal for
`strncmp`, different for `memcmp`. -/
example : strncmp 3 [7, 0, 1] [7, 0, 2] = 0 ∧ memcmp 3 [7, 0, 1] [7, 0, 2] ≠ 0 := by decide

end Libc
end TsbAgent
