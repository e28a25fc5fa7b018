/-
# The field of the curve

The prime of `ecc_curve` (`tss-main/httcutils/src/sm/sm2.c`) is prime: its successor splits into small primes, and
`18 + √323` has that order (`eccP_prime`).  With it the fast operations of `ecc.c` are those of a field:
`Holds v x` says that the bytes of `v` are the representative of `x` below the prime, and each operation keeps it.
The loops of `vli_mmod_fast` and `vli_mod_inv` end within 15 and 513 turns, so their results are taken here as
numbers.
-/

import TsbAgent.Httcutils.VliFast
import TsbAgent.Lib.LucasPrime
import Mathlib.Algebra.Field.ZMod
import Mathlib.Tactic.NormNum.Prime

namespace TsbAgent
namespace Httcutils

open LucasPrime

/-! ### The prime -/

instance prime_44479210368001 : Fact (Nat.Prime 44479210368001) where
  out := by
    refine @prime_of_factors 44479210368001 35 (6, 1) 46 [2, 61, 71, 17041, 301331] (by decide) (by decide)
      (by decide +kernel) ?_ (by decide +kernel) (by decide +kernel)
    intro r hr
    simp only [List.mem_cons, List.not_mem_nil, or_false] at hr
    rcases hr with rfl | rfl | rfl | rfl | rfl <;> norm_num

instance prime_2139127681 : Fact (Nat.Prime 2139127681) where
  out := by
    refine @prime_of_factors 2139127681 35 (6, 1) 32 [2, 101, 10589741] (by decide) (by decide) (by decide +kernel) ?_
      (by decide +kernel) (by decide +kernel)
    intro r hr
    simp only [List.mem_cons, List.not_mem_nil, or_false] at hr
    rcases hr with rfl | rfl | rfl <;> norm_num

instance prime_4278255361 : Fact (Nat.Prime 4278255361) where
  out := by
    refine @prime_of_factors 4278255361 99 (10, 1) 33 [2, 2139127681] (by decide) (by decide) (by decide +kernel) ?_
      (by decide +kernel) (by decide +kernel)
    intro r hr
    simp only [List.mem_cons, List.not_mem_nil, or_false] at hr
    rcases hr with rfl | rfl
    · exact Nat.prime_two
    · exact prime_2139127681.out

/-- The factors of the successor of the prime. -/
def eccPFactors : List ℕ :=
  List.replicate 64 2 ++ [3, 3, 5, 5, 5, 11, 17, 17, 31, 41, 257, 257, 61681, 65537, 65537, 414721, 4278255361,
    44479210368001]

theorem eccPFactors_prime : ∀ r ∈ eccPFactors, r.Prime := by
  intro r hr
  rw [eccPFactors, List.mem_append] at hr
  rcases hr with hr | hr
  · rw [List.eq_of_mem_replicate hr]
    exact Nat.prime_two
  · simp only [List.mem_cons, List.not_mem_nil, or_false] at hr
    rcases hr with rfl | rfl | rfl | rfl | rfl | rfl | rfl | rfl | rfl | rfl | rfl | rfl | rfl | rfl | rfl | rfl |
      rfl | rfl
    all_goals first | exact prime_44479210368001.out | exact prime_4278255361.out | norm_num

instance : Fact eccP.val.Prime where
  out := by
    rw [eccP_val]
    exact @prime_of_factors _ 323 (18, 1) 257 eccPFactors (by norm_num) (by decide +kernel) (by decide +kernel)
      eccPFactors_prime (by decide +kernel) (by decide +kernel)

theorem eccP_prime : eccP.val.Prime := Fact.out

theorem two_lt_eccP : 2 < eccP.val := by norm_num [eccP_val]

theorem eccP_odd : eccP.val % 2 = 1 := by norm_num [eccP_val]

/-- The field of the coordinates. -/
abbrev Fp : Type := ZMod eccP.val

/-! ### The operations on representatives

They are irreducible: what is proved of them below is by the values. -/

theorem isSome_vliMmodFast (product : Product) : (vliMmodFast 15 product eccP).isSome := by
  obtain ⟨r, hr, _⟩ := vliMmodFast_eq product le_rfl
  rw [hr]
  rfl

/-- `vli_mod_mult_fast(.., ecc_curve.p)`. -/
@[irreducible] def modMultFast (left right : Vli) : Vli := (vliModMultFast 15 left right eccP).get (isSome_vliMmodFast _)

/-- `vli_mod_square_fast(.., ecc_curve.p)`. -/
@[irreducible] def modSquareFast (left : Vli) : Vli := (vliModSquareFast 15 left eccP).get (isSome_vliMmodFast _)

/-- `vli_mod_add(.., ecc_curve.p)`. -/
@[irreducible] def modAdd (left right : Vli) : Vli := vliModAdd left right eccP

/-- `vli_mod_sub(.., ecc_curve.p)`. -/
@[irreducible] def modSub (left right : Vli) : Vli := vliModSub left right eccP

theorem isSome_vliModInv (input : Vli) : (vliModInv 513 input eccP).isSome := by
  rcases eq_or_ne input.val 0 with hz | hn
  · rw [vliModInv, if_pos ((vliIsZero_iff input).mpr hz)]
    rfl
  · obtain ⟨r, hr, _⟩ := vliModInv_eq eccP_odd eccP_prime.one_lt hn le_rfl
    rw [hr]
    rfl

/-- `vli_mod_inv(.., ecc_curve.p)`. -/
@[irreducible] def modInv (input : Vli) : Vli := (vliModInv 513 input eccP).get (isSome_vliModInv input)

/-- The bytes of `v` represent `x`. -/
structure Holds (v : Vli) (x : Fp) : Prop where
  lt : v.val < eccP.val
  eq : (v.val : Fp) = x

variable {a b : Vli} {x y : Fp}

theorem Holds.of_eq (h : Holds a x) (hxy : x = y) : Holds a y := hxy ▸ h

theorem holds_of_val {n : ℕ} (h : a.val = n % eccP.val) : Holds a n :=
  ⟨by rw [h]; exact Nat.mod_lt _ eccP_prime.pos, by rw [h, ZMod.natCast_mod]⟩

theorem holds_self (h : a.val < eccP.val) : Holds a (a.val : Fp) := ⟨h, rfl⟩

theorem Holds.mult (ha : Holds a x) (hb : Holds b y) : Holds (modMultFast a b) (x * y) := by
  obtain ⟨r, hr, hval⟩ := vliMmodFast_eq (vliMult a b) le_rfl
  have hget : modMultFast a b = r := by
    unfold modMultFast vliModMultFast
    exact Option.get_of_eq_some _ hr
  rw [val_vliMult] at hval
  rw [hget]
  refine (holds_of_val hval).of_eq ?_
  rw [Nat.cast_mul, ha.eq, hb.eq]

theorem Holds.square (ha : Holds a x) : Holds (modSquareFast a) (x ^ 2) := by
  obtain ⟨r, hr, hval⟩ := vliMmodFast_eq (vliSquare a) le_rfl
  have hget : modSquareFast a = r := by
    unfold modSquareFast vliModSquareFast
    exact Option.get_of_eq_some _ hr
  rw [val_vliSquare] at hval
  rw [hget]
  refine (holds_of_val hval).of_eq ?_
  rw [Nat.cast_mul, ha.eq, sq]

theorem Holds.add (ha : Holds a x) (hb : Holds b y) : Holds (modAdd a b) (x + y) := by
  rw [modAdd]
  refine (holds_of_val (vliModAdd_val ha.lt hb.lt)).of_eq ?_
  rw [Nat.cast_add, ha.eq, hb.eq]

theorem Holds.sub (ha : Holds a x) (hb : Holds b y) : Holds (modSub a b) (x - y) := by
  rw [modSub]
  refine (holds_of_val (vliModSub_val ha.lt hb.lt)).of_eq ?_
  rw [Nat.cast_add, Nat.cast_sub hb.lt.le, ZMod.natCast_self, ha.eq, hb.eq]
  ring

theorem holds_vliClear : Holds vliClear 0 := ⟨by rw [vliClear_val]; exact eccP_prime.pos, by rw [vliClear_val, Nat.cast_zero]⟩

theorem holds_vliOne : Holds vliOne 1 := ⟨by rw [vliOne_val]; exact eccP_prime.one_lt, by rw [vliOne_val, Nat.cast_one]⟩

theorem Holds.eq_zero_iff (ha : Holds a x) : x = 0 ↔ a.val = 0 := by
  rw [← ha.eq, ZMod.natCast_eq_zero_iff]
  exact ⟨fun h => Nat.eq_zero_of_dvd_of_lt h ha.lt, fun h => by rw [h]; exact dvd_zero _⟩

theorem Holds.inv (ha : Holds a x) : Holds (modInv a) x⁻¹ := by
  rcases eq_or_ne a.val 0 with hz | hn
  · have hzero : vliModInv 513 a eccP = some vliClear := by rw [vliModInv, if_pos ((vliIsZero_iff a).mpr hz)]
    have hget : modInv a = vliClear := by
      unfold modInv
      exact Option.get_of_eq_some _ hzero
    rw [hget, ha.eq_zero_iff.mpr hz, inv_zero]
    exact holds_vliClear
  · obtain ⟨r, hr, hlt, hmul⟩ := vliModInv_eq eccP_odd eccP_prime.one_lt hn le_rfl
    have hget : modInv a = r := by
      unfold modInv
      exact Option.get_of_eq_some _ hr
    have hcop : Nat.gcd a.val eccP.val = 1 :=
      (Nat.coprime_of_lt_prime hn ha.lt eccP_prime).symm
    rw [hcop] at hmul
    have hone := (ZMod.natCast_eq_natCast_iff _ _ _).mpr hmul
    rw [Nat.cast_mul, ha.eq, Nat.cast_one] at hone
    rw [hget]
    exact ⟨hlt, eq_inv_of_mul_eq_one_left hone⟩

/-- Two representatives of one element are the same bytes. -/
theorem Holds.unique (ha : Holds a x) (hb : Holds b x) : a = b := by
  have hmod := (ZMod.natCast_eq_natCast_iff' a.val b.val eccP.val).mp (ha.eq.trans hb.eq.symm)
  rw [Nat.mod_eq_of_lt ha.lt, Nat.mod_eq_of_lt hb.lt] at hmod
  exact Digits.ext_val hmod

end Httcutils
end TsbAgent
