/-
# A primality test with the successor of a number

Where the divisors of `N + 1` are known, `N` is prime when some `c + √D` has order `N + 1` modulo every prime divisor
of `N`: that many powers do not fit into the `q ^ 2` elements `a + b √D` modulo a prime `q` with `q ^ 2 ≤ N`.  The
powers are computed on pairs of numbers modulo `N` (`powPair`), and read in the quadratic algebra modulo `q`.
-/

import Mathlib.Algebra.Field.ZMod
import Mathlib.Algebra.QuadraticAlgebra.Defs
import Mathlib.Data.List.Prime
import Mathlib.Data.ZMod.Basic
import Mathlib.GroupTheory.OrderOfElement
import Mathlib.SetTheory.Cardinal.Finite

namespace TsbAgent
namespace LucasPrime

/-- The product of `a + b √D` and `c + d √D` modulo `N`. -/
def mulPair (N D : ℕ) (x y : ℕ × ℕ) : ℕ × ℕ :=
  ((x.1 * y.1 + D * (x.2 * y.2)) % N, (x.1 * y.2 + x.2 * y.1) % N)

/-- The `n`-th power by squaring, for `n` of at most as many bits as the first number. -/
def powPair (N D : ℕ) (x : ℕ × ℕ) : ℕ → ℕ → ℕ × ℕ
  | 0, _ => (1, 0)
  | bits + 1, n =>
      let half := powPair N D x bits (n / 2)
      if n % 2 = 0 then mulPair N D half half else mulPair N D (mulPair N D half half) x

variable {N D q : ℕ}

/-- A pair as an element of the algebra modulo `q`. -/
def ofPair (q D : ℕ) (x : ℕ × ℕ) : QuadraticAlgebra (ZMod q) D 0 := ⟨x.1, x.2⟩

theorem ofPair_mulPair (hq : q ∣ N) (x y : ℕ × ℕ) :
    ofPair q D (mulPair N D x y) = ofPair q D x * ofPair q D y := by
  have hmod : ∀ n : ℕ, ((n % N : ℕ) : ZMod q) = n := fun n => by
    rw [ZMod.natCast_eq_natCast_iff]
    exact (Nat.mod_modEq n N).of_dvd hq
  ext
  · simp only [ofPair, mulPair, hmod, QuadraticAlgebra.re_mul]
    push_cast
    ring
  · simp only [ofPair, mulPair, hmod, QuadraticAlgebra.im_mul]
    push_cast
    ring

theorem ofPair_one (q D : ℕ) : ofPair q D (1, 0) = 1 := by
  ext
  · exact Nat.cast_one
  · exact Nat.cast_zero

theorem ofPair_powPair (hq : q ∣ N) (x : ℕ × ℕ) (bits n : ℕ) (h : n < 2 ^ bits) :
    ofPair q D (powPair N D x bits n) = ofPair q D x ^ n := by
  induction bits generalizing n with
  | zero =>
      have hn : n = 0 := by rwa [pow_zero, Nat.lt_one_iff] at h
      rw [powPair, hn, pow_zero, ofPair_one]
  | succ bits ih =>
      have hhalf := ih (n / 2) (by rw [pow_succ] at h; omega)
      rw [powPair]
      rcases Nat.mod_two_eq_zero_or_one n with hn | hn
      · rw [if_pos hn, ofPair_mulPair hq, hhalf, ← pow_add, ← two_mul, Nat.mul_div_cancel' (Nat.dvd_of_mod_eq_zero hn)]
      · rw [if_neg (by omega), ofPair_mulPair hq, ofPair_mulPair hq, hhalf, ← pow_add, ← pow_succ,
          show n / 2 + n / 2 + 1 = n by omega]

/-- What is not one modulo any divisor of `N`. -/
def Differs (N : ℕ) (z : ℕ × ℕ) : Prop := Nat.Coprime z.2 N ∨ Nat.Coprime (z.1 + (N - 1)) N

instance (N : ℕ) (z : ℕ × ℕ) : Decidable (Differs N z) := inferInstanceAs (Decidable (_ ∨ _))

theorem ofPair_ne_one [Fact q.Prime] (hN : 0 < N) (hq : q ∣ N) {z : ℕ × ℕ} (h : Differs N z) : ofPair q D z ≠ 1 := by
  intro hone
  have hre : (z.1 : ZMod q) = 1 := congrArg QuadraticAlgebra.re hone
  have him : (z.2 : ZMod q) = 0 := congrArg QuadraticAlgebra.im hone
  have hunit : ∀ n : ℕ, (n : ZMod q) = 0 → ¬ Nat.Coprime n N := fun n hn hcop => by
    rw [ZMod.natCast_eq_zero_iff] at hn
    exact (Fact.out : q.Prime).one_lt.ne' (Nat.dvd_one.mp (hcop ▸ Nat.dvd_gcd hn hq))
  rcases h with h | h
  · exact hunit _ him h
  · refine hunit _ ?_ h
    have hzero : ((N : ℕ) : ZMod q) = 0 := (ZMod.natCast_eq_zero_iff N q).mpr hq
    rw [Nat.cast_add, hre, Nat.cast_sub hN, hzero, Nat.cast_one]
    ring

/-- **The test.** -/
theorem prime_of_pow_succ {x : ℕ × ℕ} {bits : ℕ} (hN : 1 < N) (hbits : N + 1 < 2 ^ bits)
    (hpow : powPair N D x bits (N + 1) = (1, 0))
    (hdiv : ∀ r : ℕ, r.Prime → r ∣ N + 1 → Differs N (powPair N D x bits ((N + 1) / r))) : N.Prime := by
  by_contra hnot
  have hq : N.minFac ∣ N := Nat.minFac_dvd N
  have hprime : N.minFac.Prime := Nat.minFac_prime hN.ne'
  have : Fact N.minFac.Prime := ⟨hprime⟩
  have : NeZero N.minFac := ⟨hprime.ne_zero⟩
  have : Finite (QuadraticAlgebra (ZMod N.minFac) (D : ZMod N.minFac) 0) :=
    Finite.of_equiv _ (QuadraticAlgebra.equivProd (D : ZMod N.minFac) 0).symm
  have hcard : Nat.card (QuadraticAlgebra (ZMod N.minFac) (D : ZMod N.minFac) 0) = N.minFac ^ 2 := by
    rw [Nat.card_congr (QuadraticAlgebra.equivProd _ _), Nat.card_prod, Nat.card_zmod, sq]
  have hone : ofPair N.minFac D x ^ (N + 1) = 1 := by
    rw [← ofPair_powPair hq x bits (N + 1) hbits, hpow, ofPair_one]
  have horder : orderOf (ofPair N.minFac D x) = N + 1 :=
    orderOf_eq_of_pow_and_pow_div_prime (Nat.succ_pos N) hone fun r hr hrN => by
      rw [← ofPair_powPair hq x bits _ (lt_of_le_of_lt (Nat.div_le_self _ _) hbits)]
      exact ofPair_ne_one (Nat.zero_lt_of_lt hN) hq (hdiv r hr hrN)
  have hle : orderOf (ofPair N.minFac D x) ≤ N.minFac ^ 2 := by
    obtain ⟨u, hu⟩ := IsUnit.of_pow_eq_one hone (Nat.succ_ne_zero N)
    rw [← hu, orderOf_units, ← hcard]
    exact (orderOf_le_card (x := u)).trans (Nat.card_le_card_of_injective _ Units.val_injective)
  have hsq := Nat.minFac_sq_le_self (Nat.zero_lt_of_lt hN) hnot
  omega

/-- The test for a list of primes whose product is the successor. -/
theorem prime_of_factors {x : ℕ × ℕ} {bits : ℕ} {factors : List ℕ} (hN : 1 < N) (hbits : N + 1 < 2 ^ bits)
    (hpow : powPair N D x bits (N + 1) = (1, 0)) (hprime : ∀ r ∈ factors, r.Prime) (hprod : factors.prod = N + 1)
    (hdiv : ∀ r ∈ factors, Differs N (powPair N D x bits ((N + 1) / r))) : N.Prime :=
  prime_of_pow_succ hN hbits hpow fun r hr hrN =>
    hdiv r (mem_list_primes_of_dvd_prod hr.prime (fun q hq => (hprime q hq).prime) (hprod ▸ hrN))

end LucasPrime
end TsbAgent
