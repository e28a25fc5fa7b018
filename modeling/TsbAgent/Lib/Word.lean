/-
# Numbers as bytes

The `w` bytes of a number in host order (least significant first, as on the
machines the code is built for) and in network order.  `htonl` and `ntohl` are not
modelled as functions on numbers: a field in network order is the bytes
`netBytes 4 n`, and a field in host order is `hostBytes 4 n`.  `int32` and `sizeT` are the
conversions to `int` and to `size_t`, of 32 and 64 bits.
-/

import TsbAgent.Lib.Libc
import Mathlib.Algebra.Order.Ring.Nat
import Mathlib.Tactic.Ring

namespace TsbAgent
namespace Word

open Libc

/-- The `w` bytes of `n`, least significant first; what does not fit is cut off. -/
def hostBytes : ℕ → ℕ → Bytes
  | 0, _ => []
  | w + 1, n => UInt8.ofNat n :: hostBytes w (n / 256)

/-- The number with these bytes, least significant first. -/
def ofHost : Bytes → ℕ
  | [] => 0
  | b :: bs => b.toNat + 256 * ofHost bs

/-- The `w` bytes of `n`, most significant first. -/
def netBytes (w n : ℕ) : Bytes := (hostBytes w n).reverse

/-- The number with these bytes, most significant first. -/
def ofNet (b : Bytes) : ℕ := ofHost b.reverse

/-- `n` bytes from `off`. -/
def fieldAt (b : Bytes) (off n : ℕ) : Bytes := (b.drop off).take n

/-- The number in host order in the `w` bytes from `off`. -/
def hostAt (b : Bytes) (off w : ℕ) : ℕ := ofHost (fieldAt b off w)

/-- The number in network order in the `w` bytes from `off`. -/
def netAt (b : Bytes) (off w : ℕ) : ℕ := ofNet (fieldAt b off w)

/-- A number converted to `int`. -/
def int32 (z : ℤ) : ℤ := Int.bmod z (2 ^ 32)

/-- A number converted to `size_t`. -/
def sizeT (z : ℤ) : ℕ := (z % 2 ^ 64).toNat

@[simp] theorem length_hostBytes (w n : ℕ) : (hostBytes w n).length = w := by
  induction w generalizing n with
  | zero => rfl
  | succ w ih => rw [hostBytes, List.length_cons, ih]

@[simp] theorem length_netBytes (w n : ℕ) : (netBytes w n).length = w := by
  rw [netBytes, List.length_reverse, length_hostBytes]

theorem ofHost_hostBytes (w n : ℕ) : ofHost (hostBytes w n) = n % 256 ^ w := by
  induction w generalizing n with
  | zero => rw [pow_zero, Nat.mod_one]; rfl
  | succ w ih =>
      rw [hostBytes, ofHost, ih, UInt8.toNat_ofNat', pow_succ' 256 w, Nat.mod_mul]

theorem ofNet_netBytes (w n : ℕ) : ofNet (netBytes w n) = n % 256 ^ w := by
  rw [ofNet, netBytes, List.reverse_reverse, ofHost_hostBytes]

theorem ofHost_hostBytes_of_lt {w n : ℕ} (h : n < 256 ^ w) : ofHost (hostBytes w n) = n := by
  rw [ofHost_hostBytes, Nat.mod_eq_of_lt h]

theorem ofNet_netBytes_of_lt {w n : ℕ} (h : n < 256 ^ w) : ofNet (netBytes w n) = n := by
  rw [ofNet_netBytes, Nat.mod_eq_of_lt h]

theorem ofHost_lt (b : Bytes) : ofHost b < 256 ^ b.length := by
  induction b with
  | nil => exact Nat.one_pos
  | cons x b ih =>
      have hx : x.toNat < 256 := x.toNat_lt
      rw [ofHost, List.length_cons, pow_succ']
      omega

/-- Every field is the bytes of its number. -/
theorem hostBytes_ofHost (b : Bytes) : hostBytes b.length (ofHost b) = b := by
  induction b with
  | nil => rfl
  | cons x b ih =>
      have hx : x.toNat < 256 := x.toNat_lt
      have hdiv : (x.toNat + 256 * ofHost b) / 256 = ofHost b := by omega
      have hmod : UInt8.ofNat (x.toNat + 256 * ofHost b) = x := by
        rw [← UInt8.toNat_inj, UInt8.toNat_ofNat']
        omega
      rw [List.length_cons, ofHost, hostBytes, hdiv, hmod, ih]

theorem hostBytes_inj {w m n : ℕ} (hm : m < 256 ^ w) (hn : n < 256 ^ w) :
    hostBytes w m = hostBytes w n ↔ m = n := by
  refine ⟨fun h => ?_, fun h => by rw [h]⟩
  rw [← ofHost_hostBytes_of_lt hm, h, ofHost_hostBytes_of_lt hn]

theorem netBytes_inj {w m n : ℕ} (hm : m < 256 ^ w) (hn : n < 256 ^ w) :
    netBytes w m = netBytes w n ↔ m = n := by
  rw [netBytes, netBytes, List.reverse_inj, hostBytes_inj hm hn]

/-- The field after `a`. -/
theorem fieldAt_append {a b c : Bytes} {off n : ℕ} (ha : a.length = off) (hb : b.length = n) :
    fieldAt (a ++ (b ++ c)) off n = b := by
  rw [fieldAt, List.drop_left' ha, List.take_left' hb]

theorem hostAt_append {a c : Bytes} {off w n : ℕ} (ha : a.length = off) (hn : n < 256 ^ w) :
    hostAt (a ++ (hostBytes w n ++ c)) off w = n := by
  rw [hostAt, fieldAt_append ha (length_hostBytes w n), ofHost_hostBytes_of_lt hn]

/-- A field behind bytes of a known length. -/
theorem fieldAt_skip {a b : Bytes} {k off n : ℕ} (ha : a.length = k) :
    fieldAt (a ++ b) (off + k) n = fieldAt b off n := by
  rw [fieldAt, fieldAt, Nat.add_comm, ← List.drop_drop, List.drop_left' ha]

theorem netAt_skip (k n off w : ℕ) (b : Bytes) : netAt (netBytes k n ++ b) (off + k) w = netAt b off w := by
  rw [netAt, netAt, fieldAt_skip (length_netBytes k n)]

theorem netAt_head (w n : ℕ) (b : Bytes) : netAt (netBytes w n ++ b) 0 w = n % 256 ^ w := by
  have hfield := @fieldAt_append [] (netBytes w n) b 0 w rfl (length_netBytes w n)
  rw [List.nil_append] at hfield
  rw [netAt, hfield, ofNet_netBytes]

theorem netAt_lt (b : Bytes) (off w : ℕ) : netAt b off w < 256 ^ w := by
  have hlen : (fieldAt b off w).reverse.length ≤ w := by
    rw [List.length_reverse, fieldAt, List.length_take]
    exact Nat.min_le_left _ _
  exact lt_of_lt_of_le (ofHost_lt _) (Nat.pow_le_pow_right (by decide) hlen)

/-- Numbers that an `int` holds are converted to themselves. -/
theorem int32_eq {z : ℤ} (h₀ : 0 ≤ z) (h₁ : z < 2 ^ 31) : int32 z = z := by
  rw [int32, Int.bmod_eq_of_le (by omega) (by omega)]

end Word
end TsbAgent
