/-
# Cyclic redundancy checks

Long division of a message by a polynomial over the two-element field, on a register of
`w` bits.  `shiftOut` is one step with the highest coefficient first: the register moves
up and the polynomial is added when a one falls out; `shiftDown` is the mirrored step.
`remainder` adds each byte to the end of the register where bits fall out and makes eight
steps.

A step is linear in exclusive or, so `k` steps can be read from a table: those of the `k`
bits that fall out, and the rest of the register moved by `k` places (`iterate_shiftOut`,
`iterate_shiftDown`).  With a constant coefficient no register is lost
(`remainder_injective`).
-/

import Mathlib.Data.List.Basic
import Mathlib.Logic.Function.Iterate

namespace TsbAgent
namespace Crc

variable {w : ℕ}

/-- A step of the division, the highest coefficient first. -/
def shiftOut (poly r : BitVec w) : BitVec w := if r.msb then (r <<< 1) ^^^ poly else r <<< 1

/-- A step of the division, the lowest bit first. -/
def shiftDown (poly r : BitVec w) : BitVec w := if r.getLsbD 0 then (r >>> 1) ^^^ poly else r >>> 1

/-- The register after a byte, its highest bit first. -/
def feed (poly r : BitVec w) (b : BitVec 8) : BitVec w :=
  let top : BitVec w := b.setWidth w
  (shiftOut poly)^[8] (r ^^^ (top <<< (w - 8)))

/-- The register after a byte, its lowest bit first. -/
def feedDown (poly r : BitVec w) (b : BitVec 8) : BitVec w := (shiftDown poly)^[8] (r ^^^ b.setWidth w)

/-- The register after a message, the highest bit of each byte first. -/
def remainder (poly : BitVec w) (init : BitVec w) (message : List (BitVec 8)) : BitVec w :=
  message.foldl (feed poly) init

/-- The register after a message, the lowest bit of each byte first. -/
def remainderDown (poly : BitVec w) (init : BitVec w) (message : List (BitVec 8)) : BitVec w :=
  message.foldl (feedDown poly) init

/-- A step that is linear in exclusive or. -/
def Linear (f : BitVec w → BitVec w) : Prop := ∀ x y, f (x ^^^ y) = f x ^^^ f y

variable {poly x y r : BitVec w} {f : BitVec w → BitVec w} {k n : ℕ}

theorem Linear.iterate (hf : Linear f) (n : ℕ) : Linear f^[n] := by
  induction n with
  | zero => exact fun _ _ => rfl
  | succ n ih =>
      intro x y
      rw [Function.iterate_succ_apply, Function.iterate_succ_apply, Function.iterate_succ_apply, hf, ih]

theorem Linear.injective (hf : Linear f) (hzero : ∀ x, f x = 0#w → x = 0#w) : Function.Injective f := by
  intro x y hxy
  have hsum : f (x ^^^ y) = 0#w := by rw [hf, hxy, BitVec.xor_self]
  exact BitVec.xor_eq_zero_iff.mp (hzero _ hsum)

/-- Adding a constant when either of two tests holds, but not when both do. -/
theorem xor_ite_xor (a b : Bool) (x y p : BitVec w) :
    (if (a ^^ b) then (x ^^^ y) ^^^ p else x ^^^ y) =
      (if a then x ^^^ p else x) ^^^ (if b then y ^^^ p else y) := by
  cases a <;> cases b
  · rfl
  · exact BitVec.xor_assoc ..
  · change x ^^^ y ^^^ p = x ^^^ p ^^^ y
    rw [BitVec.xor_assoc, BitVec.xor_comm y, BitVec.xor_assoc]
  · change x ^^^ y = x ^^^ p ^^^ (y ^^^ p)
    rw [BitVec.xor_assoc, BitVec.xor_comm p, BitVec.xor_assoc, BitVec.xor_self, BitVec.xor_zero]

theorem linear_shiftOut (poly : BitVec w) : Linear (shiftOut poly) := by
  intro x y
  rw [shiftOut, BitVec.msb_xor, BitVec.shiftLeft_xor_distrib]
  exact xor_ite_xor ..

/-! ### Steps from a table -/

/-- Steps in which no one falls out only move the register up. -/
theorem iterate_shiftOut_of_clear (hx : ∀ i, w - k ≤ i → x.getLsbD i = false) (hn : n ≤ k) :
    (shiftOut poly)^[n] x = x <<< n := by
  induction n with
  | zero => exact (BitVec.shiftLeft_zero x).symm
  | succ n ih =>
      rw [Function.iterate_succ_apply', ih (by omega), shiftOut]
      have hmsb : (x <<< n).msb = false := by
        rw [BitVec.msb_eq_getLsbD_last, BitVec.getLsbD_shiftLeft, hx (w - 1 - n) (by omega), Bool.and_false]
      rw [if_neg (by rw [hmsb]; exact Bool.false_ne_true), BitVec.shiftLeft_add]

/-- **`k` steps at once:** those of the `k` highest bits, and the rest moved up. -/
theorem iterate_shiftOut (hk : k ≤ w) : (shiftOut poly)^[k] x =
    (x <<< k) ^^^ (shiftOut poly)^[k] ((x >>> (w - k)) <<< (w - k)) := by
  have hsplit : x = ((x <<< k) >>> k) ^^^ ((x >>> (w - k)) <<< (w - k)) := by
    refine BitVec.eq_of_getLsbD_eq fun i hi => ?_
    simp only [BitVec.getLsbD_xor, BitVec.getLsbD_ushiftRight, BitVec.getLsbD_shiftLeft]
    by_cases hik : i < w - k
    · simp [hik, hi, show k + i < w by omega]
    · simp [hik, hi, show ¬ k + i < w by omega, show w - k + (i - (w - k)) = i by omega]
  have hclear : ∀ i, w - k ≤ i → ((x <<< k) >>> k).getLsbD i = false := by
    intro i hi
    simp [show ¬ k + i < w by omega]
  have hback : ((x <<< k) >>> k) <<< k = x <<< k := by
    refine BitVec.eq_of_getLsbD_eq fun i hi => ?_
    by_cases hik : i < k
    · simp [hik]
    · simp [hik, hi, show k + (i - k) = i by omega]
  calc (shiftOut poly)^[k] x
      = (shiftOut poly)^[k] ((x <<< k) >>> k) ^^^
          (shiftOut poly)^[k] ((x >>> (w - k)) <<< (w - k)) := by
        rw [← (linear_shiftOut poly).iterate k, ← hsplit]
    _ = _ := by rw [iterate_shiftOut_of_clear hclear (Nat.le_refl k), hback]

/-! ### No register is lost -/

theorem shiftOut_injective (hpoly : poly.getLsbD 0 = true) : Function.Injective (shiftOut poly) := by
  refine (linear_shiftOut poly).injective fun x hx => ?_
  rw [shiftOut] at hx
  split at hx
  · -- the constant coefficient stays in the register
    have hbit := congrArg (fun y => y.getLsbD 0) hx
    simp [hpoly] at hbit
  · rename_i hmsb
    refine BitVec.eq_of_getLsbD_eq fun i hi => ?_
    by_cases hlast : i + 1 < w
    · have hbit := congrArg (fun y => y.getLsbD (i + 1)) hx
      simpa [hlast, BitVec.getLsbD_eq_getElem hi] using hbit
    · rw [BitVec.msb_eq_getLsbD_last, show w - 1 = i by omega] at hmsb
      simpa using hmsb

/-- Two registers stay apart over every message. -/
theorem remainder_injective (hpoly : poly.getLsbD 0 = true) (message : List (BitVec 8)) :
    Function.Injective fun init => remainder poly init message := by
  induction message with
  | nil => exact fun _ _ h => h
  | cons b message ih =>
      intro x y hxy
      have hstep := (shiftOut_injective hpoly).iterate 8 (ih hxy)
      exact (BitVec.xor_left_inj _).mp hstep

end Crc
end TsbAgent
