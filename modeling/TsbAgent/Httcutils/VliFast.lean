/-
# The fast reduction modulo the prime of the curve

`tss-main/httcutils/src/sm/ecc.c`, `vli_mmod_fast`: the sixteen words of a product above the eighth are folded down.
Modulo `p = 2^256 - 2^224 - 2^96 + 2^64 - 1` a word at `2^(32 k)` is a sum of words at lower places, so the code lays
its bytes out in `tmp1`, `tmp2` and `tmp3`, adds and subtracts these eight times and counts the carries; what an
earlier round left in the buffers stays there unless it is overwritten or cleared.  At the end `p` is taken away
until the carry is gone and the result is below `p`, or added while the carry is negative.

`foldAll_total` says what the rounds leave for each of the eight upper words, and from it `vliMmodFast_eq`: for every
product of 64 bytes the result is the product modulo `p`, after at most fifteen subtractions, and the negative branch
is never taken.
-/

import TsbAgent.Httcutils.VliMod
import Mathlib.Tactic.LinearCombination

namespace TsbAgent
namespace Httcutils

open Libc Word

/-! ### The functions -/

/-- `t[d] = product[s]`, and the three bytes that follow. -/
def setWord (product : Product) (s : ℕ) (t : Vli) (d : ℕ) : Vli :=
  (((t.set d (product.get s)).set (d + 1) (product.get (s + 1))).set (d + 2) (product.get (s + 2))).set (d + 3)
    (product.get (s + 3))

/-- `t[d] = t[d + 1] = t[d + 2] = t[d + 3] = 0`. -/
def zeroWord (t : Vli) (d : ℕ) : Vli := (((t.set d 0).set (d + 1) 0).set (d + 2) 0).set (d + 3) 0

/-- The variables of `vli_mmod_fast`. -/
structure Folding where
  result : Vli
  tmp1 : Vli
  tmp2 : Vli
  tmp3 : Vli
  carry : ℤ

namespace Folding

variable (product : Product) (f : Folding)

/-- The four bytes of `product` from `s` into `tmp1` at each of `ds`. -/
def set1 (ds : List ℕ) (s : ℕ) : Folding := { f with tmp1 := ds.foldl (setWord product s) f.tmp1 }

/-- The four bytes of `product` from `s` into `tmp2` at each of `ds`. -/
def set2 (ds : List ℕ) (s : ℕ) : Folding := { f with tmp2 := ds.foldl (setWord product s) f.tmp2 }

/-- The four bytes of `product` from `s` into `tmp3` at each of `ds`. -/
def set3 (ds : List ℕ) (s : ℕ) : Folding := { f with tmp3 := ds.foldl (setWord product s) f.tmp3 }

/-- Four bytes of `tmp1` cleared. -/
def zero1 (d : ℕ) : Folding := { f with tmp1 := zeroWord f.tmp1 d }

/-- Four bytes of `tmp2` cleared. -/
def zero2 (d : ℕ) : Folding := { f with tmp2 := zeroWord f.tmp2 d }

/-- Four bytes of `tmp3` cleared. -/
def zero3 (d : ℕ) : Folding := { f with tmp3 := zeroWord f.tmp3 d }

/-- `carry += vli_add(result, result, t)`. -/
def add (t : Vli) : Folding :=
  { f with result := (vliAdd f.result t).2, carry := f.carry + (vliAdd f.result t).1.toNat }

/-- `carry -= vli_sub(result, result, t)`. -/
def sub (t : Vli) : Folding :=
  { f with result := (vliSub f.result t).2, carry := f.carry - (vliSub f.result t).1.toNat }

/-- `carry += vli_add(result, result, tmp1)`. -/
def add1 : Folding := f.add f.tmp1

/-- `carry += vli_add(result, result, tmp2)`. -/
def add2 : Folding := f.add f.tmp2

/-- `carry += vli_add(result, result, tmp3)`. -/
def add3 : Folding := f.add f.tmp3

/-- `carry -= vli_sub(result, result, tmp2)`. -/
def sub2 : Folding := f.sub f.tmp2

/-- `carry += vli_lshift(tmp2, tmp2, 1)`. -/
def double2 : Folding :=
  { f with tmp2 := (vliLshift f.tmp2 1).2, carry := f.carry + (vliLshift f.tmp2 1).1.toNat }

end Folding

/-- `vli_mmod_fast` as far as the carries: the eight rounds, one for each upper word of the product. -/
def foldAll (product : Product) : Folding :=
  let f : Folding := ⟨product.low, vliClear, vliClear, vliClear, 0⟩
  let f := ((f.set1 product [0, 12, 28] 32).set2 product [8] 32).add1.sub2
  let f := (((f.set1 product [0, 4, 16, 28] 36).zero1 12).set2 product [8] 36).add1.sub2
  let f := ((f.set1 product [0, 4, 20, 28] 40).zero1 16).add1
  let f := ((f.set1 product [0, 4, 12, 24, 28] 44).zero1 20).add1
  let f := (((f.set1 product [0, 4, 12, 16, 28] 48).set3 product [28] 48).zero1 24).add1.add3
  let f := (((f.set1 product [0, 4, 12, 16, 20, 28] 52).set2 product [8] 52).set3 product [0, 12, 28] 52).add1.add3.sub2
  let f := ((((f.set1 product [0, 4, 12, 16, 20, 24, 28] 56).set2 product [8] 56).set3 product [0, 4, 16, 28] 56).zero3
    12).add1.add3.sub2
  let f := (((((f.set1 product [0, 4, 12, 16, 20, 24, 28] 60).set3 product [0, 4, 20] 60).zero3 16).zero3 28).set2
    product [28] 60).zero2 8
  f.double2.add1.add3.add2

/-- `do { carry += vli_add(result, result, mod); } while (carry < 0);` -/
def addBack (mod : Vli) : ℕ → Vli → ℤ → Option Vli
  | 0, _, _ => none
  | fuel + 1, result, carry =>
      let sum := vliAdd result mod
      if carry + sum.1.toNat < 0 then addBack mod fuel sum.2 (carry + sum.1.toNat) else some sum.2

/-- `while (carry || vli_cmp(mod, result) != 1) carry -= vli_sub(result, result, mod);` -/
def takeDown (mod : Vli) : ℕ → Vli → ℤ → Option Vli
  | 0, _, _ => none
  | fuel + 1, result, carry =>
      if carry ≠ 0 ∨ vliCmp mod result ≠ 1 then
        takeDown mod fuel (vliSub result mod).2 (carry - (vliSub result mod).1.toNat)
      else some result

/-- `vli_mmod_fast`. -/
def vliMmodFast (fuel : ℕ) (product : Product) (mod : Vli) : Option Vli :=
  let f := foldAll product
  if f.carry < 0 then addBack mod fuel f.result f.carry else takeDown mod fuel f.result f.carry

/-- `vli_mod_mult_fast`. -/
def vliModMultFast (fuel : ℕ) (left right mod : Vli) : Option Vli := vliMmodFast fuel (vliMult left right) mod

/-- `vli_mod_square_fast`. -/
def vliModSquareFast (fuel : ℕ) (left mod : Vli) : Option Vli := vliMmodFast fuel (vliSquare left) mod

-- Irreducible: a type that mentions the prime must not be compared by its bytes.
/-- The prime `ecc_curve.p` (`sm2.c`). -/
@[irreducible] def eccP : Vli :=
  ⟨[0xFF, 0xFF, 0xFF, 0xFF, 0xFF, 0xFF, 0xFF, 0xFF, 0x00, 0x00, 0x00, 0x00, 0xFF, 0xFF, 0xFF, 0xFF,
    0xFF, 0xFF, 0xFF, 0xFF, 0xFF, 0xFF, 0xFF, 0xFF, 0xFF, 0xFF, 0xFF, 0xFF, 0xFE, 0xFF, 0xFF, 0xFF], by decide⟩

/-! ### Words of four bytes -/

/-- The number in the bytes `4 * j` to `4 * j + 3`. -/
def word {n : ℕ} (t : Digits n) (j : ℕ) : ℕ :=
  (t.get (4 * j)).toNat + 2 ^ 8 * (t.get (4 * j + 1)).toNat + 2 ^ 16 * (t.get (4 * j + 2)).toNat +
    2 ^ 24 * (t.get (4 * j + 3)).toNat

/-- The eight words of a `vli`. -/
def words (t : Vli) : List ℕ := (List.range 8).map (word t)

/-- The number with these words. -/
def ofWords : List ℕ → ℕ
  | [] => 0
  | w :: ws => w + 2 ^ 32 * ofWords ws

theorem word_lt {n : ℕ} (t : Digits n) (j : ℕ) : word t j < 2 ^ 32 := by
  have h₀ := t.get_lt (4 * j)
  have h₁ := t.get_lt (4 * j + 1)
  have h₂ := t.get_lt (4 * j + 2)
  have h₃ := t.get_lt (4 * j + 3)
  rw [word]
  omega

theorem val_words (t : Vli) : t.val = ofWords (words t) := by
  rw [t.val_eq_sum, words]
  simp only [Finset.sum_range_succ, Finset.sum_range_zero, eccNumword, List.range, List.range.loop, List.map_cons,
    List.map_nil, ofWords, word]
  ring

theorem get_set {n : ℕ} (t : Digits n) {i : ℕ} (b : UInt8) (k : ℕ) (h : i < n) :
    (t.set i b).get k = if i = k then b else t.get k := by
  rw [Digits.get, Digits.get, Digits.set, List.getD_eq_getElem?_getD, List.getD_eq_getElem?_getD, List.getElem?_set,
    t.length_eq, if_pos h]
  split <;> rfl

/-- Four bytes written at a word's place replace that word. -/
theorem words_set (t : Vli) {j : ℕ} (hj : j < 8) (b₀ b₁ b₂ b₃ : UInt8) :
    words ((((t.set (4 * j) b₀).set (4 * j + 1) b₁).set (4 * j + 2) b₂).set (4 * j + 3) b₃) =
      (words t).set j (b₀.toNat + 2 ^ 8 * b₁.toNat + 2 ^ 16 * b₂.toNat + 2 ^ 24 * b₃.toNat) := by
  have hbyte : ∀ k, ((((t.set (4 * j) b₀).set (4 * j + 1) b₁).set (4 * j + 2) b₂).set (4 * j + 3) b₃).get k =
      if 4 * j + 3 = k then b₃ else if 4 * j + 2 = k then b₂ else if 4 * j + 1 = k then b₁
        else if 4 * j = k then b₀ else t.get k := fun k => by
    have hlt : 4 * j + 3 < eccNumword := show 4 * j + 3 < 32 by omega
    rw [get_set _ _ _ hlt, get_set _ _ _ (Nat.lt_of_succ_lt hlt),
      get_set _ _ _ (Nat.lt_of_succ_lt (Nat.lt_of_succ_lt hlt)), get_set _ _ _ (by omega)]
  refine List.ext_getElem (by simp [words]) fun i h₁ _ => ?_
  have hi : i < 8 := by simpa [words] using h₁
  rw [List.getElem_set]
  simp only [words, List.getElem_map, List.getElem_range]
  rcases eq_or_ne j i with rfl | hne
  · rw [if_pos rfl, word, hbyte, hbyte, hbyte, hbyte]
    simp
  · rw [if_neg hne, word, word, hbyte, hbyte, hbyte, hbyte]
    have hmiss : ∀ a b : ℕ, a < 4 → b < 4 → 4 * j + a ≠ 4 * i + b := fun a b ha hb => by omega
    have h₀ : ∀ b < 4, 4 * j ≠ 4 * i + b := fun b hb => by omega
    have h₄ : ∀ a < 4, 4 * j + a ≠ 4 * i := fun a ha => by omega
    have h₅ : 4 * j ≠ 4 * i := by omega
    simp [hmiss, h₀, h₄, h₅]

theorem words_setWord (product : Product) (t : Vli) {s d : ℕ} (hs : s % 4 = 0) (hd : d % 4 = 0 ∧ d < 32) :
    words (setWord product s t d) = (words t).set (d / 4) (word product (s / 4)) := by
  have hd' : 4 * (d / 4) = d := by omega
  have hs' : 4 * (s / 4) = s := by omega
  have hset := words_set t (show d / 4 < 8 by omega) (product.get s) (product.get (s + 1)) (product.get (s + 2))
    (product.get (s + 3))
  rw [hd'] at hset
  rw [setWord, hset, word, hs']

theorem words_zeroWord (t : Vli) {d : ℕ} (hd : d % 4 = 0 ∧ d < 32) : words (zeroWord t d) = (words t).set (d / 4) 0 := by
  have hd' : 4 * (d / 4) = d := by omega
  have hset := words_set t (show d / 4 < 8 by omega) 0 0 0 0
  rw [hd'] at hset
  rw [zeroWord, hset]
  rfl

/-- The words of a buffer after bytes of the product were written at each of `ds`. -/
def place (w : ℕ) (ds : List ℕ) (ws : List ℕ) : List ℕ := ds.foldl (fun ws d => ws.set (d / 4) w) ws

theorem words_foldl (product : Product) {s : ℕ} (hs : s % 4 = 0) (ds : List ℕ) (hds : ∀ d ∈ ds, d % 4 = 0 ∧ d < 32)
    (t : Vli) : words (ds.foldl (setWord product s) t) = place (word product (s / 4)) ds (words t) := by
  induction ds generalizing t with
  | nil => rfl
  | cons d ds ih =>
      rw [List.foldl_cons, ih (fun e he => hds e (List.mem_cons_of_mem d he)),
        words_setWord product t hs (hds d List.mem_cons_self)]
      rfl

theorem words_vliClear : words vliClear = [0, 0, 0, 0, 0, 0, 0, 0] := by decide

/-! ### What the rounds leave -/

namespace Folding

/-- What `result` and `carry` stand for. -/
def total (f : Folding) : ℤ := f.result.val + 2 ^ 256 * f.carry

theorem total_add (f : Folding) (t : Vli) : (f.add t).total = f.total + ofWords (words t) := by
  obtain ⟨_, hadd⟩ := vliAdd_spec f.result t
  have hcast : ((vliAdd f.result t).2.val : ℤ) + 2 ^ 256 * (vliAdd f.result t).1.toNat = f.result.val + t.val :=
    mod_cast hadd
  rw [total, total, add, ← val_words]
  linear_combination hcast

theorem total_sub (f : Folding) (t : Vli) : (f.sub t).total = f.total - ofWords (words t) := by
  obtain ⟨_, hsub⟩ := vliSub_spec f.result t
  have hcast : ((vliSub f.result t).2.val : ℤ) + t.val = f.result.val + 2 ^ 256 * (vliSub f.result t).1.toNat :=
    mod_cast hsub
  rw [total, total, sub, ← val_words]
  linear_combination hcast

/-- The doubled words and the bit they lose count twice what the words counted. -/
theorem total_double2 (f : Folding) : f.double2.total + f.double2.tmp2.val = f.total + 2 * ofWords (words f.tmp2) := by
  have hshift := vliLshift_spec f.tmp2 (show 1 ≤ 8 by decide)
  have hcast : ((vliLshift f.tmp2 1).2.val : ℤ) + 2 ^ 256 * (vliLshift f.tmp2 1).1.toNat = f.tmp2.val * 2 := by
    rw [pow_one] at hshift
    exact mod_cast hshift
  rw [total, total, double2, ← val_words]
  linear_combination hcast

/-- The variables with the buffers as words. -/
structure Layout where
  total : ℤ
  words1 : List ℕ
  words2 : List ℕ
  words3 : List ℕ

def layout (f : Folding) : Layout := ⟨f.total, words f.tmp1, words f.tmp2, words f.tmp3⟩

variable (product : Product) (f : Folding)

theorem layout_set1 {ds : List ℕ} {s : ℕ} (hs : s % 4 = 0) (hds : ∀ d ∈ ds, d % 4 = 0 ∧ d < 32) :
    (f.set1 product ds s).layout = { f.layout with words1 := place (word product (s / 4)) ds f.layout.words1 } := by
  rw [layout, set1, words_foldl product hs ds hds]
  rfl

theorem layout_set2 {ds : List ℕ} {s : ℕ} (hs : s % 4 = 0) (hds : ∀ d ∈ ds, d % 4 = 0 ∧ d < 32) :
    (f.set2 product ds s).layout = { f.layout with words2 := place (word product (s / 4)) ds f.layout.words2 } := by
  rw [layout, set2, words_foldl product hs ds hds]
  rfl

theorem layout_set3 {ds : List ℕ} {s : ℕ} (hs : s % 4 = 0) (hds : ∀ d ∈ ds, d % 4 = 0 ∧ d < 32) :
    (f.set3 product ds s).layout = { f.layout with words3 := place (word product (s / 4)) ds f.layout.words3 } := by
  rw [layout, set3, words_foldl product hs ds hds]
  rfl

theorem layout_zero1 {d : ℕ} (hd : d % 4 = 0 ∧ d < 32) :
    (f.zero1 d).layout = { f.layout with words1 := f.layout.words1.set (d / 4) 0 } := by
  rw [layout, zero1, words_zeroWord _ hd]
  rfl

theorem layout_zero2 {d : ℕ} (hd : d % 4 = 0 ∧ d < 32) :
    (f.zero2 d).layout = { f.layout with words2 := f.layout.words2.set (d / 4) 0 } := by
  rw [layout, zero2, words_zeroWord _ hd]
  rfl

theorem layout_zero3 {d : ℕ} (hd : d % 4 = 0 ∧ d < 32) :
    (f.zero3 d).layout = { f.layout with words3 := f.layout.words3.set (d / 4) 0 } := by
  rw [layout, zero3, words_zeroWord _ hd]
  rfl

theorem layout_add1 : f.add1.layout = { f.layout with total := f.layout.total + ofWords f.layout.words1 } := by
  rw [layout, add1, total_add]
  rfl

theorem layout_add3 : f.add3.layout = { f.layout with total := f.layout.total + ofWords f.layout.words3 } := by
  rw [layout, add3, total_add]
  rfl

theorem layout_sub2 : f.sub2.layout = { f.layout with total := f.layout.total - ofWords f.layout.words2 } := by
  rw [layout, sub2, total_sub]
  rfl

/-- The last round counts `tmp2` twice. -/
theorem total_last : f.double2.add1.add3.add2.total =
    f.layout.total + ofWords f.layout.words1 + ofWords f.layout.words3 + 2 * ofWords f.layout.words2 := by
  have hdouble := total_double2 f
  have hval : (f.double2.tmp2.val : ℤ) = ofWords (words f.double2.tmp2) := by rw [val_words]
  rw [add2, total_add, add3, total_add, add1, total_add]
  have h₁ : (f.double2.add f.double2.tmp1).tmp3 = f.tmp3 := rfl
  have h₂ : ((f.double2.add f.double2.tmp1).add f.tmp3).tmp2 = f.double2.tmp2 := rfl
  have h₃ : f.double2.tmp1 = f.tmp1 := rfl
  rw [h₁, h₂, h₃, ← hval]
  have hl : f.layout = ⟨f.total, words f.tmp1, words f.tmp2, words f.tmp3⟩ := rfl
  rw [hl]
  linear_combination hdouble

end Folding

open Folding

/-- **What the rounds leave**: the lower half, and for each upper word the sum of the places it was laid out at. -/
theorem foldAll_total (product : Product) :
    (foldAll product).total = product.low.val +
      (2 ^ 224 + 2 ^ 96 - 2 ^ 64 + 1) * word product 8 +
      (2 ^ 224 + 2 ^ 128 - 2 ^ 64 + 2 ^ 32 + 1) * word product 9 +
      (2 ^ 224 + 2 ^ 160 + 2 ^ 32 + 1) * word product 10 +
      (2 ^ 224 + 2 ^ 192 + 2 ^ 96 + 2 ^ 32 + 1) * word product 11 +
      (2 * 2 ^ 224 + 2 ^ 128 + 2 ^ 96 + 2 ^ 32 + 1) * word product 12 +
      (2 * 2 ^ 224 + 2 ^ 160 + 2 ^ 128 + 2 * 2 ^ 96 - 2 ^ 64 + 2 ^ 32 + 2) * word product 13 +
      (2 * 2 ^ 224 + 2 ^ 192 + 2 ^ 160 + 2 * 2 ^ 128 + 2 ^ 96 - 2 ^ 64 + 2 * 2 ^ 32 + 2) * word product 14 +
      (3 * 2 ^ 224 + 2 ^ 192 + 2 * 2 ^ 160 + 2 ^ 128 + 2 ^ 96 + 2 * 2 ^ 32 + 2) * word product 15 := by
  have hstart : (⟨product.low, vliClear, vliClear, vliClear, 0⟩ : Folding).layout =
      ⟨product.low.val, [0, 0, 0, 0, 0, 0, 0, 0], [0, 0, 0, 0, 0, 0, 0, 0], [0, 0, 0, 0, 0, 0, 0, 0]⟩ := by
    rw [layout, words_vliClear, total, mul_zero, add_zero]
  rw [foldAll, total_last]
  simp (disch := decide) only [layout_set1, layout_set2, layout_set3, layout_zero1, layout_zero2, layout_zero3,
    layout_add1, layout_add3, layout_sub2, hstart, place, List.foldl_cons, List.foldl_nil, Nat.reduceDiv,
    List.set_cons_zero, List.set_cons_succ, ofWords]
  push_cast
  ring

/-! ### The reduction -/

theorem word_high (product : Product) (j : ℕ) : word product.high j = word product (8 + j) := by
  have hget : ∀ i, product.high.get i = product.get (32 + i) := fun i => by
    rw [Digits.get, Digits.get, Digits.high, List.getD_eq_getElem?_getD, List.getD_eq_getElem?_getD, List.getElem?_drop]
  rw [word, word, hget, hget, hget, hget, show 4 * (8 + j) = 32 + 4 * j by ring]
  rfl

theorem product_val_words (product : Product) :
    product.val = product.low.val + 2 ^ 256 * ofWords ((List.range 8).map fun j => word product (8 + j)) := by
  rw [product_val, val_words product.high, words, List.map_congr_left fun j _ => word_high product j]

theorem eccP_val : eccP.val = 2 ^ 256 - 2 ^ 224 - 2 ^ 96 + 2 ^ 64 - 1 := by decide +kernel

/-- What is folded away is a multiple of the prime. -/
theorem foldAll_total_mod (product : Product) : (foldAll product).total % eccP.val = product.val % eccP.val := by
  have hp : (eccP.val : ℤ) = 2 ^ 256 - 2 ^ 224 - 2 ^ 96 + 2 ^ 64 - 1 := by rw [eccP_val]; norm_num
  have hfolded : (product.val : ℤ) = (foldAll product).total + eccP.val * (word product 8 +
      (2 ^ 32 + 1) * word product 9 + (2 ^ 64 + 2 ^ 32 + 1) * word product 10 +
      (2 ^ 96 + 2 ^ 64 + 2 ^ 32 + 1) * word product 11 +
      (2 ^ 128 + 2 ^ 96 + 2 ^ 64 + 2 ^ 32 + 1) * word product 12 +
      (2 ^ 160 + 2 ^ 128 + 2 ^ 96 + 2 ^ 64 + 2 ^ 32 + 2) * word product 13 +
      (2 ^ 192 + 2 ^ 160 + 2 ^ 128 + 2 ^ 96 + 2 ^ 64 + 2 * 2 ^ 32 + 2) * word product 14 +
      (2 ^ 224 + 2 ^ 192 + 2 ^ 160 + 2 ^ 128 + 2 ^ 96 + 2 * 2 ^ 64 + 2 * 2 ^ 32 + 2) * word product 15) := by
    rw [product_val_words, foldAll_total, hp]
    simp only [List.range, List.range.loop, List.map_cons, List.map_nil, ofWords]
    push_cast
    ring
  rw [hfolded, Int.add_mul_emod_self_left]

/-- The lower half and eight words, however large, are below fifteen times the prime. -/
theorem foldAll_bounds (product : Product) :
    0 ≤ (foldAll product).total ∧ (foldAll product).total < 15 * eccP.val := by
  have hlow := vli_lt product.low
  have hw := word_lt product
  have h₈ := hw 8
  have h₉ := hw 9
  have h₁₀ := hw 10
  have h₁₁ := hw 11
  have h₁₂ := hw 12
  have h₁₃ := hw 13
  have h₁₄ := hw 14
  have h₁₅ := hw 15
  rw [foldAll_total, eccP_val]
  constructor <;> omega

/-- Taking the modulus away until the carry is gone and the rest is below it. -/
theorem takeDown_eq {mod : Vli} (hmod : 0 < mod.val) (n : ℕ) {fuel : ℕ} (hfuel : n + 1 ≤ fuel) {result : Vli}
    {carry : ℤ} (hcarry : 0 ≤ carry) (hlt : result.val + 2 ^ 256 * carry < (n + 1) * mod.val) :
    ∃ r, takeDown mod fuel result carry = some r ∧ (r.val : ℤ) = (result.val + 2 ^ 256 * carry) % mod.val := by
  have hm := vli_lt mod
  induction n generalizing fuel result carry with
  | zero =>
      obtain ⟨fuel, rfl⟩ := Nat.exists_eq_add_of_le' hfuel
      have hzero : carry = 0 := by omega
      have hstop : ¬ (carry ≠ 0 ∨ vliCmp mod result ≠ 1) := by
        rw [hzero, vliCmp_ne_one_iff]
        omega
      refine ⟨result, ?_, ?_⟩
      · rw [show fuel + (0 + 1) = fuel + 1 from rfl, takeDown, if_neg hstop]
      · rw [Int.emod_eq_of_lt (by omega) (by omega), hzero]
        omega
  | succ n ih =>
      obtain ⟨fuel, rfl⟩ := Nat.exists_eq_add_of_le' hfuel
      have hle : (mod.val : ℤ) ≤ (n + 1) * mod.val := le_mul_of_one_le_left (by omega) (by omega)
      rcases lt_or_ge ((result.val : ℤ) + 2 ^ 256 * carry) (mod.val : ℤ) with h | h
      · exact ih (by omega) hcarry (lt_of_lt_of_le h hle)
      · have hgo : carry ≠ 0 ∨ vliCmp mod result ≠ 1 := by
          rw [vliCmp_ne_one_iff]
          omega
        obtain ⟨hb, hsub⟩ := vliSub_spec result mod
        have hslt := vli_lt (vliSub result mod).2
        have hnext : ((vliSub result mod).2.val : ℤ) + 2 ^ 256 * (carry - (vliSub result mod).1.toNat) =
            result.val + 2 ^ 256 * carry - mod.val := by
          have hcast : ((vliSub result mod).2.val : ℤ) + mod.val =
              result.val + 2 ^ 256 * (vliSub result mod).1.toNat := mod_cast hsub
          linear_combination hcast
        rw [show fuel + (n + 1 + 1) = fuel + (n + 1) + 1 from rfl, takeDown, if_pos hgo]
        obtain ⟨r, hr, hval⟩ := @ih (fuel + (n + 1)) (by omega) (vliSub result mod).2
          (carry - (vliSub result mod).1.toNat) (by omega)
          (by rw [hnext]; push_cast at hlt; linarith)
        refine ⟨r, hr, ?_⟩
        rw [hval, hnext, Int.sub_emod_right]

/-- **`vli_mmod_fast` is the product modulo the prime**, for every product of 64 bytes. -/
theorem vliMmodFast_eq (product : Product) {fuel : ℕ} (hfuel : 15 ≤ fuel) :
    ∃ r, vliMmodFast fuel product eccP = some r ∧ r.val = product.val % eccP.val := by
  obtain ⟨hpos, hlt⟩ := foldAll_bounds product
  have hresult := vli_lt (foldAll product).result
  have htotal : (foldAll product).total = (foldAll product).result.val + 2 ^ 256 * (foldAll product).carry := rfl
  have hcarry : 0 ≤ (foldAll product).carry := by omega
  have hmod : 0 < eccP.val := by rw [eccP_val]; norm_num
  obtain ⟨r, hr, hval⟩ := @takeDown_eq eccP hmod 14 fuel hfuel (foldAll product).result _ hcarry
    (by rw [← htotal]; exact hlt)
  refine ⟨r, ?_, ?_⟩
  · rw [vliMmodFast, if_neg (by omega), hr]
  · rw [← htotal, foldAll_total_mod] at hval
    exact_mod_cast hval

/-- **The fast path is the plain one**: folding the product down gives what `vli_mod_mult` gets by shifting and taking
away, for every two factors, and for squares. -/
theorem vliModMultFast_eq_vliModMult (left right : Vli) :
    vliModMultFast 15 left right eccP = vliModMult 514 left right eccP ∧
      vliModSquareFast 15 left eccP = vliModMult 514 left left eccP := by
  have hsize : Nat.size left.val ≤ Nat.size eccP.val := by
    have h256 : Nat.size eccP.val = 256 := by
      rw [eccP_val]
      refine size_eq (by decide) fun j hj => ?_
      obtain rfl : j = 255 := by omega
      decide
    rw [h256]
    exact Nat.size_le.mpr (vli_lt left)
  have hpos : 0 < eccP.val := by rw [eccP_val]; norm_num
  have hplain (right : Vli) (product : Product) (hproduct : product.val = left.val * right.val) :
      vliMmodFast 15 product eccP = vliModMult 514 left right eccP := by
    obtain ⟨r, hr, hval⟩ := vliModMult_eq hpos hsize right
    obtain ⟨r', hr', hval'⟩ := vliMmodFast_eq product le_rfl
    rw [hr 514 le_rfl, hr']
    exact congrArg some (Digits.ext_val (by rw [hval, hval', hproduct]))
  exact ⟨hplain right _ (val_vliMult left right), hplain left _ (val_vliSquare left)⟩

end Httcutils
end TsbAgent
