/-
# Walking over records of varying size

A buffer of records that each say how long they are: the next one starts where the size
of this one ends.  `walk size n p` is where the `n`-th record after `p` starts, in the
arithmetic of the offsets, which may wrap around.  `walkUntil` is the same loop with a
`break` at the first record that is bad; it ends where `walk` does when it does not break
(`walkUntil_eq`), and it does not break when no record on the way is bad
(`walkUntil_fst_iff`).

Over `ℕ` the walk is the true layout.  A walk whose arithmetic is a cast of `ℕ` follows it as
long as the records start below a bound up to which the cast says what the true size is
(`walk_cast`).
-/

import Mathlib.Algebra.Order.Ring.Nat
import Mathlib.Tactic.Common

namespace TsbAgent
namespace Records

variable {α : Type*} [Add α] (size : α → α) (bad : α → Bool)

/-- `for (i = 0; i < n; i++) offset += size(buffer + offset);`. -/
def walk : ℕ → α → α
  | 0, p => p
  | n + 1, p => walk n (p + size p)

/-- The loop with a `break` at a bad record: whether it came to its end, and the offset
there. -/
def walkUntil : ℕ → α → Bool × α
  | 0, p => (true, p)
  | n + 1, p => if bad p then (false, p) else walkUntil n (p + size p)

variable {size bad}

theorem walkUntil_fst_iff {n : ℕ} {p : α} :
    (walkUntil size bad n p).1 = true ↔ ∀ i < n, bad (walk size i p) = false := by
  induction n generalizing p with
  | zero => simp [walkUntil]
  | succ n ih =>
      rw [Nat.forall_lt_succ_left]
      cases hp : bad p with
      | true => simp [walkUntil, walk, hp]
      | false => simp [walkUntil, walk, hp, ih]

theorem walkUntil_eq {n : ℕ} {p : α} (h : (walkUntil size bad n p).1 = true) :
    (walkUntil size bad n p).2 = walk size n p := by
  induction n generalizing p with
  | zero => rfl
  | succ n ih =>
      cases hp : bad p with
      | true => simp [walkUntil, hp] at h
      | false =>
          simp only [walkUntil, hp, Bool.false_eq_true, if_false, walk] at h ⊢
          exact ih h

theorem walk_succ (n : ℕ) (p : α) : walk size (n + 1) p = walk size n p + size (walk size n p) := by
  induction n generalizing p with
  | zero => rfl
  | succ n ih => rw [walk, ih, walk]

/-- A walk in other arithmetic follows the true one while the records start below `M`. -/
theorem walk_cast {cast : ℕ → α} {layout : ℕ → ℕ} {M n p : ℕ}
    (hadd : ∀ a b, cast (a + b) = cast a + cast b)
    (hsize : ∀ q < M, size (cast q) = cast (layout q)) (h : ∀ i < n, walk layout i p < M) :
    walk size n (cast p) = cast (walk layout n p) := by
  induction n with
  | zero => rfl
  | succ n ih =>
      rw [walk_succ, walk_succ, ih fun i hi => h i (by omega), hsize _ (h n (Nat.lt_add_one n)), hadd]

section Layout

variable {size : ℕ → ℕ} {header : ℕ}

theorem walk_le_succ (n p : ℕ) : walk size n p ≤ walk size (n + 1) p := by
  rw [walk_succ]
  exact Nat.le_add_right _ _

theorem walk_mono {i n : ℕ} (h : i ≤ n) (p : ℕ) : walk size i p ≤ walk size n p := by
  induction h with
  | refl => exact le_rfl
  | step _ ih => exact ih.trans (walk_le_succ _ p)

/-- Every header is inside the records, where a record is no shorter than its header. -/
theorem walk_header_le (hsize : ∀ q, header ≤ size q) {i n : ℕ} (h : i < n) (p : ℕ) :
    walk size i p + header ≤ walk size n p :=
  calc walk size i p + header ≤ walk size i p + size (walk size i p) := Nat.add_le_add_left (hsize _) _
    _ = walk size (i + 1) p := (walk_succ i p).symm
    _ ≤ walk size n p := walk_mono h p

/-- The headers alone take their room. -/
theorem mul_header_le_walk (hsize : ∀ q, header ≤ size q) (n p : ℕ) :
    n * header ≤ walk size n p := by
  induction n with
  | zero => simp
  | succ n ih =>
      have hlast := walk_header_le hsize (Nat.lt_add_one n) p
      rw [Nat.succ_mul]
      omega

end Layout

end Records
end TsbAgent
