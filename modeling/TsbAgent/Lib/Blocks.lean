/-
# A message in blocks

A function on a state and a block of `n` elements, run over the full blocks of a message: `chain` is the state after
them and `rest` what is left over.  A message can come in pieces: with what was left over in front of the next piece,
the state goes on as if the message were whole (`chain_append`, `rest_append`).
-/

import Mathlib.Data.List.Basic
import Mathlib.Algebra.Order.Ring.Nat
import Mathlib.Tactic.Ring

namespace TsbAgent
namespace Blocks

variable {α σ : Type*}

/-- `k` blocks of `n` elements. -/
def feed (f : σ → List α → σ) (n : ℕ) : ℕ → σ → List α → σ
  | 0, s, _ => s
  | k + 1, s, m => feed f n k (f s (m.take n)) (m.drop n)

/-- The state after the full blocks. -/
def chain (f : σ → List α → σ) (n : ℕ) (s : σ) (m : List α) : σ := feed f n (m.length / n) s m

/-- What is behind the full blocks. -/
def rest (n : ℕ) (m : List α) : List α := m.drop (m.length / n * n)

variable {f : σ → List α → σ} {n : ℕ}

theorem feed_add (j k : ℕ) (s : σ) (m : List α) :
    feed f n (j + k) s m = feed f n k (feed f n j s m) (m.drop (j * n)) := by
  induction j generalizing s m with
  | zero => rw [Nat.zero_add, Nat.zero_mul, List.drop_zero, feed]
  | succ j ih =>
      rw [Nat.add_right_comm, feed, ih, feed, List.drop_drop]
      congr 2
      ring

theorem feed_append {k : ℕ} (s : σ) {m : List α} (ys : List α) (h : k * n ≤ m.length) :
    feed f n k s (m ++ ys) = feed f n k s m := by
  induction k generalizing s m with
  | zero => rfl
  | succ k ih =>
      rw [Nat.succ_mul] at h
      rw [feed, feed, List.take_append_of_le_length (by omega), List.drop_append_of_le_length (by omega),
        ih _ (by rw [List.length_drop]; omega)]

theorem length_rest (m : List α) : (rest n m).length = m.length % n := by
  rw [rest, List.length_drop, Nat.mod_eq_sub_div_mul]

theorem rest_eq_self {m : List α} (h : m.length < n) : rest n m = m := by
  rw [rest, Nat.div_eq_of_lt h, Nat.zero_mul, List.drop_zero]

theorem chain_of_lt (s : σ) {m : List α} (h : m.length < n) : chain f n s m = s := by
  rw [chain, Nat.div_eq_of_lt h, feed]

theorem full_le (m : List α) : m.length / n * n ≤ m.length := Nat.div_mul_le_self _ _

/-- The blocks of a message and a piece: those of the message, and those of what it left over and the piece. -/
theorem length_append_div (hn : 0 < n) (m ys : List α) :
    (m ++ ys).length / n = m.length / n + (rest n m ++ ys).length / n := by
  have hsplit : m.length + ys.length = m.length % n + ys.length + m.length / n * n := by
    rw [Nat.add_right_comm, Nat.mod_add_div']
  rw [List.length_append, List.length_append, length_rest, hsplit, Nat.add_mul_div_right _ _ hn, Nat.add_comm]

/-- **A piece of a message** goes on from the state after what came before. -/
theorem chain_append (hn : 0 < n) (s : σ) (m ys : List α) :
    chain f n s (m ++ ys) = chain f n (chain f n s m) (rest n m ++ ys) := by
  rw [chain, length_append_div hn, feed_add, feed_append _ _ (full_le m),
    List.drop_append_of_le_length (full_le m)]
  rfl

theorem rest_append (hn : 0 < n) (m ys : List α) : rest n (m ++ ys) = rest n (rest n m ++ ys) := by
  rw [rest, length_append_div hn, Nat.add_mul, ← List.drop_drop, List.drop_append_of_le_length (full_le m)]
  rfl

/-- One block. -/
theorem chain_block (hn : 0 < n) (s : σ) {b : List α} (hb : b.length = n) (ys : List α) :
    chain f n s (b ++ ys) = chain f n (f s b) ys := by
  have hone : b.length / n = 1 := by rw [hb, Nat.div_self hn]
  have hrest : rest n b = [] := List.length_eq_zero_iff.mp (by rw [length_rest, hb, Nat.mod_self])
  have hchain : chain f n s b = f s b := by rw [chain, hone, feed, feed, List.take_of_length_le hb.le]
  rw [chain_append hn, hrest, List.nil_append, hchain]

theorem rest_block (hn : 0 < n) {b : List α} (hb : b.length = n) (ys : List α) : rest n (b ++ ys) = rest n ys := by
  have hrest : rest n b = [] := List.length_eq_zero_iff.mp (by rw [length_rest, hb, Nat.mod_self])
  rw [rest_append hn, hrest, List.nil_append]

end Blocks
end TsbAgent
