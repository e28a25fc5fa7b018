/-
# Bounded queues with a history

A reader's queue, with the history of what was put in it, what its reader took
and what it lost.  A `Fifo` cannot be out of order: what was taken and what is
pending, one after the other, is a subsequence of what was put (`ordered`), and
nothing is taken twice or lost without being counted as dropped (`complete`).

A bounded queue drops its oldest entries (`limit`).  `filter_rtake` is why a
shared buffer that forgets its oldest items is a bounded queue for each of its
readers: when every entry a reader has not yet read is followed only by such
entries, the reader's view of the last `n` items is the last `n` items of the
reader's view.
-/

import Mathlib.Data.List.DropRight
import Mathlib.Data.List.Perm.Basic
import Mathlib.Tactic.Common

namespace TsbAgent

/-- A queue and its history. -/
structure Fifo (α : Type*) where
  put : List α
  received : List α
  dropped : List α
  pending : List α
  ordered : (received ++ pending).Sublist put
  complete : put.Perm (received ++ pending ++ dropped)

namespace Fifo

variable {α : Type*}

/-- A queue at the time of the subscription. -/
def empty : Fifo α := ⟨[], [], [], [], List.Sublist.refl _, List.Perm.refl _⟩

/-- An entry arrives. -/
def offer (f : Fifo α) (x : α) : Fifo α where
  put := f.put ++ [x]
  received := f.received
  dropped := f.dropped
  pending := f.pending ++ [x]
  ordered := by
    rw [← List.append_assoc]
    exact f.ordered.append (List.Sublist.refl _)
  complete := by
    refine (f.complete.append_right [x]).trans ?_
    rw [List.append_assoc, List.append_assoc, List.append_assoc, List.append_assoc]
    exact (List.perm_append_comm.append_left _).append_left _

/-- The reader takes the first `k` entries. -/
def take (f : Fifo α) (k : ℕ) : Fifo α where
  put := f.put
  received := f.received ++ f.pending.take k
  dropped := f.dropped
  pending := f.pending.drop k
  ordered := by
    rw [List.append_assoc, List.take_append_drop]
    exact f.ordered
  complete := by
    rw [List.append_assoc f.received, List.take_append_drop]
    exact f.complete

/-- All but the last `n` entries are dropped. -/
def limit (f : Fifo α) (n : ℕ) : Fifo α where
  put := f.put
  received := f.received
  dropped := f.pending.take (f.pending.length - n) ++ f.dropped
  pending := f.pending.rtake n
  ordered := ((List.drop_sublist _ _).append_left _).trans f.ordered
  complete := by
    refine f.complete.trans ?_
    rw [← List.append_assoc, List.append_assoc f.received (f.pending.rtake n)]
    refine List.Perm.append_right _ (List.Perm.append_left _ ?_)
    have hsplit := List.take_append_drop (f.pending.length - n) f.pending
    exact (List.Perm.of_eq hsplit.symm).trans List.perm_append_comm

/-- **Without a drop nothing is missing.** -/
theorem put_eq_of_dropped_nil (f : Fifo α) (h : f.dropped = []) : f.put = f.received ++ f.pending := by
  have hlen := f.complete.length_eq
  rw [h, List.append_nil] at hlen
  exact (f.ordered.eq_of_length hlen.symm).symm

end Fifo

/-- **The last items a reader sees are the last items**, when everything after an
item the reader sees is seen too. -/
theorem filter_rtake {α : Type*} {p : α → Bool} {l : List α}
    (h : l.Pairwise fun x y => p x = true → p y = true) (n : ℕ) :
    (l.rtake n).filter p = (l.filter p).rtake n := by
  have hdrop : ∀ k, (l.drop k).filter p =
      (l.filter p).drop ((l.filter p).length - (l.length - k)) := by
    induction l with
    | nil => simp
    | cons x l ih =>
        obtain ⟨hx, hl⟩ := List.pairwise_cons.mp h
        intro k
        rcases k with _ | k
        · have hle := List.length_filter_le p (x :: l)
          rw [Nat.sub_zero, Nat.sub_eq_zero_of_le hle, List.drop_zero, List.drop_zero]
        · cases hp : p x with
          | false => simp [hp, ih hl k]
          | true =>
              have hall : l.filter p = l := List.filter_eq_self.mpr fun y hy => hx y hy hp
              have hall' : (l.drop k).filter p = l.drop k :=
                List.filter_eq_self.mpr fun y hy => hx y (List.mem_of_mem_drop hy) hp
              rw [List.filter_cons_of_pos hp, hall, List.length_cons, List.drop_succ_cons, hall']
              rcases Nat.le_total k l.length with hk | hk
              · rw [show l.length + 1 - (l.length + 1 - (k + 1)) = k + 1 by omega,
                  List.drop_succ_cons]
              · rw [List.drop_eq_nil_of_le hk, List.drop_eq_nil_of_le]
                rw [List.length_cons]
                omega
  have hle := List.length_filter_le p l
  rw [List.rtake, List.rtake, hdrop]
  congr 1
  omega

theorem rtake_rtake_append {α : Type*} (l : List α) (x : α) (n : ℕ) :
    (l.rtake n ++ [x]).rtake n = (l ++ [x]).rtake n := by
  rcases n with _ | n
  · rw [List.rtake_zero, List.rtake_zero]
  · rw [List.rtake_concat_succ, List.rtake_concat_succ, List.rtake, List.rtake, List.rtake,
      List.length_drop, List.drop_drop]
    congr 2
    omega

end TsbAgent
