/-
# Lists of records in a buffer

`pack` writes records one after the other, each into a slot of its own size; what is left of
a slot holds what the memory held before.  `unpack` reads a number of records, where each
read gives a record and the size of its slot.  When every record reads back from its slot,
whatever its rest and whatever follows, the list reads back (`unpack_pack`).  In the other
direction, a list that was read took no more than the buffer (`unpack_fits`).

A read outside the buffer is a `fault`, which no code of the reader reports.
-/

import TsbAgent.Lib.Libc
import Mathlib.Algebra.BigOperators.Group.List.Basic
import Mathlib.Algebra.Order.Ring.Nat

namespace TsbAgent
namespace Codec

open Libc

variable {α β ε : Type*}

/-- Why a reader stops: an error that it returns, or an access outside the buffer. -/
inductive Failure (ε : Type*)
  | error (e : ε)
  | fault
deriving DecidableEq

/-- `n` bytes that a memory holds from `pos` on. -/
def rest (fill : ℕ → UInt8) (pos n : ℕ) : Bytes := (List.range n).map fun j => fill (pos + j)

/-- The records from `pos` on, each in a slot of its size. -/
def pack (fill : ℕ → UInt8) (enc : α → Bytes) (size : α → ℕ) : ℕ → List α → Bytes
  | _, [] => []
  | pos, x :: xs =>
      enc x ++ (rest fill (pos + (enc x).length) (size x - (enc x).length) ++
        pack fill enc size (pos + size x) xs)

/-- `for (i = 0; i < n; i++) { ... op += size; }`: the records from `op` on, where the memory
from `op` on is `p`. -/
def unpack (read : ℕ → Bytes → Except ε (β × ℕ)) : ℕ → ℕ → Bytes → Except ε (List β)
  | 0, _, _ => .ok []
  | n + 1, op, p =>
      match read op p with
      | .error e => .error e
      | .ok (x, s) => (unpack read n (op + s) (p.drop s)).map (x :: ·)

section Pack

variable {fill : ℕ → UInt8} {enc : α → Bytes} {size : α → ℕ} {pos op len : ℕ} {xs : List α} {x : α}
  {tail : Bytes} {read : ℕ → Bytes → Except ε (β × ℕ)} {view : α → β}

@[simp] theorem length_rest (fill : ℕ → UInt8) (pos n : ℕ) : (rest fill pos n).length = n := by
  simp [rest]

theorem length_pack (henc : ∀ x ∈ xs, (enc x).length ≤ size x) :
    (pack fill enc size pos xs).length = (xs.map size).sum := by
  induction xs generalizing pos with
  | nil => rfl
  | cons x xs ih =>
      obtain ⟨hx, hxs⟩ := List.forall_mem_cons.mp henc
      rw [pack, List.length_append, List.length_append, length_rest, ih hxs, List.map_cons, List.sum_cons]
      omega

theorem length_pack_const {n : ℕ} (henc : ∀ x ∈ xs, (enc x).length ≤ n) :
    (pack fill enc (fun _ => n) pos xs).length = n * xs.length := by
  rw [length_pack henc]
  simp [Nat.mul_comm]

theorem mul_length_le_sum {n : ℕ} (h : ∀ x ∈ xs, n ≤ size x) : n * xs.length ≤ (xs.map size).sum := by
  induction xs with
  | nil => simp
  | cons x xs ih =>
      obtain ⟨hx, hxs⟩ := List.forall_mem_cons.mp h
      have hrest := ih hxs
      rw [List.map_cons, List.sum_cons, List.length_cons, Nat.mul_succ]
      omega

/-- Records that fill their slots are just put together. -/
theorem pack_eq_flatMap (henc : ∀ x ∈ xs, (enc x).length = size x) :
    pack fill enc size pos xs = xs.flatMap enc := by
  induction xs generalizing pos with
  | nil => rfl
  | cons x xs ih =>
      obtain ⟨hx, hxs⟩ := List.forall_mem_cons.mp henc
      rw [pack, ih hxs, hx, Nat.sub_self, List.flatMap_cons]
      rfl

/-- The record reads back from its slot. -/
def ReadsBack (read : ℕ → Bytes → Except ε (β × ℕ)) (len : ℕ) (enc : α → Bytes) (size : α → ℕ)
    (view : α → β) (x : α) : Prop :=
  ∀ (op : ℕ) (pad tail : Bytes), op + size x ≤ len → pad.length = size x - (enc x).length →
    read op (enc x ++ (pad ++ tail)) = .ok (view x, size x)

/-- **A packed list reads back.** -/
theorem unpack_pack (henc : ∀ x ∈ xs, (enc x).length ≤ size x)
    (hread : ∀ x ∈ xs, ReadsBack read len enc size view x) (hlen : op + (xs.map size).sum ≤ len) :
    unpack read xs.length op (pack fill enc size pos xs ++ tail) = .ok (xs.map view) := by
  induction xs generalizing pos op with
  | nil => rfl
  | cons x xs ih =>
      obtain ⟨hx, hxs⟩ := List.forall_mem_cons.mp henc
      obtain ⟨hreadx, hreadxs⟩ := List.forall_mem_cons.mp hread
      rw [List.map_cons, List.sum_cons] at hlen
      have hslot : (enc x ++ rest fill (pos + (enc x).length) (size x - (enc x).length)).length = size x := by
        rw [List.length_append, length_rest]
        omega
      have hdrop : (enc x ++ (rest fill (pos + (enc x).length) (size x - (enc x).length) ++
          (pack fill enc size (pos + size x) xs ++ tail))).drop (size x) =
            pack fill enc size (pos + size x) xs ++ tail := by
        rw [← List.append_assoc]
        exact List.drop_left' hslot
      rw [List.length_cons, pack, unpack, List.append_assoc, List.append_assoc,
        hreadx op _ _ (by omega) (length_rest _ _ _)]
      dsimp only
      rw [hdrop, ih hxs hreadxs (by omega), List.map_cons]
      rfl

/-- **What was read fits in the buffer,** when each record says so of its slot.  `m` is what the
slots are aligned to. -/
theorem unpack_fits {stride : β → ℕ} {m n : ℕ} {p : Bytes} {ys : List β}
    (hread : ∀ op p y s, m ∣ p.length → read op p = .ok (y, s) → s = stride y ∧ m ∣ s ∧ s ≤ p.length)
    (hm : m ∣ p.length) (h : unpack read n op p = .ok ys) :
    ys.length = n ∧ (ys.map stride).sum ≤ p.length := by
  induction n generalizing op p ys with
  | zero =>
      obtain rfl := Except.ok.inj h
      exact ⟨rfl, Nat.zero_le _⟩
  | succ n ih =>
      rw [unpack] at h
      split at h
      · exact absurd h (by simp)
      · rename_i y s hy
        obtain ⟨rfl, hs, hle⟩ := hread op p y s hm hy
        have hrest : m ∣ (p.drop (stride y)).length := by
          rw [List.length_drop]
          exact Nat.dvd_sub hm hs
        cases hrec : unpack read n (op + stride y) (p.drop (stride y)) with
        | error e =>
            rw [hrec] at h
            exact absurd h (by simp [Except.map])
        | ok zs =>
            rw [hrec] at h
            obtain rfl : y :: zs = ys := Except.ok.inj h
            obtain ⟨hn, hsum⟩ := ih hrest hrec
            rw [List.length_drop] at hsum
            rw [List.length_cons, hn, List.map_cons, List.sum_cons]
            exact ⟨rfl, by omega⟩

/-- **Every record was read from a part of the buffer.** -/
theorem unpack_forall {n : ℕ} {p : Bytes} {ys : List β} {q : β → Prop}
    (hread : ∀ op p' y s, p'.length ≤ p.length → read op p' = .ok (y, s) → q y)
    (h : unpack read n op p = .ok ys) : ∀ y ∈ ys, q y := by
  induction n generalizing op p ys with
  | zero =>
      obtain rfl := Except.ok.inj h
      nofun
  | succ n ih =>
      rw [unpack] at h
      split at h
      · exact absurd h (by simp)
      · rename_i y s hy
        have hle : (p.drop s).length ≤ p.length := by
          rw [List.length_drop]
          exact Nat.sub_le _ _
        cases hrec : unpack read n (op + s) (p.drop s) with
        | error e =>
            rw [hrec] at h
            exact absurd h (by simp [Except.map])
        | ok zs =>
            rw [hrec] at h
            obtain rfl : y :: zs = ys := Except.ok.inj h
            have hzs := ih (fun op p' z s hp => hread op p' z s (hp.trans hle)) hrec
            exact List.forall_mem_cons.mpr ⟨hread op p y s le_rfl hy, hzs⟩

end Pack

end Codec
end TsbAgent
