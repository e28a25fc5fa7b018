/-
# Files as bytes

A file is its bytes, `none` when it does not exist.  `patch` writes bytes at an offset
and leaves the rest alone, as `fwrite` after `fseek` and `kernel_write` do; `Stream` says
how the system treats one opened file: whether it opens, how many bytes it takes, and how
many of the last ones get lost when the buffers are flushed by `fclose`.
-/

import TsbAgent.Lib.Libc
import Mathlib.Algebra.Order.Ring.Nat

namespace TsbAgent
namespace File

open Libc

/-- The file after `b` has been written at `off`; a gap reads as zeros. -/
def patch (f : Bytes) (off : ℕ) (b : Bytes) : Bytes :=
  f.take off ++ List.replicate (off - f.length) 0 ++ b ++ f.drop (off + b.length)

/-- The file after `fwrite` of `b` at `off`: where nothing is written no gap comes up. -/
def fwriteAt (f : Bytes) (off : ℕ) (b : Bytes) : Bytes := if b = [] then f else patch f off b

/-- How the system treats one opened stream. -/
structure Stream where
  opens : Bool
  room : ℕ
  lost : ℕ

/-- What is left of the bytes after `fclose`. -/
def Stream.kept (s : Stream) (b : Bytes) : Bytes := b.take (b.length - s.lost)

/-- The length of a file, zero when it does not exist. -/
def size (f : Option Bytes) : ℕ := (f.getD []).length

section Patch

variable {c f b : Bytes} {off : ℕ}

theorem patch_zero : patch f 0 b = b ++ f.drop b.length := by
  simp [patch]

/-- Writing at the end appends. -/
theorem patch_end : patch f f.length b = f ++ b := by
  simp [patch]

/-- Writing behind the first bytes. -/
theorem patch_append_left (c f b : Bytes) (k : ℕ) : patch (c ++ f) (c.length + k) b = c ++ patch f k b := by
  simp only [patch, List.take_append, List.drop_append, List.length_append, List.append_assoc,
    List.take_of_length_le (Nat.le_add_right c.length k), Nat.add_sub_cancel_left]
  rw [List.drop_eq_nil_of_le (show c.length ≤ c.length + k + b.length by omega), List.nil_append,
    Nat.add_sub_add_left, Nat.add_assoc, Nat.add_sub_cancel_left]

/-- Writing inside the first bytes, up to their end. -/
theorem patch_append_right {k : ℕ} (h : c.length = k + b.length) : patch (c ++ f) k b = c.take k ++ b ++ f := by
  simp only [patch, List.take_append, List.length_append, ← h, List.drop_left]
  rw [Nat.sub_eq_zero_of_le (by omega), Nat.sub_eq_zero_of_le (by omega), List.take_zero, List.append_nil,
    List.replicate_zero, List.append_nil]

/-- Writing over the end. -/
theorem patch_tail {k : ℕ} (hk : k ≤ c.length) (h : c.length ≤ k + b.length) : patch c k b = c.take k ++ b := by
  rw [patch, Nat.sub_eq_zero_of_le hk, List.replicate_zero, List.append_nil, List.drop_eq_nil_of_le h,
    List.append_nil]

theorem length_patch : (patch f off b).length = max f.length (off + b.length) := by
  simp only [patch, List.length_append, List.length_take, List.length_replicate, List.length_drop]
  omega

@[simp] theorem fwriteAt_nil : fwriteAt f off [] = f := if_pos rfl

theorem fwriteAt_of_ne_nil (h : b ≠ []) : fwriteAt f off b = patch f off b := if_neg h

/-- Writing where the file ends appends. -/
theorem fwriteAt_end : fwriteAt f f.length b = f ++ b := by
  rcases eq_or_ne b [] with rfl | hb
  · rw [fwriteAt_nil, List.append_nil]
  · rw [fwriteAt_of_ne_nil hb, patch_end]

/-- Writing behind the end leaves a gap of zeros. -/
theorem fwriteAt_gap (hb : b ≠ []) (h : f.length ≤ off) :
    fwriteAt f off b = f ++ (List.replicate (off - f.length) 0 ++ b) := by
  rw [fwriteAt_of_ne_nil hb, patch, List.take_of_length_le h, List.drop_eq_nil_of_le (by omega),
    List.append_nil, List.append_assoc]

/-- Two writes one behind the other are one. -/
theorem fwriteAt_fwriteAt {a : Bytes} (h : f.length ≤ off) :
    fwriteAt (fwriteAt f off a) (off + a.length) b = fwriteAt f off (a ++ b) := by
  rcases eq_or_ne a [] with rfl | ha
  · rw [fwriteAt_nil, List.length_nil, Nat.add_zero, List.nil_append]
  · have hend : off + a.length = (f ++ (List.replicate (off - f.length) 0 ++ a)).length := by
      simp only [List.length_append, List.length_replicate]
      omega
    rw [fwriteAt_gap ha h, hend, fwriteAt_end, fwriteAt_gap (List.append_ne_nil_of_left_ne_nil ha b) h]
    simp only [List.append_assoc]

@[simp] theorem Stream.length_kept (s : Stream) : (s.kept b).length = b.length - s.lost := by
  simp [Stream.kept]

end Patch

end File
end TsbAgent
