/-
# Reading and writing whole files

`httc_util_file_read_full` of `tss-main/httcutils/src/file.c`, which most of the TCS and
the TCF read their files with.  It gives nothing for an empty file and nothing for a file
of more than 100 MiB.  `httc_util_file_read_offset` is the same for what follows an offset.

The writers of the same file return how many bytes were written.  Where the file cannot be
opened `httc_util_file_write` returns -1 and the others 0, which is also what they return
for no bytes; none of them looks at what `fclose` returns.
-/

import TsbAgent.Lib.File

namespace TsbAgent
namespace Httcutils

open Libc File

/-- `1024 * 1024 * 100`. -/
def maxFileSize : ℕ := 104857600

/-- What the system grants a reader: `fopen`, `malloc` and a full `fread`. -/
structure ReadIo where
  opens : Bool
  malloc : Bool
  reads : Bool

/-- `httc_util_file_read_full`. -/
def httcUtilFileReadFull (io : ReadIo) (file : Option Bytes) : Option Bytes :=
  match file with
  | none => none
  | some f =>
      if ¬ io.opens then none
      else if f.length > maxFileSize then none
      else if f.length = 0 then none
      else if ¬ io.malloc then none
      else if ¬ io.reads then none
      else some f

/-- The system grants everything that the reader asks for. -/
structure ReadIo.Granted (io : ReadIo) : Prop where
  opens : io.opens = true
  malloc : io.malloc = true
  reads : io.reads = true

theorem httcUtilFileReadFull_eq_some {io : ReadIo} {f d : Bytes} :
    httcUtilFileReadFull io (some f) = some d ↔
      io.Granted ∧ f.length ≤ maxFileSize ∧ f ≠ [] ∧ f = d := by
  unfold httcUtilFileReadFull
  by_cases ho : io.opens = true
  · by_cases hm : io.malloc = true
    · by_cases hr : io.reads = true
      · have hg : io.Granted := ⟨ho, hm, hr⟩
        simp only [ho, hm, hr, not_true_eq_false, if_false, hg, true_and]
        by_cases hl : f.length > maxFileSize
        · simp [hl]
        · by_cases h0 : f.length = 0
          · simp [List.length_eq_zero_iff.mp h0]
          · have hne : f ≠ [] := fun h => h0 (by rw [h]; rfl)
            simp [hl, hne, Nat.le_of_not_lt hl]
      · have hg : ¬ io.Granted := fun h => hr h.reads
        simp [hr, hg]
    · have hg : ¬ io.Granted := fun h => hm h.malloc
      simp [hm, hg]
  · have hg : ¬ io.Granted := fun h => ho h.opens
    simp [ho, hg]

/-- `httc_util_file_read_offset`; an offset behind the end wraps around. -/
def httcUtilFileReadOffset (io : ReadIo) (file : Option Bytes) (offset : ℕ) : Option Bytes :=
  match file with
  | none => none
  | some f => if offset > f.length then none else httcUtilFileReadFull io (some (f.drop offset))

/-- `httc_util_file_write`: the old file is gone once the new one is opened. -/
def httcUtilFileWrite (io : Stream) (file : Option Bytes) (b : Bytes) : ℤ × Option Bytes :=
  if ¬ io.opens then (-1, file)
  else ((b.take io.room).length, some (io.kept (b.take io.room)))

/-- `httc_util_file_write_offset`: the file must be there. -/
def httcUtilFileWriteOffset (io : Stream) (file : Option Bytes) (b : Bytes) (off : ℕ) :
    ℤ × Option Bytes :=
  match file with
  | none => (0, none)
  | some f =>
      if ¬ io.opens then (0, some f)
      else ((b.take io.room).length, some (fwriteAt f off (io.kept (b.take io.room))))

/-- The system takes everything that the writer gives, up to `n` bytes, and keeps it. -/
structure Takes (io : Stream) (n : ℕ) : Prop where
  opens : io.opens = true
  room : n ≤ io.room
  lost : io.lost = 0

section Writers

variable {io : Stream} {file : Option Bytes} {b f : Bytes} {off n : ℕ}

theorem kept_of_takes (h : Takes io n) (hb : b.length ≤ n) : io.kept (b.take io.room) = b := by
  rw [List.take_of_length_le (hb.trans h.room), Stream.kept, h.lost, Nat.sub_zero, List.take_length]

theorem httcUtilFileWrite_eq (h : Takes io n) (hb : b.length ≤ n) :
    httcUtilFileWrite io file b = ((b.length : ℤ), some b) := by
  rw [httcUtilFileWrite, if_neg (by simp [h.opens]), kept_of_takes h hb,
    List.take_of_length_le (hb.trans h.room)]

theorem httcUtilFileWriteOffset_eq (h : Takes io n) (hb : b.length ≤ n) :
    httcUtilFileWriteOffset io (some f) b off = ((b.length : ℤ), some (fwriteAt f off b)) := by
  rw [httcUtilFileWriteOffset, if_neg (by simp [h.opens]), kept_of_takes h hb,
    List.take_of_length_le (hb.trans h.room)]

end Writers

end Httcutils
end TsbAgent
