/-
# Reading a file in pieces

A read gets what it is asked for, or less, but something as long as there is something (`Reads.got`).  Two loops
read a file so: `readTo` until a given offset is reached, and `readAll` until nothing more comes.

`readAll` gets the rest of the file, whatever the reads get (`readAll_eq`).  `readTo` stops at the first offset
that is not before its target (`First`), which need not be the target; it has then got the file up to there
(`readTo_eq`).  In a file that is too short it goes on for ever (`readTo_eq_none`).
-/

import Mathlib.Data.List.Basic
import Mathlib.Algebra.Order.Ring.Nat

namespace TsbAgent

/-- How much is asked for, and how much the reads get at most, each in turn. -/
structure Reads where
  limit : ℕ
  short : ℕ → ℕ
  limit_pos : 0 < limit
  short_pos : ∀ i, 0 < short i

namespace Reads

variable {α : Type*}

/-- What the read `i` gets at `offset` in a file of `size` bytes. -/
def got (r : Reads) (size i offset : ℕ) : ℕ := min (min r.limit (r.short i)) (size - offset)

/-- The offset before the read `i`, from the start of the file. -/
def offset (r : Reads) (size : ℕ) : ℕ → ℕ
  | 0 => 0
  | i + 1 => r.offset size i + r.got size i (r.offset size i)

/-- Reading until `target` is reached, from the read `i` on: the number of reads, the offset, and the bytes. -/
def readTo (r : Reads) (file : List α) (target : ℕ) : ℕ → ℕ → ℕ → List α → Option (ℕ × ℕ × List α)
  | 0, _, _, _ => none
  | fuel + 1, i, o, acc =>
      if target ≤ o then some (i, o, acc)
      else
        let n := r.got file.length i o
        readTo r file target fuel (i + 1) (o + n) (acc ++ (file.drop o).take n)

/-- Reading until nothing more comes. -/
def readAll (r : Reads) (file : List α) : ℕ → ℕ → ℕ → List α → Option (List α)
  | 0, _, _, _ => none
  | fuel + 1, i, o, acc =>
      let n := r.got file.length i o
      if n = 0 then some acc
      else readAll r file fuel (i + 1) (o + n) (acc ++ (file.drop o).take n)

/-- The first read that does not start before `target`. -/
def First (r : Reads) (size target k : ℕ) : Prop := target ≤ r.offset size k ∧ ∀ j < k, r.offset size j < target

variable {r : Reads} {file acc out : List α} {size target fuel i k o : ℕ}

theorem got_pos (h : o < size) : 0 < r.got size i o := by
  have hlimit := r.limit_pos
  have hshort := r.short_pos i
  rw [got]
  omega

theorem got_eq_zero_iff : r.got size i o = 0 ↔ size ≤ o := by
  constructor
  · intro h
    by_contra hlt
    exact absurd h (got_pos (not_le.mp hlt)).ne'
  · intro h
    rw [got]
    omega

theorem add_got_le (h : o ≤ size) : o + r.got size i o ≤ size := by
  rw [got]
  omega

theorem offset_le (r : Reads) (size i : ℕ) : r.offset size i ≤ size := by
  induction i with
  | zero => exact Nat.zero_le _
  | succ i ih => exact add_got_le ih

/-- The bytes so far, and those of one more read. -/
theorem take_append_got (file : List α) (o n : ℕ) : file.take o ++ (file.drop o).take n = file.take (o + n) :=
  (List.take_add ..).symm

theorem First.unique {k' : ℕ} (h : r.First size target k) (h' : r.First size target k') : k = k' := by
  rcases lt_trichotomy k k' with hlt | heq | hlt
  · exact absurd h.1 (not_le.mpr (h'.2 k hlt))
  · exact heq
  · exact absurd h'.1 (not_le.mpr (h.2 k' hlt))

/-! ### Up to an offset -/

/-- **Where `readTo` stops**, and what it has got. -/
theorem readTo_eq {res : ℕ × ℕ × List α} (hbefore : ∀ j < i, r.offset file.length j < target)
    (h : r.readTo file target fuel i (r.offset file.length i) (file.take (r.offset file.length i)) = some res) :
    ∃ k, r.First file.length target k ∧ res = (k, r.offset file.length k, file.take (r.offset file.length k)) := by
  induction fuel generalizing i with
  | zero => cases h
  | succ fuel ih =>
      rw [readTo] at h
      rcases Nat.lt_or_ge (r.offset file.length i) target with hlt | hge
      · rw [if_neg (not_le.mpr hlt)] at h
        dsimp only at h
        rw [take_append_got] at h
        refine @ih (i + 1) (fun j hj => ?_) h
        rcases Nat.lt_succ_iff_lt_or_eq.mp hj with hj | rfl
        · exact hbefore j hj
        · exact hlt
      · rw [if_pos hge] at h
        exact ⟨i, ⟨hge, hbefore⟩, (Option.some.inj h).symm⟩

/-- A file that is long enough is read up to the target. -/
theorem readTo_isSome (hsize : target ≤ file.length) (hfuel : target - o < fuel) :
    (r.readTo file target fuel i o acc).isSome = true := by
  induction fuel generalizing i o acc with
  | zero => exact absurd hfuel (Nat.not_lt_zero _)
  | succ fuel ih =>
      rw [readTo]
      rcases Nat.lt_or_ge o target with hlt | hge
      · rw [if_neg (not_le.mpr hlt)]
        have hpos : 0 < r.got file.length i o := got_pos (by omega)
        exact ih (by omega)
      · rw [if_pos hge]
        rfl

/-- A file that is too short is read for ever. -/
theorem readTo_eq_none (hsize : file.length < target) (ho : o ≤ file.length) :
    r.readTo file target fuel i o acc = none := by
  induction fuel generalizing i o acc with
  | zero => rfl
  | succ fuel ih =>
      rw [readTo, if_neg (by omega)]
      exact ih (add_got_le ho)

/-! ### To the end -/

/-- **`readAll` gets the rest of the file.** -/
theorem readAll_eq (h : r.readAll file fuel i o acc = some out) : out = acc ++ file.drop o := by
  induction fuel generalizing i o acc with
  | zero => cases h
  | succ fuel ih =>
      rw [readAll] at h
      rcases eq_or_ne (r.got file.length i o) 0 with hzero | hne
      · rw [if_pos hzero] at h
        rw [← Option.some.inj h, List.drop_of_length_le (got_eq_zero_iff.mp hzero), List.append_nil]
      · rw [if_neg hne] at h
        rw [ih h, List.append_assoc, ← List.drop_drop, List.take_append_drop]

theorem readAll_isSome (hfuel : file.length - o < fuel) : (r.readAll file fuel i o acc).isSome = true := by
  induction fuel generalizing i o acc with
  | zero => exact absurd hfuel (Nat.not_lt_zero _)
  | succ fuel ih =>
      rw [readAll]
      rcases eq_or_ne (r.got file.length i o) 0 with hzero | hne
      · rw [if_pos hzero]
        rfl
      · rw [if_neg hne]
        have hpos : 0 < file.length - o := Nat.sub_pos_of_lt (not_le.mp fun hle => hne (got_eq_zero_iff.mpr hle))
        exact ih (by omega)

end Reads
end TsbAgent
