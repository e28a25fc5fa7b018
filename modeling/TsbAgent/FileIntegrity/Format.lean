/-
# The reference list of file digests

The layout of `struct file_integrity_item` (`tcsapi/tcs_file_integrity.h`) and its
reader in `tss-main/tcf/src/file_integrity.c`.  A record is

| bytes | field |
| --- | --- |
| 0 | `flags` |
| 1 | `extend_size` |
| 2, 3 | `be_path_length`, big endian |
| 4 … 35 | the digest |
| then | `extend_size` bytes of extended data, `path_length` bytes of path |

and the next record starts at the next multiple of 4.  `buffer_to_item_array` cuts
a buffer into records; only the last of them may lack its padding.  A pointer to
a record is modelled by the bytes from there on.
-/

import TsbAgent.Basic
import Mathlib.Data.List.TakeDrop

namespace TsbAgent
namespace FileIntegrity

open Libc

/-- `TCF_ERR_PARAMETER`. -/
def tcfErrParameter : ℤ := 4096

/-- `TCF_ERR_BAD_DATA`. -/
def tcfErrBadData : ℤ := 4100

/-- `HTTC_ALIGN_SIZE(len, 4)`. -/
def align4 (len : ℕ) : ℕ := if len % 4 = 0 then len else len + 4 - len % 4

theorem le_align4 (n : ℕ) : n ≤ align4 n := by
  unfold align4
  split_ifs <;> omega

theorem align4_le (n : ℕ) : align4 n ≤ n + 3 := by
  unfold align4
  split_ifs <;> omega

theorem align4_add_four (n : ℕ) : align4 (4 + n) = 4 + align4 n := by
  unfold align4
  split_ifs <;> omega

/-- `item->flags`. -/
def itemFlags (item : Bytes) : UInt8 := item.getD 0 0

/-- `item->extend_size`. -/
def extendSize (item : Bytes) : ℕ := (item.getD 1 0).toNat

/-- `ntohs(item->be_path_length)`. -/
def pathLength (item : Bytes) : ℕ := (item.getD 2 0).toNat * 256 + (item.getD 3 0).toNat

/-- `item->data`. -/
def itemData (item : Bytes) : Bytes := item.drop 4

/-- The size a record declares, header and digest included. -/
def recordSize (item : Bytes) : ℕ := 36 + extendSize item + pathLength item

/-- The digest of a record. -/
def itemHash (item : Bytes) : Digest := ⟨(itemData item).takeD lenHash 0, List.takeD_length _ _ _⟩

/-- The path of a record. -/
def itemPath (item : Bytes) : Bytes :=
  ((itemData item).drop (lenHash + extendSize item)).take (pathLength item)

/-- The fields of a record are in its first four bytes. -/
theorem header_append {h : Bytes} (hh : 4 ≤ h.length) (r : Bytes) :
    extendSize (h ++ r) = extendSize h ∧ pathLength (h ++ r) = pathLength h ∧
      itemFlags (h ++ r) = itemFlags h := by
  have hget : ∀ i < 4, (h ++ r).getD i 0 = h.getD i 0 := fun i hi => by
    rw [List.getD_eq_getElem?_getD, List.getD_eq_getElem?_getD, List.getElem?_append_left (by omega)]
  refine ⟨?_, ?_, ?_⟩
  · rw [extendSize, extendSize, hget 1 (by omega)]
  · rw [pathLength, pathLength, hget 2 (by omega), hget 3 (by omega)]
  · rw [itemFlags, itemFlags, hget 0 (by omega)]

theorem recordSize_append {h : Bytes} (hh : 4 ≤ h.length) (r : Bytes) :
    recordSize (h ++ r) = recordSize h := by
  obtain ⟨h₁, h₂, -⟩ := header_append hh r
  rw [recordSize, recordSize, h₁, h₂]

/-- A record does not depend on the bytes after it. -/
theorem item_append {item : Bytes} (hlen : recordSize item ≤ item.length) (r : Bytes) :
    itemHash (item ++ r) = itemHash item ∧ itemPath (item ++ r) = itemPath item := by
  have h36 : 36 ≤ item.length := by
    unfold recordSize at hlen
    omega
  obtain ⟨h₁, h₂, -⟩ := header_append (h := item) (by omega) r
  have hdata : itemData (item ++ r) = itemData item ++ r := List.drop_append_of_le_length (by omega)
  have hdlen : (itemData item).length = item.length - 4 := List.length_drop
  have h32 : lenHash = 32 := rfl
  constructor
  · rw [itemHash, itemHash, Subtype.mk.injEq, hdata, List.takeD_eq_take _ (by
      rw [List.length_append]
      omega), List.takeD_eq_take _ (by omega), List.take_append_of_le_length (by omega)]
  · unfold recordSize at hlen
    rw [itemPath, itemPath, hdata, h₁, h₂, List.drop_append_of_le_length (by omega),
      List.take_append_of_le_length]
    rw [List.length_drop]
    omega

theorem header_take {n : ℕ} (hn : 4 ≤ n) (item : Bytes) :
    extendSize (item.take n) = extendSize item ∧ pathLength (item.take n) = pathLength item ∧
      itemFlags (item.take n) = itemFlags item := by
  have hget : ∀ i < 4, (item.take n).getD i 0 = item.getD i 0 := fun i hi => by
    rw [List.getD_eq_getElem?_getD, List.getD_eq_getElem?_getD, List.getElem?_take_of_lt (by omega)]
  refine ⟨?_, ?_, ?_⟩
  · rw [extendSize, extendSize, hget 1 (by omega)]
  · rw [pathLength, pathLength, hget 2 (by omega), hget 3 (by omega)]
  · rw [itemFlags, itemFlags, hget 0 (by omega)]

/-- `file_integrity_check`: the size of the record, `0` when it does not fit. -/
def fileIntegrityCheck (item : Bytes) (size : ℕ) : ℕ :=
  if size < 36 then 0
  else if recordSize item ≤ size then recordSize item
  else 0

/-- The loop of `buffer_to_item_array`, for at most `fuel` records. -/
def splitItems : ℕ → Bytes → ℕ → Except ℤ (List Bytes)
  | 0, _, size => if size = 0 then .ok [] else .error tcfErrBadData
  | fuel + 1, item, size =>
      if size = 0 then .ok []
      else
        let itemSize := fileIntegrityCheck item size
        if itemSize = 0 then .error tcfErrBadData
        else if align4 itemSize ≥ size then .ok [item]
        else (splitItems fuel (item.drop (align4 itemSize)) (size - align4 itemSize)).map (item :: ·)

/-- `buffer_to_item_array`: the pointers to the records. -/
def bufferToItemArray (data : Bytes) (size : ℕ) : Except ℤ (List Bytes) := splitItems size data size

theorem fileIntegrityCheck_eq (item : Bytes) (size : ℕ) :
    fileIntegrityCheck item size = if recordSize item ≤ size then recordSize item else 0 := by
  unfold fileIntegrityCheck recordSize
  split_ifs <;> omega

/-- The loop runs out of bytes before it runs out of rounds. -/
theorem splitItems_of_le {fuel size : ℕ} (h : size ≤ fuel) (item : Bytes) :
    splitItems fuel item size = bufferToItemArray item size := by
  have hgen : ∀ n fuel fuel' size, size ≤ n → size ≤ fuel → size ≤ fuel' → ∀ item,
      splitItems fuel item size = splitItems fuel' item size := by
    intro n
    induction n with
    | zero =>
        intro fuel fuel' size hn _ _ item
        obtain rfl := Nat.le_zero.mp hn
        cases fuel <;> cases fuel' <;> rfl
    | succ n ih =>
        intro fuel fuel' size hn hf hf' item
        rcases Nat.eq_zero_or_pos size with rfl | hpos
        · cases fuel <;> cases fuel' <;> rfl
        · obtain ⟨fuel, rfl⟩ : ∃ k, fuel = k + 1 := ⟨fuel - 1, by omega⟩
          obtain ⟨fuel', rfl⟩ : ∃ k, fuel' = k + 1 := ⟨fuel' - 1, by omega⟩
          have hrest : fileIntegrityCheck item size ≠ 0 → size - align4 (fileIntegrityCheck item size)
              ≤ n ∧ size - align4 (fileIntegrityCheck item size) ≤ fuel ∧
                size - align4 (fileIntegrityCheck item size) ≤ fuel' := by
            intro h0
            have := le_align4 (fileIntegrityCheck item size)
            omega
          unfold splitItems
          by_cases h0 : fileIntegrityCheck item size = 0
          · simp only [h0, if_true]
          · obtain ⟨h₁, h₂, h₃⟩ := hrest h0
            simp only [h0, if_false, ih _ _ _ h₁ h₂ h₃]
  exact hgen size fuel size size le_rfl h le_rfl item

/-- **One round of `buffer_to_item_array`.** -/
theorem bufferToItemArray_eq (item : Bytes) (size : ℕ) :
    bufferToItemArray item size =
      if size = 0 then .ok []
      else if recordSize item ≤ size then
        if size ≤ align4 (recordSize item) then .ok [item]
        else (bufferToItemArray (item.drop (align4 (recordSize item)))
          (size - align4 (recordSize item))).map (item :: ·)
      else .error tcfErrBadData := by
  rcases Nat.eq_zero_or_pos size with rfl | hpos
  · rfl
  · have hpos' : 0 < recordSize item := by
      unfold recordSize
      omega
    obtain ⟨n, rfl⟩ : ∃ n, size = n + 1 := ⟨size - 1, by omega⟩
    conv_lhs => rw [bufferToItemArray, splitItems]
    rw [fileIntegrityCheck_eq]
    by_cases hfit : recordSize item ≤ n + 1
    · have hle := le_align4 (recordSize item)
      simp only [if_pos hfit, Nat.ne_of_gt hpos', if_false, ge_iff_le]
      rw [splitItems_of_le (by omega)]
    · simp only [if_neg hfit, if_true]

end FileIntegrity
end TsbAgent
