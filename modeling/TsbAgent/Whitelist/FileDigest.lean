/-
# Measuring the bytes of a file

`digest_cal` and the reading half of `digest_check_tpcm`
(`tsb/kernel/smeasure/policy/hash_whitelist.c`) go over a file of `i_size` bytes with `kernel_read`,
which returns a length, `0` at the end of the file, or an error.

| | piece | for a piece | at the end, with `offset == i_size` | otherwise |
| --- | --- | --- | --- | --- |
| `digest_cal` | a page | `sm3_update` | the digest, `0` | the error, or `0` |
| `digest_check_tpcm` | 16 pages | a block in `phys_addr[i]` | `pages_sum` blocks to the TPCM | `DC_ERROR_PASS` |

Both go on after a short read.  `digest_cal` then still has the right bytes, but it also returns `0`
when the file ends early or has grown past `i_size`, without a digest.  `digest_check_tpcm` counts the
blocks beforehand, as if every read were a full one.  `measured_bytes_iff` says which sequences of
lengths are right for each of them.
-/

import TsbAgent.Basic
import TsbAgent.Lib.Access
import TsbAgent.Lib.Word
import Mathlib.Algebra.BigOperators.Group.Finset.Basic
import Mathlib.Algebra.Order.Ring.Nat

namespace TsbAgent
namespace Whitelist

open Libc Word

/-- A file as a loop reads it: the size the inode gives, the bytes, what each `kernel_read` returns,
and whether each buffer could be allocated. -/
structure FileReads where
  iSize : ℕ
  byteAt : ℕ → UInt8
  reads : ℕ → ℤ
  kzalloc : ℕ → Bool

namespace FileReads

variable (f : FileReads)

/-- `n` bytes of the file, from `offset` on. -/
def bytes (offset n : ℕ) : Bytes := (List.range' offset n).map f.byteAt

/-- `offset` after the first `i` reads. -/
def total (i : ℕ) : ℕ := ∑ j ∈ Finset.range i, (f.reads j).toNat

/-- The first `i` reads all get something, and none of them starts at the end of the file. -/
def Reached (i : ℕ) : Prop := ∀ j < i, 0 < f.reads j ∧ f.total j < f.iSize

/-- A read gets nothing before the end of the file. -/
def EndsEarly : Prop := ∃ i, f.Reached i ∧ f.total i < f.iSize ∧ f.reads i = 0

/-- A read goes past the size that the inode gave. -/
def Overshoots : Prop := ∃ i, f.Reached i ∧ f.iSize < f.total i

end FileReads

/-! ### The functions -/

section Functions

variable (sm3 : Bytes → Digest) (f : FileReads)

/-- The loop of `digest_cal`: `ret`, `offset` and the bytes given to `sm3_update`. -/
def digestLoop : ℕ → ℕ → ℕ → Bytes → ℤ × ℕ × Bytes
  | 0, _, offset, ctx => (0, offset, ctx)
  | fuel + 1, i, offset, ctx =>
      if f.iSize ≤ offset then (0, offset, ctx)
      else if f.reads i < 0 then (f.reads i, offset, ctx)
      else if f.reads i = 0 then (0, offset, ctx)
      else digestLoop fuel (i + 1) (offset + (f.reads i).toNat) (ctx ++ f.bytes offset (f.reads i).toNat)

/-- `digest_cal`: the return value, and the digest where it has been written. -/
def digestCal : ℤ × Option Digest :=
  if f.kzalloc 0 = false then (-enomem, none)
  else
    let r := digestLoop f f.iSize 0 0 []
    if r.2.1 = f.iSize then (0, some (sm3 r.2.2)) else (r.1, none)

/-- `pages_sum`: the number of full pieces of `PAGE_SIZE * 16`, and one for the rest. -/
def pagesSum (pageSize : ℕ) : ℤ :=
  let n := int32 (f.iSize / (pageSize * 16) : ℕ)
  if f.iSize % (pageSize * 16) ≠ 0 then int32 (n + 1) else n

/-- What the loop of `digest_check_tpcm` has done: the entries of `virt_addr` and `phys_addr` it has
touched, the blocks it has put there, and `offset`, or `none` where it has left with an error. -/
structure BlockRun where
  accesses : List Access
  blocks : List Bytes
  offset : Option ℕ

/-- The loop of `digest_check_tpcm`, for arrays of `size` entries. -/
def blockLoop (size : ℕ) : ℕ → ℕ → ℕ → BlockRun
  | 0, _, offset => ⟨[], [], some offset⟩
  | fuel + 1, i, offset =>
      if f.iSize ≤ offset then ⟨[], [], some offset⟩
      else if f.kzalloc i = false then ⟨[], [], none⟩
      else if f.reads i < 0 then ⟨[⟨i, 1, size⟩], [], none⟩
      else if f.reads i = 0 then ⟨[⟨i, 1, size⟩], [], some offset⟩
      else
        let r := blockLoop size fuel (i + 1) (offset + (f.reads i).toNat)
        ⟨⟨i, 1, size⟩ :: ⟨i, 1, size⟩ :: r.accesses, f.bytes offset (f.reads i).toNat :: r.blocks, r.offset⟩

/-- The loop at `out1`, which frees the buffers. -/
def freeAccesses (size : ℕ) : List Access := (List.range size).map fun i => ⟨i, 1, size⟩

/-- `digest_check_tpcm` up to the call of the TPCM: the entries of the two arrays it touches, and the
blocks it submits. -/
def digestCheckTpcmBlocks (pageSize : ℕ) (virtAddr physAddr : Bool) : List Access × Option (List Bytes) :=
  if virtAddr = false ∨ physAddr = false then ([], none)
  else
    let size := (pagesSum f pageSize).toNat
    let r := blockLoop f size f.iSize 0 0
    -- entries of `phys_addr` that have not been set are blocks of length 0
    (r.accesses ++ freeAccesses size,
      if r.offset = some f.iSize then some (r.blocks.take size) else none)

end Functions

/-! ### Where the loops stop -/

/-- The first `i` reads all get something, and their buffers were allocated. -/
def FileReads.ReachedBlock (f : FileReads) (i : ℕ) : Prop := f.Reached i ∧ ∀ j < i, f.kzalloc j = true

/-- `digest_cal` stops at its read `k` and leaves `ret`: at the end of the file, or with nothing read. -/
def FileReads.Stops (f : FileReads) (k : ℕ) (ret : ℤ) : Prop :=
  (f.iSize ≤ f.total k ∧ ret = 0) ∨ (f.total k < f.iSize ∧ f.reads k ≤ 0 ∧ ret = f.reads k)

section Stops

variable {f : FileReads} {i k : ℕ} {ret : ℤ}

theorem total_succ (f : FileReads) (i : ℕ) : f.total (i + 1) = f.total i + (f.reads i).toNat :=
  Finset.sum_range_succ _ _

theorem bytes_append (f : FileReads) (m n : ℕ) : f.bytes 0 m ++ f.bytes m n = f.bytes 0 (m + n) := by
  have hrange : List.range' 0 m ++ List.range' (0 + m) n = List.range' 0 (m + n) := List.range'_append_1
  rw [Nat.zero_add] at hrange
  rw [FileReads.bytes, FileReads.bytes, FileReads.bytes, ← List.map_append, hrange]

theorem reached_zero (f : FileReads) : f.Reached 0 := fun _ h => absurd h (Nat.not_lt_zero _)

theorem FileReads.Reached.mono (h : f.Reached k) (hik : i ≤ k) : f.Reached i := fun j hj => h j (by omega)

theorem FileReads.Reached.succ (h : f.Reached i) (hread : 0 < f.reads i) (hless : f.total i < f.iSize) :
    f.Reached (i + 1) := by
  intro j hj
  rcases Nat.lt_succ_iff_lt_or_eq.mp hj with hj | rfl
  · exact h j hj
  · exact ⟨hread, hless⟩

/-- **The loop of `digest_cal` stops at some read**, with the bytes of the file up to there. -/
theorem digestLoop_spec {fuel : ℕ} (hi : f.Reached i) (hfuel : f.iSize ≤ fuel + f.total i) :
    ∃ k ret, f.Reached k ∧ f.Stops k ret ∧
      digestLoop f fuel i (f.total i) (f.bytes 0 (f.total i)) = (ret, f.total k, f.bytes 0 (f.total k)) := by
  induction fuel generalizing i with
  | zero => exact ⟨i, 0, hi, Or.inl ⟨by omega, rfl⟩, rfl⟩
  | succ fuel ih =>
      rw [digestLoop]
      by_cases hend : f.iSize ≤ f.total i
      · rw [if_pos hend]
        exact ⟨i, 0, hi, Or.inl ⟨hend, rfl⟩, rfl⟩
      rw [if_neg hend]
      by_cases hneg : f.reads i < 0
      · rw [if_pos hneg]
        exact ⟨i, _, hi, Or.inr ⟨not_le.mp hend, hneg.le, rfl⟩, rfl⟩
      rw [if_neg hneg]
      by_cases hzero : f.reads i = 0
      · rw [if_pos hzero]
        exact ⟨i, 0, hi, Or.inr ⟨not_le.mp hend, hzero.le, hzero.symm⟩, rfl⟩
      · have hpos : 0 < f.reads i := by omega
        rw [if_neg hzero, ← total_succ, bytes_append, ← total_succ]
        refine ih (hi.succ hpos (not_le.mp hend)) ?_
        rw [total_succ]
        omega

/-- A loop stops at one read only. -/
theorem stops_unique {ret' : ℤ} (hi : f.Reached i) (hk : f.Reached k) (hsi : f.Stops i ret)
    (hsk : f.Stops k ret') : i = k := by
  have hno : ∀ {j l : ℕ} {r : ℤ}, f.Stops j r → f.Reached l → ¬ j < l := by
    intro j l r hstop hreach hlt
    obtain ⟨hpos, hless⟩ := hreach j hlt
    rcases hstop with ⟨hend, -⟩ | ⟨-, hread, -⟩
    · omega
    · omega
  have h₁ := hno hsi hk
  have h₂ := hno hsk hi
  omega

/-- **What `digest_cal` leaves.** -/
theorem digestCal_iff (sm3 : Bytes → Digest) (f : FileReads) :
    ((digestCal sm3 f).1 = 0 → (digestCal sm3 f).2 = some (sm3 (f.bytes 0 f.iSize))) ↔
      f.kzalloc 0 = false ∨ (¬ f.EndsEarly ∧ ¬ f.Overshoots) := by
  rw [digestCal]
  by_cases hkz : f.kzalloc 0 = false
  · rw [if_pos hkz]
    exact iff_of_true (fun h => absurd h (by decide)) (Or.inl hkz)
  rw [if_neg hkz, or_iff_right hkz]
  obtain ⟨k, ret, hk, hstop, hloop⟩ := digestLoop_spec (reached_zero f)
    (show f.iSize ≤ f.iSize + f.total 0 from Nat.le_add_right _ _)
  have h0 : f.total 0 = 0 := rfl
  rw [h0] at hloop
  rw [show digestLoop f f.iSize 0 0 [] = _ from hloop]
  dsimp only
  have hearly : ∀ i, f.Reached i → f.total i < f.iSize → f.reads i = 0 → i = k := fun i hi hless hread =>
    stops_unique hi hk (Or.inr ⟨hless, hread.le, rfl⟩) hstop
  have hover : ∀ i, f.Reached i → f.iSize < f.total i → i = k := fun i hi hlt =>
    stops_unique hi hk (Or.inl ⟨hlt.le, rfl⟩) hstop
  by_cases hsize : f.total k = f.iSize
  · rw [if_pos hsize, hsize]
    refine iff_of_true (fun _ => rfl) ⟨?_, ?_⟩
    · rintro ⟨i, hi, hless, hread⟩
      obtain rfl := hearly i hi hless hread
      omega
    · rintro ⟨i, hi, hlt⟩
      obtain rfl := hover i hi hlt
      omega
  rw [if_neg hsize]
  rcases hstop with ⟨hend, rfl⟩ | ⟨hless, hread, rfl⟩
  · refine iff_of_false (fun h => absurd (h rfl).symm (Option.some_ne_none _)) fun h => h.2 ⟨k, hk, ?_⟩
    omega
  · by_cases hzero : f.reads k = 0
    · rw [hzero]
      exact iff_of_false (fun h => absurd (h rfl).symm (Option.some_ne_none _)) fun h =>
        h.1 ⟨k, hk, hless, hzero⟩
    · refine iff_of_true (fun h => absurd h hzero) ⟨?_, ?_⟩
      · rintro ⟨i, hi, hi', hread'⟩
        obtain rfl := hearly i hi hi' hread'
        exact hzero hread'
      · rintro ⟨i, hi, hlt⟩
        obtain rfl := hover i hi hlt
        omega

end Stops

/-! ### The blocks -/

section Blocks

variable {f : FileReads} {i k size : ℕ}

theorem FileReads.ReachedBlock.mono (h : f.ReachedBlock k) (hik : i ≤ k) : f.ReachedBlock i :=
  ⟨h.1.mono hik, fun j hj => h.2 j (by omega)⟩

/-- What the loop touches when it gets to its buffer `j`. -/
def FileReads.Takes (f : FileReads) (j : ℕ) : Prop :=
  f.ReachedBlock j ∧ f.total j < f.iSize ∧ f.kzalloc j = true

/-- A later buffer is taken only after a read at this one. -/
theorem FileReads.Takes.later {j : ℕ} (h : f.Takes j) (hij : i ≤ j) :
    j = i ∨ 0 < f.reads i ∧ f.total i < f.iSize ∧ f.kzalloc i = true := by
  rcases Nat.eq_or_lt_of_le hij with rfl | hlt
  · exact Or.inl rfl
  · obtain ⟨hpos, hless⟩ := h.1.1 i hlt
    exact Or.inr ⟨hpos, hless, h.1.2 i hlt⟩

theorem FileReads.ReachedBlock.succ (h : f.ReachedBlock i) (hpos : 0 < f.reads i) (hless : f.total i < f.iSize)
    (hkz : f.kzalloc i = true) : f.ReachedBlock (i + 1) := by
  refine ⟨h.1.succ hpos hless, fun j hj => ?_⟩
  rcases Nat.lt_succ_iff_lt_or_eq.mp hj with hj | rfl
  · exact h.2 j hj
  · exact hkz

/-- **The loop of `digest_check_tpcm` stays in its arrays** when every buffer it takes has an entry. -/
theorem blockLoop_safe_iff {fuel : ℕ} (hi : f.ReachedBlock i) (hfuel : f.iSize ≤ fuel + f.total i) :
    Safe (blockLoop f size fuel i (f.total i)).accesses ↔ ∀ j, i ≤ j → f.Takes j → j < size := by
  induction fuel generalizing i with
  | zero =>
      refine iff_of_true safe_nil fun j hij hj => ?_
      rcases hj.later hij with rfl | h
      · exact absurd hj.2.1 (by omega)
      · exact absurd h.2.1 (by omega)
  | succ fuel ih =>
      rw [blockLoop]
      by_cases hend : f.iSize ≤ f.total i
      · rw [if_pos hend]
        refine iff_of_true safe_nil fun j hij hj => ?_
        rcases hj.later hij with rfl | h
        · exact absurd hj.2.1 (not_lt.mpr hend)
        · exact absurd h.2.1 (not_lt.mpr hend)
      rw [if_neg hend]
      by_cases hkz : f.kzalloc i = false
      · rw [if_pos hkz]
        refine iff_of_true safe_nil fun j hij hj => ?_
        rcases hj.later hij with rfl | h
        · exact absurd (hkz.symm.trans hj.2.2) Bool.false_ne_true
        · exact absurd (hkz.symm.trans h.2.2) Bool.false_ne_true
      rw [if_neg hkz]
      have hkz' : f.kzalloc i = true := Bool.eq_true_of_not_eq_false hkz
      have htakes : f.Takes i := ⟨hi, not_le.mp hend, hkz'⟩
      -- without a read at `i` the loop takes no later buffer
      have hlast : f.reads i ≤ 0 → (Safe [⟨i, 1, size⟩] ↔ ∀ j, i ≤ j → f.Takes j → j < size) := by
        intro hread
        rw [safe_cons]
        constructor
        · rintro ⟨hlt, -⟩ j hij hj
          rcases hj.later hij with rfl | h
          · exact hlt
          · exact absurd h.1 (not_lt.mpr hread)
        · exact fun h => ⟨h i le_rfl htakes, safe_nil⟩
      by_cases hneg : f.reads i < 0
      · rw [if_pos hneg]
        exact hlast hneg.le
      rw [if_neg hneg]
      by_cases hzero : f.reads i = 0
      · rw [if_pos hzero]
        exact hlast hzero.le
      have hpos : 0 < f.reads i := by omega
      have hfuel' : f.iSize ≤ fuel + f.total (i + 1) := by
        rw [total_succ]
        omega
      rw [if_neg hzero, ← total_succ, safe_cons, safe_cons,
        ih (hi.succ hpos (not_le.mp hend) hkz') hfuel']
      constructor
      · rintro ⟨hlt, -, hrest⟩ j hij hj
        rcases Nat.eq_or_lt_of_le hij with rfl | hlt'
        · exact hlt
        · exact hrest j hlt' hj
      · intro h
        exact ⟨h i le_rfl htakes, h i le_rfl htakes, fun j hij hj => h j (by omega) hj⟩

/-- **Where the loop comes to its end**, the blocks are the bytes of the file up to there. -/
theorem blockLoop_blocks {fuel offset : ℕ} (hi : f.ReachedBlock i)
    (ho : (blockLoop f size fuel i (f.total i)).offset = some offset) :
    ∃ k, i ≤ k ∧ f.ReachedBlock k ∧ offset = f.total k ∧
      (blockLoop f size fuel i (f.total i)).blocks.length = k - i ∧
      f.bytes 0 (f.total i) ++ (blockLoop f size fuel i (f.total i)).blocks.flatten =
        f.bytes 0 (f.total k) := by
  induction fuel generalizing i with
  | zero => exact ⟨i, le_rfl, hi, (Option.some.inj ho).symm, (Nat.sub_self i).symm, List.append_nil _⟩
  | succ fuel ih =>
      rw [blockLoop] at ho ⊢
      by_cases hend : f.iSize ≤ f.total i
      · rw [if_pos hend] at ho ⊢
        exact ⟨i, le_rfl, hi, (Option.some.inj ho).symm, (Nat.sub_self i).symm, List.append_nil _⟩
      rw [if_neg hend] at ho ⊢
      by_cases hkz : f.kzalloc i = false
      · rw [if_pos hkz] at ho
        exact absurd ho.symm (Option.some_ne_none _)
      rw [if_neg hkz] at ho ⊢
      by_cases hneg : f.reads i < 0
      · rw [if_pos hneg] at ho
        exact absurd ho.symm (Option.some_ne_none _)
      rw [if_neg hneg] at ho ⊢
      by_cases hzero : f.reads i = 0
      · rw [if_pos hzero] at ho ⊢
        exact ⟨i, le_rfl, hi, (Option.some.inj ho).symm, (Nat.sub_self i).symm, List.append_nil _⟩
      rw [if_neg hzero, ← total_succ] at ho ⊢
      have hnext := hi.succ (by omega) (not_le.mp hend) (Bool.eq_true_of_not_eq_false hkz)
      obtain ⟨k, hik, hk, hoff, hlen, hbytes⟩ := ih hnext ho
      refine ⟨k, by omega, hk, hoff, ?_, ?_⟩
      · rw [List.length_cons, hlen]
        omega
      · rw [List.flatten_cons, ← List.append_assoc, bytes_append, ← total_succ]
        exact hbytes

theorem safe_freeAccesses (size : ℕ) : Safe (freeAccesses size) := by
  intro a ha
  obtain ⟨i, hi, rfl⟩ := List.mem_map.mp ha
  exact List.mem_range.mp hi

/-- **What `digest_check_tpcm` touches and submits.** -/
theorem digestCheckTpcmBlocks_iff (f : FileReads) (pageSize : ℕ) (virtAddr physAddr : Bool) :
    (Safe (digestCheckTpcmBlocks f pageSize virtAddr physAddr).1 ∧
      ∀ blocks, (digestCheckTpcmBlocks f pageSize virtAddr physAddr).2 = some blocks →
        blocks.flatten = f.bytes 0 f.iSize) ↔
      virtAddr = false ∨ physAddr = false ∨ ¬ f.Takes (pagesSum f pageSize).toNat := by
  rw [digestCheckTpcmBlocks, ← or_assoc]
  by_cases hmem : virtAddr = false ∨ physAddr = false
  · rw [if_pos hmem]
    exact iff_of_true ⟨safe_nil, fun _ h => absurd h.symm (Option.some_ne_none _)⟩ (Or.inl hmem)
  rw [if_neg hmem, or_iff_right hmem]
  dsimp only
  generalize (pagesSum f pageSize).toNat = size
  have h0 : f.ReachedBlock 0 := ⟨reached_zero f, fun _ h => absurd h (Nat.not_lt_zero _)⟩
  have htotal : f.total 0 = 0 := rfl
  have hsafe : Safe (blockLoop f size f.iSize 0 0).accesses ↔ ∀ j, 0 ≤ j → f.Takes j → j < size :=
    blockLoop_safe_iff h0 (Nat.le_add_right f.iSize (f.total 0))
  rw [safe_append, and_iff_left (safe_freeAccesses size), hsafe]
  have hfirst : (∀ j, 0 ≤ j → f.Takes j → j < size) ↔ ¬ f.Takes size := by
    constructor
    · exact fun h hs => absurd (h size (Nat.zero_le _) hs) (Nat.lt_irrefl _)
    · intro h j _ hj
      by_contra hge
      rcases hj.later (not_lt.mp hge) with rfl | hs
      · exact h hj
      · exact h ⟨hj.1.mono (not_lt.mp hge), hs.2⟩
  rw [hfirst]
  refine and_iff_left_of_imp fun hno blocks hblocks => ?_
  split_ifs at hblocks with hoff
  obtain rfl := Option.some.inj hblocks
  obtain ⟨k, -, hk, hsize, hlen, hbytes⟩ := blockLoop_blocks h0 hoff
  rw [htotal] at hlen hbytes
  have hle : k ≤ size := by
    by_contra hgt
    obtain ⟨-, hless⟩ := hk.1 size (not_le.mp hgt)
    exact hno ⟨hk.mono (not_le.mp hgt).le, hless, hk.2 size (not_le.mp hgt)⟩
  have hend : f.bytes 0 (f.total k) = f.bytes 0 f.iSize := by rw [← hsize]
  rw [List.take_of_length_le (by omega)]
  exact hbytes.trans hend

end Blocks

/-- **When the measured bytes are the bytes of the file.**  For every file size and every sequence of
what `kernel_read` returns: `digest_cal` returns `0` only with the digest of the `i_size` bytes of the
file if and only if it has no buffer, or no read gets nothing before the end and no read goes past it;
`digest_check_tpcm` stays in its two arrays and submits only blocks that are these bytes one after the
other if and only if one of the arrays could not be allocated, or the first `pages_sum` reads do not
leave bytes of the file for which another buffer is allocated. -/
theorem measured_bytes_iff (sm3 : Bytes → Digest) (f : FileReads) (pageSize : ℕ) (virtAddr physAddr : Bool) :
    (((digestCal sm3 f).1 = 0 → (digestCal sm3 f).2 = some (sm3 (f.bytes 0 f.iSize))) ↔
      f.kzalloc 0 = false ∨ (¬ f.EndsEarly ∧ ¬ f.Overshoots)) ∧
    ((Safe (digestCheckTpcmBlocks f pageSize virtAddr physAddr).1 ∧
      ∀ blocks, (digestCheckTpcmBlocks f pageSize virtAddr physAddr).2 = some blocks →
        blocks.flatten = f.bytes 0 f.iSize) ↔
      virtAddr = false ∨ physAddr = false ∨ ¬ f.Takes (pagesSum f pageSize).toNat) :=
  ⟨digestCal_iff sm3 f, digestCheckTpcmBlocks_iff f pageSize virtAddr physAddr⟩

/-- A file of two bytes, with a read that gets nothing, or one byte at a time. -/
def twoBytes (read : ℤ) : FileReads := ⟨2, fun _ => 97, fun _ => read, fun _ => true⟩

/-- **An early end and a short read.**  A file of two bytes: where the first read gets nothing,
`digest_cal` returns `0` without a digest; where the reads get one byte each, `digest_check_tpcm`, with
an array for one block, touches its second entry. -/
theorem measured_bytes_fails :
    ¬ (∀ (sm3 : Bytes → Digest) (f : FileReads), (digestCal sm3 f).1 = 0 →
        (digestCal sm3 f).2 = some (sm3 (f.bytes 0 f.iSize))) ∧
    ¬ (∀ (f : FileReads) (virtAddr physAddr : Bool),
        Safe (digestCheckTpcmBlocks f 4096 virtAddr physAddr).1 ∧
          ∀ blocks, (digestCheckTpcmBlocks f 4096 virtAddr physAddr).2 = some blocks →
            blocks.flatten = f.bytes 0 f.iSize) := by
  constructor
  · intro hall
    have h := hall (fun _ => Digest.zero) (twoBytes 0) rfl
    exact absurd h.symm (Option.some_ne_none _)
  · intro hall
    have h := (hall (twoBytes 1) true true).1
    have hpages : (pagesSum (twoBytes 1) 4096).toNat = 1 := by decide
    have hloop : ¬ Safe (blockLoop (twoBytes 1) 1 2 0 0).accesses := by decide
    rw [digestCheckTpcmBlocks, hpages] at h
    exact hloop (safe_append.mp h).1

end Whitelist
end TsbAgent
