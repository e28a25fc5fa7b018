/-
# The shared memory of the TDD

`tss-main/tcs/tdd/cmd_man.c` divides 31 MiB of memory between the TPCM commands: ten areas
of data buffers, from units of 4 KiB to units of 2 MiB, and 32768 command headers of 32
bytes.  Each area and the headers have a free list (`TsbAgent.Lib.FreeList`) in an array of
`short`.  A buffer comes from the first area with large enough units that has one left.

`Conforms` says what the callers of the four functions rely on.  The data buffers keep to
it whatever address is freed: `tdd_free_data_buffer` refuses everything that is not the
start of a unit in use.  `tdd_free_cmd_header` divides the distance by 32 without looking
at the remainder and cuts the quotient to an `int`, so an address inside a header, or 128
GiB away from one, frees it (`shm_conforms`, `shm_free_inside_header`).
-/

import TsbAgent.Lib.FreeList
import TsbAgent.Lib.Run
import Mathlib.Data.Fin.Tuple.Basic
import Mathlib.Data.Fin.VecNotation
import Mathlib.Order.Fin.Basic

namespace TsbAgent
namespace Tdd

open FreeList

/-- `struct share_memory_area`. -/
structure Area where
  offset : ℕ
  unitSize : ℕ
  size : ℕ

/-- The number of units in an area. -/
def Area.num (a : Area) : ℕ := a.size / a.unitSize

/-- `areas`. -/
def areas : Fin 10 → Area := ![
  ⟨0x200000, 0x1000, 0x200000⟩,
  ⟨0x400000, 0x2000, 0x200000⟩,
  ⟨0x600000, 0x4000, 0x200000⟩,
  ⟨0x800000, 0x8000, 0x200000⟩,
  ⟨0xA00000, 0x10000, 0x200000⟩,
  ⟨0xC00000, 0x20000, 0x200000⟩,
  ⟨0xE00000, 0x40000, 0x200000⟩,
  ⟨0x1000000, 0x80000, 0x200000⟩,
  ⟨0x1200000, 0x100000, 0x400000⟩,
  ⟨0x1600000, 0x200000, 0x800000⟩]

/-- `TPCM_BUFFER_AREA_OFFSET`. -/
def tpcmBufferAreaOffset : ℕ := 0x200000

/-- `TPCM_BUFFER_AREA_SIZE`. -/
def tpcmBufferAreaSize : ℕ := 0x1C00000

/-- `TPCM_CMD_HEADER_AREA_OFFSET`. -/
def tpcmCmdHeaderAreaOffset : ℕ := 0x1E00000

/-- `TPCM_CMD_HEADER_AREA_SIZE`. -/
def tpcmCmdHeaderAreaSize : ℕ := 0x100000

/-- `TPCM_SHARE_MEMORY_SIZE`. -/
def tpcmShareMemorySize : ℕ := 0x1F00000

/-- `sizeof(struct cmd_header)`. -/
def cmdHeaderSize : ℕ := 32

/-- `CMD_BUFFER_NUMBER`. -/
def cmdBufferNumber : ℕ := tpcmCmdHeaderAreaSize / cmdHeaderSize

/-- The memory that `vmalloc` gave to `shm_init`. -/
structure ShareMem where
  base : ℕ
  pos : 0 < base
  fits : base + tpcmShareMemorySize ≤ 2 ^ 64

/-- The free lists: `cmd_headers` with `cmd_next`, and `buffer_head` with `buffer_next`. -/
structure Shm where
  headers : Pool
  data : Fin 10 → Pool

/-- `shm_init`. -/
def shmInit : Shm := ⟨Pool.full cmdBufferNumber, fun i => Pool.full (areas i).num⟩

section Source

variable (m : ShareMem) (s : Shm)

/-- The `int` that `tdd_free_cmd_header` computes from an address. -/
def headerIndex (header : UInt64) : ℤ :=
  Int.bmod (((header.toNat + (2 ^ 64 - (m.base + tpcmCmdHeaderAreaOffset))) % 2 ^ 64 /
    cmdHeaderSize : ℕ) : ℤ) (2 ^ 32)

/-- `tdd_free_cmd_header`. -/
def tddFreeCmdHeader (header : UInt64) : ℤ × Shm :=
  let index := headerIndex m header
  if index < 0 ∨ index ≥ cmdBufferNumber then (-1, s)
  else
    match s.headers.free index.toNat with
    | none => (-1, s)
    | some headers => (0, { s with headers })

/-- `tdd_alloc_cmd_header`. -/
def tddAllocCmdHeader : Option ℕ × Shm :=
  match s.headers.alloc with
  | none => (none, s)
  | some (index, headers) =>
      (some (m.base + tpcmCmdHeaderAreaOffset + index * cmdHeaderSize), { s with headers })

/-- `get_area_point`. -/
def getAreaPoint (buffer : ℕ) : Fin 10 :=
  (Fin.find? fun i => i = 9 ∨ buffer < m.base + (areas (i + 1)).offset).getD 9

/-- `tdd_free_data_buffer`. -/
def tddFreeDataBuffer (buffer : UInt64) : ℤ × Shm :=
  let buffer := buffer.toNat
  if buffer ≥ m.base + tpcmBufferAreaOffset + tpcmBufferAreaSize then (-1, s)
  else if buffer < m.base + tpcmBufferAreaOffset then (-1, s)
  else
    let area := getAreaPoint m buffer
    let diff := buffer - (m.base + (areas area).offset)
    if diff % (areas area).unitSize ≠ 0 then (-1, s)
    else
      match (s.data area).free (diff / (areas area).unitSize) with
      | none => (-1, s)
      | some p => (0, { s with data := Function.update s.data area p })

/-- `get_area`. -/
def getArea (size : ℕ) : Fin 10 :=
  (Fin.find? fun i => i = 9 ∨ size ≤ (areas i).unitSize).getD 9

/-- The loop of `tdd_alloc_data_buffer` over the areas that are left. -/
def allocLoop : List (Fin 10) → Option ℕ × Shm
  | [] => (none, s)
  | area :: rest =>
      match (s.data area).alloc with
      | none => allocLoop rest
      | some (index, p) =>
          (some (m.base + (areas area).offset + index * (areas area).unitSize),
            { s with data := Function.update s.data area p })

/-- `tdd_alloc_data_buffer`. -/
def tddAllocDataBuffer (size : UInt32) : Option ℕ × Shm :=
  if size = 0 ∨ size.toNat > (areas 9).unitSize then (none, s)
  else allocLoop m s ((List.finRange 10).drop (getArea size.toNat))

end Source

/-- The calls. -/
inductive ShmOp
  | allocData (size : UInt32)
  | freeData (buffer : UInt64)
  | allocHeader
  | freeHeader (header : UInt64)

/-- The state that a call leaves. -/
def Shm.after {α : Type*} (r : α × Shm) : Shm := r.2

/-- The state after a call. -/
def shmStep (m : ShareMem) (s : Shm) : ShmOp → Shm
  | .allocData size => Shm.after (tddAllocDataBuffer m s size)
  | .freeData buffer => Shm.after (tddFreeDataBuffer m s buffer)
  | .allocHeader => Shm.after (tddAllocCmdHeader m s)
  | .freeHeader header => Shm.after (tddFreeCmdHeader m s header)

/-! ### What the callers rely on -/

/-- A unit of an area, or a header. -/
inductive Slot
  | data (area : Fin 10) (index : ℕ)
  | header (index : ℕ)
deriving DecidableEq

namespace Slot

/-- The slot is there. -/
def Valid : Slot → Prop
  | data i j => j < (areas i).num
  | header j => j < cmdBufferNumber

/-- Where the slot starts, counted from the start of the memory. -/
def offset : Slot → ℕ
  | data i j => (areas i).offset + j * (areas i).unitSize
  | header j => tpcmCmdHeaderAreaOffset + j * cmdHeaderSize

def length : Slot → ℕ
  | data i _ => (areas i).unitSize
  | header _ => cmdHeaderSize

def address (m : ShareMem) (t : Slot) : ℕ := m.base + t.offset

/-- The two have no byte in common. -/
def Apart (t u : Slot) : Prop := t.offset + t.length ≤ u.offset ∨ u.offset + u.length ≤ t.offset

/-- The slot is given out. -/
def Live (s : Shm) : Slot → Prop
  | data i j => j < (areas i).num ∧ (s.data i).InUse j
  | header j => j < cmdBufferNumber ∧ s.headers.InUse j

end Slot

/-- **Each free list is in order:** acyclic, with exactly the units that are not in use. -/
structure WellFormed (s : Shm) : Prop where
  data : ∀ i, ∃ l, InOrder (areas i).num (s.data i) l
  headers : ∃ l, InOrder cmdBufferNumber s.headers l

/-- What an allocation gives: a slot of its own, which is the only one that changes. -/
structure Given (m : ShareMem) (s s' : Shm) (a : ℕ) (t : Slot) : Prop where
  valid : t.Valid
  address : a = t.address m
  apart : ∀ u, u.Live s → t.Apart u
  live : ∀ u, u.Live s' ↔ u = t ∨ u.Live s

/-- What a call of a free function does: it takes back the slot that was given out at
this address and no other, or refuses. -/
def Freed (m : ShareMem) (s : Shm) (r : ℤ × Shm) (a : UInt64) (kind : Slot → Prop) : Prop :=
  (∃ t, kind t ∧ t.Live s ∧ t.address m = a.toNat ∧ r.1 = 0 ∧
      ∀ u, u.Live r.2 ↔ u ≠ t ∧ u.Live s) ∨
    ((∀ t, kind t → t.Live s → t.address m ≠ a.toNat) ∧ r.1 = -1 ∧ r.2 = s)

/-- What a call of `tdd_alloc_data_buffer` gives: a unit of at least the size inside one
area and apart from the headers, or nothing when the size is not admissible or nothing is
left that is large enough. -/
def DataGiven (m : ShareMem) (s : Shm) (size : ℕ) : Option ℕ × Shm → Prop
  | (some a, s') => ∃ i j, size ≤ (areas i).unitSize ∧
      (areas i).offset ≤ (Slot.data i j).offset ∧
      (Slot.data i j).offset + (areas i).unitSize ≤ (areas i).offset + (areas i).size ∧
      (∀ k < cmdBufferNumber, (Slot.data i j).Apart (.header k)) ∧ Given m s s' a (.data i j)
  | (none, s') => s' = s ∧ (size = 0 ∨ size > (areas 9).unitSize ∨
      ∀ i, size ≤ (areas i).unitSize → ∀ j < (areas i).num, (Slot.data i j).Live s)

/-- What a call of `tdd_alloc_cmd_header` gives. -/
def HeaderGiven (m : ShareMem) (s : Shm) : Option ℕ × Shm → Prop
  | (some a, s') => ∃ j, Given m s s' a (.header j)
  | (none, s') => s' = s ∧ ∀ j < cmdBufferNumber, (Slot.header j).Live s

/-- **What the callers rely on in one call.** -/
def Conforms (m : ShareMem) (s : Shm) : ShmOp → Prop
  | .allocData size => DataGiven m s size.toNat (tddAllocDataBuffer m s size)
  | .freeData a => Freed m s (tddFreeDataBuffer m s a) a fun t => ∃ i j, t = .data i j
  | .allocHeader => HeaderGiven m s (tddAllocCmdHeader m s)
  | .freeHeader a => Freed m s (tddFreeCmdHeader m s a) a fun t => ∃ j, t = .header j

/-- The address is that of a header, or what `tdd_free_cmd_header` makes of it is not the
index of a header in use. -/
def FreesHeader (m : ShareMem) (s : Shm) : ShmOp → Prop
  | .freeHeader a => (∃ j < cmdBufferNumber, (Slot.header j).address m = a.toNat) ∨
      ∀ j : ℕ, headerIndex m a = j → ¬ (Slot.header j).Live s
  | _ => True

/-! ### The areas -/

section Areas

variable {m : ShareMem} {i : Fin 10} {j : ℕ} {a : ℕ} {t u : Slot}

theorem cmdBufferNumber_eq : cmdBufferNumber = 32768 := by decide

theorem unitSize_pos (i : Fin 10) : 0 < (areas i).unitSize := by
  revert i
  decide

theorem num_mul_unitSize (i : Fin 10) : (areas i).num * (areas i).unitSize = (areas i).size := by
  revert i
  decide

theorem offset_le (i : Fin 10) : tpcmBufferAreaOffset ≤ (areas i).offset := by
  revert i
  decide

theorem offset_add_size_le (i : Fin 10) :
    (areas i).offset + (areas i).size ≤ tpcmCmdHeaderAreaOffset := by
  revert i
  decide

/-- The areas follow each other without a gap. -/
theorem offset_succ (i : Fin 10) (h : i ≠ 9) :
    (areas (i + 1)).offset = (areas i).offset + (areas i).size := by
  revert i
  decide

theorem offset_add_size_le_of_lt {i i' : Fin 10} (h : i < i') :
    (areas i).offset + (areas i).size ≤ (areas i').offset := by
  revert i i'
  decide

theorem unitSize_mono {i i' : Fin 10} (h : i ≤ i') : (areas i).unitSize ≤ (areas i').unitSize := by
  revert i i'
  decide

/-- A unit lies inside its area. -/
theorem data_within (hj : j < (areas i).num) : (areas i).offset ≤ (Slot.data i j).offset ∧
    (Slot.data i j).offset + (areas i).unitSize ≤ (areas i).offset + (areas i).size := by
  have hmul : (j + 1) * (areas i).unitSize ≤ (areas i).num * (areas i).unitSize :=
    Nat.mul_le_mul_right _ hj
  rw [num_mul_unitSize, Nat.add_mul, Nat.one_mul] at hmul
  rw [Slot.offset]
  omega

theorem data_apart_header (hj : j < (areas i).num) (k : ℕ) :
    (Slot.data i j).Apart (.header k) := by
  have hin := data_within hj
  have hend := offset_add_size_le i
  left
  simp only [Slot.offset, Slot.length] at hin ⊢
  omega

/-- Units of one size, one after the other. -/
theorem mul_add_le_or {j j' w : ℕ} (h : j ≠ j') : j * w + w ≤ j' * w ∨ j' * w + w ≤ j * w := by
  rcases Nat.lt_or_gt_of_ne h with hlt | hlt
  · left
    rw [← Nat.succ_mul]
    exact Nat.mul_le_mul_right _ hlt
  · right
    rw [← Nat.succ_mul]
    exact Nat.mul_le_mul_right _ hlt

theorem data_apart_of_lt {i' : Fin 10} {j' : ℕ} (h : i < i') (hj : j < (areas i).num)
    (hj' : j' < (areas i').num) :
    (Slot.data i j).offset + (areas i).unitSize ≤ (Slot.data i' j').offset := by
  have hbefore := offset_add_size_le_of_lt h
  have hin := (data_within hj).2
  have hin' := (data_within hj').1
  omega

/-- **Two slots have no byte in common.** -/
theorem apart_of_ne (ht : t.Valid) (hu : u.Valid) (hne : t ≠ u) : t.Apart u := by
  cases t with
  | data i j =>
      cases u with
      | data i' j' =>
          rcases lt_trichotomy i i' with h | rfl | h
          · exact .inl (data_apart_of_lt h ht hu)
          · have hj : j ≠ j' := fun he => hne (by rw [he])
            have hor := @mul_add_le_or j j' (areas i).unitSize hj
            simp only [Slot.Apart, Slot.offset, Slot.length]
            omega
          · exact .inr (data_apart_of_lt h hu ht)
      | header k => exact data_apart_header ht k
  | header k =>
      cases u with
      | data i j => exact (data_apart_header hu k).symm
      | header k' =>
          have hk : k ≠ k' := fun he => hne (by rw [he])
          have hor := @mul_add_le_or k k' cmdHeaderSize hk
          simp only [Slot.Apart, Slot.offset, Slot.length]
          omega

theorem length_pos (t : Slot) : 0 < t.length := by
  cases t with
  | data i j => exact unitSize_pos i
  | header j => exact Nat.succ_pos 31

/-- A slot is known by its address. -/
theorem eq_of_address_eq (ht : t.Valid) (hu : u.Valid) (h : t.address m = u.address m) : t = u := by
  by_contra hne
  have hpos := length_pos t
  have hpos' := length_pos u
  have hadd : m.base + t.offset = m.base + u.offset := h
  rcases apart_of_ne ht hu hne with hle | hle <;> omega

/-- A loop over the areas that stops at the last one. -/
theorem find_getD {p : Fin 10 → Prop} [DecidablePred p] (i : Fin 10) :
    ((Fin.find? fun k => k = 9 ∨ p k).getD 9 = i) ↔ (i = 9 ∨ p i) ∧ ∀ k < i, k ≠ 9 ∧ ¬ p k := by
  have hspec : ∀ i, (Fin.find? fun k : Fin 10 => decide (k = 9 ∨ p k)) = some i ↔
      (i = 9 ∨ p i) ∧ ∀ k < i, k ≠ 9 ∧ ¬ p k := by
    intro i
    rw [Fin.find?_eq_some_iff]
    simp
  rw [← hspec]
  cases hf : Fin.find? fun k : Fin 10 => decide (k = 9 ∨ p k) with
  | some k => simp
  | none =>
      rw [Fin.find?_eq_none_iff] at hf
      exact absurd (hf 9) (by simp)

theorem pred_lt (i : Fin 10) (h : i ≠ 0) : i - 1 < i ∧ i - 1 + 1 = i := by
  revert i
  decide

theorem offset_zero : (areas 0).offset = tpcmBufferAreaOffset := rfl

theorem offset_nine : (areas 9).offset + (areas 9).size = tpcmBufferAreaOffset + tpcmBufferAreaSize := by
  decide

/-- **The area of an address** among the data buffers. -/
theorem getAreaPoint_spec (hlo : m.base + tpcmBufferAreaOffset ≤ a)
    (hhi : a < m.base + tpcmBufferAreaOffset + tpcmBufferAreaSize) :
    m.base + (areas (getAreaPoint m a)).offset ≤ a ∧
      a < m.base + (areas (getAreaPoint m a)).offset + (areas (getAreaPoint m a)).size := by
  obtain ⟨hstop, hskip⟩ := (find_getD (getAreaPoint m a)).mp rfl
  generalize getAreaPoint m a = i at hstop hskip
  constructor
  · by_cases h0 : i = 0
    · rw [h0, offset_zero]
      exact hlo
    · have hle := (hskip (i - 1) (pred_lt i h0).1).2
      rw [(pred_lt i h0).2, not_lt] at hle
      exact hle
  · by_cases h9 : i = 9
    · have hend := offset_nine
      rw [h9]
      omega
    · have hlt := hstop.resolve_left h9
      rw [offset_succ i h9] at hlt
      omega

/-- The address of a unit leads back to its area. -/
theorem getAreaPoint_data (hj : j < (areas i).num) (ha : (Slot.data i j).address m = a) :
    getAreaPoint m a = i := by
  have hin := data_within hj
  have hu := unitSize_pos i
  have haddr : a = m.base + (Slot.data i j).offset := ha.symm
  refine (find_getD i).mpr ⟨?_, fun k hk => ?_⟩
  · by_cases h9 : i = 9
    · exact .inl h9
    · right
      rw [offset_succ i h9]
      omega
  · have hk9 : k ≠ 9 := by
      rintro rfl
      exact absurd hk (not_lt.mpr (Fin.le_last i))
    have hnext : (areas (k + 1)).offset ≤ (areas i).offset := by
      rw [offset_succ k hk9]
      exact offset_add_size_le_of_lt hk
    exact ⟨hk9, by omega⟩

/-- An area serves a size exactly from the area where the search starts. -/
theorem getArea_le_iff {n : ℕ} (hn : n ≤ (areas 9).unitSize) :
    getArea n ≤ i ↔ n ≤ (areas i).unitSize := by
  obtain ⟨hstop, hskip⟩ := (find_getD (getArea n)).mp rfl
  have hfits : n ≤ (areas (getArea n)).unitSize := by
    rcases hstop with h9 | hle
    · rw [h9]
      exact hn
    · exact hle
  constructor
  · exact fun hle => hfits.trans (unitSize_mono hle)
  · intro hle
    by_contra hlt
    exact (hskip i (not_le.mp hlt)).2 hle

end Areas

/-! ### The calls -/

theorem tpcmCmdHeaderAreaOffset_eq : tpcmCmdHeaderAreaOffset = 0x1E00000 := by decide

theorem bufferArea_end :
    tpcmBufferAreaOffset + tpcmBufferAreaSize = tpcmCmdHeaderAreaOffset := by decide

theorem tpcmShareMemorySize_eq : tpcmShareMemorySize = 0x1F00000 := by decide

section Calls

variable {m : ShareMem} {s : Shm} {i : Fin 10} {j : ℕ} {a : UInt64}

theorem valid_of_live {t : Slot} (h : t.Live s) : t.Valid := by
  cases t <;> exact h.1

/-- The slots that are given out after one area has changed. -/
theorem live_update_data {p : Pool} {i' : Fin 10} {j' : ℕ} :
    (Slot.data i' j').Live { s with data := Function.update s.data i p } ↔
      if i' = i then j' < (areas i).num ∧ p.InUse j' else (Slot.data i' j').Live s := by
  by_cases h : i' = i
  · subst h
    simp [Slot.Live]
  · simp [Slot.Live, h]

/-- A new slot is apart from those that were given out before. -/
theorem given_of_fresh {s' : Shm} {t : Slot} (ht : t.Valid) (hfresh : ¬ t.Live s)
    (hlive : ∀ u : Slot, u.Live s' ↔ u = t ∨ u.Live s) : Given m s s' (t.address m) t where
  valid := ht
  address := rfl
  apart := fun _ hu => apart_of_ne ht (valid_of_live hu) fun he => hfresh (he ▸ hu)
  live := hlive

theorem allocLoop_none {l : List (Fin 10)} {s' : Shm} (h : allocLoop m s l = (none, s')) :
    s' = s ∧ ∀ i ∈ l, (s.data i).alloc = none := by
  induction l with
  | nil => exact ⟨(Prod.mk.inj h).2.symm, fun _ hi => absurd hi List.not_mem_nil⟩
  | cons k l ih =>
      cases hk : (s.data k).alloc with
      | some r => simp [allocLoop, hk] at h
      | none =>
          simp only [allocLoop, hk] at h
          obtain ⟨hs, hall⟩ := ih h
          exact ⟨hs, List.forall_mem_cons.mpr ⟨hk, hall⟩⟩

theorem allocLoop_some {l : List (Fin 10)} {s' : Shm} {b : ℕ}
    (h : allocLoop m s l = (some b, s')) : ∃ i ∈ l, ∃ j p, (s.data i).alloc = some (j, p) ∧
      b = (Slot.data i j).address m ∧ s' = { s with data := Function.update s.data i p } := by
  induction l with
  | nil => simp [allocLoop] at h
  | cons k l ih =>
      cases hk : (s.data k).alloc with
      | some r =>
          simp only [allocLoop, hk, Prod.mk.injEq, Option.some.injEq] at h
          refine ⟨k, List.mem_cons_self, r.1, r.2, hk, ?_, h.2.symm⟩
          rw [← h.1, Slot.address, Slot.offset]
          omega
      | none =>
          simp only [allocLoop, hk] at h
          obtain ⟨i, hi, hrest⟩ := ih h
          exact ⟨i, List.mem_cons_of_mem _ hi, hrest⟩

theorem mem_drop_finRange (k i : Fin 10) : i ∈ (List.finRange 10).drop k ↔ k ≤ i := by
  revert k i
  decide

/-- The unit that an area gives is one of its own, and no other changes. -/
theorem live_alloc_data {p : Pool} (h : WellFormed s) (ha : (s.data i).alloc = some (j, p)) :
    (Slot.data i j).Valid ∧ ¬ (Slot.data i j).Live s ∧
      (∀ u : Slot, u.Live { s with data := Function.update s.data i p } ↔
        u = .data i j ∨ u.Live s) ∧
      WellFormed { s with data := Function.update s.data i p } := by
  obtain ⟨l, hl⟩ := h.data i
  obtain ⟨hj, hfree, huse, l', hl'⟩ := hl.alloc ha
  refine ⟨hj, fun hlive => hfree hlive.2, ?_, ?_, h.headers⟩
  · intro u
    cases u with
    | header k => simp [Slot.Live]
    | data i' j' =>
        rw [live_update_data]
        by_cases hi : i' = i
        · subst hi
          rw [if_pos rfl, huse, Slot.Live, Slot.data.injEq, and_iff_right rfl]
          constructor
          · exact fun h => h.2.imp id fun hin => ⟨h.1, hin⟩
          · rintro (rfl | h)
            · exact ⟨hj, .inl rfl⟩
            · exact ⟨h.1, .inr h.2⟩
        · simp [hi]
  · intro k
    by_cases hk : k = i
    · subst hk
      exact ⟨l', by simpa using hl'⟩
    · simpa [hk] using h.data k

/-- What a data area takes back. -/
theorem live_free_data {p : Pool} (h : WellFormed s) (hj : j < (areas i).num)
    (hf : (s.data i).free j = some p) :
    (Slot.data i j).Live s ∧
      (∀ u : Slot, u.Live { s with data := Function.update s.data i p } ↔
        u ≠ .data i j ∧ u.Live s) ∧
      WellFormed { s with data := Function.update s.data i p } := by
  obtain ⟨l, hl⟩ := h.data i
  obtain ⟨huse, hin, hl'⟩ := hl.free hj hf
  refine ⟨⟨hj, huse⟩, ?_, ?_, h.headers⟩
  · intro u
    cases u with
    | header k => simp [Slot.Live]
    | data i' j' =>
        rw [live_update_data]
        by_cases hi : i' = i
        · subst hi
          rw [if_pos rfl, hin, Slot.Live]
          simp only [ne_eq, Slot.data.injEq, true_and]
          exact and_left_comm
        · simp [hi]
  · intro k
    by_cases hk : k = i
    · subst hk
      exact ⟨_, by simpa using hl'⟩
    · simpa [hk] using h.data k

/-- The start of a unit is freed in the pool of its area. -/
theorem tddFreeDataBuffer_data (hj : j < (areas i).num) (ha : (Slot.data i j).address m = a.toNat) :
    tddFreeDataBuffer m s a =
      match (s.data i).free j with
      | none => (-1, s)
      | some p => (0, { s with data := Function.update s.data i p }) := by
  have hin := data_within hj
  have hlo := offset_le i
  have hhi := offset_add_size_le i
  have hu := unitSize_pos i
  have haddr : m.base + (Slot.data i j).offset = a.toNat := ha
  have hdiff : a.toNat - (m.base + (areas i).offset) = j * (areas i).unitSize := by
    rw [← haddr, Slot.offset]
    omega
  have hge : ¬ a.toNat ≥ m.base + tpcmBufferAreaOffset + tpcmBufferAreaSize := by
    rw [← bufferArea_end] at hhi
    omega
  have hlt : ¬ a.toNat < m.base + tpcmBufferAreaOffset := by omega
  simp only [tddFreeDataBuffer, if_neg hge, if_neg hlt, getAreaPoint_data hj ha, hdiff,
    Nat.mul_mod_left, ne_eq, not_true_eq_false, if_false, Nat.mul_div_cancel _ hu]

/-- Every other address is refused. -/
theorem tddFreeDataBuffer_other
    (h : ∀ i j, j < (areas i).num → (Slot.data i j).address m ≠ a.toNat) :
    tddFreeDataBuffer m s a = (-1, s) := by
  simp only [tddFreeDataBuffer]
  split_ifs with hge hlt hmod
  · rfl
  · rfl
  · rfl
  · exfalso
    rw [not_not] at hmod
    obtain ⟨hle, hend⟩ := getAreaPoint_spec (not_lt.mp hlt) (not_le.mp hge)
    generalize getAreaPoint m a.toNat = i at hle hend hmod
    have hdvd := Nat.div_mul_cancel (Nat.dvd_of_mod_eq_zero hmod)
    refine h i ((a.toNat - (m.base + (areas i).offset)) / (areas i).unitSize) ?_ ?_
    · refine Nat.div_lt_of_lt_mul ?_
      rw [Nat.mul_comm, num_mul_unitSize]
      omega
    · rw [Slot.address, Slot.offset, hdvd]
      omega

/-- The start of a header leads to its index. -/
theorem headerIndex_header (hj : j < cmdBufferNumber) (ha : (Slot.header j).address m = a.toNat) :
    headerIndex m a = j := by
  have hfits := m.fits
  rw [cmdBufferNumber_eq] at hj
  have haddr : a.toNat = m.base + tpcmCmdHeaderAreaOffset + 32 * j := by
    rw [← ha, Slot.address, Slot.offset, cmdHeaderSize]
    omega
  have hdiff : (a.toNat + (2 ^ 64 - (m.base + tpcmCmdHeaderAreaOffset))) % 2 ^ 64 / cmdHeaderSize
      = j := by
    rw [tpcmShareMemorySize_eq] at hfits
    rw [haddr, cmdHeaderSize, tpcmCmdHeaderAreaOffset_eq]
    omega
  unfold headerIndex
  rw [hdiff, Int.bmod_def]
  omega

theorem live_update_headers {p : Pool} {t : Slot} :
    t.Live { s with headers := p } ↔
      match t with
      | .header j => j < cmdBufferNumber ∧ p.InUse j
      | .data i j => (Slot.data i j).Live s := by
  cases t <;> rfl

/-- What the free function for headers does with an address. -/
theorem tddFreeCmdHeader_cases (m : ShareMem) (s : Shm) (a : UInt64) :
    tddFreeCmdHeader m s a = (-1, s) ∧
        (∀ j : ℕ, j < cmdBufferNumber → headerIndex m a = j → ¬ s.headers.InUse j) ∨
      ∃ j p, j < cmdBufferNumber ∧ headerIndex m a = j ∧ s.headers.free j = some p ∧
        tddFreeCmdHeader m s a = (0, { s with headers := p }) := by
  simp only [tddFreeCmdHeader]
  split_ifs with hrange
  · exact .inl ⟨rfl, fun j hj hidx => absurd hrange (by omega)⟩
  · obtain ⟨j, hj⟩ := Int.eq_ofNat_of_zero_le (not_lt.mp fun h => hrange (.inl h))
    simp only [hj, Int.toNat_natCast]
    cases hf : s.headers.free j with
    | none =>
        refine .inl ⟨rfl, fun k _ hk => ?_⟩
        obtain rfl := Int.natCast_inj.mp hk
        exact free_eq_none.mp hf
    | some p => exact .inr ⟨j, p, by omega, rfl, hf, rfl⟩

theorem conforms_allocData (h : WellFormed s) (size : UInt32) :
    Conforms m s (.allocData size) ∧ WellFormed (shmStep m s (.allocData size)) := by
  rw [Conforms, shmStep]
  by_cases hbad : size = 0 ∨ size.toNat > (areas 9).unitSize
  · rw [tddAllocDataBuffer, if_pos hbad]
    exact ⟨⟨rfl, hbad.imp (fun h0 => by rw [h0]; rfl) .inl⟩, h⟩
  · have hsize : size.toNat ≤ (areas 9).unitSize := not_lt.mp fun hgt => hbad (.inr hgt)
    have hmem : ∀ i, i ∈ (List.finRange 10).drop (getArea size.toNat) ↔
        size.toNat ≤ (areas i).unitSize := by
      intro i
      rw [mem_drop_finRange, getArea_le_iff hsize]
    rw [tddAllocDataBuffer, if_neg hbad]
    rcases hr : allocLoop m s ((List.finRange 10).drop (getArea size.toNat)) with ⟨_ | b, s'⟩
    · obtain ⟨rfl, hall⟩ := allocLoop_none hr
      refine ⟨⟨rfl, .inr (.inr fun i hi j hj => ⟨hj, ?_⟩)⟩, h⟩
      obtain ⟨l, hl⟩ := h.data i
      exact (hl.alloc_eq_none.mp (hall i ((hmem i).mpr hi))) j hj
    · obtain ⟨i, hi, j, p, ha, rfl, rfl⟩ := allocLoop_some hr
      obtain ⟨hj, hfresh, hlive, hwf⟩ := live_alloc_data h ha
      exact ⟨⟨i, j, (hmem i).mp hi, (data_within hj).1, (data_within hj).2,
        fun k _ => data_apart_header hj k, given_of_fresh hj hfresh hlive⟩, hwf⟩

/-- Whatever address it is given, the free function for data buffers conforms. -/
theorem conforms_freeData (h : WellFormed s) (a : UInt64) :
    Conforms m s (.freeData a) ∧ WellFormed (shmStep m s (.freeData a)) := by
  rw [Conforms, shmStep]
  by_cases hex : ∃ i j, j < (areas i).num ∧ (Slot.data i j).address m = a.toNat
  · obtain ⟨i, j, hj, ha⟩ := hex
    rw [tddFreeDataBuffer_data hj ha]
    cases hf : (s.data i).free j with
    | none =>
        refine ⟨.inr ⟨?_, rfl, rfl⟩, h⟩
        rintro _ ⟨i', j', rfl⟩ hlive ha'
        have hsame : Slot.data i' j' = .data i j :=
          eq_of_address_eq (valid_of_live hlive) hj (ha'.trans ha.symm)
        obtain ⟨rfl, rfl⟩ := Slot.data.inj hsame
        exact free_eq_none.mp hf hlive.2
    | some p =>
        obtain ⟨hlive, hrest, hwf⟩ := live_free_data h hj hf
        exact ⟨.inl ⟨_, ⟨i, j, rfl⟩, hlive, ha, rfl, hrest⟩, hwf⟩
  · rw [tddFreeDataBuffer_other fun i j hj ha => hex ⟨i, j, hj, ha⟩]
    refine ⟨.inr ⟨?_, rfl, rfl⟩, h⟩
    rintro _ ⟨i, j, rfl⟩ hlive ha
    exact hex ⟨i, j, hlive.1, ha⟩

theorem conforms_allocHeader (h : WellFormed s) :
    Conforms m s .allocHeader ∧ WellFormed (shmStep m s .allocHeader) := by
  obtain ⟨l, hl⟩ := h.headers
  rw [Conforms, shmStep, tddAllocCmdHeader]
  cases ha : s.headers.alloc with
  | none =>
      have hall := hl.alloc_eq_none.mp ha
      exact ⟨⟨rfl, fun j hj => ⟨hj, hall j hj⟩⟩, h⟩
  | some r =>
      obtain ⟨j, p⟩ := r
      obtain ⟨hj, hfree, huse, l', hl'⟩ := hl.alloc ha
      refine ⟨⟨j, ?_⟩, h.data, l', hl'⟩
      have hlive : ∀ u : Slot, u.Live { s with headers := p } ↔ u = .header j ∨ u.Live s := by
        intro u
        rw [live_update_headers]
        cases u with
        | data i k => simp
        | header k =>
            simp only [huse, Slot.header.injEq, Slot.Live]
            constructor
            · exact fun h => h.2.imp id fun hin => ⟨h.1, hin⟩
            · rintro (rfl | h)
              · exact ⟨hj, .inl rfl⟩
              · exact ⟨h.1, .inr h.2⟩
      have haddr : m.base + tpcmCmdHeaderAreaOffset + j * cmdHeaderSize =
          (Slot.header j).address m := Nat.add_assoc _ _ _
      simp only [haddr]
      exact given_of_fresh hj (fun hlive => hfree hlive.2) hlive

theorem conforms_freeHeader (h : WellFormed s) (hok : FreesHeader m s (.freeHeader a)) :
    Conforms m s (.freeHeader a) ∧ WellFormed (shmStep m s (.freeHeader a)) := by
  obtain ⟨l, hl⟩ := h.headers
  rw [Conforms, shmStep]
  obtain ⟨hr, hnot⟩ | ⟨j, p, hj, hidx, hf, hr⟩ := tddFreeCmdHeader_cases m s a
  · rw [hr]
    refine ⟨.inr ⟨?_, rfl, rfl⟩, h⟩
    rintro _ ⟨j, rfl⟩ hlive ha
    exact hnot j hlive.1 (headerIndex_header hlive.1 ha) hlive.2
  · rw [hr]
    obtain ⟨huse, hin, hl'⟩ := hl.free hj hf
    refine ⟨.inl ⟨.header j, ⟨j, rfl⟩, ⟨hj, huse⟩, ?_, rfl, fun u => ?_⟩, h.data, _, hl'⟩
    · obtain ⟨k, hk, ha⟩ := hok.resolve_right fun hno => hno j hidx ⟨hj, huse⟩
      obtain rfl := Int.natCast_inj.mp ((headerIndex_header hk ha).symm.trans hidx)
      exact ha
    · rw [live_update_headers]
      cases u with
      | data i k => simp
      | header k =>
          simp only [hin, ne_eq, Slot.header.injEq, Slot.Live]
          exact and_left_comm

theorem conforms_step (h : WellFormed s) {op : ShmOp} (hok : FreesHeader m s op) :
    Conforms m s op ∧ WellFormed (shmStep m s op) := by
  cases op with
  | allocData size => exact conforms_allocData h size
  | freeData a => exact conforms_freeData h a
  | allocHeader => exact conforms_allocHeader h
  | freeHeader a => exact conforms_freeHeader h hok

theorem wellFormed_init : WellFormed shmInit :=
  ⟨fun _ => ⟨_, inOrder_full _⟩, _, inOrder_full _⟩

/-- **In every run in which no stray address hits a header in use, every call does what
the callers rely on**, and the free lists are in order after every call. -/
theorem shm_conforms {ops : List ShmOp} (m : ShareMem)
    (hok : Run.Meets (fun s op => some (shmStep m s op)) (FreesHeader m) shmInit ops) :
    Run.Meets (fun s op => some (shmStep m s op))
      (fun s op => WellFormed s ∧ Conforms m s op ∧ WellFormed (shmStep m s op)) shmInit ops := by
  refine Run.meets_of_invariant ?_ ?_ wellFormed_init hok
  · intro s op s' hs hop hstep
    obtain rfl := Option.some.inj hstep
    exact (conforms_step hs hop).2
  · exact fun s op hs hop => ⟨hs, conforms_step hs hop⟩

end Calls

/-- Some memory. -/
def someMem : ShareMem := ⟨0x10000000000, by decide, by decide⟩

/-- The address of the first header that is given out. -/
def firstHeader : UInt64 := 0x10001EFFFE0

/-- A buffer and a header are taken, a stray buffer is freed, and the header is given back. -/
theorem shm_conforms_header_returned :
    Run.Meets (fun s op => some (shmStep someMem s op))
      (fun s op => WellFormed s ∧ Conforms someMem s op ∧ WellFormed (shmStep someMem s op)) shmInit
      [.allocData 100, .freeData 7, .allocHeader, .freeHeader firstHeader] :=
  shm_conforms someMem
    ⟨trivial, fun _ _ => ⟨trivial, fun _ _ => ⟨trivial, fun _ _ =>
      ⟨.inl ⟨32767, by decide, by decide⟩, fun _ _ => trivial⟩⟩⟩⟩

/-- The state after one header has been given out. -/
def oneHeader : Shm := shmStep someMem shmInit .allocHeader

/-- **An address inside a header frees the header:** no slot starts there, and the call
returns 0. -/
theorem shm_free_inside_header : ¬ Conforms someMem oneHeader (.freeHeader (firstHeader + 1)) := by
  have hret : (tddFreeCmdHeader someMem oneHeader (firstHeader + 1)).1 = 0 := by decide +kernel
  rintro (⟨_, ⟨j, rfl⟩, -, haddr, -⟩ | ⟨-, hrefused, -⟩)
  · have hnum : (firstHeader + 1).toNat = 0x10001EFFFE1 := by decide
    rw [hnum, Slot.address, Slot.offset, cmdHeaderSize, tpcmCmdHeaderAreaOffset_eq] at haddr
    have hbase : someMem.base = 0x10000000000 := rfl
    omega
  · rw [hret] at hrefused
    exact absurd hrefused (by decide)

end Tdd
end TsbAgent
