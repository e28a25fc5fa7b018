/-
# The array of elements of one size

`tss-main/httcutils/src/array.c`: `struct httc_util_array` with elements of `element_size` bytes, of which `size`
are in use and `capability` have room.  It is to be a list of elements.

| the call | goes wrong |
| --- | --- |
| `httc_util_array_get`, `_set` | `index < 0 && index >= a->size` is never true: no index is rejected |
| `httc_util_array_set_size` | a negative size is taken |
| both that may grow | `element_size` times the new capacity is an `int` |

`array_refines_list`: as long as nothing of that kind is asked for, every run of calls is a run of calls on a list,
and no call leaves the block that was allocated.  An index is asked for where the list has no element: there the
guards let every call through (`get_answers_iff`).
-/

import TsbAgent.Lib.Memory
import TsbAgent.Lib.Run
import TsbAgent.Lib.Word

namespace TsbAgent

open Libc Word

/-- `struct httc_util_array`; `allocated` is how many bytes were asked for at `array`. -/
structure HttcUtilArray where
  incCapability : ℤ
  elementSize : ℤ
  array : Memory
  allocated : ℕ
  capability : ℤ
  size : ℤ

namespace HttcUtilArray

/-- What a call leaves: the array, what it returns, what it copies to `data`, and its accesses to the array. -/
structure Reply where
  array : HttcUtilArray
  ret : ℤ
  data : Bytes
  accesses : List Span

/-! ### The functions -/

variable (a : HttcUtilArray)

/-- `a->element_size` as a number of bytes. -/
def bytesEach : ℕ := sizeT a.elementSize

/-- `index * a->element_size`. -/
def offset (index : ℤ) : ℤ := int32 (index * a.elementSize)

/-- The access to an element. -/
def span (index : ℤ) : Span := ⟨a.offset index, a.bytesEach, a.allocated⟩

/-- `httc_util_array_init`; `mem` is what `httc_malloc` gives, and what is in there. -/
def init (elementSize initCap incCap : ℤ) (mem : Option Memory) : Option HttcUtilArray :=
  match mem with
  | none => none
  | some p =>
      let nsize := sizeT (int32 (elementSize * initCap))
      some ⟨incCap, elementSize, p.store 0 (List.replicate nsize 0), nsize, initCap, 0⟩

/-- `httc_util_array_inflate`. -/
def inflate (moreNum : ℤ) (mem : Option Memory) : Reply :=
  match mem with
  | none => ⟨a, -1, [], []⟩
  | some p =>
      let nsize := sizeT (int32 (a.elementSize * (a.capability + moreNum)))
      let used := sizeT (int32 (a.elementSize * a.size))
      ⟨⟨a.incCapability, a.elementSize, p.store 0 (a.array.bytes 0 used), nsize, int32 (a.capability + moreNum),
          a.size⟩, 0, [], [⟨0, used, nsize⟩, ⟨0, used, a.allocated⟩]⟩

/-- `httc_util_array_get`. -/
def get (index : ℤ) : Reply :=
  if index < 0 ∧ a.size ≤ index then ⟨a, -1, [], []⟩
  else ⟨a, 0, a.array.bytes (a.offset index) a.bytesEach, [a.span index]⟩

/-- `memcpy` to an element. -/
def put (index : ℤ) (data : Memory) : HttcUtilArray :=
  { a with array := a.array.store (a.offset index) (data.bytes 0 a.bytesEach) }

/-- `httc_util_array_set`. -/
def set (index : ℤ) (data : Memory) : Reply :=
  if index < 0 ∧ a.size ≤ index then ⟨a, -1, [], []⟩
  else ⟨a.put index data, 0, [], [a.span index]⟩

/-- `httc_util_array_append`. -/
def append (data : Memory) (mem : Option Memory) : Reply :=
  let r := if a.size = a.capability then a.inflate a.incCapability mem else ⟨a, 0, [], []⟩
  if r.ret ≠ 0 then r
  else
    ⟨{ r.array.put r.array.size data with size := int32 (r.array.size + 1) }, 0, [],
      r.accesses ++ [r.array.span r.array.size]⟩

/-- `httc_util_array_set_size`. -/
def setSize (nsize : ℤ) (mem : Option Memory) : Reply :=
  let r := if a.capability < nsize then a.inflate (nsize - a.capability) mem else ⟨a, 0, [], []⟩
  if r.ret ≠ 0 then r else ⟨{ r.array with size := nsize }, 0, [], r.accesses⟩

/-- `httc_util_array_get_size`. -/
def getSize : Reply := ⟨a, a.size, [], []⟩

/-- The loop of `httc_util_array_check` over these indices. -/
def checkLoop (data : Memory) : List ℕ → Reply
  | [] => ⟨a, 1, [], []⟩
  | i :: rest =>
      if memcmp a.bytesEach (a.array.bytes (a.offset i) a.bytesEach) (data.bytes 0 a.bytesEach) = 0 then
        ⟨a, 0, [], [a.span i]⟩
      else
        let r := checkLoop data rest
        { r with accesses := a.span i :: r.accesses }

/-- `httc_util_array_check`. -/
def check (data : Memory) : Reply := a.checkLoop data (List.range a.size.toNat)

/-- A call with its arguments; `mem` is what `httc_malloc` gives if the call asks for memory. -/
inductive Call
  | get (index : ℤ)
  | set (index : ℤ) (data : Memory)
  | append (data : Memory) (mem : Option Memory)
  | setSize (nsize : ℤ) (mem : Option Memory)
  | getSize
  | check (data : Memory)

def call : Call → Reply
  | .get index => a.get index
  | .set index data => a.set index data
  | .append data mem => a.append data mem
  | .setSize nsize mem => a.setSize nsize mem
  | .getSize => a.getSize
  | .check data => a.check data

/-- The array with what was returned and what was accessed so far. -/
structure Use where
  array : HttcUtilArray
  answers : List (ℤ × Bytes)
  accesses : List Span

def step (u : Use) (c : Call) : Option Use :=
  some ⟨(u.array.call c).array, u.answers ++ [((u.array.call c).ret, (u.array.call c).data)],
    u.accesses ++ (u.array.call c).accesses⟩

/-! ### What an array is for -/

/-- A list of elements, with what was returned so far. -/
structure Elements where
  list : List Bytes
  answers : List (ℤ × Bytes)

/-- What a call on a list of elements of `n` bytes returns, and the list that it leaves. -/
def Answers (n : ℕ) (xs : List Bytes) : Call → ℤ → Bytes → List Bytes → Prop
  | .get index, ret, data, xs' =>
      xs' = xs ∧ if 0 ≤ index ∧ index < xs.length then ret = 0 ∧ xs[index.toNat]? = some data else ret = -1
  | .set index data, ret, _, xs' =>
      if 0 ≤ index ∧ index < xs.length then ret = 0 ∧ xs' = xs.set index.toNat (data.bytes 0 n)
      else ret = -1 ∧ xs' = xs
  | .append data mem, ret, _, xs' =>
      ret = 0 ∧ xs' = xs ++ [data.bytes 0 n] ∨ mem = none ∧ ret = -1 ∧ xs' = xs
  | .setSize nsize mem, ret, _, xs' =>
      ret = 0 ∧ (xs'.length : ℤ) = nsize ∧ xs'.take xs.length = xs.take xs'.length ∨
        mem = none ∧ ret = -1 ∧ xs' = xs
  | .getSize, ret, _, xs' => ret = xs.length ∧ xs' = xs
  | .check data, ret, _, xs' => (ret = 0 ↔ data.bytes 0 n ∈ xs) ∧ xs' = xs

/-- A call on a list of elements. -/
def listStep (n : ℕ) (t : Elements) (c : Call) (t' : Elements) : Prop :=
  ∃ ret data, Answers n t.list c ret data t'.list ∧ t'.answers = t.answers ++ [(ret, data)]

/-- The elements in use. -/
def elements : List Bytes := a.array.cells a.elementSize.toNat a.size.toNat

/-- What the call asks for is there: an index has an element, a size is not negative, and a size in bytes fits in
an `int`, unless there is no memory anyway. -/
def Clean : Call → Prop
  | .get index => 0 ≤ index ∧ index < a.size
  | .set index _ => 0 ≤ index ∧ index < a.size
  | .append _ mem =>
      a.size = a.capability → mem ≠ none → a.elementSize * (a.capability + a.incCapability) < 2 ^ 31
  | .setSize nsize mem => 0 ≤ nsize ∧ (a.capability < nsize → mem ≠ none → a.elementSize * nsize < 2 ^ 31)
  | .getSize => True
  | .check _ => True

/-- The elements in use have room, and the room is allocated. -/
structure Sound (a : HttcUtilArray) : Prop where
  element : 0 < a.elementSize
  element_int : a.elementSize < 2 ^ 31
  inc : 0 < a.incCapability
  nonneg : 0 ≤ a.size
  size_le : a.size ≤ a.capability
  int : a.elementSize * a.capability < 2 ^ 31
  room : (a.allocated : ℤ) = a.elementSize * a.capability

variable {a : HttcUtilArray}

/-! ### Where the elements are -/

namespace Sound

theorem bytesEach (h : Sound a) : a.bytesEach = a.elementSize.toNat := by
  have h1 := h.element
  have h2 := h.element_int
  rw [HttcUtilArray.bytesEach, sizeT]
  omega

/-- No index is below 0 and at least the size. -/
theorem not_guard (h : Sound a) (index : ℤ) : ¬ (index < 0 ∧ a.size ≤ index) := by
  have hsize := h.nonneg
  rintro ⟨hneg, hlarge⟩
  omega

/-- Up to the capacity the `int` arithmetic is exact. -/
theorem le_room (h : Sound a) {i : ℤ} (hi : i ≤ a.capability) :
    i * a.elementSize ≤ a.elementSize * a.capability := by
  rw [mul_comm a.elementSize]
  exact mul_le_mul_of_nonneg_right hi h.element.le

theorem offset (h : Sound a) {j : ℕ} (hj : (j : ℤ) ≤ a.capability) :
    a.offset j = j * (a.elementSize.toNat : ℤ) := by
  have h0 : 0 ≤ (j : ℤ) * a.elementSize := mul_nonneg (Int.natCast_nonneg j) h.element.le
  rw [HttcUtilArray.offset, int32_eq h0 (lt_of_le_of_lt (h.le_room hj) h.int), Int.toNat_of_nonneg h.element.le]

theorem span_inside (h : Sound a) {j : ℕ} (hj : (j : ℤ) < a.capability) : (a.span j).Inside := by
  have hend := h.le_room (show (j : ℤ) + 1 ≤ a.capability from hj)
  have h0 : 0 ≤ (j : ℤ) * a.elementSize := mul_nonneg (Int.natCast_nonneg j) h.element.le
  rw [add_mul, one_mul] at hend
  rw [Span.Inside, span, h.offset hj.le, h.bytesEach, Int.toNat_of_nonneg h.element.le, h.room]
  exact ⟨h0, hend⟩

theorem getElem?_elements (h : Sound a) {j : ℕ} (hj : (j : ℤ) < a.size) :
    a.elements[j]? = some (a.array.bytes (a.offset j) a.bytesEach) := by
  have hlt : j < a.size.toNat := by omega
  rw [elements, Memory.getElem?_cells hlt, h.offset (hj.le.trans h.size_le), h.bytesEach]

theorem length_elements (h : Sound a) : (a.elements.length : ℤ) = a.size := by
  rw [elements, Memory.length_cells, Int.toNat_of_nonneg h.nonneg]

/-- A copy to an element. -/
theorem elements_put (h : Sound a) {j : ℕ} (hj : (j : ℤ) < a.size) (data : Memory) :
    (a.put j data).elements = a.elements.set j (data.bytes 0 a.elementSize.toNat) := by
  rw [elements, elements, put, h.offset (hj.le.trans h.size_le), h.bytesEach]
  exact Memory.cells_store (Memory.length_bytes _ _ _)

theorem put (h : Sound a) (j : ℤ) (data : Memory) : (a.put j data).Sound :=
  ⟨h.element, h.element_int, h.inc, h.nonneg, h.size_le, h.int, h.room⟩

end Sound

/-! ### Growing -/

/-- `b` is `a` with a capacity that may be larger. -/
structure Grown (a b : HttcUtilArray) : Prop where
  sound : b.Sound
  elements : b.elements = a.elements
  elementSize : b.elementSize = a.elementSize
  size : b.size = a.size

theorem Sound.grown (h : Sound a) : Grown a a := ⟨h, rfl, rfl, rfl⟩

/-- **Growing keeps the elements.** -/
theorem inflate_spec (h : Sound a) {moreNum : ℤ} (hmore : 0 ≤ moreNum)
    (hint : a.elementSize * (a.capability + moreNum) < 2 ^ 31) (p : Memory) :
    Grown a (a.inflate moreNum (some p)).array ∧
      (a.inflate moreNum (some p)).array.capability = a.capability + moreNum ∧
      ∀ s ∈ (a.inflate moreNum (some p)).accesses, s.Inside := by
  have hcap : 0 ≤ a.capability := h.nonneg.trans h.size_le
  have h0 : 0 ≤ a.elementSize * (a.capability + moreNum) := mul_nonneg h.element.le (by omega)
  have hused0 : 0 ≤ a.elementSize * a.size := mul_nonneg h.element.le h.nonneg
  have hused : a.elementSize * a.size ≤ a.elementSize * a.capability :=
    mul_le_mul_of_nonneg_left h.size_le h.element.le
  have hle : a.elementSize * a.capability ≤ a.elementSize * (a.capability + moreNum) :=
    mul_le_mul_of_nonneg_left (by omega) h.element.le
  -- an element has at least one byte, so the capacity is an `int`, too
  have hone : a.capability + moreNum ≤ a.elementSize * (a.capability + moreNum) :=
    le_mul_of_one_le_left (by omega) h.element
  have hsize : ∀ z : ℤ, 0 ≤ z → z < 2 ^ 31 → (sizeT (int32 z) : ℤ) = z := by
    intro z hz hlt
    rw [int32_eq hz hlt, sizeT]
    omega
  have hroom := hsize _ h0 hint
  have hcopy := hsize _ hused0 (lt_of_le_of_lt hused h.int)
  have hcapInt : int32 (a.capability + moreNum) = a.capability + moreNum :=
    int32_eq (by omega) (lt_of_le_of_lt hone hint)
  refine ⟨⟨⟨h.element, h.element_int, h.inc, h.nonneg, ?_, ?_, ?_⟩, ?_, rfl, rfl⟩, hcapInt, ?_⟩
  · show a.size ≤ int32 (a.capability + moreNum)
    rw [hcapInt]
    exact h.size_le.trans (by omega)
  · show a.elementSize * int32 (a.capability + moreNum) < 2 ^ 31
    rw [hcapInt]
    exact hint
  · show ((sizeT (int32 (a.elementSize * (a.capability + moreNum))) : ℕ) : ℤ) =
      a.elementSize * int32 (a.capability + moreNum)
    rw [hcapInt]
    exact hroom
  · refine Memory.cells_copy ?_
    have hn : ((a.size.toNat * a.elementSize.toNat : ℕ) : ℤ) = a.elementSize * a.size := by
      rw [Nat.cast_mul, Int.toNat_of_nonneg h.nonneg, Int.toNat_of_nonneg h.element.le, mul_comm]
    have hle' : ((a.size.toNat * a.elementSize.toNat : ℕ) : ℤ) ≤ (sizeT (int32 (a.elementSize * a.size)) : ℕ) := by
      rw [hn, hcopy]
    exact_mod_cast hle'
  · rw [inflate, List.forall_mem_cons, List.forall_mem_singleton, Span.Inside, Span.Inside]
    simp only [hroom, hcopy, h.room]
    exact ⟨⟨le_rfl, by omega⟩, le_rfl, by omega⟩

/-! ### One call -/

/-- The call is answered as on the list of the elements, leaves an array that is sound, and stays inside the
block. -/
structure Follows (a : HttcUtilArray) (c : Call) : Prop where
  answers : Answers a.elementSize.toNat a.elements c (a.call c).ret (a.call c).data (a.call c).array.elements
  sound : (a.call c).array.Sound
  elementSize : (a.call c).array.elementSize = a.elementSize
  inside : ∀ s ∈ (a.call c).accesses, s.Inside

theorem get_follows (h : Sound a) {index : ℤ} (h0 : 0 ≤ index) (hlt : index < a.size) :
    Follows a (.get index) := by
  have hcall : a.call (.get index) =
      ⟨a, 0, a.array.bytes (a.offset index) a.bytesEach, [a.span index]⟩ := if_neg (h.not_guard index)
  obtain ⟨j, rfl⟩ := Int.eq_ofNat_of_zero_le h0
  constructor <;> rw [hcall]
  · refine ⟨rfl, ?_⟩
    rw [if_pos ⟨h0, h.length_elements.symm ▸ hlt⟩, Int.toNat_natCast]
    exact ⟨rfl, h.getElem?_elements hlt⟩
  · exact h
  · exact List.forall_mem_singleton.mpr (h.span_inside (hlt.trans_le h.size_le))

theorem set_follows (h : Sound a) {index : ℤ} (h0 : 0 ≤ index) (hlt : index < a.size) (data : Memory) :
    Follows a (.set index data) := by
  have hcall : a.call (.set index data) = ⟨a.put index data, 0, [], [a.span index]⟩ :=
    if_neg (h.not_guard index)
  obtain ⟨j, rfl⟩ := Int.eq_ofNat_of_zero_le h0
  constructor <;> rw [hcall]
  · rw [Answers, if_pos ⟨h0, h.length_elements.symm ▸ hlt⟩, Int.toNat_natCast]
    exact ⟨rfl, h.elements_put hlt data⟩
  · exact h.put j data
  · rfl
  · exact List.forall_mem_singleton.mpr (h.span_inside (hlt.trans_le h.size_le))

/-- Behind the elements there is room for one more. -/
theorem Sound.push (h : Sound a) (hlt : a.size < a.capability) (data : Memory) :
    Sound { a.put a.size data with size := int32 (a.size + 1) } ∧
      HttcUtilArray.elements { a.put a.size data with size := int32 (a.size + 1) } =
        a.elements ++ [data.bytes 0 a.elementSize.toNat] ∧
      (a.span a.size).Inside := by
  have hcap : a.capability ≤ a.elementSize * a.capability :=
    le_mul_of_one_le_left (h.nonneg.trans h.size_le) h.element
  have hint := h.int
  have h0 := h.nonneg
  have hsucc : int32 (a.size + 1) = a.size + 1 := int32_eq (by omega) (by omega)
  obtain ⟨k, hk⟩ := Int.eq_ofNat_of_zero_le h0
  rw [hsucc]
  refine ⟨⟨h.element, h.element_int, h.inc, ?_, hlt, h.int, h.room⟩, ?_, ?_⟩
  · show 0 ≤ a.size + 1
    omega
  · rw [elements, elements, HttcUtilArray.put, h.bytesEach]
    show Memory.cells (a.array.store (a.offset a.size) _) a.elementSize.toNat (a.size + 1).toNat = _
    have htoNat : ((k : ℤ) + 1).toNat = k + 1 := by omega
    rw [hk] at hlt ⊢
    rw [h.offset hlt.le, htoNat, Int.toNat_natCast]
    exact Memory.cells_store_succ (Memory.length_bytes _ _ _)
  · rw [hk] at hlt ⊢
    exact h.span_inside hlt

/-- What is appended to an array that has grown. -/
theorem append_grown {b : HttcUtilArray} (hb : Grown a b) (hlt : b.size < b.capability) {data : Memory}
    {mem : Option Memory} {accesses : List Span} (hin : ∀ s ∈ accesses, s.Inside)
    (hcall : a.append data mem =
      ⟨{ b.put b.size data with size := int32 (b.size + 1) }, 0, [], accesses ++ [b.span b.size]⟩) :
    Follows a (.append data mem) := by
  obtain ⟨hsound, helements, hspan⟩ := hb.sound.push hlt data
  have hcall : a.call (.append data mem) = _ := hcall
  constructor <;> rw [hcall]
  · refine .inl ⟨rfl, ?_⟩
    rw [helements, hb.elements, hb.elementSize]
  · exact hsound
  · exact hb.elementSize
  · exact List.forall_mem_append.mpr ⟨hin, List.forall_mem_singleton.mpr hspan⟩

theorem append_follows (h : Sound a) {data : Memory} {mem : Option Memory} (hc : Clean a (.append data mem)) :
    Follows a (.append data mem) := by
  rcases eq_or_ne a.size a.capability with hfull | hroom
  · cases mem with
    | none =>
        have hcall : a.call (.append data none) = ⟨a, -1, [], []⟩ := by
          rw [call, append, if_pos hfull, inflate, if_pos (show (-1 : ℤ) ≠ 0 by decide)]
        constructor <;> rw [hcall]
        · exact .inr ⟨rfl, rfl, rfl⟩
        · exact h
        · exact fun _ hs => absurd hs List.not_mem_nil
    | some p =>
        obtain ⟨hgrown, hcap, hin⟩ := inflate_spec h h.inc.le (hc hfull (Option.some_ne_none p)) p
        refine append_grown hgrown ?_ hin ?_
        · have hinc := h.inc
          rw [hgrown.size, hcap]
          omega
        · have hret : ¬ (a.inflate a.incCapability (some p)).ret ≠ 0 := not_not.mpr rfl
          rw [append, if_pos hfull, if_neg hret]
  · have hlt : a.size < a.capability := lt_of_le_of_ne h.size_le hroom
    refine append_grown h.grown hlt (fun _ hs => absurd hs List.not_mem_nil) ?_
    rw [append, if_neg hroom, if_neg (not_not.mpr rfl)]

/-- Another size that the capacity allows: the elements that were in use and still are stay. -/
theorem resize_grown {b : HttcUtilArray} (hb : Grown a b) {nsize : ℤ} (h0 : 0 ≤ nsize) (hle : nsize ≤ b.capability)
    {mem : Option Memory} {accesses : List Span} (hin : ∀ s ∈ accesses, s.Inside)
    (hcall : a.setSize nsize mem = ⟨{ b with size := nsize }, 0, [], accesses⟩) :
    Follows a (.setSize nsize mem) := by
  have hcall : a.call (.setSize nsize mem) = _ := hcall
  constructor <;> rw [hcall]
  · refine .inl ⟨rfl, ?_, ?_⟩
    · rw [elements, Memory.length_cells, Int.toNat_of_nonneg h0]
    · rw [← hb.elements]
      show (b.array.cells b.elementSize.toNat nsize.toNat).take b.elements.length =
        b.elements.take (b.array.cells b.elementSize.toNat nsize.toNat).length
      rw [elements, Memory.length_cells, Memory.length_cells]
      rcases Nat.le_total b.size.toNat nsize.toNat with h | h
      · rw [Memory.take_cells h, List.take_of_length_le (by rw [Memory.length_cells]; exact h)]
      · rw [Memory.take_cells h, List.take_of_length_le (by rw [Memory.length_cells]; exact h)]
  · exact ⟨hb.sound.element, hb.sound.element_int, hb.sound.inc, h0, hle, hb.sound.int, hb.sound.room⟩
  · exact hb.elementSize
  · exact hin

theorem setSize_follows (h : Sound a) {nsize : ℤ} {mem : Option Memory} (hc : Clean a (.setSize nsize mem)) :
    Follows a (.setSize nsize mem) := by
  obtain ⟨h0, hint⟩ := hc
  rcases Int.lt_or_le a.capability nsize with hlt | hle
  · cases mem with
    | none =>
        have hcall : a.call (.setSize nsize none) = ⟨a, -1, [], []⟩ := by
          rw [call, setSize, if_pos hlt, inflate, if_pos (show (-1 : ℤ) ≠ 0 by decide)]
        constructor <;> rw [hcall]
        · exact .inr ⟨rfl, rfl, rfl⟩
        · exact h
        · exact fun _ hs => absurd hs List.not_mem_nil
    | some p =>
        have hsum : a.capability + (nsize - a.capability) = nsize := by omega
        obtain ⟨hgrown, hcap, hin⟩ := inflate_spec h (show 0 ≤ nsize - a.capability by omega)
          (hsum.symm ▸ hint hlt (Option.some_ne_none p)) p
        refine resize_grown hgrown h0 ?_ hin ?_
        · rw [hcap, hsum]
        · have hret : ¬ (a.inflate (nsize - a.capability) (some p)).ret ≠ 0 := not_not.mpr rfl
          rw [setSize, if_pos hlt, if_neg hret]
  · refine resize_grown h.grown h0 hle (fun _ hs => absurd hs List.not_mem_nil) ?_
    rw [setSize, if_neg (Int.not_lt.mpr hle), if_neg (not_not.mpr rfl)]

/-- The loop finds the bytes among these elements, and reads no others. -/
theorem checkLoop_spec (h : Sound a) (data : Memory) {is : List ℕ} (his : ∀ i ∈ is, (i : ℤ) < a.capability) :
    (a.checkLoop data is).array = a ∧
      ((a.checkLoop data is).ret = 0 ↔
        data.bytes 0 a.bytesEach ∈ is.map fun (i : ℕ) => a.array.bytes (a.offset i) a.bytesEach) ∧
      ∀ s ∈ (a.checkLoop data is).accesses, s.Inside := by
  induction is with
  | nil =>
      have hret : (1 : ℤ) ≠ 0 := by decide
      exact ⟨rfl, iff_of_false hret List.not_mem_nil, fun _ hs => absurd hs List.not_mem_nil⟩
  | cons i is ih =>
      have hspan := h.span_inside (his i List.mem_cons_self)
      obtain ⟨ih₁, ih₂, ih₃⟩ := ih fun j hj => his j (List.mem_cons_of_mem _ hj)
      have hcmp : memcmp a.bytesEach (a.array.bytes (a.offset i) a.bytesEach) (data.bytes 0 a.bytesEach) = 0 ↔
          a.array.bytes (a.offset i) a.bytesEach = data.bytes 0 a.bytesEach := by
        rw [memcmp_eq_zero (Memory.length_bytes _ _ _).ge (Memory.length_bytes _ _ _).ge,
          List.take_of_length_le (Memory.length_bytes _ _ _).le,
          List.take_of_length_le (Memory.length_bytes _ _ _).le]
      rw [checkLoop, List.map_cons, List.mem_cons]
      rcases em (a.array.bytes (a.offset i) a.bytesEach = data.bytes 0 a.bytesEach) with heq | hne
      · rw [if_pos (hcmp.mpr heq)]
        exact ⟨rfl, iff_of_true rfl (.inl heq.symm), List.forall_mem_singleton.mpr hspan⟩
      · rw [if_neg fun hm => hne (hcmp.mp hm), or_iff_right (Ne.symm hne)]
        exact ⟨ih₁, ih₂, List.forall_mem_cons.mpr ⟨hspan, ih₃⟩⟩

theorem check_follows (h : Sound a) (data : Memory) : Follows a (.check data) := by
  have hlt : ∀ i ∈ List.range a.size.toNat, (i : ℤ) < a.size := by
    intro i hi
    have := List.mem_range.mp hi
    omega
  obtain ⟨harray, hret, hin⟩ := checkLoop_spec h data fun i hi => (hlt i hi).trans_le h.size_le
  have helements :
      ((List.range a.size.toNat).map fun (i : ℕ) => a.array.bytes (a.offset i) a.bytesEach) = a.elements := by
    refine List.map_congr_left fun i hi => ?_
    rw [h.offset ((hlt i hi).le.trans h.size_le), h.bytesEach]
  have hcall : (a.call (.check data)).array = a := harray
  refine ⟨⟨?_, congrArg elements hcall⟩, ?_, congrArg HttcUtilArray.elementSize hcall, hin⟩
  · rw [← helements, ← h.bytesEach]
    exact hret
  · rw [hcall]
    exact h

/-- **A call that asks for what is there does what it does on a list.** -/
theorem call_follows (h : Sound a) {c : Call} (hc : Clean a c) : Follows a c := by
  cases c with
  | get index => exact get_follows h hc.1 hc.2
  | set index data => exact set_follows h hc.1 hc.2 data
  | append data mem => exact append_follows h hc
  | setSize nsize mem => exact setSize_follows h hc
  | getSize => exact ⟨⟨h.length_elements.symm, rfl⟩, h, rfl, fun _ hs => absurd hs List.not_mem_nil⟩
  | check data => exact check_follows h data

/-! ### All calls -/

/-- An array that has just been made, with sizes that fit in an `int`, has no elements. -/
theorem init_sound {elementSize initCap incCap : ℤ} {mem : Option Memory}
    (hinit : init elementSize initCap incCap mem = some a) (helement : 0 < elementSize ∧ elementSize < 2 ^ 31)
    (hcap : 0 ≤ initCap) (hint : elementSize * initCap < 2 ^ 31) (hinc : 0 < incCap) :
    Sound a ∧ a.elements = [] ∧ a.elementSize = elementSize := by
  cases mem with
  | none => cases hinit
  | some p =>
      obtain rfl := Option.some.inj hinit
      refine ⟨⟨helement.1, helement.2, hinc, le_rfl, hcap, hint, ?_⟩, rfl, rfl⟩
      have h0 : 0 ≤ elementSize * initCap := mul_nonneg helement.1.le hcap
      show (sizeT (int32 (elementSize * initCap)) : ℤ) = elementSize * initCap
      rw [int32_eq h0 hint, sizeT]
      omega

/-- The array with what it has answered and accessed is the list with what it has answered. -/
structure Refines (n : ℕ) (u : Use) (t : Elements) : Prop where
  sound : u.array.Sound
  elementSize : u.array.elementSize.toNat = n
  list : t.list = u.array.elements
  answers : t.answers = u.answers
  inside : ∀ s ∈ u.accesses, s.Inside

/-- **One step.** -/
theorem step_refines {n : ℕ} (u : Use) (t : Elements) (c : Call) (u' : Use) (h : Refines n u t)
    (hc : Clean u.array c) (hstep : step u c = some u') : ∃ t', listStep n t c t' ∧ Refines n u' t' := by
  obtain rfl := Option.some.inj hstep
  obtain ⟨hanswers, hsound, helement, hinside⟩ := call_follows h.sound hc
  rw [h.elementSize, ← h.list] at hanswers
  refine ⟨⟨_, t.answers ++ [_]⟩, ⟨_, _, hanswers, rfl⟩, hsound, ?_, rfl, ?_, ?_⟩
  · rw [helement]
    exact h.elementSize
  · rw [h.answers]
  · exact List.forall_mem_append.mpr ⟨h.inside, hinside⟩

/-- **The array is a list of elements**, in every run of calls that ask for what is there. -/
theorem array_refines_list {elementSize initCap incCap : ℤ} {mem : Option Memory} {calls : List Call}
    (hinit : init elementSize initCap incCap mem = some a) (helement : 0 < elementSize ∧ elementSize < 2 ^ 31)
    (hcap : 0 ≤ initCap) (hint : elementSize * initCap < 2 ^ 31) (hinc : 0 < incCap)
    (hok : Run.Meets step (fun u c => Clean u.array c) ⟨a, [], []⟩ calls) :
    ∃ u t, Run.run step ⟨a, [], []⟩ calls = some u ∧
      Run.Steps (listStep elementSize.toNat) ⟨[], []⟩ calls t ∧ t.list = u.array.elements ∧
      t.answers = u.answers ∧ ∀ s ∈ u.accesses, s.Inside := by
  obtain ⟨hsound, helements, hsize⟩ := init_sound hinit helement hcap hint hinc
  have h0 : Refines elementSize.toNat ⟨a, [], []⟩ ⟨[], []⟩ :=
    ⟨hsound, by rw [hsize], helements.symm, rfl, fun _ hs => absurd hs List.not_mem_nil⟩
  have htrue : ∀ (u : Use) (c : Call), True → Clean u.array c → ∃ u', step u c = some u' ∧ True :=
    fun u c _ _ => ⟨_, rfl, trivial⟩
  obtain ⟨u, hrun, -⟩ := Run.exists_run_of_meets htrue trivial hok
  obtain ⟨t, hsteps, hR⟩ := Run.run_simulates step_refines h0 hok hrun
  exact ⟨u, t, hrun, hsteps, hR.list, hR.answers, hR.inside⟩

/-- A memory of zeros. -/
def zeros : Memory := fun _ => 0

/-- An array with room for one element of one byte. -/
def oneByte : HttcUtilArray := ⟨1, 1, zeros.store 0 (List.replicate 1 0), 1, 1, 0⟩

/-- Two elements, the second behind a capacity increase, which is then read. -/
def growingCalls : List Call := [.append zeros none, .append zeros (some zeros), .get 1]

theorem array_refines_list_growing :
    ∃ u t, Run.run step ⟨oneByte, [], []⟩ growingCalls = some u ∧
      Run.Steps (listStep (1 : ℤ).toNat) ⟨[], []⟩ growingCalls t ∧ t.list = u.array.elements ∧
      t.answers = u.answers ∧ ∀ s ∈ u.accesses, s.Inside := by
  have hinit : init 1 1 1 (some zeros) = some oneByte := rfl
  refine array_refines_list hinit (by decide) (by decide) (by decide) (by decide) ?_
  refine Run.meets_cons_of_step (fun hfull => absurd hfull (by decide)) rfl ?_
  refine Run.meets_cons_of_step (fun _ _ => ?_) rfl ?_
  · show (1 : ℤ) * (1 + 1) < 2 ^ 31
    decide
  · refine Run.meets_cons_of_step ?_ rfl trivial
    show (0 : ℤ) ≤ 1 ∧ (1 : ℤ) < int32 (int32 (0 + 1) + 1)
    decide

/-! ### What is not asked for -/

/-- The same for `set`. -/
theorem set_answers_iff (h : Sound a) (index : ℤ) (data : Memory) :
    Answers a.elementSize.toNat a.elements (.set index data) (a.set index data).ret (a.set index data).data
      (a.set index data).array.elements ↔ 0 ≤ index ∧ index < a.size := by
  refine ⟨fun hans => ?_, fun hin => (set_follows h hin.1 hin.2 data).answers⟩
  by_contra hout
  rw [← h.length_elements] at hout
  have hret : (a.set index data).ret = 0 := by rw [set, if_neg (h.not_guard index)]
  rw [Answers, if_neg hout, hret] at hans
  exact absurd hans.1 (by decide)

/-- An array as for the delete list, before anything is in it. -/
def pointers : HttcUtilArray := ⟨2, 8, zeros.store 0 (List.replicate 16 0), 16, 2, 0⟩

/-- Element 5 of an empty array is read from behind the block and 0 is returned, where a list has no answer but -1;
an append to an array of size -1 writes before the block; and `set_size` can leave a block of 8 bytes for 536870913
elements. -/
theorem array_not_list :
    init 8 2 2 (some zeros) = some pointers ∧
      (∃ u, Run.run step ⟨pointers, [], []⟩ [.get 5] = some u ∧
        (¬ ∃ t, Run.Steps (listStep 8) ⟨[], []⟩ [.get 5] t ∧ t.answers = u.answers) ∧
        u.accesses = [⟨40, 8, 16⟩]) ∧
      ((pointers.setSize (-1) none).array.append zeros none).accesses = [⟨-8, 8, 16⟩] ∧
      (pointers.setSize 536870913 (some zeros)).array.allocated = 8 := by
  refine ⟨rfl, ⟨_, rfl, ?_, by decide +kernel⟩, by decide +kernel, by decide +kernel⟩
  rintro ⟨t, ⟨t₁, ⟨ret, data, hans, hanswers⟩, rfl⟩, ht⟩
  rw [hanswers] at ht
  obtain ⟨-, hret⟩ := hans
  have hret : ret = -1 := hret
  have hzero : ret = 0 := congrArg (fun l : List (ℤ × Bytes) => (l.headD (1, [])).1) ht
  rw [hret] at hzero
  exact absurd hzero (by decide)

end HttcUtilArray
end TsbAgent
