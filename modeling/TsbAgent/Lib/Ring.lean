/-
# Ring buffers

An array of `len` slots with two indices; the items are in the slots after
`head` up to and including `tail`, so one slot is always unused and `len - 1`
items fill the ring.  A loop over the ring advances its index by `(h + 1) % len`
until it is at `tail` (`visits`).

The ring stands for the list of its items.  `push` appends to that list
(`items_push`), `pop` drops its head (`items_pop`), changing the slots a loop
visits maps over it (`items_modifyAll`), and a search for the first slot splits it
(`exists_of_findSlot`).  Pushing with the oldest item dropped when the ring is
full keeps the last `len - 1` items (`items_pushDrop`).
-/

import Mathlib.Data.List.DropRight
import Mathlib.Data.List.Nodup
import Mathlib.Data.List.Range
import Mathlib.Data.Nat.ModEq
import Mathlib.Logic.Function.Basic
import Mathlib.Tactic.Common

namespace TsbAgent

/-- An array used as a ring. -/
structure Ring (α : Type*) where
  len : ℕ
  head : ℕ
  tail : ℕ
  slot : ℕ → α
  head_lt : head < len
  tail_lt : tail < len

namespace Ring

variable {α : Type*}

/-- The slots a loop from `h` visits on its way to `tail`. -/
def visits (len tail : ℕ) : ℕ → ℕ → List ℕ
  | 0, _ => []
  | fuel + 1, h => if h = tail then [] else (h + 1) % len :: visits len tail fuel ((h + 1) % len)

/-- The slots in use, oldest first. -/
def slots (r : Ring α) : List ℕ := visits r.len r.tail r.len r.head

/-- The items, oldest first. -/
def items (r : Ring α) : List α := r.slots.map r.slot

/-- The next slot is the one before the oldest item. -/
def isFull (r : Ring α) : Prop := (r.tail + 1) % r.len = r.head % r.len

instance (r : Ring α) : Decidable r.isFull := inferInstanceAs (Decidable (_ = _))

/-- No slot is in use. -/
def isEmpty (r : Ring α) : Prop := r.head % r.len = r.tail % r.len

instance (r : Ring α) : Decidable r.isEmpty := inferInstanceAs (Decidable (_ = _))

/-- Fill the next slot. -/
def push (r : Ring α) (x : α) : Ring α where
  len := r.len
  head := r.head
  tail := (r.tail + 1) % r.len
  slot := Function.update r.slot ((r.tail + 1) % r.len) x
  head_lt := r.head_lt
  tail_lt := Nat.mod_lt _ (Nat.zero_lt_of_lt r.tail_lt)

/-- Give up the oldest slot. -/
def pop (r : Ring α) : Ring α where
  len := r.len
  head := (r.head + 1) % r.len
  tail := r.tail
  slot := r.slot
  head_lt := Nat.mod_lt _ (Nat.zero_lt_of_lt r.head_lt)
  tail_lt := r.tail_lt

/-- Change one slot. -/
def modify (r : Ring α) (i : ℕ) (f : α → α) : Ring α :=
  { r with slot := Function.update r.slot i (f (r.slot i)) }

/-- Change every slot in use, in the order of a loop. -/
def modifyAll (r : Ring α) (f : α → α) : Ring α := r.slots.foldl (fun r i => r.modify i f) r

/-- The first slot in use that `p` accepts. -/
def findSlot (r : Ring α) (p : α → Bool) : Option ℕ := r.slots.find? fun i => p (r.slot i)

/-- `push`, with the oldest item dropped when the ring is full. -/
def pushDrop (r : Ring α) (x : α) : Ring α := (if r.isFull then r.pop else r).push x

/-! ### The slots in use -/

/-- How far it is from `h` to `t` around the ring. -/
def gap (len h t : ℕ) : ℕ := if h ≤ t then t - h else t + len - h

theorem succ_mod {len h : ℕ} (hh : h < len) : (h + 1) % len = if h + 1 = len then 0 else h + 1 := by
  split_ifs with he
  · rw [he, Nat.mod_self]
  · exact Nat.mod_eq_of_lt (by omega)

theorem gap_succ {len h t : ℕ} (hh : h < len) (ht : t < len) (hne : h ≠ t) :
    gap len h t = gap len ((h + 1) % len) t + 1 := by
  rw [succ_mod hh]
  unfold gap
  split_ifs <;> omega

/-- **The loop visits the slots between the indices and ends**, once it is
allowed that many rounds. -/
theorem visits_eq {len t : ℕ} (ht : t < len) {fuel h : ℕ} (hh : h < len)
    (hfuel : gap len h t ≤ fuel) :
    visits len t fuel h = (List.range (gap len h t)).map fun k => (h + 1 + k) % len := by
  induction fuel generalizing h with
  | zero =>
      rw [Nat.le_zero.mp hfuel]
      rfl
  | succ fuel ih =>
      rw [visits]
      split_ifs with he
      · subst he
        simp [gap]
      · have hg := gap_succ hh ht he
        have hh' : (h + 1) % len < len := Nat.mod_lt _ (Nat.zero_lt_of_lt hh)
        rw [ih hh' (by omega), hg, List.range_succ_eq_map, List.map_cons, List.map_map,
          Nat.add_zero]
        congr 1
        refine List.map_congr_left fun k _ => ?_
        change ((h + 1) % len + 1 + k) % len = (h + 1 + (k + 1)) % len
        rw [Nat.add_assoc, Nat.mod_add_mod]
        congr 1
        omega

theorem gap_lt {len h t : ℕ} (hh : h < len) (ht : t < len) : gap len h t < len := by
  unfold gap
  split_ifs <;> omega

section Slots

variable (r : Ring α)

theorem slots_eq :
    r.slots = (List.range (gap r.len r.head r.tail)).map fun k => (r.head + 1 + k) % r.len :=
  visits_eq r.tail_lt r.head_lt (gap_lt r.head_lt r.tail_lt).le

theorem length_items : r.items.length = gap r.len r.head r.tail := by
  rw [items, List.length_map, slots_eq, List.length_map, List.length_range]

theorem length_items_lt : r.items.length < r.len := by
  rw [length_items]
  exact gap_lt r.head_lt r.tail_lt

theorem nodup_slots : r.slots.Nodup := by
  rw [slots_eq]
  refine List.Nodup.map_on (fun a ha b hb hab => ?_) List.nodup_range
  have hlt := gap_lt r.head_lt r.tail_lt
  rw [List.mem_range] at ha hb
  have hmod : a % r.len = b % r.len := Nat.ModEq.add_left_cancel' (r.head + 1) hab
  rwa [Nat.mod_eq_of_lt (by omega), Nat.mod_eq_of_lt (by omega)] at hmod

theorem isEmpty_iff : r.isEmpty ↔ r.items = [] := by
  have hh := r.head_lt
  have ht := r.tail_lt
  rw [← List.length_eq_zero_iff, length_items, isEmpty, Nat.mod_eq_of_lt hh, Nat.mod_eq_of_lt ht]
  unfold gap
  split_ifs <;> omega

theorem isFull_iff : r.isFull ↔ r.items.length + 1 = r.len := by
  have hh := r.head_lt
  have ht := r.tail_lt
  rw [length_items, isFull, Nat.mod_eq_of_lt hh, succ_mod ht]
  unfold gap
  split_ifs <;> omega

end Slots

/-! ### The items after an operation -/

section Items

variable {r : Ring α}

theorem gap_push (hf : ¬ r.isFull) :
    gap r.len r.head ((r.tail + 1) % r.len) = gap r.len r.head r.tail + 1 := by
  have hh := r.head_lt
  have ht := r.tail_lt
  rw [isFull, Nat.mod_eq_of_lt hh] at hf
  rw [succ_mod ht] at hf ⊢
  unfold gap
  split_ifs at hf ⊢ <;> omega

theorem slots_push (hf : ¬ r.isFull) (x : α) :
    (r.push x).slots = r.slots ++ [(r.tail + 1) % r.len] := by
  have hlast : (r.head + 1 + gap r.len r.head r.tail) % r.len = (r.tail + 1) % r.len := by
    have hh := r.head_lt
    unfold gap
    split_ifs
    · congr 1
      omega
    · rw [show r.head + 1 + (r.tail + r.len - r.head) = r.tail + 1 + r.len by omega,
        Nat.add_mod_right]
  rw [slots_eq, slots_eq]
  change (List.range (gap r.len r.head ((r.tail + 1) % r.len))).map _ = _
  rw [gap_push hf, List.range_succ, List.map_append, List.map_singleton]
  exact congrArg _ (congrArg (fun i => [i]) hlast)

/-- **Pushing appends the item.** -/
theorem items_push (hf : ¬ r.isFull) (x : α) : (r.push x).items = r.items ++ [x] := by
  have hnd := (r.push x).nodup_slots
  have hs := slots_push hf x
  rw [hs, List.nodup_append] at hnd
  rw [items, hs, List.map_append, List.map_singleton]
  congr 1
  · refine List.map_congr_left fun i hi => Function.update_of_ne ?_ ..
    exact hnd.2.2 i hi _ (List.mem_singleton.mpr rfl)
  · exact congrArg (fun y => [y]) (Function.update_self ..)

/-- **Popping drops the oldest item.** -/
theorem items_pop (he : ¬ r.isEmpty) : r.pop.items = r.items.tail := by
  have hne : r.head ≠ r.tail := fun h => he (by rw [isEmpty, h])
  have hslots : r.slots = (r.head + 1) % r.len :: r.pop.slots := by
    have hlt := gap_lt r.head_lt r.tail_lt
    have hg := gap_succ r.head_lt r.tail_lt hne
    have hrest : visits r.len r.tail (r.len - 1) ((r.head + 1) % r.len) = r.pop.slots :=
      (visits_eq r.tail_lt r.pop.head_lt
        (show gap r.len ((r.head + 1) % r.len) r.tail ≤ r.len - 1 by omega)).trans r.pop.slots_eq.symm
    rw [slots, show r.len = r.len - 1 + 1 by omega, visits, if_neg hne,
      show r.len - 1 + 1 = r.len by omega, hrest]
  rw [items, items, hslots]
  rfl

theorem slots_modify (i : ℕ) (f : α → α) : (r.modify i f).slots = r.slots := rfl

/-- Changing the slots of a list without repetitions, one after the other. -/
theorem slot_foldl_modify (f : α → α) {l : List ℕ} (hl : l.Nodup) (j : ℕ) :
    (l.foldl (fun r i => r.modify i f) r).slot j = if j ∈ l then f (r.slot j) else r.slot j := by
  induction l generalizing r with
  | nil => simp
  | cons i l ih =>
      obtain ⟨hi, hl⟩ := List.nodup_cons.mp hl
      rw [List.foldl_cons, ih hl]
      rcases eq_or_ne j i with rfl | hne
      · rw [if_neg hi, if_pos List.mem_cons_self]
        exact Function.update_self ..
      · have hs : (r.modify i f).slot j = r.slot j := Function.update_of_ne hne ..
        simp only [hs, List.mem_cons, hne, false_or]

theorem slots_foldl_modify (f : α → α) (l : List ℕ) :
    (l.foldl (fun r i => r.modify i f) r).slots = r.slots := by
  induction l generalizing r with
  | nil => rfl
  | cons i l ih =>
      rw [List.foldl_cons, ih]
      rfl

/-- **Changing every slot in use maps over the items.** -/
theorem items_modifyAll (f : α → α) : (r.modifyAll f).items = r.items.map f := by
  have hs : (r.modifyAll f).slots = r.slots := slots_foldl_modify f r.slots
  rw [items, items, hs, List.map_map]
  refine List.map_congr_left fun i hi => ?_
  rw [modifyAll, slot_foldl_modify f r.nodup_slots, if_pos hi, Function.comp]

/-- **A search finds the first item that `p` accepts**, and changing its slot
changes that item only. -/
theorem exists_of_findSlot {p : α → Bool} {i : ℕ} (h : r.findSlot p = some i) :
    ∃ l₁ l₂, r.items = l₁ ++ r.slot i :: l₂ ∧ (∀ x ∈ l₁, p x = false) ∧ p (r.slot i) = true ∧
      ∀ f : α → α, (r.modify i f).items = l₁ ++ f (r.slot i) :: l₂ := by
  obtain ⟨hp, s₁, s₂, hs, hs₁⟩ := List.find?_eq_some_iff_append.mp h
  have hnd := r.nodup_slots
  rw [hs, List.nodup_append] at hnd
  obtain ⟨-, hnd₂, hdisj⟩ := hnd
  have hother : ∀ f : α → α, ∀ j ∈ s₁ ++ s₂, (r.modify i f).slot j = r.slot j := by
    intro f j hj
    refine Function.update_of_ne ?_ ..
    rcases List.mem_append.mp hj with hj | hj
    · exact hdisj j hj i List.mem_cons_self
    · exact fun he => (List.nodup_cons.mp hnd₂).1 (he ▸ hj)
  refine ⟨s₁.map r.slot, s₂.map r.slot, by rw [items, hs, List.map_append, List.map_cons], ?_, hp, ?_⟩
  · intro x hx
    obtain ⟨j, hj, rfl⟩ := List.mem_map.mp hx
    simpa using hs₁ j hj
  · intro f
    have hself : (r.modify i f).slot i = f (r.slot i) := Function.update_self ..
    rw [items, slots_modify, hs, List.map_append, List.map_cons, hself,
      List.map_congr_left fun j hj => hother f j (List.mem_append_left _ hj),
      List.map_congr_left fun j hj => hother f j (List.mem_append_right _ hj)]

theorem forall_of_findSlot_none {p : α → Bool} (h : r.findSlot p = none) :
    ∀ x ∈ r.items, p x = false := by
  intro x hx
  obtain ⟨i, hi, rfl⟩ := List.mem_map.mp hx
  exact Bool.not_eq_true _ ▸ List.find?_eq_none.mp h i hi

theorem not_isEmpty_of_isFull (hlen : 2 ≤ r.len) (hf : r.isFull) : ¬ r.isEmpty := by
  rw [isEmpty_iff]
  intro h0
  have hfull := r.isFull_iff.mp hf
  rw [h0, List.length_nil] at hfull
  omega

theorem not_isFull_pop (he : ¬ r.isEmpty) : ¬ r.pop.isFull := by
  have hlt := r.length_items_lt
  rw [isFull_iff, items_pop he, List.length_tail]
  change ¬ r.items.length - 1 + 1 = r.len
  rw [isEmpty_iff, ← List.length_eq_zero_iff] at he
  omega

/-- **A full ring forgets its oldest item:** what is kept are the last items. -/
theorem items_pushDrop (hlen : 2 ≤ r.len) (x : α) :
    (r.pushDrop x).items = (r.items ++ [x]).rtake (r.len - 1) := by
  obtain ⟨n, hn⟩ : ∃ n, r.len - 1 = n + 1 := ⟨r.len - 2, by omega⟩
  have hlt := r.length_items_lt
  have hfull := r.isFull_iff
  rw [hn, List.rtake_concat_succ, List.rtake, pushDrop]
  split_ifs with hf
  · have hne := not_isEmpty_of_isFull hlen hf
    rw [items_push (not_isFull_pop hne), items_pop hne, ← List.drop_one,
      show r.items.length - n = 1 by have := hfull.mp hf; omega]
  · have hlast : r.items.length + 1 ≠ r.len := fun h => hf (hfull.mpr h)
    rw [items_push hf, show r.items.length - n = 0 by omega, List.drop_zero]

end Items

end Ring
end TsbAgent
