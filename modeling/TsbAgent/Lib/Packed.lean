/-
# Records packed one after the other

A buffer of records of varying size, each of which says how long it is.  `seek` is the loop
that looks for a record, `collect` the loop that reads them all; both run over offsets
modulo `M` and over whatever the buffer holds.  On a buffer that is the encodings of a list
they find the first record that is one and read the list itself (`seek_hit`, `seek_miss`,
`collect_packed`).  `pointers` are the starts of a given number of records.
-/

import TsbAgent.Lib.Libc
import Mathlib.Algebra.Order.Ring.Nat

namespace TsbAgent
namespace Packed

open Libc

variable {α : Type*}

section Loops

variable (M : ℕ) (size : Bytes → ℕ) (mem : Bytes) (len : ℕ)

/-- `do { if (hit(mem + off)) return off; off += size(mem + off); } while (off < len);`.
`none` when the loop has not ended. -/
def seek (hit : Bytes → Bool) : ℕ → ℕ → Option (Option ℕ)
  | 0, _ => none
  | fuel + 1, off =>
      if hit (mem.drop off) then some (some off)
      else
        let next := (off + size (mem.drop off)) % M
        if next < len then seek hit fuel next else some none

/-- `while (off < len) { read(mem + off); off += size(mem + off); }`. -/
def collect (read : Bytes → α) : ℕ → ℕ → Option (List α)
  | 0, _ => none
  | fuel + 1, off =>
      if off < len then
        (collect read fuel ((off + size (mem.drop off)) % M)).map (read (mem.drop off) :: ·)
      else some []

/-- The memory from each of `n` records on. -/
def pointers (p : Bytes) : ℕ → List Bytes
  | 0 => []
  | n + 1 => p :: pointers (p.drop (size p)) n

/-- The first `n` records of the memory. -/
def records (n : ℕ) (p : Bytes) : List Bytes := (pointers size p n).map fun q => q.take (size q)

end Loops

/-- The size of a record is the length of its encoding, whatever follows it. -/
structure Sized (enc : α → Bytes) (size : Bytes → ℕ) (x : α) : Prop where
  size_eq : ∀ r, size (enc x ++ r) = (enc x).length
  pos : 0 < (enc x).length

section Packed

variable {M : ℕ} {size : Bytes → ℕ} {enc : α → Bytes} {pre l : List α} {x : α} {heap : Bytes}
  {fuel : ℕ} {hit : Bytes → Bool}

theorem drop_flatMap_append : ((pre ++ l).flatMap enc ++ heap).drop (pre.flatMap enc).length =
    l.flatMap enc ++ heap := by
  rw [List.flatMap_append, List.append_assoc, List.drop_left]

theorem length_le_flatMap (hs : ∀ x ∈ l, Sized enc size x) : l.length ≤ (l.flatMap enc).length := by
  induction l with
  | nil => exact le_rfl
  | cons x l ih =>
      obtain ⟨hx, hl⟩ := List.forall_mem_cons.mp hs
      have hpos := hx.pos
      have hrest := ih hl
      rw [List.flatMap_cons, List.length_append, List.length_cons]
      omega

/-- Where the record after `pre` and `x` starts. -/
theorem next_offset (hx : Sized enc size x) (hM : ((pre ++ x :: l).flatMap enc).length < M) :
    ((pre.flatMap enc).length +
        size (((pre ++ x :: l).flatMap enc ++ heap).drop (pre.flatMap enc).length)) % M =
      ((pre ++ [x]).flatMap enc).length := by
  have hlen : ((pre ++ x :: l).flatMap enc).length =
      (pre.flatMap enc).length + ((enc x).length + (l.flatMap enc).length) := by simp
  rw [drop_flatMap_append, List.flatMap_cons, List.append_assoc, hx.size_eq, Nat.mod_eq_of_lt (by omega),
    List.flatMap_append, List.length_append, List.flatMap_singleton]

/-- The search goes on to the next record. -/
theorem seek_succ (hs : ∀ y ∈ x :: l, Sized enc size y) (hx : ∀ r, hit (enc x ++ r) = false)
    (hM : ((pre ++ x :: l).flatMap enc).length < M) :
    seek M size ((pre ++ x :: l).flatMap enc ++ heap) ((pre ++ x :: l).flatMap enc).length hit
        (fuel + 1) (pre.flatMap enc).length =
      if l = [] then some none
      else seek M size (((pre ++ [x]) ++ l).flatMap enc ++ heap) (((pre ++ [x]) ++ l).flatMap enc).length
        hit fuel ((pre ++ [x]).flatMap enc).length := by
  have hmiss : hit (((pre ++ x :: l).flatMap enc ++ heap).drop (pre.flatMap enc).length) = false := by
    rw [drop_flatMap_append, List.flatMap_cons, List.append_assoc, hx]
  rw [seek, if_neg (by rw [hmiss]; exact Bool.false_ne_true),
    next_offset (hs x List.mem_cons_self) hM]
  have hall : pre ++ x :: l = (pre ++ [x]) ++ l := by simp
  rw [hall]
  cases l with
  | nil => simp
  | cons y l =>
      have hpos := (hs y (by simp)).pos
      have hlt : ((pre ++ [x]).flatMap enc).length < (((pre ++ [x]) ++ y :: l).flatMap enc).length := by
        have hsplit : ((pre ++ [x]) ++ y :: l).flatMap enc =
            (pre ++ [x]).flatMap enc ++ (enc y ++ l.flatMap enc) := List.flatMap_append
        rw [hsplit, List.length_append, List.length_append]
        omega
      rw [if_neg (List.cons_ne_nil _ _)]
      exact if_pos hlt

/-- The search ends at the first record that is a hit. -/
theorem seek_hit (pre : List α) {as bs : List α} (hs : ∀ y ∈ as ++ x :: bs, Sized enc size y)
    (has : ∀ a ∈ as, ∀ r, hit (enc a ++ r) = false) (hx : ∀ r, hit (enc x ++ r) = true)
    (hM : ((pre ++ (as ++ x :: bs)).flatMap enc).length < M) (hfuel : as.length < fuel) :
    seek M size ((pre ++ (as ++ x :: bs)).flatMap enc ++ heap)
        ((pre ++ (as ++ x :: bs)).flatMap enc).length hit fuel (pre.flatMap enc).length =
      some (some ((pre ++ as).flatMap enc).length) := by
  induction as generalizing pre fuel with
  | nil =>
      obtain ⟨fuel, rfl⟩ := Nat.exists_eq_succ_of_ne_zero (by omega : fuel ≠ 0)
      rw [List.nil_append, List.append_nil, seek, drop_flatMap_append, List.flatMap_cons,
        List.append_assoc, hx, if_pos rfl]
  | cons a as ih =>
      obtain ⟨fuel, rfl⟩ := Nat.exists_eq_succ_of_ne_zero (by omega : fuel ≠ 0)
      obtain ⟨ha, has⟩ := List.forall_mem_cons.mp has
      rw [List.cons_append] at hs hM ⊢
      rw [List.length_cons] at hfuel
      have hrest := @ih fuel (pre ++ [a]) (fun y hy => hs y (List.mem_cons_of_mem _ hy))
        has (by simpa using hM) (by omega)
      rw [seek_succ hs ha hM, if_neg (by simp), hrest, List.append_assoc, List.singleton_append]

/-- The search over records that are no hits ends after the last. -/
theorem seek_miss (pre : List α) (hs : ∀ y ∈ l, Sized enc size y) (hl : ∀ x ∈ l, ∀ r, hit (enc x ++ r) = false)
    (hne : l ≠ []) (hM : ((pre ++ l).flatMap enc).length < M) (hfuel : l.length ≤ fuel) :
    seek M size ((pre ++ l).flatMap enc ++ heap) ((pre ++ l).flatMap enc).length hit fuel
      (pre.flatMap enc).length = some none := by
  induction l generalizing pre fuel with
  | nil => exact absurd rfl hne
  | cons x l ih =>
      rw [List.length_cons] at hfuel
      obtain ⟨fuel, rfl⟩ := Nat.exists_eq_succ_of_ne_zero (by omega : fuel ≠ 0)
      obtain ⟨hx, hl⟩ := List.forall_mem_cons.mp hl
      rw [seek_succ hs hx hM]
      split_ifs with hnil
      · rfl
      · exact ih _ (fun y hy => hs y (List.mem_cons_of_mem _ hy)) hl hnil (by simpa using hM) (by omega)

/-- All records are read, in their order. -/
theorem collect_packed (pre : List α) {β : Type*} {read : Bytes → β} {f : α → β} (hs : ∀ y ∈ l, Sized enc size y)
    (hread : ∀ x ∈ l, ∀ r, read (enc x ++ r) = f x) (hM : ((pre ++ l).flatMap enc).length < M)
    (hfuel : l.length < fuel) :
    collect M size ((pre ++ l).flatMap enc ++ heap) ((pre ++ l).flatMap enc).length read fuel
      (pre.flatMap enc).length = some (l.map f) := by
  induction l generalizing pre fuel with
  | nil =>
      obtain ⟨fuel, rfl⟩ := Nat.exists_eq_succ_of_ne_zero (by omega : fuel ≠ 0)
      simp [collect]
  | cons x l ih =>
      obtain ⟨fuel, rfl⟩ := Nat.exists_eq_succ_of_ne_zero (by omega : fuel ≠ 0)
      obtain ⟨hx, hl⟩ := List.forall_mem_cons.mp hs
      obtain ⟨hreadx, hreadl⟩ := List.forall_mem_cons.mp hread
      rw [List.length_cons] at hfuel
      have hlt : (pre.flatMap enc).length < ((pre ++ x :: l).flatMap enc).length := by
        have hpos := hx.pos
        rw [List.flatMap_append, List.length_append, List.flatMap_cons, List.length_append]
        omega
      have hall : pre ++ x :: l = (pre ++ [x]) ++ l := by simp
      rw [collect, if_pos hlt, next_offset hx hM, drop_flatMap_append, List.flatMap_cons,
        List.append_assoc, hreadx, hall, ih _ hl hreadl (hall ▸ hM) (by omega)]
      rfl

/-- What is computed at each record, from the record alone. -/
theorem map_pointers (heap : Bytes) {β : Type*} {f : Bytes → β} {g : α → β} (hs : ∀ y ∈ l, Sized enc size y)
    (hf : ∀ x ∈ l, ∀ r, f (enc x ++ r) = g x) :
    (pointers size (l.flatMap enc ++ heap) l.length).map f = l.map g := by
  induction l with
  | nil => rfl
  | cons x l ih =>
      obtain ⟨hx, hl⟩ := List.forall_mem_cons.mp hs
      obtain ⟨hfx, hfl⟩ := List.forall_mem_cons.mp hf
      rw [List.length_cons, pointers, List.map_cons, List.map_cons, List.flatMap_cons, List.append_assoc,
        hfx, hx.size_eq, List.drop_left, ih hl hfl]

/-- **Records say where they end:** of two packed lists one begins with the other only as a list. -/
theorem prefix_of_flatMap {as bs : List α} (has : ∀ x ∈ as, Sized enc size x)
    (hbs : ∀ x ∈ bs, Sized enc size x) (henc : ∀ x ∈ as, ∀ y ∈ bs, enc x = enc y → x = y)
    (h : as.flatMap enc <+: bs.flatMap enc) : as <+: bs := by
  induction as generalizing bs with
  | nil => exact List.nil_prefix
  | cons a as ih =>
      obtain ⟨ha, has⟩ := List.forall_mem_cons.mp has
      obtain ⟨t, ht⟩ := h
      rw [List.flatMap_cons, List.append_assoc] at ht
      cases bs with
      | nil =>
          have hpos := ha.pos
          have hlength := congrArg List.length ht
          simp only [List.flatMap_nil, List.length_append, List.length_nil] at hlength
          omega
      | cons b bs =>
          have hb := hbs b List.mem_cons_self
          rw [List.flatMap_cons] at ht
          have hsame : (enc a).length = (enc b).length := by
            rw [← ha.size_eq (as.flatMap enc ++ t), ht, hb.size_eq]
          obtain ⟨hhead, hrest⟩ := List.append_inj ht hsame
          obtain rfl := henc a List.mem_cons_self b List.mem_cons_self hhead
          refine List.prefix_cons_iff.mpr (.inr ⟨as, rfl, ih has ?_ ?_ ⟨t, hrest⟩⟩)
          · exact fun x hx => hbs x (List.mem_cons_of_mem _ hx)
          · exact fun x hx y hy => henc x (List.mem_cons_of_mem _ hx) y (List.mem_cons_of_mem _ hy)

/-- The records of a buffer are what was packed. -/
theorem records_packed (heap : Bytes) (hs : ∀ y ∈ l, Sized enc size y) :
    records size l.length (l.flatMap enc ++ heap) = l.map enc := by
  refine map_pointers heap hs fun x hx r => ?_
  rw [(hs x hx).size_eq, List.take_left]

end Packed

end Packed
end TsbAgent
