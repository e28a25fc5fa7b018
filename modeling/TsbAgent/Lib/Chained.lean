/-
# Hash tables with chains

An array of chains, one list per bucket.  `push` puts an entry at the head of a
bucket, `eraseFirst` unlinks the first entry of a bucket that a comparison
accepts, `lookup` asks whether a bucket has such an entry.

The table stands for the set of its entries (`contents`).  What the operations
do to that set depends on the comparison: `contents_eraseFirst` needs it to
accept one entry of the bucket only, and `lookup_iff` says what a lookup means
for whatever the comparison accepts.  `Placed` is the invariant that both use:
every entry is in the bucket of its key, and no bucket holds an entry twice.
-/

import Mathlib.Data.Set.Insert
import Mathlib.Data.List.Nodup
import Mathlib.Logic.Function.Basic
import Mathlib.Data.Int.Notation
import Mathlib.Tactic.Common

namespace TsbAgent
namespace Chained

variable {ι α : Type*} [DecidableEq ι]

/-- The buckets of a table. -/
abbrev Table (ι α : Type*) := ι → List α

namespace Table

/-- The table after `INIT_HLIST_HEAD` on every bucket. -/
def empty : Table ι α := fun _ => []

/-- The entries of a table, whatever their bucket. -/
def contents (T : Table ι α) : Set α := {x | ∃ i, x ∈ T i}

/-- `hlist_add_head` on bucket `i`. -/
def push (T : Table ι α) (i : ι) (x : α) : Table ι α := Function.update T i (x :: T i)

/-- `hlist_del` of the first entry of bucket `i` that `p` accepts. -/
def eraseFirst (T : Table ι α) (i : ι) (p : α → Bool) : Table ι α :=
  Function.update T i ((T i).eraseP p)

/-- Bucket `i` has an entry that `p` accepts. -/
def lookup (T : Table ι α) (i : ι) (p : α → Bool) : Bool := (T i).any p

/-- Every entry is in the bucket of its key, once. -/
structure Placed (key : α → ι) (T : Table ι α) : Prop where
  key_eq : ∀ {i x}, x ∈ T i → key x = i
  nodup : ∀ i, (T i).Nodup

variable {key : α → ι} {T : Table ι α} {i : ι} {x : α} {p : α → Bool}

omit [DecidableEq ι] in
theorem placed_empty : Placed key (empty : Table ι α) :=
  ⟨fun h => absurd h List.not_mem_nil, fun _ => List.nodup_nil⟩

omit [DecidableEq ι] in
@[simp] theorem contents_empty : (empty : Table ι α).contents = ∅ := by
  ext x
  simp [contents, empty]

omit [DecidableEq ι] in
theorem Placed.mem_contents (h : Placed key T) : x ∈ T.contents ↔ x ∈ T (key x) := by
  constructor
  · rintro ⟨i, hi⟩
    rwa [h.key_eq hi]
  · exact fun hx => ⟨_, hx⟩

omit [DecidableEq ι] in
/-- **A lookup sees exactly the entries of its bucket.** -/
theorem Placed.lookup_iff (h : Placed key T) :
    T.lookup i p = true ↔ ∃ y ∈ T.contents, key y = i ∧ p y = true := by
  rw [lookup, List.any_eq_true]
  constructor
  · rintro ⟨y, hy, hp⟩
    exact ⟨y, ⟨i, hy⟩, h.key_eq hy, hp⟩
  · rintro ⟨y, hy, rfl, hp⟩
    exact ⟨y, h.mem_contents.mp hy, hp⟩

omit [DecidableEq ι] in
/-- The kernel's convention for a lookup: `0` for a match, `-1` for none. -/
theorem Placed.lookup_ret (h : Placed key T) {P : α → Prop} [DecidablePred P] :
    (if T.lookup i (fun u => decide (P u)) then (0 : ℤ) else -1) = 0 ↔
      ∃ y ∈ T.contents, key y = i ∧ P y := by
  have hl := h.lookup_iff (i := i) (p := fun u => decide (P u))
  simp only [decide_eq_true_eq] at hl
  rw [← hl]
  split_ifs with hd <;> simp [hd]

theorem mem_push {j : ι} {y : α} : y ∈ T.push i x j ↔ (j = i ∧ y = x) ∨ y ∈ T j := by
  rcases eq_or_ne j i with rfl | hj
  · simp [push]
  · simp [push, hj]

theorem mem_of_mem_eraseFirst {j : ι} {y : α} (h : y ∈ T.eraseFirst i p j) : y ∈ T j := by
  rcases eq_or_ne j i with rfl | hj
  · rw [eraseFirst, Function.update_self] at h
    exact List.mem_of_mem_eraseP h
  · rwa [eraseFirst, Function.update_of_ne hj] at h

/-- Pushing adds the entry and nothing else. -/
theorem contents_push : (T.push i x).contents = insert x T.contents := by
  ext y
  simp only [contents, Set.mem_ofPred_eq, Set.mem_insert_iff, mem_push]
  constructor
  · rintro ⟨j, ⟨-, rfl⟩ | hj⟩
    · exact Or.inl rfl
    · exact Or.inr ⟨j, hj⟩
  · rintro (rfl | ⟨j, hj⟩)
    · exact ⟨i, Or.inl ⟨rfl, rfl⟩⟩
    · exact ⟨j, Or.inr hj⟩

theorem Placed.push (h : Placed key T) (hx : x ∉ T.contents) : Placed key (T.push (key x) x) := by
  constructor
  · intro j y hy
    by_cases hj : j = key x
    · subst hj
      rw [Table.push, Function.update_self, List.mem_cons] at hy
      rcases hy with rfl | hy
      · rfl
      · exact h.key_eq hy
    · rw [Table.push, Function.update_of_ne hj] at hy
      exact h.key_eq hy
  · intro j
    by_cases hj : j = key x
    · subst hj
      rw [Table.push, Function.update_self]
      exact List.nodup_cons.mpr ⟨fun hm => hx ⟨_, hm⟩, h.nodup _⟩
    · rw [Table.push, Function.update_of_ne hj]
      exact h.nodup j

theorem Placed.eraseFirst (h : Placed key T) : Placed key (T.eraseFirst i p) := by
  constructor
  · intro j y hy
    by_cases hj : j = i
    · subst hj
      rw [Table.eraseFirst, Function.update_self] at hy
      exact h.key_eq (List.mem_of_mem_eraseP hy)
    · rw [Table.eraseFirst, Function.update_of_ne hj] at hy
      exact h.key_eq hy
  · intro j
    by_cases hj : j = i
    · subst hj
      rw [Table.eraseFirst, Function.update_self]
      exact (h.nodup j).sublist List.eraseP_sublist
    · rw [Table.eraseFirst, Function.update_of_ne hj]
      exact h.nodup j

omit [DecidableEq ι] in
/-- Unlinking the first match of a list without repetitions, when the match
can only be `x`, leaves the other elements. -/
theorem mem_eraseP_of_unique {l : List α} (hl : l.Nodup) (hp : ∀ y ∈ l, p y = true ↔ y = x) {y : α} :
    y ∈ l.eraseP p ↔ y ∈ l ∧ y ≠ x := by
  induction l with
  | nil => simp
  | cons z l ih =>
      obtain ⟨hz, hl⟩ := List.nodup_cons.mp hl
      have ih := ih hl fun y hy => hp y (List.mem_cons_of_mem _ hy)
      by_cases hpz : p z = true
      · have hzx : z = x := (hp z List.mem_cons_self).mp hpz
        subst hzx
        rw [List.eraseP_cons_of_pos hpz, List.mem_cons]
        constructor
        · exact fun hy => ⟨Or.inr hy, fun he => hz (he ▸ hy)⟩
        · rintro ⟨rfl | hy, hne⟩
          · exact absurd rfl hne
          · exact hy
      · have hzx : z ≠ x := fun he => hpz ((hp z List.mem_cons_self).mpr he)
        rw [List.eraseP_cons_of_neg hpz, List.mem_cons, List.mem_cons, ih]
        constructor
        · rintro (rfl | ⟨hy, hne⟩)
          · exact ⟨Or.inl rfl, hzx⟩
          · exact ⟨Or.inr hy, hne⟩
        · rintro ⟨rfl | hy, hne⟩
          · exact Or.inl rfl
          · exact Or.inr ⟨hy, hne⟩

/-- **Unlinking removes one entry**, when the comparison accepts no other entry
of its bucket. -/
theorem Placed.contents_eraseFirst (h : Placed key T)
    (hp : ∀ y ∈ T (key x), p y = true ↔ y = x) :
    (T.eraseFirst (key x) p).contents = T.contents \ {x} := by
  ext y
  rw [h.eraseFirst.mem_contents, Set.mem_sdiff, h.mem_contents, Set.mem_singleton_iff,
    Table.eraseFirst]
  by_cases hy : key y = key x
  · rw [hy, Function.update_self]
    exact mem_eraseP_of_unique (h.nodup _) hp
  · rw [Function.update_of_ne hy]
    exact ⟨fun hm => ⟨hm, fun he => hy (he ▸ rfl)⟩, fun hm => hm.1⟩

end Table
end Chained
end TsbAgent
