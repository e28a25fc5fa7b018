/-
# A counted table under a lock, and swapping it

A chained table (`TsbAgent.Lib.Chained`) with a count of its entries, behind a reader-writer lock.
Threads add and delete in lock sections:

| call | sections |
| --- | --- |
| add | a read section that looks for a hit; a write section that puts the entry at the head and counts it |
| delete | one write section that unlinks the first hit and counts it off |

Whatever the order of the sections, the count is the number of entries (`count_eq_size`).

One more thread replaces the table: it reads the count, builds a new table, puts it in the place
of the old one in a write section, and then frees the old one, pass after pass, until the count it
has read is used up.  `flushes_iff_drift` says when that comes to an end: the count was read before
the write section, so it is the size of the old table exactly when the additions and deletions in
between cancel out.
-/

import TsbAgent.Lib.Chained
import TsbAgent.Lib.Run
import Mathlib.Algebra.BigOperators.Group.Finset.Basic
import Mathlib.Algebra.Order.Ring.Nat

namespace TsbAgent
namespace Counted

open Chained Run

variable {ι α β θ : Type*} [DecidableEq ι] [DecidableEq θ]

/-- The number of entries in the chains `K`. -/
def size (K : Finset ι) (T : Table ι α) : ℕ := ∑ i ∈ K, (T i).length

/-- What a table does with the argument of a call: its chain, the entry made of it, and the entries
that it hits. -/
structure Ops (ι α β : Type*) where
  chains : Finset ι
  key : β → ι
  entry : β → α
  hit : α → β → Bool
  key_mem : ∀ b, key b ∈ chains

/-- The table, its count, and the additions that have found nothing and not yet put their entry. -/
structure State (ι α β θ : Type*) where
  table : Table ι α
  count : ℤ
  pending : θ → Option β

/-- A lock section, with what it found; `fail` is an addition without memory. -/
inductive Section (β θ : Type*)
  | look (t : θ) (b : β) (found : Bool)
  | insert (t : θ)
  | fail (t : θ)
  | erase (b : β) (found : Bool)

/-- The state before the first section. -/
def init : State ι α β θ := ⟨Table.empty, 0, fun _ => none⟩

/-- The table has a hit for `b`. -/
def Ops.found (o : Ops ι α β) (T : Table ι α) (b : β) : Bool := T.lookup (o.key b) fun x => o.hit x b

/-- One lock section. -/
def step (o : Ops ι α β) (s : State ι α β θ) : Section β θ → Option (State ι α β θ)
  | .look t b found =>
      if (s.pending t).isSome ∨ o.found s.table b ≠ found then none
      else if found then some s
      else some { s with pending := Function.update s.pending t (some b) }
  | .insert t =>
      (s.pending t).map fun b =>
        ⟨s.table.push (o.key b) (o.entry b), s.count + 1, Function.update s.pending t none⟩
  | .fail t =>
      (s.pending t).map fun _ => { s with pending := Function.update s.pending t none }
  | .erase b found =>
      if o.found s.table b ≠ found then none
      else if found then
        some { s with table := s.table.eraseFirst (o.key b) fun x => o.hit x b, count := s.count - 1 }
      else some s

/-- How a section changes the number of entries. -/
def Section.net : Section β θ → ℤ
  | .insert _ => 1
  | .erase _ true => -1
  | _ => 0

variable {o : Ops ι α β} {s s' : State ι α β θ} {K : Finset ι} {T : Table ι α}

/-! ### The number of entries -/

omit [DecidableEq ι] in
@[simp] theorem size_empty : size K (Table.empty : Table ι α) = 0 :=
  Finset.sum_eq_zero fun _ _ => rfl

/-- Changing one chain changes the number of entries as it changes the chain. -/
theorem size_update {i : ι} (hi : i ∈ K) (l : List α) :
    size K (Function.update T i l) + (T i).length = size K T + l.length := by
  unfold size
  rw [← Finset.add_sum_erase K _ hi, ← Finset.add_sum_erase K (fun j => (T j).length) hi,
    Function.update_self]
  have hrest : ∑ j ∈ K.erase i, (Function.update T i l j).length = ∑ j ∈ K.erase i, (T j).length := by
    refine Finset.sum_congr rfl fun j hj => ?_
    rw [Function.update_of_ne (Finset.ne_of_mem_erase hj)]
  rw [hrest]
  omega

theorem size_push {i : ι} (hi : i ∈ K) (x : α) : size K (T.push i x) = size K T + 1 := by
  have h := size_update (T := T) hi (x :: T i)
  rw [List.length_cons] at h
  rw [Table.push]
  omega

theorem size_eraseFirst {i : ι} (hi : i ∈ K) {p : α → Bool} (hp : T.lookup i p = true) :
    size K (T.eraseFirst i p) + 1 = size K T := by
  have h := size_update (T := T) hi ((T i).eraseP p)
  rw [Table.lookup, List.any_eq_true] at hp
  obtain ⟨x, hx, hpx⟩ := hp
  have hpos : 0 < (T i).length := List.length_pos_of_mem hx
  rw [List.length_eraseP_of_mem hx hpx] at h
  rw [Table.eraseFirst]
  omega

/-- **A section changes the count and the number of entries alike.** -/
theorem step_net {e : Section β θ} (h : step o s e = some s') :
    s'.count = s.count + e.net ∧ (size o.chains s'.table : ℤ) = size o.chains s.table + e.net := by
  cases e with
  | look t b found =>
      rw [step] at h
      split_ifs at h
      all_goals
        obtain rfl := Option.some.inj h
        exact ⟨(Int.add_zero _).symm, (Int.add_zero _).symm⟩
  | insert t =>
      obtain ⟨b, -, rfl⟩ := Option.map_eq_some_iff.mp h
      refine ⟨rfl, ?_⟩
      change (size o.chains (s.table.push _ _) : ℤ) = _ + 1
      rw [size_push (o.key_mem b), Int.natCast_add]
      rfl
  | fail t =>
      obtain ⟨b, -, rfl⟩ := Option.map_eq_some_iff.mp h
      exact ⟨(Int.add_zero _).symm, (Int.add_zero _).symm⟩
  | erase b found =>
      rw [step] at h
      by_cases hfound : o.found s.table b ≠ found
      · rw [if_pos hfound] at h
        exact absurd h.symm (Option.some_ne_none _)
      rw [if_neg hfound] at h
      cases found with
      | false =>
          obtain rfl := Option.some.inj h
          exact ⟨(Int.add_zero _).symm, (Int.add_zero _).symm⟩
      | true =>
          obtain rfl := Option.some.inj h
          have hsize := size_eraseFirst (o.key_mem b) (not_not.mp hfound)
          refine ⟨rfl, ?_⟩
          change (size o.chains (s.table.eraseFirst _ _) : ℤ) = _ + -1
          omega

/-- The count is the number of entries. -/
def Exact (o : Ops ι α β) (s : State ι α β θ) : Prop := s.count = size o.chains s.table

omit [DecidableEq ι] [DecidableEq θ] in
theorem exact_init : Exact o (init : State ι α β θ) := by
  change (0 : ℤ) = size o.chains (Table.empty : Table ι α)
  rw [size_empty]
  rfl

theorem Exact.step {e : Section β θ} (hs : Exact o s) (h : step o s e = some s') : Exact o s' := by
  obtain ⟨hc, hn⟩ := step_net h
  unfold Exact at hs ⊢
  rw [hc, hn, hs]

/-- **The count is the number of entries**, in every order of the sections. -/
theorem exact_run {es : List (Section β θ)} (hs : Exact o s) (h : run (step o) s es = some s') :
    Exact o s' :=
  run_preserves (fun _ _ _ => Exact.step) hs h

/-! ### Replacing the table -/

/-- Adding to a table that no one else sees. -/
def tmpAdd (o : Ops ι α β) (w : Table ι α × ℤ) (b : β) : Table ι α × ℤ :=
  if o.found w.1 b then w else (w.1.push (o.key b) (o.entry b), w.2 + 1)

/-- A new table and its count. -/
def build (o : Ops ι α β) (bs : List β) : Table ι α × ℤ := bs.foldl (tmpAdd o) (Table.empty, 0)

/-- One pass over the chains: every entry is freed and counted off. -/
def flushPass (K : Finset ι) (w : Table ι α × ℤ) : Table ι α × ℤ :=
  (fun i => if i ∈ K then [] else w.1 i, w.2 - size K w.1)

/-- Passes until the count is used up, `none` when it is not after `fuel` of them. -/
def flush (K : Finset ι) : ℕ → Table ι α × ℤ → Option (Table ι α)
  | 0, _ => none
  | fuel + 1, w =>
      let w' := flushPass K w
      if w'.2 = 0 then some w'.1 else flush K fuel w'

/-- Where the thread that replaces the table is, with the count it has read. -/
inductive Loader (ι α : Type*)
  | idle
  | building (num : ℤ)
  | flushing (old : Table ι α) (num : ℤ)

/-- The table with the thread that replaces it. -/
structure SwapState (ι α β θ : Type*) extends State ι α β θ where
  loader : Loader ι α

/-- A section of a call, or a step of the thread that replaces the table. -/
inductive SwapEvent (β θ : Type*)
  | call (e : Section β θ)
  | readCount
  | swap (bs : List β)
  | pass

/-- The state before the first event. -/
def swapInit : SwapState ι α β θ := ⟨init, .idle⟩

/-- One event. -/
def swapStep (o : Ops ι α β) (s : SwapState ι α β θ) : SwapEvent β θ → Option (SwapState ι α β θ)
  | .call e => (step o s.toState e).map fun c => { s with toState := c }
  | .readCount =>
      match s.loader with
      | .idle => some { s with loader := .building s.count }
      | _ => none
  | .swap bs =>
      match s.loader with
      | .building num =>
          some ⟨{ s.toState with table := (build o bs).1, count := (build o bs).2 }, .flushing s.table num⟩
      | _ => none
  | .pass =>
      match s.loader with
      | .flushing old num =>
          let w := flushPass o.chains (old, num)
          some { s with loader := if w.2 = 0 then .idle else .flushing w.1 w.2 }
      | _ => none

/-- How an event changes the additions less the deletions since the count was read. -/
def driftStep (d : ℤ) : SwapEvent β θ → ℤ
  | .call e => d + e.net
  | .readCount => 0
  | _ => d

/-- The additions less the deletions since the count was last read. -/
def drift (es : List (SwapEvent β θ)) : ℤ := es.foldl driftStep 0

/-- The thread has the size of the old table, and its passes come to an end with every entry freed. -/
def Flushes (o : Ops ι α β) (s : SwapState ι α β θ) : Prop :=
  ∃ old num, s.loader = .flushing old num ∧ num = size o.chains old ∧
    ∃ fuel, flush o.chains fuel (old, num) = some Table.empty

/-- Every entry is in a chain. -/
def Within (K : Finset ι) (T : Table ι α) : Prop := ∀ i ∉ K, T i = []

theorem within_push {i : ι} (h : Within K T) (hi : i ∈ K) (x : α) : Within K (T.push i x) := by
  intro j hj
  have hne : j ≠ i := by
    rintro rfl
    exact hj hi
  rw [Table.push, Function.update_of_ne hne]
  exact h j hj

theorem within_eraseFirst {i : ι} (h : Within K T) (p : α → Bool) : Within K (T.eraseFirst i p) := by
  intro j hj
  by_cases he : j = i
  · subst he
    rw [Table.eraseFirst, Function.update_self, h j hj]
    rfl
  · rw [Table.eraseFirst, Function.update_of_ne he]
    exact h j hj

theorem Within.step {e : Section β θ} (hs : Within o.chains s.table) (h : step o s e = some s') :
    Within o.chains s'.table := by
  cases e with
  | look t b found =>
      rw [Counted.step] at h
      split_ifs at h
      all_goals
        obtain rfl := Option.some.inj h
        exact hs
  | insert t =>
      obtain ⟨b, -, rfl⟩ := Option.map_eq_some_iff.mp h
      exact within_push hs (o.key_mem b) _
  | fail t =>
      obtain ⟨b, -, rfl⟩ := Option.map_eq_some_iff.mp h
      exact hs
  | erase b found =>
      rw [Counted.step] at h
      split_ifs at h
      · obtain rfl := Option.some.inj h
        exact within_eraseFirst hs _
      · obtain rfl := Option.some.inj h
        exact hs

/-- The new table is counted as it is built. -/
theorem build_spec (bs : List β) :
    (build o bs).2 = size o.chains (build o bs).1 ∧ Within o.chains (build o bs).1 := by
  have hgen : ∀ w : Table ι α × ℤ, w.2 = size o.chains w.1 → Within o.chains w.1 →
      (bs.foldl (tmpAdd o) w).2 = size o.chains (bs.foldl (tmpAdd o) w).1 ∧
        Within o.chains (bs.foldl (tmpAdd o) w).1 := by
    induction bs with
    | nil => exact fun w hw hin => ⟨hw, hin⟩
    | cons b bs ih =>
        intro w hw hin
        rw [List.foldl_cons, tmpAdd]
        split_ifs
        · exact ih w hw hin
        · refine ih _ ?_ (within_push hin (o.key_mem b) _)
          rw [size_push (o.key_mem b), Int.natCast_add, ← hw]
          rfl
  exact hgen _ (by rw [size_empty]; rfl) fun _ _ => rfl

/-- Passes over a table with no entries never use up a count. -/
theorem flush_empty_of_ne {num : ℤ} (h : num ≠ 0) (fuel : ℕ) :
    flush K fuel ((Table.empty : Table ι α), num) = none := by
  induction fuel with
  | zero => rfl
  | succ fuel ih =>
      have hpass : flushPass K ((Table.empty : Table ι α), num) = (Table.empty, num) := by
        rw [flushPass, size_empty, Int.natCast_zero, Int.sub_zero]
        congr 1
        funext i
        exact ite_self _
      rw [flush, hpass]
      exact (if_neg h).trans ih

/-- **The passes come to an end when the count is the number of entries, and then free them all.** -/
theorem flush_iff (hin : Within K T) (num : ℤ) :
    (∃ fuel, flush K fuel (T, num) = some Table.empty) ↔ num = size K T := by
  have hpass : flushPass K (T, num) = (Table.empty, num - size K T) := by
    rw [flushPass]
    congr 1
    funext i
    split_ifs with hi
    · rfl
    · exact hin i hi
  constructor
  · rintro ⟨fuel, hfuel⟩
    by_contra hne
    cases fuel with
    | zero => exact absurd hfuel.symm (Option.some_ne_none _)
    | succ fuel =>
        have hne' : num - size K T ≠ 0 := fun h => hne (Int.sub_eq_zero.mp h)
        rw [flush, hpass] at hfuel
        rw [if_neg hne', flush_empty_of_ne hne'] at hfuel
        exact absurd hfuel.symm (Option.some_ne_none _)
  · intro h
    refine ⟨1, ?_⟩
    rw [flush, hpass]
    exact if_pos (Int.sub_eq_zero.mpr h)

/-- Between the events: the count is exact, and a count that was read differs from it by the drift. -/
structure SwapInv (o : Ops ι α β) (d : ℤ) (s : SwapState ι α β θ) : Prop where
  exact : Exact o s.toState
  within : Within o.chains s.table
  read : ∀ num, s.loader = .building num → num + d = s.count

theorem SwapInv.step {d : ℤ} {s s' : SwapState ι α β θ} {e : SwapEvent β θ} (hs : SwapInv o d s)
    (h : swapStep o s e = some s') : SwapInv o (driftStep d e) s' := by
  cases e with
  | call e =>
      obtain ⟨c, hc, rfl⟩ := Option.map_eq_some_iff.mp h
      refine ⟨hs.exact.step hc, hs.within.step hc, fun num hnum => ?_⟩
      have hread := hs.read num hnum
      have hcount := (step_net hc).1
      change num + (d + e.net) = c.count
      omega
  | readCount =>
      rw [swapStep] at h
      split at h
      · obtain rfl := Option.some.inj h
        refine ⟨hs.exact, hs.within, fun num hnum => ?_⟩
        obtain rfl : s.count = num := Loader.building.inj hnum
        exact Int.add_zero _
      · exact absurd h.symm (Option.some_ne_none _)
  | swap bs =>
      rw [swapStep] at h
      split at h
      · obtain rfl := Option.some.inj h
        obtain ⟨hcount, hin⟩ := @build_spec _ _ _ _ o bs
        refine ⟨hcount, hin, fun num hnum => ?_⟩
        cases hnum
      · exact absurd h.symm (Option.some_ne_none _)
  | pass =>
      rw [swapStep] at h
      split at h
      · obtain rfl := Option.some.inj h
        refine ⟨hs.exact, hs.within, fun num hnum => ?_⟩
        dsimp only at hnum
        split_ifs at hnum
      · exact absurd h.symm (Option.some_ne_none _)

theorem SwapInv.run {d : ℤ} {s s' : SwapState ι α β θ} {es : List (SwapEvent β θ)} (hs : SwapInv o d s)
    (h : run (swapStep o) s es = some s') : SwapInv o (es.foldl driftStep d) s' := by
  induction es generalizing d s with
  | nil =>
      obtain rfl := Option.some.inj h
      exact hs
  | cons e es ih =>
      rw [run_cons] at h
      obtain ⟨s₁, h₁, h₂⟩ := Option.bind_eq_some_iff.mp h
      exact ih (hs.step h₁) h₂

omit [DecidableEq ι] [DecidableEq θ] in
theorem swapInv_init : SwapInv o 0 (swapInit : SwapState ι α β θ) := by
  refine ⟨exact_init, fun _ _ => rfl, fun num hnum => ?_⟩
  cases hnum

/-- **The old table is freed when additions and deletions cancel out.**  In every run that swaps
the tables in its last event, the count that was read is the size of the old table and the passes
come to an end with every entry freed, if and only if since the count was read as many entries were
added as deleted. -/
theorem flushes_iff_drift {es : List (SwapEvent β θ)} {bs : List β} {s : SwapState ι α β θ}
    (h : run (swapStep o) swapInit (es ++ [.swap bs]) = some s) : Flushes o s ↔ drift es = 0 := by
  rw [run_append] at h
  obtain ⟨s₁, h₁, h₂⟩ := Option.bind_eq_some_iff.mp h
  have hinv := swapInv_init.run h₁
  rw [run_cons] at h₂
  obtain ⟨s₂, h₃, h₄⟩ := Option.bind_eq_some_iff.mp h₂
  obtain rfl := Option.some.inj h₄
  rw [swapStep] at h₃
  split at h₃
  · rename_i num hnum
    obtain rfl := Option.some.inj h₃
    have hread := hinv.read num hnum
    have hexact : s₁.count = size o.chains s₁.table := hinv.exact
    have hdrift : num = size o.chains s₁.table ↔ drift es = 0 := by
      unfold drift
      omega
    rw [← hdrift]
    constructor
    · rintro ⟨old, n, hl, hn, -⟩
      obtain ⟨rfl, rfl⟩ := Loader.flushing.inj hl
      exact hn
    · intro hn
      exact ⟨s₁.table, num, rfl, hn, (flush_iff hinv.within num).mpr hn⟩
  · exact absurd h₃.symm (Option.some_ne_none _)

end Counted
end TsbAgent
