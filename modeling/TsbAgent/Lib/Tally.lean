/-
# Counting threads

How many threads of a system are in a given kind of state.  `tally p f` counts
the threads `i` with `p (f i)`; a step of one thread is an update of `f` at that
thread, and `tally_update` says by how much it moves the count.  There may be
any number of threads, as long as those that `p` accepts are finitely many
(`Bounded`), which a step keeps.
-/

import Mathlib.Data.Set.Card
import Mathlib.Logic.Function.Basic

namespace TsbAgent
namespace Tally

variable {ι σ : Type*}

/-- Finitely many threads satisfy `p`. -/
def Bounded (p : σ → Prop) (f : ι → σ) : Prop := {i | p (f i)}.Finite

/-- The number of threads that satisfy `p`. -/
noncomputable def tally (p : σ → Prop) (f : ι → σ) : ℕ := {i | p (f i)}.ncard

variable {p : σ → Prop} {f : ι → σ} {i : ι} {x : σ}

theorem bounded_of_forall_not (h : ∀ i, ¬ p (f i)) : Bounded p f := by
  have hempty : {i | p (f i)} = ∅ := Set.eq_empty_of_forall_notMem h
  rw [Bounded, hempty]
  exact Set.finite_empty

theorem tally_eq_zero (hb : Bounded p f) : tally p f = 0 ↔ ∀ i, ¬ p (f i) := by
  rw [tally, Set.ncard_eq_zero hb, Set.eq_empty_iff_forall_notMem]
  rfl

theorem tally_congr {g : ι → σ} (h : ∀ i, p (f i) ↔ p (g i)) : tally p f = tally p g := by
  have hset : {i | p (f i)} = {i | p (g i)} := Set.ext h
  rw [tally, tally, hset]

/-- The only thread that satisfies `p`. -/
theorem eq_of_tally_eq_one {j : ι} (h : tally p f = 1) (hi : p (f i)) (hj : p (f j)) : i = j := by
  obtain ⟨k, hk⟩ := Set.ncard_eq_one.mp h
  have hik : i ∈ ({k} : Set ι) := hk ▸ hi
  have hjk : j ∈ ({k} : Set ι) := hk ▸ hj
  rw [Set.mem_singleton_iff.mp hik, Set.mem_singleton_iff.mp hjk]

variable [DecidableEq ι]

theorem Bounded.update (hb : Bounded p f) (i : ι) (x : σ) : Bounded p (Function.update f i x) := by
  refine (hb.insert i).subset fun j hj => ?_
  rcases eq_or_ne j i with rfl | hne
  · exact Set.mem_insert _ _
  · have hj : p (Function.update f i x j) := hj
    rw [Function.update_of_ne hne] at hj
    exact Set.mem_insert_of_mem _ hj

/-- **A step of one thread moves the count by what that thread adds.** -/
theorem tally_update [DecidablePred p] (hb : Bounded p f) (i : ι) (x : σ) :
    tally p (Function.update f i x) + (if p (f i) then 1 else 0) =
      tally p f + (if p x then 1 else 0) := by
  -- the threads other than `i` count on both sides
  have hrest : ∀ y, {j | p (Function.update f i y j)} \ {i} = {j | p (f j)} \ {i} := by
    intro y
    ext j
    refine and_congr_left fun hne => ?_
    change p (Function.update f i y j) ↔ p (f j)
    rw [Function.update_of_ne hne]
  have hcount : ∀ y, tally p (Function.update f i y) =
      ({j | p (f j)} \ {i}).ncard + (if p y then 1 else 0) := by
    intro y
    have hself : i ∈ {j | p (Function.update f i y j)} ↔ p y := by
      change p (Function.update f i y i) ↔ p y
      rw [Function.update_self]
    rw [← hrest y, tally]
    split_ifs with hy
    · exact (Set.ncard_sdiff_singleton_add_one (hself.mpr hy) (hb.update i y)).symm
    · rw [Nat.add_zero, Set.sdiff_singleton_eq_self fun hmem => hy (hself.mp hmem)]
  have hold := hcount (f i)
  rw [Function.update_eq_self] at hold
  rw [hcount x, hold]
  omega

end Tally
end TsbAgent
