/-
# Going through a list up to the first objection

The items of a list are read again, and what is read is compared with what was recorded:

```
for each item {
        if (skip (item)) continue;
        if (read (item, &value)) break;
        if (value != recorded (item)) break;
        if (once) break;
}
```

`run` is the list of the items that were read, and how the loop ended.  A caller that takes the first `break` for
an end like any other believes in items that nobody read.  `exact_iff` says when that does no harm: everything the
loop comes to (`Reached`) is skipped just when it may be, and can be read when it may not be skipped.
-/

import Mathlib.Data.List.Basic
import Mathlib.Tactic.Common

namespace TsbAgent

/-- What is skipped, whether one item is enough, what is read, and what was recorded. -/
structure Inspection (α β : Type*) where
  skip : α → Bool
  once : Bool
  read : α → Option β
  recorded : α → β

namespace Inspection

variable {α β : Type*}

/-- How the loop ends: the list is at its end or one item was enough, an item could not be read, or it differs. -/
inductive Outcome (β : Type*)
  | finished
  | failed
  | differs (value : β)

/-- No difference was found. -/
def Outcome.Quiet (o : Outcome β) : Prop := ∀ b, o ≠ .differs b

/-- The loop: the items that were read, and how it ended. -/
def run [DecidableEq β] (I : Inspection α β) : List α → List α × Outcome β
  | [] => ([], .finished)
  | a :: l =>
      if I.skip a then I.run l
      else
        match I.read a with
        | none => ([a], .failed)
        | some b =>
            if b ≠ I.recorded a then ([a], .differs b)
            else if I.once then ([a], .finished)
            else (a :: (I.run l).1, (I.run l).2)

/-- The item reads as it was recorded. -/
def Passes (I : Inspection α β) (a : α) : Prop := I.read a = some (I.recorded a)

/-- The loop comes to the item, when no item is enough: what stands before it is skipped or passes. -/
def Reached (I : Inspection α β) (l : List α) (a : α) : Prop :=
  ∃ before after, l = before ++ a :: after ∧ ∀ x ∈ before, I.skip x = true ∨ I.Passes x

variable {I : Inspection α β} {R : α → Bool} {a x : α} {l : List α}

/-! ### One item -/

/-- The four ways through the body. -/
theorem cases_item (I : Inspection α β) (a : α) :
    I.skip a = true ∨ I.skip a = false ∧
      (I.read a = none ∨ (∃ b, I.read a = some b ∧ b ≠ I.recorded a) ∨ I.Passes a) := by
  cases hskip : I.skip a with
  | true => exact .inl rfl
  | false =>
      refine .inr ⟨rfl, ?_⟩
      cases hread : I.read a with
      | none => exact .inl rfl
      | some b =>
          rcases eq_or_ne b (I.recorded a) with rfl | hne
          · exact .inr (.inr hread)
          · exact .inr (.inl ⟨b, rfl, hne⟩)

theorem not_passes_of_none (h : I.read a = none) : ¬ I.Passes a := by
  rw [Passes, h]
  exact Option.some_ne_none _ ∘ Eq.symm

theorem not_passes_of_ne {b : β} (h : I.read a = some b) (hne : b ≠ I.recorded a) : ¬ I.Passes a := by
  rw [Passes, h]
  exact fun heq => hne (Option.some.inj heq)

/-- The loop comes to the first item, and behind it to what it comes to without it. -/
theorem reached_cons : I.Reached (x :: l) a ↔ a = x ∨ (I.skip x = true ∨ I.Passes x) ∧ I.Reached l a := by
  constructor
  · rintro ⟨before, after, heq, hall⟩
    cases before with
    | nil => exact .inl (List.cons.inj heq).1.symm
    | cons y before =>
        obtain ⟨rfl, rfl⟩ := List.cons.inj heq
        obtain ⟨hx, hrest⟩ := List.forall_mem_cons.mp hall
        exact .inr ⟨hx, before, after, rfl, hrest⟩
  · rintro (rfl | ⟨hx, before, after, rfl, hall⟩)
    · exact ⟨[], l, rfl, fun x hx => absurd hx List.not_mem_nil⟩
    · exact ⟨x :: before, after, rfl, List.forall_mem_cons.mpr ⟨hx, hall⟩⟩

/-- What the loop comes to is skipped just when it may be, and can be read when it may not be skipped. -/
def Sure (I : Inspection α β) (R : α → Bool) (l : List α) : Prop :=
  ∀ a, I.Reached l a → (I.skip a = true ↔ R a = false) ∧ (R a = true → I.read a ≠ none)

theorem required_of_skip (hskip : I.skip x = false) (hsame : I.skip x = true ↔ R x = false) : R x = true := by
  rw [← Bool.not_eq_false, ← hsame, hskip]
  exact Bool.false_ne_true

theorem sure_cons : I.Sure R (x :: l) ↔
    ((I.skip x = true ↔ R x = false) ∧ (R x = true → I.read x ≠ none)) ∧
      (I.skip x = true ∨ I.Passes x → I.Sure R l) := by
  constructor
  · exact fun h => ⟨h x (reached_cons.mpr (.inl rfl)), fun hx a ha => h a (reached_cons.mpr (.inr ⟨hx, ha⟩))⟩
  · rintro ⟨hhead, htail⟩ a ha
    rcases reached_cons.mp ha with rfl | ⟨hx, ha⟩
    · exact hhead
    · exact htail hx a ha

theorem quiet_finished : (Outcome.finished : Outcome β).Quiet := fun b h => by cases h

variable [DecidableEq β]

theorem run_cons_of_skip (h : I.skip a = true) : I.run (a :: l) = I.run l := by
  rw [run, if_pos h]

theorem run_cons_of_none (h : I.skip a = false) (hread : I.read a = none) : I.run (a :: l) = ([a], .failed) := by
  rw [run, h, if_neg Bool.false_ne_true, hread]

theorem run_cons_of_ne {b : β} (h : I.skip a = false) (hread : I.read a = some b) (hne : b ≠ I.recorded a) :
    I.run (a :: l) = ([a], .differs b) := by
  rw [run, h, if_neg Bool.false_ne_true, hread]
  dsimp only
  rw [if_pos hne]

theorem run_cons_of_passes (h : I.skip a = false) (hpass : I.Passes a) :
    I.run (a :: l) = if I.once then ([a], .finished) else (a :: (I.run l).1, (I.run l).2) := by
  rw [run, h, if_neg Bool.false_ne_true, hpass]
  dsimp only
  rw [if_neg (not_not.mpr rfl)]

/-! ### The items that were read -/

/-- What is skipped is not read. -/
theorem skip_of_mem_run (h : a ∈ (I.run l).1) : I.skip a = false := by
  induction l with
  | nil => exact absurd h List.not_mem_nil
  | cons x l ih =>
      rcases I.cases_item x with hskip | ⟨hskip, hnone | ⟨b, hb, hne⟩ | hpass⟩
      · rw [run_cons_of_skip hskip] at h
        exact ih h
      · rw [run_cons_of_none hskip hnone] at h
        exact List.mem_singleton.mp h ▸ hskip
      · rw [run_cons_of_ne hskip hb hne] at h
        exact List.mem_singleton.mp h ▸ hskip
      · rw [run_cons_of_passes hskip hpass] at h
        split_ifs at h
        · exact List.mem_singleton.mp h ▸ hskip
        · rcases List.mem_cons.mp h with rfl | hmem
          · exact hskip
          · exact ih hmem

/-- A loop that finishes has read items that pass. -/
theorem passes_of_finished (h : (I.run l).2 = .finished) : ∀ a ∈ (I.run l).1, I.Passes a := by
  induction l with
  | nil => exact fun a ha => absurd ha List.not_mem_nil
  | cons x l ih =>
      rcases I.cases_item x with hskip | ⟨hskip, hnone | ⟨b, hb, hne⟩ | hpass⟩
      · rw [run_cons_of_skip hskip] at h ⊢
        exact ih h
      · rw [run_cons_of_none hskip hnone] at h
        cases h
      · rw [run_cons_of_ne hskip hb hne] at h
        cases h
      · rw [run_cons_of_passes hskip hpass] at h ⊢
        split_ifs at h ⊢
        · exact fun a ha => List.mem_singleton.mp ha ▸ hpass
        · exact List.forall_mem_cons.mpr ⟨hpass, ih h⟩

/-- A loop that does not finish has read an item that does not pass. -/
theorem exists_not_passes (h : (I.run l).2 ≠ .finished) : ∃ a ∈ (I.run l).1, ¬ I.Passes a := by
  induction l with
  | nil => exact absurd rfl h
  | cons x l ih =>
      rcases I.cases_item x with hskip | ⟨hskip, hnone | ⟨b, hb, hne⟩ | hpass⟩
      · rw [run_cons_of_skip hskip] at h ⊢
        exact ih h
      · rw [run_cons_of_none hskip hnone]
        exact ⟨x, List.mem_singleton_self x, not_passes_of_none hnone⟩
      · rw [run_cons_of_ne hskip hb hne]
        exact ⟨x, List.mem_singleton_self x, not_passes_of_ne hb hne⟩
      · rw [run_cons_of_passes hskip hpass] at h ⊢
        split_ifs at h ⊢
        · exact absurd rfl h
        · obtain ⟨a, ha, hno⟩ := ih h
          exact ⟨a, List.mem_cons_of_mem _ ha, hno⟩

/-- Without a `skip`, a loop that goes on reads from the front of the list, and all of it when it finishes. -/
theorem run_isPrefix (hskip : ∀ a, I.skip a = false) (honce : I.once = false) (l : List α) :
    (I.run l).1 <+: l ∧ ((I.run l).2 = .finished → (I.run l).1 = l) := by
  induction l with
  | nil => exact ⟨List.nil_prefix, fun _ => rfl⟩
  | cons x l ih =>
      rcases I.cases_item x with hx | ⟨-, hnone | ⟨b, hb, hne⟩ | hpass⟩
      · rw [hskip x] at hx
        cases hx
      · rw [run_cons_of_none (hskip x) hnone]
        exact ⟨List.prefix_append [x] l, fun h => by cases h⟩
      · rw [run_cons_of_ne (hskip x) hb hne]
        exact ⟨List.prefix_append [x] l, fun h => by cases h⟩
      · rw [run_cons_of_passes (hskip x) hpass, honce, if_neg Bool.false_ne_true]
        exact ⟨List.cons_prefix_cons.mpr ⟨rfl, ih.1⟩, fun h => congrArg (x :: ·) (ih.2 h)⟩

/-! ### A loop that skips what it may -/

/-- **A loop that skips exactly what it may:** what is read are the items with `R` from the front; and when no
difference is found, they were all read, and pass. -/
def Exact (I : Inspection α β) (R : α → Bool) (l : List α) : Prop :=
  (I.run l).1 <+: l.filter R ∧
    ((I.run l).2.Quiet → (I.run l).1 = l.filter R ∧ ∀ a ∈ l, R a = true → I.Passes a)

/-- Nothing was read: the list is at its end. -/
theorem finished_of_nil (h : (I.run l).1 = []) : (I.run l).2 = .finished := by
  by_contra hne
  obtain ⟨a, ha, -⟩ := exists_not_passes hne
  rw [h] at ha
  exact List.not_mem_nil ha

/-- An item that is skipped, though it may not be. -/
theorem not_exact_of_skip (hskip : I.skip x = true) (hR : R x = true) : ¬ I.Exact R (x :: l) := by
  rintro ⟨hfront, hquiet⟩
  rw [run_cons_of_skip hskip, List.filter_cons_of_pos hR] at hfront hquiet
  cases hread : (I.run l).1 with
  | nil =>
      have hall := hquiet (finished_of_nil hread ▸ quiet_finished)
      rw [hread] at hall
      exact absurd hall.1 (List.cons_ne_nil _ _).symm
  | cons y t =>
      rw [hread] at hfront
      have hyx : y = x := (List.cons_prefix_cons.mp hfront).1
      have hy : I.skip y = false := skip_of_mem_run (hread ▸ List.mem_cons_self)
      rw [hyx, hskip] at hy
      cases hy

/-- What was read is not among the items that may be skipped. -/
theorem Exact.mem (h : I.Exact R l) (ha : a ∈ (I.run l).1) : R a = true :=
  List.of_mem_filter (h.1.mem ha)

/-- **When a loop skips exactly what it may.** -/
theorem exact_iff (honce : I.once = false) : I.Exact R l ↔ I.Sure R l := by
  induction l with
  | nil =>
      refine iff_of_true ⟨List.nil_prefix, fun _ => ⟨rfl, fun a ha => absurd ha List.not_mem_nil⟩⟩ ?_
      rintro a ⟨before, after, heq, -⟩
      exact absurd heq (by simp)
  | cons x l ih =>
      rw [sure_cons, ← ih]
      rcases I.cases_item x with hskip | ⟨hskip, hnone | ⟨b, hb, hne⟩ | hpass⟩
      · cases hR : R x with
        | true =>
            refine iff_of_false (not_exact_of_skip hskip hR) ?_
            rintro ⟨⟨hsame, -⟩, -⟩
            exact absurd (hsame.mp hskip) (by decide)
        | false =>
            have hsame : (I.skip x = true ↔ R x = false) ∧ (R x = true → I.read x ≠ none) :=
              ⟨iff_of_true hskip hR, fun h => by rw [hR] at h; cases h⟩
            rw [hR] at hsame
            rw [and_iff_right hsame, imp_iff_right (.inl hskip), Exact, Exact, run_cons_of_skip hskip,
              List.filter_cons_of_neg (by rw [hR]; decide)]
            refine and_congr_right fun _ => imp_congr_right fun _ => and_congr_right fun _ => ?_
            rw [List.forall_mem_cons, and_iff_right fun h => by rw [hR] at h; cases h]
      · -- the loop ends, and finds no difference
        refine iff_of_false (fun hexact => ?_) ?_
        · have hrun : I.run (x :: l) = ([x], .failed) := run_cons_of_none hskip hnone
          have hR : R x = true := hexact.mem (by rw [hrun]; exact List.mem_cons_self)
          have hquiet : (I.run (x :: l)).2.Quiet := fun b h => by rw [hrun] at h; cases h
          exact not_passes_of_none hnone ((hexact.2 hquiet).2 x List.mem_cons_self hR)
        · rintro ⟨⟨hsame, hreads⟩, -⟩
          exact hreads (required_of_skip hskip hsame) hnone
      · -- the loop ends with a difference
        have hrun : I.run (x :: l) = ([x], .differs b) := run_cons_of_ne hskip hb hne
        have hno : ¬ (I.skip x = true ∨ I.Passes x) := by
          rintro (h | h)
          · rw [h] at hskip
            cases hskip
          · exact not_passes_of_ne hb hne h
        constructor
        · intro hexact
          have hR : R x = true := hexact.mem (by rw [hrun]; exact List.mem_cons_self)
          refine ⟨⟨iff_of_false (by rw [hskip]; decide) (by rw [hR]; decide), fun _ => ?_⟩, fun h => absurd h hno⟩
          rw [hb]
          exact Option.some_ne_none b
        · rintro ⟨⟨hsame, -⟩, -⟩
          have hR := required_of_skip hskip hsame
          refine ⟨?_, fun hquiet => absurd (congrArg Prod.snd hrun) (hquiet b)⟩
          rw [hrun, List.filter_cons_of_pos hR]
          exact List.prefix_append [x] _
      · cases hR : R x with
        | false =>
            refine iff_of_false (fun hexact => ?_) ?_
            · have hmem : x ∈ (I.run (x :: l)).1 := by
                rw [run_cons_of_passes hskip hpass, honce, if_neg Bool.false_ne_true]
                exact List.mem_cons_self
              have hRx := hexact.mem hmem
              rw [hR] at hRx
              cases hRx
            · rintro ⟨⟨hsame, -⟩, -⟩
              rw [hsame.mpr rfl] at hskip
              cases hskip
        | true =>
            have hread : I.read x ≠ none := by
              rw [hpass]
              exact Option.some_ne_none _
            have hsame : (I.skip x = true ↔ true = false) ∧ (true = true → I.read x ≠ none) :=
              ⟨iff_of_false (by rw [hskip]; decide) (by decide), fun _ => hread⟩
            rw [and_iff_right hsame, imp_iff_right (.inr hpass), Exact, Exact, run_cons_of_passes hskip hpass,
              honce, if_neg Bool.false_ne_true, List.filter_cons_of_pos hR, List.cons_prefix_cons,
              and_iff_right rfl, List.cons_inj_right, List.forall_mem_cons, and_iff_right fun _ => hpass]

/-- Then no difference is found exactly when everything passes that may not be skipped. -/
theorem Exact.quiet_iff (h : I.Exact R l) : (I.run l).2.Quiet ↔ ∀ a ∈ l, R a = true → I.Passes a := by
  refine ⟨fun hquiet => (h.2 hquiet).2, fun hall b hb => ?_⟩
  have hend : (I.run l).2 ≠ .finished := by
    rw [hb]
    exact fun h => by cases h
  obtain ⟨a, ha, hno⟩ := exists_not_passes hend
  exact hno (hall a (List.mem_of_mem_filter (h.1.mem ha)) (h.mem ha))

/-! ### A loop without a `skip` -/

/-- What is read are the items with `R` from the front, and all of them when the loop finishes. -/
def Complete (I : Inspection α β) (R : α → Bool) (l : List α) : Prop :=
  (I.run l).1 <+: l.filter R ∧ ((I.run l).2 = .finished → (I.run l).1 = l.filter R)

theorem Complete.finished_iff (h : I.Complete R l) :
    (I.run l).2 = .finished ↔ ∀ a ∈ l, R a = true → I.Passes a := by
  constructor
  · intro hend a ha hR
    refine passes_of_finished hend a ?_
    rw [h.2 hend]
    exact List.mem_filter.mpr ⟨ha, hR⟩
  · intro hall
    by_contra hend
    obtain ⟨a, ha, hno⟩ := exists_not_passes hend
    obtain ⟨hmem, hR⟩ := List.mem_filter.mp (h.1.mem ha)
    exact hno (hall a hmem hR)

/-- Nothing may be skipped, and nothing is. -/
theorem complete_of_forall (hskip : ∀ a, I.skip a = false) (honce : I.once = false) (hR : ∀ a, R a = true) :
    I.Complete R l := by
  rw [Complete, List.filter_eq_self.mpr fun a _ => hR a]
  exact run_isPrefix hskip honce l

theorem complete_nil : I.Complete R [] := ⟨List.nil_prefix, fun _ => rfl⟩

/-- Where one item is enough, the first one is read and decides. -/
theorem run_once (hskip : I.skip x = false) (honce : I.once = true) :
    (I.run (x :: l)).1 = [x] ∧ ((I.run (x :: l)).2 = .finished ↔ I.Passes x) := by
  rcases I.cases_item x with hx | ⟨-, hnone | ⟨b, hb, hne⟩ | hpass⟩
  · rw [hskip] at hx
    cases hx
  · rw [run_cons_of_none hskip hnone]
    exact ⟨rfl, iff_of_false (fun h => by cases h) (not_passes_of_none hnone)⟩
  · rw [run_cons_of_ne hskip hb hne]
    exact ⟨rfl, iff_of_false (fun h => by cases h) (not_passes_of_ne hb hne)⟩
  · rw [run_cons_of_passes hskip hpass, honce, if_pos rfl]
    exact ⟨rfl, iff_of_true rfl hpass⟩

/-- **One item is enough** when it may not be skipped, and all others may when it passes. -/
theorem complete_once_iff (hskip : I.skip x = false) (honce : I.once = true) :
    I.Complete R (x :: l) ↔ R x = true ∧ (I.Passes x → ∀ y ∈ l, R y = false) := by
  obtain ⟨hread, hend⟩ := @run_once _ _ I x l _ hskip honce
  rw [Complete, hread, hend]
  cases hR : R x with
  | false =>
      refine iff_of_false (fun h => ?_) fun h => by cases h.1
      have hRx := List.of_mem_filter (h.1.mem (List.mem_singleton_self x))
      rw [hR] at hRx
      cases hRx
  | true =>
      have hfront : [x] <+: x :: l.filter R := List.prefix_append [x] _
      rw [List.filter_cons_of_pos hR, and_iff_right hfront, and_iff_right rfl, List.cons_inj_right, eq_comm,
        List.filter_eq_nil_iff]
      simp only [Bool.not_eq_true]

end Inspection
end TsbAgent
