/-
# Runs of a state machine

A machine whose step may be disabled, `step : σ → α → Option σ`, and its runs
over lists of actions.  `Meets` says that every step of a run satisfies a
condition on the action and the state before it; `run_invariant` is the one
induction on runs: what the start satisfies and every such step preserves holds
at the end of the run.  `run_simulates` is the same for a specification that the
machine follows step by step.
-/

import Mathlib.Tactic.Common

namespace TsbAgent
namespace Run

variable {σ α : Type*}

/-- The state after the actions, `none` when one of them is disabled. -/
def run (step : σ → α → Option σ) : σ → List α → Option σ
  | s, [] => some s
  | s, a :: as => (step s a).bind fun s' => run step s' as

/-- Every step of the run satisfies `ok`. -/
def Meets (step : σ → α → Option σ) (ok : σ → α → Prop) : σ → List α → Prop
  | _, [] => True
  | s, a :: as => ok s a ∧ ∀ s', step s a = some s' → Meets step ok s' as

variable {step : σ → α → Option σ} {ok : σ → α → Prop} {inv : σ → Prop} {s s' : σ} {as bs : List α}

@[simp] theorem run_nil : run step s [] = some s := rfl

theorem run_cons {a : α} : run step s (a :: as) = (step s a).bind fun s' => run step s' as := rfl

theorem run_cons_of_step {a : α} (h : step s a = some s') : run step s (a :: as) = run step s' as := by
  rw [run_cons, h, Option.bind_some]

theorem run_append : run step s (as ++ bs) = (run step s as).bind fun s' => run step s' bs := by
  induction as generalizing s with
  | nil => rfl
  | cons a as ih =>
      rw [List.cons_append, run_cons, run_cons]
      cases step s a with
      | none => rfl
      | some s₁ => simpa using ih

theorem meets_of_forall (h : ∀ a ∈ as, ∀ s, ok s a) : Meets step ok s as := by
  induction as generalizing s with
  | nil => trivial
  | cons a as ih =>
      exact ⟨h a List.mem_cons_self s, fun _ _ => ih fun b hb => h b (List.mem_cons_of_mem _ hb)⟩

/-- A permitted step before a permitted run. -/
theorem meets_cons_of_step {a : α} (ha : ok s a) (hs : step s a = some s') (hrest : Meets step ok s' as) :
    Meets step ok s (a :: as) := by
  refine ⟨ha, fun s₁ h₁ => ?_⟩
  obtain rfl := Option.some.inj (hs.symm.trans h₁)
  exact hrest

/-- A permitted run goes on with a permitted run. -/
theorem meets_append (h : Meets step ok s (as ++ bs)) :
    Meets step ok s as ∧ ∀ s', run step s as = some s' → Meets step ok s' bs := by
  induction as generalizing s with
  | nil =>
      refine ⟨trivial, fun s' hs' => ?_⟩
      obtain rfl := Option.some.inj hs'
      exact h
  | cons a as ih =>
      obtain ⟨ha, hrest⟩ := h
      refine ⟨⟨ha, fun s₁ h₁ => (ih (hrest s₁ h₁)).1⟩, fun s' hs' => ?_⟩
      rw [run_cons] at hs'
      obtain ⟨s₁, h₁, h₂⟩ := Option.bind_eq_some_iff.mp hs'
      exact (ih (hrest s₁ h₁)).2 s' h₂

/-- **What every permitted step preserves, every permitted run preserves.** -/
theorem run_invariant (hstep : ∀ s a s', inv s → ok s a → step s a = some s' → inv s')
    (h0 : inv s) (hok : Meets step ok s as) (hrun : run step s as = some s') : inv s' := by
  induction as generalizing s with
  | nil =>
      obtain rfl := Option.some.inj hrun
      exact h0
  | cons a as ih =>
      obtain ⟨ha, hrest⟩ := hok
      rw [run_cons] at hrun
      obtain ⟨s₁, h₁, h₂⟩ := Option.bind_eq_some_iff.mp hrun
      exact ih (hstep s a s₁ h0 ha h₁) (hrest s₁ h₁) h₂

/-- What every permitted step from a state of the invariant satisfies, every step of a
permitted run satisfies. -/
theorem meets_of_invariant {post : σ → α → Prop}
    (hstep : ∀ s a s', inv s → ok s a → step s a = some s' → inv s')
    (hpost : ∀ s a, inv s → ok s a → post s a) (h0 : inv s) (hok : Meets step ok s as) :
    Meets step post s as := by
  induction as generalizing s with
  | nil => trivial
  | cons a as ih =>
      obtain ⟨ha, hrest⟩ := hok
      exact ⟨hpost s a h0 ha, fun s' hs' => ih (hstep s a s' h0 ha hs') (hrest s' hs')⟩

/-- **What every step preserves, every run preserves.** -/
theorem run_preserves (hstep : ∀ s a s', inv s → step s a = some s' → inv s') (h0 : inv s)
    (hrun : run step s as = some s') : inv s' := by
  have hany : Meets step (fun _ _ => True) s as := meets_of_forall fun _ _ _ => trivial
  exact run_invariant (fun s a s' h _ hs => hstep s a s' h hs) h0 hany hrun

/-- **Where every permitted step can be taken**, a permitted run comes to its end. -/
theorem exists_run_of_meets (hstep : ∀ s a, inv s → ok s a → ∃ s', step s a = some s' ∧ inv s') (h0 : inv s)
    (hok : Meets step ok s as) : ∃ s', run step s as = some s' ∧ inv s' := by
  induction as generalizing s with
  | nil => exact ⟨s, rfl, h0⟩
  | cons a as ih =>
      obtain ⟨ha, hrest⟩ := hok
      obtain ⟨s₁, h₁, hinv⟩ := hstep s a h0 ha
      rw [run_cons_of_step h₁]
      exact ih hinv (hrest s₁ h₁)

/-- **When permitted steps are exactly those that keep the invariant**, the permitted runs are
exactly those all of whose states satisfy it. -/
theorem forall_prefix_iff_meets
    (hstep : ∀ s a, inv s → (ok s a ↔ ∃ s', step s a = some s' ∧ inv s')) (h0 : inv s) :
    (∀ as₁ as₂, as = as₁ ++ as₂ → ∃ s', run step s as₁ = some s' ∧ inv s') ↔ Meets step ok s as := by
  induction as generalizing s with
  | nil =>
      refine ⟨fun _ => trivial, fun _ as₁ as₂ h => ?_⟩
      obtain ⟨rfl, -⟩ := List.append_eq_nil_iff.mp h.symm
      exact ⟨s, rfl, h0⟩
  | cons a as ih =>
      constructor
      · intro h
        obtain ⟨s₁, hrun, hinv⟩ := h [a] as rfl
        rw [run_cons] at hrun
        obtain ⟨s₂, h₂, h₃⟩ := Option.bind_eq_some_iff.mp hrun
        obtain rfl := Option.some.inj h₃
        refine ⟨(hstep s a h0).mpr ⟨s₂, h₂, hinv⟩, fun s' hs' => (ih ?_).mp fun as₁ as₂ happ => ?_⟩
        · obtain rfl := Option.some.inj (h₂.symm.trans hs')
          exact hinv
        · rw [← run_cons_of_step hs']
          exact h (a :: as₁) as₂ (by rw [happ, List.cons_append])
      · intro hmeets as₁ as₂ happ
        rw [happ] at hmeets
        exact exists_run_of_meets (fun s a hs => (hstep s a hs).mp) h0 (meets_append hmeets).1

/-- A run of a specification whose steps are a relation. -/
def Steps {τ : Type*} (astep : τ → α → τ → Prop) : τ → List α → τ → Prop
  | t, [], t' => t' = t
  | t, a :: as, t' => ∃ t₁, astep t a t₁ ∧ Steps astep t₁ as t'

/-- **Simulation:** when every permitted step is a step of the specification between related
states, every permitted run is a run of the specification. -/
theorem run_simulates {τ : Type*} {astep : τ → α → τ → Prop} {R : σ → τ → Prop} {t : τ}
    (hstep : ∀ s t a s', R s t → ok s a → step s a = some s' → ∃ t', astep t a t' ∧ R s' t')
    (h0 : R s t) (hok : Meets step ok s as) (hrun : run step s as = some s') :
    ∃ t', Steps astep t as t' ∧ R s' t' := by
  induction as generalizing s t with
  | nil =>
      obtain rfl := Option.some.inj hrun
      exact ⟨t, rfl, h0⟩
  | cons a as ih =>
      obtain ⟨ha, hrest⟩ := hok
      rw [run_cons] at hrun
      obtain ⟨s₁, h₁, h₂⟩ := Option.bind_eq_some_iff.mp hrun
      obtain ⟨t₁, hspec, hR⟩ := hstep s t a s₁ h0 ha h₁
      obtain ⟨t', hsteps, hR'⟩ := ih hR (hrest s₁ h₁) h₂
      exact ⟨t', ⟨t₁, hspec, hsteps⟩, hR'⟩

end Run
end TsbAgent
