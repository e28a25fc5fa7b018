/-
# Chains of checks around one write

The idiom

`do { if (…) { rc = err; break; } … } while (0); return rc;`

with one call among the checks that changes the state.  A `break` of the outer body
ends the chain.  An inner loop has a `break` of its own: it sets `rc`, and the chain
goes on behind the loop.  So an error found in a loop stands only as long as nothing
later sets `rc` anew, and nothing here sets it back to success:
`CheckChain.exec_fst_eq_none_iff`.

The state changes when the chain comes to the call, whatever the checks behind it say:
`CheckChain.exec_snd`.
-/

import Mathlib.Tactic.Common

namespace TsbAgent

/-- A statement of the body that leaves the state alone. -/
inductive CheckStmt (ε : Type*)
  /-- `if (!ok) { rc = err; break; }`. -/
  | check (ok : Bool) (err : ε)
  /-- A loop that ends with `rc`: the error before its `break`, or none. -/
  | loop (rc : Option ε)

namespace CheckStmt

variable {σ ε : Type*}

/-- The statement finds nothing wrong. -/
def Holds : CheckStmt ε → Prop
  | check ok _ => ok = true
  | loop rc => rc = none

/-- The body goes on behind the statement. -/
def GoesOn : CheckStmt ε → Prop
  | check ok _ => ok = true
  | loop _ => True

theorem Holds.goesOn {t : CheckStmt ε} (h : t.Holds) : t.GoesOn := by
  cases t with
  | check ok err => exact h
  | loop rc => trivial

/-- The statements in order: the error of a `break`, or `rc` at their end. -/
def run : List (CheckStmt ε) → Option ε → Except ε (Option ε)
  | [], rc => .ok rc
  | check ok err :: ts, rc => if ok then run ts rc else .error err
  | loop none :: ts, rc => run ts rc
  | loop (some e) :: ts, _ => run ts (some e)

theorem run_eq_ok_none_iff (ts : List (CheckStmt ε)) (rc : Option ε) :
    run ts rc = .ok none ↔ rc = none ∧ ∀ t ∈ ts, t.Holds := by
  induction ts generalizing rc with
  | nil => simp [run]
  | cons t ts ih =>
      rw [List.forall_mem_cons]
      cases t with
      | check ok err =>
          cases ok with
          | false => simp [run, Holds]
          | true => simp [run, Holds, ih]
      | loop r =>
          cases r with
          | none => simp [run, Holds, ih]
          | some e => simp [run, Holds, ih]

theorem run_ok_iff (ts : List (CheckStmt ε)) (rc : Option ε) :
    (∃ r, run ts rc = .ok r) ↔ ∀ t ∈ ts, t.GoesOn := by
  induction ts generalizing rc with
  | nil => simp [run]
  | cons t ts ih =>
      rw [List.forall_mem_cons]
      cases t with
      | check ok err =>
          cases ok with
          | false => simp [run, GoesOn]
          | true => simp [run, GoesOn, ih]
      | loop r =>
          cases r with
          | none => simp [run, GoesOn, ih]
          | some e => simp [run, GoesOn, ih]

end CheckStmt

/-- The body of a chain: the checks before the call, the error of a call that fails, and the
checks after it. -/
structure CheckChain (ε : Type*) where
  before : List (CheckStmt ε)
  err : ε
  after : List (CheckStmt ε)

namespace CheckChain

open CheckStmt

variable {σ ε : Type*}

/-- The chain around the call `f`; what `f` itself returns is lost. -/
def exec (c : CheckChain ε) (f : σ → Option ε × σ) (s : σ) : Option ε × σ :=
  match run c.before none with
  | .error e => (some e, s)
  | .ok rc =>
      match (f s).1 with
      | some _ => (some c.err, (f s).2)
      | none =>
          match run c.after rc with
          | .error e => (some e, (f s).2)
          | .ok rc => (rc, (f s).2)

variable {c : CheckChain ε} {f : σ → Option ε × σ} {s : σ}

/-- **No error is lost.**  The chain returns success exactly when every check before the call
and after it holds, those in the loops included, and the call succeeds. -/
theorem exec_fst_eq_none_iff : (c.exec f s).1 = none ↔
    (∀ t ∈ c.before, t.Holds) ∧ (f s).1 = none ∧ ∀ t ∈ c.after, t.Holds := by
  unfold exec
  cases hb : run c.before none with
  | error e =>
      refine iff_of_false (by simp) fun h => ?_
      rw [(run_eq_ok_none_iff _ _).mpr ⟨rfl, h.1⟩] at hb
      cases hb
  | ok rc =>
      have hrc : rc = none ↔ ∀ t ∈ c.before, t.Holds := by
        have h := run_eq_ok_none_iff c.before none
        rw [hb] at h
        simpa using h
      cases hf : (f s).1 with
      | some e => simp
      | none =>
          have ha := run_eq_ok_none_iff c.after rc
          rw [hrc] at ha
          simp only [true_and, ← ha]
          cases run c.after rc with
          | error e => simp
          | ok r => simp

/-- **The call changes the state whatever comes after it.** -/
theorem exec_snd_of_goesOn (h : ∀ t ∈ c.before, t.GoesOn) : (c.exec f s).2 = (f s).2 := by
  obtain ⟨rc, hrc⟩ := (run_ok_iff _ none).mpr h
  unfold exec
  rw [hrc]
  cases (f s).1 with
  | some e => rfl
  | none =>
      dsimp only
      cases run c.after rc <;> rfl

/-- A chain that ends before the call leaves the state alone. -/
theorem exec_of_not_goesOn (h : ¬ ∀ t ∈ c.before, t.GoesOn) :
    (c.exec f s).1 ≠ none ∧ (c.exec f s).2 = s := by
  unfold exec
  cases hb : run c.before none with
  | ok rc => exact absurd ((run_ok_iff _ none).mp ⟨rc, hb⟩) h
  | error e => exact ⟨by simp, rfl⟩

end CheckChain

end TsbAgent
