/-
# No update is accepted twice

All policy updates share one replay counter, and every validator tests it at another place of
its chain.  A run is a list of calls of `tcs_util_update_policy` and
`tcs_update_file_integrity`, each with whatever the TPCM, the semaphore and the file system do
during it; `accepted` are the counters of the calls that return success.

What makes the counters increase is that `replay.data` only ever closes: once it has a counter
(`AtLeast`), it keeps that one, gets a larger one, or is damaged by a write that breaks off, and
then every later call fails.  `Call.exec_atLeast` is that for one call, `accepted_gt` for a run,
and `accepted_counters_increasing` the result.  Of the environment it needs only that an existing
`replay.data` can be read: a file that `access` does not admit counts as a counter of `0`.
-/

import TsbAgent.Tcs.UpdatePolicy

namespace TsbAgent
namespace Tcs

/-- The counters of the calls of a run that return success, in their order. -/
def accepted : Files → List (UpdateIo × Call) → List UInt64
  | _, [] => []
  | s, (e, c) :: cs =>
      match c.exec e s with
      | (none, s') => c.counter :: accepted s' cs
      | (some _, s') => accepted s' cs

/-- No update with a counter up to `b` is admitted: the file has a counter from `b` on, or is
damaged for good. -/
def AtLeast (b : UInt64) : Option ReplayFile → Prop
  | none => False
  | some (.odd _ _) => True
  | some (.whole _ _ counter) => b ≤ counter

section Replay

variable {e : UpdateIo} {s : Files} {b : UInt64} {f : Option ReplayFile}

theorem AtLeast.lt_of_newer {io : ReplayIo} {counter : UInt64} (hread : io.readable = true)
    (h : AtLeast b f) (hnewer : Newer io f counter) : b < maskCounter counter := by
  obtain ⟨t, l, -, hl, -, hlt⟩ := hnewer
  rw [hread] at hl
  cases f with
  | none => exact h.elim
  | some f =>
      cases f with
      | odd len hlen => exact absurd hl (by simp [storedReplay])
      | whole size num c =>
          have hcl : c = l := Option.some.inj hl
          exact UInt64.lt_of_le_of_lt (hcl ▸ h) hlt

/-- **Writing the counter:** the file stays closed for what it was closed for. -/
theorem AtLeast.write {io : ReplayIo} {counter : UInt64} (hread : io.readable = true)
    (h : AtLeast b f) : AtLeast b (tcsUtilWriteReplayCounter io counter f).2 := by
  rcases tcsUtilWriteReplayCounter_cases io counter f with
    ⟨err, he⟩ | ⟨field, -, he⟩ | ⟨hnewer, he⟩
  · rw [he]
    exact h
  · rw [he]
    trivial
  · rw [he]
    exact UInt64.le_of_lt (h.lt_of_newer hread hnewer)

/-- The stages behind the validator do not touch the counter. -/
theorem writePolicy_replay (e : UpdateIo) (r : UpdateRequest) (com versionType : UInt32)
    (s : Files) : (writePolicy e r com versionType s).2.replay = s.replay := by
  unfold writePolicy
  cases tcsUtilWritePolicy e.policyWrite with
  | some err => rfl
  | none =>
      dsimp only
      split <;> rfl

/-- **A call and its validator.**  A call is refused with the counter as it was, or its
validator decides what becomes of the counter, and it succeeds only if the validator accepts. -/
theorem Call.exec_spec (c : Call) (e : UpdateIo) (s : Files) :
    ((c.exec e s).1 ≠ none ∧ (c.exec e s).2.replay = s.replay) ∨
      ∃ v u, v ≠ Validator.adminCert ∧ c.counter = maskCounter (v.counter u) ∧
        (c.exec e s).2.replay = (v.check e.toCheckIo u s.replay).2 ∧
        ((c.exec e s).1 = none → (v.check e.toCheckIo u s.replay).1 = none) := by
  cases c with
  | updatePolicy r =>
      simp only [Call.exec, Call.counter, tcsUtilUpdatePolicy]
      cases authorize e r with
      | some err => exact .inl ⟨by simp, rfl⟩
      | none =>
          cases hsw : policySwitch r.policyType with
          | none => exact .inl ⟨by simp, rfl⟩
          | some x =>
              obtain ⟨v, com, versionType⟩ := x
              refine .inr ⟨v, r.data, policySwitch_ne_adminCert hsw, rfl, ?_, ?_⟩
              · dsimp only
                rcases hc : v.check e.toCheckIo r.data s.replay with ⟨_ | err, replay⟩
                · exact writePolicy_replay ..
                · rfl
              · dsimp only
                rcases hc : v.check e.toCheckIo r.data s.replay with ⟨_ | err, replay⟩
                · exact fun _ => rfl
                · exact fun h => h
  | updateFileIntegrity references =>
      refine .inr ⟨.fileIntegrity, references, by decide, rfl, ?_, ?_⟩
      · simp only [Call.exec, tcsUpdateFileIntegrity, Validator.check]
        rcases tcsUtilCheckFileIntegrityUpdate e.toCheckIo s.replay references with ⟨_ | err, replay⟩
        · dsimp only
          split <;> rfl
        · rfl
      · simp only [Call.exec, tcsUpdateFileIntegrity, Validator.check]
        rcases tcsUtilCheckFileIntegrityUpdate e.toCheckIo s.replay references with ⟨_ | err, replay⟩
        · exact fun _ => rfl
        · exact fun h => h

/-- **One call:** what is closed stays closed, and only a larger counter is accepted. -/
theorem Call.exec_atLeast {c : Call} (hread : e.replay.readable = true)
    (h : AtLeast b s.replay) : AtLeast b (c.exec e s).2.replay ∧
      ((c.exec e s).1 = none → b < c.counter) := by
  rcases c.exec_spec e s with ⟨hret, hs⟩ | ⟨v, u, hv, hcounter, hs, hcheck⟩
  · exact ⟨hs ▸ h, fun hn => absurd hn hret⟩
  · rw [hs, hcounter]
    refine ⟨?_, fun hn => ?_⟩
    · rcases v.check_snd_cases e.toCheckIo u s.replay with hf | hf
      · rw [hf]
        exact h
      · rw [hf]
        exact h.write hread
    · obtain ⟨hwrite, -⟩ := Validator.check_write hv (hcheck hn)
      exact h.lt_of_newer hread (tcsUtilWriteReplayCounter_of_none hwrite).1

/-- An accepted call closes the file for its own counter. -/
theorem Call.exec_accepted {c : Call} (h : (c.exec e s).1 = none) :
    AtLeast c.counter (c.exec e s).2.replay := by
  rcases c.exec_spec e s with ⟨hret, -⟩ | ⟨v, u, hv, hcounter, hs, hcheck⟩
  · exact absurd h hret
  · obtain ⟨hwrite, hf⟩ := Validator.check_write hv (hcheck h)
    rw [hs, hcounter, hf, (tcsUtilWriteReplayCounter_of_none hwrite).2]
    exact UInt64.le_refl _

/-- **A run:** what is closed is not accepted any more. -/
theorem accepted_gt {cs : List (UpdateIo × Call)}
    (hread : ∀ x ∈ cs, x.1.replay.readable = true) (h : AtLeast b s.replay) :
    ∀ a ∈ accepted s cs, b < a := by
  induction cs generalizing s with
  | nil => exact fun a ha => absurd ha List.not_mem_nil
  | cons x cs ih =>
      obtain ⟨e, c⟩ := x
      rw [List.forall_mem_cons] at hread
      obtain ⟨hafter, hlt⟩ := Call.exec_atLeast (c := c) hread.1 h
      rw [accepted]
      rcases hx : c.exec e s with ⟨_ | err, s'⟩
      · rw [hx] at hafter hlt
        dsimp only
        rw [List.forall_mem_cons]
        exact ⟨hlt rfl, ih hread.2 hafter⟩
      · rw [hx] at hafter
        exact ih hread.2 hafter

end Replay

/-- **No update is accepted twice, and none older than an accepted one.**  Over every run of
updates of all types, whatever the TPCM's counters are, the counters of the accepted updates
increase. -/
theorem accepted_counters_increasing (s : Files) (cs : List (UpdateIo × Call))
    (hread : ∀ x ∈ cs, x.1.replay.readable = true) : (accepted s cs).Pairwise (· < ·) := by
  induction cs generalizing s with
  | nil => exact List.Pairwise.nil
  | cons x cs ih =>
      obtain ⟨e, c⟩ := x
      rw [List.forall_mem_cons] at hread
      rw [accepted]
      rcases hx : c.exec e s with ⟨_ | err, s'⟩
      · have hclosed : AtLeast c.counter s'.replay := by
          have h := Call.exec_accepted (c := c) (e := e) (s := s) (hx ▸ rfl)
          rwa [hx] at h
        exact List.Pairwise.cons (accepted_gt hread.2 hclosed) (ih s' hread.2)
      · exact ih s' hread.2

/-- A file integrity update without items, for the TPCM whose identity is all zeros. -/
def emptyReferences (counter : UInt8) : Mem := fun i =>
  if i = 3 then 56 else if i = 15 then counter else 0

/-- Three updates with the counters 1, 2 and 1: the first two are accepted. -/
theorem accepted_counters_one_two :
    ∃ (s : Files) (cs : List (UpdateIo × Call)), (∀ x ∈ cs, x.1.replay.readable = true) ∧
      accepted s cs = [1, 2] ∧ (accepted s cs).Pairwise (· < ·) := by
  let io : ReplayIo := ⟨.ok 0, none, none, true, true, true, .done⟩
  let e : UpdateIo :=
    ⟨⟨io, some fun _ => 0⟩, .ok [], fun _ _ _ _ => 0, .done, .done, .done, fun _ _ _ => none⟩
  let s : Files := ⟨none, fun _ => none, some ⟨12, [⟨5, 0⟩], []⟩⟩
  let cs : List (UpdateIo × Call) :=
    [(e, .updateFileIntegrity (emptyReferences 1)), (e, .updateFileIntegrity (emptyReferences 2)),
      (e, .updateFileIntegrity (emptyReferences 1))]
  have hread : ∀ x ∈ cs, x.1.replay.readable = true := by
    intro x hx
    simp only [cs, List.mem_cons, List.not_mem_nil, or_false] at hx
    rcases hx with rfl | rfl | rfl <;> rfl
  exact ⟨s, cs, hread, by rfl, accepted_counters_increasing s cs hread⟩

end Tcs
end TsbAgent
