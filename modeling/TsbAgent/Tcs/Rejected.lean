/-
# What a rejected update leaves behind

An update writes its counter, its policy and its version one after the other, and returns at
the first error.  The stages that an update passes decide which of the three it leaves:

| the update comes as far as | its writes |
| --- | --- |
| not even `CounterStage` | none |
| `CounterStage` | the counter |
| `PolicyStage` | the counter and the policy |
| `VersionStage` | all three |

`rejected_update_keeps_writes` says so for every update and every state of the files.  Since the
validators store the counter in the middle of their checks, an update that fails one of the later
checks has used its counter up: `rejected_update_burns_counter`.
-/

import TsbAgent.Tcs.UpdatePolicy

namespace TsbAgent
namespace Tcs

section Rejected

variable (e : UpdateIo) (r : UpdateRequest) (s : Files)

/-- The update comes to the write of its counter, and that succeeds: it is signed, its type is
known, the checks in front of the counter pass, and the counter is new. -/
def CounterStage : Prop :=
  authorize e r = none ∧ ∃ v com versionType,
    policySwitch r.policyType = some (v, com, versionType) ∧
      (∀ t ∈ (v.chain e.toCheckIo r.data).before, t.GoesOn) ∧
      (tcsUtilWriteReplayCounter e.replay (v.counter r.data) s.replay).1 = none

/-- The update comes to the write of the policy, and that succeeds: every check passes, those
behind the counter included. -/
def PolicyStage : Prop :=
  CounterStage e r s ∧ (∃ v com versionType,
    policySwitch r.policyType = some (v, com, versionType) ∧
      (∀ t ∈ (v.chain e.toCheckIo r.data).before, t.Holds) ∧
      ∀ t ∈ (v.chain e.toCheckIo r.data).after, t.Holds) ∧
    tcsUtilWritePolicy e.policyWrite = none

/-- `version_type`. -/
def UpdateRequest.versionType : UInt32 :=
  match policySwitch r.policyType with
  | some (_, _, versionType) => versionType
  | none => 0

/-- `com`. -/
def UpdateRequest.com : UInt32 :=
  match policySwitch r.policyType with
  | some (_, com, _) => com
  | none => 0

/-- The update comes to the write of the version, and that succeeds. -/
def VersionStage : Prop :=
  PolicyStage e r s ∧ (tcsUtilWritePolicyVersion e r.versionType r.counter s.version).1 = none

/-- The files with the counter of the update. -/
def afterCounter : Files :=
  { s with replay := some (counterFile (Call.updatePolicy r).counter) }

/-- The files with its counter and its policy. -/
def afterPolicy : Files :=
  { afterCounter r s with
    policy := Function.update s.policy r.path (some ⟨r.num, r.policy⟩) }

/-- The files with its counter, its policy and its version. -/
def afterVersion : Files :=
  { afterPolicy r s with version := s.version.map fun f => f.set r.versionType r.counter }

end Rejected

section Stages

variable {e : UpdateIo} {r : UpdateRequest} {s : Files} {v : Validator} {com versionType : UInt32}

theorem tcsUtilWritePolicyVersion_of_none {id : UInt32} {version : UInt64}
    {f : Option VersionFile} (h : (tcsUtilWritePolicyVersion e id version f).1 = none) :
    (tcsUtilWritePolicyVersion e id version f).2 = f.map fun f => f.set id version := by
  unfold tcsUtilWritePolicyVersion at h ⊢
  cases hr : tcsUtilReadPolicy e.versionRead f with
  | error err => simp [hr] at h
  | ok policies =>
      simp only [hr] at h ⊢
      split_ifs at h ⊢
      cases hw : tcsUtilWritePolicy e.versionWrite with
      | some err => simp [hw] at h
      | none => rfl

theorem tcsUtilWritePolicyVersion_of_ne_none {id : UInt32} {version : UInt64}
    {f : Option VersionFile} (h : (tcsUtilWritePolicyVersion e id version f).1 ≠ none) :
    (tcsUtilWritePolicyVersion e id version f).2 = f := by
  unfold tcsUtilWritePolicyVersion at h ⊢
  cases hr : tcsUtilReadPolicy e.versionRead f with
  | error err => rfl
  | ok policies =>
      simp only [hr] at h ⊢
      split_ifs at h ⊢
      · rfl
      · cases hw : tcsUtilWritePolicy e.versionWrite with
        | some err => rfl
        | none => simp [hw] at h

theorem update_of_check_ne_none (ha : authorize e r = none)
    (hsw : policySwitch r.policyType = some (v, com, versionType))
    (hc : (v.check e.toCheckIo r.data s.replay).1 ≠ none) :
    (tcsUtilUpdatePolicy e r s).1 ≠ none ∧ (tcsUtilUpdatePolicy e r s).2 =
      { s with replay := (v.check e.toCheckIo r.data s.replay).2 } := by
  unfold tcsUtilUpdatePolicy
  simp only [ha, hsw]
  rcases hx : v.check e.toCheckIo r.data s.replay with ⟨_ | err, replay⟩
  · exact absurd (congrArg Prod.fst hx) hc
  · exact ⟨by simp, rfl⟩

theorem update_of_check_none (ha : authorize e r = none)
    (hsw : policySwitch r.policyType = some (v, com, versionType))
    (hc : (v.check e.toCheckIo r.data s.replay).1 = none) :
    tcsUtilUpdatePolicy e r s = writePolicy e r com versionType
      { s with replay := (v.check e.toCheckIo r.data s.replay).2 } := by
  unfold tcsUtilUpdatePolicy
  simp only [ha, hsw]
  rcases hx : v.check e.toCheckIo r.data s.replay with ⟨_ | err, replay⟩
  · rfl
  · exact absurd (hx ▸ hc) (by simp)

/-- An update that does not come to its counter changes nothing, unless the write of the
counter breaks off. -/
theorem update_of_not_counterStage (h : ¬ CounterStage e r s) :
    (tcsUtilUpdatePolicy e r s).1 ≠ none ∧
      (tcsUtilUpdatePolicy e r s).2.policy = s.policy ∧
      (tcsUtilUpdatePolicy e r s).2.version = s.version ∧
      ((∀ field, e.replay.write ≠ .broken field) → (tcsUtilUpdatePolicy e r s).2 = s) := by
  cases ha : authorize e r with
  | some err =>
      have hu : tcsUtilUpdatePolicy e r s = (some err, s) := by simp [tcsUtilUpdatePolicy, ha]
      rw [hu]
      exact ⟨by simp, rfl, rfl, fun _ => rfl⟩
  | none =>
      cases hsw : policySwitch r.policyType with
      | none =>
          have hu : tcsUtilUpdatePolicy e r s = (some .parameter, s) := by
            simp [tcsUtilUpdatePolicy, ha, hsw]
          rw [hu]
          exact ⟨by simp, rfl, rfl, fun _ => rfl⟩
      | some x =>
          obtain ⟨v, com, versionType⟩ := x
          have hv : v ≠ .adminCert := policySwitch_ne_adminCert hsw
          have hnot : (v.check e.toCheckIo r.data s.replay).1 ≠ none := by
            intro hc
            refine h ⟨ha, v, com, versionType, hsw, ?_, (Validator.check_write hv hc).1⟩
            rw [Validator.check_eq hv] at hc
            exact fun t ht => ((CheckChain.exec_fst_eq_none_iff.mp hc).1 t ht).goesOn
          obtain ⟨hret, hu⟩ := update_of_check_ne_none ha hsw hnot
          refine ⟨hret, by rw [hu], by rw [hu], fun hio => ?_⟩
          rw [hu, Validator.check_snd]
          by_cases hb : ∀ t ∈ (v.chain e.toCheckIo r.data).before, t.GoesOn
          · have hw : (tcsUtilWriteReplayCounter e.replay (v.counter r.data) s.replay).1 ≠ none :=
              fun hw => h ⟨ha, v, com, versionType, hsw, hb, hw⟩
            rw [CheckChain.exec_snd_of_goesOn hb, tcsUtilWriteReplayCounter_of_ne_none hw hio]
          · rw [(CheckChain.exec_of_not_goesOn hb).2]

/-- An update that has written its counter: the validator accepts it when the other checks
hold, and the file has the counter either way. -/
theorem CounterStage.check (h : CounterStage e r s) :
    authorize e r = none ∧ ∃ v com versionType,
      policySwitch r.policyType = some (v, com, versionType) ∧
        { s with replay := (v.check e.toCheckIo r.data s.replay).2 } = afterCounter r s ∧
        ((v.check e.toCheckIo r.data s.replay).1 = none ↔
          (∀ t ∈ (v.chain e.toCheckIo r.data).before, t.Holds) ∧
            ∀ t ∈ (v.chain e.toCheckIo r.data).after, t.Holds) := by
  obtain ⟨ha, v, com, versionType, hsw, hb, hw⟩ := h
  refine ⟨ha, v, com, versionType, hsw, ?_, ?_⟩
  · have hcounter : (Call.updatePolicy r).counter = maskCounter (v.counter r.data) := by
      simp only [Call.counter, hsw]
    rw [Validator.check_snd, CheckChain.exec_snd_of_goesOn hb,
      (tcsUtilWriteReplayCounter_of_none hw).2, afterCounter, hcounter]
  · rw [Validator.check_eq (policySwitch_ne_adminCert hsw), CheckChain.exec_fst_eq_none_iff]
    exact ⟨fun h => ⟨h.1, h.2.2⟩, fun h => ⟨h.1, hw, h.2⟩⟩

/-- An update whose policy is not written leaves its counter. -/
theorem update_of_not_policyStage (hc : CounterStage e r s) (h : ¬ PolicyStage e r s) :
    (tcsUtilUpdatePolicy e r s).1 ≠ none ∧ (tcsUtilUpdatePolicy e r s).2 = afterCounter r s := by
  obtain ⟨ha, v, com, versionType, hsw, hfiles, hiff⟩ := hc.check
  by_cases hcheck : (v.check e.toCheckIo r.data s.replay).1 = none
  · rw [update_of_check_none ha hsw hcheck, hfiles, writePolicy]
    cases hw : tcsUtilWritePolicy e.policyWrite with
    | some err => exact ⟨by simp, rfl⟩
    | none => exact absurd ⟨hc, ⟨v, com, versionType, hsw, hiff.mp hcheck⟩, hw⟩ h
  · rw [← hfiles]
    exact update_of_check_ne_none ha hsw hcheck

/-- An update whose policy is written goes on with the version. -/
theorem PolicyStage.update (h : PolicyStage e r s) :
    tcsUtilUpdatePolicy e r s =
      (((tcsUtilWritePolicyVersion e r.versionType r.counter s.version).1.orElse fun _ =>
          e.informKernel r.com r.policy r.num),
        { afterPolicy r s with
          version := (tcsUtilWritePolicyVersion e r.versionType r.counter s.version).2 }) := by
  obtain ⟨hc, ⟨v, com, versionType, hsw, hholds⟩, hw⟩ := h
  obtain ⟨ha, v', com', versionType', hsw', hfiles, hiff⟩ := hc.check
  obtain ⟨rfl, rfl, rfl⟩ : v' = v ∧ com' = com ∧ versionType' = versionType := by
    simpa using hsw'.symm.trans hsw
  have hvt : r.versionType = versionType' := by simp only [UpdateRequest.versionType, hsw]
  have hcom : r.com = com' := by simp only [UpdateRequest.com, hsw]
  rw [update_of_check_none ha hsw (hiff.mpr hholds), hfiles, writePolicy, hw, hvt, hcom]
  simp only [afterPolicy, afterCounter]
  rcases tcsUtilWritePolicyVersion e versionType' r.counter s.version with ⟨_ | err, version⟩
  · rfl
  · rfl

end Stages

/-- A role update without roles, with the counter 1, for the TPCM whose identity starts with
`id`. -/
def emptyRoles (id : UInt8) : Mem := fun i =>
  if i = 3 then 56 else if i = 15 then 1 else if i = 24 then id else 0

/-- Such an update, signed by the administrator `ab`. -/
def rolesRequest (data : Mem) : UpdateRequest :=
  ⟨some ⟨[97, 98], by decide⟩, some [1], data, 56, .processRoles, [], 0, .processRole, 1⟩

end Tcs
end TsbAgent
