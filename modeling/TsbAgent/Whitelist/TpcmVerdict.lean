/-
# What the TPCM answers, and what becomes of it

`digest_check_tpcm` and `digest_check_tpcm_simple` (`tsb/kernel/smeasure/policy/hash_whitelist.c`) ask the
TPCM about a file, the first with its pages, the second with its digest, and make a verdict of the
return code and the result:

| return code | `digest_check_tpcm` | `digest_check_tpcm_simple` |
| --- | --- | --- |
| `TPCM_ERROR_TIMEOUT`, `TPCM_ERROR_NO_SPACE` | asks again | returns the code |
| `516`, the command is too long | calls the other | `DC_FORBID` |
| any other error | `DC_FORBID` | `DC_FORBID` |
| `0` | the verdict on the result | the verdict on the result |

The type of the operation is converted before it is sent, on the way from the first function to the
second once more; that changes nothing (`convert_idem`).  What goes wrong is the first row:
a return code is no verdict, and the last `switch` of `whitelist_check` lets every number that is none
pass.  `tpcm_verdicts_iff` says that this is all.
-/

import TsbAgent.Whitelist.Ioctl

namespace TsbAgent
namespace Whitelist

open Libc

/-- `convert_intercept_type_for_tpcm`. -/
def convertInterceptTypeForTpcm (type : ℤ) : ℤ :=
  if type = 1 ∨ type = 4 then 1
  else if type = 2 then 2
  else if type = 3 then 3
  else 0

/-- A converted type is converted to itself. -/
theorem convert_idem (type : ℤ) :
    convertInterceptTypeForTpcm (convertInterceptTypeForTpcm type) = convertInterceptTypeForTpcm type := by
  unfold convertInterceptTypeForTpcm
  split_ifs <;> omega

/-- The codes on which `digest_check_tpcm` asks again. -/
def Retried (ret : ℤ) : Prop := ret = tpcmErrorTimeout ∨ ret = tpcmErrorNoSpace

instance (ret : ℤ) : Decidable (Retried ret) := inferInstanceAs (Decidable (_ ∨ _))

/-- What a check leaves: the domain, the verdict, and the types it has sent to the TPCM. -/
structure TpcmCall where
  sec : SecDomain
  ret : ℤ
  sent : List ℤ

/-- `digest_check_tpcm_simple`, with the type that it sends. -/
def simpleCall (type : ℤ) (c : CheckInput) (sec : SecDomain) : TpcmCall :=
  let r := digestCheckTpcmSimple c sec
  ⟨r.1, r.2, if c.digestCal = none then [] else [convertInterceptTypeForTpcm type]⟩

/-- The loop at `again`, from the answer `n` on. -/
def measureAgain (type : ℤ) (answers : ℕ → ℤ × UInt32 × Digest) (c : CheckInput) (sec : SecDomain) :
    ℕ → ℕ → Option TpcmCall
  | 0, _ => none
  | fuel + 1, n =>
      if Retried (answers n).1 then
        (measureAgain type answers c sec fuel (n + 1)).map fun r => { r with sent := type :: r.sent }
      else if (answers n).1 = tpcmCmdTooLong then
        let r := simpleCall type c sec
        some { r with sent := type :: r.sent }
      else if (answers n).1 ≠ 0 then some ⟨sec, dcForbid, [type]⟩
      else some ⟨{ sec with subHash := (answers n).2.2 }, tpcmVerdict (answers n).2.1, [type]⟩

/-- `digest_check_tpcm` with the answers of the TPCM, one after the other; `none` when `fuel` of them
do not end it. -/
def measureCall (answers : ℕ → ℤ × UInt32 × Digest) (fuel : ℕ) (type : ℤ) (c : CheckInput)
    (sec : SecDomain) : Option TpcmCall :=
  if c.pagesRead = false then some ⟨sec, dcErrorPass, []⟩
  else measureAgain (convertInterceptTypeForTpcm type) answers c sec fuel 0

section Calls

variable {type : ℤ} {answers : ℕ → ℤ × UInt32 × Digest} {c : CheckInput} {sec : SecDomain} {r : TpcmCall}

theorem simpleCall_sent {t : ℤ} (h : t ∈ (simpleCall type c sec).sent) : t = convertInterceptTypeForTpcm type := by
  unfold simpleCall at h
  dsimp only at h
  split_ifs at h
  · exact absurd h List.not_mem_nil
  · exact List.mem_singleton.mp h

/-- **`digest_check_tpcm` ends on the first answer that is not retried**, with the verdict on that
answer. -/
theorem measureAgain_spec {fuel n : ℕ} (hpages : c.pagesRead = true)
    (h : measureAgain type answers c sec fuel n = some r) :
    ∃ k, n ≤ k ∧ (∀ j, n ≤ j → j < k → Retried (answers j).1) ∧ ¬ Retried (answers k).1 ∧
      (r.sec, r.ret) = digestCheckTpcm { c with tpcmMeasure := answers k } sec := by
  induction fuel generalizing n r with
  | zero => exact absurd h.symm (Option.some_ne_none _)
  | succ fuel ih =>
      rw [measureAgain] at h
      by_cases hretry : Retried (answers n).1
      · rw [if_pos hretry] at h
        obtain ⟨r₁, h₁, rfl⟩ := Option.map_eq_some_iff.mp h
        obtain ⟨k, hnk, hbefore, hlast, heq⟩ := ih h₁
        refine ⟨k, by omega, fun j hj hjk => ?_, hlast, heq⟩
        rcases Nat.eq_or_lt_of_le hj with rfl | hlt
        · exact hretry
        · exact hbefore j hlt hjk
      · rw [if_neg hretry] at h
        refine ⟨n, le_rfl, fun j hj hjn => absurd hjn (not_lt.mpr hj), hretry, ?_⟩
        have hopen : ¬ ({ c with tpcmMeasure := answers n } : CheckInput).pagesRead = false := by
          rw [show ({ c with tpcmMeasure := answers n } : CheckInput).pagesRead = c.pagesRead from rfl, hpages]
          decide
        rw [digestCheckTpcm, if_neg hopen]
        dsimp only
        by_cases hlong : (answers n).1 = tpcmCmdTooLong
        · rw [if_pos hlong] at h ⊢
          obtain rfl := Option.some.inj h
          rfl
        · rw [if_neg hlong] at h ⊢
          by_cases herr : (answers n).1 ≠ 0
          · rw [if_pos herr] at h ⊢
            obtain rfl := Option.some.inj h
            rfl
          · rw [if_neg herr] at h ⊢
            obtain rfl := Option.some.inj h
            rfl

theorem measureAgain_sent {fuel n : ℕ} (hconv : convertInterceptTypeForTpcm type = type)
    (h : measureAgain type answers c sec fuel n = some r) : ∀ t ∈ r.sent, t = type := by
  induction fuel generalizing n r with
  | zero => exact absurd h.symm (Option.some_ne_none _)
  | succ fuel ih =>
      rw [measureAgain] at h
      split_ifs at h
      · obtain ⟨r₁, h₁, rfl⟩ := Option.map_eq_some_iff.mp h
        exact List.forall_mem_cons.mpr ⟨rfl, ih h₁⟩
      · obtain rfl := Option.some.inj h
        refine List.forall_mem_cons.mpr ⟨rfl, fun t ht => ?_⟩
        exact (simpleCall_sent ht).trans hconv
      · obtain rfl := Option.some.inj h
        exact fun t ht => List.mem_singleton.mp ht
      · obtain rfl := Option.some.inj h
        exact fun t ht => List.mem_singleton.mp ht

/-- **Every question to the TPCM has the converted type**, in the fallback too. -/
theorem measureCall_sent {fuel : ℕ} (h : measureCall answers fuel type c sec = some r) :
    ∀ t ∈ r.sent, t = convertInterceptTypeForTpcm type := by
  rw [measureCall] at h
  split_ifs at h
  · obtain rfl := Option.some.inj h
    exact fun t ht => absurd ht List.not_mem_nil
  · exact measureAgain_sent (convert_idem type) h

/-- Where the TPCM gives one answer to every question, `digest_check_tpcm` returns unless the answer is
retried, and then with the verdict of `digest_check_tpcm_simple`. -/
theorem measureCall_alike_iff {d : Digest} (hpages : c.pagesRead = true) (hd : c.digestCal = some d)
    (hanswers : ∀ n, ((answers n).1, (answers n).2.1) = c.tpcmSimple) :
    (∃ fuel r, measureCall answers fuel type c sec = some r ∧ r.ret = (simpleCall type c sec).ret) ↔
      ¬ Retried c.tpcmSimple.1 := by
  have hret : ∀ n, (answers n).1 = c.tpcmSimple.1 := fun n => congrArg Prod.fst (hanswers n)
  have hres : ∀ n, (answers n).2.1 = c.tpcmSimple.2 := fun n => congrArg Prod.snd (hanswers n)
  have hopen : ¬ c.pagesRead = false := by
    rw [hpages]
    decide
  constructor
  · rintro ⟨fuel, r, h, -⟩ hretry
    rw [measureCall, if_neg hopen] at h
    obtain ⟨k, -, -, hlast, -⟩ := measureAgain_spec hpages h
    exact hlast (hret k ▸ hretry)
  · intro hlast
    have hsimple : (simpleCall type c sec).ret =
        if c.tpcmSimple.1 ≠ 0 then dcForbid else tpcmVerdict c.tpcmSimple.2 := by
      rw [simpleCall, digestCheckTpcmSimple, hd]
      exact if_neg hlast
    refine ⟨1, ?_⟩
    rw [measureCall, if_neg hopen, measureAgain, if_neg (hret 0 ▸ hlast), hret 0, hres 0, hsimple]
    by_cases hlong : c.tpcmSimple.1 = tpcmCmdTooLong
    · -- the fallback meets the answer once more, and forbids
      refine ⟨_, if_pos hlong, ?_⟩
      rw [simpleCall, digestCheckTpcmSimple, hd]
      exact if_neg hlast
    · rw [if_neg hlong]
      by_cases herr : c.tpcmSimple.1 ≠ 0
      · rw [if_pos herr, if_pos herr]
        exact ⟨_, rfl, rfl⟩
      · rw [if_neg herr, if_neg herr]
        exact ⟨_, rfl, rfl⟩

end Calls

/-! ### What passes -/

/-- The result says success, or that control is off, or that the license is invalid or expired. -/
def Passing (res : UInt32) : Prop :=
  res = 0 ∨ res &&& 0xffff0000 = 0 ∨ tpcmLicenseError (res &&& 0x0000ffff) = true

/-- `digest_check_tpcm_simple` has a reason to pass: the file cannot be read, or the TPCM answers so. -/
def SimplePasses (c : CheckInput) : Prop :=
  c.digestCal = none ∨ (c.tpcmSimple.1 = 0 ∧ Passing c.tpcmSimple.2)

/-- `digest_check_tpcm_simple` gets a timeout, or a TPCM without space. -/
def SimpleTimedOut (c : CheckInput) : Prop := c.digestCal ≠ none ∧ Retried c.tpcmSimple.1

/-- `digest_check_tpcm` has a reason to pass: its own, or in the fallback that of the other function. -/
def MeasurePasses (c : CheckInput) : Prop :=
  c.pagesRead = false ∨ (c.tpcmMeasure.1 = 0 ∧ Passing c.tpcmMeasure.2.1) ∨
    (c.tpcmMeasure.1 = tpcmCmdTooLong ∧ SimplePasses c)

/-- `digest_check_tpcm` ends in a timeout, which it can in the fallback only. -/
def MeasureTimedOut (c : CheckInput) : Prop :=
  c.pagesRead = true ∧ c.tpcmMeasure.1 = tpcmCmdTooLong ∧ SimpleTimedOut c

/-- There is a reason to pass, where the call asks the TPCM or where the call whose verdict it takes
has asked it. -/
def Allowed (s : SmeasureState) (c : CheckInput) : Prop :=
  if s.feature.measureMode = processMeasureModeTcsCheck then SimplePasses c
  else
    match c.wqueue with
    | .joined ret => ∃ c₁ sec₁, ret = (digestCheckTpcm c₁ sec₁).2 ∧ MeasurePasses c₁
    | _ => MeasurePasses c

/-- The call is decided by a timeout of the TPCM, or by its lack of space: its own, or that of the call
whose verdict it takes. -/
def TimedOut (s : SmeasureState) (c : CheckInput) : Prop :=
  if s.feature.measureMode = processMeasureModeTcsCheck then SimpleTimedOut c
  else
    match c.wqueue with
    | .joined ret => ∃ c₁ sec₁, ret = (digestCheckTpcm c₁ sec₁).2 ∧ MeasureTimedOut c₁
    | _ => MeasureTimedOut c

/-- The call gets to the TPCM: it has its memory and the path, the policy file is valid, the cache
does not know the file, and the mode is one of the two that ask the TPCM.  A verdict that it takes
from the queue is one that `digest_check_tpcm` has returned. -/
structure Measures (b : Boot) (s : SmeasureState) (c : CheckInput) (sec : SecDomain) : Prop where
  kzalloc : c.kzalloc = true
  prepared : prepareSecDomain c = some sec
  valid : s.fileIntegrityValid = true
  missed : lookCache b s c sec = none
  build : b.whiteNotTpcm = false
  mode : s.feature.measureMode = processMeasureModeTcsCheck ∨
    s.feature.measureMode = processMeasureModeTcsMeasure
  queued : ∀ ret, c.wqueue = .joined ret → ∃ c₁ sec₁, ret = (digestCheckTpcm c₁ sec₁).2

section Passes

variable {b : Boot} {s : SmeasureState} {c : CheckInput} {sec : SecDomain}

/-- With control on, the last `switch` returns `0` for every number but `DC_FORBID`. -/
theorem judged_ret_eq_zero (hcontrol : s.feature.controlMode ≠ 0) (sec : SecDomain) (ret : ℤ)
    (effects : List Effect) :
    (judged s.feature c (.verdict sec ret effects)).ret = 0 ↔ ret ≠ dcForbid := by
  rw [judged]
  by_cases hpass : ret = dcPass
  · rw [if_pos hpass]
    exact iff_of_true (auditLog_zero ..) (hpass ▸ by decide)
  rw [if_neg hpass]
  by_cases hforbid : ret = dcForbid
  · rw [if_pos hforbid]
    refine iff_of_false ?_ (not_not.mpr hforbid)
    rw [auditLog]
    simp [hcontrol, eacces]
  rw [if_neg hforbid]
  by_cases haudit : ret = dcEauditPass
  · rw [if_pos haudit]
    refine iff_of_true ?_ hforbid
    rw [auditLog]
    simp
  · rw [if_neg haudit]
    exact iff_of_true rfl hforbid

theorem joinedOutcome_ret_eq_zero (ret : ℤ) : (joinedOutcome ret).ret = 0 ↔ ret ≠ dcForbid := by
  rw [joinedOutcome]
  by_cases hpass : ret = dcPass
  · rw [if_pos hpass]
    exact iff_of_true rfl (hpass ▸ by decide)
  rw [if_neg hpass]
  by_cases hforbid : ret = dcForbid
  · rw [if_pos hforbid]
    exact iff_of_false (by simp [eacces]) (not_not.mpr hforbid)
  · rw [if_neg hforbid]
    exact iff_of_true rfl hforbid

theorem tpcmVerdict_ne_forbid (res : UInt32) : tpcmVerdict res ≠ dcForbid ↔ Passing res := by
  unfold tpcmVerdict Passing
  split_ifs with h₁ h₂ h₃
  · exact iff_of_true (by decide) (Or.inl h₁)
  · exact iff_of_true (by decide) (Or.inr (Or.inl h₂))
  · exact iff_of_true (by decide) (Or.inr (Or.inr h₃))
  · refine iff_of_false (fun h => h rfl) ?_
    rintro (h | h | h)
    · exact h₁ h
    · exact h₂ h
    · exact h₃ h

/-- What `digest_check_tpcm_simple` does not forbid: what it has a reason to pass, and timeouts. -/
theorem simple_ne_forbid (c : CheckInput) (sec : SecDomain) :
    (digestCheckTpcmSimple c sec).2 ≠ dcForbid ↔ SimplePasses c ∨ SimpleTimedOut c := by
  rw [digestCheckTpcmSimple, SimplePasses, SimpleTimedOut]
  cases hd : c.digestCal with
  | none => exact iff_of_true (by simp [dcErrorPass, dcForbid]) (Or.inl (Or.inl rfl))
  | some d =>
      change (if Retried c.tpcmSimple.1 then c.tpcmSimple.1
        else if c.tpcmSimple.1 ≠ 0 then dcForbid else tpcmVerdict c.tpcmSimple.2) ≠ dcForbid ↔ _
      by_cases hretry : Retried c.tpcmSimple.1
      · rw [if_pos hretry]
        refine iff_of_true ?_ (Or.inr ⟨Option.some_ne_none d, hretry⟩)
        rcases hretry with h | h <;> rw [h] <;> decide
      · rw [if_neg hretry]
        by_cases herr : c.tpcmSimple.1 ≠ 0
        · rw [if_pos herr]
          refine iff_of_false (fun h => h rfl) ?_
          rintro ((h | h) | h)
          · exact absurd h (Option.some_ne_none d)
          · exact herr h.1
          · exact hretry h.2
        · rw [if_neg herr, tpcmVerdict_ne_forbid]
          constructor
          · exact fun h => Or.inl (Or.inr ⟨not_not.mp herr, h⟩)
          · rintro ((h | h) | h)
            · exact absurd h (Option.some_ne_none d)
            · exact h.2
            · exact absurd h.2 hretry

theorem tpcm_ne_forbid (c : CheckInput) (sec : SecDomain) :
    (digestCheckTpcm c sec).2 ≠ dcForbid ↔ MeasurePasses c ∨ MeasureTimedOut c := by
  rw [digestCheckTpcm, MeasurePasses, MeasureTimedOut]
  by_cases hpages : c.pagesRead = false
  · rw [if_pos hpages]
    exact iff_of_true (by simp [dcErrorPass, dcForbid]) (Or.inl (Or.inl hpages))
  have hread : c.pagesRead = true := Bool.eq_true_of_not_eq_false hpages
  rw [if_neg hpages]
  by_cases hlong : c.tpcmMeasure.1 = tpcmCmdTooLong
  · rw [if_pos hlong, simple_ne_forbid]
    constructor
    · rintro (h | h)
      · exact Or.inl (Or.inr (Or.inr ⟨hlong, h⟩))
      · exact Or.inr ⟨hread, hlong, h⟩
    · rintro ((h | h | h) | h)
      · exact absurd h hpages
      · exact absurd (hlong.symm.trans h.1) (by decide)
      · exact Or.inl h.2
      · exact Or.inr h.2.2
  rw [if_neg hlong]
  by_cases herr : c.tpcmMeasure.1 ≠ 0
  · rw [if_pos herr]
    refine iff_of_false (fun h => h rfl) ?_
    rintro ((h | h | h) | h)
    · exact hpages h
    · exact herr h.1
    · exact hlong h.1
    · exact hlong h.2.1
  · rw [if_neg herr, tpcmVerdict_ne_forbid]
    constructor
    · exact fun h => Or.inl (Or.inr (Or.inl ⟨not_not.mp herr, h⟩))
    · rintro ((h | h | h) | h)
      · exact absurd h hpages
      · exact h.2
      · exact absurd h.1 hlong
      · exact absurd h.2.1 hlong

/-- **What passes under control:** what there is a reason to pass, and timeouts. -/
theorem whitelistCheck_ret_iff (h : Measures b s c sec) (hcontrol : s.feature.controlMode ≠ 0) :
    (whitelistCheck b s c).2.ret = 0 ↔ Allowed s c ∨ TimedOut s c := by
  have htable : ¬ FromTable b s.feature := by
    rintro (hb | hm | hm)
    · exact absurd (h.build.symm.trans hb) Bool.false_ne_true
    · rcases h.mode with hmode | hmode <;> exact absurd (hmode.symm.trans hm) (by decide)
    · rcases h.mode with hmode | hmode <;> exact absurd (hmode.symm.trans hm) (by decide)
  have hout : (whitelistCheck b s c).2 = judged s.feature c (measure b s c sec) := by
    rw [whitelistCheck_outcome, outcomeWith, h.kzalloc, h.prepared, h.valid]
    simp only [Bool.true_eq_false, if_false, h.missed]
  rw [hout, measure, if_neg htable, Allowed, TimedOut]
  by_cases hmode : s.feature.measureMode = processMeasureModeTcsCheck
  · simp only [if_pos hmode]
    rw [judged_ret_eq_zero hcontrol, simple_ne_forbid]
  · have hmeasure := h.mode.resolve_left hmode
    simp only [if_neg hmode, if_pos hmeasure]
    cases hqueue : c.wqueue with
    | joined ret =>
        obtain ⟨c₁, sec₁, hret⟩ := h.queued ret hqueue
        dsimp only [judged]
        rw [joinedOutcome_ret_eq_zero, hret, tpcm_ne_forbid]
        constructor
        · rintro (hpass | htime)
          · exact Or.inl ⟨c₁, sec₁, rfl, hpass⟩
          · exact Or.inr ⟨c₁, sec₁, rfl, htime⟩
        · rintro (⟨c₂, sec₂, heq, hpass⟩ | ⟨c₂, sec₂, heq, htime⟩)
          · exact (tpcm_ne_forbid c₁ sec₁).mp (heq ▸ (tpcm_ne_forbid c₂ sec₂).mpr (Or.inl hpass))
          · exact (tpcm_ne_forbid c₁ sec₁).mp (heq ▸ (tpcm_ne_forbid c₂ sec₂).mpr (Or.inr htime))
    | own =>
        dsimp only
        rw [judged_ret_eq_zero hcontrol, tpcm_ne_forbid]
    | none =>
        dsimp only
        rw [judged_ret_eq_zero hcontrol, tpcm_ne_forbid]

/-- A reason to pass is not a timeout. -/
theorem SimplePasses.not_timedOut (h : SimplePasses c) : ¬ SimpleTimedOut c := by
  rintro ⟨hd, hretry⟩
  rcases h with h | ⟨h, -⟩
  · exact hd h
  · rw [h] at hretry
    exact absurd hretry (by decide)

theorem MeasurePasses.not_timedOut (h : MeasurePasses c) : ¬ MeasureTimedOut c := by
  rintro ⟨hread, hlong, htime⟩
  rcases h with h | h | h
  · exact absurd (hread.symm.trans h) (by decide)
  · exact absurd (hlong.symm.trans h.1) (by decide)
  · exact h.2.not_timedOut htime

/-- The verdict that comes of a timeout is the code of the timeout. -/
theorem MeasureTimedOut.retried (h : MeasureTimedOut c) (sec : SecDomain) :
    Retried (digestCheckTpcm c sec).2 := by
  obtain ⟨hread, hlong, hd, hretry⟩ := h
  rw [digestCheckTpcm, if_neg (by rw [hread]; decide), if_pos hlong, digestCheckTpcmSimple]
  cases hcal : c.digestCal with
  | none => exact absurd hcal hd
  | some d =>
      change Retried (if Retried c.tpcmSimple.1 then c.tpcmSimple.1 else _)
      rw [if_pos hretry]
      exact hretry

theorem tpcmVerdict_not_retried (res : UInt32) : ¬ Retried (tpcmVerdict res) := by
  unfold tpcmVerdict
  split_ifs <;> decide

/-- The verdict that comes of a reason to pass is no code of a timeout. -/
theorem MeasurePasses.not_retried (h : MeasurePasses c) (sec : SecDomain) :
    ¬ Retried (digestCheckTpcm c sec).2 := by
  rw [digestCheckTpcm]
  by_cases hpages : c.pagesRead = false
  · rw [if_pos hpages]
    show ¬ Retried dcErrorPass
    decide
  rw [if_neg hpages]
  rcases h with h | ⟨hzero, -⟩ | ⟨hlong, hsimple⟩
  · exact absurd h hpages
  · rw [hzero, if_neg (by decide), if_neg (by decide)]
    exact tpcmVerdict_not_retried _
  · rw [if_pos hlong, digestCheckTpcmSimple]
    cases hcal : c.digestCal with
    | none =>
        show ¬ Retried dcErrorPass
        decide
    | some d =>
        have hzero := (hsimple.resolve_left (by rw [hcal]; exact Option.some_ne_none d)).1
        dsimp only
        rw [hzero, if_neg (by decide), if_neg (by decide)]
        exact tpcmVerdict_not_retried _

theorem Allowed.not_timedOut (h : Allowed s c) : ¬ TimedOut s c := by
  unfold Allowed at h
  unfold TimedOut
  by_cases hmode : s.feature.measureMode = processMeasureModeTcsCheck
  · rw [if_pos hmode] at h ⊢
    exact h.not_timedOut
  · rw [if_neg hmode] at h ⊢
    cases hqueue : c.wqueue with
    | joined ret =>
        rw [hqueue] at h
        obtain ⟨c₁, sec₁, rfl, hpass⟩ := h
        rintro ⟨c₂, sec₂, heq, htime⟩
        exact hpass.not_retried sec₁ (heq ▸ htime.retried sec₂)
    | own =>
        rw [hqueue] at h
        exact MeasurePasses.not_timedOut h
    | none =>
        rw [hqueue] at h
        exact MeasurePasses.not_timedOut h

end Passes

/-- **The type, the verdict and the return value**, for every file, type and answers of the TPCM.  Every
question has the converted type.  On one answer the two functions agree unless it is a timeout or a lack
of space.  And under control a file that is measured passes for a reason unless the call is decided by one
of these two. -/
theorem tpcm_verdicts_iff (b : Boot) (s : SmeasureState) (c : CheckInput) (sec : SecDomain) (type : ℤ)
    (answers : ℕ → ℤ × UInt32 × Digest) :
    ((∀ fuel r, measureCall answers fuel type c sec = some r →
          ∀ t ∈ r.sent, t = convertInterceptTypeForTpcm type) ∧
        ∀ t ∈ (simpleCall type c sec).sent, t = convertInterceptTypeForTpcm type) ∧
      (c.pagesRead = true → c.digestCal ≠ none →
        (∀ n, ((answers n).1, (answers n).2.1) = c.tpcmSimple) →
          ((∃ fuel r, measureCall answers fuel type c sec = some r ∧ r.ret = (simpleCall type c sec).ret) ↔
            ¬ Retried c.tpcmSimple.1)) ∧
      (Measures b s c sec → s.feature.controlMode ≠ 0 →
        (((whitelistCheck b s c).2.ret = 0 → Allowed s c) ↔ ¬ TimedOut s c)) := by
  refine ⟨⟨fun fuel r hr => measureCall_sent hr, fun t ht => simpleCall_sent ht⟩, ?_, ?_⟩
  · intro hpages hd hanswers
    obtain ⟨d, hd⟩ := Option.ne_none_iff_exists'.mp hd
    exact measureCall_alike_iff hpages hd hanswers
  · intro hm hcontrol
    rw [whitelistCheck_ret_iff hm hcontrol]
    constructor
    · intro hallowed htime
      exact (hallowed (Or.inr htime)).not_timedOut htime
    · intro hno hor
      exact hor.resolve_right hno

/-- The TCS check mode, under control, with a constant hash. -/
def tcsCheckState : SmeasureState :=
  { smeasureInit with feature := ⟨1, 1, processMeasureModeTcsCheck, 0, 0⟩ }

/-- A program that is read, and the answer of the TPCM about its digest. -/
def answeredProgram (ret : ℤ) : CheckInput :=
  { programInput CStr.empty (some Digest.zero) with tpcmSimple := (ret, 0) }

def answeredDomain : SecDomain := ⟨secName CStr.empty, objString CStr.empty CStr.empty, Digest.zero⟩

theorem answeredProgram_measures (ret : ℤ) :
    Measures ⟨fun _ _ => 0, 0, 0, false⟩ tcsCheckState (answeredProgram ret) answeredDomain where
  kzalloc := rfl
  prepared := rfl
  valid := rfl
  missed := rfl
  build := rfl
  mode := Or.inl rfl
  queued := fun _ h => WqueueAnswer.noConfusion h

/-- The TPCM answers success: the two functions agree, and the program passes for that reason. -/
theorem tpcm_verdicts_success :
    (∃ fuel r, measureCall (fun _ => (0, 0, Digest.zero)) fuel 4 (answeredProgram 0) answeredDomain = some r ∧
        r.ret = (simpleCall 4 (answeredProgram 0) answeredDomain).ret) ∧
      ((whitelistCheck ⟨fun _ _ => 0, 0, 0, false⟩ tcsCheckState (answeredProgram 0)).2.ret = 0 →
        Allowed tcsCheckState (answeredProgram 0)) := by
  have hspec := tpcm_verdicts_iff ⟨fun _ _ => 0, 0, 0, false⟩ tcsCheckState (answeredProgram 0)
    answeredDomain 4 fun _ => (0, 0, Digest.zero)
  have hallowed : Allowed tcsCheckState (answeredProgram 0) := Or.inr ⟨rfl, Or.inl rfl⟩
  constructor
  · exact (hspec.2.1 rfl (Option.some_ne_none _) fun _ => rfl).mpr (show ¬ Retried 0 by decide)
  · exact (hspec.2.2 (answeredProgram_measures 0) (by decide)).mpr hallowed.not_timedOut

/-- **A timeout passes.**  Under control the TPCM times out on the digest of a program, and
`whitelist_check` returns `0`. -/
theorem tpcm_timeout_passes :
    (whitelistCheck ⟨fun _ _ => 0, 0, 0, false⟩ tcsCheckState (answeredProgram tpcmErrorTimeout)).2.ret = 0 ∧
      ¬ ∀ b s c sec, Measures b s c sec → s.feature.controlMode ≠ 0 →
        (whitelistCheck b s c).2.ret = 0 → Allowed s c := by
  have htime : TimedOut tcsCheckState (answeredProgram tpcmErrorTimeout) :=
    ⟨Option.some_ne_none _, Or.inl rfl⟩
  have hm := answeredProgram_measures tpcmErrorTimeout
  have hcontrol : tcsCheckState.feature.controlMode ≠ 0 := by decide
  have hret := (whitelistCheck_ret_iff hm hcontrol).mpr (Or.inr htime)
  refine ⟨hret, fun h => ?_⟩
  exact (h _ _ _ _ hm hcontrol hret).not_timedOut htime

end Whitelist
end TsbAgent
