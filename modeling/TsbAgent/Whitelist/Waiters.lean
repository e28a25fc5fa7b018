/-
# Waiting for the verdict of another call

In the TCS measure mode `whitelist_check` goes through the measurement queue
(`TsbAgent.Measure.Wqueue`): the first call for a file measures it, the calls that
come meanwhile wait and take its verdict.  The two ways turn the verdict into a
return value in two different places of the function:

| verdict | measuring call (end of the function) | waiting call (`goto out`) |
| --- | --- | --- |
| `DC_PASS`, `DC_ERROR_PASS` | 0 | 0 |
| `DC_FORBID` | `-EACCES`, 0 with `control_mode` off | `-EACCES` |
| `DC_EAUDIT_PASS` | 0 | 0 |

The waiting calls jump over the block at `audit_log`, where `control_mode` is
looked at.  `waiters_decide_alike_iff` says when this makes no difference.

A `Call` carries the engine as the call finds it: its configuration, and the cache
at the time of its lookup.  `Sharing` runs any number of calls through the queue
and notes what each of those that share a node returns.
-/

import TsbAgent.Measure.Wqueue
import TsbAgent.Whitelist.Ioctl

namespace TsbAgent
namespace Whitelist

open Libc

/-- A call of `whitelist_check`. -/
structure Call where
  engine : SmeasureState
  input : CheckInput

/-- The call comes to `smeasure_wqueue_handle`; the value is its `sec_d`. -/
def Call.queues (b : Boot) (c : Call) : Option SecDomain :=
  match prepareSecDomain c.input with
  | none => none
  | some sec =>
      if c.input.kzalloc = true ∧ c.engine.fileIntegrityValid = true ∧
          lookCache b c.engine c.input sec = none ∧ ¬ FromTable b c.engine.feature ∧
          c.engine.feature.measureMode = processMeasureModeTcsMeasure then some sec
      else none

/-- The input of a call, with the answer of the queue. -/
def CheckInput.answered (c : CheckInput) (w : WqueueAnswer) : CheckInput := { c with wqueue := w }

/-- What the call returns, given the answer of the queue. -/
def Call.ret (b : Boot) (c : Call) (w : WqueueAnswer) : ℤ :=
  (whitelistCheck b c.engine (c.input.answered w)).2.ret

/-- The verdict of a call that measures. -/
def Call.verdict (c : Call) (sec : SecDomain) : ℤ := (digestCheckTpcm c.input sec).2

/-- The verdict of a call that comes to the queue. -/
def Call.own (b : Boot) (c : Call) : ℤ := (c.queues b).elim 0 c.verdict

/-- `queue->result = ret`: an `int` in an `unsigned int`. -/
def toResult (ret : ℤ) : UInt32 := ⟨BitVec.ofInt 32 ret⟩

/-- `*ret = queue->result`. -/
def ofResult (result : UInt32) : ℤ := result.toBitVec.toInt

/-- What a call that shares a node returns. -/
structure Return where
  pid : ℕ
  queue : ℕ
  waited : Bool
  ret : ℤ

/-- The queue, and what the calls whose verdict is settled return. -/
structure Sharing where
  wq : Wqueue.State
  returns : List Return

/-- `smeasure_wqueue_init`. -/
def Sharing.init : Sharing := ⟨Wqueue.State.init, []⟩

/-- The lock sections of the calls. -/
inductive CallAct
  | handle (pid : ℕ) (kzalloc : Bool)
  | pop (pid : ℕ)
  | publish (pid : ℕ)
  | wake (pid : ℕ)
  | clean (pid : ℕ)

section Steps

variable (b : Boot) (rb : SearchTree.RbTree (ℕ × CStr)) (calls : ℕ → Call)

/-- One lock section of one call. -/
def Sharing.step (q : Sharing) : CallAct → Option Sharing
  | .handle pid kzalloc =>
      ((calls pid).queues b).bind fun sec =>
        (Wqueue.step rb q.wq (.handle pid sec.objName kzalloc)).map fun wq => { q with wq := wq }
  | .pop pid =>
      ((calls pid).queues b).bind fun sec =>
        (Wqueue.step rb q.wq (.pop pid (toResult ((calls pid).verdict sec)))).map fun wq =>
          { q with wq := wq }
  | .publish pid =>
      match q.wq.procs pid with
      | .popped _ id _ =>
          (Wqueue.step rb q.wq (.publish pid)).map fun wq =>
            ⟨wq, ⟨pid, id, false, (calls pid).ret b .own⟩ :: q.returns⟩
      | _ => none
  | .wake pid => (Wqueue.step rb q.wq (.wake pid)).map fun wq => { q with wq := wq }
  | .clean pid =>
      match q.wq.procs pid with
      | .waiting _ id =>
          (q.wq.heap id).bind fun node =>
            (Wqueue.step rb q.wq (.clean pid)).map fun wq =>
              ⟨wq, ⟨pid, id, true, (calls pid).ret b (.joined (ofResult node.result))⟩ :: q.returns⟩
      | _ => none

end Steps

/-- The measuring call `c` and the calls that wait for it return the same: in every
run, with any other calls about. -/
def DecideAlike (b : Boot) (c : Call) : Prop :=
  ∀ rb calls acts q, Run.run (Sharing.step b rb calls) Sharing.init acts = some q →
    ∀ m ∈ q.returns, ∀ w ∈ q.returns, m.waited = false → w.waited = true → m.queue = w.queue →
      calls m.pid = c → w.ret = m.ret

/-! ### What the two ways return -/

/-- The result of the TPCM stands for a forbidden program. -/
def tpcmRefuses (res : UInt32) : Prop :=
  res ≠ 0 ∧ res &&& 0xffff0000 ≠ 0 ∧ tpcmLicenseError (res &&& 0x0000ffff) = false

/-- The plain check of the TPCM forbids the digest. -/
def TpcmSimpleForbids (c : CheckInput) : Prop :=
  c.digestCal.isSome = true ∧
    ((c.tpcmSimple.1 = 0 ∧ tpcmRefuses c.tpcmSimple.2) ∨
      (c.tpcmSimple.1 ≠ 0 ∧ c.tpcmSimple.1 ≠ tpcmErrorTimeout ∧ c.tpcmSimple.1 ≠ tpcmErrorNoSpace))

/-- The TPCM forbids the file: by its measurement, or by the plain check when the
measure command is too long. -/
def TpcmForbids (c : CheckInput) : Prop :=
  c.pagesRead = true ∧
    ((c.tpcmMeasure.1 = 0 ∧ tpcmRefuses c.tpcmMeasure.2.1) ∨
      (c.tpcmMeasure.1 ≠ 0 ∧ c.tpcmMeasure.1 ≠ tpcmCmdTooLong) ∨
      (c.tpcmMeasure.1 = tpcmCmdTooLong ∧ TpcmSimpleForbids c))

theorem tpcmVerdict_eq_forbid {res : UInt32} : tpcmVerdict res = dcForbid ↔ tpcmRefuses res := by
  unfold tpcmVerdict tpcmRefuses
  split_ifs with h₀ h₁ h₂
  · simp [h₀, dcPass, dcForbid]
  · simp [h₁, dcEauditPass, dcForbid]
  · simp [h₂, dcEauditPass, dcForbid]
  · simp [h₀, h₁, h₂]

theorem digestCheckTpcmSimple_eq_forbid {c : CheckInput} {sec : SecDomain} :
    (digestCheckTpcmSimple c sec).2 = dcForbid ↔ TpcmSimpleForbids c := by
  unfold digestCheckTpcmSimple TpcmSimpleForbids
  cases c.digestCal with
  | none => simp [dcErrorPass, dcForbid]
  | some d =>
      simp only [Option.isSome_some, true_and]
      split_ifs with h₁ h₂
      · rcases h₁ with h₁ | h₁ <;> rw [h₁] <;> simp [tpcmErrorTimeout, tpcmErrorNoSpace, dcForbid]
      · push Not at h₁
        simp [h₁, h₂]
      · push Not at h₂
        rw [tpcmVerdict_eq_forbid]
        simp [h₂]

/-- **A measuring call forbids exactly what the TPCM forbids.** -/
theorem digestCheckTpcm_eq_forbid {c : CheckInput} {sec : SecDomain} :
    (digestCheckTpcm c sec).2 = dcForbid ↔ TpcmForbids c := by
  have hlong : tpcmCmdTooLong ≠ 0 := by decide
  unfold digestCheckTpcm TpcmForbids
  cases c.pagesRead with
  | false => simp [dcErrorPass, dcForbid]
  | true =>
      simp only [Bool.true_eq_false, if_false, true_and]
      split_ifs with h₁ h₂
      · rw [digestCheckTpcmSimple_eq_forbid]
        simp [h₁, hlong]
      · simp [h₁, h₂]
      · push Not at h₂
        rw [tpcmVerdict_eq_forbid]
        simp [h₂, hlong.symm]

theorem tpcmVerdict_range (res : UInt32) : 0 ≤ tpcmVerdict res ∧ tpcmVerdict res ≤ 512 := by
  unfold tpcmVerdict dcPass dcEauditPass dcForbid
  split_ifs <;> omega

theorem digestCheckTpcmSimple_range (c : CheckInput) (sec : SecDomain) :
    0 ≤ (digestCheckTpcmSimple c sec).2 ∧ (digestCheckTpcmSimple c sec).2 ≤ 512 := by
  unfold digestCheckTpcmSimple dcErrorPass dcForbid
  cases c.digestCal with
  | none => simp
  | some d =>
      simp only
      split_ifs with h₁
      · rcases h₁ with h₁ | h₁ <;> rw [h₁] <;> simp [tpcmErrorTimeout, tpcmErrorNoSpace]
      · simp
      · exact tpcmVerdict_range _

theorem digestCheckTpcm_range (c : CheckInput) (sec : SecDomain) :
    0 ≤ (digestCheckTpcm c sec).2 ∧ (digestCheckTpcm c sec).2 ≤ 512 := by
  unfold digestCheckTpcm dcErrorPass dcForbid
  split_ifs
  · simp
  · exact digestCheckTpcmSimple_range c sec
  · simp
  · exact tpcmVerdict_range _

/-- A verdict survives the way through `queue->result`. -/
theorem ofResult_verdict (c : Call) (sec : SecDomain) :
    ofResult (toResult (c.verdict sec)) = c.verdict sec := by
  obtain ⟨hge, hle⟩ : 0 ≤ c.verdict sec ∧ c.verdict sec ≤ 512 := digestCheckTpcm_range c.input sec
  have hround : ofResult (toResult (c.verdict sec)) = (c.verdict sec).bmod (2 ^ 32) :=
    BitVec.toInt_ofInt _
  rw [hround, Int.bmod_eq_of_le] <;> omega

section Returns

variable {b : Boot} {c : Call} {sec : SecDomain}

/-- A call that comes to the queue. -/
theorem Call.queues_eq_some (h : c.queues b = some sec) :
    prepareSecDomain c.input = some sec ∧ c.input.kzalloc = true ∧
      c.engine.fileIntegrityValid = true ∧ lookCache b c.engine c.input sec = none ∧
      ¬ FromTable b c.engine.feature ∧
      c.engine.feature.measureMode = processMeasureModeTcsMeasure := by
  unfold Call.queues at h
  cases hp : prepareSecDomain c.input with
  | none =>
      rw [hp] at h
      cases h
  | some sec' =>
      rw [hp] at h
      simp only at h
      split_ifs at h with hc
      obtain rfl := Option.some.inj h
      exact ⟨rfl, hc⟩

/-- Behind the queue a call returns what the switch on the verdict makes of it. -/
theorem Call.ret_eq (h : c.queues b = some sec) (w : WqueueAnswer) :
    c.ret b w = (judged c.engine.feature (c.input.answered w)
      (measure b c.engine (c.input.answered w) sec)).ret := by
  obtain ⟨hp, hk, hv, hl, -, -⟩ := Call.queues_eq_some h
  have hk' : (c.input.answered w).kzalloc = true := hk
  have hp' : prepareSecDomain (c.input.answered w) = some sec := hp
  have hl' : lookCache b c.engine (c.input.answered w) sec = none := hl
  rw [Call.ret, whitelistCheck_outcome, outcomeWith, hp']
  simp only [hk', hv, hl', Bool.true_eq_false, if_false]

/-- A measuring call looks at `control_mode`. -/
theorem Call.ret_own (h : c.queues b = some sec) : c.ret b .own =
    if c.verdict sec = dcForbid ∧ c.engine.feature.controlMode ≠ 0 then -eacces else 0 := by
  obtain ⟨-, -, -, -, hf, hm⟩ := Call.queues_eq_some h
  have hmode : ¬ c.engine.feature.measureMode = processMeasureModeTcsCheck := by
    rw [hm]
    decide
  have hmeasure : measure b c.engine (c.input.answered .own) sec =
      .verdict (digestCheckTpcm c.input sec).1 (c.verdict sec) [.wakeUp (c.verdict sec)] := by
    rw [measure, if_neg hf, if_neg hmode, if_pos hm]
    rfl
  rw [Call.ret_eq h, hmeasure, judged]
  by_cases hc : c.engine.feature.controlMode = 0
  · split_ifs <;> simp_all [auditLog]
  · split_ifs <;> simp_all [auditLog, dcPass, dcForbid, dcEauditPass]

/-- A waiting call does not. -/
theorem Call.ret_joined (h : c.queues b = some sec) (ret : ℤ) :
    c.ret b (.joined ret) = if ret = dcForbid then -eacces else 0 := by
  obtain ⟨-, -, -, -, hf, hm⟩ := Call.queues_eq_some h
  have hmode : ¬ c.engine.feature.measureMode = processMeasureModeTcsCheck := by
    rw [hm]
    decide
  have hmeasure : measure b c.engine (c.input.answered (.joined ret)) sec =
      .out (joinedOutcome ret) := by
    rw [measure, if_neg hf, if_neg hmode, if_pos hm]
    rfl
  rw [Call.ret_eq h, hmeasure, judged, joinedOutcome]
  split_ifs with h₁ h₂
  · exact absurd (h₁.symm.trans h₂) (by decide)
  · rfl
  · rfl
  · rfl

end Returns

/-! ### Who shares a verdict with whom -/

/-- The node a call is measuring for and has not published yet. -/
def unpublished : Wqueue.Proc → Option ℕ
  | .measuring _ queue => queue
  | .popped _ queue _ => some queue
  | _ => none

/-- The invariant: a node is published by one call only, with that call's own
verdict, and what the waiting calls return is made of it. -/
structure Sharing.Inv (b : Boot) (calls : ℕ → Call) (q : Sharing) : Prop where
  queued : ∀ pid, q.wq.procs pid ≠ .idle → ((calls pid).queues b).isSome = true
  fresh : ∀ pid id, unpublished (q.wq.procs pid) = some id → id < q.wq.next ∧
    ∀ m ∈ q.returns, m.waited = false → m.queue ≠ id
  owner : ∀ pid pid' id, unpublished (q.wq.procs pid) = some id →
    unpublished (q.wq.procs pid') = some id → pid = pid'
  popped : ∀ pid path id ret, q.wq.procs pid = .popped path id ret →
    ret = toResult ((calls pid).own b)
  measured : ∀ m ∈ q.returns, m.waited = false → m.queue < q.wq.next ∧
    ((calls m.pid).queues b).isSome = true ∧ m.ret = (calls m.pid).ret b .own
  once : ∀ m ∈ q.returns, ∀ m' ∈ q.returns, m.waited = false → m'.waited = false →
    m.queue = m'.queue → m = m'
  heap : ∀ id node, q.wq.heap id = some node → id < q.wq.next ∧ (node.condition = true →
    ∃ m ∈ q.returns, m.waited = false ∧ m.queue = id ∧ node.result = toResult ((calls m.pid).own b))
  joined : ∀ w ∈ q.returns, w.waited = true → ((calls w.pid).queues b).isSome = true ∧
    ∃ m ∈ q.returns, m.waited = false ∧ m.queue = w.queue ∧
      w.ret = (calls w.pid).ret b (.joined ((calls m.pid).own b))

section Invariant

variable {b : Boot} {rb : SearchTree.RbTree (ℕ × CStr)} {calls : ℕ → Call} {q : Sharing}
  {wq : Wqueue.State} {pid id : ℕ}

theorem Sharing.inv_init : Sharing.Inv b calls Sharing.init where
  queued := fun pid h => absurd rfl h
  fresh := fun pid id h => by simp [Sharing.init, Wqueue.State.init, unpublished] at h
  owner := fun pid pid' id h => by simp [Sharing.init, Wqueue.State.init, unpublished] at h
  popped := fun pid path id ret h => by simp [Sharing.init, Wqueue.State.init] at h
  measured := fun m hm => absurd hm List.not_mem_nil
  once := fun m hm => absurd hm List.not_mem_nil
  heap := fun id node h => by simp [Sharing.init, Wqueue.State.init] at h
  joined := fun w hw => absurd hw List.not_mem_nil

theorem own_verdict {c : Call} (h : (c.queues b).isSome = true) :
    ∃ sec, c.queues b = some sec ∧ c.own b = c.verdict sec := by
  obtain ⟨sec, hsec⟩ := Option.isSome_iff_exists.mp h
  exact ⟨sec, hsec, by rw [Call.own, hsec]; rfl⟩

/-- A step of one call that settles no verdict. -/
theorem Sharing.Inv.move (h : Sharing.Inv b calls q) {pr : Wqueue.Proc}
    (hprocs : wq.procs = Function.update q.wq.procs pid pr) (hnext : q.wq.next ≤ wq.next)
    (hqueued : ((calls pid).queues b).isSome = true)
    (hunp : ∀ id, unpublished pr = some id → unpublished (q.wq.procs pid) = some id ∨
      (id = q.wq.next ∧ id < wq.next))
    (hpop : ∀ path id ret, pr = .popped path id ret → ret = toResult ((calls pid).own b))
    (hheap : ∀ id node, wq.heap id = some node → id < wq.next ∧ (node.condition = true →
      ∃ node₀, q.wq.heap id = some node₀ ∧ node₀.condition = true ∧ node.result = node₀.result)) :
    Sharing.Inv b calls { q with wq := wq } := by
  have hself : wq.procs pid = pr := by rw [hprocs, Function.update_self]
  have hother : ∀ {pid'}, pid' ≠ pid → wq.procs pid' = q.wq.procs pid' := by
    intro pid' hne
    rw [hprocs, Function.update_of_ne hne]
  -- an unpublished node is one from before, or the new one
  have hold : ∀ pid' id, unpublished (wq.procs pid') = some id →
      unpublished (q.wq.procs pid') = some id ∨ (pid' = pid ∧ id = q.wq.next ∧ id < wq.next) := by
    intro pid' id hu
    rcases eq_or_ne pid' pid with rfl | hne
    · rw [hself] at hu
      exact (hunp id hu).imp_right fun hid => ⟨rfl, hid⟩
    · rw [hother hne] at hu
      exact Or.inl hu
  refine ⟨fun pid' hp => ?_, fun pid' id hu => ?_, fun pid₁ pid₂ id h₁ h₂ => ?_,
    fun pid' path id ret hp => ?_, fun m hm hw => ?_, h.once, fun id node hn => ?_, h.joined⟩
  · rcases eq_or_ne pid' pid with rfl | hne
    · exact hqueued
    · exact h.queued pid' (hother hne ▸ hp)
  · rcases hold pid' id hu with hu | ⟨-, rfl, hlt⟩
    · obtain ⟨hlt, hno⟩ := h.fresh pid' id hu
      exact ⟨lt_of_lt_of_le hlt hnext, hno⟩
    · exact ⟨hlt, fun m hm hw => (h.measured m hm hw).1.ne⟩
  · rcases hold pid₁ id h₁ with h₁ | ⟨hp₁, hid₁, -⟩ <;> rcases hold pid₂ id h₂ with h₂ | ⟨hp₂, hid₂, -⟩
    · exact h.owner pid₁ pid₂ id h₁ h₂
    · exact absurd hid₂ (h.fresh pid₁ id h₁).1.ne
    · exact absurd hid₁ (h.fresh pid₂ id h₂).1.ne
    · exact hp₁.trans hp₂.symm
  · rcases eq_or_ne pid' pid with rfl | hne
    · exact hpop path id ret (hself.symm.trans hp)
    · exact h.popped pid' path id ret (hother hne ▸ hp)
  · obtain ⟨hlt, hrest⟩ := h.measured m hm hw
    exact ⟨lt_of_lt_of_le hlt hnext, hrest⟩
  · obtain ⟨hlt, hcond⟩ := hheap id node hn
    refine ⟨hlt, fun hc => ?_⟩
    obtain ⟨node₀, hn₀, hc₀, hr⟩ := hcond hc
    rw [hr]
    exact (h.heap id node₀ hn₀).2 hc₀

/-- A waiting call takes the verdict of its node. -/
theorem Sharing.Inv.wait (h : Sharing.Inv b calls q) {ret : ℤ}
    (hqueued : ((calls pid).queues b).isSome = true) (hm : ∃ m ∈ q.returns, m.waited = false ∧ m.queue = id ∧
      ret = (calls pid).ret b (.joined ((calls m.pid).own b))) :
    Sharing.Inv b calls { q with returns := ⟨pid, id, true, ret⟩ :: q.returns } := by
  have hback : ∀ m ∈ Return.mk pid id true ret :: q.returns, m.waited = false → m ∈ q.returns := by
    intro m hm hw
    rcases List.mem_cons.mp hm with rfl | hm
    · cases hw
    · exact hm
  refine ⟨h.queued, fun p i hu => ⟨(h.fresh p i hu).1, fun m hm hw =>
    (h.fresh p i hu).2 m (hback m hm hw) hw⟩, h.owner, h.popped, fun m hm hw =>
    h.measured m (hback m hm hw) hw, fun m hm m' hm' hw hw' =>
    h.once m (hback m hm hw) m' (hback m' hm' hw') hw hw', fun i node hn => ⟨(h.heap i node hn).1,
    fun hc => ?_⟩, fun w hw hwait => ?_⟩
  · obtain ⟨m, hm, hrest⟩ := (h.heap i node hn).2 hc
    exact ⟨m, List.mem_cons_of_mem _ hm, hrest⟩
  · rcases List.mem_cons.mp hw with rfl | hw
    · obtain ⟨m, hm, hrest⟩ := hm
      exact ⟨hqueued, m, List.mem_cons_of_mem _ hm, hrest⟩
    · obtain ⟨hq, m, hm, hrest⟩ := h.joined w hw hwait
      exact ⟨hq, m, List.mem_cons_of_mem _ hm, hrest⟩

/-- A measuring call publishes its verdict. -/
theorem Sharing.Inv.publish (h : Sharing.Inv b calls q) {path : CStr} {ret : UInt32}
    {pr : Wqueue.Proc} {o : Option Wqueue.SmeasureWqueue} (hpop : q.wq.procs pid = .popped path id ret)
    (hprocs : wq.procs = Function.update q.wq.procs pid pr) (hnext : wq.next = q.wq.next)
    (hheap : wq.heap = Function.update q.wq.heap id o) (ho : ∀ node, o = some node → node.result = ret)
    (hunp : unpublished pr = none) (hpr : ∀ p i r, pr ≠ .popped p i r) :
    Sharing.Inv b calls ⟨wq, ⟨pid, id, false, (calls pid).ret b .own⟩ :: q.returns⟩ := by
  have hown : unpublished (q.wq.procs pid) = some id := by rw [hpop]; rfl
  obtain ⟨hlt, hnone⟩ := h.fresh pid id hown
  have hqueued : ((calls pid).queues b).isSome = true :=
    h.queued pid (by rw [hpop]; exact Wqueue.Proc.noConfusion)
  have hself : wq.procs pid = pr := by rw [hprocs, Function.update_self]
  have hother : ∀ {pid'}, pid' ≠ pid → wq.procs pid' = q.wq.procs pid' := by
    intro pid' hne
    rw [hprocs, Function.update_of_ne hne]
  have hold : ∀ pid' i, unpublished (wq.procs pid') = some i →
      unpublished (q.wq.procs pid') = some i ∧ i ≠ id := by
    intro pid' i hu
    rcases eq_or_ne pid' pid with rfl | hne
    · rw [hself, hunp] at hu
      cases hu
    · rw [hother hne] at hu
      exact ⟨hu, fun hi => hne (h.owner pid' pid id (hi ▸ hu) hown)⟩
  refine ⟨fun pid' hp => ?_, fun pid' i hu => ?_, fun pid₁ pid₂ i h₁ h₂ =>
    h.owner pid₁ pid₂ i (hold pid₁ i h₁).1 (hold pid₂ i h₂).1, fun pid' p i r hp => ?_,
    fun m hm hw => ?_, fun m hm m' hm' hw hw' he => ?_, fun i node hn => ?_, fun w hw hwait => ?_⟩
  · rcases eq_or_ne pid' pid with rfl | hne
    · exact hqueued
    · exact h.queued pid' (hother hne ▸ hp)
  · obtain ⟨hu, hne⟩ := hold pid' i hu
    refine ⟨hnext ▸ (h.fresh pid' i hu).1, fun m hm hw => ?_⟩
    rcases List.mem_cons.mp hm with rfl | hm
    · exact hne.symm
    · exact (h.fresh pid' i hu).2 m hm hw
  · rcases eq_or_ne pid' pid with rfl | hne
    · exact absurd (hself.symm.trans hp) (hpr p i r)
    · exact h.popped pid' p i r (hother hne ▸ hp)
  · rcases List.mem_cons.mp hm with rfl | hm
    · exact ⟨hnext ▸ hlt, hqueued, rfl⟩
    · exact hnext ▸ h.measured m hm hw
  · rcases List.mem_cons.mp hm with rfl | hm <;> rcases List.mem_cons.mp hm' with rfl | hm'
    · rfl
    · exact absurd he.symm (hnone m' hm' hw')
    · exact absurd he (hnone m hm hw)
    · exact h.once m hm m' hm' hw hw' he
  · rw [hheap] at hn
    rcases eq_or_ne i id with rfl | hne
    · rw [Function.update_self] at hn
      refine ⟨hnext ▸ hlt, fun _ => ⟨_, List.mem_cons_self, rfl, rfl, ?_⟩⟩
      rw [ho node hn]
      exact h.popped pid path i ret hpop
    · rw [Function.update_of_ne hne] at hn
      obtain ⟨hi, hcond⟩ := h.heap i node hn
      refine ⟨hnext ▸ hi, fun hc => ?_⟩
      obtain ⟨m, hm, hrest⟩ := hcond hc
      exact ⟨m, List.mem_cons_of_mem _ hm, hrest⟩
  · rcases List.mem_cons.mp hw with rfl | hw
    · cases hwait
    · obtain ⟨hq, m, hm, hrest⟩ := h.joined w hw hwait
      exact ⟨hq, m, List.mem_cons_of_mem _ hm, hrest⟩

/-- What a step leaves of the nodes that it does not publish. -/
theorem Sharing.Inv.heap_update (h : Sharing.Inv b calls q) {node₀ : Wqueue.SmeasureWqueue}
    {o : Option Wqueue.SmeasureWqueue} (hn₀ : q.wq.heap id = some node₀)
    (ho : ∀ node, o = some node → node.condition = node₀.condition ∧ node.result = node₀.result) :
    ∀ i node, Function.update q.wq.heap id o i = some node → i < q.wq.next ∧
      (node.condition = true → ∃ node₀, q.wq.heap i = some node₀ ∧ node₀.condition = true ∧
        node.result = node₀.result) := by
  intro i node hn
  rcases eq_or_ne i id with rfl | hne
  · rw [Function.update_self] at hn
    obtain ⟨hc, hr⟩ := ho node hn
    exact ⟨(h.heap i node₀ hn₀).1, fun ht => ⟨node₀, hn₀, hc ▸ ht, hr⟩⟩
  · rw [Function.update_of_ne hne] at hn
    exact ⟨(h.heap i node hn).1, fun ht => ⟨node, hn, ht, rfl⟩⟩

/-- **One lock section keeps the invariant.** -/
theorem Sharing.Inv.step (h : Sharing.Inv b calls q) {a : CallAct} {q' : Sharing}
    (hs : q.step b rb calls a = some q') : Sharing.Inv b calls q' := by
  have hsame : ∀ i node, q.wq.heap i = some node → i < q.wq.next ∧
      (node.condition = true → ∃ node₀, q.wq.heap i = some node₀ ∧ node₀.condition = true ∧
        node.result = node₀.result) :=
    fun i node hn => ⟨(h.heap i node hn).1, fun ht => ⟨node, hn, ht, rfl⟩⟩
  cases a with
  | handle pid kzalloc =>
      obtain ⟨sec, hsec, hs⟩ := Option.bind_eq_some_iff.mp hs
      obtain ⟨wq, hwq, rfl⟩ := Option.map_eq_some_iff.mp hs
      have hqueued := Option.isSome_of_eq_some hsec
      cases Wqueue.step_taken rb hwq with
      | join hidle hf hq =>
          refine h.move rfl le_rfl hqueued nofun nofun (h.heap_update hq fun node hn => ?_)
          obtain rfl := Option.some.inj hn
          exact ⟨rfl, rfl⟩
      | create hidle hf =>
          refine h.move rfl (Nat.le_succ _) hqueued (fun i hi => Or.inr ?_) nofun fun i node hn => ?_
          · obtain rfl := Option.some.inj hi
            exact ⟨rfl, Nat.lt_succ_self _⟩
          · rcases eq_or_ne i q.wq.next with rfl | hne
            · simp only [Function.update_self, Option.some.injEq] at hn
              subst hn
              exact ⟨Nat.lt_succ_self _, nofun⟩
            · simp only [Function.update_of_ne hne] at hn
              obtain ⟨hlt, hcond⟩ := hsame i node hn
              exact ⟨Nat.lt_succ_of_lt hlt, hcond⟩
      | alone => exact h.move rfl le_rfl hqueued nofun nofun hsame
  | pop pid =>
      obtain ⟨sec, hsec, hs⟩ := Option.bind_eq_some_iff.mp hs
      obtain ⟨wq, hwq, rfl⟩ := Option.map_eq_some_iff.mp hs
      have hqueued := Option.isSome_of_eq_some hsec
      cases Wqueue.step_taken rb hwq with
      | pop hm =>
          refine h.move rfl le_rfl hqueued (fun i hi => Or.inl ?_) (fun p i r hp => ?_) hsame
          · rw [hm]
            exact hi
          · obtain ⟨-, -, rfl⟩ := Wqueue.Proc.popped.inj hp
            rw [Call.own, hsec]
            rfl
      | popAlone => exact h.move rfl le_rfl hqueued nofun nofun hsame
  | publish pid =>
      simp only [Sharing.step] at hs
      split at hs
      case h_2 => cases hs
      case h_1 path id ret hpop =>
        obtain ⟨wq, hwq, rfl⟩ := Option.map_eq_some_iff.mp hs
        cases Wqueue.step_taken rb hwq with
        | publishLast hm hq hlast =>
            obtain ⟨rfl, rfl, rfl⟩ := Wqueue.Proc.popped.inj (hpop.symm.trans hm)
            exact h.publish hpop rfl rfl rfl nofun rfl nofun
        | publish hm hq hleft =>
            obtain ⟨rfl, rfl, rfl⟩ := Wqueue.Proc.popped.inj (hpop.symm.trans hm)
            refine h.publish hpop rfl rfl rfl (fun node hn => ?_) rfl nofun
            obtain rfl := Option.some.inj hn
            rfl
  | wake pid =>
      obtain ⟨wq, hwq, rfl⟩ := Option.map_eq_some_iff.mp hs
      cases Wqueue.step_taken rb hwq with
      | wake hm =>
          refine h.move rfl le_rfl (h.queued pid ?_) nofun nofun hsame
          rw [hm]
          exact Wqueue.Proc.noConfusion
  | clean pid =>
      simp only [Sharing.step] at hs
      split at hs
      case h_2 => cases hs
      case h_1 path id hwait =>
        obtain ⟨node, hnode, hs⟩ := Option.bind_eq_some_iff.mp hs
        obtain ⟨wq, hwq, rfl⟩ := Option.map_eq_some_iff.mp hs
        have hqueued : ((calls pid).queues b).isSome = true :=
          h.queued pid (by rw [hwait]; exact Wqueue.Proc.noConfusion)
        cases Wqueue.step_taken rb hwq with
        | clean hm hq hc =>
            obtain ⟨rfl, rfl⟩ := Wqueue.Proc.waiting.inj (hwait.symm.trans hm)
            obtain rfl := Option.some.inj (hnode.symm.trans hq)
            refine Sharing.Inv.wait (q := ⟨_, q.returns⟩) ?_ hqueued ?_
            · refine h.move rfl le_rfl hqueued nofun nofun (h.heap_update hnode fun r hr => ?_)
              split_ifs at hr
              obtain rfl := Option.some.inj hr
              exact ⟨rfl, rfl⟩
            · obtain ⟨m, hm, hw, hid, hres⟩ := (h.heap id node hnode).2 hc
              obtain ⟨-, hmq, -⟩ := h.measured m hm hw
              obtain ⟨sec, -, hown⟩ := own_verdict hmq
              exact ⟨m, hm, hw, hid, by rw [hres, hown, ofResult_verdict]⟩

theorem Sharing.inv_run {acts : List CallAct}
    (hrun : Run.run (Sharing.step b rb calls) Sharing.init acts = some q) :
    Sharing.Inv b calls q :=
  Run.run_preserves (fun _ _ _ h hs => h.step hs) Sharing.inv_init hrun

end Invariant

/-- Two calls like `c`: the second joins the first, and both come back. -/
theorem run_two_calls (b : Boot) (c : Call) {sec : SecDomain} (h : c.queues b = some sec) :
    ∃ q, Run.run (Sharing.step b (SearchTree.RbTree.naive (ℕ × CStr)) fun _ => c) Sharing.init
        [.handle 0 true, .handle 1 true, .pop 0, .publish 0, .clean 1] = some q ∧
      q.returns = [⟨1, 0, true, c.ret b (.joined (c.verdict sec))⟩, ⟨0, 0, false, c.ret b .own⟩] := by
  let rb := SearchTree.RbTree.naive (ℕ × CStr)
  have hcmp : Wqueue.treeCompare sec.objName (Wqueue.wqueueKey sec.objName) = 0 :=
    Wqueue.treeCompare_eq_zero.mpr (Or.inr (Wqueue.wqueueKey_begins _))
  have hfirst : Sharing.step b rb (fun _ => c) Sharing.init (.handle 0 true) =
      some ⟨Wqueue.firstCall rb sec.objName, []⟩ := by
    simp only [Sharing.step, h, Option.bind_some]
    rfl
  have hsecond : Sharing.step b rb (fun _ => c) ⟨Wqueue.firstCall rb sec.objName, []⟩
      (.handle 1 true) = some ⟨Wqueue.secondCall rb sec.objName sec.objName, []⟩ := by
    simp only [Sharing.step, h, Option.bind_some, Wqueue.step_secondCall rb hcmp, Option.map_some]
  rw [Run.run_cons_of_step hfirst, Run.run_cons_of_step hsecond, ← ofResult_verdict c sec]
  -- the measuring call takes its node out of the tree; the rest computes
  rw [Run.run_cons]
  simp only [Sharing.step, h, Option.bind_some]
  exact ⟨_, rfl, rfl⟩

/-- **When waiters and measurer decide alike.**  For every boot, every call that
comes to the queue, every result of the TPCM and every setting of `control_mode`:
in every run the calls that wait for it return what it returns, if and only if
`control_mode` is on or the TPCM does not forbid the file. -/
theorem waiters_decide_alike_iff (b : Boot) (c : Call) (h : (c.queues b).isSome = true) :
    DecideAlike b c ↔ c.engine.feature.controlMode ≠ 0 ∨ ¬ TpcmForbids c.input := by
  obtain ⟨sec, hsec⟩ := Option.isSome_iff_exists.mp h
  have hown : c.own b = c.verdict sec := by rw [Call.own, hsec]; rfl
  have hforbid : c.verdict sec = dcForbid ↔ TpcmForbids c.input := digestCheckTpcm_eq_forbid
  constructor
  · intro halike
    by_contra hno
    push Not at hno
    obtain ⟨hmode, htpcm⟩ := hno
    obtain ⟨q, hrun, hq⟩ := run_two_calls b c hsec
    have heq : c.ret b (.joined (c.verdict sec)) = c.ret b .own :=
      halike _ _ _ q hrun ⟨0, 0, false, c.ret b .own⟩ (by simp [hq])
        ⟨1, 0, true, c.ret b (.joined (c.verdict sec))⟩ (by simp [hq]) rfl rfl rfl rfl
    rw [Call.ret_joined hsec, Call.ret_own hsec, if_pos (hforbid.mpr htpcm),
      if_neg (fun hc => hc.2 hmode)] at heq
    exact absurd heq (by decide)
  · intro hcond rb calls acts q hrun m hm w hw hmw hww hqueue hc
    have hinv := Sharing.inv_run hrun
    obtain ⟨-, -, hmret⟩ := hinv.measured m hm hmw
    obtain ⟨hwq, m', hm', hmw', hqueue', hwret⟩ := hinv.joined w hw hww
    obtain rfl : m' = m := hinv.once m' hm' m hm hmw' hmw (hqueue'.trans hqueue.symm)
    obtain ⟨secw, hsecw⟩ := Option.isSome_iff_exists.mp hwq
    rw [hwret, hmret, hc, hown, Call.ret_joined hsecw, Call.ret_own hsec]
    refine if_congr (Iff.symm (and_iff_left_of_imp fun hv => ?_)) rfl rfl
    exact hcond.resolve_right fun hn => hn (hforbid.mp hv)

/-- `/bin/ls` in the TCS measure mode, with the result of its measurement. -/
def lsCall (controlMode tpcmRes : UInt32) : Call where
  engine := { smeasureInit with feature := ⟨1, controlMode, processMeasureModeTcsMeasure, 0, 0⟩ }
  input := { programInput Wqueue.binLs none with tpcmMeasure := (0, tpcmRes, Digest.zero) }

/-- A module without the build option, with a constant hash. -/
def tcsBoot : Boot := ⟨fun _ _ => 0, 0, 0, false⟩

/-- The TPCM forbids `/bin/ls`, and `control_mode` is on. -/
theorem waiters_decide_alike_control_on :
    ((lsCall 1 0x10001).queues tcsBoot).isSome = true ∧ DecideAlike tcsBoot (lsCall 1 0x10001) :=
  ⟨rfl, (waiters_decide_alike_iff tcsBoot (lsCall 1 0x10001) rfl).mpr (Or.inl (by decide))⟩

/-- **With `control_mode` off a waiter is refused what the measurer may run.**  Two
calls for `/bin/ls`, which the TPCM forbids: the call that measured returns `0`, the
one that waited for it `-EACCES`. -/
theorem waiter_refused_with_control_off :
    (∃ acts q, Run.run (Sharing.step tcsBoot (SearchTree.RbTree.naive (ℕ × CStr))
        fun _ => lsCall 0 0x10001) Sharing.init acts = some q ∧
      q.returns = [⟨1, 0, true, -eacces⟩, ⟨0, 0, false, 0⟩]) ∧
      ¬ ∀ b c, (c.queues b).isSome = true → DecideAlike b c := by
  have hrun : ∃ acts q, Run.run (Sharing.step tcsBoot (SearchTree.RbTree.naive (ℕ × CStr))
        fun _ => lsCall 0 0x10001) Sharing.init acts = some q ∧
      q.returns = [⟨1, 0, true, -eacces⟩, ⟨0, 0, false, 0⟩] := by
    obtain ⟨q, hq, hret⟩ := run_two_calls tcsBoot (lsCall 0 0x10001) rfl
    exact ⟨_, q, hq, hret⟩
  refine ⟨hrun, fun h => ?_⟩
  obtain ⟨acts, q, hq, hret⟩ := hrun
  have heq := h tcsBoot (lsCall 0 0x10001) rfl _ _ acts q hq ⟨0, 0, false, 0⟩ (by simp [hret])
    ⟨1, 0, true, -eacces⟩ (by simp [hret]) rfl rfl rfl rfl
  exact absurd heq (by decide)

end Whitelist
end TsbAgent
