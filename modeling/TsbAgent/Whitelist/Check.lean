/-
# The whitelist check

`whitelist_check` of `tsb/kernel/smeasure/engine/smeasure_engine.c`, which the
hooks call before a program, a library, a script or a module is used, with
`prepare_sec_domain` and `update_whitelist_conf` of the same file and the digest
checks of `policy/hash_whitelist.c`.

| `measure_mode` | verdict |
| --- | --- |
| soft, auto, any in a build with `WHITE_NOT_TPCM` | `digest_check`: digest of the file, looked up in the table |
| TCS check | `digest_check_tpcm_simple`: digest of the file, judged by the TPCM |
| TCS measure | another call's verdict, or `digest_check_tpcm`: measured and judged by the TPCM |
| any other | pass |

The function takes a lock three times, to look in the cache, to look in the table
and to fill the cache.  `checkSection` is the function cut at these places, and
`checkSections_eq` says that the pieces, run in a row, are the function.

What the TPCM, the file system and the allocator answer is input.  The retries of
`digest_check_tpcm` on a timeout are not modelled: its answer is the last one.
The user, the process and the operation in the audit record are left out, and so
is the conversion of the type for the TPCM.
-/

import TsbAgent.Whitelist.Cache
import TsbAgent.Whitelist.Load
import Mathlib.Algebra.Order.Ring.Nat

namespace TsbAgent
namespace Whitelist

open Libc

/-! ### The configuration -/

/-- `struct whitelist_feature_conf`. -/
structure WhitelistFeatureConf where
  isEnabled : UInt32
  controlMode : UInt32
  measureMode : UInt32
  cacheMode : UInt32
  matchMode : UInt32
deriving DecidableEq

def processMeasureModeSoft : UInt32 := 0
def processMeasureModeTcsCheck : UInt32 := 1
def processMeasureModeTcsMeasure : UInt32 := 2
def processMeasureModeAuto : UInt32 := 3

/-- The fields of `struct global_control_policy` the whitelist reads. -/
structure GlobalControlPolicy where
  beProgramMeasureOn : UInt32
  beProgramControl : UInt32
  beProgramMeasureMode : UInt32
  beMeasureUseCache : UInt32
  beProgramMeasureMatchMode : UInt32

/-- The measure mode in force: the TCS modes need a TPCM that has them. -/
def effectiveMeasureMode (mode tpcmFeature : UInt32) : UInt32 :=
  if mode = processMeasureModeTcsMeasure ∧ tpcmFeature &&& 0x0001 = 0 then processMeasureModeSoft
  else if mode = processMeasureModeTcsCheck ∧ tpcmFeature &&& 0x0040 = 0 then processMeasureModeSoft
  else mode

/-- `update_whitelist_conf`. -/
def updateWhitelistConf (p : GlobalControlPolicy) (tpcmFeature : UInt32) (validLicense : Bool)
    (w : WhitelistFeatureConf) : WhitelistFeatureConf :=
  let isEnabled := if validLicense then p.beProgramMeasureOn else 0
  if w.isEnabled ≠ isEnabled ∨ w.controlMode ≠ p.beProgramControl ∨
      w.cacheMode ≠ p.beMeasureUseCache ∨ w.matchMode ≠ p.beProgramMeasureMatchMode ∨
        w.measureMode ≠ p.beProgramMeasureMode then
    { isEnabled := isEnabled
      controlMode := p.beProgramControl
      cacheMode := p.beMeasureUseCache
      matchMode := p.beProgramMeasureMatchMode
      measureMode := effectiveMeasureMode p.beProgramMeasureMode tpcmFeature }
  else w

/-! ### What one call is given -/

inductive CtlType
  | exec
  | dyn
  | module
  | script
deriving DecidableEq

/-- What `smeasure_wqueue_handle` answers: the verdict of another call, or leave to
measure with or without an entry of its own. -/
inductive WqueueAnswer
  | joined (ret : ℤ)
  | own
  | none

/-- What a call of `whitelist_check` meets outside its own tables. -/
structure CheckInput where
  /-- The `kzalloc` of the `struct sec_domain`. -/
  kzalloc : Bool
  /-- `vfs_get_fullpath` of the file. -/
  fullpath : Option CStr
  /-- The path or the name of the task. -/
  taskpath : CStr
  stamp : FileStamp
  /-- `digest_cal` of the file. -/
  digestCal : Option Digest
  /-- The `kzalloc` of the key in `check_whitelist_cache`. -/
  kzallocCheck : Bool
  /-- The `kzalloc` of the key in `set_whitelist_cache`. -/
  kzallocSet : Bool
  type : CtlType
  wqueue : WqueueAnswer
  /-- Whether `digest_check_tpcm` could allocate its pages and read the file into them. -/
  pagesRead : Bool
  /-- `measure_digest_by_tpcm`: return value, result and digest. -/
  tpcmMeasure : ℤ × UInt32 × Digest
  /-- `measure_digest_by_tpcm_simple`: return value and result. -/
  tpcmSimple : ℤ × UInt32

/-- The bytes of an `int` in memory. -/
def intBytes (n : ℕ) : Bytes := (List.range 4).map fun i => (n / 256 ^ i).toUInt8

/-- `obj_name` read as a string.  A path of `LEN_NAME_MAX` bytes or more fills the
array, and the string runs on into `sub_len`, the field after it. -/
def objString (taskpath fullpath : CStr) : CStr :=
  if fullpath.strlen < lenNameMax then fullpath
  else CStr.ofBytes (fullpath.bytes.take lenNameMax ++ intBytes (min taskpath.strlen lenNameMax))

/-- `prepare_sec_domain`. -/
def prepareSecDomain (c : CheckInput) : Option SecDomain :=
  c.fullpath.map fun p => ⟨secName c.taskpath, objString c.taskpath p, Digest.zero⟩

/-! ### The digest checks -/

def dcPass : ℤ := 0
def dcForbid : ℤ := 1
def dcErrorPass : ℤ := 2
def dcEauditPass : ℤ := 3

def tpcmErrorTimeout : ℤ := 512
def tpcmErrorNoSpace : ℤ := 259

/-- The measure command is too long for the TPCM. -/
def tpcmCmdTooLong : ℤ := 516

/-- `TPCM_LICENSE_INVALID` and `TPCM_LICENSE_EXPIRED`. -/
def tpcmLicenseError (res : UInt32) : Bool := res == 146 || res == 147

/-- The result of the TPCM as a verdict: the high half says whether control is on, the
low half what was found. -/
def tpcmVerdict (tpcmRes : UInt32) : ℤ :=
  if tpcmRes = 0 then dcPass
  else if tpcmRes &&& 0xffff0000 = 0 then dcEauditPass
  else if tpcmLicenseError (tpcmRes &&& 0x0000ffff) then dcEauditPass
  else dcForbid

/-- What is fixed when the module is loaded: the hash function, the seeds of the cache
and of the table, and the build option `WHITE_NOT_TPCM`. -/
structure Boot where
  jhash : Jhash
  random : UInt32
  whitelistHashRandom : UInt32
  whiteNotTpcm : Bool

/-- The state of the measure engine: configuration, table, `file_integrity_valid`
and cache. -/
structure SmeasureState extends WhitelistState where
  feature : WhitelistFeatureConf
  cache : CacheArray

/-- `digest_check`. -/
def digestCheck (b : Boot) (s : SmeasureState) (c : CheckInput) (sec : SecDomain) : SecDomain × ℤ :=
  match c.digestCal with
  | none => (sec, dcErrorPass)
  | some d =>
      ({ sec with subHash := d },
        if getDigest b.jhash b.whitelistHashRandom s.feature.matchMode s.table d sec.objName < 0 then
          dcForbid
        else dcPass)

/-- `digest_check_tpcm_simple`. -/
def digestCheckTpcmSimple (c : CheckInput) (sec : SecDomain) : SecDomain × ℤ :=
  match c.digestCal with
  | none => (sec, dcErrorPass)
  | some d =>
      ({ sec with subHash := d },
        if c.tpcmSimple.1 = tpcmErrorTimeout ∨ c.tpcmSimple.1 = tpcmErrorNoSpace then c.tpcmSimple.1
        else if c.tpcmSimple.1 ≠ 0 then dcForbid
        else tpcmVerdict c.tpcmSimple.2)

/-- `digest_check_tpcm`. -/
def digestCheckTpcm (c : CheckInput) (sec : SecDomain) : SecDomain × ℤ :=
  if c.pagesRead = false then (sec, dcErrorPass)
  else if c.tpcmMeasure.1 = tpcmCmdTooLong then digestCheckTpcmSimple c sec
  else if c.tpcmMeasure.1 ≠ 0 then (sec, dcForbid)
  else ({ sec with subHash := c.tpcmMeasure.2.2 }, tpcmVerdict c.tpcmMeasure.2.1)

/-! ### `whitelist_check` -/

/-- What a call leaves behind outside the cache. -/
inductive Effect
  /-- `fac_process_msg_set`. -/
  | processMsg (objName : CStr) (subHash : Digest) (type : CtlType)
  /-- `smeasure_wqueue_wake_up`. -/
  | wakeUp (ret : ℤ)
  /-- `sync_trust_status(1)`. -/
  | syncTrustStatus
  /-- `keraudit_log`, with success or failure. -/
  | keraudit (success : Bool) (sec : SecDomain)

/-- The return value of a call and its effects, the latest first. -/
structure CheckOutcome where
  ret : ℤ
  effects : List Effect

/-- The block at `audit_log`, and the return. -/
def auditLog (f : WhitelistFeatureConf) (sec : SecDomain) (ret : ℤ) (skip : Bool)
    (effects : List Effect) : CheckOutcome :=
  let effects := if f.controlMode = 0 ∧ ret ≠ 0 then .syncTrustStatus :: effects else effects
  ⟨if skip ∨ f.controlMode = 0 then 0 else ret, .keraudit (0 ≤ ret) sec :: effects⟩

/-- `fac_process_msg_set`, for a program or a script. -/
def setProcessMsg (c : CheckInput) (sec : SecDomain) (effects : List Effect) : List Effect :=
  if c.type = .exec ∨ c.type = .script then .processMsg sec.objName sec.subHash c.type :: effects
  else effects

/-- The switch on the verdict of another call. -/
def joinedOutcome (ret : ℤ) : CheckOutcome :=
  if ret = dcPass then ⟨0, []⟩
  else if ret = dcForbid then ⟨-eacces, []⟩
  else ⟨0, []⟩

/-- What the switch on `measure_mode` ends in. -/
inductive Measured
  /-- `goto out`. -/
  | out (o : CheckOutcome)
  /-- A verdict to be judged. -/
  | verdict (sec : SecDomain) (ret : ℤ) (effects : List Effect)

/-- The verdict is taken from the table. -/
def FromTable (b : Boot) (f : WhitelistFeatureConf) : Prop :=
  b.whiteNotTpcm = true ∨ f.measureMode = processMeasureModeSoft ∨
    f.measureMode = processMeasureModeAuto

instance (b : Boot) (f : WhitelistFeatureConf) : Decidable (FromTable b f) :=
  inferInstanceAs (Decidable (_ ∨ _ ∨ _))

/-- The switch on `measure_mode`. -/
def measure (b : Boot) (s : SmeasureState) (c : CheckInput) (sec : SecDomain) : Measured :=
  if FromTable b s.feature then
    let r := digestCheck b s c sec
    .verdict r.1 r.2 []
  else if s.feature.measureMode = processMeasureModeTcsCheck then
    let r := digestCheckTpcmSimple c sec
    .verdict r.1 r.2 []
  else if s.feature.measureMode = processMeasureModeTcsMeasure then
    match c.wqueue with
    | .joined ret => .out (joinedOutcome ret)
    | .own =>
        let r := digestCheckTpcm c sec
        .verdict r.1 r.2 [.wakeUp r.2]
    | .none =>
        let r := digestCheckTpcm c sec
        .verdict r.1 r.2 []
  else .out ⟨0, []⟩

section Check

variable (b : Boot)

/-- `check_whitelist_cache`, when the cache is on. -/
def lookCache (s : SmeasureState) (c : CheckInput) (sec : SecDomain) : Option Digest :=
  if s.feature.cacheMode ≠ 0 then
    checkWhitelistCache b.jhash b.random s.cache c.kzallocCheck c.stamp sec.objName
  else none

/-- `set_whitelist_cache`, when the cache is on. -/
def fillCache (s : SmeasureState) (c : CheckInput) (sec : SecDomain) : CacheArray :=
  if s.feature.cacheMode ≠ 0 then
    (setWhitelistCache b.jhash b.random s.cache c.kzallocSet c.stamp sec.objName sec.subHash).1
  else s.cache

/-- `whitelist_check`. -/
def whitelistCheck (s : SmeasureState) (c : CheckInput) : CacheArray × CheckOutcome :=
  if c.kzalloc = false then (s.cache, ⟨-enomem, []⟩)
  else
    match prepareSecDomain c with
    | none => (s.cache, ⟨0, []⟩)
    | some sec =>
        if s.fileIntegrityValid = false then (s.cache, auditLog s.feature sec (-eacces) false [])
        else
          match lookCache b s c sec with
          | some d =>
              let sec := { sec with subHash := d }
              (s.cache, auditLog s.feature sec 0 false (setProcessMsg c sec []))
          | none =>
              match measure b s c sec with
              | .out o => (s.cache, o)
              | .verdict sec ret effects =>
                  if ret = dcPass then
                    (fillCache b s c sec,
                      auditLog s.feature sec 0 false (setProcessMsg c sec effects))
                  else if ret = dcForbid then
                    (s.cache, auditLog s.feature sec (-eacces) false effects)
                  else if ret = dcEauditPass then
                    (s.cache, auditLog s.feature sec (-eacces) true effects)
                  else (s.cache, ⟨0, effects⟩)

/-- Where a call stands between its lock sections. -/
inductive CheckPc
  | enter
  | lookup (sec : SecDomain)
  | measure (sec : SecDomain)
  | store (sec : SecDomain) (effects : List Effect)
  | done (o : CheckOutcome)

/-- One section of `whitelist_check`, up to the next lock. -/
def checkSection (s : SmeasureState) (c : CheckInput) : CheckPc → CacheArray × CheckPc
  | .enter =>
      if c.kzalloc = false then (s.cache, .done ⟨-enomem, []⟩)
      else
        match prepareSecDomain c with
        | none => (s.cache, .done ⟨0, []⟩)
        | some sec =>
            if s.fileIntegrityValid = false then
              (s.cache, .done (auditLog s.feature sec (-eacces) false []))
            else (s.cache, .lookup sec)
  | .lookup sec =>
      match lookCache b s c sec with
      | some d =>
          let sec := { sec with subHash := d }
          (s.cache, .done (auditLog s.feature sec 0 false (setProcessMsg c sec [])))
      | none => (s.cache, .measure sec)
  | .measure sec =>
      match measure b s c sec with
      | .out o => (s.cache, .done o)
      | .verdict sec ret effects =>
          if ret = dcPass then (s.cache, .store sec (setProcessMsg c sec effects))
          else if ret = dcForbid then
            (s.cache, .done (auditLog s.feature sec (-eacces) false effects))
          else if ret = dcEauditPass then
            (s.cache, .done (auditLog s.feature sec (-eacces) true effects))
          else (s.cache, .done ⟨0, effects⟩)
  | .store sec effects =>
      (fillCache b s c sec, .done (auditLog s.feature sec 0 false effects))
  | .done o => (s.cache, .done o)

/-- The sections in a row, with nothing in between. -/
def checkSections (c : CheckInput) : ℕ → SmeasureState × CheckPc → SmeasureState × CheckPc
  | 0, r => r
  | n + 1, (s, pc) =>
      let r := checkSection b s c pc
      checkSections c n ({ s with cache := r.1 }, r.2)

end Check

/-- What the switch on the verdict makes of it. -/
def judged (f : WhitelistFeatureConf) (c : CheckInput) : Measured → CheckOutcome
  | .out o => o
  | .verdict sec ret effects =>
      if ret = dcPass then auditLog f sec 0 false (setProcessMsg c sec effects)
      else if ret = dcForbid then auditLog f sec (-eacces) false effects
      else if ret = dcEauditPass then auditLog f sec (-eacces) true effects
      else ⟨0, effects⟩

/-- The outcome of a call, given what it finds in the cache. -/
def outcomeWith (b : Boot) (s : SmeasureState) (c : CheckInput) (look : SecDomain → Option Digest) :
    CheckOutcome :=
  if c.kzalloc = false then ⟨-enomem, []⟩
  else
    match prepareSecDomain c with
    | none => ⟨0, []⟩
    | some sec =>
        if s.fileIntegrityValid = false then auditLog s.feature sec (-eacces) false []
        else
          match look sec with
          | some d =>
              auditLog s.feature { sec with subHash := d } 0 false
                (setProcessMsg c { sec with subHash := d } [])
          | none => judged s.feature c (measure b s c sec)

/-- **The cache enters the outcome through the lookup alone.** -/
theorem whitelistCheck_outcome (b : Boot) (s : SmeasureState) (c : CheckInput) :
    (whitelistCheck b s c).2 = outcomeWith b s c (lookCache b s c) := by
  rw [whitelistCheck, outcomeWith]
  cases hk : c.kzalloc with
  | false => rfl
  | true =>
      cases hp : prepareSecDomain c with
      | none => rfl
      | some sec =>
          cases hv : s.fileIntegrityValid with
          | false => rfl
          | true =>
              simp only [Bool.true_eq_false, if_false]
              cases hl : lookCache b s c sec with
              | some d => rfl
              | none =>
                  simp only
                  cases hm : measure b s c sec with
                  | out o => rfl
                  | verdict sec' ret effects =>
                      simp only [judged]
                      split_ifs <;> rfl

/-- A pass taken from the table is a digest and a name that the table has. -/
theorem measure_pass {b : Boot} {s : SmeasureState} {c : CheckInput} {sec sec' : SecDomain} {ret : ℤ}
    {effects : List Effect} (hf : FromTable b s.feature)
    (hm : measure b s c sec = .verdict sec' ret effects) (hret : ret = dcPass) :
    c.digestCal = some sec'.subHash ∧ sec'.objName = sec.objName ∧
      getDigest b.jhash b.whitelistHashRandom s.feature.matchMode s.table sec'.subHash
        sec'.objName = 0 := by
  rw [measure, if_pos hf, digestCheck] at hm
  cases hd : c.digestCal with
  | none =>
      rw [hd] at hm
      simp only [Measured.verdict.injEq] at hm
      exact absurd (hm.2.1.trans hret) (by decide)
  | some d =>
      rw [hd] at hm
      simp only [Measured.verdict.injEq] at hm
      obtain ⟨rfl, hr, -⟩ := hm
      refine ⟨rfl, rfl, ?_⟩
      by_contra hne
      rw [if_pos (getDigest_neg.mpr hne), hret] at hr
      exact absurd hr (by decide)

/-- A pass, audited or not, returns `0`. -/
theorem auditLog_zero (f : WhitelistFeatureConf) (sec : SecDomain) (skip : Bool)
    (effects : List Effect) : (auditLog f sec 0 skip effects).ret = 0 := by
  unfold auditLog
  simp only
  split_ifs <;> rfl

/-- A file that the table passes, or whose digest cannot be computed, passes. -/
theorem judged_of_listed {b : Boot} {s : SmeasureState} {c : CheckInput} {sec : SecDomain}
    (hf : FromTable b s.feature) (hd : ∀ d, c.digestCal = some d →
      getDigest b.jhash b.whitelistHashRandom s.feature.matchMode s.table d sec.objName = 0) :
    (judged s.feature c (measure b s c sec)).ret = 0 := by
  rw [measure, if_pos hf, digestCheck]
  cases hc : c.digestCal with
  | none => rfl
  | some d =>
      have hneg : ¬ getDigest b.jhash b.whitelistHashRandom s.feature.matchMode s.table d
          sec.objName < 0 := by
        rw [hd d hc]
        decide
      simp only [hneg, if_false]
      exact auditLog_zero ..

/-- A slot after `whitelist_check` holds what it held, or a pass taken from the table. -/
theorem whitelistCheck_slot {b : Boot} {s : SmeasureState} {c : CheckInput}
    (hf : FromTable b s.feature) {i : Fin maxCacheNumber} {e : WhitelistCache}
    (h : (whitelistCheck b s c).1 i = some e) :
    s.cache i = some e ∨ ∃ p d e₀, c.fullpath = some p ∧ c.digestCal = some d ∧
      e = fillEntry e₀ (objString c.taskpath p) d ∧
      setSlot b.jhash b.random (objString c.taskpath p) c.stamp = i ∧
      getDigest b.jhash b.whitelistHashRandom s.feature.matchMode s.table d
        (objString c.taskpath p) = 0 := by
  rw [whitelistCheck] at h
  rcases Bool.eq_false_or_eq_true c.kzalloc with hk | hk
  · rw [if_neg (by rw [hk]; decide), prepareSecDomain] at h
    cases hp : c.fullpath with
    | none =>
        rw [hp] at h
        exact Or.inl h
    | some p =>
        rw [hp, Option.map_some] at h
        rcases Bool.eq_false_or_eq_true s.fileIntegrityValid with hv | hv
        · simp only [hv, Bool.true_eq_false, if_false] at h
          split at h
          · exact Or.inl h
          · split at h
            · exact Or.inl h
            · rename_i sec ret effects hm
              split_ifs at h with hpass
              · obtain ⟨hd, hn, hg⟩ := measure_pass hf hm hpass
                rw [fillCache] at h
                split_ifs at h
                · rcases setWhitelistCache_slot h with h' | ⟨-, hi, e₀, he⟩
                  · exact Or.inl h'
                  · rw [hn] at hi he hg
                    exact Or.inr ⟨p, _, e₀, rfl, hd, he, hi, hg⟩
                · exact Or.inl h
              · exact Or.inl h
              · exact Or.inl h
              · exact Or.inl h
        · simp only [hv, if_true] at h
          exact Or.inl h
  · rw [if_pos hk] at h
    exact Or.inl h

/-- A slot after a section holds what it held, or what the last section filled in. -/
theorem checkSection_slot {b : Boot} {s : SmeasureState} {c : CheckInput} {pc : CheckPc}
    {i : Fin maxCacheNumber} {e : WhitelistCache} (h : (checkSection b s c pc).1 i = some e) :
    s.cache i = some e ∨ ∃ sec effects e₀, pc = .store sec effects ∧ s.feature.cacheMode ≠ 0 ∧
      c.kzallocSet = true ∧ setSlot b.jhash b.random sec.objName c.stamp = i ∧
        e = fillEntry e₀ sec.objName sec.subHash := by
  cases pc with
  | enter =>
      rw [checkSection] at h
      split_ifs at h
      · exact Or.inl h
      · cases hp : prepareSecDomain c <;> rw [hp] at h <;> exact Or.inl h
      · cases hp : prepareSecDomain c <;> rw [hp] at h <;> exact Or.inl h
  | lookup sec =>
      rw [checkSection] at h
      cases hl : lookCache b s c sec <;> rw [hl] at h <;> exact Or.inl h
  | measure sec =>
      rw [checkSection] at h
      cases hm : measure b s c sec with
      | out o =>
          rw [hm] at h
          exact Or.inl h
      | verdict sec' ret effects =>
          rw [hm] at h
          simp only at h
          split_ifs at h <;> exact Or.inl h
  | store sec effects =>
      rw [checkSection, fillCache] at h
      split_ifs at h with hon
      · rcases setWhitelistCache_slot h with h' | ⟨hk, hi, e₀, he⟩
        · exact Or.inl h'
        · exact Or.inr ⟨sec, effects, e₀, rfl, hon, hk, hi, he⟩
      · exact Or.inl h
  | done o => exact Or.inl h

/-- Only a pass is stored, and one taken from the table is in the table. -/
theorem checkSection_store {b : Boot} {s : SmeasureState} {c : CheckInput} {pc : CheckPc}
    {sec : SecDomain} {effects : List Effect} (h : (checkSection b s c pc).2 = .store sec effects) :
    ∃ sec₀, pc = .measure sec₀ ∧ (FromTable b s.feature →
      getDigest b.jhash b.whitelistHashRandom s.feature.matchMode s.table sec.subHash
        sec.objName = 0) := by
  cases pc with
  | enter =>
      rw [checkSection] at h
      split_ifs at h
      · cases hp : prepareSecDomain c <;> rw [hp] at h <;> cases h
      · cases hp : prepareSecDomain c <;> rw [hp] at h <;> cases h
  | lookup sec₀ =>
      rw [checkSection] at h
      cases hl : lookCache b s c sec₀ <;> rw [hl] at h <;> cases h
  | measure sec₀ =>
      refine ⟨sec₀, rfl, fun hf => ?_⟩
      rw [checkSection] at h
      cases hm : measure b s c sec₀ with
      | out o =>
          rw [hm] at h
          cases h
      | verdict sec' ret effects' =>
          rw [hm] at h
          simp only at h
          split_ifs at h with hpass
          obtain ⟨rfl, -⟩ := CheckPc.store.inj h
          exact (measure_pass hf hm hpass).2.2
  | store sec₀ effects₀ => cases h
  | done o => cases h

end Whitelist
end TsbAgent
