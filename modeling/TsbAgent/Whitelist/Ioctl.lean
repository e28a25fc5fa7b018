/-
# The whitelist commands, and histories of the measure engine

The `ioctl` commands of `tsb/kernel/smeasure/policy/hash_whitelist.c` that change
the whitelist while the engine runs.

| command | cache | table |
| --- | --- | --- |
| `ioctl_whitelist_add_policy` | kept | `whitelist_add` of every record |
| `ioctl_whitelist_del_policy` | cleaned first | `whitelist_del` of every record |
| `ioctl_whitelist_reload_policy` | cleaned first | `load_whitelist` |

All three return `0` whatever happens.  A history is a list of these commands,
updates of the configuration and calls of `whitelist_check`, from the state after
`whitelist_init` and `policy_whitelist_cache_init`; the `load_whitelist` of the
module's start is a reload there, with nothing in the cache.

`file_integrity_valid` is `1` at the start, is cleared by a `load_whitelist` that
finds the digest of the file wrong, and is set again nowhere (`valid_run`).  So a
repaired policy stays without effect (`whitelist_validity_iff`).
-/

import TsbAgent.Lib.Run
import TsbAgent.Whitelist.Check

namespace TsbAgent
namespace Whitelist

open Libc FileIntegrity Run

/-! ### The commands -/

/-- The argument of the add and the delete command, and what copying it meets. -/
structure PolicyParam where
  /-- `copy_from_user` of the `struct tsb_general_policy`. -/
  copied : Bool
  vmalloc : Bool
  /-- `copy_from_user` of the records. -/
  copiedData : Bool
  data : Bytes
  /-- The `kzalloc` of the entries, in their order. -/
  kzalloc : ℕ → Bool

/-- The loop over the records: the pairs that are added or deleted, in their order.  A
path that does not fit in `path[512]` with a terminator is a fault. -/
def policyItems : ℕ → Bytes → Option (List WhitelistDigest)
  | 0, _ => some []
  | fuel + 1, p =>
      if p = [] then some []
      else if p.length < paddedSize p then some []
      else
        let rest := policyItems fuel (p.drop (paddedSize p))
        if memcmp lenHash (itemHash p).1 Digest.zero.1 = 0 then rest
        else if pathLength p < 512 then rest.map (itemEntry p :: ·)
        else none

/-- `whitelist_add` for the operation `1`, `whitelist_del` for any other. -/
def policyOps (operate : ℕ) (kzalloc : ℕ → Bool) (us : List WhitelistDigest) : List WhitelistOp :=
  us.zipIdx.map fun u =>
    if operate = 1 then .add u.1.name u.1.digest (kzalloc u.2) else .del u.1.name u.1.digest

/-- The calls that `whitelist_add_del_policy` makes, and its return value. -/
def policyCalls (operate : ℕ) (p : PolicyParam) : Option (List WhitelistOp × ℤ) :=
  if p.copied = false ∨ p.data = [] then some ([], -1)
  else if p.vmalloc = false then some ([], -1)
  else if p.copiedData = false then some ([], -1)
  else (policyItems p.data.length p.data).map fun us => (policyOps operate p.kzalloc us, 0)

section Commands

variable (b : Boot)

/-- `whitelist_add_del_policy`. -/
def whitelistAddDelPolicy (operate : ℕ) (p : PolicyParam) (w : WhitelistTable) :
    Option (WhitelistTable × ℤ) :=
  (policyCalls operate p).map fun r =>
    (r.1.foldl (whitelistStep b.jhash b.whitelistHashRandom) w, r.2)

/-- `policy_whitelist_cache_clean` on the state. -/
def cleanCache (s : SmeasureState) : SmeasureState :=
  { s with cache := policyWhitelistCacheClean s.cache }

/-- `ioctl_whitelist_add_policy`. -/
def ioctlWhitelistAddPolicy (p : PolicyParam) (s : SmeasureState) : Option SmeasureState :=
  (whitelistAddDelPolicy b 1 p s.table).map fun r => { s with table := r.1 }

/-- `ioctl_whitelist_del_policy`. -/
def ioctlWhitelistDelPolicy (p : PolicyParam) (s : SmeasureState) : Option SmeasureState :=
  (whitelistAddDelPolicy b 2 p s.table).map fun r => { cleanCache s with table := r.1 }

/-- `ioctl_whitelist_reload_policy`. -/
def ioctlWhitelistReloadPolicy (env : LoadEnv) (s : SmeasureState) : Option SmeasureState :=
  (loadWhitelist b.jhash b.whitelistHashRandom env s.toWhitelistState).map fun r =>
    { cleanCache s with toWhitelistState := r.1 }

/-! ### Histories -/

/-- One event in the life of the engine. -/
inductive Event
  | add (p : PolicyParam)
  | del (p : PolicyParam)
  | reload (env : LoadEnv)
  | conf (p : GlobalControlPolicy) (tpcmFeature : UInt32) (validLicense : Bool)
  | check (c : CheckInput)

/-- The state after an event; a fault is `none`. -/
def smeasureStep (s : SmeasureState) : Event → Option SmeasureState
  | .add p => ioctlWhitelistAddPolicy b p s
  | .del p => ioctlWhitelistDelPolicy b p s
  | .reload env => ioctlWhitelistReloadPolicy b env s
  | .conf p tpcmFeature validLicense =>
      some { s with feature := updateWhitelistConf p tpcmFeature validLicense s.feature }
  | .check c => some { s with cache := (whitelistCheck b s c).1 }

end Commands

/-- The state after the module has set up its table and its cache. -/
def smeasureInit : SmeasureState where
  table := whitelistInit
  fileIntegrityValid := true
  feature := ⟨0, 0, 0, 0, 0⟩
  cache := policyWhitelistCacheInit

/-! ### The validity of the policy file -/

/-- A `load_whitelist` that finds the digest of the file wrong, or cannot compute it. -/
def Event.DigestMismatch : Event → Prop
  | .reload env => fileIntegrityCheck env ≠ 0 ∧ fileIntegrityCheck env ≠ 1
  | _ => False

section Validity

variable {b : Boot} {s s' : SmeasureState}

theorem loadWhitelist_valid {jhash : Jhash} {random : UInt32} {env : LoadEnv} {w : WhitelistState}
    {r : WhitelistState × ℤ} (h : loadWhitelist jhash random env w = some r) :
    r.1.fileIntegrityValid = true ↔
      w.fileIntegrityValid = true ∧ ¬ (fileIntegrityCheck env ≠ 0 ∧ fileIntegrityCheck env ≠ 1) := by
  rcases loadWhitelist_cases h with ⟨hok, hs⟩ | ⟨hbad, hs⟩ | ⟨hok, w', -, rfl⟩
  · rw [hs]
    exact (and_iff_left fun hne => hok.elim hne.1 hne.2).symm
  · rw [hs]
    exact ⟨fun hv => absurd hv Bool.false_ne_true, fun hv => absurd hbad hv.2⟩
  · exact (and_iff_left fun hne => hne.1 hok).symm

/-- An event clears `file_integrity_valid` when it is a digest mismatch, and no event
sets it. -/
theorem valid_step {ev : Event} (h : smeasureStep b s ev = some s') :
    s'.fileIntegrityValid = true ↔ s.fileIntegrityValid = true ∧ ¬ ev.DigestMismatch := by
  cases ev with
  | add p =>
      obtain ⟨r, -, rfl⟩ := Option.map_eq_some_iff.mp h
      exact (and_iff_left not_false).symm
  | del p =>
      obtain ⟨r, -, rfl⟩ := Option.map_eq_some_iff.mp h
      exact (and_iff_left not_false).symm
  | reload env =>
      obtain ⟨r, hr, rfl⟩ := Option.map_eq_some_iff.mp h
      exact loadWhitelist_valid hr
  | conf p t v =>
      obtain rfl := Option.some.inj h
      exact (and_iff_left not_false).symm
  | check c =>
      obtain rfl := Option.some.inj h
      exact (and_iff_left not_false).symm

/-- **The flag remembers every mismatch of the history.** -/
theorem valid_run {evs : List Event} (h : run (smeasureStep b) s evs = some s') :
    s'.fileIntegrityValid = true ↔
      s.fileIntegrityValid = true ∧ ∀ ev ∈ evs, ¬ ev.DigestMismatch := by
  induction evs generalizing s with
  | nil =>
      obtain rfl := Option.some.inj h
      simp
  | cons ev evs ih =>
      rw [run_cons] at h
      obtain ⟨s₁, h₁, h₂⟩ := Option.bind_eq_some_iff.mp h
      rw [ih h₂, valid_step h₁, List.forall_mem_cons, and_assoc]

/-- A cleaned cache has no hit. -/
theorem checkWhitelistCache_clean (jhash : Jhash) (random : UInt32) (c : CacheArray)
    (kzalloc : Bool) (f : FileStamp) (path : CStr) :
    checkWhitelistCache jhash random (policyWhitelistCacheClean c) kzalloc f path = none := by
  rw [Option.eq_none_iff_forall_ne_some]
  intro d hd
  obtain ⟨e, he, hflag, -⟩ := checkWhitelistCache_hit hd
  obtain ⟨e₀, -, rfl⟩ := Option.map_eq_some_iff.mp he
  exact absurd hflag (by decide)

theorem lookCache_clean (b : Boot) (s : SmeasureState) (c : CheckInput) (sec : SecDomain) :
    lookCache b (cleanCache s) c sec = none := by
  unfold lookCache
  split_ifs
  · exact checkWhitelistCache_clean ..
  · rfl

/-- After a clean, a check is decided as without a cache. -/
theorem whitelistCheck_clean (b : Boot) (s : SmeasureState) (c : CheckInput) :
    (whitelistCheck b (cleanCache s) c).2 = outcomeWith b s c fun _ => none := by
  rw [whitelistCheck_outcome, funext fun sec => lookCache_clean b s c sec]
  rfl

end Validity

/-- The return value of `whitelist_check` under a configuration. -/
def decision (b : Boot) (s : SmeasureState) (f : WhitelistFeatureConf) (c : CheckInput) : ℤ :=
  (whitelistCheck b { s with feature := f } c).2.ret

/-- The engine as it starts, with a table. -/
def freshState (w : WhitelistTable) : SmeasureState := { smeasureInit with table := w }

/-- A program in a file, of a task without a name. -/
def programInput (path : CStr) (digestCal : Option Digest) : CheckInput where
  kzalloc := true
  fullpath := some path
  taskpath := CStr.empty
  stamp := ⟨⟨0, 0⟩, 0⟩
  digestCal := digestCal
  kzallocCheck := true
  kzallocSet := true
  type := .exec
  wqueue := .none
  pagesRead := true
  tpcmMeasure := (0, 0, Digest.zero)
  tpcmSimple := (0, 0)

/-- Control on, software measure, no cache, match by digest. -/
def controlOn : WhitelistFeatureConf := ⟨1, 1, processMeasureModeSoft, 0, processMeasureMatchHashOnly⟩

/-- With the flag cleared, every program with a name is denied under control. -/
theorem decision_of_invalid {s : SmeasureState} (b : Boot) (hv : s.fileIntegrityValid = false)
    (path : CStr) (d : Option Digest) : decision b s controlOn (programInput path d) = -eacces := by
  rw [decision, whitelistCheck_outcome, outcomeWith]
  simp only [hv, if_true]
  rfl

/-- With the flag set, a program that the table has, or whose digest cannot be
computed, passes. -/
theorem decision_of_listed {s : SmeasureState} (b : Boot) (hv : s.fileIntegrityValid = true)
    {path : CStr} {digestCal : Option Digest}
    (hd : ∀ d, digestCal = some d → getDigest b.jhash b.whitelistHashRandom controlOn.matchMode
      s.table d (objString ⟨[], List.not_mem_nil⟩ path) = 0) :
    decision b s controlOn (programInput path digestCal) = 0 := by
  have hlook : lookCache b { s with feature := controlOn } (programInput path digestCal) =
      fun _ => none := rfl
  have htab : FromTable b controlOn := Or.inr (Or.inl rfl)
  rw [decision, whitelistCheck_outcome, hlook, outcomeWith]
  simp only [hv, Bool.true_eq_false, if_false]
  exact judged_of_listed htab hd

/-- **When the validity of the whitelist follows the current policy.**  After any
history, and a reload that finds the digest of the file right, returns `0` and swaps
in a table: for every configuration and every call, `whitelist_check` decides as a
freshly started engine with that table, if and only if no reload of the history found
the digest of the file wrong. -/
theorem whitelist_validity_iff (b : Boot) (evs : List Event) (env : LoadEnv) (s s' : SmeasureState)
    (hrun : run (smeasureStep b) smeasureInit evs = some s) (hready : env.Ready)
    (hload : smeasureStep b s (.reload env) = some s') :
    (∀ f c, decision b s' f c = decision b (freshState s'.table) f c) ↔
      ∀ ev ∈ evs, ¬ ev.DigestMismatch := by
  have hok : ¬ (Event.reload env).DigestMismatch := fun h => h.1 hready.1
  have hvalid : s'.fileIntegrityValid = true ↔ ∀ ev ∈ evs, ¬ ev.DigestMismatch := by
    rw [valid_step hload, valid_run hrun]
    exact ⟨fun h => h.1.2, fun h => ⟨⟨rfl, h⟩, hok⟩⟩
  rw [← hvalid]
  constructor
  · intro hall
    by_contra hv
    rw [Bool.not_eq_true] at hv
    have hdec := hall controlOn (programInput ⟨[], List.not_mem_nil⟩ none)
    rw [decision_of_invalid b hv, decision_of_listed b rfl fun d hd => absurd hd (by simp)] at hdec
    exact absurd hdec (by decide)
  · intro hv f c
    obtain ⟨⟨⟨w, v⟩, ret⟩, hr, rfl⟩ := Option.map_eq_some_iff.mp hload
    obtain rfl : v = true := hv
    have hclean := whitelistCheck_clean b ⟨⟨w, true⟩, f, s.cache⟩ c
    have hfresh := whitelistCheck_clean b ⟨⟨w, true⟩, f, policyWhitelistCacheInit⟩ c
    exact congrArg CheckOutcome.ret (hclean.trans hfresh.symm)

/-- A reload that cannot be checked, and then one that succeeds: the flag stays set. -/
theorem whitelist_validity_after_unchecked :
    ∃ s', smeasureStep ⟨fun _ _ => 0, 0, 0, false⟩ smeasureInit (.reload (plainEnv [])) = some s' ∧
      ∀ f c, decision ⟨fun _ _ => 0, 0, 0, false⟩ s' f c =
        decision ⟨fun _ _ => 0, 0, 0, false⟩ (freshState s'.table) f c := by
  have hrun : run (smeasureStep ⟨fun _ _ => 0, 0, 0, false⟩) smeasureInit
      [.reload { plainEnv [] with opened := false }] = some smeasureInit := rfl
  refine ⟨_, rfl, (whitelist_validity_iff _ _ _ _ _ hrun (plainEnv_ready []) rfl).mpr ?_⟩
  intro ev hev
  rw [List.mem_singleton.mp hev]
  exact fun h => h.2 rfl

/-- A load of the file that finds another digest than the TPCM's. -/
def mismatchEnv (file : Bytes) : LoadEnv :=
  { plainEnv file with tpcmHash := Digest.ones }

/-- **A repaired policy stays without effect.**  The first load finds the digest of
the file wrong, the second finds it right and loads a table with the program `aaaa`;
the program is denied, and would pass on a freshly started engine. -/
theorem whitelist_invalid_after_repair :
    ¬ ∀ (b : Boot) (evs : List Event) (env : LoadEnv) (s s' : SmeasureState),
      run (smeasureStep b) smeasureInit evs = some s → env.Ready →
      smeasureStep b s (.reload env) = some s' →
        ∀ f c, decision b s' f c = decision b (freshState s'.table) f c := by
  intro hall
  let b : Boot := ⟨fun _ _ => 0, 0, 0, false⟩
  let d : Digest := ⟨List.replicate 32 1, rfl⟩
  let path : CStr := ⟨[97, 97, 97, 97], by decide⟩
  let w : WhitelistTable := (whitelistTmpAdd b.jhash b.whitelistHashRandom whitelistInit path d).1
  have hload : loadTable b.jhash b.whitelistHashRandom (plainEnv (oneRecord 0 4 4)).reads
      (plainEnv (oneRecord 0 4 4)).file = some w := by
    have hits : bufferToItemArray (oneRecord 0 4 4) (oneRecord 0 4 4).length =
        .ok [oneRecord 0 4 4] := by decide
    have hread : readItems [oneRecord 0 4 4] = [oneRecord 0 4 4] := by decide
    change loadTable _ _ _ (oneRecord 0 4 4) = _
    have hitem : itemHash (oneRecord 0 4 4) = d ∧ CStr.ofBytes (itemPath (oneRecord 0 4 4)) = path := by
      decide
    have hzero : ¬ memcmp lenHash d.1 Digest.zero.1 = 0 := by decide
    have hlen : pathLength (oneRecord 0 4 4) < 512 := by decide
    rw [loadTable_eq _ hits, hread, loadItems, loadItem, hitem.1, hitem.2, if_neg hzero, if_pos hlen]
    rfl
  have hrun : run (smeasureStep b) smeasureInit [.reload (mismatchEnv [])] =
      some { smeasureInit with fileIntegrityValid := false } := rfl
  have hstep : smeasureStep b { smeasureInit with fileIntegrityValid := false }
      (.reload (plainEnv (oneRecord 0 4 4))) = some ⟨⟨w, false⟩, smeasureInit.feature,
        smeasureInit.cache⟩ := by
    rw [smeasureStep, ioctlWhitelistReloadPolicy, loadWhitelist_of_ready (plainEnv_ready _), hload]
    rfl
  have hdec := hall b _ _ _ _ hrun (plainEnv_ready _) hstep controlOn (programInput path (some d))
  rw [decision_of_invalid b rfl] at hdec
  have hfound : getDigest b.jhash b.whitelistHashRandom controlOn.matchMode w d
      (objString ⟨[], List.not_mem_nil⟩ path) = 0 := by decide
  rw [decision_of_listed b rfl fun d hd => Option.some.inj hd ▸ hfound] at hdec
  exact absurd hdec (by decide)

end Whitelist
end TsbAgent
