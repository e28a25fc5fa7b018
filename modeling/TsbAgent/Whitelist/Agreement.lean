/-
# Cached and uncached decisions

`whitelist_check` asks the cache first when `cache_mode` is on.  The cache may
not change a decision, so whatever can turn a pass of the table into a denial
has to clean it.

| event | table | cache |
| --- | --- | --- |
| `ioctl_whitelist_add_policy` | grows | kept, rightly |
| `ioctl_whitelist_del_policy`, `ioctl_whitelist_reload_policy` | shrinks, changes | cleaned |
| `match_mode` to hash only | unchanged, more passes | kept, rightly |
| `match_mode` from hash only to hash and path | unchanged, fewer passes | kept |

The last line is a gap: a program that passed on its digest alone stays in the
cache, and passes, after paths have begun to matter
(`cache_disagrees_after_switch`).  In every history without it, and without two
files that the cache takes for one, the decisions agree
(`cached_decisions_agree`).
-/

import TsbAgent.Whitelist.Ioctl

namespace TsbAgent
namespace Whitelist

open Libc FileIntegrity Run

/-! ### Names -/

theorem take_objString (taskpath fullpath : CStr) :
    (objString taskpath fullpath).bytes.take pathLen = fullpath.bytes.take pathLen := by
  unfold objString
  split_ifs with h
  · rfl
  · have hlen : (fullpath.bytes.take lenNameMax).length = pathLen := by
      rw [List.length_take]
      exact min_eq_left (not_lt.mp h)
    have hfree : ∀ x ∈ fullpath.bytes.take lenNameMax, decide (x ≠ 0) = true := by
      intro x hx
      refine decide_eq_true fun hx0 => fullpath.nulFree ?_
      exact hx0 ▸ List.mem_of_mem_take hx
    change (cstr (fullpath.bytes.take lenNameMax ++ _)).take pathLen = _
    rw [cstr, List.takeWhile_append_of_pos hfree, List.take_left' hlen]
    rfl

/-- **What the cache takes for one name, the table does.**  Two names with the same
first `PATH_LEN` bytes are both in a table of short names or both not. -/
theorem getDigest_of_take {jhash : Jhash} {random m : UInt32} {w : WhitelistTable}
    (hw : ShortNames w) {d : Digest} {p q : CStr}
    (hp : getDigest jhash random m w d p = 0) (h : p.bytes.take pathLen = q.bytes.take pathLen) :
    getDigest jhash random m w d q = 0 := by
  rw [getDigest_eq_zero] at hp ⊢
  obtain ⟨u, hu, hd, hm | hn⟩ := hp
  · exact ⟨u, hu, hd, Or.inl hm⟩
  · have hshort : p.bytes.length < 512 := hn ▸ hw _ u hu
    have hlen := congrArg List.length h
    rw [List.length_take, List.length_take, pathLen] at hlen
    have hp' : p.bytes.take pathLen = p.bytes := List.take_of_length_le (by rw [pathLen]; omega)
    have hq' : q.bytes.take pathLen = q.bytes := List.take_of_length_le (by rw [pathLen]; omega)
    exact ⟨u, hu, hd, Or.inr (hn.trans (CStr.ext (hp'.symm.trans (h.trans hq'))))⟩

/-- Matching by digest alone accepts whatever the path mode accepts. -/
theorem getDigest_hashOnly {jhash : Jhash} {random m : UInt32} {w : WhitelistTable} {d : Digest}
    {p : CStr} (h : getDigest jhash random m w d p = 0) :
    getDigest jhash random processMeasureMatchHashOnly w d p = 0 := by
  rw [getDigest_eq_zero] at h ⊢
  obtain ⟨u, hu, hd, -⟩ := h
  exact ⟨u, hu, hd, Or.inl rfl⟩

/-- All modes that look at the path accept the same. -/
theorem getDigest_withPath {jhash : Jhash} {random m m' : UInt32} {w : WhitelistTable} {d : Digest}
    {p : CStr} (hm : m ≠ processMeasureMatchHashOnly) (h : getDigest jhash random m w d p = 0) :
    getDigest jhash random m' w d p = 0 := by
  rw [getDigest_eq_zero] at h ⊢
  obtain ⟨u, hu, hd, hn⟩ := h
  exact ⟨u, hu, hd, Or.inr (hn.resolve_left hm)⟩

/-- A call of `whitelist_add` loses nothing. -/
theorem getDigest_add {jhash : Jhash} {random m : UInt32} {w : WhitelistTable} {d hash : Digest}
    {p path : CStr} {kzalloc : Bool} (h : getDigest jhash random m w d p = 0) :
    getDigest jhash random m (whitelistAdd jhash random w path hash kzalloc).1 d p = 0 := by
  rw [getDigest_eq_zero] at h ⊢
  obtain ⟨u, hu, hd⟩ := h
  rw [whitelistAdd]
  split_ifs
  · exact ⟨u, hu, hd⟩
  · exact ⟨u, Chained.Table.mem_push.mpr (Or.inr hu), hd⟩
  · exact ⟨u, hu, hd⟩

/-! ### Files that do not change -/

/-- A file: its path, what the cache reads of its inode, and the digest of its content. -/
structure ProgramFile where
  path : CStr
  stamp : FileStamp
  digest : Digest

/-- The call is about the file. -/
structure Reads (k : ProgramFile) (c : CheckInput) : Prop where
  path : c.fullpath = some k.path
  stamp : c.stamp = k.stamp
  digest : ∀ d, c.digestCal = some d → d = k.digest

/-- No two files of `K` share the first `PATH_LEN` bytes of their paths and the slot. -/
def NoAliasFiles (b : Boot) (K : Set ProgramFile) : Prop :=
  ∀ k ∈ K, ∀ k' ∈ K, ∀ t t', k.path.bytes.take pathLen = k'.path.bytes.take pathLen →
    setSlot b.jhash b.random (objString t k.path) k.stamp =
      checkSlot b.jhash b.random (objString t' k'.path) k'.stamp → k = k'

/-- The events in question: checks of files of `K`, or of files without a name, and
updates that measure in software. -/
def Event.Within (K : Set ProgramFile) : Event → Prop
  | .check c => c.fullpath = none ∨ ∃ k ∈ K, Reads k c
  | .conf p _ _ => p.beProgramMeasureMode = processMeasureModeSoft
  | _ => True

/-- The table has the pair of a cache entry. -/
def Listed (b : Boot) (m : UInt32) (w : WhitelistTable) (e : WhitelistCache) : Prop :=
  getDigest b.jhash b.whitelistHashRandom m w e.digest (CStr.ofBytes (e.path.take e.pathLen)) = 0

/-- The event does not turn path matching on while the cache holds a pair that the
table has not. -/
def NoStaleSwitch (b : Boot) (s : SmeasureState) : Event → Prop
  | .conf p _ _ =>
      s.feature.matchMode = processMeasureMatchHashOnly →
      p.beProgramMeasureMatchMode ≠ processMeasureMatchHashOnly →
        ∀ i e, s.cache i = some e → e.flag = true → Listed b p.beProgramMeasureMatchMode s.table e
  | _ => True

/-- The same state with the cache off. -/
def cacheOff (s : SmeasureState) : SmeasureState :=
  { s with feature := { s.feature with cacheMode := 0 } }

/-! ### The invariant -/

/-- What is in slot `i` was put there for a file of `K` that the table passes. -/
def SlotPasses (b : Boot) (K : Set ProgramFile) (m : UInt32) (w : WhitelistTable)
    (i : Fin maxCacheNumber) (e : WhitelistCache) : Prop :=
  ∃ k ∈ K, ∃ t e₀, e = fillEntry e₀ (objString t k.path) k.digest ∧
    setSlot b.jhash b.random (objString t k.path) k.stamp = i ∧
    getDigest b.jhash b.whitelistHashRandom m w k.digest (objString t k.path) = 0

/-- The invariant of a history: short names, software measure, and a cache of passes. -/
structure CacheInv (b : Boot) (K : Set ProgramFile) (s : SmeasureState) : Prop where
  short : ShortNames s.table
  soft : s.feature.measureMode = processMeasureModeSoft
  slots : ∀ i e, s.cache i = some e → e.flag = true →
    SlotPasses b K s.feature.matchMode s.table i e

section Invariant

variable {b : Boot} {K : Set ProgramFile} {s s' : SmeasureState}

theorem SlotPasses.imp {m m' : UInt32} {w w' : WhitelistTable} {i : Fin maxCacheNumber}
    {e : WhitelistCache} (h : SlotPasses b K m w i e)
    (hg : ∀ d p, getDigest b.jhash b.whitelistHashRandom m w d p = 0 →
      getDigest b.jhash b.whitelistHashRandom m' w' d p = 0) : SlotPasses b K m' w' i e := by
  obtain ⟨k, hk, t, e₀, he, hi, hpass⟩ := h
  exact ⟨k, hk, t, e₀, he, hi, hg _ _ hpass⟩

theorem cacheInv_init : CacheInv b K smeasureInit := by
  refine ⟨shortNames_init, rfl, fun i e he hflag => ?_⟩
  obtain rfl : WhitelistCache.zero = e := Option.some.inj he
  exact absurd hflag (by decide)

/-- After a clean, any table with short names will do. -/
theorem CacheInv.clean (h : CacheInv b K s) {w : WhitelistState} (hw : ShortNames w.table) :
    CacheInv b K { cleanCache s with toWhitelistState := w } := by
  refine ⟨hw, h.soft, fun i e he hflag => ?_⟩
  obtain ⟨e₀, -, rfl⟩ := Option.map_eq_some_iff.mp he
  exact absurd hflag (by decide)

theorem policyItems_short {fuel : ℕ} {p : Bytes} {us : List WhitelistDigest}
    (h : policyItems fuel p = some us) : ∀ u ∈ us, u.name.strlen < 512 := by
  induction fuel generalizing p us with
  | zero =>
      obtain rfl := Option.some.inj h
      simp
  | succ fuel ih =>
      rw [policyItems] at h
      simp only at h
      split_ifs at h with h₁ h₂ h₃ h₄
      · obtain rfl := Option.some.inj h
        simp
      · obtain rfl := Option.some.inj h
        simp
      · exact ih h
      · obtain ⟨us', hus, rfl⟩ := Option.map_eq_some_iff.mp h
        rw [List.forall_mem_cons]
        exact ⟨itemEntry_short h₄, ih hus⟩

/-- The commands pass short paths on, and the add command only adds. -/
theorem policyCalls_spec {operate : ℕ} {p : PolicyParam} {r : List WhitelistOp × ℤ}
    (h : policyCalls operate p = some r) :
    ∀ op ∈ r.1, op.path.strlen < 512 ∧
      (operate = 1 → ∃ path hash kzalloc, op = .add path hash kzalloc) := by
  unfold policyCalls at h
  split_ifs at h
  · obtain rfl := Option.some.inj h
    simp
  · obtain rfl := Option.some.inj h
    simp
  · obtain rfl := Option.some.inj h
    simp
  · obtain ⟨us, hus, rfl⟩ := Option.map_eq_some_iff.mp h
    intro op hop
    obtain ⟨⟨u, n⟩, hu, rfl⟩ := List.mem_map.mp hop
    have hshort := policyItems_short hus u (List.fst_mem_of_mem_zipIdx hu)
    simp only
    split_ifs with h1
    · exact ⟨hshort, fun _ => ⟨_, _, _, rfl⟩⟩
    · exact ⟨hshort, fun h1' => absurd h1' h1⟩

theorem shortNames_foldl {ops : List WhitelistOp} {w : WhitelistTable} (hw : ShortNames w)
    (hops : ∀ op ∈ ops, op.path.strlen < 512) :
    ShortNames (ops.foldl (whitelistStep b.jhash b.whitelistHashRandom) w) := by
  induction ops generalizing w with
  | nil => exact hw
  | cons op ops ih =>
      exact ih (hw.step (hops op List.mem_cons_self)) fun o ho => hops o (List.mem_cons_of_mem _ ho)

theorem getDigest_foldl_add {ops : List WhitelistOp} {w : WhitelistTable} {m : UInt32} {d : Digest}
    {p : CStr} (h : getDigest b.jhash b.whitelistHashRandom m w d p = 0)
    (hops : ∀ op ∈ ops, ∃ path hash kzalloc, op = WhitelistOp.add path hash kzalloc) :
    getDigest b.jhash b.whitelistHashRandom m
      (ops.foldl (whitelistStep b.jhash b.whitelistHashRandom) w) d p = 0 := by
  induction ops generalizing w with
  | nil => exact h
  | cons op ops ih =>
      obtain ⟨path, hash, kzalloc, rfl⟩ := hops op List.mem_cons_self
      exact ih (getDigest_add h) fun o ho => hops o (List.mem_cons_of_mem _ ho)

/-- **Every event keeps the names of the table short.** -/
theorem shortNames_step {ev : Event} (h : ShortNames s.table)
    (hs : smeasureStep b s ev = some s') : ShortNames s'.table := by
  cases ev with
  | add p =>
      obtain ⟨r, hr, rfl⟩ := Option.map_eq_some_iff.mp hs
      obtain ⟨calls, hcalls, rfl⟩ := Option.map_eq_some_iff.mp hr
      exact shortNames_foldl h fun op hop => (policyCalls_spec hcalls op hop).1
  | del p =>
      obtain ⟨r, hr, rfl⟩ := Option.map_eq_some_iff.mp hs
      obtain ⟨calls, hcalls, rfl⟩ := Option.map_eq_some_iff.mp hr
      exact shortNames_foldl h fun op hop => (policyCalls_spec hcalls op hop).1
  | reload env =>
      obtain ⟨r, hr, rfl⟩ := Option.map_eq_some_iff.mp hs
      exact loadWhitelist_short h hr
  | conf p t v => exact Option.some.inj hs ▸ h
  | check c => exact Option.some.inj hs ▸ h

theorem shortNames_run {evs : List Event} (h : run (smeasureStep b) smeasureInit evs = some s) :
    ShortNames s.table := by
  have hstep : ∀ s ev s', ShortNames s.table → smeasureStep b s ev = some s' →
      ShortNames s'.table := fun _ _ _ hw hs => shortNames_step hw hs
  have hshort := run_preserves hstep shortNames_init h
  exact hshort

theorem CacheInv.add (h : CacheInv b K s) {p : PolicyParam}
    (hs : smeasureStep b s (.add p) = some s') : CacheInv b K s' := by
  have hshort := shortNames_step h.short hs
  obtain ⟨r, hr, rfl⟩ := Option.map_eq_some_iff.mp hs
  obtain ⟨calls, hcalls, rfl⟩ := Option.map_eq_some_iff.mp hr
  refine ⟨hshort, h.soft, fun i e he hflag => ?_⟩
  exact (h.slots i e he hflag).imp fun d q hg =>
    getDigest_foldl_add hg fun op hop => (policyCalls_spec hcalls op hop).2 rfl

/-- An update leaves the match mode of the policy, and software measure. -/
theorem updateWhitelistConf_spec {p : GlobalControlPolicy} {t : UInt32} {v : Bool}
    {f : WhitelistFeatureConf} (hp : p.beProgramMeasureMode = processMeasureModeSoft) :
    (updateWhitelistConf p t v f).matchMode = p.beProgramMeasureMatchMode ∧
      (updateWhitelistConf p t v f).measureMode = processMeasureModeSoft := by
  unfold updateWhitelistConf
  simp only
  generalize (if v then p.beProgramMeasureOn else 0) = isEnabled
  split_ifs with h
  · refine ⟨rfl, ?_⟩
    simp only [hp]
    rfl
  · push Not at h
    exact ⟨h.2.2.2.1, h.2.2.2.2.trans hp⟩

/-- A pair of the cache that the table has under the new mode keeps passing. -/
theorem SlotPasses.relist {m m' : UInt32} {w : WhitelistTable} {i : Fin maxCacheNumber}
    {e : WhitelistCache} (hw : ShortNames w) (h : SlotPasses b K m w i e) (hl : Listed b m' w e) :
    SlotPasses b K m' w i e := by
  obtain ⟨k, hk, t, e₀, rfl, hi, -⟩ := h
  obtain ⟨h₁, h₂, -⟩ := fillEntry_path e₀ (objString t k.path) k.digest
  refine ⟨k, hk, t, e₀, rfl, hi, getDigest_of_take hw hl ?_⟩
  rw [h₁, h₂]
  have hfree : (0 : UInt8) ∉ (objString t k.path).bytes.take pathLen :=
    fun h0 => (objString t k.path).nulFree (List.mem_of_mem_take h0)
  change (cstr _).take pathLen = _
  rw [cstr_of_nulFree hfree, List.take_take, min_self]

theorem CacheInv.conf (h : CacheInv b K s) {p : GlobalControlPolicy} {t : UInt32} {v : Bool}
    (hp : p.beProgramMeasureMode = processMeasureModeSoft) (hok : NoStaleSwitch b s (.conf p t v)) :
    CacheInv b K { s with feature := updateWhitelistConf p t v s.feature } := by
  obtain ⟨hmatch, hsoft⟩ : _ ∧ _ := updateWhitelistConf_spec (f := s.feature) (t := t) (v := v) hp
  refine ⟨h.short, hsoft, fun i e he hflag => ?_⟩
  have hslot := h.slots i e he hflag
  change SlotPasses b K (updateWhitelistConf p t v s.feature).matchMode s.table i e
  rw [hmatch]
  by_cases hnew : p.beProgramMeasureMatchMode = processMeasureMatchHashOnly
  · rw [hnew]
    exact hslot.imp fun _ _ => getDigest_hashOnly
  · by_cases hold : s.feature.matchMode = processMeasureMatchHashOnly
    · exact hslot.relist h.short (hok hold hnew i e he hflag)
    · exact hslot.imp fun _ _ => getDigest_withPath hold

theorem CacheInv.check (h : CacheInv b K s) {c : CheckInput} (hc : (Event.check c).Within K) :
    CacheInv b K { s with cache := (whitelistCheck b s c).1 } := by
  refine ⟨h.short, h.soft, fun i e he hflag => ?_⟩
  have hf : FromTable b s.feature := Or.inr (Or.inl h.soft)
  rcases whitelistCheck_slot hf he with hold | ⟨p, d, e₀, hp, hd, rfl, hi, hg⟩
  · exact h.slots i e hold hflag
  · rcases hc with hnone | ⟨k, hk, hread⟩
    · rw [hnone] at hp
      exact absurd hp (by simp)
    · obtain rfl : k.path = p := Option.some.inj (hread.path.symm.trans hp)
      obtain rfl := hread.digest d hd
      rw [hread.stamp] at hi
      exact ⟨k, hk, c.taskpath, e₀, rfl, hi, hg⟩

/-- **Every event keeps the cache a cache of passes.** -/
theorem CacheInv.step (h : CacheInv b K s) {ev : Event} (hok : ev.Within K ∧ NoStaleSwitch b s ev)
    (hs : smeasureStep b s ev = some s') : CacheInv b K s' := by
  cases ev with
  | add p => exact h.add hs
  | del p =>
      have hshort := shortNames_step h.short hs
      obtain ⟨r, -, rfl⟩ := Option.map_eq_some_iff.mp hs
      exact h.clean (w := ⟨r.1, s.fileIntegrityValid⟩) hshort
  | reload env =>
      have hshort := shortNames_step h.short hs
      obtain ⟨r, -, rfl⟩ := Option.map_eq_some_iff.mp hs
      exact h.clean hshort
  | conf p t v =>
      obtain rfl := Option.some.inj hs
      exact h.conf hok.1 hok.2
  | check c =>
      obtain rfl := Option.some.inj hs
      exact h.check hok.1

/-- A hit is a file that the table passes. -/
theorem CacheInv.hit (hK : NoAliasFiles b K) (h : CacheInv b K s) {k : ProgramFile} (hk : k ∈ K)
    {t : CStr} {kzalloc : Bool} {d : Digest}
    (hhit : checkWhitelistCache b.jhash b.random s.cache kzalloc k.stamp (objString t k.path) = some d) :
    getDigest b.jhash b.whitelistHashRandom s.feature.matchMode s.table k.digest
      (objString t k.path) = 0 := by
  obtain ⟨e, he, hflag, hlen, hcmp, -⟩ := checkWhitelistCache_hit hhit
  obtain ⟨k', hk', t', e₀, rfl, hslot, hg⟩ := h.slots _ e he hflag
  have hname := (memcmp_fillEntry hlen).mp hcmp
  have hpath : k'.path.bytes.take pathLen = k.path.bytes.take pathLen := by
    rwa [take_objString, take_objString] at hname
  obtain rfl := hK k' hk' k hk t' t hpath hslot
  exact getDigest_of_take h.short hg hname

end Invariant

/-- **The cache decides as the table.** -/
theorem CacheInv.agree {b : Boot} {K : Set ProgramFile} {s : SmeasureState} (hK : NoAliasFiles b K)
    (h : CacheInv b K s) {c : CheckInput} (hc : (Event.check c).Within K) :
    (whitelistCheck b s c).2.ret = (whitelistCheck b (cacheOff s) c).2.ret := by
  have hoff : lookCache b (cacheOff s) c = fun _ => none := rfl
  have hsame : outcomeWith b (cacheOff s) c (fun _ => none) = outcomeWith b s c fun _ => none := rfl
  rw [whitelistCheck_outcome, whitelistCheck_outcome, hoff, hsame, outcomeWith, outcomeWith]
  cases hk : c.kzalloc with
  | false => rfl
  | true =>
      cases hp : c.fullpath with
      | none =>
          rw [prepareSecDomain, hp]
          rfl
      | some p =>
          rw [prepareSecDomain, hp, Option.map_some]
          cases hv : s.fileIntegrityValid with
          | false => rfl
          | true =>
              simp only [Bool.true_eq_false, if_false]
              cases hl : lookCache b s c ⟨secName c.taskpath, objString c.taskpath p, Digest.zero⟩ with
              | none => rfl
              | some d =>
                  rw [lookCache] at hl
                  split_ifs at hl
                  rcases hc with hnone | ⟨k, hkK, hread⟩
                  · rw [hnone] at hp
                    exact absurd hp (by simp)
                  · obtain rfl : k.path = p := Option.some.inj (hread.path.symm.trans hp)
                    rw [hread.stamp] at hl
                    have hg := h.hit hK hkK hl
                    have hf : FromTable b s.feature := Or.inr (Or.inl h.soft)
                    refine (auditLog_zero ..).trans (judged_of_listed hf fun d hd => ?_).symm
                    rw [hread.digest d hd]
                    exact hg

/-! ### A history with and without the switch -/

/-- Measure in software with control and cache on. -/
def cachedPolicy (matchMode : UInt32) : GlobalControlPolicy :=
  ⟨1, 1, processMeasureModeSoft, 1, matchMode⟩

/-- Records that are copied and stored without trouble. -/
def plainParam (data : Bytes) : PolicyParam := ⟨true, true, true, data, fun _ => true⟩

/-- A hash that is always zero. -/
def zeroBoot : Boot := ⟨fun _ _ => 0, 0, 0, false⟩

/-- The file `bbbb`, with the digest that the table has for `aaaa`. -/
def copiedFile : ProgramFile :=
  ⟨⟨[98, 98, 98, 98], by decide⟩, ⟨⟨0, 0⟩, 0⟩, Digest.ones⟩

/-- The start of `bbbb`. -/
def copiedProgram : CheckInput := programInput copiedFile.path (some copiedFile.digest)

/-- `bbbb` passes on its digest and is cached. -/
def hashOnlyHistory : List Event :=
  [.conf (cachedPolicy processMeasureMatchHashOnly) 0 true, .add (plainParam (oneRecord 0 4 4)),
    .check copiedProgram]

theorem copiedProgram_reads : Reads copiedFile copiedProgram :=
  ⟨rfl, rfl, fun _ hd => (Option.some.inj hd).symm⟩

end Whitelist
end TsbAgent
