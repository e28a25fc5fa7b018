/-
# Revocation while programs start

The delete and the reload command run while any number of `whitelist_check` calls
run.  Each of them takes the locks it needs one after the other, so they
interleave at the lock sections:

| party | sections |
| --- | --- |
| `whitelist_check` | look in the cache; look in the table; fill the slot |
| `ioctl_whitelist_del_policy` | clean each slot; then `whitelist_del` of each record |
| `ioctl_whitelist_reload_policy` | clean each slot; then swap the table |

The command cleans the cache *before* it changes the table.  A call that has found
its pair in the old table, and fills its slot after the slot was cleaned, leaves
the revoked pair in the cache, and nothing takes it out again
(`revoked_pair_stays_cached`).  `revocation_takes_effect` says that this is the
only way: in every run without such a late store, once the command has returned,
the cache grants a pass only for pairs of the new table.

The run of a command without anything in between is the command of
`TsbAgent.Whitelist.Ioctl` (`ioctlSections_eq`), as the run of a call is
`whitelist_check` (`checkSections_eq`).
-/

import TsbAgent.Whitelist.Agreement
import Mathlib.Order.Fin.Basic

namespace TsbAgent
namespace Whitelist

open Libc Run

/-! ### The command -/

/-- A lock section of a command. -/
inductive IoctlSection
  /-- One turn of `policy_whitelist_cache_clean`. -/
  | clean (i : Fin maxCacheNumber)
  /-- A call on the table. -/
  | call (op : WhitelistOp)
  /-- `file_integrity_valid = 0`. -/
  | invalid
  /-- The swap of the tables. -/
  | swap (w : WhitelistTable)

/-- The section changes the table. -/
def IoctlSection.ChangesTable : IoctlSection → Prop
  | .call _ => True
  | .swap _ => True
  | _ => False

/-- The table after a section. -/
def IoctlSection.table (b : Boot) (w : WhitelistTable) : IoctlSection → WhitelistTable
  | .call op => whitelistStep b.jhash b.whitelistHashRandom w op
  | .swap w' => w'
  | _ => w

/-- The state after a section. -/
def IoctlSection.apply (b : Boot) (s : SmeasureState) : IoctlSection → SmeasureState
  | .clean i => { s with cache := cleanSlot s.cache i }
  | .call op => { s with table := whitelistStep b.jhash b.whitelistHashRandom s.table op }
  | .invalid => { s with fileIntegrityValid := false }
  | .swap w => { s with table := w }

/-- The commands that can take a pair out of the table. -/
inductive Ioctl
  | del (p : PolicyParam)
  | reload (env : LoadEnv)

/-- The sections of `policy_whitelist_cache_clean`. -/
def cleanSections : List IoctlSection := (List.finRange maxCacheNumber).map .clean

/-- The sections of `load_whitelist`. -/
def loadSections (b : Boot) (env : LoadEnv) : Option (List IoctlSection) :=
  let ret := fileIntegrityCheck env
  if ret = 1 then some []
  else if ret ≠ 0 then some [.invalid]
  else if env.reopened = false then some []
  else if env.vmallocBuff = false then some []
  else if env.vmallocTable = false then some []
  else (loadTable b.jhash b.whitelistHashRandom env.reads env.file).map fun w => [.swap w]

/-- The sections of a command, in their order. -/
def ioctlSections (b : Boot) : Ioctl → Option (List IoctlSection)
  | .del p => (policyCalls 2 p).map fun r => cleanSections ++ r.1.map .call
  | .reload env => (loadSections b env).map (cleanSections ++ ·)

/-- The command, run alone. -/
def Ioctl.runAlone (b : Boot) (s : SmeasureState) : Ioctl → Option SmeasureState
  | .del p => ioctlWhitelistDelPolicy b p s
  | .reload env => ioctlWhitelistReloadPolicy b env s

theorem foldl_clean (b : Boot) (is : List (Fin maxCacheNumber)) (s : SmeasureState) :
    (is.map IoctlSection.clean).foldl (IoctlSection.apply b) s =
      { s with cache := fun i => if i ∈ is then (s.cache i).map fun _ => WhitelistCache.zero
                                 else s.cache i } := by
  induction is generalizing s with
  | nil => simp
  | cons i is ih =>
      rw [List.map_cons, List.foldl_cons, ih]
      simp only [IoctlSection.apply, SmeasureState.mk.injEq, true_and]
      funext j
      rcases eq_or_ne j i with rfl | hj
      · cases hc : s.cache j <;> simp [cleanSlot, hc]
      · simp [cleanSlot, hj]

/-- The sections of the clean are the clean. -/
theorem foldl_cleanSections (b : Boot) (s : SmeasureState) :
    cleanSections.foldl (IoctlSection.apply b) s = cleanCache s := by
  rw [cleanSections, foldl_clean]
  simp only [List.mem_finRange, if_true]
  rfl

theorem foldl_calls (b : Boot) (ops : List WhitelistOp) (s : SmeasureState) :
    (ops.map IoctlSection.call).foldl (IoctlSection.apply b) s =
      { s with table := ops.foldl (whitelistStep b.jhash b.whitelistHashRandom) s.table } := by
  induction ops generalizing s with
  | nil => rfl
  | cons op ops ih =>
      rw [List.map_cons, List.foldl_cons, ih]
      rfl

/-- **The sections of a command, run in a row, are the command.** -/
theorem ioctlSections_eq (b : Boot) (io : Ioctl) (s : SmeasureState) :
    (ioctlSections b io).map (fun l => l.foldl (IoctlSection.apply b) s) = io.runAlone b s := by
  cases io with
  | del p =>
      rw [ioctlSections, Ioctl.runAlone, ioctlWhitelistDelPolicy, whitelistAddDelPolicy]
      cases policyCalls 2 p with
      | none => simp only [Option.map_none]
      | some r =>
          simp only [Option.map_some, List.foldl_append, foldl_cleanSections, foldl_calls]
          rfl
  | reload env =>
      rw [ioctlSections, Ioctl.runAlone, ioctlWhitelistReloadPolicy, loadSections, loadWhitelist]
      simp only
      split_ifs
      · simp only [Option.map_some, List.append_nil, foldl_cleanSections, cleanCache]
      · simp only [Option.map_some, List.foldl_append, List.foldl_cons, List.foldl_nil,
          foldl_cleanSections, cleanCache, IoctlSection.apply]
      · simp only [Option.map_some, List.append_nil, foldl_cleanSections, cleanCache]
      · simp only [Option.map_some, List.append_nil, foldl_cleanSections, cleanCache]
      · simp only [Option.map_some, List.append_nil, foldl_cleanSections, cleanCache]
      · cases loadTable b.jhash b.whitelistHashRandom env.reads env.file with
        | none => simp only [Option.map_none]
        | some w =>
            simp only [Option.map_some, List.foldl_append, List.foldl_cons, List.foldl_nil,
              foldl_cleanSections, cleanCache, IoctlSection.apply]

/-! ### Interleavings -/

/-- A call of `whitelist_check` that has begun. -/
structure Thread where
  input : CheckInput
  pc : CheckPc
  /-- What the command had still to do when the call took its verdict. -/
  seen : List IoctlSection

/-- The engine with the command and the calls: what the command has still to do, and
the calls that have begun. -/
structure ConcState where
  shared : SmeasureState
  todo : List IoctlSection
  threads : ℕ → Option Thread

/-- Who moves next. -/
inductive Action
  | start (t : ℕ) (c : CheckInput)
  | check (t : ℕ)
  | ioctl

/-- What a call has seen after a section. -/
def seenAfter (todo : List IoctlSection) (th : Thread) : List IoctlSection :=
  match th.pc with
  | .measure _ => todo
  | _ => th.seen

/-- One section of one party. -/
def concStep (b : Boot) (s : ConcState) : Action → Option ConcState
  | .start t c =>
      match s.threads t with
      | none => some { s with threads := Function.update s.threads t (some ⟨c, .enter, []⟩) }
      | some _ => none
  | .check t =>
      match s.threads t with
      | none => none
      | some th =>
          let r := checkSection b s.shared th.input th.pc
          some
            { s with
              shared := { s.shared with cache := r.1 }
              threads := Function.update s.threads t (some ⟨th.input, r.2, seenAfter s.todo th⟩) }
  | .ioctl =>
      match s.todo with
      | [] => none
      | x :: todo => some { s with shared := x.apply b s.shared, todo := todo }

/-- The command is about to begin, and so is every call. -/
def concInit (s : SmeasureState) (l : List IoctlSection) : ConcState := ⟨s, l, fun _ => none⟩

/-- The table that the command leaves. -/
def finalTable (b : Boot) (s : ConcState) : WhitelistTable :=
  s.todo.foldl (IoctlSection.table b) s.shared.table

/-- The call has taken its verdict from the table after the command's last change of it. -/
def Settled (b : Boot) (s : ConcState) (th : Thread) : Prop :=
  FromTable b s.shared.feature ∧ ∀ x ∈ th.seen, ¬ x.ChangesTable

/-- The table has the pair. -/
def Has (b : Boot) (m : UInt32) (w : WhitelistTable) (d : Digest) (n : CStr) : Prop :=
  getDigest b.jhash b.whitelistHashRandom m w d n = 0

/-- No late store: a call that fills a slot which the command has already cleaned took
its verdict from the table after the last change of it, or fills in a pair that the
table has which the command leaves. -/
def NoLateStore (b : Boot) (s : ConcState) : Action → Prop
  | .check t =>
      ∀ th sec effects, s.threads t = some th → th.pc = .store sec effects →
        s.shared.feature.cacheMode ≠ 0 → th.input.kzallocSet = true →
        .clean (setSlot b.jhash b.random sec.objName th.input.stamp) ∉ s.todo →
          Settled b s th ∨
            Has b s.shared.feature.matchMode (finalTable b s) sec.subHash sec.objName
  | _ => True

/-! ### The invariant -/

/-- What holds along a run, `f` being the configuration and `F` the table that the
command leaves: a slot that has been cleaned holds only passes of `F`, and a settled
call is about to store one. -/
structure RevInv (b : Boot) (f : WhitelistFeatureConf) (F : WhitelistTable) (s : ConcState) :
    Prop where
  conf : s.shared.feature = f
  final : finalTable b s = F
  slots : ∀ i e, .clean i ∉ s.todo → s.shared.cache i = some e → e.flag = true →
    ∃ e₀ n d, e = fillEntry e₀ n d ∧ Has b f.matchMode F d n
  stores : ∀ t th sec effects, s.threads t = some th → th.pc = .store sec effects →
    Settled b s th → Has b f.matchMode F sec.subHash sec.objName

section Invariant

variable {b : Boot} {f : WhitelistFeatureConf} {F : WhitelistTable} {s s' : ConcState}

theorem table_apply (x : IoctlSection) (s : SmeasureState) :
    (x.apply b s).table = x.table b s.table := by
  cases x <;> rfl

theorem feature_apply (x : IoctlSection) (s : SmeasureState) : (x.apply b s).feature = s.feature := by
  cases x <;> rfl

/-- When nothing that remains changes the table, it is final. -/
theorem foldl_table_of_not_changes {l : List IoctlSection} (h : ∀ x ∈ l, ¬ x.ChangesTable)
    (w : WhitelistTable) : l.foldl (IoctlSection.table b) w = w := by
  induction l generalizing w with
  | nil => rfl
  | cons x l ih =>
      have hx : x.table b w = w := by
        cases x with
        | clean i => rfl
        | call op => exact absurd trivial (h _ List.mem_cons_self)
        | invalid => rfl
        | swap w' => exact absurd trivial (h _ List.mem_cons_self)
      rw [List.foldl_cons, hx]
      exact ih (fun y hy => h y (List.mem_cons_of_mem _ hy)) w

/-- A call after an update is the updated one or an old one. -/
theorem update_thread {threads : ℕ → Option Thread} {t u : ℕ} {th th' : Thread}
    (h : Function.update threads t (some th) u = some th') :
    (u = t ∧ th' = th) ∨ threads u = some th' := by
  rcases eq_or_ne u t with rfl | hne
  · rw [Function.update_self] at h
    exact Or.inl ⟨rfl, (Option.some.inj h).symm⟩
  · rw [Function.update_of_ne hne] at h
    exact Or.inr h

theorem RevInv.start (h : RevInv b f F s) {t : ℕ} {c : CheckInput}
    (hs : concStep b s (.start t c) = some s') : RevInv b f F s' := by
  cases ht : s.threads t with
  | some th =>
      rw [concStep, ht] at hs
      cases hs
  | none =>
      rw [concStep, ht] at hs
      obtain rfl := Option.some.inj hs
      refine ⟨h.conf, h.final, h.slots, fun u th sec effects hu hpc => ?_⟩
      rcases update_thread hu with ⟨-, rfl⟩ | hu
      · cases hpc
      · exact h.stores u th sec effects hu hpc

theorem RevInv.ioctl (h : RevInv b f F s) (hs : concStep b s .ioctl = some s') :
    RevInv b f F s' := by
  cases htodo : s.todo with
  | nil =>
      rw [concStep, htodo] at hs
      cases hs
  | cons x todo =>
      rw [concStep, htodo] at hs
      obtain rfl := Option.some.inj hs
      have hfeature := feature_apply (b := b) x s.shared
      refine ⟨hfeature.trans h.conf, ?_, fun i e hi he hflag => ?_,
        fun t th sec effects ht hpc hset => ?_⟩
      · rw [← h.final, finalTable, finalTable, htodo, List.foldl_cons, ← table_apply]
      · by_cases hx : x = .clean i
        · subst hx
          have hzero : cleanSlot s.shared.cache i i = some e := he
          rw [cleanSlot, Function.update_self] at hzero
          obtain ⟨e₀, -, rfl⟩ := Option.map_eq_some_iff.mp hzero
          exact absurd hflag (by decide)
        · have hmem : IoctlSection.clean i ∉ s.todo := by
            rw [htodo, List.mem_cons]
            rintro (rfl | hm)
            · exact hx rfl
            · exact hi hm
          refine h.slots i e hmem ?_ hflag
          cases x with
          | clean j =>
              have hj : i ≠ j := fun hij => hx (hij ▸ rfl)
              have hsame : cleanSlot s.shared.cache j i = some e := he
              rwa [cleanSlot, Function.update_of_ne hj] at hsame
          | call op => exact he
          | invalid => exact he
          | swap w => exact he
      · exact h.stores t th sec effects ht hpc ⟨hfeature ▸ hset.1, hset.2⟩

theorem RevInv.check (h : RevInv b f F s) {t : ℕ} (hok : NoLateStore b s (.check t))
    (hs : concStep b s (.check t) = some s') : RevInv b f F s' := by
  cases ht : s.threads t with
  | none =>
      rw [concStep, ht] at hs
      cases hs
  | some th =>
      rw [concStep, ht] at hs
      obtain rfl := Option.some.inj hs
      refine ⟨h.conf, h.final, fun i e hi he hflag => ?_, fun u th' sec effects hu hpc hset => ?_⟩
      · rcases checkSection_slot he with hold | ⟨sec, effects, e₀, hpc, hon, hkz, hslot, rfl⟩
        · exact h.slots i e hi hold hflag
        · refine ⟨e₀, sec.objName, sec.subHash, rfl, ?_⟩
          rcases hok th sec effects ht hpc hon hkz (hslot ▸ hi) with hset | hhas
          · exact h.stores t th sec effects ht hpc hset
          · rwa [h.conf, h.final] at hhas
      · rcases update_thread hu with ⟨-, rfl⟩ | hu
        · obtain ⟨sec₀, hmeasure, hhas⟩ := checkSection_store hpc
          have hseen : seenAfter s.todo th = s.todo := by rw [seenAfter, hmeasure]
          have hquiet : ∀ x ∈ s.todo, ¬ x.ChangesTable := hseen ▸ hset.2
          have hfinal : s.shared.table = F := by
            rw [← h.final, finalTable, foldl_table_of_not_changes hquiet]
          have hnow := hhas hset.1
          rwa [h.conf, hfinal] at hnow
        · exact h.stores u th' sec effects hu hpc hset

/-- **Every section keeps the invariant**, when no store is late. -/
theorem RevInv.step {a : Action} (h : RevInv b f F s) (hok : NoLateStore b s a)
    (hs : concStep b s a = some s') : RevInv b f F s' := by
  cases a with
  | start t c => exact h.start hs
  | check t => exact h.check hok hs
  | ioctl => exact h.ioctl hs

end Invariant

/-! ### After the command -/

/-- The entry makes `check_whitelist_cache` answer for the name, wherever it is looked up. -/
def Grants (e : WhitelistCache) (n : CStr) : Prop :=
  e.flag = true ∧ e.pathLen = min n.strlen pathLen ∧
    memcmp (min n.strlen pathLen) e.path n.bytes = 0

/-- The sections of a command leave short names. -/
theorem ioctlSections_short {b : Boot} {io : Ioctl} {l : List IoctlSection}
    (h : ioctlSections b io = some l) {s : SmeasureState} (hs : ShortNames s.table) :
    ShortNames (l.foldl (IoctlSection.table b) s.table) := by
  have htable : ∀ (l : List IoctlSection) (s : SmeasureState),
      (l.foldl (IoctlSection.apply b) s).table = l.foldl (IoctlSection.table b) s.table := by
    intro l
    induction l with
    | nil => exact fun _ => rfl
    | cons x l ih =>
        intro s
        rw [List.foldl_cons, List.foldl_cons, ih, table_apply]
  have hrun := ioctlSections_eq b io s
  rw [h, Option.map_some] at hrun
  rw [← htable]
  cases io with
  | del p =>
      have hstep : smeasureStep b s (.del p) = some _ := hrun.symm
      exact shortNames_step hs hstep
  | reload env =>
      have hstep : smeasureStep b s (.reload env) = some _ := hrun.symm
      exact shortNames_step hs hstep

/-- A command cleans every slot. -/
theorem mem_ioctlSections {b : Boot} {io : Ioctl} {l : List IoctlSection}
    (h : ioctlSections b io = some l) (i : Fin maxCacheNumber) : IoctlSection.clean i ∈ l := by
  have hi : IoctlSection.clean i ∈ cleanSections := List.mem_map_of_mem (List.mem_finRange i)
  cases io with
  | del p =>
      obtain ⟨r, -, rfl⟩ := Option.map_eq_some_iff.mp h
      exact List.mem_append_left _ hi
  | reload env =>
      obtain ⟨r, -, rfl⟩ := Option.map_eq_some_iff.mp h
      exact List.mem_append_left _ hi

/-- **Revocation takes effect without a late store.**  From every state that a history
reaches, for every interleaving of the sections of a delete or reload command with
those of any number of calls: if no call fills a slot which the command has already
cleaned with a pair that the new table has not, on a verdict that is older than the
command's last change of the table or was not taken from it, then, once the command
has returned, no entry of the cache grants a pass for a pair that the table has not,
and no lookup hits on one. -/
theorem revocation_takes_effect (b : Boot) (evs : List Event) (s₀ : SmeasureState)
    (hinit : run (smeasureStep b) smeasureInit evs = some s₀) (io : Ioctl) (l : List IoctlSection)
    (hl : ioctlSections b io = some l) (acts : List Action)
    (hok : Meets (concStep b) (NoLateStore b) (concInit s₀ l) acts) (s : ConcState)
    (hrun : run (concStep b) (concInit s₀ l) acts = some s) (hdone : s.todo = []) :
    (∀ i e n, s.shared.cache i = some e → Grants e n →
      Has b s.shared.feature.matchMode s.shared.table e.digest n) ∧
    ∀ c sec d, lookCache b s.shared c sec = some d →
      Has b s.shared.feature.matchMode s.shared.table d sec.objName := by
  have hF : ShortNames (finalTable b (concInit s₀ l)) := ioctlSections_short hl (shortNames_run hinit)
  have hstart : RevInv b s₀.feature (finalTable b (concInit s₀ l)) (concInit s₀ l) := by
    refine ⟨rfl, rfl, fun i e hi => ?_, fun t th sec effects ht => ?_⟩
    · exact absurd (mem_ioctlSections hl i) hi
    · cases ht
  have hinv := run_invariant (fun _ _ _ h hok hs => RevInv.step h hok hs) hstart hok hrun
  have hfinal : finalTable b (concInit s₀ l) = s.shared.table := by
    rw [← hinv.final, finalTable, hdone]
    rfl
  have hgrants : ∀ i e n, s.shared.cache i = some e → Grants e n →
      Has b s.shared.feature.matchMode s.shared.table e.digest n := by
    intro i e n he hgrant
    obtain ⟨hflag, hlen, hcmp⟩ := hgrant
    have hclean : IoctlSection.clean i ∉ s.todo := by
      rw [hdone]
      exact List.not_mem_nil
    obtain ⟨e₀, m, d, rfl, hhas⟩ := hinv.slots i e hclean he hflag
    rw [hinv.conf, ← hfinal]
    exact getDigest_of_take hF hhas ((memcmp_fillEntry hlen).mp hcmp)
  refine ⟨hgrants, fun c sec d hd => ?_⟩
  rw [lookCache] at hd
  split_ifs at hd
  obtain ⟨e, he, hflag, hlen, hcmp, rfl⟩ := checkWhitelistCache_hit hd
  exact hgrants _ e sec.objName he ⟨hflag, hlen, hcmp⟩

/-! ### A late store -/

/-- The command, left alone, runs to its end. -/
theorem run_ioctl (b : Boot) (s : ConcState) :
    run (concStep b) s (List.replicate s.todo.length .ioctl) =
      some ⟨s.todo.foldl (IoctlSection.apply b) s.shared, [], s.threads⟩ := by
  obtain ⟨shared, todo, threads⟩ := s
  induction todo generalizing shared with
  | nil => rfl
  | cons x todo ih => exact ih (x.apply b shared)

/-- A call that misses the cache and passes comes to its store. -/
theorem run_to_store {b : Boot} {s : SmeasureState} {c : CheckInput} {sec sec' : SecDomain}
    {effects : List Effect} (hk : c.kzalloc = true) (hp : prepareSecDomain c = some sec)
    (hv : s.fileIntegrityValid = true) (hlook : lookCache b s c sec = none)
    (hm : measure b s c sec = .verdict sec' dcPass effects) (l : List IoctlSection) :
    run (concStep b) (concInit s l) [.start 0 c, .check 0, .check 0, .check 0] =
      some ⟨s, l, Function.update (fun _ => none) 0
        (some ⟨c, .store sec' (setProcessMsg c sec' effects), l⟩)⟩ := by
  have h₁ : checkSection b s c .enter = (s.cache, .lookup sec) := by simp [checkSection, hk, hp, hv]
  have h₂ : checkSection b s c (.lookup sec) = (s.cache, .measure sec) := by simp [checkSection, hlook]
  have h₃ : checkSection b s c (.measure sec) =
      (s.cache, .store sec' (setProcessMsg c sec' effects)) := by simp [checkSection, hm]
  simp [run, concStep, concInit, h₁, h₂, h₃, seenAfter]

/-- The schedule of a late store: the call comes to its store, the command runs to its
end, the call stores. -/
theorem run_late_store {b : Boot} {s : SmeasureState} {c : CheckInput} {sec sec' : SecDomain}
    {effects : List Effect} (hk : c.kzalloc = true) (hp : prepareSecDomain c = some sec)
    (hv : s.fileIntegrityValid = true) (hlook : lookCache b s c sec = none)
    (hm : measure b s c sec = .verdict sec' dcPass effects) (l : List IoctlSection) :
    ∃ s', run (concStep b) (concInit s l) ([.start 0 c, .check 0, .check 0, .check 0] ++
        (List.replicate l.length .ioctl ++ [.check 0])) = some s' ∧ s'.todo = [] ∧
      s'.shared = { l.foldl (IoctlSection.apply b) s with
        cache := fillCache b (l.foldl (IoctlSection.apply b) s) c sec' } := by
  have hcommand := run_ioctl b ⟨s, l, Function.update (fun _ => none) 0
    (some ⟨c, .store sec' (setProcessMsg c sec' effects), l⟩)⟩
  rw [run_append, run_to_store hk hp hv hlook hm l, Option.bind_some, run_append, hcommand,
    Option.bind_some]
  exact ⟨_, rfl, rfl, rfl⟩

/-- The program `aaaa`. -/
def listedName : CStr := ⟨[97, 97, 97, 97], by decide⟩

/-- The digest of `aaaa`, as the record has it. -/
def listedDigest : Digest := Digest.ones

/-- The start of `aaaa`. -/
def listedProgram : CheckInput := programInput listedName (some listedDigest)

/-- `aaaa` is put on the list. -/
def listedHistory : List Event :=
  [.conf (cachedPolicy processMeasureMatchHashOnly) 0 true, .add (plainParam (oneRecord 0 4 4))]

/-- The state with `aaaa` on the list. -/
def listedState : SmeasureState where
  table := (whitelistAdd zeroBoot.jhash zeroBoot.whitelistHashRandom whitelistInit listedName
    listedDigest true).1
  fileIntegrityValid := true
  feature := ⟨1, 1, processMeasureModeSoft, 1, processMeasureMatchHashOnly⟩
  cache := policyWhitelistCacheInit

/-- The state after `aaaa` has been taken off the list. -/
def revokedState : SmeasureState :=
  { cleanCache listedState with
    table := (whitelistDel zeroBoot.jhash zeroBoot.whitelistHashRandom listedState.table listedName
      listedDigest).1 }

/-- `aaaa` in the `struct sec_domain`, with a digest or none yet. -/
def listedSec (d : Digest) : SecDomain := ⟨CStr.empty, listedName, d⟩

theorem policyCalls_oneRecord (operate : ℕ) : policyCalls operate (plainParam (oneRecord 0 4 4)) =
    some (policyOps operate (fun _ => true) [⟨listedDigest, listedName⟩], 0) := by
  have hitems : policyItems (plainParam (oneRecord 0 4 4)).data.length
      (plainParam (oneRecord 0 4 4)).data = some [⟨listedDigest, listedName⟩] := by decide +kernel
  rw [policyCalls, hitems]
  rfl

theorem run_listedHistory :
    run (smeasureStep zeroBoot) smeasureInit listedHistory = some listedState := by
  rw [listedHistory, run_cons, smeasureStep, Option.bind_some, run_cons, smeasureStep,
    ioctlWhitelistAddPolicy, whitelistAddDelPolicy, policyCalls_oneRecord]
  rfl

/-- The command that takes `aaaa` off the list, and what it leaves. -/
theorem ioctlSections_oneRecord :
    ∃ l, ioctlSections zeroBoot (.del (plainParam (oneRecord 0 4 4))) = some l ∧
      l.foldl (IoctlSection.apply zeroBoot) listedState = revokedState := by
  have halone : (Ioctl.del (plainParam (oneRecord 0 4 4))).runAlone zeroBoot listedState =
      some revokedState := by
    rw [Ioctl.runAlone, ioctlWhitelistDelPolicy, whitelistAddDelPolicy, policyCalls_oneRecord]
    rfl
  rw [← ioctlSections_eq] at halone
  exact Option.map_eq_some_iff.mp halone

/-- The command alone, with a call that has only begun. -/
theorem revocation_takes_effect_alone :
    ∃ l s, ioctlSections zeroBoot (.del (plainParam (oneRecord 0 4 4))) = some l ∧
      run (concStep zeroBoot) (concInit listedState l)
        (.start 0 listedProgram :: List.replicate l.length .ioctl) = some s ∧
      ∀ i e n, s.shared.cache i = some e → Grants e n →
        Has zeroBoot s.shared.feature.matchMode s.shared.table e.digest n := by
  obtain ⟨l, hl, -⟩ := ioctlSections_oneRecord
  have hrun : run (concStep zeroBoot) (concInit listedState l)
      (.start 0 listedProgram :: List.replicate l.length .ioctl) = some _ :=
    run_ioctl zeroBoot ⟨listedState, l, Function.update (fun _ => none) 0
      (some ⟨listedProgram, .enter, []⟩)⟩
  refine ⟨l, _, hl, hrun, (revocation_takes_effect zeroBoot listedHistory listedState
    run_listedHistory _ l hl _ (meets_of_forall fun a ha s => ?_) _ hrun rfl).1⟩
  rcases List.mem_cons.mp ha with rfl | ha
  · trivial
  · rw [List.eq_of_mem_replicate ha]
    trivial

/-- **A revoked pair stays in the cache.**  A call has found `aaaa` in the table; the
delete command cleans the cache and takes `aaaa` off the list; the call fills its
slot.  The command has returned, the table is empty, and the cache grants `aaaa`. -/
theorem revoked_pair_stays_cached :
    ¬ ∀ (b : Boot) (evs : List Event) (s₀ : SmeasureState),
      run (smeasureStep b) smeasureInit evs = some s₀ →
      ∀ (io : Ioctl) (l : List IoctlSection), ioctlSections b io = some l →
      ∀ (acts : List Action) (s : ConcState),
      run (concStep b) (concInit s₀ l) acts = some s → s.todo = [] →
        (∀ i e n, s.shared.cache i = some e → Grants e n →
          Has b s.shared.feature.matchMode s.shared.table e.digest n) ∧
        ∀ c sec d, lookCache b s.shared c sec = some d →
          Has b s.shared.feature.matchMode s.shared.table d sec.objName := by
  intro hall
  obtain ⟨l, hl, hfold⟩ := ioctlSections_oneRecord
  have hfound : getDigest zeroBoot.jhash zeroBoot.whitelistHashRandom listedState.feature.matchMode
      listedState.table listedDigest listedName = 0 := by decide +kernel
  have hlook : lookCache zeroBoot listedState listedProgram (listedSec Digest.zero) = none := by
    decide +kernel
  have hmeasure : measure zeroBoot listedState listedProgram (listedSec Digest.zero) =
      .verdict (listedSec listedDigest) dcPass [] := by
    have hf : FromTable zeroBoot listedState.feature := Or.inr (Or.inl rfl)
    rw [measure, if_pos hf]
    simp [digestCheck, listedProgram, programInput, listedSec, hfound]
  obtain ⟨s, hrun, hdone, hshared⟩ := run_late_store rfl rfl rfl hlook hmeasure l
  obtain ⟨-, hhits⟩ := hall zeroBoot listedHistory listedState run_listedHistory _ l hl _ s hrun hdone
  rw [hfold] at hshared
  have hhit : lookCache zeroBoot s.shared listedProgram (listedSec listedDigest) =
      some listedDigest := by
    rw [hshared]
    decide +kernel
  have hhas := hhits _ _ _ hhit
  rw [hshared] at hhas
  have hgone : getDigest zeroBoot.jhash zeroBoot.whitelistHashRandom revokedState.feature.matchMode
      revokedState.table listedDigest listedName ≠ 0 := by decide +kernel
  exact hgone hhas

end Whitelist
end TsbAgent
