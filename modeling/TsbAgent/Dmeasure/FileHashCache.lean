/-
# The cache of file digests

`tsb/kernel/dmeasure/task/file_hash_cache.c` and its two users in `task.c`
(`add_tmp_mem_map`, `collect_existed_task_info`): a process that starts is looked
up by the digest of its file, and the digest is kept with the path, the
modification time and the size.

| step of a caller | what it reads of the file |
| --- | --- |
| `check_file_hash_cache` | modification time and size |
| `calc_hash_from_file` | the size, then the content page by page |
| `set_file_hash_cache` | modification time and size **again** |

Between the second step and the third the file may change: the old digest is then
kept with the new time.  The other slip is that of the whitelist cache
(`TsbAgent.Whitelist.Cache`): the slot is set for the whole path and looked up for
its first `PATH_LEN` bytes, and only these are compared.

`hits_true_iff_apart` says that there are no others: as long as no file is
modified while its digest is on its way, every hit is the digest of the file at its
present time and size exactly when no two of the paths agree in their first
`PATH_LEN` bytes and meet in a slot.
-/

import TsbAgent.Lib.Run
import TsbAgent.Whitelist.Cache

namespace TsbAgent
namespace Dmeasure

open Libc Run Whitelist

/-- `PAGE_SIZE`. -/
def pageSize : ℕ := 4096

/-- A file at a moment. -/
structure FileVersion where
  content : Bytes
  mtime : Timespec
deriving DecidableEq

/-- `i_mtime` and `i_size_read`. -/
def FileVersion.stamp (v : FileVersion) : FileStamp := ⟨v.mtime, UInt64.ofNat v.content.length⟩

/-- `struct whitelist_cache` of this file, which does fill `file_mtime` and `file_size`. -/
structure FileHashEntry extends WhitelistCache where
  stamp : FileStamp

/-- `w_cache.wc`. -/
abbrev FileHashArray := Fin maxCacheNumber → Option FileHashEntry

/-- `file_hash_cache_init`. -/
def fileHashCacheInit : FileHashArray := fun _ => some ⟨WhitelistCache.zero, ⟨0, 0⟩, 0⟩

section Functions

variable (jhash : Jhash) (random : UInt32)

/-- The slot `check_file_hash_cache` reads. -/
def lookupSlot (path : CStr) : Fin maxCacheNumber :=
  cacheHashKey jhash random (path.bytes.take (min path.strlen pathLen))

/-- The slot `set_file_hash_cache` writes. -/
def fillSlot (path : CStr) : Fin maxCacheNumber := cacheHashKey jhash random path.bytes

/-- `check_file_hash_cache`. -/
def checkFileHashCache (c : FileHashArray) (f : FileStamp) (path : CStr) : Option Digest :=
  let len := min path.strlen pathLen
  match c (lookupSlot jhash random path) with
  | none => none
  | some e =>
      if e.flag = false ∨ e.pathLen ≠ len ∨ memcmp len e.path path.bytes ≠ 0 ∨ e.stamp ≠ f then none
      else some e.digest

/-- `set_file_hash_cache`. -/
def setFileHashCache (c : FileHashArray) (f : FileStamp) (path : CStr) (digest : Digest) : FileHashArray :=
  match c (fillSlot jhash random path) with
  | none => c
  | some e =>
      Function.update c (fillSlot jhash random path) (some ⟨fillEntry e.toWhitelistCache path digest, f⟩)

end Functions

/-! ### The callers -/

/-- Where a caller stands between its check and its set. -/
inductive Caller
  | idle
  | missed (path : CStr)
  /-- In the loop of `calc_hash_from_file`: `i_size`, and what `sm3_update` has taken. -/
  | reading (path : CStr) (iSize : ℕ) (done : Bytes)
  | calculated (path : CStr) (digest : Digest)

/-- The files, the cache and the callers; `history` are the versions each file has had. -/
structure CacheState where
  cache : FileHashArray
  files : CStr → FileVersion
  history : CStr → List FileVersion
  callers : ℕ → Caller

/-- What happens next. -/
inductive CacheEvent
  | modify (path : CStr) (v : FileVersion)
  | check (t : ℕ) (path : CStr)
  | start (t : ℕ)
  | read (t n : ℕ)
  /-- The end of the loop; `junk` is what an uninitialised `ret` makes of an unfinished digest. -/
  | finish (t : ℕ) (junk : Option Digest)
  | fail (t : ℕ)
  | set (t : ℕ)

/-- Caller `t` goes on. -/
def CacheState.goesOn (s : CacheState) (t : ℕ) (c : Caller) : CacheState :=
  { s with callers := Function.update s.callers t c }

/-- The start: an empty cache over given files. -/
def CacheState.init (files : CStr → FileVersion) : CacheState :=
  ⟨fileHashCacheInit, files, fun p => [files p], fun _ => .idle⟩

section Steps

variable (jhash : Jhash) (random : UInt32) (sm3 : Bytes → Digest)

/-- One step; a modification changes the modification time or the size. -/
def cacheEventStep (s : CacheState) : CacheEvent → Option CacheState
  | .modify path v =>
      if v.stamp ≠ (s.files path).stamp then
        some { s with
          files := Function.update s.files path v
          history := Function.update s.history path (v :: s.history path) }
      else none
  | .check t path =>
      match s.callers t with
      | .idle =>
          match checkFileHashCache jhash random s.cache (s.files path).stamp path with
          | some _ => some s
          | none => some (s.goesOn t (.missed path))
      | _ => none
  | .start t =>
      match s.callers t with
      | .missed path => some (s.goesOn t (.reading path (s.files path).content.length []))
      | _ => none
  | .read t n =>
      match s.callers t with
      | .reading path iSize done =>
          -- `kernel_read` gives at least one and at most a page of the bytes that are there
          if done.length < iSize ∧ 0 < n ∧ n ≤ pageSize ∧ done.length + n ≤ (s.files path).content.length then
            some (s.goesOn t (.reading path iSize (done ++ ((s.files path).content.drop done.length).take n)))
          else none
      | _ => none
  | .finish t junk =>
      match s.callers t with
      | .reading path iSize done =>
          if done.length < iSize ∧ done.length < (s.files path).content.length then none
          else if done.length = iSize then some (s.goesOn t (.calculated path (sm3 done)))
          else
            match junk with
            | none => some (s.goesOn t .idle)
            | some d => some (s.goesOn t (.calculated path d))
      | _ => none
  | .fail t =>
      match s.callers t with
      | .missed _ => some (s.goesOn t .idle)
      | .reading _ _ _ => some (s.goesOn t .idle)
      | _ => none
  | .set t =>
      match s.callers t with
      | .calculated path d =>
          some { s with
            cache := setFileHashCache jhash random s.cache (s.files path).stamp path d
            callers := Function.update s.callers t .idle }
      | _ => none

end Steps

/-! ### What the cache holds -/

section Truth

variable {jhash : Jhash} {random : UInt32} {sm3 : Bytes → Digest} {paths : Set CStr}

/-- A digest of the file is on its way to the cache. -/
def Caller.OnItsWay (path : CStr) : Caller → Prop
  | .reading p _ _ => p = path
  | .calculated p _ => p = path
  | _ => False

/-- The paths looked up are of `paths`, and no file is modified while its digest is on its way. -/
def CacheEvent.Quiet (paths : Set CStr) (s : CacheState) : CacheEvent → Prop
  | .modify path _ => ∀ t, ¬ (s.callers t).OnItsWay path
  | .check _ path => path ∈ paths
  | _ => True

/-- No two paths agree in their first `PATH_LEN` bytes and meet in a slot. -/
def Apart (jhash : Jhash) (random : UInt32) (paths : Set CStr) : Prop :=
  ∀ p ∈ paths, ∀ q ∈ paths, p.bytes.take pathLen = q.bytes.take pathLen →
    fillSlot jhash random p = lookupSlot jhash random q → p = q

/-- The digest is one of the file at a moment when it had the modification time and the size. -/
def DigestOf (sm3 : Bytes → Digest) (s : CacheState) (path : CStr) (f : FileStamp) (d : Digest) : Prop :=
  ∃ v ∈ s.history path, v.stamp = f ∧ d = sm3 v.content

/-- What a hit returns is the digest of the file at its present modification time and size. -/
def HitTrue (jhash : Jhash) (random : UInt32) (sm3 : Bytes → Digest) (s : CacheState) (path : CStr) : Prop :=
  ∀ d, checkFileHashCache jhash random s.cache (s.files path).stamp path = some d →
    DigestOf sm3 s path (s.files path).stamp d

/-- The slot was filled for one of the paths, with a digest and a stamp of one moment. -/
def SlotTrue (jhash : Jhash) (random : UInt32) (sm3 : Bytes → Digest) (paths : Set CStr) (s : CacheState)
    (i : Fin maxCacheNumber) (e : FileHashEntry) : Prop :=
  ∃ p ∈ paths, fillSlot jhash random p = i ∧ (∃ e₀, e.toWhitelistCache = fillEntry e₀ p e.digest) ∧
    DigestOf sm3 s p e.stamp e.digest

/-- What a caller holds is of the file as it is now. -/
def Caller.Fresh (sm3 : Bytes → Digest) (paths : Set CStr) (files : CStr → FileVersion) : Caller → Prop
  | .idle => True
  | .missed p => p ∈ paths
  | .reading p iSize done =>
      p ∈ paths ∧ iSize = (files p).content.length ∧ done <+: (files p).content
  | .calculated p d => p ∈ paths ∧ d = sm3 (files p).content

/-- The invariant. -/
structure CacheInv (jhash : Jhash) (random : UInt32) (sm3 : Bytes → Digest) (paths : Set CStr)
    (s : CacheState) : Prop where
  slots : ∀ i e, s.cache i = some e → e.flag = true → SlotTrue jhash random sm3 paths s i e
  present : ∀ p, s.files p ∈ s.history p
  callers : ∀ t, (s.callers t).Fresh sm3 paths s.files

theorem cacheInv_init (files : CStr → FileVersion) :
    CacheInv jhash random sm3 paths (CacheState.init files) := by
  refine ⟨fun i e he hf => ?_, fun p => List.mem_singleton_self _, fun t => trivial⟩
  obtain rfl := Option.some.inj he
  exact absurd hf Bool.false_ne_true

/-- A caller that goes on with something fresh keeps the invariant. -/
theorem CacheInv.goesOn {s : CacheState} (h : CacheInv jhash random sm3 paths s) {t : ℕ} {c : Caller}
    (hc : c.Fresh sm3 paths s.files) : CacheInv jhash random sm3 paths (s.goesOn t c) := by
  refine ⟨h.slots, h.present, fun t' => ?_⟩
  by_cases ht : t' = t
  · subst ht
    simpa [CacheState.goesOn] using hc
  · simpa [CacheState.goesOn, ht] using h.callers t'

/-- A caller that is not on its way with the file does not see that it changes. -/
theorem Caller.Fresh.update {files : CStr → FileVersion} {c : Caller} {path : CStr} {v : FileVersion}
    (h : c.Fresh sm3 paths files) (hc : ¬ c.OnItsWay path) :
    c.Fresh sm3 paths (Function.update files path v) := by
  cases c with
  | idle => trivial
  | missed p => exact h
  | reading p iSize done =>
      have hp : p ≠ path := hc
      simpa [Caller.Fresh, hp] using h
  | calculated p d =>
      have hp : p ≠ path := hc
      simpa [Caller.Fresh, hp] using h

theorem CacheInv.modify {s : CacheState} (h : CacheInv jhash random sm3 paths s) {path : CStr}
    {v : FileVersion} (hq : ∀ t, ¬ (s.callers t).OnItsWay path) :
    CacheInv jhash random sm3 paths { s with
      files := Function.update s.files path v
      history := Function.update s.history path (v :: s.history path) } := by
  have hgrow : ∀ p w, w ∈ s.history p → w ∈ Function.update s.history path (v :: s.history path) p := by
    intro p w hw
    by_cases hp : p = path
    · subst hp
      simp [hw]
    · simpa [hp] using hw
  refine ⟨fun i e he hf => ?_, fun p => ?_, fun t => (h.callers t).update (hq t)⟩
  · obtain ⟨p, hp, hslot, hfill, w, hw, hd⟩ := h.slots i e he hf
    exact ⟨p, hp, hslot, hfill, w, hgrow p w hw, hd⟩
  · by_cases hp : p = path
    · subst hp
      simp
    · simpa [hp] using h.present p

theorem CacheInv.set {s : CacheState} (h : CacheInv jhash random sm3 paths s) {t : ℕ} {path : CStr}
    (hp : path ∈ paths) : CacheInv jhash random sm3 paths { s with
      cache := setFileHashCache jhash random s.cache (s.files path).stamp path (sm3 (s.files path).content)
      callers := Function.update s.callers t .idle } := by
  refine ⟨fun i e he hf => ?_, h.present, fun t' => ?_⟩
  · simp only [setFileHashCache] at he
    cases hc : s.cache (fillSlot jhash random path) with
    | none =>
        rw [hc] at he
        exact h.slots i e he hf
    | some e₀ =>
        rw [hc] at he
        by_cases hi : i = fillSlot jhash random path
        · subst hi
          simp only [Function.update_self, Option.some.injEq] at he
          subst he
          exact ⟨path, hp, rfl, ⟨_, rfl⟩, s.files path, h.present path, rfl, rfl⟩
        · simp only [Function.update_of_ne hi] at he
          exact h.slots i e he hf
  · by_cases ht : t' = t
    · subst ht
      simp [Caller.Fresh]
    · simpa [ht] using h.callers t'

/-- **One quiet step keeps the invariant.** -/
theorem cacheInv_step (s : CacheState) (a : CacheEvent) (s' : CacheState)
    (h : CacheInv jhash random sm3 paths s) (hq : a.Quiet paths s)
    (hs : cacheEventStep jhash random sm3 s a = some s') : CacheInv jhash random sm3 paths s' := by
  cases a with
  | modify path v =>
      simp only [cacheEventStep] at hs
      split_ifs at hs
      obtain rfl := Option.some.inj hs
      exact h.modify hq
  | check t path =>
      simp only [cacheEventStep] at hs
      split at hs
      · split at hs
        · obtain rfl := Option.some.inj hs
          exact h
        · obtain rfl := Option.some.inj hs
          exact h.goesOn hq
      · cases hs
  | start t =>
      simp only [cacheEventStep] at hs
      split at hs
      · rename_i path hc
        obtain rfl := Option.some.inj hs
        have hp : (Caller.missed path).Fresh sm3 paths s.files := by simpa [hc] using h.callers t
        exact h.goesOn ⟨hp, rfl, List.nil_prefix⟩
      · cases hs
  | read t n =>
      simp only [cacheEventStep] at hs
      split at hs
      · rename_i path iSize done hc
        split_ifs at hs
        obtain rfl := Option.some.inj hs
        obtain ⟨hp, hsize, rest, hrest⟩ : (Caller.reading path iSize done).Fresh sm3 paths s.files := by
          simpa [hc] using h.callers t
        refine h.goesOn ⟨hp, hsize, rest.drop n, ?_⟩
        rw [← hrest, List.drop_left, List.append_assoc, List.take_append_drop]
      · cases hs
  | finish t junk =>
      simp only [cacheEventStep] at hs
      split at hs
      · rename_i path iSize done hc
        obtain ⟨hp, hsize, hpre⟩ : (Caller.reading path iSize done).Fresh sm3 paths s.files := by
          simpa [hc] using h.callers t
        have hle := hpre.length_le
        split_ifs at hs with hexit hfull
        · obtain rfl := Option.some.inj hs
          have hdone : done = (s.files path).content := hpre.eq_of_length (hfull.trans hsize)
          exact h.goesOn ⟨hp, by rw [hdone]⟩
        · -- the loop only ends early when the file has shrunk
          omega
      · cases hs
  | fail t =>
      simp only [cacheEventStep] at hs
      split at hs
      · obtain rfl := Option.some.inj hs
        exact h.goesOn trivial
      · obtain rfl := Option.some.inj hs
        exact h.goesOn trivial
      · cases hs
  | set t =>
      simp only [cacheEventStep] at hs
      split at hs
      · rename_i path d hc
        obtain ⟨hp, rfl⟩ : (Caller.calculated path d).Fresh sm3 paths s.files := by
          simpa [hc] using h.callers t
        obtain rfl := Option.some.inj hs
        exact h.set hp
      · cases hs

/-! ### Hits -/

/-- A hit returns the digest of a slot filled for the same clamped path and the same stamp. -/
theorem checkFileHashCache_hit {c : FileHashArray} {f : FileStamp} {path : CStr} {d : Digest}
    (h : checkFileHashCache jhash random c f path = some d) :
    ∃ e, c (lookupSlot jhash random path) = some e ∧ e.flag = true ∧ e.pathLen = min path.strlen pathLen ∧
      memcmp (min path.strlen pathLen) e.path path.bytes = 0 ∧ e.stamp = f ∧ e.digest = d := by
  unfold checkFileHashCache at h
  cases hc : c (lookupSlot jhash random path) with
  | none =>
      rw [hc] at h
      exact absurd h (by simp)
  | some e =>
      rw [hc] at h
      simp only at h
      split_ifs at h with hmiss
      simp only [not_or, Bool.not_eq_false, ne_eq, not_not] at hmiss
      exact ⟨e, rfl, hmiss.1, hmiss.2.1, hmiss.2.2.1, hmiss.2.2.2, Option.some.inj h⟩

theorem hitTrue_of_inv {s : CacheState} (h : CacheInv jhash random sm3 paths s)
    (hapart : Apart jhash random paths) {q : CStr} (hq : q ∈ paths) : HitTrue jhash random sm3 s q := by
  intro d hhit
  obtain ⟨e, he, hflag, hlen, hcmp, hstamp, rfl⟩ := checkFileHashCache_hit hhit
  obtain ⟨p, hp, hslot, ⟨e₀, hfill⟩, hdig⟩ := h.slots _ e he hflag
  rw [hfill] at hlen hcmp
  have hpre : p.bytes.take pathLen = q.bytes.take pathLen := (memcmp_fillEntry hlen).mp hcmp
  obtain rfl := hapart p hp q hq hpre hslot
  rwa [hstamp] at hdig

/-- A path just set is found by another with the same first bytes and the same slot. -/
theorem checkFileHashCache_set_init {p q : CStr} {f : FileStamp} {d : Digest}
    (hp : p.bytes.take pathLen = q.bytes.take pathLen)
    (hslot : fillSlot jhash random p = lookupSlot jhash random q) :
    checkFileHashCache jhash random (setFileHashCache jhash random fileHashCacheInit f p d) f q =
      some d := by
  have hlen : min p.strlen pathLen = min q.strlen pathLen := by
    have h := congrArg List.length hp
    rw [List.length_take, List.length_take] at h
    exact (min_comm _ _).trans (h.trans (min_comm _ _))
  obtain ⟨h₁, -, -⟩ := fillEntry_path WhitelistCache.zero p d
  have hset : setFileHashCache jhash random fileHashCacheInit f p d (lookupSlot jhash random q) =
      some ⟨fillEntry WhitelistCache.zero p d, f⟩ := by
    rw [← hslot]
    exact Function.update_self ..
  have hmem := (memcmp_fillEntry (h₁.trans hlen)).mpr hp
  rw [checkFileHashCache, hset]
  simp only [h₁, hlen, hmem, ne_eq, not_true, or_false]
  rfl

/-- A caller that finds nothing, reads a file of one byte and sets its digest. -/
def oneCaller (p : CStr) : List CacheEvent :=
  [.check 0 p, .start 0, .read 0 1, .finish 0 none, .set 0]

theorem run_oneCaller {files : CStr → FileVersion} {p : CStr} {x : UInt8}
    (hx : (files p).content = [x]) :
    ∃ s, run (cacheEventStep jhash random sm3) (CacheState.init files) (oneCaller p) = some s ∧
      s.cache = setFileHashCache jhash random fileHashCacheInit (files p).stamp p (sm3 [x]) ∧
        s.files = files ∧ s.history = fun r => [files r] := by
  have hmiss : checkFileHashCache jhash random fileHashCacheInit (files p).stamp p = none := by
    simp [checkFileHashCache, fileHashCacheInit, WhitelistCache.zero]
  simp [oneCaller, run_cons, cacheEventStep, CacheState.init, CacheState.goesOn, hmiss, hx, pageSize]

/-- Every hit is true, and every slot holds a digest and a stamp of one moment of one file. -/
def CacheTrue (jhash : Jhash) (random : UInt32) (sm3 : Bytes → Digest) (paths : Set CStr)
    (s : CacheState) : Prop :=
  (∀ q ∈ paths, HitTrue jhash random sm3 s q) ∧
    ∀ i e, s.cache i = some e → e.flag = true → SlotTrue jhash random sm3 paths s i e

/-- A digest that tells the content `[1]` from the others. -/
def sampleSm3 (c : Bytes) : Digest := if c = [1] then Digest.ones else Digest.zero

theorem sampleSm3_ne : sampleSm3 [1] ≠ sampleSm3 [2] := by decide

/-- **The cache tells the truth:** over `paths`, in every run in which no file is modified between the
start of the calculation of its digest and the setting of the cache, every hit returns the digest
of the content the file of that whole path had at its present modification time and size, exactly
when no two of the paths agree in their first `PATH_LEN` bytes and meet in a slot. -/
theorem hits_true_iff_apart (jhash : Jhash) (random : UInt32) (paths : Set CStr) :
    (∀ (sm3 : Bytes → Digest) (files : CStr → FileVersion) (es : List CacheEvent) (s : CacheState),
      Meets (cacheEventStep jhash random sm3) (fun s a => a.Quiet paths s) (CacheState.init files) es →
      run (cacheEventStep jhash random sm3) (CacheState.init files) es = some s →
        CacheTrue jhash random sm3 paths s) ↔ Apart jhash random paths := by
  constructor
  · intro hall p hp q hq hpre hslot
    by_contra hne
    let files : CStr → FileVersion := fun r => ⟨if r = p then [1] else [2], ⟨0, 0⟩⟩
    have hqf : files q = ⟨[2], ⟨0, 0⟩⟩ := by simp [files, Ne.symm hne]
    have hpf : files p = ⟨[1], ⟨0, 0⟩⟩ := by simp [files]
    have hstamp : (files q).stamp = (files p).stamp := by rw [hqf, hpf]; rfl
    obtain ⟨s, hrun, hcache, hfiles, hhist⟩ :=
      @run_oneCaller jhash random sampleSm3 files p 1 (by rw [hpf])
    have hquiet : Meets (cacheEventStep jhash random sampleSm3) (fun s a => a.Quiet paths s)
        (CacheState.init files) (oneCaller p) := by
      refine meets_of_forall fun a ha _ => ?_
      simp only [oneCaller, List.mem_cons, List.not_mem_nil, or_false] at ha
      rcases ha with rfl | rfl | rfl | rfl | rfl
      · exact hp
      all_goals trivial
    have hhit : checkFileHashCache jhash random s.cache (s.files q).stamp q = some (sampleSm3 [1]) := by
      rw [hcache, hfiles, hstamp]
      exact checkFileHashCache_set_init hpre hslot
    obtain ⟨v, hv, -, hd⟩ := (hall sampleSm3 files _ s hquiet hrun).1 q hq _ hhit
    rw [hhist] at hv
    rw [List.mem_singleton.mp hv, hqf] at hd
    exact sampleSm3_ne hd
  · intro hapart sm3 files es s hok hrun
    have hinv := run_invariant cacheInv_step (cacheInv_init files) hok hrun
    exact ⟨fun q hq => hitTrue_of_inv hinv hapart hq, hinv.slots⟩

/-- The same caller, with a modification of the file after the digest is calculated. -/
def overtakenCaller (p : CStr) (v : FileVersion) : List CacheEvent :=
  [.check 0 p, .start 0, .read 0 1, .finish 0 none, .modify p v, .set 0]

/-- Such a modification leaves the old digest with the new time: the next lookup is a false hit. -/
theorem overtaken_hit {files : CStr → FileVersion} {p : CStr} {v : FileVersion} {x : UInt8}
    (hx : (files p).content = [x]) (hv : v.stamp ≠ (files p).stamp) (hd : sm3 [x] ≠ sm3 v.content)
    (hslot : fillSlot jhash random p = lookupSlot jhash random p) :
    ∃ s, run (cacheEventStep jhash random sm3) (CacheState.init files) (overtakenCaller p v) = some s ∧
      ¬ HitTrue jhash random sm3 s p := by
  have hmiss : checkFileHashCache jhash random fileHashCacheInit (files p).stamp p = none := by
    simp [checkFileHashCache, fileHashCacheInit, WhitelistCache.zero]
  refine ⟨_, by simp [overtakenCaller, run_cons, cacheEventStep, CacheState.init, CacheState.goesOn,
    hmiss, hx, hv, pageSize]; rfl, fun hit => ?_⟩
  have hset := @checkFileHashCache_set_init jhash random p p v.stamp (sm3 [x]) rfl hslot
  obtain ⟨w, hw, hstamp, hdw⟩ := hit (sm3 [x]) (by simpa using hset)
  simp only [Function.update_self, List.mem_cons, List.not_mem_nil, or_false] at hw hstamp
  rcases hw with rfl | rfl
  · exact hd hdw
  · exact hv hstamp.symm

/-- The file `a` changes its content from `[1]` to `[2]` on the way. -/
theorem stale_hit : ∃ s, run (cacheEventStep (fun _ _ => 0) 0 sampleSm3)
      (CacheState.init fun _ => ⟨[1], ⟨0, 0⟩⟩)
      (overtakenCaller (CStr.ofBytes [97]) ⟨[2], ⟨1, 0⟩⟩) = some s ∧
    ¬ HitTrue (fun _ _ => 0) 0 sampleSm3 s (CStr.ofBytes [97]) :=
  overtaken_hit rfl (by decide) sampleSm3_ne rfl

end Truth

end Dmeasure
end TsbAgent
