/-
# Critical configuration files

`tsb/kernel/smeasure/policy/hash_critical_confile.c` and the file-open hook of
`smeasure_engine.c`.  The policy lists `(path, digest)` records, any number of them
for one path; they are kept in `HASH_TAB_SIZE` chains, the chain chosen by `jhash` of
the path.  The hook looks up the path of the file, computes the digest of the file and
refuses the open when the digest is not among those that the lookup returned.

The lookup copies into the 256 bytes of `policy_digest`, and never compares a name:

| what `get_critical_confile_digest` returns | what the policy lists |
| --- | --- |
| the digests of the chain of the path, whoever they belong to | those of the path |
| eight at most, the newest | any number |

`critical_confile_exact_iff` says when the two come to the same.
-/

import TsbAgent.Whitelist.Check
import Mathlib.Data.Fintype.Card

namespace TsbAgent
namespace Whitelist

open Libc Chained

/-- `struct critical_confile_digest`. -/
structure CriticalConfileDigest where
  digest : Digest
  name : CStr
deriving DecidableEq

/-- `critical_confile_hashtable` and `critical_confile_obj_count`. -/
structure CriticalConfileTable where
  hashtable : Table UInt32 CriticalConfileDigest
  objCount : ℤ

/-- `critical_confile_init`. -/
def criticalConfileInit : CriticalConfileTable := ⟨Table.empty, 0⟩

/-- A record of the policy, and whether its entry could be allocated. -/
structure CriticalRecord where
  path : CStr
  hash : Digest
  kzalloc : Bool

section Functions

variable (jhash : Jhash) (criticalConfileHashRandom : UInt32)

/-- `critical_confile_path_hash_key`: the digest does not enter it. -/
def criticalConfilePathHashKey (path : CStr) : UInt32 :=
  stringHashKey jhash criticalConfileHashRandom path.bytes

/-- `critical_confile_path_hash_cmp`. -/
def criticalConfilePathHashCmp (u : CriticalConfileDigest) (hash : Digest) (path : CStr) : ℤ :=
  if strncmp lenHash u.digest.1 hash.1 = 0 ∧ strcmp u.name.bytes path.bytes = 0 then 0 else -1

/-- `critical_confile_tmp_add`. -/
def criticalConfileTmpAdd (w : CriticalConfileTable) (path : CStr) (hash : Digest) (kzalloc : Bool) :
    CriticalConfileTable × ℤ :=
  let i := criticalConfilePathHashKey jhash criticalConfileHashRandom path
  if kzalloc = false then (w, -enomem)
  else if w.hashtable.lookup i (fun u => criticalConfilePathHashCmp u hash path = 0) then (w, -eexist)
  else (⟨w.hashtable.push i ⟨hash, path⟩, w.objCount + 1⟩, 0)

/-- The table that `load_critical_confile` fills; it goes on whatever an add returns. -/
def loadCriticalConfile (policy : List CriticalRecord) : CriticalConfileTable :=
  policy.foldl (fun w r =>
    (criticalConfileTmpAdd jhash criticalConfileHashRandom w r.path r.hash r.kzalloc).1)
    criticalConfileInit

/-- The loop of `get_critical_confile_digest`, with what `hash_buf` holds so far. -/
def copyDigests (len : ℕ) (hashBuf : Bytes) : List CriticalConfileDigest → Bytes
  | [] => hashBuf
  | u :: us =>
      if hashBuf.length + lenHash > len then hashBuf else copyDigests len (hashBuf ++ u.digest.1) us

/-- `get_critical_confile_digest`: the bytes copied; their number is the return value. -/
def getCriticalConfileDigest (w : CriticalConfileTable) (path : CStr) (len : ℕ) : Bytes :=
  copyDigests len [] (w.hashtable (criticalConfilePathHashKey jhash criticalConfileHashRandom path))

/-- The loop at the end of `smeasure_file_open`, in rounds of `LEN_HASH` bytes. -/
def digestListed (fileDigest : Digest) : ℕ → Bytes → Bool
  | 0, _ => false
  | n + 1, policyDigest =>
      if memcmp lenHash policyDigest fileDigest.1 = 0 then true
      else digestListed fileDigest n (policyDigest.drop lenHash)

/-- What a call of `smeasure_file_open` meets outside its own table. -/
structure OpenInput where
  /-- What the hook that was there before returns. -/
  oldHook : ℤ
  /-- `FILE_OPEN_MAGIC` is on the stack: the call comes from the `filp_open` below. -/
  ownOpen : Bool
  /-- The `kzalloc` of the `struct sec_domain`. -/
  kzalloc : Bool
  /-- `vfs_get_fullpath` of the file. -/
  fullpath : Option CStr
  taskpath : CStr
  /-- `filp_open` of a path, and `digest_cal` of the file. -/
  digestAt : CStr → Option Digest

/-- `smeasure_file_open`: the return value, and whether `keraudit_log` was called. -/
def smeasureFileOpen (f : WhitelistFeatureConf) (w : CriticalConfileTable) (i : OpenInput) : ℤ × Bool :=
  if f.isEnabled = 0 then (0, false)
  else if i.oldHook ≠ 0 then (i.oldHook, false)
  else if i.ownOpen then (0, false)
  else if i.kzalloc = false then (-enomem, false)
  else
    match i.fullpath with
    | none => (0, false)
    | some path =>
        let objName := objString i.taskpath path
        let policyDigest := getCriticalConfileDigest jhash criticalConfileHashRandom w objName 256
        if policyDigest.length = 0 then (0, false)
        else
          match i.digestAt objName with
          | none => (0, false)
          | some fileDigest =>
              if digestListed fileDigest ((policyDigest.length + (lenHash - 1)) / lenHash) policyDigest
              then (0, false)
              else (-eacces, true)

end Functions

/-! ### What is to be enforced -/

/-- The policy lists the digest for exactly this path. -/
def ListedFor (policy : List CriticalRecord) (path : CStr) (d : Digest) : Prop :=
  ∃ r ∈ policy, r.path = path ∧ r.hash = d

/-- The digests one after the other. -/
def digestBytes (ds : List Digest) : Bytes := ds.flatMap Subtype.val

section Specification

variable (jhash : Jhash) (random : UInt32) (policy : List CriticalRecord)

/-- The lookup of a path returns the digests listed for it, all and no others. -/
def ReturnsListed (path : CStr) : Prop :=
  ∃ ds, getCriticalConfileDigest jhash random (loadCriticalConfile jhash random policy) path 256 =
      digestBytes ds ∧ ∀ d, d ∈ ds ↔ ListedFor policy path d

/-- With the feature on, an open that the older hook admits is refused exactly when
the policy has the path and does not list the digest of the file for it. -/
def OpensByPolicy (path : CStr) : Prop :=
  ∀ (f : WhitelistFeatureConf) (i : OpenInput), f.isEnabled ≠ 0 → i.oldHook = 0 →
    i.ownOpen = false → i.kzalloc = true → i.fullpath = some path →
      ((smeasureFileOpen jhash random f (loadCriticalConfile jhash random policy) i).1 ≠ 0 ↔
        ∃ d, i.digestAt path = some d ∧ (∃ d', ListedFor policy path d') ∧ ¬ ListedFor policy path d)

/-- The entries of the chain of a name that fit into `policy_digest`: the newest eight. -/
def newestEight (name : CStr) : List CriticalConfileDigest :=
  ((loadCriticalConfile jhash random policy).hashtable
    (criticalConfilePathHashKey jhash random name)).take 8

/-- The newest eight entries of the chain of a path carry the digests listed for it.
A path that does not fit into `obj_name` is not listed, and the chain of what is there
instead is empty. -/
structure ChainListed (path : CStr) : Prop where
  only : ∀ u ∈ newestEight jhash random policy path, ListedFor policy path u.digest
  all : ∀ d, ListedFor policy path d → ∃ u ∈ newestEight jhash random policy path, u.digest = d
  long : ∀ taskpath, objString taskpath path ≠ path →
    newestEight jhash random policy (objString taskpath path) = [] ∧ ∀ d, ¬ ListedFor policy path d

end Specification

/-! ### The two loops -/

theorem length_digestBytes (ds : List Digest) : (digestBytes ds).length = lenHash * ds.length := by
  induction ds with
  | nil => rfl
  | cons d ds ih =>
      rw [digestBytes, List.flatMap_cons, List.length_append, d.2, ← digestBytes, ih,
        List.length_cons, Nat.mul_succ, Nat.add_comm]

/-- The first loop copies as many digests as fit. -/
theorem copyDigests_eq (len : ℕ) (us : List CriticalConfileDigest) (ds : List Digest) :
    copyDigests len (digestBytes ds) us =
      digestBytes (ds ++ (us.take (len / lenHash - ds.length)).map (·.digest)) := by
  induction us generalizing ds with
  | nil => simp [copyDigests]
  | cons u us ih =>
      rw [copyDigests, length_digestBytes]
      split_ifs with hfull
      · have hzero : len / lenHash - ds.length = 0 := by
          unfold lenHash at hfull ⊢
          omega
        simp [hzero]
      · have hroom : len / lenHash - ds.length = len / lenHash - (ds ++ [u.digest]).length + 1 := by
          rw [List.length_append, List.length_singleton]
          unfold lenHash at hfull ⊢
          omega
        have hsnoc : digestBytes ds ++ u.digest.1 = digestBytes (ds ++ [u.digest]) := by
          simp [digestBytes]
        rw [hsnoc, ih, hroom, List.take_succ_cons, List.map_cons, List.append_assoc]
        rfl

/-- The second loop looks for the digest of the file among them. -/
theorem digestListed_iff (d : Digest) (ds : List Digest) :
    digestListed d ds.length (digestBytes ds) = true ↔ d ∈ ds := by
  induction ds with
  | nil => simp [digestListed]
  | cons e ds ih =>
      have hbytes : digestBytes (e :: ds) = e.1 ++ digestBytes ds := rfl
      have hcmp : memcmp lenHash (digestBytes (e :: ds)) d.1 = 0 ↔ e = d := by
        rw [hbytes, Libc.memcmp_eq_zero (by rw [List.length_append, e.2]; omega) d.2.ge,
          List.take_left' e.2, List.take_of_length_le d.2.le, Subtype.ext_iff]
      have hdrop : (digestBytes (e :: ds)).drop lenHash = digestBytes ds := by
        rw [hbytes, List.drop_left' e.2]
      rw [List.length_cons, digestListed, hdrop, List.mem_cons]
      split_ifs with h
      · simp [hcmp.mp h]
      · rw [ih]
        exact ⟨Or.inr, fun hd => hd.resolve_left fun he => h (hcmp.mpr he.symm)⟩

section Decision

variable {jhash : Jhash} {random : UInt32} {policy : List CriticalRecord} {path : CStr}

/-- **What the lookup returns.** -/
theorem getCriticalConfileDigest_eq (name : CStr) :
    getCriticalConfileDigest jhash random (loadCriticalConfile jhash random policy) name 256 =
      digestBytes ((newestEight jhash random policy name).map (·.digest)) := by
  have hcopy := copyDigests_eq 256 ((loadCriticalConfile jhash random policy).hashtable
    (criticalConfilePathHashKey jhash random name)) []
  rw [List.nil_append] at hcopy
  exact hcopy

/-- **What the hook decides.** -/
theorem smeasureFileOpen_ne_zero {f : WhitelistFeatureConf} {i : OpenInput} (hf : f.isEnabled ≠ 0)
    (ho : i.oldHook = 0) (hown : i.ownOpen = false) (hk : i.kzalloc = true)
    (hp : i.fullpath = some path) :
    (smeasureFileOpen jhash random f (loadCriticalConfile jhash random policy) i).1 ≠ 0 ↔
      newestEight jhash random policy (objString i.taskpath path) ≠ [] ∧
        ∃ d, i.digestAt (objString i.taskpath path) = some d ∧
          ∀ u ∈ newestEight jhash random policy (objString i.taskpath path), u.digest ≠ d := by
  set us := newestEight jhash random policy (objString i.taskpath path) with hus
  have hlen : (digestBytes (us.map (·.digest))).length = lenHash * us.length := by
    rw [length_digestBytes, List.length_map]
  have hrounds : (lenHash * us.length + (lenHash - 1)) / lenHash = (us.map (·.digest)).length := by
    rw [List.length_map]
    unfold lenHash
    omega
  have hempty : lenHash * us.length = 0 ↔ us = [] := by
    rw [Nat.mul_eq_zero, List.length_eq_zero_iff]
    exact or_iff_right (by decide)
  simp only [smeasureFileOpen, hf, ho, hown, hk, hp, getCriticalConfileDigest_eq, ← hus, hlen, hrounds,
    hempty, if_false, ne_eq, not_true_eq_false, Bool.false_eq_true, Bool.true_eq_false]
  by_cases hnil : us = []
  · simp [hnil]
  · rw [if_neg hnil]
    cases hd : i.digestAt (objString i.taskpath path) with
    | none => simp
    | some d =>
        have hlisted := digestListed_iff d (us.map (·.digest))
        simp only [List.mem_map] at hlisted
        simp only [hlisted, hnil, not_false_eq_true, true_and, Option.some.injEq, exists_eq_left']
        split_ifs with hmem
        · obtain ⟨u, hu, rfl⟩ := hmem
          exact iff_of_false (by simp) fun hno => hno u hu rfl
        · exact iff_of_true (by decide) fun u hu he => hmem ⟨u, hu, he⟩

end Decision

/-! ### When the hook enforces the policy -/

theorem digestBytes_injective : Function.Injective digestBytes := by
  intro ds
  induction ds with
  | nil =>
      intro es h
      have hlen := congrArg List.length h
      rw [length_digestBytes, length_digestBytes, List.length_nil, Nat.mul_zero] at hlen
      exact (List.length_eq_zero_iff.mp ((Nat.mul_eq_zero.mp hlen.symm).resolve_left (by decide))).symm
  | cons d ds ih =>
      intro es h
      cases es with
      | nil =>
          have hlen := congrArg List.length h
          rw [length_digestBytes, length_digestBytes] at hlen
          simp [lenHash] at hlen
      | cons e es =>
          obtain ⟨hd, hds⟩ := List.append_inj (show d.1 ++ digestBytes ds = e.1 ++ digestBytes es from h)
            (d.2.trans e.2.symm)
          rw [Subtype.ext hd, ih hds]

/-- Nine digests. -/
def nineDigests : List Digest :=
  [1, 2, 3, 4, 5, 6, 7, 8, 9].map fun b => ⟨List.replicate lenHash b, List.length_replicate⟩

/-- Eight places are too few for nine digests. -/
theorem exists_digest_notMem {ds : List Digest} (h : ds.length ≤ 8) : ∃ d ∈ nineDigests, d ∉ ds := by
  by_contra hall
  push Not at hall
  have hnodup : nineDigests.Nodup := by decide
  have hlen : nineDigests.length ≤ ds.length := (hnodup.subperm hall).length_le
  have hnine : nineDigests.length = 9 := rfl
  omega

/-- An open of a path by a task, with the digests of the files. -/
def openOf (taskpath path : CStr) (digestAt : CStr → Option Digest) : OpenInput where
  oldHook := 0
  ownOpen := false
  kzalloc := true
  fullpath := some path
  taskpath := taskpath
  digestAt := digestAt

section Exact

variable {jhash : Jhash} {random : UInt32} {policy : List CriticalRecord} {path : CStr}

theorem newestEight_length (name : CStr) : (newestEight jhash random policy name).length ≤ 8 :=
  List.length_take_le _ _

/-- Some digest is on none of the newest eight entries. -/
theorem exists_digest_not_newest (name : CStr) :
    ∃ d, ∀ u ∈ newestEight jhash random policy name, u.digest ≠ d := by
  have hlen : ((newestEight jhash random policy name).map (·.digest)).length ≤ 8 := by
    rw [List.length_map]
    exact newestEight_length name
  obtain ⟨d, -, hd⟩ := exists_digest_notMem hlen
  exact ⟨d, fun u hu he => hd (List.mem_map.mpr ⟨u, hu, he⟩)⟩

theorem returnsListed_iff : ReturnsListed jhash random policy path ↔
    (∀ u ∈ newestEight jhash random policy path, ListedFor policy path u.digest) ∧
      ∀ d, ListedFor policy path d → ∃ u ∈ newestEight jhash random policy path, u.digest = d := by
  unfold ReturnsListed
  rw [getCriticalConfileDigest_eq]
  constructor
  · rintro ⟨ds, hds, hiff⟩
    obtain rfl := digestBytes_injective hds
    simp only [List.mem_map] at hiff
    exact ⟨fun u hu => (hiff _).mp ⟨u, hu, rfl⟩, fun d hd => (hiff d).mpr hd⟩
  · rintro ⟨honly, hall⟩
    refine ⟨_, rfl, fun d => ⟨fun hd => ?_, fun hd => ?_⟩⟩
    · obtain ⟨u, hu, rfl⟩ := List.mem_map.mp hd
      exact honly u hu
    · exact List.mem_map.mpr (hall d hd)

/-- The decision on a path that fits. -/
theorem ChainListed.opensByPolicy (h : ChainListed jhash random policy path) :
    OpensByPolicy jhash random policy path := by
  intro f i hf ho hown hk hp
  rw [smeasureFileOpen_ne_zero hf ho hown hk hp]
  by_cases hobj : objString i.taskpath path = path
  · rw [hobj]
    constructor
    · rintro ⟨hne, d, hd, hno⟩
      obtain ⟨u, hu⟩ := List.exists_mem_of_ne_nil _ hne
      refine ⟨d, hd, ⟨u.digest, h.only u hu⟩, fun hl => ?_⟩
      obtain ⟨v, hv, hvd⟩ := h.all d hl
      exact hno v hv hvd
    · rintro ⟨d, hd, ⟨d', hd'⟩, hno⟩
      obtain ⟨u, hu, -⟩ := h.all d' hd'
      exact ⟨List.ne_nil_of_mem hu, d, hd, fun v hv hvd => hno (hvd ▸ h.only v hv)⟩
  · obtain ⟨hnil, hnone⟩ := h.long i.taskpath hobj
    exact iff_of_false (fun hne => hne.1 hnil) fun ⟨_, _, ⟨d', hd'⟩, _⟩ => hnone d' hd'

/-- What the policy asks of one open, in terms of the chain. -/
theorem OpensByPolicy.of_openOf (h : OpensByPolicy jhash random policy path) (taskpath : CStr)
    (digestAt : CStr → Option Digest) :
    (newestEight jhash random policy (objString taskpath path) ≠ [] ∧
        ∃ d, digestAt (objString taskpath path) = some d ∧
          ∀ u ∈ newestEight jhash random policy (objString taskpath path), u.digest ≠ d) ↔
      ∃ d, digestAt path = some d ∧ (∃ d', ListedFor policy path d') ∧ ¬ ListedFor policy path d := by
  have hon : (WhitelistFeatureConf.mk 1 0 0 0 0).isEnabled ≠ 0 := by decide
  exact (smeasureFileOpen_ne_zero (i := openOf taskpath path digestAt) hon rfl rfl rfl rfl).symm.trans
    (h _ (openOf taskpath path digestAt) hon rfl rfl rfl rfl)

/-- A path that does not fit is looked up under another name. -/
theorem OpensByPolicy.long (h : OpensByPolicy jhash random policy path)
    (hall : ∀ d, ListedFor policy path d → ∃ u ∈ newestEight jhash random policy path, u.digest = d)
    {taskpath : CStr} (hobj : objString taskpath path ≠ path) :
    newestEight jhash random policy (objString taskpath path) = [] ∧ ∀ d, ¬ ListedFor policy path d := by
  constructor
  · by_contra hne
    -- a file only under the other name: refused, although the path has none
    obtain ⟨d, hd⟩ := exists_digest_not_newest (objString taskpath path)
    obtain ⟨e, he, -⟩ := (h.of_openOf taskpath
      (Function.update (fun _ => none) (objString taskpath path) (some d))).mp
        ⟨hne, d, Function.update_self .., hd⟩
    rw [Function.update_of_ne hobj.symm] at he
    cases he
  · intro d' hd'
    -- a file only under the path, with a digest that is not listed: not refused
    obtain ⟨d, hd⟩ : ∃ d, ∀ u ∈ newestEight jhash random policy path, u.digest ≠ d :=
      exists_digest_not_newest path
    have hno : ¬ ListedFor policy path d := fun hl => by
      obtain ⟨u, hu, hud⟩ := hall d hl
      exact hd u hu hud
    obtain ⟨-, e, he, -⟩ := (h.of_openOf taskpath (Function.update (fun _ => none) path (some d))).mpr
      ⟨d, Function.update_self .., ⟨d', hd'⟩, hno⟩
    rw [Function.update_of_ne hobj] at he
    cases he

end Exact

/-- **When the critical files are protected by their own digests.**  For every hash,
every policy and every path: the lookup of the path returns the digests listed for it,
all and no others, and every open of it is decided by them, if and only if the newest
eight entries of its chain carry those digests. -/
theorem critical_confile_exact_iff (jhash : Jhash) (random : UInt32) (policy : List CriticalRecord)
    (path : CStr) :
    (ReturnsListed jhash random policy path ∧ OpensByPolicy jhash random policy path) ↔
      ChainListed jhash random policy path := by
  constructor
  · rintro ⟨hret, hopen⟩
    obtain ⟨honly, hall⟩ := returnsListed_iff.mp hret
    exact ⟨honly, hall, fun taskpath hobj => hopen.long hall hobj⟩
  · intro h
    exact ⟨returnsListed_iff.mpr ⟨h.only, h.all⟩, h.opensByPolicy⟩

/-! ### What the chains hold after a load -/

section Chains

variable {jhash : Jhash} {random : UInt32} {policy : List CriticalRecord}

theorem criticalConfilePathHashCmp_eq_zero {u : CriticalConfileDigest} {hash : Digest} {path : CStr} :
    criticalConfilePathHashCmp u hash path = 0 ↔ cstr u.digest.1 = cstr hash.1 ∧ u.name = path := by
  rw [← Digest.strncmp_eq_zero, ← Libc.strcmp_eq_zero, criticalConfilePathHashCmp]
  split_ifs with h
  · exact iff_of_true rfl h
  · exact iff_of_false (by decide) h

/-- A record adds one entry to its chain, or none. -/
theorem criticalConfileTmpAdd_chain (w : CriticalConfileTable) (r : CriticalRecord) (k : UInt32) :
    (criticalConfileTmpAdd jhash random w r.path r.hash r.kzalloc).1.hashtable k = w.hashtable k ∨
      (criticalConfilePathHashKey jhash random r.path = k ∧
        (criticalConfileTmpAdd jhash random w r.path r.hash r.kzalloc).1.hashtable k =
          ⟨r.hash, r.path⟩ :: w.hashtable k) := by
  unfold criticalConfileTmpAdd
  simp only
  split_ifs
  · exact Or.inl rfl
  · exact Or.inl rfl
  · rcases eq_or_ne k (criticalConfilePathHashKey jhash random r.path) with rfl | hk
    · exact Or.inr ⟨rfl, Function.update_self ..⟩
    · exact Or.inl (Function.update_of_ne hk ..)

/-- A record whose entry could be allocated is there after it. -/
theorem criticalConfileTmpAdd_mem (w : CriticalConfileTable) {r : CriticalRecord}
    (hk : r.kzalloc = true) :
    ∃ u ∈ (criticalConfileTmpAdd jhash random w r.path r.hash r.kzalloc).1.hashtable
      (criticalConfilePathHashKey jhash random r.path),
      cstr u.digest.1 = cstr r.hash.1 ∧ u.name = r.path := by
  unfold criticalConfileTmpAdd
  simp only [hk, Bool.true_eq_false, if_false]
  split_ifs with hl
  · obtain ⟨u, hu, hcmp⟩ := List.any_eq_true.mp hl
    exact ⟨u, hu, criticalConfilePathHashCmp_eq_zero.mp (of_decide_eq_true hcmp)⟩
  · exact ⟨_, Table.mem_push.mpr (Or.inl ⟨rfl, rfl⟩), rfl, rfl⟩

theorem loadCriticalConfile_snoc (r : CriticalRecord) :
    loadCriticalConfile jhash random (policy ++ [r]) = (criticalConfileTmpAdd jhash random
      (loadCriticalConfile jhash random policy) r.path r.hash r.kzalloc).1 := by
  rw [loadCriticalConfile, List.foldl_append]
  rfl

/-- Every entry of a chain is a record of the policy. -/
theorem listed_of_mem_chain {k : UInt32} {u : CriticalConfileDigest}
    (hu : u ∈ (loadCriticalConfile jhash random policy).hashtable k) :
    ListedFor policy u.name u.digest ∧ criticalConfilePathHashKey jhash random u.name = k := by
  induction policy using List.reverseRecOn with
  | nil => exact absurd hu List.not_mem_nil
  | append_singleton policy r ih =>
      have hback : u ∈ (loadCriticalConfile jhash random policy).hashtable k →
          ListedFor (policy ++ [r]) u.name u.digest ∧ criticalConfilePathHashKey jhash random u.name = k := by
        intro hm
        obtain ⟨⟨r', hr', hpath⟩, hkey⟩ := ih hm
        exact ⟨⟨r', List.mem_append_left _ hr', hpath⟩, hkey⟩
      rw [loadCriticalConfile_snoc] at hu
      rcases criticalConfileTmpAdd_chain (loadCriticalConfile jhash random policy) r k with
        he | ⟨hkey, he⟩
      · exact hback (he ▸ hu)
      · rw [he] at hu
        rcases List.mem_cons.mp hu with rfl | hm
        · exact ⟨⟨r, List.mem_append_right _ List.mem_cons_self, rfl, rfl⟩, hkey⟩
        · exact hback hm

/-- Every record is in its chain, up to the first zero byte of its digest. -/
theorem exists_mem_chain {r : CriticalRecord} (hr : r ∈ policy) (hk : r.kzalloc = true) :
    ∃ u ∈ (loadCriticalConfile jhash random policy).hashtable
      (criticalConfilePathHashKey jhash random r.path),
      cstr u.digest.1 = cstr r.hash.1 ∧ u.name = r.path := by
  induction policy using List.reverseRecOn with
  | nil => exact absurd hr List.not_mem_nil
  | append_singleton policy r' ih =>
      rw [loadCriticalConfile_snoc]
      rcases List.mem_append.mp hr with hr | hr
      · obtain ⟨u, hu, hdu⟩ := ih hr
        refine ⟨u, ?_, hdu⟩
        rcases criticalConfileTmpAdd_chain (loadCriticalConfile jhash random policy) r'
          (criticalConfilePathHashKey jhash random r.path) with he | ⟨-, he⟩
        · rwa [he]
        · rw [he]
          exact List.mem_cons_of_mem _ hu
      · obtain rfl := List.mem_singleton.mp hr
        exact criticalConfileTmpAdd_mem _ hk

end Chains

/-- The path `/etc/hosts`. -/
def etcHosts : CStr := ⟨[47, 101, 116, 99, 47, 104, 111, 115, 116, 115], by decide⟩

/-- Nine digests for `/etc/hosts`. -/
def nineRecords : List CriticalRecord := nineDigests.map fun d => ⟨etcHosts, d, true⟩

/-- **Nine digests are one too many.**  Whatever the hash, the lookup of a path with
nine digests does not return them all, and some file is not decided by them. -/
theorem critical_confile_ninth_digest :
    (∀ jhash random, ¬ ReturnsListed jhash random nineRecords etcHosts) ∧
      ∀ jhash random, ¬ OpensByPolicy jhash random nineRecords etcHosts := by
  have hlisted : ∀ d ∈ nineDigests, ListedFor nineRecords etcHosts d := fun d hd =>
    ⟨⟨etcHosts, d, true⟩, List.mem_map.mpr ⟨d, hd, rfl⟩, rfl, rfl⟩
  have hmissing : ∀ jhash random, ∃ d ∈ nineDigests,
      ∀ u ∈ newestEight jhash random nineRecords etcHosts, u.digest ≠ d := by
    intro jhash random
    have hlen : ((newestEight jhash random nineRecords etcHosts).map (·.digest)).length ≤ 8 := by
      rw [List.length_map]
      exact newestEight_length etcHosts
    obtain ⟨d, hd, hno⟩ := exists_digest_notMem hlen
    exact ⟨d, hd, fun u hu he => hno (List.mem_map.mpr ⟨u, hu, he⟩)⟩
  refine ⟨fun jhash random hret => ?_, fun jhash random hopen => ?_⟩
  · obtain ⟨d, hd, hno⟩ := hmissing jhash random
    obtain ⟨u, hu, hud⟩ := (returnsListed_iff.mp hret).2 d (hlisted d hd)
    exact hno u hu hud
  · have hobj : objString etcHosts etcHosts = etcHosts := rfl
    have hdecide := fun d => hopen.of_openOf etcHosts fun _ => some d
    simp only [hobj, Option.some.injEq, exists_eq_left'] at hdecide
    by_cases hnil : newestEight jhash random nineRecords etcHosts = []
    · -- an empty chain refuses nothing, not even a digest that is not listed
      have hzero : ¬ ListedFor nineRecords etcHosts Digest.zero := by
        rintro ⟨r, hr, -, hz⟩
        obtain ⟨d, hd, rfl⟩ := List.mem_map.mp hr
        obtain rfl : d = Digest.zero := hz
        exact absurd hd (by decide)
      exact ((hdecide Digest.zero).mpr ⟨⟨_, hlisted _ List.mem_cons_self⟩, hzero⟩).1 hnil
    · obtain ⟨d, hd, hno⟩ := hmissing jhash random
      exact ((hdecide d).mp ⟨hnil, hno⟩).2 (hlisted d hd)

end Whitelist
end TsbAgent
