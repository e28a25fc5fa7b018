/-
# The program whitelist

`tsb/kernel/smeasure/policy/hash_whitelist.c`: a table of `(digest, path)`
entries in `HASH_TAB_SIZE` chains, the chain chosen by `jhash` of the digest.

| function | chain walk | compares |
| --- | --- | --- |
| `whitelist_add` | refuse a duplicate, then add at the head | digest and path |
| `whitelist_del` | unlink the first match | digest and path |
| `get_digest` | first match | digest, and path unless `match_mode` is hash only |
| `get_digest_no_path`, `query_hash` | first match | digest |
| `query_hash_and_path` | first match | digest and path |

Every one of them compares the 32 bytes of the digest with `strncmp`, which
stops at a zero byte.  `whitelist_refines_set_iff` says what that costs: over a
set of digests the table is the set of its entries exactly when no two of the
digests share a chain and agree up to a common zero byte.
-/

import TsbAgent.Basic
import TsbAgent.Lib.Chained
import Mathlib.Order.BooleanAlgebra.Set

namespace TsbAgent
namespace Whitelist

open Libc Chained

/-- `struct whitelist_digest`. -/
structure WhitelistDigest where
  digest : Digest
  name : CStr
deriving DecidableEq

@[ext] theorem WhitelistDigest.ext {u v : WhitelistDigest} (hd : u.digest = v.digest)
    (hn : u.name = v.name) : u = v := by
  cases u; cases v; cases hd; cases hn; rfl

/-- `whitelist_hashtable` and `whitelist_obj_count`. -/
structure WhitelistTable where
  hashtable : Table UInt32 WhitelistDigest
  objCount : ℤ

/-- `whitelist_init`: every chain empty. -/
def whitelistInit : WhitelistTable := ⟨Table.empty, 0⟩

/-- `HASH_TAB_MASK`. -/
def hashTabMask : UInt32 := 0xffff

/-- `PROCESS_MEASURE_MATCH_HASH_ONLY`, the first value of its enumeration. -/
def processMeasureMatchHashOnly : UInt32 := 0

section Functions

variable (jhash : Jhash) (whitelistHashRandom : UInt32)

/-- `string_hash_key`. -/
def stringHashKey (p : Bytes) : UInt32 := jhash p whitelistHashRandom &&& hashTabMask

/-- `whitelist_hash_key`: the path does not enter it. -/
def whitelistHashKey (hash : Digest) : UInt32 := stringHashKey jhash whitelistHashRandom hash.1

/-- `whitelist_hash_cmp`. -/
def whitelistHashCmp (u : WhitelistDigest) (hash : Digest) (path : CStr) : ℤ :=
  if strncmp lenHash u.digest.1 hash.1 = 0 ∧ strcmp u.name.bytes path.bytes = 0 then 0 else -1

/-- `whitelist_hash_cmp_extension`. -/
def whitelistHashCmpExtension (matchMode : UInt32) (u : WhitelistDigest) (hash : Digest)
    (path : CStr) : ℤ :=
  if matchMode = processMeasureMatchHashOnly then strncmp lenHash u.digest.1 hash.1
  else if strncmp lenHash u.digest.1 hash.1 = 0 ∧ strcmp u.name.bytes path.bytes = 0 then 0 else -1

/-- `get_digest`. -/
def getDigest (matchMode : UInt32) (w : WhitelistTable) (hash : Digest) (path : CStr) : ℤ :=
  if w.hashtable.lookup (whitelistHashKey jhash whitelistHashRandom hash)
    (fun u => whitelistHashCmpExtension matchMode u hash path = 0) then 0 else -1

/-- `query_hash`; `get_digest_no_path` has the same body. -/
def queryHash (w : WhitelistTable) (hash : Digest) : ℤ :=
  if w.hashtable.lookup (whitelistHashKey jhash whitelistHashRandom hash)
    (fun u => strncmp lenHash u.digest.1 hash.1 = 0) then 0 else -1

/-- `query_hash_and_path`. -/
def queryHashAndPath (w : WhitelistTable) (hash : Digest) (path : CStr) : ℤ :=
  if w.hashtable.lookup (whitelistHashKey jhash whitelistHashRandom hash)
    (fun u => strncmp lenHash u.digest.1 hash.1 = 0 ∧ strcmp u.name.bytes path.bytes = 0)
  then 0 else -1

/-- `whitelist_del`. -/
def whitelistDel (w : WhitelistTable) (path : CStr) (hash : Digest) : WhitelistTable × ℤ :=
  let i := whitelistHashKey jhash whitelistHashRandom hash
  if w.hashtable.lookup i (fun u => whitelistHashCmp u hash path = 0) then
    (⟨w.hashtable.eraseFirst i (fun u => whitelistHashCmp u hash path = 0), w.objCount - 1⟩, 0)
  else (w, -einval)

/-- `whitelist_add`; `kzalloc` is whether the entry could be allocated. -/
def whitelistAdd (w : WhitelistTable) (path : CStr) (hash : Digest) (kzalloc : Bool) :
    WhitelistTable × ℤ :=
  let i := whitelistHashKey jhash whitelistHashRandom hash
  if w.hashtable.lookup i (fun u => whitelistHashCmp u hash path = 0) then (w, -eexist)
  else if kzalloc then (⟨w.hashtable.push i ⟨hash, path⟩, w.objCount + 1⟩, 0)
  else (w, -enomem)

end Functions

/-! ### What a comparison accepts -/

theorem whitelistHashCmp_eq_zero {u : WhitelistDigest} {hash : Digest} {path : CStr} :
    whitelistHashCmp u hash path = 0 ↔ cstr u.digest.1 = cstr hash.1 ∧ u.name = path := by
  rw [← Digest.strncmp_eq_zero, ← Libc.strcmp_eq_zero, whitelistHashCmp]
  split_ifs with h
  · exact iff_of_true rfl h
  · exact iff_of_false (by decide) h

theorem whitelistHashCmpExtension_eq_zero {m : UInt32} {u : WhitelistDigest} {hash : Digest}
    {path : CStr} : whitelistHashCmpExtension m u hash path = 0 ↔
      cstr u.digest.1 = cstr hash.1 ∧ (m = processMeasureMatchHashOnly ∨ u.name = path) := by
  rw [whitelistHashCmpExtension]
  split_ifs with hm h
  · rw [Digest.strncmp_eq_zero]
    exact ⟨fun hd => ⟨hd, Or.inl hm⟩, And.left⟩
  · rw [Digest.strncmp_eq_zero, Libc.strcmp_eq_zero] at h
    exact iff_of_true rfl ⟨h.1, Or.inr h.2⟩
  · rw [Digest.strncmp_eq_zero, Libc.strcmp_eq_zero] at h
    exact iff_of_false (by decide) fun hd => h ⟨hd.1, hd.2.resolve_left hm⟩

/-- The chain an entry belongs in. -/
def entryKey (jhash : Jhash) (random : UInt32) (u : WhitelistDigest) : UInt32 :=
  whitelistHashKey jhash random u.digest

section Meaning

variable {jhash : Jhash} {random : UInt32} {w : WhitelistTable}

/-- `get_digest` succeeds when the chain of the digest has an entry whose digest agrees
up to the first zero byte, with the path in the path mode. -/
theorem getDigest_eq_zero {m : UInt32} {hash : Digest} {path : CStr} :
    getDigest jhash random m w hash path = 0 ↔
      ∃ u ∈ w.hashtable (whitelistHashKey jhash random hash),
        cstr u.digest.1 = cstr hash.1 ∧ (m = processMeasureMatchHashOnly ∨ u.name = path) := by
  have hl : w.hashtable.lookup (whitelistHashKey jhash random hash)
      (fun u => decide (whitelistHashCmpExtension m u hash path = 0)) = true ↔
        ∃ u ∈ w.hashtable (whitelistHashKey jhash random hash),
          cstr u.digest.1 = cstr hash.1 ∧ (m = processMeasureMatchHashOnly ∨ u.name = path) := by
    simp only [Table.lookup, List.any_eq_true, decide_eq_true_eq, whitelistHashCmpExtension_eq_zero]
  rw [← hl, getDigest]
  split_ifs with h <;> simp [h]

theorem getDigest_neg {m : UInt32} {hash : Digest} {path : CStr} :
    getDigest jhash random m w hash path < 0 ↔ getDigest jhash random m w hash path ≠ 0 := by
  unfold getDigest
  split_ifs <;> simp

theorem queryHash_eq_zero (hw : w.hashtable.Placed (entryKey jhash random)) {hash : Digest} :
    queryHash jhash random w hash = 0 ↔
      ∃ u ∈ w.hashtable.contents, entryKey jhash random u = whitelistHashKey jhash random hash ∧
        cstr u.digest.1 = cstr hash.1 := by
  rw [queryHash, hw.lookup_ret]
  simp only [Digest.strncmp_eq_zero]

theorem queryHashAndPath_eq_zero (hw : w.hashtable.Placed (entryKey jhash random)) {hash : Digest}
    {path : CStr} : queryHashAndPath jhash random w hash path = 0 ↔
      ∃ u ∈ w.hashtable.contents, entryKey jhash random u = whitelistHashKey jhash random hash ∧
        cstr u.digest.1 = cstr hash.1 ∧ u.name = path := by
  rw [queryHashAndPath, hw.lookup_ret]
  simp only [Digest.strncmp_eq_zero, Libc.strcmp_eq_zero]

end Meaning

/-! ### Runs of additions and deletions, and the set they build -/

/-- A call of `whitelist_add` or `whitelist_del`. -/
inductive WhitelistOp
  | add (path : CStr) (hash : Digest) (kzalloc : Bool)
  | del (path : CStr) (hash : Digest)

/-- The digest a call is made with. -/
def WhitelistOp.hash : WhitelistOp → Digest
  | .add _ h _ => h
  | .del _ h => h

/-- The path a call is made with. -/
def WhitelistOp.path : WhitelistOp → CStr
  | .add p _ _ => p
  | .del p _ => p

/-- One call on the table. -/
def whitelistStep (jhash : Jhash) (random : UInt32) (w : WhitelistTable) :
    WhitelistOp → WhitelistTable
  | .add path hash kzalloc => (whitelistAdd jhash random w path hash kzalloc).1
  | .del path hash => (whitelistDel jhash random w path hash).1

/-- One call on a set of pairs: what the table is for. -/
def setStep (S : Set WhitelistDigest) : WhitelistOp → Set WhitelistDigest
  | .add path hash kzalloc => if kzalloc then insert ⟨hash, path⟩ S else S
  | .del path hash => S \ {⟨hash, path⟩}

/-- The table after the calls. -/
def whitelistRun (jhash : Jhash) (random : UInt32) (ops : List WhitelistOp) : WhitelistTable :=
  ops.foldl (whitelistStep jhash random) whitelistInit

/-- The set after the calls. -/
def setRun (ops : List WhitelistOp) : Set WhitelistDigest := ops.foldl setStep ∅

/-- The table `w` behaves as the set `S` for digests in `D`. -/
structure RefinesSet (jhash : Jhash) (random : UInt32) (D : Set Digest) (w : WhitelistTable)
    (S : Set WhitelistDigest) : Prop where
  contents : w.hashtable.contents = S
  query : ∀ h ∈ D, queryHash jhash random w h = 0 ↔ ∃ p, ⟨h, p⟩ ∈ S
  queryPath : ∀ h ∈ D, ∀ p, queryHashAndPath jhash random w h p = 0 ↔ ⟨h, p⟩ ∈ S
  del : ∀ h ∈ D, ∀ p, (whitelistDel jhash random w p h).1.hashtable.contents = S \ {⟨h, p⟩}

/-- Every name fits in the `path[512]` of the commands and of the loader. -/
def ShortNames (w : WhitelistTable) : Prop := ∀ i, ∀ u ∈ w.hashtable i, u.name.strlen < 512

theorem shortNames_init : ShortNames whitelistInit := fun _ _ hu => absurd hu List.not_mem_nil

theorem ShortNames.push {w : WhitelistTable} (h : ShortNames w) {u : WhitelistDigest}
    (hu : u.name.strlen < 512) (i : UInt32) (n : ℤ) : ShortNames ⟨w.hashtable.push i u, n⟩ := by
  intro j v hv
  rcases Table.mem_push.mp hv with ⟨-, rfl⟩ | hv
  · exact hu
  · exact h j v hv

/-- A call of `whitelist_add` or `whitelist_del` with a short path keeps the names short. -/
theorem ShortNames.step {jhash : Jhash} {random : UInt32} {w : WhitelistTable} (h : ShortNames w)
    {op : WhitelistOp} (hop : op.path.strlen < 512) : ShortNames (whitelistStep jhash random w op) := by
  cases op with
  | add path hash kzalloc =>
      rw [whitelistStep, whitelistAdd]
      split_ifs
      · exact h
      · exact h.push (u := ⟨hash, path⟩) hop _ _
      · exact h
  | del path hash =>
      rw [whitelistStep, whitelistDel]
      split_ifs
      · exact fun j v hv => h j v (Table.mem_of_mem_eraseFirst hv)
      · exact h

/-- No two digests of `D` share a chain and agree up to a common zero byte. -/
def NoClash (jhash : Jhash) (random : UInt32) (D : Set Digest) : Prop :=
  ∀ h ∈ D, ∀ h' ∈ D, whitelistHashKey jhash random h = whitelistHashKey jhash random h' →
    cstr h.1 = cstr h'.1 → h = h'

section Refinement

variable {jhash : Jhash} {random : UInt32} {D : Set Digest} {w : WhitelistTable}

/-- The invariant of a run over digests of `D`: entries in their chains, and
none from outside `D`. -/
structure Sound (jhash : Jhash) (random : UInt32) (D : Set Digest) (w : WhitelistTable) : Prop where
  placed : w.hashtable.Placed (entryKey jhash random)
  mem : ∀ u ∈ w.hashtable.contents, u.digest ∈ D

/-- Without a clash, an entry the comparison accepts is the pair asked for. -/
theorem Sound.cmp_iff (hc : NoClash jhash random D) (hs : Sound jhash random D w) {h : Digest}
    (hD : h ∈ D) {p : CStr} {u : WhitelistDigest} (hu : u ∈ w.hashtable (whitelistHashKey jhash random h)) :
    whitelistHashCmp u h p = 0 ↔ u = ⟨h, p⟩ := by
  rw [whitelistHashCmp_eq_zero]
  constructor
  · rintro ⟨hd, rfl⟩
    have hk : entryKey jhash random u = whitelistHashKey jhash random h := hs.placed.key_eq hu
    exact WhitelistDigest.ext (hc _ (hs.mem u ⟨_, hu⟩) _ hD hk hd) rfl
  · rintro rfl
    exact ⟨rfl, rfl⟩

theorem Sound.lookup_iff (hc : NoClash jhash random D) (hs : Sound jhash random D w) {h : Digest}
    (hD : h ∈ D) {p : CStr} :
    w.hashtable.lookup (whitelistHashKey jhash random h) (fun u => whitelistHashCmp u h p = 0)
      = true ↔ ⟨h, p⟩ ∈ w.hashtable.contents := by
  rw [Table.lookup, List.any_eq_true, hs.placed.mem_contents]
  constructor
  · rintro ⟨u, hu, hp⟩
    rw [decide_eq_true_eq, hs.cmp_iff hc hD hu] at hp
    subst hp
    exact hu
  · intro hm
    exact ⟨_, hm, decide_eq_true ((hs.cmp_iff hc hD hm).mpr rfl)⟩

/-- `whitelist_del` removes the pair and no other. -/
theorem Sound.contents_del (hc : NoClash jhash random D) (hs : Sound jhash random D w) {h : Digest}
    (hD : h ∈ D) (p : CStr) :
    (whitelistDel jhash random w p h).1.hashtable.contents = w.hashtable.contents \ {⟨h, p⟩} := by
  rw [whitelistDel]
  split_ifs with hl
  · exact hs.placed.contents_eraseFirst (x := ⟨h, p⟩)
      (p := fun u => decide (whitelistHashCmp u h p = 0)) fun y hy => by
        rw [decide_eq_true_eq]
        exact hs.cmp_iff hc hD hy
  · rw [hs.lookup_iff hc hD] at hl
    exact (Set.sdiff_singleton_eq_self hl).symm

theorem Sound.contents_add (hc : NoClash jhash random D) (hs : Sound jhash random D w) {h : Digest}
    (hD : h ∈ D) (p : CStr) (kzalloc : Bool) :
    (whitelistAdd jhash random w p h kzalloc).1.hashtable.contents =
      if kzalloc then insert ⟨h, p⟩ w.hashtable.contents else w.hashtable.contents := by
  rw [whitelistAdd]
  split_ifs with hl ha
  · rw [hs.lookup_iff hc hD] at hl
    exact (Set.insert_eq_of_mem hl).symm
  · rfl
  · exact Table.contents_push
  · rfl

/-- **One call keeps the table the set.** -/
theorem Sound.step (hc : NoClash jhash random D) (hs : Sound jhash random D w) {op : WhitelistOp}
    (hop : op.hash ∈ D) :
    Sound jhash random D (whitelistStep jhash random w op) ∧
      (whitelistStep jhash random w op).hashtable.contents = setStep w.hashtable.contents op := by
  cases op with
  | add p h kzalloc =>
      change h ∈ D at hop
      have hcont := hs.contents_add hc hop p kzalloc
      refine ⟨⟨?_, fun u hu => ?_⟩, hcont⟩
      · change Table.Placed _ (whitelistAdd jhash random w p h kzalloc).1.hashtable
        rw [whitelistAdd]
        split_ifs with hl ha
        · exact hs.placed
        · refine hs.placed.push (x := ⟨h, p⟩) ?_
          rwa [hs.lookup_iff hc hop] at hl
        · exact hs.placed
      · change u ∈ (whitelistAdd jhash random w p h kzalloc).1.hashtable.contents at hu
        rw [hcont] at hu
        split_ifs at hu with ha
        · rcases hu with rfl | hu
          · exact hop
          · exact hs.mem u hu
        · exact hs.mem u hu
  | del p h =>
      change h ∈ D at hop
      have hcont := hs.contents_del hc hop p
      refine ⟨⟨?_, fun u hu => ?_⟩, hcont⟩
      · change Table.Placed _ (whitelistDel jhash random w p h).1.hashtable
        rw [whitelistDel]
        split_ifs with hl
        · exact hs.placed.eraseFirst
        · exact hs.placed
      · change u ∈ (whitelistDel jhash random w p h).1.hashtable.contents at hu
        rw [hcont] at hu
        exact hs.mem u hu.1

/-- **A run keeps the table the set.** -/
theorem Sound.run (hc : NoClash jhash random D) (hs : Sound jhash random D w)
    {ops : List WhitelistOp} (hops : ∀ op ∈ ops, op.hash ∈ D) :
    Sound jhash random D (ops.foldl (whitelistStep jhash random) w) ∧
      (ops.foldl (whitelistStep jhash random) w).hashtable.contents =
        ops.foldl setStep w.hashtable.contents := by
  induction ops generalizing w with
  | nil => exact ⟨hs, rfl⟩
  | cons op ops ih =>
      obtain ⟨hs', hcont⟩ := hs.step hc (hops op List.mem_cons_self)
      rw [List.foldl_cons, List.foldl_cons, ← hcont]
      exact ih hs' fun o ho => hops o (List.mem_cons_of_mem _ ho)

theorem sound_init : Sound jhash random D whitelistInit :=
  ⟨Table.placed_empty, fun u hu => by simp [whitelistInit] at hu⟩

theorem Sound.refinesSet (hc : NoClash jhash random D) (hs : Sound jhash random D w) :
    RefinesSet jhash random D w w.hashtable.contents := by
  refine ⟨rfl, fun h hD => ?_, fun h hD p => ?_, fun h hD p => hs.contents_del hc hD p⟩
  · rw [queryHash_eq_zero hs.placed]
    constructor
    · rintro ⟨u, hu, hk, hd⟩
      exact ⟨u.name, hc _ (hs.mem u hu) _ hD hk hd ▸ hu⟩
    · rintro ⟨p, hp⟩
      exact ⟨_, hp, rfl, rfl⟩
  · rw [queryHashAndPath_eq_zero hs.placed]
    constructor
    · rintro ⟨u, hu, hk, hd, rfl⟩
      exact hc _ (hs.mem u hu) _ hD hk hd ▸ hu
    · exact fun hp => ⟨_, hp, rfl, rfl, rfl⟩

/-- One addition to the empty table: the chain of the digest holds the entry. -/
theorem queryHash_add_init {h h' : Digest} (p : CStr)
    (hk : whitelistHashKey jhash random h = whitelistHashKey jhash random h')
    (hd : cstr h.1 = cstr h'.1) :
    queryHash jhash random (whitelistRun jhash random [.add p h true]) h' = 0 := by
  have hrun : whitelistRun jhash random [.add p h true] =
      ⟨Table.empty.push (whitelistHashKey jhash random h) ⟨h, p⟩, 1⟩ := rfl
  have hp : (whitelistRun jhash random [.add p h true]).hashtable.Placed (entryKey jhash random) := by
    rw [hrun]
    exact Table.placed_empty.push (x := (⟨h, p⟩ : WhitelistDigest))
      (by simp)
  rw [queryHash_eq_zero hp, hrun]
  refine ⟨⟨h, p⟩, ?_, hk, hd⟩
  rw [Table.contents_push]
  exact Set.mem_insert _ _

theorem mem_setRun_add {h : Digest} {p : CStr} {u : WhitelistDigest} :
    u ∈ setRun [.add p h true] ↔ u = ⟨h, p⟩ := by
  simp [setRun, setStep]

end Refinement

/-- **When the table is the set of its entries.**  For every hash function and
every set `D` of digests: in every run over digests of `D` the table answers
and deletes as the set built by the same calls, if and only if no two digests
of `D` share a chain and agree up to a common zero byte. -/
theorem whitelist_refines_set_iff (jhash : Jhash) (random : UInt32) (D : Set Digest) :
    (∀ ops : List WhitelistOp, (∀ op ∈ ops, op.hash ∈ D) →
      RefinesSet jhash random D (whitelistRun jhash random ops) (setRun ops)) ↔
      NoClash jhash random D := by
  constructor
  · intro hall h hD h' hD' hk hd
    have href := hall [.add ⟨[], List.not_mem_nil⟩ h true] (by simpa [WhitelistOp.hash] using hD)
    obtain ⟨p, hp⟩ := (href.query h' hD').mp (queryHash_add_init _ hk hd)
    rw [mem_setRun_add] at hp
    exact (congrArg WhitelistDigest.digest hp).symm
  · intro hc ops hops
    obtain ⟨hs, hcont⟩ := sound_init.run hc hops
    have href := hs.refinesSet hc
    rw [hcont, show whitelistInit.hashtable.contents = ∅ from Table.contents_empty] at href
    exact href

/-- **A false match.**  With a hash function that puts every digest in one
chain, a table to which only the digest `00 … 00` was added answers that the
digest `00 01 … 01` is in it: both are the empty string to `strncmp`. -/
theorem whitelist_not_refines_set :
    ¬ ∀ (jhash : Jhash) (random : UInt32) (ops : List WhitelistOp),
      RefinesSet jhash random Set.univ (whitelistRun jhash random ops) (setRun ops) := by
  intro hall
  let h' : Digest := ⟨0 :: List.replicate 31 1, rfl⟩
  have href := hall (fun _ _ => 0) 0 [.add ⟨[], List.not_mem_nil⟩ Digest.zero true]
  obtain ⟨p, hp⟩ := (href.query h' trivial).mp (queryHash_add_init _ rfl rfl)
  rw [mem_setRun_add] at hp
  have hne : h' ≠ Digest.zero := by decide
  exact hne (congrArg WhitelistDigest.digest hp)

end Whitelist
end TsbAgent
