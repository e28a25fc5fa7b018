/-
# The whitelist cache

`tsb/kernel/smeasure/policy/policy_whitelist_cache.c`: `MAX_CACHE_NUMBER` slots,
each with the path and the digest of one program that passed.  The slot is a
hash of the path, the modification time and the size of the file.

`check_whitelist_cache` compares the path in the slot, clamped to `PATH_LEN`
bytes.  The comparisons of the modification time and of the size are commented
out, and so are the assignments of `file_mtime` and `file_size` in
`set_whitelist_cache`: the two fields are declared, never written and never
read, and are not part of the entry here.  They enter a lookup through the hash
alone.  `set_whitelist_cache` hashes the whole path, `check_whitelist_cache` its
first `PATH_LEN` bytes.

A hit therefore proves that the slot was last set for the same clamped path and
has not been cleaned or overwritten since (`run_retained`).  It proves that the
file is the one that was cached exactly when no two files share both the clamped
path and the slot (`cache_hit_sound_iff`).
-/

import TsbAgent.Basic
import Mathlib.Data.List.Induction
import Mathlib.Data.Set.Defs
import Mathlib.Logic.Function.Basic

namespace TsbAgent
namespace Whitelist

open Libc

/-- `PATH_LEN`. -/
def pathLen : ℕ := 512

/-- `MAX_CACHE_NUMBER`. -/
def maxCacheNumber : ℕ := 8192

/-- `struct timespec64`. -/
structure Timespec where
  tvSec : UInt64
  tvNsec : UInt64
deriving DecidableEq

/-- What the cache reads of an inode: `i_mtime` and the size. -/
structure FileStamp where
  mtime : Timespec
  size : UInt64
deriving DecidableEq

/-- The eight bytes of a 64-bit word in memory. -/
def wordBytes (x : UInt64) : Bytes := (List.range 8).map fun i => (x >>> (8 * i.toUInt64)).toUInt8

/-- `struct whitelist_cache`, less `file_mtime` and `file_size`. -/
structure WhitelistCache where
  path : Bytes
  digest : Digest
  pathLen : ℕ
  flag : Bool

/-- An entry after `kzalloc` or `memset`. -/
def WhitelistCache.zero : WhitelistCache := ⟨[], Digest.zero, 0, false⟩

/-- The pointers `w_cache.wc`. -/
abbrev CacheArray := Fin maxCacheNumber → Option WhitelistCache

/-- `policy_whitelist_cache_init`: every slot allocated and empty. -/
def policyWhitelistCacheInit : CacheArray := fun _ => some WhitelistCache.zero

/-- One turn of the loop of `policy_whitelist_cache_clean`. -/
def cleanSlot (c : CacheArray) (i : Fin maxCacheNumber) : CacheArray :=
  Function.update c i ((c i).map fun _ => WhitelistCache.zero)

/-- `policy_whitelist_cache_clean`. -/
def policyWhitelistCacheClean (c : CacheArray) : CacheArray :=
  fun i => (c i).map fun _ => WhitelistCache.zero

section Functions

variable (jhash : Jhash) (random : UInt32)

/-- `string_hash_key` with the mask `MAX_CACHE_NUMBER - 1`. -/
def cacheHashKey (keyBuf : Bytes) : Fin maxCacheNumber :=
  ⟨(jhash keyBuf random &&& 8191).toNat, by
    rw [UInt32.toNat_and]
    exact Nat.lt_succ_of_le Nat.and_le_right⟩

/-- `key_buf`: `len` bytes of the path, the modification time, the size. -/
def keyBuf (path : CStr) (len : ℕ) (f : FileStamp) : Bytes :=
  path.bytes.take len ++ wordBytes f.mtime.tvSec ++ wordBytes f.mtime.tvNsec ++ wordBytes f.size

/-- The slot `set_whitelist_cache` writes. -/
def setSlot (path : CStr) (f : FileStamp) : Fin maxCacheNumber :=
  cacheHashKey jhash random (keyBuf path path.strlen f)

/-- The slot `check_whitelist_cache` reads. -/
def checkSlot (path : CStr) (f : FileStamp) : Fin maxCacheNumber :=
  cacheHashKey jhash random (keyBuf path (min path.strlen pathLen) f)

/-- `check_whitelist_cache`: the digest of the slot on a hit.  `kzalloc` is
whether the key buffer could be allocated. -/
def checkWhitelistCache (c : CacheArray) (kzalloc : Bool) (f : FileStamp) (path : CStr) :
    Option Digest :=
  let len := min path.strlen pathLen
  if kzalloc then
    match c (checkSlot jhash random path f) with
    | none => none
    | some e =>
        if e.flag = false ∨ e.pathLen ≠ len ∨ memcmp len e.path path.bytes ≠ 0 then none
        else some e.digest
  else none

/-- The entry `set_whitelist_cache` leaves in a slot that held `e`. -/
def fillEntry (e : WhitelistCache) (path : CStr) (digest : Digest) : WhitelistCache :=
  let e := if e.flag then WhitelistCache.zero else e
  let n := if path.strlen < pathLen then path.strlen else pathLen
  { e with
    path := path.bytes.take n ++ e.path.drop n
    pathLen := n
    digest := digest
    flag := true }

/-- `set_whitelist_cache`. -/
def setWhitelistCache (c : CacheArray) (kzalloc : Bool) (f : FileStamp) (path : CStr)
    (digest : Digest) : CacheArray × ℤ :=
  if kzalloc then
    match c (setSlot jhash random path f) with
    | none => (c, -einval)
    | some e => (Function.update c (setSlot jhash random path f) (some (fillEntry e path digest)), 0)
  else (c, -einval)

end Functions

/-- What a filled slot holds: the clamped path, its length and the digest. -/
theorem fillEntry_path (e : WhitelistCache) (path : CStr) (d : Digest) :
    (fillEntry e path d).pathLen = min path.strlen pathLen ∧
      (fillEntry e path d).path.take (min path.strlen pathLen) = path.bytes.take pathLen ∧
        min path.strlen pathLen ≤ (fillEntry e path d).path.length := by
  have hn : (if path.strlen < pathLen then path.strlen else pathLen) = min path.strlen pathLen := by
    split_ifs <;> omega
  have hl : path.bytes.length = path.strlen := rfl
  simp only [fillEntry, hn]
  refine ⟨trivial, ?_, ?_⟩
  · rw [List.take_append_of_le_length (by rw [List.length_take]; omega), List.take_take, min_self]
    rcases Nat.le_total path.strlen pathLen with h | h
    · rw [min_eq_left h, List.take_of_length_le (by omega), List.take_of_length_le (by omega)]
    · rw [min_eq_right h]
  · rw [List.length_append, List.length_take]
    omega

/-- A slot after `set_whitelist_cache` holds what it held, or what was set. -/
theorem setWhitelistCache_slot {jhash : Jhash} {random : UInt32} {c : CacheArray} {kzalloc : Bool}
    {f : FileStamp} {path : CStr} {d : Digest} {i : Fin maxCacheNumber} {e : WhitelistCache}
    (h : (setWhitelistCache jhash random c kzalloc f path d).1 i = some e) :
    c i = some e ∨
      kzalloc = true ∧ setSlot jhash random path f = i ∧ ∃ e₀, e = fillEntry e₀ path d := by
  unfold setWhitelistCache at h
  cases kzalloc with
  | false => exact Or.inl h
  | true =>
      rw [if_pos rfl] at h
      cases hc : c (setSlot jhash random path f) with
      | none =>
          rw [hc] at h
          exact Or.inl h
      | some e₀ =>
          rw [hc] at h
          simp only at h
          rcases eq_or_ne i (setSlot jhash random path f) with rfl | hi
          · rw [Function.update_self] at h
            exact Or.inr ⟨rfl, rfl, e₀, (Option.some.inj h).symm⟩
          · rw [Function.update_of_ne hi] at h
            exact Or.inl h

/-! ### Runs of cache operations -/

/-- A call on the cache, with what it read from the file. -/
inductive CacheOp
  | set (kzalloc : Bool) (f : FileStamp) (path : CStr) (digest : Digest)
  | check (kzalloc : Bool) (f : FileStamp) (path : CStr)
  | clean

/-- The state after one call. -/
def cacheStep (jhash : Jhash) (random : UInt32) (c : CacheArray) : CacheOp → CacheArray
  | .set kzalloc f path digest => (setWhitelistCache jhash random c kzalloc f path digest).1
  | .check _ _ _ => c
  | .clean => policyWhitelistCacheClean c

/-- The cache after the calls. -/
def cacheRun (jhash : Jhash) (random : UInt32) (ops : List CacheOp) : CacheArray :=
  ops.foldl (cacheStep jhash random) policyWhitelistCacheInit

/-- The call cleans slot `i` or writes it. -/
def CacheOp.Touches (jhash : Jhash) (random : UInt32) (i : Fin maxCacheNumber) : CacheOp → Prop
  | .set kzalloc f path _ => kzalloc = true ∧ setSlot jhash random path f = i
  | .check _ _ _ => False
  | .clean => True

/-- The calls contain `op`, and no later one touches slot `i`. -/
def Retained (jhash : Jhash) (random : UInt32) (ops : List CacheOp) (i : Fin maxCacheNumber)
    (op : CacheOp) : Prop :=
  ∃ pre post, ops = pre ++ op :: post ∧ ∀ o ∈ post, ¬ o.Touches jhash random i

/-- The file a call is about, when it is about one. -/
def CacheOp.file : CacheOp → Option (CStr × FileStamp)
  | .set _ f path _ => some (path, f)
  | .check _ f path => some (path, f)
  | .clean => none

section Soundness

variable {jhash : Jhash} {random : UInt32}

theorem Retained.mem {ops : List CacheOp} {i : Fin maxCacheNumber} {op : CacheOp}
    (h : Retained jhash random ops i op) : op ∈ ops := by
  obtain ⟨pre, post, rfl, -⟩ := h
  exact List.mem_append_right _ List.mem_cons_self

theorem Retained.append {ops : List CacheOp} {i : Fin maxCacheNumber} {op o : CacheOp}
    (h : Retained jhash random ops i op) (ho : ¬ o.Touches jhash random i) :
    Retained jhash random (ops ++ [o]) i op := by
  obtain ⟨pre, post, rfl, hpost⟩ := h
  refine ⟨pre, post ++ [o], by simp, fun o' ho' => ?_⟩
  rcases List.mem_append.mp ho' with h' | h'
  · exact hpost o' h'
  · rwa [List.mem_singleton.mp h']

/-- Slot `i` holds what a call of `set_whitelist_cache` left there, and that
call has been neither cleaned away nor overwritten. -/
def SlotRetained (jhash : Jhash) (random : UInt32) (ops : List CacheOp) (i : Fin maxCacheNumber)
    (e : WhitelistCache) : Prop :=
  ∃ e₀ f path d, e = fillEntry e₀ path d ∧ setSlot jhash random path f = i ∧
    Retained jhash random ops i (.set true f path d)

/-- **The history behind a filled slot.** -/
theorem run_retained (ops : List CacheOp) (i : Fin maxCacheNumber) :
    ∃ e, cacheRun jhash random ops i = some e ∧
      (e.flag = true → SlotRetained jhash random ops i e) := by
  induction ops using List.reverseRecOn generalizing i with
  | nil => exact ⟨WhitelistCache.zero, rfl, fun h => absurd h Bool.false_ne_true⟩
  | append_singleton ops op ih =>
      have hkeep : ∀ {j}, ¬ op.Touches jhash random j →
          cacheRun jhash random (ops ++ [op]) j = cacheRun jhash random ops j →
            ∃ e, cacheRun jhash random (ops ++ [op]) j = some e ∧
              (e.flag = true → SlotRetained jhash random (ops ++ [op]) j e) := by
        intro j hj heq
        obtain ⟨e, he, hret⟩ := ih j
        refine ⟨e, heq.trans he, fun hf => ?_⟩
        obtain ⟨e₀, f, path, d, hfill, hslot, hr⟩ := hret hf
        exact ⟨e₀, f, path, d, hfill, hslot, hr.append hj⟩
      have hrun : cacheRun jhash random (ops ++ [op]) =
          cacheStep jhash random (cacheRun jhash random ops) op := by
        rw [cacheRun, List.foldl_append]
        rfl
      cases op with
      | set kzalloc f path d =>
          obtain ⟨e₀, he₀, -⟩ := ih (setSlot jhash random path f)
          cases kzalloc with
          | false =>
              exact hkeep (fun h => Bool.false_ne_true h.1) (by rw [hrun]; rfl)
          | true =>
              have hset : cacheRun jhash random (ops ++ [.set true f path d]) =
                  Function.update (cacheRun jhash random ops) (setSlot jhash random path f)
                    (some (fillEntry e₀ path d)) := by
                rw [hrun, cacheStep, setWhitelistCache, if_pos rfl, he₀]
              rcases eq_or_ne i (setSlot jhash random path f) with rfl | hi
              · refine ⟨fillEntry e₀ path d, by rw [hset, Function.update_self], fun _ => ?_⟩
                exact ⟨e₀, f, path, d, rfl, rfl, ops, [], rfl, by simp⟩
              · exact hkeep (fun h => hi h.2.symm) (by rw [hset, Function.update_of_ne hi])
      | check kzalloc f path => exact hkeep id (by rw [hrun]; rfl)
      | clean =>
          obtain ⟨e, he, -⟩ := ih i
          refine ⟨WhitelistCache.zero, ?_, fun h => absurd h Bool.false_ne_true⟩
          rw [hrun, cacheStep, policyWhitelistCacheClean, he]
          rfl

/-- A hit returns the digest of a slot filled for the same clamped path. -/
theorem checkWhitelistCache_hit {c : CacheArray} {kzalloc : Bool} {f : FileStamp} {path : CStr}
    {d : Digest} (h : checkWhitelistCache jhash random c kzalloc f path = some d) :
    ∃ e, c (checkSlot jhash random path f) = some e ∧ e.flag = true ∧
      e.pathLen = min path.strlen pathLen ∧
        memcmp (min path.strlen pathLen) e.path path.bytes = 0 ∧ e.digest = d := by
  unfold checkWhitelistCache at h
  cases kzalloc with
  | false => exact absurd h (by simp)
  | true =>
      rw [if_pos rfl] at h
      cases hc : c (checkSlot jhash random path f) with
      | none =>
          rw [hc] at h
          exact absurd h (by simp)
      | some e =>
          rw [hc] at h
          simp only at h
          split_ifs at h with hmiss
          simp only [not_or, Bool.not_eq_false, ne_eq, not_not] at hmiss
          exact ⟨e, rfl, hmiss.1, hmiss.2.1, hmiss.2.2, Option.some.inj h⟩

/-- The comparison of a filled slot is equality of the clamped paths. -/
theorem memcmp_fillEntry {e : WhitelistCache} {p q : CStr} {d : Digest}
    (hlen : (fillEntry e p d).pathLen = min q.strlen pathLen) :
    memcmp (min q.strlen pathLen) (fillEntry e p d).path q.bytes = 0 ↔
      p.bytes.take pathLen = q.bytes.take pathLen := by
  obtain ⟨h₁, h₂, h₃⟩ := fillEntry_path e p d
  have hpq : min p.strlen pathLen = min q.strlen pathLen := h₁.symm.trans hlen
  have hl : q.bytes.length = q.strlen := rfl
  rw [memcmp_eq_zero (by omega) (by omega), ← hpq, h₂]
  rcases Nat.le_total q.strlen pathLen with h | h
  · rw [show min p.strlen pathLen = q.strlen by omega, List.take_of_length_le hl.le,
      List.take_of_length_le (show q.bytes.length ≤ pathLen by omega)]
  · rw [show min p.strlen pathLen = pathLen by omega]

end Soundness

/-- No two files of `K` share the clamped path and the slot. -/
def NoAlias (jhash : Jhash) (random : UInt32) (K : Set (CStr × FileStamp)) : Prop :=
  ∀ k ∈ K, ∀ k' ∈ K, k.1.bytes.take pathLen = k'.1.bytes.take pathLen →
    setSlot jhash random k.1 k.2 = checkSlot jhash random k'.1 k'.2 → k = k'

/-- After `ops`, a hit for a file of `K` comes from a call that cached the same
path with the same modification time and size, still in its slot. -/
def HitSound (jhash : Jhash) (random : UInt32) (K : Set (CStr × FileStamp))
    (ops : List CacheOp) : Prop :=
  ∀ kzalloc path f d, (path, f) ∈ K →
    checkWhitelistCache jhash random (cacheRun jhash random ops) kzalloc f path = some d →
      Retained jhash random ops (setSlot jhash random path f) (.set true f path d)

/-- One file cached, another of the same clamped path and slot looked up. -/
theorem checkWhitelistCache_set_init {jhash : Jhash} {random : UInt32} {p q : CStr}
    {f g : FileStamp} (hp : p.bytes.take pathLen = q.bytes.take pathLen)
    (hslot : setSlot jhash random p f = checkSlot jhash random q g) (d : Digest) :
    checkWhitelistCache jhash random (cacheRun jhash random [.set true f p d]) true g q = some d := by
  have hlen : min p.strlen pathLen = min q.strlen pathLen := by
    have h := congrArg List.length hp
    rw [List.length_take, List.length_take] at h
    exact (min_comm _ _).trans (h.trans (min_comm _ _))
  obtain ⟨h₁, -, -⟩ := fillEntry_path WhitelistCache.zero p d
  have hrun : cacheRun jhash random [.set true f p d] (checkSlot jhash random q g) =
      some (fillEntry WhitelistCache.zero p d) := by
    rw [← hslot]
    exact Function.update_self ..
  have hmem := (memcmp_fillEntry (h₁.trans hlen)).mpr hp
  rw [checkWhitelistCache, if_pos rfl, hrun]
  simp only [h₁, hlen, hmem, ne_eq, not_true, or_false]
  rfl

/-- **When a hit proves that the file was cached.**  For every hash and every
set `K` of files: in every run of cache calls on files of `K`, each hit comes
from a retained call for the same path, modification time and size, if and only
if no two files of `K` share the clamped path and the slot. -/
theorem cache_hit_sound_iff (jhash : Jhash) (random : UInt32) (K : Set (CStr × FileStamp)) :
    (∀ ops : List CacheOp, (∀ op ∈ ops, ∀ k, op.file = some k → k ∈ K) →
      HitSound jhash random K ops) ↔ NoAlias jhash random K := by
  constructor
  · intro hall k hk k' hk' hpath hslot
    have hops : ∀ op ∈ [CacheOp.set true k.2 k.1 Digest.zero], ∀ x, op.file = some x → x ∈ K := by
      intro op hop x hx
      rw [List.mem_singleton.mp hop] at hx
      exact Option.some.inj hx ▸ hk
    have hret := hall _ hops true k'.1 k'.2 Digest.zero hk'
      (checkWhitelistCache_set_init hpath hslot _)
    have hmem := List.mem_singleton.mp hret.mem
    simp only [CacheOp.set.injEq, true_and, and_true] at hmem
    exact Prod.ext hmem.2.symm hmem.1.symm
  · intro hK ops hops kzalloc path f d hmem hhit
    obtain ⟨e, he, hflag, hlen, hcmp, rfl⟩ := checkWhitelistCache_hit hhit
    obtain ⟨e', he', hret⟩ : ∃ e', cacheRun jhash random ops (checkSlot jhash random path f) =
        some e' ∧ (e'.flag = true →
          SlotRetained jhash random ops (checkSlot jhash random path f) e') := run_retained ops _
    obtain rfl := Option.some.inj (he.symm.trans he')
    obtain ⟨e₀, f₀, p₀, d₀, rfl, hslot, hr⟩ := hret hflag
    have hp : p₀.bytes.take pathLen = path.bytes.take pathLen := (memcmp_fillEntry hlen).mp hcmp
    have hmem₀ : (p₀, f₀) ∈ K := hops _ hr.mem _ rfl
    obtain ⟨rfl, rfl⟩ := Prod.ext_iff.mp (hK _ hmem₀ _ hmem hp hslot)
    rwa [hslot]

/-- **A modified file is reported as a hit.**  The hash puts every key in one
slot; `/a` is cached with size 1 and modification time 0, and the lookup of
`/a` with size 2 hits although nothing of that size was ever cached. -/
theorem cache_hit_after_modification :
    ¬ ∀ (jhash : Jhash) (random : UInt32) (ops : List CacheOp),
      HitSound jhash random Set.univ ops := by
  intro hall
  let p : CStr := ⟨[47, 97], by decide⟩
  have hslot : setSlot (fun _ _ => 0) 0 p ⟨⟨0, 0⟩, 1⟩ = checkSlot (fun _ _ => 0) 0 p ⟨⟨0, 0⟩, 2⟩ := by
    simp only [setSlot, checkSlot, cacheHashKey]
  have hret := hall (fun _ _ => 0) 0 [.set true ⟨⟨0, 0⟩, 1⟩ p Digest.zero] true p ⟨⟨0, 0⟩, 2⟩
    Digest.zero trivial (checkWhitelistCache_set_init rfl hslot _)
  have hmem := List.mem_singleton.mp hret.mem
  simp only [CacheOp.set.injEq, true_and, and_true] at hmem
  exact absurd hmem (by decide)

end Whitelist
end TsbAgent
