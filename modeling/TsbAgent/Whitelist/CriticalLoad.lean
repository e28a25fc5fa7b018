/-
# Loading the critical references

`load_critical_confile` of `tsb/kernel/smeasure/policy/hash_critical_confile.c` reads the file
that `TsbAgent.FileIntegrity.Critical` writes, from its fifth byte on and through a window of
1024 bytes, and fills a new table with the records whose digest is not all zero:

| record | what the loop does |
| --- | --- |
| longer than 1024 bytes with its padding | the window fills up, and the loop ends there |
| with a path that leaves no terminator in `path[512]` | overruns it |
| with a byte 0 in its path | keeps the path up to there |
| same path, digests agree up to a zero byte | dropped as a duplicate |

The user side knows none of these limits.  `critical_references_agree_iff` says when what it
returns and what the kernel holds are both the list that was prepared.
-/

import TsbAgent.FileIntegrity.Critical
import TsbAgent.Whitelist.CriticalConfile
import TsbAgent.Whitelist.Load

namespace TsbAgent
namespace Whitelist

open Libc Chained FileIntegrity

section Functions

variable (jhash : Jhash) (random : UInt32)

/-- `path[512]`, cleared before the copy, holds the path and a terminator. -/
def PathFits (p : Bytes) : Prop := pathLength p < 512 ∨ pathLength p = 512 ∧ (0 : UInt8) ∈ itemPath p

instance (p : Bytes) : Decidable (PathFits p) := inferInstanceAs (Decidable (_ ∨ _))

/-- What the loop does with a complete record, when it has the memory; an overrun is `none`. -/
def loadCriticalItem (p : Bytes) (w : CriticalConfileTable) : Option CriticalConfileTable :=
  if memcmp lenHash (itemHash p).1 Digest.zero.1 = 0 then some w
  else if PathFits p then
    some (criticalConfileTmpAdd jhash random w (CStr.ofBytes (itemPath p)) (itemHash p) true).1
  else none

/-- What `load_critical_confile` meets: the file, the memory, and the lengths of the reads. -/
structure CriticalLoadEnv where
  opened : Bool
  vmallocBuff : Bool
  vmallocTable : Bool
  reads : ℕ → ℕ

/-- `load_critical_confile` with the file at `critical_integrity.data`; the check of its digest
is only logged. -/
def loadCriticalConfileFile (e : CriticalLoadEnv) (file : Option Bytes) (w : CriticalConfileTable) :
    Option (CriticalConfileTable × ℤ) :=
  match file with
  | none => some (w, -1)
  | some f =>
      if e.opened = false then some (w, -1)
      else if e.vmallocBuff = false then some (w, -enomem)
      else if e.vmallocTable = false then some (w, -enomem)
      else
        (Window.loop 4 1024 paddedSize (loadCriticalItem jhash random) e.reads (f.drop 4).length [] (f.drop 4)
          criticalConfileInit).map fun w => (w, 0)

end Functions

/-- The file can be opened and there is memory. -/
structure CriticalLoadEnv.Ready (e : CriticalLoadEnv) : Prop where
  opened : e.opened = true
  vmallocBuff : e.vmallocBuff = true
  vmallocTable : e.vmallocTable = true

/-! ### The records build a table -/

section Table

variable {jhash : Jhash} {random : UInt32} {p : Bytes} {ps : List Bytes} {w : CriticalConfileTable}

/-- The record of the policy. -/
def criticalRecord (p : Bytes) : CriticalRecord := ⟨CStr.ofBytes (itemPath p), itemHash p, true⟩

/-- The records that are not deleted. -/
def criticalPolicy (ps : List Bytes) : List CriticalRecord :=
  (ps.filter fun p => itemHash p ≠ Digest.zero).map criticalRecord

theorem framed_loadCriticalItem : Window.Framed 4 paddedSize (loadCriticalItem jhash random) where
  header_lt p := (@framed_loadItem jhash random).header_lt p
  size_append p r h := (@framed_loadItem jhash random).size_append p r h
  item_append p r w h := by
    rw [paddedSize_eq] at h
    have hfit : recordSize p ≤ p.length := (le_align4 _).trans h
    have h4 : 4 ≤ p.length := by
      unfold recordSize at hfit
      omega
    obtain ⟨hhash, hpath⟩ := item_append hfit r
    obtain ⟨-, hlen, -⟩ := header_append h4 r
    have hfits : PathFits (p ++ r) ↔ PathFits p := by rw [PathFits, PathFits, hpath, hlen]
    simp only [loadCriticalItem, hhash, hpath, hfits]

/-- The records add up to the table of their policy, or overrun the path. -/
theorem workAll_critical (ps : List Bytes) (w : CriticalConfileTable) :
    ((∃ p ∈ ps, itemHash p ≠ Digest.zero ∧ ¬ PathFits p) →
      Window.workAll (loadCriticalItem jhash random) ps w = none) ∧
    ((∀ p ∈ ps, itemHash p ≠ Digest.zero → PathFits p) →
      Window.workAll (loadCriticalItem jhash random) ps w =
        some ((criticalPolicy ps).foldl
          (fun w r => (criticalConfileTmpAdd jhash random w r.path r.hash r.kzalloc).1) w)) := by
  induction ps generalizing w with
  | nil => exact ⟨nofun, fun _ => rfl⟩
  | cons p ps ih =>
      rw [Window.workAll, loadCriticalItem]
      by_cases h0 : itemHash p = Digest.zero
      · have hpolicy : criticalPolicy (p :: ps) = criticalPolicy ps := by
          rw [criticalPolicy, List.filter_cons_of_neg (by simpa using h0), criticalPolicy]
        obtain ⟨ih₁, ih₂⟩ := ih w
        rw [if_pos (Digest.memcmp_eq_zero.mpr h0), Option.bind_some, hpolicy]
        refine ⟨?_, fun hall => ih₂ (List.forall_mem_cons.mp hall).2⟩
        rintro ⟨q, hq, hq0, hlong⟩
        rcases List.mem_cons.mp hq with rfl | hq
        · exact absurd h0 hq0
        · exact ih₁ ⟨q, hq, hq0, hlong⟩
      · have hpolicy : criticalPolicy (p :: ps) = criticalRecord p :: criticalPolicy ps := by
          rw [criticalPolicy, List.filter_cons_of_pos (by simpa using h0), List.map_cons, criticalPolicy]
        rw [if_neg (mt Digest.memcmp_eq_zero.mp h0), hpolicy]
        by_cases hfits : PathFits p
        · obtain ⟨ih₁, ih₂⟩ := ih (criticalConfileTmpAdd jhash random w (CStr.ofBytes (itemPath p)) (itemHash p) true).1
          rw [if_pos hfits, Option.bind_some]
          refine ⟨?_, fun hall => ih₂ (List.forall_mem_cons.mp hall).2⟩
          rintro ⟨q, hq, hq0, hlong⟩
          rcases List.mem_cons.mp hq with rfl | hq
          · exact absurd hfits hlong
          · exact ih₁ ⟨q, hq, hq0, hlong⟩
        · rw [if_neg hfits]
          exact ⟨fun _ => rfl, fun hall => absurd ((List.forall_mem_cons.mp hall).1 h0) hfits⟩

/-- A new entry has no namesake whose digest agrees with its own up to a zero byte. -/
theorem not_same_of_lookup {policy : List CriticalRecord} {r : CriticalRecord} {v : CriticalConfileDigest}
    (hmiss : ¬ (loadCriticalConfile jhash random policy).hashtable.lookup
      (criticalConfilePathHashKey jhash random r.path)
      (fun u => criticalConfilePathHashCmp u r.hash r.path = 0) = true)
    (hv : v ∈ (loadCriticalConfile jhash random policy).hashtable.contents) :
    ¬ (v.name = r.path ∧ cstr v.digest.1 = cstr r.hash.1) := by
  rintro ⟨hname, hdigest⟩
  obtain ⟨k, hk⟩ := hv
  obtain ⟨-, rfl⟩ := listed_of_mem_chain hk
  refine hmiss (List.any_eq_true.mpr ⟨v, hname ▸ hk, ?_⟩)
  exact decide_eq_true (criticalConfilePathHashCmp_eq_zero.mpr ⟨hdigest, hname⟩)

/-- No two entries of a loaded table have the same name and digests that agree up to a zero
byte. -/
theorem loadCriticalConfile_unique {policy : List CriticalRecord} {u v : CriticalConfileDigest}
    (hu : u ∈ (loadCriticalConfile jhash random policy).hashtable.contents)
    (hv : v ∈ (loadCriticalConfile jhash random policy).hashtable.contents)
    (hname : u.name = v.name) (hdigest : cstr u.digest.1 = cstr v.digest.1) : u = v := by
  induction policy using List.reverseRecOn with
  | nil =>
      obtain ⟨k, hk⟩ := hu
      exact absurd hk List.not_mem_nil
  | append_singleton policy r ih =>
      rw [loadCriticalConfile_snoc] at hu hv
      unfold criticalConfileTmpAdd at hu hv
      dsimp only at hu hv
      split_ifs at hu hv with halloc hfound
      · exact ih hu hv
      · exact ih hu hv
      · rw [Table.contents_push] at hu hv
        rcases hu with rfl | hu
        · rcases hv with rfl | hv
          · rfl
          · exact absurd ⟨hname.symm, hdigest.symm⟩ (not_same_of_lookup hfound hv)
        · rcases hv with rfl | hv
          · exact absurd ⟨hname, hdigest⟩ (not_same_of_lookup hfound hu)
          · exact ih hu hv

end Table

/-! ### The list that was prepared -/

/-- The digest is not all zero. -/
def Live (x : ItemUser) : Prop := x.hash ≠ some Digest.zero.1

instance (x : ItemUser) : Decidable (Live x) := inferInstanceAs (Decidable (_ ≠ _))

/-- A path as a string: without the terminator that most callers count in. -/
def pathString (b : Bytes) : Bytes := if b.getLast? = some 0 then b.dropLast else b

/-- The pair of an item. -/
def itemPair (x : ItemUser) : Bytes × Bytes := (pathString (x.path.getD []), x.hash.getD [])

/-- The items before the first whose record is longer than the window. -/
def fitting (items : List ItemUser) : List ItemUser := items.takeWhile fun x => encodedSize x ≤ 1024

/-- **The table holds exactly the pairs of the live items.** -/
def HoldsPairs (w : CriticalConfileTable) (items : List ItemUser) : Prop :=
  {q | ∃ u ∈ w.hashtable.contents, q = (u.name.bytes, u.digest.1)} = {q | ∃ x ∈ items, Live x ∧ q = itemPair x}

/-- **What the kernel asks of a list:** among the items before the first with a record of more
than 1024 bytes, the paths of the live ones leave room for a terminator, and no two with the same
path have digests that differ and agree up to a zero byte; no live item has a byte 0 inside its
path; and the pair of every live item is among those of these items. -/
structure Loadable (items : List ItemUser) : Prop where
  short : ∀ x ∈ fitting items, Live x →
    (x.path.getD []).length < 512 ∨ (x.path.getD []).length = 512 ∧ (0 : UInt8) ∈ x.path.getD []
  whole : ∀ x ∈ items, Live x → (0 : UInt8) ∉ (itemPair x).1
  loaded : ∀ x ∈ items, Live x → ∃ y ∈ fitting items, Live y ∧ itemPair y = itemPair x
  apart : ∀ x ∈ fitting items, ∀ y ∈ fitting items, Live x → Live y → (itemPair x).1 = (itemPair y).1 →
    cstr (itemPair x).2 = cstr (itemPair y).2 → (itemPair x).2 = (itemPair y).2

/-- The record at `p` is that of the item. -/
structure Represents (x : ItemUser) (p : Bytes) : Prop where
  hash : (itemHash p).1 = x.hash.getD []
  path : itemPath p = x.path.getD []
  pathLength : pathLength p = (x.path.getD []).length

theorem cstr_path {b : Bytes} (h : (0 : UInt8) ∉ pathString b) : cstr b = pathString b := by
  rw [pathString] at h ⊢
  split_ifs at h ⊢ with hlast
  · obtain ⟨t, rfl⟩ := List.getLast?_eq_some_iff.mp hlast
    rw [List.dropLast_concat] at h ⊢
    rw [cstr_append_of_notMem h]
    exact List.append_nil t
  · exact cstr_of_nulFree h

section Items

variable {fill : ℕ → UInt8} {pos : ℕ} {x : ItemUser} {items : List ItemUser} {p : Bytes} {ps : List Bytes}

theorem represents_encodeItem (h : checkItem x = .ok ()) (hc : Consistent x) (rest : Bytes) :
    Represents x (encodeItem fill pos x ++ rest) := by
  obtain ⟨⟨d, hd, hdlen⟩, -⟩ := checkItem_ok h
  obtain ⟨hext, hpath, -, pad, hdata⟩ := encodeItem_fields h hc fill pos rest
  rw [hd, Option.getD_some] at hdata
  refine ⟨?_, ?_, hpath⟩
  · show (itemData (encodeItem fill pos x ++ rest)).takeD lenHash 0 = _
    rw [hdata, hd, Option.getD_some, List.takeD_eq_take, List.take_left' (show d.length = lenHash from hdlen)]
    rw [List.length_append, hdlen]
    exact Nat.le_add_right _ _
  · rw [itemPath, hext, hpath, hdata, ← List.drop_drop, List.drop_left' (show d.length = lenHash from hdlen),
      List.drop_left, List.take_left]

/-- **The records of consistent items that the window can hold.** -/
theorem records_encodeItems (hok : ∀ x ∈ items, checkItem x = .ok ()) (hc : ∀ x ∈ items, Consistent x) :
    ∃ ps, Window.Records 4 1024 paddedSize (encodeItems fill pos items) ps ∧
      List.Forall₂ Represents (fitting items) ps := by
  induction items generalizing pos with
  | nil => exact ⟨[], .nil (.inl (Nat.zero_le 4)), List.Forall₂.nil⟩
  | cons x xs ih =>
      obtain ⟨hx, hxs⟩ := List.forall_mem_cons.mp hok
      obtain ⟨hcx, hcxs⟩ := List.forall_mem_cons.mp hc
      obtain ⟨ps, hps, hall⟩ := @ih (pos + encodedSize x) hxs hcxs
      rw [encodeItems]
      generalize encodeItems fill (pos + encodedSize x) xs = rest at hps ⊢
      have hsize : paddedSize (encodeItem fill pos x ++ rest) = encodedSize x := by
        rw [paddedSize_eq, align4_encodeItem hx hcx, length_encodeItem]
      have hlen : (encodeItem fill pos x ++ rest).length = encodedSize x + rest.length := by
        rw [List.length_append, length_encodeItem]
      have hpos : 4 < encodedSize x := by
        rw [← hsize]
        exact (@framed_loadItem (fun _ _ => 0) 0).header_lt _
      have hends : Window.Ends 4 1024 paddedSize (encodeItem fill pos x ++ rest) ↔ 1024 < encodedSize x := by
        rw [Window.Ends, hsize, hlen]
        omega
      by_cases hfit : encodedSize x ≤ 1024
      · refine ⟨(encodeItem fill pos x ++ rest) :: ps, .cons (mt hends.mp (not_lt.mpr hfit)) ?_, ?_⟩
        · rw [hsize, ← @length_encodeItem x fill pos, List.drop_left]
          exact hps
        · rw [fitting, List.takeWhile_cons_of_pos (by simpa using hfit)]
          exact List.Forall₂.cons (represents_encodeItem hx hcx rest) hall
      · refine ⟨[], .nil (hends.mpr (not_le.mp hfit)), ?_⟩
        rw [fitting, List.takeWhile_cons_of_neg (by simpa using hfit)]
        exact List.Forall₂.nil

theorem live_iff (hx : checkItem x = .ok ()) (h : Represents x p) : Live x ↔ itemHash p ≠ Digest.zero := by
  obtain ⟨⟨d, hd, -⟩, -⟩ := checkItem_ok hx
  have hhash := h.hash
  rw [hd, Option.getD_some] at hhash
  rw [Live, hd, ← hhash, ne_eq, ne_eq, Option.some_inj, Subtype.ext_iff]

theorem pathFits_iff (h : Represents x p) :
    PathFits p ↔ (x.path.getD []).length < 512 ∨ (x.path.getD []).length = 512 ∧ (0 : UInt8) ∈ x.path.getD [] := by
  rw [PathFits, h.pathLength, h.path]

/-- The members of two lists that correspond. -/
theorem forall₂_mem {xs : List ItemUser} (h : List.Forall₂ Represents xs ps) :
    (∀ x ∈ xs, ∃ p ∈ ps, Represents x p) ∧ ∀ p ∈ ps, ∃ x ∈ xs, Represents x p := by
  induction h with
  | nil => exact ⟨nofun, nofun⟩
  | @cons x p xs ps hxp hall ih =>
      obtain ⟨ih₁, ih₂⟩ := ih
      refine ⟨List.forall_mem_cons.mpr ⟨⟨p, List.mem_cons_self, hxp⟩, fun y hy => ?_⟩,
        List.forall_mem_cons.mpr ⟨⟨x, List.mem_cons_self, hxp⟩, fun q hq => ?_⟩⟩
      · obtain ⟨q, hq, hyq⟩ := ih₁ y hy
        exact ⟨q, List.mem_cons_of_mem _ hq, hyq⟩
      · obtain ⟨y, hy, hyq⟩ := ih₂ q hq
        exact ⟨y, List.mem_cons_of_mem _ hy, hyq⟩

end Items

section Agreement

variable {jhash : Jhash} {random : UInt32} {items xs : List ItemUser} {ps : List Bytes}

/-- The entries of the table of a list of items, and how they cover it. -/
theorem contents_critical (hok : ∀ x ∈ xs, checkItem x = .ok ()) (hall : List.Forall₂ Represents xs ps) :
    (∀ u ∈ (loadCriticalConfile jhash random (criticalPolicy ps)).hashtable.contents,
      ∃ x ∈ xs, Live x ∧ u.name.bytes = cstr (x.path.getD []) ∧ u.digest.1 = x.hash.getD []) ∧
    ∀ x ∈ xs, Live x → ∃ u ∈ (loadCriticalConfile jhash random (criticalPolicy ps)).hashtable.contents,
      u.name.bytes = cstr (x.path.getD []) ∧ cstr u.digest.1 = cstr (x.hash.getD []) := by
  obtain ⟨hleft, hright⟩ := forall₂_mem hall
  constructor
  · rintro u ⟨k, hk⟩
    obtain ⟨⟨r, hr, hname, hhash⟩, -⟩ := listed_of_mem_chain hk
    obtain ⟨p, hp, rfl⟩ := List.mem_map.mp hr
    obtain ⟨hp, hlive⟩ := List.mem_filter.mp hp
    obtain ⟨x, hx, hxp⟩ := hright p hp
    refine ⟨x, hx, (live_iff (hok x hx) hxp).mpr (of_decide_eq_true hlive), ?_, ?_⟩
    · rw [← hname, ← hxp.path]
      rfl
    · rw [← hhash, ← hxp.hash]
      rfl
  · intro x hx hlive
    obtain ⟨p, hp, hxp⟩ := hleft x hx
    have hmem : criticalRecord p ∈ criticalPolicy ps :=
      List.mem_map_of_mem (List.mem_filter.mpr ⟨hp, decide_eq_true ((live_iff (hok x hx) hxp).mp hlive)⟩)
    obtain ⟨u, hu, hdigest, hname⟩ := @exists_mem_chain jhash random _ _ hmem rfl
    refine ⟨u, ⟨_, hu⟩, ?_, ?_⟩
    · rw [hname, ← hxp.path]
      rfl
    · rw [hdigest, ← hxp.hash]
      rfl

theorem mem_of_mem_fitting {x : ItemUser} (h : x ∈ fitting items) : x ∈ items :=
  (List.takeWhile_sublist _).subset h

/-- **When the table of the items that fit holds the pairs of all.** -/
theorem holdsPairs_iff (hok : ∀ x ∈ items, checkItem x = .ok ())
    (hall : List.Forall₂ Represents (fitting items) ps) :
    HoldsPairs (loadCriticalConfile jhash random (criticalPolicy ps)) items ↔
      (∀ x ∈ items, Live x → (0 : UInt8) ∉ (itemPair x).1) ∧
      (∀ x ∈ items, Live x → ∃ y ∈ fitting items, Live y ∧ itemPair y = itemPair x) ∧
      ∀ x ∈ fitting items, ∀ y ∈ fitting items, Live x → Live y → (itemPair x).1 = (itemPair y).1 →
        cstr (itemPair x).2 = cstr (itemPair y).2 → (itemPair x).2 = (itemPair y).2 := by
  have hokfit : ∀ x ∈ fitting items, checkItem x = .ok () := fun x hx => hok x (mem_of_mem_fitting hx)
  obtain ⟨hsub, hcover⟩ := @contents_critical jhash random _ _ hokfit hall
  constructor
  · intro hpairs
    -- every live item has its entry
    have hentry :
        ∀ x ∈ items, Live x → ∃ u ∈ (loadCriticalConfile jhash random (criticalPolicy ps)).hashtable.contents,
        itemPair x = (u.name.bytes, u.digest.1) := fun x hx hlive =>
      (Set.ext_iff.mp hpairs (itemPair x)).mpr ⟨x, hx, hlive, rfl⟩
    have hwhole : ∀ x ∈ items, Live x → (0 : UInt8) ∉ (itemPair x).1 := by
      intro x hx hlive
      obtain ⟨u, -, hpair⟩ := hentry x hx hlive
      rw [hpair]
      exact u.name.nulFree
    refine ⟨hwhole, fun x hx hlive => ?_, fun x hx y hy hlx hly hpath hdigest => ?_⟩
    · obtain ⟨u, hu, hpair⟩ := hentry x hx hlive
      obtain ⟨y, hy, hly, hname, hhash⟩ := hsub u hu
      refine ⟨y, hy, hly, ?_⟩
      rw [hpair, itemPair, hname, hhash, cstr_path (hwhole y (mem_of_mem_fitting hy) hly)]
    · obtain ⟨u, hu, hux⟩ := hentry x (mem_of_mem_fitting hx) hlx
      obtain ⟨v, hv, hvy⟩ := hentry y (mem_of_mem_fitting hy) hly
      rw [hux, hvy] at hpath hdigest ⊢
      rw [loadCriticalConfile_unique hu hv (CStr.ext hpath) hdigest]
  · rintro ⟨hwhole, hloaded, hapart⟩
    have hname : ∀ x ∈ fitting items, Live x → cstr (x.path.getD []) = (itemPair x).1 := fun x hx hlive =>
      cstr_path (hwhole x (mem_of_mem_fitting hx) hlive)
    ext q
    constructor
    · rintro ⟨u, hu, rfl⟩
      obtain ⟨x, hx, hlive, hbytes, hhash⟩ := hsub u hu
      refine ⟨x, mem_of_mem_fitting hx, hlive, ?_⟩
      rw [hbytes, hname x hx hlive, hhash]
      rfl
    · rintro ⟨x, hx, hlive, rfl⟩
      obtain ⟨y, hy, hly, hpair⟩ := hloaded x hx hlive
      obtain ⟨u, hu, hbytes, hdigest⟩ := hcover y hy hly
      obtain ⟨z, hz, hlz, hzbytes, hzhash⟩ := hsub u hu
      refine ⟨u, hu, ?_⟩
      have hsame := hapart z hz y hy hlz hly
        ((hname z hz hlz).symm.trans (hzbytes.symm.trans (hbytes.trans (hname y hy hly))))
        (show cstr (z.hash.getD []) = cstr (y.hash.getD []) from hzhash ▸ hdigest)
      rw [← hpair, hbytes, hname y hy hly, hzhash]
      exact Prod.ext rfl hsame.symm

/-- **What the loader ends with,** for every pattern of short reads. -/
theorem load_iff {fill : ℕ → UInt8} {pos n : ℕ} {e : CriticalLoadEnv} (he : e.Ready)
    (hok : ∀ x ∈ items, checkItem x = .ok ()) (hc : ∀ x ∈ items, Consistent x) (w : CriticalConfileTable) :
    (∃ w', loadCriticalConfileFile jhash random e (some (Word.hostBytes 4 n ++ encodeItems fill pos items)) w =
      some (w', 0) ∧ HoldsPairs w' items) ↔ Loadable items := by
  obtain ⟨ps, hrec, hall⟩ := @records_encodeItems fill pos items hok hc
  obtain ⟨hlong, hshort⟩ := @workAll_critical jhash random ps criticalConfileInit
  obtain ⟨hleft, hright⟩ := forall₂_mem hall
  have hdrop : (Word.hostBytes 4 n ++ encodeItems fill pos items).drop 4 = encodeItems fill pos items :=
    List.drop_left' (Word.length_hostBytes 4 n)
  have hfits : (∀ p ∈ ps, itemHash p ≠ Digest.zero → PathFits p) ↔ ∀ x ∈ fitting items, Live x →
      (x.path.getD []).length < 512 ∨ (x.path.getD []).length = 512 ∧ (0 : UInt8) ∈ x.path.getD [] := by
    constructor
    · intro h x hx hlive
      obtain ⟨p, hp, hxp⟩ := hleft x hx
      exact (pathFits_iff hxp).mp (h p hp ((live_iff (hok x (mem_of_mem_fitting hx)) hxp).mp hlive))
    · intro h p hp hne
      obtain ⟨x, hx, hxp⟩ := hright p hp
      exact (pathFits_iff hxp).mpr (h x hx ((live_iff (hok x (mem_of_mem_fitting hx)) hxp).mpr hne))
  rw [loadCriticalConfileFile, if_neg (by simp [he.opened]), if_neg (by simp [he.vmallocBuff]),
    if_neg (by simp [he.vmallocTable]), hdrop, Window.loop_eq framed_loadCriticalItem (by decide) e.reads hrec]
  by_cases hgood : ∀ p ∈ ps, itemHash p ≠ Digest.zero → PathFits p
  · have hpairs := @holdsPairs_iff jhash random items ps hok hall
    rw [hshort hgood]
    constructor
    · rintro ⟨w', hw', hholds⟩
      obtain ⟨rfl, -⟩ := Prod.mk.inj (Option.some.inj hw')
      obtain ⟨hwhole, hloaded, hapart⟩ := hpairs.mp hholds
      exact ⟨hfits.mp hgood, hwhole, hloaded, hapart⟩
    · rintro ⟨-, hwhole, hloaded, hapart⟩
      exact ⟨_, rfl, hpairs.mpr ⟨hwhole, hloaded, hapart⟩⟩
  · refine iff_of_false ?_ fun h => hgood (hfits.mpr h.short)
    push Not at hgood
    rw [hlong hgood]
    rintro ⟨w', hw', -⟩
    exact nomatch hw'

end Agreement

/-- An item for `/a` with a digest that starts with 1, 0. -/
def twinItem (third : UInt8) : ItemUser where
  hashLength := 32
  pathLength := 3
  isControl := 0
  isEnable := 1
  isFullPath := 1
  extendSize := 0
  hash := some ([1, 0, third] ++ List.replicate 29 0)
  path := some [47, 97, 0]
  extendBuffer := none
  length_hash := by
    rintro b ⟨⟩
    rfl
  length_path := by
    rintro b ⟨⟩
    rfl
  length_extend := (bareItem 0).length_extend

/-- A store, a reader and a loader with nothing in their way. -/
def plainStore : StoreEnv := ⟨none, none, true, ⟨true, 1000, 0⟩, ⟨true, 1000, 0⟩⟩

@[inherit_doc plainStore] def plainGet : GetEnv := ⟨none, ⟨true, true, true⟩, true⟩

@[inherit_doc plainStore] def plainLoad : CriticalLoadEnv := ⟨true, true, true, fun _ => 1⟩

theorem plain_granted : plainStore.Kept ∧ plainGet.Granted ∧ plainLoad.Ready :=
  ⟨⟨rfl, rfl⟩, ⟨rfl, ⟨rfl, rfl, rfl⟩, rfl⟩, ⟨rfl, rfl, rfl⟩⟩

theorem twinItem_consistent (third : UInt8) : Consistent (twinItem third) := ⟨fun _ => rfl, nofun⟩

end Whitelist
end TsbAgent
