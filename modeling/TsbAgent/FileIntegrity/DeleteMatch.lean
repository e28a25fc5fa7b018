/-
# What a delete selects

`file_integrity_delete_policy_data_prepare` looks in the chain of each item of the update for the nodes that match
it, and collects them once each.  `file_integrity_match` and `file_integrity_match_next` are the same comparison,
from the head of the chain and from behind a node (`nextMatch`):

| | node | item |
| --- | --- | --- |
| digest | bytes 4 … 35 | bytes 4 … 35 |
| path | behind the extended data of the node | behind as many bytes as the *node* has extended data |

Of an item with less extended data than the node the comparison reads beyond the record; of one with more it reads
the end of the extended data for the beginning of the path.  An update without a byte has no item, and then a
pointer is freed that has not been set.  `deletePolicyDataPrepare_iff` says when nothing of this is noticed.
-/

import TsbAgent.FileIntegrity.Nodes
import TsbAgent.Lib.Access

namespace TsbAgent
namespace FileIntegrity
namespace Nodes

open Libc Store

/-! ### The comparison and its reads -/

/-- The two `memcmp` of the digests; an area is a record. -/
def hashReads (node : Node) (item : Bytes) : List Access := [⟨4, 32, node.size⟩, ⟨4, 32, recordSize item⟩]

/-- The two areas of the `memcmp` of the paths. -/
def pathReads (node : Node) (item : Bytes) : List Access :=
  [⟨36 + extendSize node.data, node.pathLength, node.size⟩,
    ⟨36 + extendSize node.data, node.pathLength, recordSize item⟩]

/-- What the comparison of a node with an item reads behind the headers. -/
def compareReads (node : Node) (item : Bytes) : List Access :=
  if node.pathLength = 0 then
    if FileIntegrity.pathLength item = 0 then hashReads node item else []
  else if FileIntegrity.pathLength item ≠ node.pathLength then []
  else hashReads node item ++ if itemHash item = itemHash node.data then pathReads node item else []

/-- The loop of `file_integrity_match` and `file_integrity_match_next`: what is left of the chain from the node on
that matches, and the reads. -/
def nextMatch (t : IntegrityData) (behind : ℕ → UInt8) (item : Bytes) :
    List ℕ → Except Fault (List ℕ × List Access)
  | [] => .ok ([], [])
  | a :: chain => do
      let n ← readNode t a
      if nodeMatches behind n.item item then .ok (a :: chain, compareReads n.item item)
      else
        let r ← nextMatch t behind item chain
        .ok (r.1, compareReads n.item item ++ r.2)

/-! ### The array -/

/-- `struct httc_util_array` of pointers. -/
structure DelArray where
  elems : List ℕ
  capability : ℕ

/-- `httc_util_array_append`, where `grant` says at which sizes the array can be made larger. -/
def httcUtilArrayAppend (grant : ℕ → Bool) (d : DelArray) (info : ℕ) : ℤ × DelArray :=
  if d.elems.length = d.capability then
    if grant d.capability = false then (-1, d) else (0, ⟨d.elems ++ [info], d.capability + 2⟩)
  else (0, ⟨d.elems ++ [info], d.capability⟩)

/-- The allocations of a delete: the items, the array, and what makes it larger. -/
structure DelGrants where
  items : Bool
  array : Bool
  inflate : ℕ → Bool

/-- `httc_util_array_check`, and `httc_util_array_append` where it finds nothing. -/
def collectNode (grant : ℕ → Bool) (d : DelArray) (a : ℕ) : ℤ × DelArray :=
  if a ∈ d.elems then (0, d) else httcUtilArrayAppend grant d a

/-- The loop over the nodes that match an item. -/
def collectMatches (grant : ℕ → Bool) (t : IntegrityData) (behind : ℕ → UInt8) (item : Bytes) :
    ℕ → List ℕ → DelArray → Except Fault (ℤ × DelArray × List Access)
  | 0, _, d => .ok (0, d, [])
  | fuel + 1, chain, d => do
      let s ← nextMatch t behind item chain
      match s.1 with
      | [] => .ok (0, d, s.2)
      | a :: rest =>
          let w := collectNode grant d a
          if w.1 ≠ 0 then .ok (tcfErrNomem, w.2, s.2)
          else
            let r ← collectMatches grant t behind item fuel rest w.2
            .ok (r.1, r.2.1, s.2 ++ r.2.2)

/-- The loop over the items.  A chain has no more matches than nodes. -/
def collectItems (grant : ℕ → Bool) (t : IntegrityData) (behind : ℕ → UInt8) :
    List Bytes → DelArray → Except Fault (ℤ × DelArray × List Access)
  | [], d => .ok (0, d, [])
  | item :: items, d => do
      let chain := t.hashTable (hashValue item)
      let r ← collectMatches grant t behind item (chain.length + 1) chain d
      let reads := ⟨4, 2, recordSize item⟩ :: r.2.2
      if r.1 ≠ 0 then .ok (r.1, r.2.1, reads)
      else
        let rest ← collectItems grant t behind items r.2.1
        .ok (rest.1, rest.2.1, reads ++ rest.2.2)

/-- What `file_integrity_delete_policy_data_prepare` returns; `dellist` is set where there is something to delete. -/
structure Prepared where
  ret : ℤ
  dellist : Option (List ℕ)
  reads : List Access

/-- `httc_free(pitems)`: `buffer_to_item_array` sets `pitems` only where there is an item. -/
def freeItems (pitems : List Bytes) (p : Prepared) : Except Fault Prepared :=
  if pitems = [] then .error .stray else .ok p

/-- The end of `file_integrity_delete_policy_data_prepare`. -/
def prepared (r : ℤ × DelArray × List Access) : Prepared :=
  ⟨r.1, if r.1 ≠ 0 ∨ r.2.1.elems = [] then none else some r.2.1.elems, r.2.2⟩

/-- `file_integrity_delete_policy_data_prepare`. -/
def deletePolicyDataPrepare (g : DelGrants) (behind : ℕ → UInt8) (data : Bytes) (t : IntegrityData) :
    Except Fault Prepared :=
  if g.items = false then .ok ⟨tcfErrNomem, none, []⟩
  else
    match bufferToItemArray data data.length with
    | .error e => .ok ⟨e, none, []⟩
    | .ok pitems =>
        if g.array = false then freeItems pitems ⟨-1, none, []⟩
        else do
          let r ← collectItems g.inflate t behind pitems ⟨[], 2⟩
          freeItems pitems (prepared r)

/-! ### What it selects -/

/-- Every allocation is granted. -/
structure DelGrants.Granted (g : DelGrants) : Prop where
  items : g.items = true
  array : g.array = true
  inflate : ∀ k, g.inflate k = true

/-- The node has the digest and the path of an item, each path behind its own extended data. -/
def Named (t : IntegrityData) (pitems : List Bytes) (a : ℕ) : Prop :=
  a ∈ t.list ∧ ∃ n, t.heap.read a = some n ∧ ∃ item ∈ pitems, SameRef n.item.data item

/-- **A delete selects exactly what it names:** whatever lies behind the update and whatever allocation fails, it
returns, has read inside the records, and has collected on success the nodes that are named, each once. -/
def SelectsExactly (t : IntegrityData) (data : Bytes) (pitems : List Bytes) : Prop :=
  ∀ (g : DelGrants) (behind : ℕ → UInt8), ∃ p, deletePolicyDataPrepare g behind data t = .ok p ∧ Safe p.reads ∧
    (g.Granted → p.ret = 0) ∧
    (p.ret = 0 → (p.dellist.getD []).Nodup ∧ ∀ a, a ∈ p.dellist.getD [] ↔ Named t pitems a)

/-- The paths of the two are compared. -/
structure Alike (r item : Bytes) : Prop where
  hash : itemHash item = itemHash r
  pathLength : FileIntegrity.pathLength item = FileIntegrity.pathLength r
  path : FileIntegrity.pathLength r ≠ 0

/-- The bytes of the item that are compared with the path of the reference. -/
def comparedPath (r item : Bytes) : Bytes :=
  ((itemData item).drop (32 + extendSize r)).take (FileIntegrity.pathLength r)

/-- No item has less extended data than a reference with its digest and the length of its path.  Of those that have
more, none is needed to name the reference, or one has the path where the reference has it if and only if one has it
at its own place. -/
structure ExtentsAgree (pitems : List Bytes) (r : Bytes) : Prop where
  inside : ∀ item ∈ pitems, Alike r item → extendSize r ≤ extendSize item
  same : (∃ item ∈ pitems, Alike r item ∧ extendSize item = extendSize r ∧ itemPath item = itemPath r) ∨
    ((∃ item ∈ pitems, Alike r item ∧ extendSize r < extendSize item ∧ comparedPath r item = itemPath r) ↔
      ∃ item ∈ pitems, Alike r item ∧ extendSize r < extendSize item ∧ itemPath item = itemPath r)

/-! ### A search along a chain -/

/-- The node at `a` matches the item. -/
def MatchesAt (t : IntegrityData) (behind : ℕ → UInt8) (item : Bytes) (a : ℕ) : Prop :=
  ∃ n, t.heap.read a = some n ∧ nodeMatches behind n.item item = true

/-- What the comparison of the node at `a` with the item reads. -/
def ReadAt (t : IntegrityData) (item : Bytes) (a : ℕ) (x : Access) : Prop :=
  ∃ n, t.heap.read a = some n ∧ x ∈ compareReads n.item item

/-- What is collected and read when the nodes of `pairs` are compared with the items beside them. -/
structure Collected (grant : ℕ → Bool) (t : IntegrityData) (behind : ℕ → UInt8) (pairs : List (Bytes × ℕ))
    (d : DelArray) (r : ℤ × DelArray × List Access) : Prop where
  nodup : d.elems.Nodup → r.2.1.elems.Nodup
  sound : ∀ a ∈ r.2.1.elems, a ∈ d.elems ∨ ∃ p ∈ pairs, p.2 = a ∧ MatchesAt t behind p.1 a
  complete : r.1 = 0 → ∀ a, (a ∈ d.elems ∨ ∃ p ∈ pairs, p.2 = a ∧ MatchesAt t behind p.1 a) → a ∈ r.2.1.elems
  reads : ∀ x ∈ r.2.2, x.InBounds ∨ ∃ p ∈ pairs, ReadAt t p.1 p.2 x
  allReads : r.1 = 0 → ∀ p ∈ pairs, ∀ x, ReadAt t p.1 p.2 x → x ∈ r.2.2
  granted : (∀ k, grant k = true) → r.1 = 0

section Collect

variable {grant : ℕ → Bool} {t : IntegrityData} {behind : ℕ → UInt8} {item : Bytes} {chain : List ℕ}
  {pairs more : List (Bytes × ℕ)} {d : DelArray} {r r' : ℤ × DelArray × List Access} {a : ℕ}

theorem Collected.refl : Collected grant t behind [] d (0, d, []) where
  nodup h := h
  sound _ ha := Or.inl ha
  complete _ _ ha := ha.elim id fun ⟨_, hp, _⟩ => absurd hp List.not_mem_nil
  reads _ hx := absurd hx List.not_mem_nil
  allReads _ _ hp := absurd hp List.not_mem_nil
  granted _ := rfl

/-- One search after the other. -/
theorem Collected.trans (h : Collected grant t behind pairs d r) (hr : r.1 = 0)
    (h' : Collected grant t behind more r.2.1 r') :
    Collected grant t behind (pairs ++ more) d (r'.1, r'.2.1, r.2.2 ++ r'.2.2) where
  nodup hd := h'.nodup (h.nodup hd)
  sound a ha := by
    rcases h'.sound a ha with ha | ⟨p, hp, hpa⟩
    · rcases h.sound a ha with ha | ⟨p, hp, hpa⟩
      · exact Or.inl ha
      · exact Or.inr ⟨p, List.mem_append_left _ hp, hpa⟩
    · exact Or.inr ⟨p, List.mem_append_right _ hp, hpa⟩
  complete hr' a ha := by
    refine h'.complete hr' a ?_
    rcases ha with ha | ⟨p, hp, hpa⟩
    · exact Or.inl (h.complete hr a (Or.inl ha))
    · rcases List.mem_append.mp hp with hp | hp
      · exact Or.inl (h.complete hr a (Or.inr ⟨p, hp, hpa⟩))
      · exact Or.inr ⟨p, hp, hpa⟩
  reads x hx := by
    rcases List.mem_append.mp hx with hx | hx
    · exact (h.reads x hx).imp_right fun ⟨p, hp, hpx⟩ => ⟨p, List.mem_append_left _ hp, hpx⟩
    · exact (h'.reads x hx).imp_right fun ⟨p, hp, hpx⟩ => ⟨p, List.mem_append_right _ hp, hpx⟩
  allReads hr' p hp x hx := by
    rcases List.mem_append.mp hp with hp | hp
    · exact List.mem_append_left _ (h.allReads hr p hp x hx)
    · exact List.mem_append_right _ (h'.allReads hr' p hp x hx)
  granted hg := h'.granted hg

/-- What has failed stays where it is. -/
theorem Collected.failed (h : Collected grant t behind pairs d r) (hr : r.1 ≠ 0) :
    Collected grant t behind (pairs ++ more) d r where
  nodup := h.nodup
  sound a ha := (h.sound a ha).imp_right fun ⟨p, hp, hpa⟩ => ⟨p, List.mem_append_left _ hp, hpa⟩
  complete h0 := absurd h0 hr
  reads x hx := (h.reads x hx).imp_right fun ⟨p, hp, hpx⟩ => ⟨p, List.mem_append_left _ hp, hpx⟩
  allReads h0 := absurd h0 hr
  granted hg := absurd (h.granted hg) hr

/-- Nodes that do not match are only read. -/
theorem Collected.skip (hnot : ∀ p ∈ pairs, ¬ MatchesAt t behind p.1 p.2) {reads : List Access}
    (hreads : ∀ x, x ∈ reads ↔ ∃ p ∈ pairs, ReadAt t p.1 p.2 x) :
    Collected grant t behind pairs d (0, d, reads) where
  nodup h := h
  sound _ ha := Or.inl ha
  complete _ a ha := by
    rcases ha with ha | ⟨p, hp, rfl, hmatch⟩
    · exact ha
    · exact absurd hmatch (hnot p hp)
  reads x hx := Or.inr ((hreads x).mp hx)
  allReads _ p hp x hx := (hreads x).mpr ⟨p, hp, hx⟩
  granted _ := rfl

/-- **One search:** it stops at the first node that matches. -/
theorem nextMatch_spec (behind : ℕ → UInt8) (item : Bytes) (halive : ∀ a ∈ chain, ∃ n, t.heap.read a = some n) :
    ∃ before found reads, nextMatch t behind item chain = .ok (found, reads) ∧ chain = before ++ found ∧
      (∀ b ∈ before, ¬ MatchesAt t behind item b) ∧ (∀ a ∈ found.head?, MatchesAt t behind item a) ∧
      ∀ x, x ∈ reads ↔ ∃ b ∈ before ++ found.head?.toList, ReadAt t item b x := by
  induction chain with
  | nil =>
      refine ⟨[], [], [], rfl, rfl, List.forall_mem_nil _, fun a ha => absurd ha (by simp), fun x => ?_⟩
      exact iff_of_false List.not_mem_nil fun ⟨b, hb, _⟩ => absurd hb List.not_mem_nil
  | cons a chain ih =>
      obtain ⟨⟨n, hn⟩, halive⟩ := List.forall_mem_cons.mp halive
      rw [nextMatch, readNode_eq hn]
      show ∃ before found reads, ite _ _ _ = _ ∧ _
      cases hmatch : nodeMatches behind n.item item with
      | true =>
          refine ⟨[], a :: chain, compareReads n.item item, rfl, rfl, List.forall_mem_nil _, ?_, fun x => ?_⟩
          · intro b hb
            obtain rfl := Option.some.inj hb
            exact ⟨n, hn, hmatch⟩
          · refine ⟨fun hx => ⟨a, List.mem_singleton_self a, n, hn, hx⟩, ?_⟩
            rintro ⟨b, hb, m, hm, hx⟩
            obtain rfl := List.mem_singleton.mp hb
            obtain rfl := Option.some.inj (hn.symm.trans hm)
            exact hx
      | false =>
          obtain ⟨before, found, reads, heq, hsplit, hnot, hfound, hreads⟩ := ih halive
          rw [heq]
          refine ⟨a :: before, found, compareReads n.item item ++ reads, rfl, by rw [hsplit]; rfl, ?_, hfound, ?_⟩
          · refine List.forall_mem_cons.mpr ⟨?_, hnot⟩
            rintro ⟨m, hm, hmm⟩
            obtain rfl := Option.some.inj (hn.symm.trans hm)
            exact Bool.false_ne_true (hmatch.symm.trans hmm)
          · intro x
            rw [List.mem_append, hreads, List.cons_append, List.exists_mem_cons_iff]
            refine or_congr_left ⟨fun hx => ⟨n, hn, hx⟩, ?_⟩
            rintro ⟨m, hm, hx⟩
            obtain rfl := Option.some.inj (hn.symm.trans hm)
            exact hx

/-- The node is collected, or the array cannot be made larger. -/
theorem collectNode_cases (grant : ℕ → Bool) (d : DelArray) (a : ℕ) :
    ((collectNode grant d a).1 = 0 ∧ (∀ b, b ∈ (collectNode grant d a).2.elems ↔ b ∈ d.elems ∨ b = a) ∧
        (d.elems.Nodup → (collectNode grant d a).2.elems.Nodup)) ∨
      (collectNode grant d a).1 ≠ 0 ∧ (collectNode grant d a).2 = d ∧ ∃ k, grant k = false := by
  have happend : a ∉ d.elems → d.elems.Nodup → (d.elems ++ [a]).Nodup := fun ha hd =>
    List.nodup_append'.mpr ⟨hd, List.nodup_singleton a, List.disjoint_singleton.mpr ha⟩
  have hmem : ∀ b, b ∈ d.elems ++ [a] ↔ b ∈ d.elems ∨ b = a := fun b => by
    rw [List.mem_append, List.mem_singleton]
  rw [collectNode, httcUtilArrayAppend]
  split_ifs with ha hfull hgrant
  · exact Or.inl ⟨rfl, fun b => ⟨Or.inl, fun hb => hb.elim id fun heq => heq ▸ ha⟩, id⟩
  · exact Or.inr ⟨show ¬ (-1 : ℤ) = 0 by decide, rfl, _, hgrant⟩
  · exact Or.inl ⟨rfl, hmem, happend ha⟩
  · exact Or.inl ⟨rfl, hmem, happend ha⟩

/-- The nodes up to one that matches are compared with the item. -/
theorem collectNode_spec (grant : ℕ → Bool) (d : DelArray) (hmatch : MatchesAt t behind item a)
    {before : List ℕ} {reads : List Access} (hnot : ∀ b ∈ before, ¬ MatchesAt t behind item b)
    (hreads : ∀ x, x ∈ reads ↔ ∃ b ∈ before ++ [a], ReadAt t item b x) :
    Collected grant t behind ((before ++ [a]).map fun b => (item, b)) d
      (if (collectNode grant d a).1 ≠ 0 then tcfErrNomem else 0, (collectNode grant d a).2, reads) := by
  have hpair : (item, a) ∈ (before ++ [a]).map fun b => (item, b) :=
    List.mem_map.mpr ⟨a, List.mem_append_right _ List.mem_cons_self, rfl⟩
  have hread : ∀ x, x ∈ reads ↔ ∃ p ∈ (before ++ [a]).map fun b => (item, b), ReadAt t p.1 p.2 x := by
    intro x
    rw [hreads]
    constructor
    · rintro ⟨b, hb, hx⟩
      exact ⟨_, List.mem_map_of_mem hb, hx⟩
    · rintro ⟨p, hp, hx⟩
      obtain ⟨b, hb, rfl⟩ := List.mem_map.mp hp
      exact ⟨b, hb, hx⟩
  rcases collectNode_cases grant d a with ⟨h0, hmem, hnodup⟩ | ⟨h0, hsame, k, hk⟩
  · rw [if_neg (not_not.mpr h0)]
    refine ⟨hnodup, fun b hb => ?_, fun _ b hb => ?_, fun x hx => Or.inr ((hread x).mp hx),
      fun _ p hp x hx => (hread x).mpr ⟨p, hp, hx⟩, fun _ => rfl⟩
    · rcases (hmem b).mp hb with hb | rfl
      · exact Or.inl hb
      · exact Or.inr ⟨_, hpair, rfl, hmatch⟩
    · rcases hb with hb | ⟨p, hp, rfl, hb⟩
      · exact (hmem b).mpr (Or.inl hb)
      · obtain ⟨c, hc, rfl⟩ := List.mem_map.mp hp
        rcases List.mem_append.mp hc with hc | hc
        · exact absurd hb (hnot c hc)
        · exact (hmem c).mpr (Or.inr (List.mem_singleton.mp hc))
  · rw [if_pos h0, hsame]
    refine ⟨id, fun b hb => Or.inl hb, fun h => ?_, fun x hx => Or.inr ((hread x).mp hx), fun h => ?_,
      fun hg => ?_⟩
    · exact absurd h (show ¬ tcfErrNomem = 0 by decide)
    · exact absurd h (show ¬ tcfErrNomem = 0 by decide)
    · exact absurd ((hg k).symm.trans hk) (by decide)

/-- **The nodes of a chain** are compared with the item, each once. -/
theorem collectMatches_spec (grant : ℕ → Bool) (behind : ℕ → UInt8) (item : Bytes) (d : DelArray) {fuel : ℕ}
    (halive : ∀ a ∈ chain, ∃ n, t.heap.read a = some n) (hfuel : chain.length < fuel) :
    ∃ r, collectMatches grant t behind item fuel chain d = .ok r ∧
      Collected grant t behind (chain.map fun b => (item, b)) d r := by
  induction fuel generalizing chain d with
  | zero => exact absurd hfuel (Nat.not_lt_zero _)
  | succ fuel ih =>
      obtain ⟨before, found, reads, heq, rfl, hnot, hfound, hreads⟩ := nextMatch_spec behind item halive
      rw [collectMatches, heq]
      cases found with
      | nil =>
          refine ⟨_, rfl, Collected.skip ?_ ?_⟩
          · intro p hp
            obtain ⟨b, hb, rfl⟩ := List.mem_map.mp hp
            rw [List.append_nil] at hb
            exact hnot b hb
          · intro x
            rw [hreads]
            constructor
            · rintro ⟨b, hb, hx⟩
              exact ⟨_, List.mem_map_of_mem hb, hx⟩
            · rintro ⟨p, hp, hx⟩
              obtain ⟨b, hb, rfl⟩ := List.mem_map.mp hp
              exact ⟨b, hb, hx⟩
      | cons a rest =>
          have hone := collectNode_spec grant d (hfound a rfl) hnot hreads
          have hpairs : ((before ++ a :: rest).map fun b => (item, b)) =
              ((before ++ [a]).map fun b => (item, b)) ++ rest.map fun b => (item, b) := by
            rw [← List.map_append, List.append_assoc, List.singleton_append]
          rw [hpairs]
          show ∃ r, ite _ _ _ = _ ∧ _
          split_ifs with hw
          · rw [if_pos hw] at hone
            exact ⟨_, rfl, hone.failed (show ¬ tcfErrNomem = 0 by decide)⟩
          · rw [if_neg hw] at hone
            have hrest : ∀ b ∈ rest, ∃ n, t.heap.read b = some n := fun b hb =>
              halive b (List.mem_append_right _ (List.mem_cons_of_mem _ hb))
            rw [List.length_append, List.length_cons] at hfuel
            obtain ⟨r, hr, hcol⟩ := ih (collectNode grant d a).2 hrest (by omega)
            rw [hr]
            exact ⟨_, rfl, hone.trans rfl hcol⟩

/-- The comparisons of a delete. -/
def comparisons (t : IntegrityData) (items : List Bytes) : List (Bytes × ℕ) :=
  items.flatMap fun item => (t.hashTable (hashValue item)).map fun b => (item, b)

/-- The digest is read for the index of the chain. -/
theorem Collected.read_index (h : Collected grant t behind pairs d r) (item : Bytes) :
    Collected grant t behind pairs d (r.1, r.2.1, ⟨4, 2, recordSize item⟩ :: r.2.2) where
  nodup := h.nodup
  sound := h.sound
  complete := h.complete
  reads x hx := by
    rcases List.mem_cons.mp hx with rfl | hx
    · have h36 := recordSize_pos item
      exact Or.inl (by show 4 + 2 ≤ recordSize item; omega)
    · exact h.reads x hx
  allReads hr p hp x hx := List.mem_cons_of_mem _ (h.allReads hr p hp x hx)
  granted := h.granted

/-- **Every item is compared with the nodes of its chain.** -/
theorem collectItems_spec (grant : ℕ → Bool) (behind : ℕ → UInt8) (items : List Bytes) (d : DelArray)
    (halive : ChainsAlive t) :
    ∃ r, collectItems grant t behind items d = .ok r ∧ Collected grant t behind (comparisons t items) d r := by
  induction items generalizing d with
  | nil => exact ⟨_, rfl, Collected.refl⟩
  | cons item items ih =>
      obtain ⟨r, hr, hcol⟩ := collectMatches_spec grant behind item d (halive (hashValue item)) (Nat.lt_succ_self _)
      have hindex := hcol.read_index item
      rw [collectItems, hr, comparisons, List.flatMap_cons]
      show ∃ r', ite _ _ _ = _ ∧ _
      split_ifs with h0
      · exact ⟨_, rfl, hindex.failed h0⟩
      · obtain ⟨rest, hrest, hcol'⟩ := ih r.2.1
        rw [hrest]
        exact ⟨_, rfl, hindex.trans (not_not.mp h0) hcol'⟩

end Collect

/-! ### One node and one item -/

section Compare

variable {behind : ℕ → UInt8} {n : FileNode} {item r : Bytes} {pitems : List Bytes}

/-- What lies behind the update does not matter inside it. -/
theorem itemBytes_eq {off m : ℕ} (h : off + m ≤ item.length) :
    itemBytes behind item off m = (item.drop off).take m := by
  rw [itemBytes]
  refine List.ext_getElem ?_ fun i hi hi' => ?_
  · rw [List.length_map, List.length_range, List.length_take, List.length_drop]
    omega
  · rw [List.length_map, List.length_range] at hi
    rw [List.getElem_map, List.getElem_range, List.getElem_take, List.getElem_drop, List.getD_eq_getElem?_getD,
      List.getElem?_eq_getElem (by omega), Option.getD_some]

/-- **The bytes compared** are in the item where it has at least as much extended data. -/
theorem itemBytes_eq_comparedPath (ha : Alike r item) (hitem : recordSize item ≤ item.length)
    (hext : extendSize r ≤ extendSize item) :
    itemBytes behind item (36 + extendSize r) (FileIntegrity.pathLength r) = comparedPath r item := by
  have hlen := ha.pathLength
  rw [recordSize] at hitem
  rw [itemBytes_eq (by omega), comparedPath, itemData, List.drop_drop]
  congr 2
  omega

theorem comparedPath_eq (ha : Alike r item) (hext : extendSize item = extendSize r) :
    comparedPath r item = itemPath item := by
  rw [comparedPath, itemPath, hext, ha.pathLength]
  rfl

/-- A reference without a path is compared by its digest. -/
theorem matches_iff_of_no_path (hn : Made n) (hitem : recordSize item ≤ item.length)
    (hzero : FileIntegrity.pathLength n.item.data = 0) :
    nodeMatches behind n.item item = true ↔ SameRef n.item.data item := by
  refine nodeMatches_iff hn.pathLength hn.length.ge hitem fun _ hlen => ?_
  rw [itemPath, itemPath, hlen, hzero, List.take_zero, List.take_zero]
  exact iff_of_true rfl rfl

theorem matches_iff_of_path (hn : Made n) (hpath : FileIntegrity.pathLength n.item.data ≠ 0) :
    nodeMatches behind n.item item = true ↔ Alike n.item.data item ∧
      itemBytes behind item (36 + extendSize n.item.data) (FileIntegrity.pathLength n.item.data) =
        itemPath n.item.data := by
  rw [nodeMatches, hn.pathLength, if_neg hpath, Bool.and_eq_true_iff, Bool.and_eq_true_iff, decide_eq_true_iff,
    decide_eq_true_iff, decide_eq_true_iff]
  constructor
  · rintro ⟨⟨hlen, hhash⟩, hbytes⟩
    exact ⟨⟨hhash, hlen, hpath⟩, hbytes⟩
  · rintro ⟨ha, hbytes⟩
    exact ⟨⟨ha.pathLength, ha.hash⟩, hbytes⟩

theorem sameRef_iff_of_path (hr : recordSize r ≤ r.length) (hitem : recordSize item ≤ item.length)
    (hpath : FileIntegrity.pathLength r ≠ 0) : SameRef r item ↔ Alike r item ∧ itemPath item = itemPath r := by
  constructor
  · rintro ⟨hhash, hp⟩
    refine ⟨⟨hhash.symm, ?_, hpath⟩, hp.symm⟩
    rw [← length_itemPath hitem, ← hp, length_itemPath hr]
  · rintro ⟨ha, hp⟩
    exact ⟨ha.hash.symm, hp.symm⟩

/-- **The comparison reads inside both records** where the item has at least as much extended data. -/
theorem safe_compareReads_iff (hn : Made n) :
    Safe (compareReads n.item item) ↔ (Alike n.item.data item → extendSize n.item.data ≤ extendSize item) := by
  have hhash : Safe (hashReads n.item item) := by
    have h₁ := recordSize_pos n.item.data
    have h₂ := recordSize_pos item
    rw [hashReads, safe_cons, safe_cons, hn.size]
    exact ⟨by omega, by omega, safe_nil⟩
  rw [compareReads, hn.pathLength]
  split_ifs with hzero hlen hlen hsame
  · exact iff_of_true hhash fun ha => absurd hzero ha.path
  · exact iff_of_true safe_nil fun ha => absurd hzero ha.path
  · exact iff_of_true safe_nil fun ha => absurd ha.pathLength hlen
  · have hlen := not_not.mp hlen
    have ha : Alike n.item.data item := ⟨hsame, hlen, hzero⟩
    rw [safe_append, and_iff_right hhash, forall_prop_of_true ha, pathReads, safe_cons, safe_cons, hn.size,
      hn.pathLength, recordSize, recordSize, hlen, and_iff_left safe_nil]
    dsimp only
    omega
  · rw [List.append_nil]
    exact iff_of_true hhash fun ha => absurd ha.hash hsame

theorem or_iff_or {A B C : Prop} : ((A ∨ B) ↔ (A ∨ C)) ↔ A ∨ (B ↔ C) := by
  tauto

/-- **The nodes that match are those that are named**, for a reference whose items are long enough. -/
theorem matches_iff_named (behind : ℕ → UInt8) (hn : Made n)
    (hfits : ∀ item ∈ pitems, recordSize item ≤ item.length)
    (hinside : ∀ item ∈ pitems, Alike n.item.data item → extendSize n.item.data ≤ extendSize item) :
    ((∃ item ∈ pitems, nodeMatches behind n.item item = true) ↔ ∃ item ∈ pitems, SameRef n.item.data item) ↔
      ExtentsAgree pitems n.item.data := by
  have hagree : ∀ P : Prop, (P ↔ ((∃ item ∈ pitems, Alike n.item.data item ∧
      extendSize item = extendSize n.item.data ∧ itemPath item = itemPath n.item.data) ∨
      ((∃ item ∈ pitems, Alike n.item.data item ∧ extendSize n.item.data < extendSize item ∧
          comparedPath n.item.data item = itemPath n.item.data) ↔
        ∃ item ∈ pitems, Alike n.item.data item ∧ extendSize n.item.data < extendSize item ∧
          itemPath item = itemPath n.item.data))) → (P ↔ ExtentsAgree pitems n.item.data) := fun P hP =>
    hP.trans ⟨fun h => ⟨hinside, h⟩, fun h => h.same⟩
  refine hagree _ ?_
  rcases eq_or_ne (FileIntegrity.pathLength n.item.data) 0 with hzero | hpath
  · refine iff_of_true ?_ (Or.inr ?_)
    · refine exists_congr fun item => and_congr_right fun hitem => ?_
      exact matches_iff_of_no_path hn (hfits item hitem) hzero
    · refine iff_of_false ?_ ?_ <;> rintro ⟨item, -, ha, -⟩ <;> exact ha.path hzero
  -- an item has as much extended data as the reference or more
  have hsplit : ∀ Q : Bytes → Prop, (∃ item ∈ pitems, Alike n.item.data item ∧ Q item) ↔
      (∃ item ∈ pitems, Alike n.item.data item ∧ extendSize item = extendSize n.item.data ∧ Q item) ∨
        ∃ item ∈ pitems, Alike n.item.data item ∧ extendSize n.item.data < extendSize item ∧ Q item := by
    intro Q
    constructor
    · rintro ⟨item, hitem, ha, hq⟩
      rcases (hinside item hitem ha).eq_or_lt with heq | hlt
      · exact Or.inl ⟨item, hitem, ha, heq.symm, hq⟩
      · exact Or.inr ⟨item, hitem, ha, hlt, hq⟩
    · rintro (⟨item, hitem, ha, -, hq⟩ | ⟨item, hitem, ha, -, hq⟩) <;> exact ⟨item, hitem, ha, hq⟩
  have hmatch : (∃ item ∈ pitems, nodeMatches behind n.item item = true) ↔
      ∃ item ∈ pitems, Alike n.item.data item ∧ comparedPath n.item.data item = itemPath n.item.data := by
    refine exists_congr fun item => and_congr_right fun hitem => ?_
    rw [matches_iff_of_path hn hpath]
    exact and_congr_right fun ha => by rw [itemBytes_eq_comparedPath ha (hfits item hitem) (hinside item hitem ha)]
  have hnamed : (∃ item ∈ pitems, SameRef n.item.data item) ↔
      ∃ item ∈ pitems, Alike n.item.data item ∧ itemPath item = itemPath n.item.data :=
    exists_congr fun item => and_congr_right fun hitem => sameRef_iff_of_path hn.length.ge (hfits item hitem) hpath
  have hequal : (∃ item ∈ pitems, Alike n.item.data item ∧ extendSize item = extendSize n.item.data ∧
      comparedPath n.item.data item = itemPath n.item.data) ↔ ∃ item ∈ pitems, Alike n.item.data item ∧
        extendSize item = extendSize n.item.data ∧ itemPath item = itemPath n.item.data := by
    refine exists_congr fun item => and_congr_right fun _ => and_congr_right fun ha => and_congr_right fun hext => ?_
    rw [comparedPath_eq ha hext]
  rw [hmatch, hnamed, hsplit fun item => comparedPath n.item.data item = itemPath n.item.data, hequal,
    hsplit fun item => itemPath item = itemPath n.item.data, or_iff_or]

end Compare

/-! ### The call -/

section Prepare

variable {t : IntegrityData} {behind : ℕ → UInt8} {data : Bytes} {pitems : List Bytes} {a : ℕ} {g : DelGrants}
  {r : ℤ × DelArray × List Access}

theorem mem_comparisons (h : Agree t) {p : Bytes × ℕ} :
    p ∈ comparisons t pitems ↔ p.1 ∈ pitems ∧ p.2 ∈ t.list ∧ bucket t p.2 = some (hashValue p.1) := by
  rw [comparisons, List.mem_flatMap]
  constructor
  · rintro ⟨item, hitem, hp⟩
    obtain ⟨b, hb, rfl⟩ := List.mem_map.mp hp
    exact ⟨hitem, (h.chains _ b).mp hb⟩
  · rintro ⟨hitem, hchain⟩
    exact ⟨p.1, hitem, List.mem_map.mpr ⟨p.2, (h.chains _ p.2).mpr hchain, rfl⟩⟩

/-- Whatever has the digest of an item is in its chain. -/
theorem bucket_of_hash {n : FileNode} (hread : t.heap.read a = some n) (hn : Made n) {item : Bytes}
    (hhash : itemHash item = itemHash n.item.data) : bucket t a = some (hashValue item) := by
  rw [bucket_eq_some]
  refine ⟨n, hread, ?_⟩
  rw [hn.hashIndex, hashValue_eq, hashValue_eq item, hhash]

/-- The nodes that are collected. -/
theorem collected_iff (h : Agree t) : (∃ p ∈ comparisons t pitems, p.2 = a ∧ MatchesAt t behind p.1 a) ↔
    a ∈ t.list ∧ ∃ n, t.heap.read a = some n ∧ ∃ item ∈ pitems, nodeMatches behind n.item item = true := by
  constructor
  · rintro ⟨p, hp, rfl, n, hn, hmatch⟩
    obtain ⟨hitem, hmem, -⟩ := (mem_comparisons h).mp hp
    exact ⟨hmem, n, hn, p.1, hitem, hmatch⟩
  · rintro ⟨hmem, n, hn, item, hitem, hmatch⟩
    obtain ⟨m, hm, hmade⟩ := h.alive a hmem
    obtain rfl := Option.some.inj (hn.symm.trans hm)
    have hbucket := bucket_of_hash hn hmade (itemHash_of_nodeMatches hmatch)
    exact ⟨(item, a), (mem_comparisons h).mpr ⟨hitem, hmem, hbucket⟩, rfl, n, hn, hmatch⟩

/-- **A delete of at least one item.** -/
theorem deletePolicyDataPrepare_eq (h : Agree t) (hsplit : bufferToItemArray data data.length = .ok pitems)
    (hitems : pitems ≠ []) (g : DelGrants) (behind : ℕ → UInt8) :
    (∃ ret : ℤ, ret ≠ 0 ∧ ¬ g.Granted ∧ deletePolicyDataPrepare g behind data t = .ok ⟨ret, none, []⟩) ∨
      ∃ r, deletePolicyDataPrepare g behind data t = .ok (prepared r) ∧
        Collected g.inflate t behind (comparisons t pitems) ⟨[], 2⟩ r := by
  rw [deletePolicyDataPrepare, hsplit]
  split_ifs with h₁ h₂
  · exact Or.inl ⟨_, show ¬ tcfErrNomem = 0 by decide, fun hg => absurd (hg.items.symm.trans h₁) (by decide), rfl⟩
  · exact Or.inl ⟨_, show ¬ (-1 : ℤ) = 0 by decide, fun hg => absurd (hg.array.symm.trans h₂) (by decide),
      if_neg hitems⟩
  · obtain ⟨r, hr, hcol⟩ := collectItems_spec g.inflate behind pitems ⟨[], 2⟩ h.chainsAlive
    refine Or.inr ⟨r, ?_, hcol⟩
    show (collectItems g.inflate t behind pitems ⟨[], 2⟩).bind _ = _
    rw [hr]
    exact if_neg hitems

theorem mem_prepared (hr : r.1 = 0) : a ∈ (prepared r).dellist.getD [] ↔ a ∈ r.2.1.elems := by
  rw [prepared]
  dsimp only
  split_ifs with hnone
  · rw [Option.getD_none, (hnone.resolve_left (not_not.mpr hr))]
  · rw [Option.getD_some]

/-- **When a delete selects exactly what it names.** -/
theorem deletePolicyDataPrepare_iff (h : Agree t) (hsplit : bufferToItemArray data data.length = .ok pitems) :
    SelectsExactly t data pitems ↔
      pitems ≠ [] ∧ ∀ a ∈ t.list, ∀ n, t.heap.read a = some n → ExtentsAgree pitems n.item.data := by
  have hfits := (length_items hsplit).2
  constructor
  · intro hsel
    obtain ⟨p, hp, hsafe, hret, hlist⟩ := hsel ⟨true, true, fun _ => true⟩ fun _ => 0
    have hgranted : (⟨true, true, fun _ => true⟩ : DelGrants).Granted := ⟨rfl, rfl, fun _ => rfl⟩
    have hitems : pitems ≠ [] := by
      rintro rfl
      rw [deletePolicyDataPrepare, hsplit] at hp
      exact absurd hp (by simp [freeItems, collectItems, bind, Except.bind])
    refine ⟨hitems, fun a ha n hn => ?_⟩
    rcases deletePolicyDataPrepare_eq h hsplit hitems ⟨true, true, fun _ => true⟩ fun _ => 0 with
      ⟨-, -, hnot, -⟩ | ⟨r, hr, hcol⟩
    · exact absurd hgranted hnot
    obtain rfl := Except.ok.inj (hp.symm.trans hr)
    have hr0 : r.1 = 0 := hret hgranted
    obtain ⟨m, hm, hmade⟩ := h.alive a ha
    obtain rfl := Option.some.inj (hn.symm.trans hm)
    refine (matches_iff_named (fun _ => 0) hmade hfits fun item hitem halike => ?_).mp ?_
    · refine (safe_compareReads_iff hmade).mp (fun x hx => hsafe x ?_) halike
      exact hcol.allReads hr0 (item, a)
        ((mem_comparisons h).mpr ⟨hitem, ha, bucket_of_hash hn hmade halike.hash⟩) x ⟨n, hn, hx⟩
    · have hmem := (hlist hr0).2 a
      rw [mem_prepared hr0] at hmem
      have hfound : a ∈ r.2.1.elems ↔ ∃ p ∈ comparisons t pitems, p.2 = a ∧ MatchesAt t (fun _ => 0) p.1 a :=
        ⟨fun ha => (hcol.sound a ha).resolve_left List.not_mem_nil, fun ha => hcol.complete hr0 a (Or.inr ha)⟩
      rw [hfound, collected_iff h, Named, and_congr_right_iff] at hmem
      have hboth := hmem ha
      simp only [hn, Option.some.injEq, exists_eq_left'] at hboth
      exact hboth
  · rintro ⟨hitems, hall⟩ g behind
    rcases deletePolicyDataPrepare_eq h hsplit hitems g behind with ⟨ret, hret, hnot, heq⟩ | ⟨r, heq, hcol⟩
    · exact ⟨_, heq, safe_nil, fun hg => absurd hg hnot, fun h0 => absurd h0 hret⟩
    refine ⟨_, heq, fun x hx => ?_, fun hg => hcol.granted hg.inflate, fun hr0 => ⟨?_, fun a => ?_⟩⟩
    · rcases hcol.reads x hx with hin | ⟨p, hp, n, hn, hxn⟩
      · exact hin
      obtain ⟨hitem, hmem, -⟩ := (mem_comparisons h).mp hp
      obtain ⟨m, hm, hmade⟩ := h.alive p.2 hmem
      obtain rfl := Option.some.inj (hn.symm.trans hm)
      exact (safe_compareReads_iff hmade).mpr ((hall p.2 hmem n hn).inside p.1 hitem) x hxn
    · have hnodup := hcol.nodup List.nodup_nil
      rw [prepared]
      dsimp only
      split_ifs
      · exact List.nodup_nil
      · exact hnodup
    · have hr0 : r.1 = 0 := hr0
      have hfound : a ∈ r.2.1.elems ↔ ∃ p ∈ comparisons t pitems, p.2 = a ∧ MatchesAt t behind p.1 a :=
        ⟨fun ha => (hcol.sound a ha).resolve_left List.not_mem_nil, fun ha => hcol.complete hr0 a (Or.inr ha)⟩
      rw [mem_prepared hr0, hfound, collected_iff h, Named]
      refine and_congr_right fun ha => exists_congr fun n => and_congr_right fun hn => ?_
      obtain ⟨m, hm, hmade⟩ := h.alive a ha
      obtain rfl := Option.some.inj (hn.symm.trans hm)
      exact (matches_iff_named behind hmade hfits (hall a ha n hn).inside).mpr (hall a ha n hn)

end Prepare

/-- The table after `rootRef 0` has been read from the file. -/
def IntegrityData.root : IntegrityData where
  heap := ⟨[some ⟨hashValue (rootRef 0), Store.addToHashTable (rootRef 0) 0⟩], []⟩
  hashTable := Chained.Table.empty.push (hashValue (rootRef 0)) 0
  list := [0]
  total := 1
  valid := 1
  length := 40

theorem agree_root : Agree IntegrityData.root := by
  have hfits : recordSize (rootRef 0) ≤ (rootRef 0).length := by decide +kernel
  have hlinked := ((grown_refl IntegrityData.init).add hfits 0).linked agree_init
  exact ⟨hlinked.nodup, hlinked.alive, hlinked.chains, hlinked.chainNodup, rfl⟩

/-- A delete that lists the reference as it is finds it. -/
theorem deletePolicyDataPrepare_root : SelectsExactly IntegrityData.root (rootRef 0) [rootRef 0] := by
  have hsplit : bufferToItemArray (rootRef 0) (rootRef 0).length = .ok [rootRef 0] := by decide +kernel
  refine (deletePolicyDataPrepare_iff agree_root hsplit).mpr ⟨List.cons_ne_nil _ _, fun a ha n hn => ?_⟩
  obtain rfl := List.mem_singleton.mp ha
  obtain rfl : ⟨hashValue (rootRef 0), Store.addToHashTable (rootRef 0) 0⟩ = n := Option.some.inj hn
  show ExtentsAgree [rootRef 0] (Store.addToHashTable (rootRef 0) 0).data
  have hext : extendSize (Store.addToHashTable (rootRef 0) 0).data = extendSize (rootRef 0) := by decide +kernel
  have hpath : itemPath (rootRef 0) = itemPath (Store.addToHashTable (rootRef 0) 0).data := by decide +kernel
  have halike : Alike (Store.addToHashTable (rootRef 0) 0).data (rootRef 0) :=
    ⟨by decide +kernel, by decide +kernel, by decide +kernel⟩
  refine ⟨fun item hitem _ => ?_, Or.inl ⟨rootRef 0, List.mem_cons_self, halike, hext.symm, hpath⟩⟩
  obtain rfl := List.mem_singleton.mp hitem
  exact hext.le

/-- **A delete that lists the reference with other extended data misses it**, and one without an item does not
return. -/
theorem delete_misses_named : (¬ ∀ t data pitems, Agree t → bufferToItemArray data data.length = .ok pitems →
      SelectsExactly t data pitems) ∧
    ¬ SelectsExactly IntegrityData.root (rootRef 1) [rootRef 1] ∧ ¬ SelectsExactly IntegrityData.root [] [] := by
  have hmiss : ¬ SelectsExactly IntegrityData.root (rootRef 1) [rootRef 1] := by
    intro hsel
    obtain ⟨p, hp, -, hret, hlist⟩ := hsel ⟨true, true, fun _ => true⟩ fun _ => 0
    have hnone : (deletePolicyDataPrepare ⟨true, true, fun _ => true⟩ (fun _ => 0) (rootRef 1)
        IntegrityData.root).toOption.map Prepared.dellist = some none := by decide +kernel
    rw [hp] at hnone
    have hnil : p.dellist = none := Option.some.inj hnone
    have hnamed : Named IntegrityData.root [rootRef 1] 0 :=
      ⟨List.mem_cons_self, _, rfl, rootRef 1, List.mem_cons_self, by decide +kernel⟩
    have hmem := ((hlist (hret ⟨rfl, rfl, fun _ => rfl⟩)).2 0).mpr hnamed
    rw [hnil] at hmem
    exact List.not_mem_nil hmem
  refine ⟨fun hall => hmiss (hall _ _ _ agree_root (by decide +kernel)), hmiss, fun hsel => ?_⟩
  obtain ⟨p, hp, -⟩ := hsel ⟨true, true, fun _ => true⟩ fun _ => 0
  have hstray : (deletePolicyDataPrepare ⟨true, true, fun _ => true⟩ (fun _ => 0) []
      IntegrityData.root).toOption.map Prepared.dellist = none := by decide +kernel
  rw [hp] at hstray
  exact absurd hstray (Option.some_ne_none _)

end Nodes
end FileIntegrity
end TsbAgent
