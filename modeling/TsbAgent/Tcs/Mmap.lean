/-
# The segments behind a mapping

`tss_mmap` of `tss-main/tcs/tcsapi/tcsk/tcs.c` backs a mapping with segments of 64 KiB at most, whose
addresses it keeps in `virt_addr_seg_list` until `tss_release`.

| | allocated | filled | counted in `virt_addr_seg_num` |
| --- | --- | --- | --- |
| the first mapping | for its own segments | from entry 0 on | when all of them are there |
| every other mapping | no | from entry 0 on, **over what is there** | when all of them are there |
| `tss_mmap_addr_release` | freed | | the segments it frees |

So a failure of the first mapping frees none of its segments, and a second mapping loses the
segments of the first, or leaves the list.  A segment that is lost stays so (`Lost`), which makes
`tidy_iff` an equivalence: the bookkeeping is right exactly when at most one mapping gets a segment,
gets all of them, and is the last one.
-/

import TsbAgent.Lib.Heap
import TsbAgent.Lib.Word

namespace TsbAgent
namespace Tcs
namespace Mmap

open Word

/-- `seg_limit`. -/
def segLimit : ℕ := 0x10000

/-- `tcs_mmap_mgmt` and the segments, each with its size. -/
structure Mgmt where
  segList : Option (List (Option ℕ))
  segNum : ℤ
  heap : Heap ℕ

/-- The file has just been opened. -/
def Mgmt.init : Mgmt := ⟨none, 0, .empty⟩

/-- A call of `tss_mmap`: the size of the area and what the kernel grants. -/
structure Request where
  size : UInt64
  vzalloc : Bool
  kmalloc : ℕ → Bool
  remap : ℕ → Bool

/-- `virt_addr_seg_num` of the call, an `int`. -/
def Request.segNum (q : Request) : ℤ :=
  int32 (q.size.toNat / segLimit + (if q.size.toNat % segLimit ≠ 0 then 1 else 0) : ℕ)

/-- `kfree` of the entries; no result is a free of what is not there. -/
def freeSegs : List (Option ℕ) → Heap ℕ → Option (Heap ℕ)
  | [], h => some h
  | none :: es, h => freeSegs es h
  | some a :: es, h => if (h.read a).isSome then freeSegs es (h.kfree a) else none

/-- `tss_mmap_addr_release`; no result is also a read behind the list. -/
def addrRelease (s : Mgmt) : Option Mgmt :=
  match s.segList with
  | none => some s
  | some l =>
      if s.segNum > l.length then none
      else (freeSegs (l.take s.segNum.toNat) s.heap).map fun h => ⟨none, 0, h⟩

/-- `tss_release`. -/
def tssRelease (s : Mgmt) : Option Mgmt := addrRelease s

/-- What `tss_mmap` returns. -/
inductive Ret
  | success
  | nomem
  | failed

/-- The loop from entry `i` on, for `n` segments more of an area with `size` bytes left; no result
is also an access behind the list. -/
def mapSegs (q : Request) (num : ℤ) : ℕ → ℕ → ℕ → List (Option ℕ) → Heap ℕ → Option (Ret × Mgmt)
  | 0, _, _, l, h => some (.success, ⟨some l, q.segNum, h⟩)
  | n + 1, i, size, l, h =>
      let segSize := if size < segLimit then size else segLimit
      if l.length ≤ i then none
      else if q.kmalloc i = false then (addrRelease ⟨some (l.set i none), num, h⟩).map fun s => (.nomem, s)
      else
        let l' := l.set i (some h.next)
        if q.remap i = false then (addrRelease ⟨some l', num, h.alloc segSize⟩).map fun s => (.failed, s)
        else mapSegs q num n (i + 1) (size - segSize) l' (h.alloc segSize)

/-- `tss_mmap`; `vzalloc` gives no list of no entries. -/
def tssMmap (s : Mgmt) (q : Request) : Option (Ret × Mgmt) :=
  match s.segList with
  | some l => mapSegs q s.segNum q.segNum.toNat 0 q.size.toNat l s.heap
  | none =>
      if q.vzalloc = true ∧ 0 < q.segNum then
        mapSegs q s.segNum q.segNum.toNat 0 q.size.toNat (List.replicate q.segNum.toNat none) s.heap
      else some (.nomem, s)

/-! ### What is claimed -/

/-- No freed segment is in the list. -/
def Mgmt.Clean (s : Mgmt) : Prop := ∀ l, s.segList = some l → ∀ a, some a ∈ l → a ∉ s.heap.freed

/-- **The bookkeeping is right** in every state of a run of mappings and the release: nothing is
written or read behind the list, nothing that is gone is freed or in the list, and at the end the
list is empty and every segment was freed once. -/
def Tidy : Mgmt → List Request → Prop
  | s, [] => s.Clean ∧ ∃ s', tssRelease s = some s' ∧ s'.segList = none ∧ s'.segNum = 0 ∧
      ∀ a < s'.heap.next, s'.heap.freed.count a = 1
  | s, q :: qs => s.Clean ∧ ∃ r, tssMmap s q = some r ∧ Tidy r.2 qs

/-! ### The condition -/

/-- The call gets no segment. -/
def Request.Quiet (q : Request) : Prop := q.vzalloc = false ∨ q.segNum ≤ 0 ∨ q.kmalloc 0 = false

/-- The call gets all its segments. -/
def Request.Complete (q : Request) : Prop :=
  q.vzalloc = true ∧ 0 < q.segNum ∧ ∀ i : ℕ, i < q.segNum → q.kmalloc i = true ∧ q.remap i = true

/-- **The condition:** only the last call gets a segment, and gets all. -/
def Sound : List Request → Prop
  | [] => True
  | q :: qs => q.Quiet ∧ Sound qs ∨ q.Complete ∧ qs = []

/-! ### Freeing -/

section Free

variable {h h' : Heap ℕ} {l es : List (Option ℕ)} {ids : List ℕ} {a : ℕ} {s s' : Mgmt}

/-- What is not among the entries is not freed. -/
theorem not_mem_freed_of_freeSegs (hfree : freeSegs es h = some h') (ha : a ∉ h.freed) (hnot : some a ∉ es) :
    a ∉ h'.freed ∧ h'.next = h.next := by
  induction es generalizing h with
  | nil =>
      obtain rfl := Option.some.inj hfree
      exact ⟨ha, rfl⟩
  | cons e es ih =>
      rw [List.mem_cons, not_or] at hnot
      obtain ⟨hne, hrest⟩ := hnot
      cases e with
      | none => exact ih hfree ha hrest
      | some b =>
          rw [freeSegs] at hfree
          split_ifs at hfree with hb
          have hab : a ∉ b :: h.freed := by
            rw [List.mem_cons, not_or]
            exact ⟨fun heq => hne (congrArg some heq), ha⟩
          obtain ⟨hfreed, hnext⟩ := ih hfree hab hrest
          exact ⟨hfreed, hnext.trans h.next_kfree⟩

/-- Segments that are there, each named once, are all freed. -/
theorem freeSegs_eq (hlive : ∀ a ∈ ids, (h.read a).isSome = true) (hids : ids.Nodup) :
    ∃ h', freeSegs (ids.map some) h = some h' ∧ h'.freed = ids.reverse ++ h.freed ∧ h'.next = h.next := by
  induction ids generalizing h with
  | nil => exact ⟨h, rfl, rfl, rfl⟩
  | cons a ids ih =>
      obtain ⟨hnot, hids⟩ := List.nodup_cons.mp hids
      have hrest (b : ℕ) (hb : b ∈ ids) : ((h.kfree a).read b).isSome = true := by
        have hab : a ≠ b := fun heq => hnot (heq ▸ hb)
        rw [Heap.read_kfree_of_ne hab]
        exact hlive b (List.mem_cons_of_mem _ hb)
      obtain ⟨h', hfree, hfreed, hnext⟩ := ih hrest hids
      refine ⟨h', ?_, ?_, hnext.trans h.next_kfree⟩
      · rw [List.map_cons, freeSegs, if_pos (hlive a List.mem_cons_self), hfree]
      · rw [hfreed, List.reverse_cons, List.append_assoc]
        rfl

end Free

/-! ### What is lost -/

/-- **A segment that is lost:** it is not freed, and no release will free it.  Only entry 0 may still
have it, when no entry counts. -/
def Lost (a : ℕ) (s : Mgmt) : Prop :=
  a < s.heap.next ∧ a ∉ s.heap.freed ∧
    ∀ l, s.segList = some l → some a ∉ l.tail ∧ (l.head? = some (some a) → s.segNum ≤ 0)

section Lose

variable {a i n size : ℕ} {num : ℤ} {l : List (Option ℕ)} {h : Heap ℕ} {s s' : Mgmt} {q : Request} {r : Ret × Mgmt}

theorem lost_of_not_mem (ha : a < h.next) (hf : a ∉ h.freed) (hl : some a ∉ l) : Lost a ⟨some l, num, h⟩ := by
  refine ⟨ha, hf, fun l' hl' => ?_⟩
  obtain rfl := Option.some.inj hl'
  refine ⟨fun hmem => hl (List.mem_of_mem_tail hmem), fun hhead => ?_⟩
  exact absurd (List.mem_of_mem_head? hhead) hl

/-- A release does not find it. -/
theorem Lost.release (hlost : Lost a s) (hr : addrRelease s = some s') : Lost a s' := by
  obtain ⟨ha, hf, hl⟩ := hlost
  rw [addrRelease] at hr
  split at hr
  · obtain rfl := Option.some.inj hr
    exact ⟨ha, hf, hl⟩
  case h_2 l hlist =>
    split_ifs at hr with hnum
    obtain ⟨h', hfree, rfl⟩ := Option.map_eq_some_iff.mp hr
    have hnot : some a ∉ l.take s.segNum.toNat := by
      obtain ⟨htail, hhead⟩ := hl l hlist
      intro hmem
      cases l with
      | nil => exact absurd hmem (by rw [List.take_nil]; exact List.not_mem_nil)
      | cons e t =>
          rcases List.mem_cons.mp (List.mem_of_mem_take hmem) with heq | ht
          · rw [Int.toNat_of_nonpos (hhead (congrArg some heq.symm)), List.take_zero] at hmem
            exact List.not_mem_nil hmem
          · exact htail ht
    obtain ⟨hfreed, hnext⟩ := not_mem_freed_of_freeSegs hfree hf hnot
    exact ⟨hnext.symm ▸ ha, hfreed, fun l' hl' => by cases hl'⟩

/-- The loop writes over entry 0 first. -/
theorem not_mem_set {x : Option ℕ} (htail : some a ∉ l.tail) (hhead : l.head? = some (some a) → i = 0)
    (hx : x ≠ some a) (hi : i < l.length) : some a ∉ l.set i x := by
  cases l with
  | nil => exact List.not_mem_nil
  | cons e t =>
      cases i with
      | zero =>
          rw [List.set_cons_zero, List.mem_cons, not_or]
          exact ⟨hx.symm, htail⟩
      | succ i =>
          rw [List.set_cons_succ, List.mem_cons, not_or]
          refine ⟨fun heq => absurd (hhead (congrArg some heq.symm)) (Nat.succ_ne_zero i), fun hmem => ?_⟩
          rcases List.mem_or_eq_of_mem_set hmem with ht | heq
          · exact htail ht
          · exact hx heq.symm

/-- **A mapping loses** what stands in entry 0, and nothing that is lost comes back. -/
theorem lost_of_mapSegs (ha : a < h.next) (hf : a ∉ h.freed) (htail : some a ∉ l.tail)
    (hhead : l.head? = some (some a) → i = 0 ∧ (n = 0 → q.segNum ≤ 0))
    (hr : mapSegs q num n i size l h = some r) : Lost a r.2 := by
  induction n generalizing i size l h with
  | zero =>
      obtain rfl := Option.some.inj hr
      refine ⟨ha, hf, fun l' (hl' : some l = some l') => ?_⟩
      obtain rfl := Option.some.inj hl'
      refine ⟨htail, fun hhere => ?_⟩
      dsimp only
      exact (hhead hhere).2 rfl
  | succ n ih =>
      rw [mapSegs] at hr
      dsimp only at hr
      generalize (if size < segLimit then size else segLimit) = segSize at hr
      have hset (x : Option ℕ) (hx : x ≠ some a) (hi : i < l.length) : some a ∉ l.set i x :=
        not_mem_set htail (fun hhere => (hhead hhere).1) hx hi
      have hnew : some h.next ≠ some a := fun heq => absurd (Option.some.inj heq) (by omega)
      have halloc : a < (h.alloc segSize).next := by
        rw [Heap.next_alloc]
        omega
      split_ifs at hr with hend hkmalloc hremap
      · obtain ⟨s', hs', rfl⟩ := Option.map_eq_some_iff.mp hr
        exact (lost_of_not_mem ha hf (hset none (by simp) (by omega))).release hs'
      · obtain ⟨s', hs', rfl⟩ := Option.map_eq_some_iff.mp hr
        exact (lost_of_not_mem halloc hf (hset _ hnew (by omega))).release hs'
      · have hnot := hset _ hnew (by omega)
        exact ih halloc hf (fun hmem => hnot (List.mem_of_mem_tail hmem))
          (fun hhere => absurd (List.mem_of_mem_head? hhere) hnot) hr

/-- **What is lost stays lost,** so the bookkeeping is wrong at the end. -/
theorem not_tidy_of_lost {qs : List Request} (hlost : Lost a s) : ¬ Tidy s qs := by
  induction qs generalizing s with
  | nil =>
      rintro ⟨-, s', hr, -, -, hall⟩
      obtain ⟨ha, hf, -⟩ := hlost.release hr
      have hcount := hall a ha
      rw [List.count_eq_zero_of_not_mem hf] at hcount
      exact absurd hcount (by decide)
  | cons q qs ih =>
      rintro ⟨-, r, hr, hrest⟩
      refine ih ?_ hrest
      obtain ⟨ha, hf, hl⟩ := hlost
      rw [tssMmap] at hr
      split at hr
      case h_1 l hlist =>
        obtain ⟨htail, hhead⟩ := hl l hlist
        refine lost_of_mapSegs ha hf htail (fun _ => ⟨rfl, fun hzero => ?_⟩) hr
        exact Int.toNat_eq_zero.mp hzero
      case h_2 hlist =>
        split_ifs at hr with hgranted
        · refine lost_of_mapSegs ha hf (fun hmem => ?_) (fun hhere => ?_) hr
          · exact absurd (List.eq_of_mem_replicate (List.mem_of_mem_tail hmem)) (by simp)
          · exact absurd (List.eq_of_mem_replicate (List.mem_of_mem_head? hhere)) (by simp)
        · obtain rfl := Option.some.inj hr
          exact ⟨ha, hf, hl⟩

end Lose

/-! ### The first mapping -/

section First

variable {i n size : ℕ} {l : List (Option ℕ)} {h : Heap ℕ} {q : Request} {r : Ret × Mgmt} {qs : List Request}

/-- A release that counts no entry frees none. -/
theorem addrRelease_uncounted (l : List (Option ℕ)) (h : Heap ℕ) :
    addrRelease ⟨some l, 0, h⟩ = some ⟨none, 0, h⟩ := by
  rw [addrRelease]
  dsimp only
  rw [if_neg (by omega), Int.toNat_zero, List.take_zero, freeSegs, Option.map_some]

/-- **The first mapping,** when it does not get all its segments, loses every one it has. -/
theorem lost_of_incomplete {a : ℕ} (ha : a < h.next) (hf : a ∉ h.freed)
    (hfails : ∃ j, i ≤ j ∧ j < i + n ∧ ¬ (q.kmalloc j = true ∧ q.remap j = true))
    (hr : mapSegs q 0 n i size l h = some r) : Lost a r.2 := by
  induction n generalizing i size l h with
  | zero =>
      obtain ⟨j, hlow, hhigh, -⟩ := hfails
      omega
  | succ n ih =>
      rw [mapSegs] at hr
      dsimp only at hr
      generalize (if size < segLimit then size else segLimit) = segSize at hr
      have halloc : a < (h.alloc segSize).next := by
        rw [Heap.next_alloc]
        omega
      rw [addrRelease_uncounted, addrRelease_uncounted, Option.map_some, Option.map_some] at hr
      split_ifs at hr with hend hkmalloc hremap
      · obtain rfl := Option.some.inj hr
        exact ⟨ha, hf, fun l' hl' => by cases hl'⟩
      · obtain rfl := Option.some.inj hr
        exact ⟨halloc, hf, fun l' hl' => by cases hl'⟩
      · refine ih halloc hf ?_ hr
        obtain ⟨j, hlow, hhigh, hno⟩ := hfails
        rw [Bool.not_eq_false] at hkmalloc hremap
        have hne : j ≠ i := fun heq => hno (heq ▸ ⟨hkmalloc, hremap⟩)
        exact ⟨j, by omega, by omega, hno⟩

/-- **All segments:** entry `i` is the segment `i`. -/
theorem mapSegs_complete (num : ℤ) (hall : ∀ j, i ≤ j → j < i + n → q.kmalloc j = true ∧ q.remap j = true)
    (hnext : h.next = i) (hfreed : h.freed = []) (hlive : ∀ a < i, (h.read a).isSome = true) :
    ∃ h', mapSegs q num n i size ((List.range i).map some ++ List.replicate n none) h =
        some (.success, ⟨some ((List.range (i + n)).map some), q.segNum, h'⟩) ∧
      h'.next = i + n ∧ h'.freed = [] ∧ ∀ a < i + n, (h'.read a).isSome = true := by
  induction n generalizing i size h with
  | zero =>
      refine ⟨h, ?_, hnext, hfreed, hlive⟩
      rw [mapSegs, List.replicate_zero, List.append_nil, Nat.add_zero]
  | succ n ih =>
      obtain ⟨hkmalloc, hremap⟩ := hall i le_rfl (by omega)
      rw [mapSegs]
      dsimp only
      generalize (if size < segLimit then size else segLimit) = segSize
      have hlen : ((List.range i).map some).length = i := by rw [List.length_map, List.length_range]
      have hset : ((List.range i).map some ++ List.replicate (n + 1) none).set i (some h.next) =
          (List.range (i + 1)).map some ++ List.replicate n none := by
        rw [List.set_append_right _ _ (by omega), hlen, Nat.sub_self, List.replicate_succ, List.set_cons_zero,
          List.range_succ, List.map_append, List.append_assoc, hnext]
        rfl
      have hlive' (a : ℕ) (ha : a < i + 1) : ((h.alloc segSize).read a).isSome = true := by
        rcases Nat.lt_succ_iff_lt_or_eq.mp ha with hlt | rfl
        · rw [Heap.read_alloc_of_ne (by omega)]
          exact hlive a hlt
        · rw [← hnext, Heap.read_alloc_self]
          rfl
      have hih := @ih (i + 1) (size - segSize) (h.alloc segSize) (fun j hlow hhigh => hall j (by omega) (by omega))
        (by rw [Heap.next_alloc, hnext]) hfreed hlive'
      have harith : i + 1 + n = i + (n + 1) := by omega
      rw [harith] at hih
      rw [if_neg (by rw [List.length_append, hlen, List.length_replicate]; omega), hkmalloc, hremap,
        if_neg (by decide), if_neg (by decide), hset]
      exact hih

/-- **A quiet call** changes nothing. -/
theorem tssMmap_quiet (hq : q.Quiet) : ∃ ret, tssMmap .init q = some (ret, .init) := by
  rw [tssMmap]
  dsimp only [Mgmt.init]
  split_ifs with hgranted
  · obtain ⟨hvzalloc, hpos⟩ := hgranted
    have hkmalloc : q.kmalloc 0 = false := by
      rcases hq with hno | hno | hno
      · rw [hvzalloc] at hno
        cases hno
      · exact absurd hpos (not_lt.mpr hno)
      · exact hno
    obtain ⟨n, hn⟩ : ∃ n, q.segNum.toNat = n + 1 := ⟨q.segNum.toNat - 1, by omega⟩
    rw [hn, mapSegs, hkmalloc, if_neg (by rw [List.length_replicate]; omega), if_pos rfl, addrRelease_uncounted]
    exact ⟨.nomem, rfl⟩
  · exact ⟨.nomem, rfl⟩

/-- **A complete call** leaves its segments in the list, and counts them. -/
theorem tssMmap_complete (hq : q.Complete) :
    ∃ h', tssMmap .init q = some (.success, ⟨some ((List.range q.segNum.toNat).map some), q.segNum, h'⟩) ∧
      h'.next = q.segNum.toNat ∧ h'.freed = [] ∧ ∀ a < q.segNum.toNat, (h'.read a).isSome = true := by
  obtain ⟨hvzalloc, hpos, hall⟩ := hq
  have hmap := @mapSegs_complete 0 q.segNum.toNat q.size.toNat .empty q 0 (fun j _ hj => hall j (by omega)) rfl rfl
    (fun a ha => absurd ha (Nat.not_lt_zero a))
  rw [Nat.zero_add, List.range_zero, List.map_nil, List.nil_append] at hmap
  rw [tssMmap]
  dsimp only [Mgmt.init]
  rw [if_pos ⟨hvzalloc, hpos⟩]
  exact hmap

theorem clean_init : Mgmt.init.Clean := fun l hl => by cases hl

/-- The release after it frees every segment. -/
theorem tidy_of_complete (hq : q.Complete) : Tidy .init [q] := by
  obtain ⟨h', hmap, hnext, hfreed, hlive⟩ := tssMmap_complete hq
  refine ⟨clean_init, _, hmap, ?_, ?_⟩
  · intro l _ a _ ha
    rw [hfreed] at ha
    exact List.not_mem_nil ha
  · obtain ⟨h'', hfree, hfreed', hnext'⟩ := @freeSegs_eq h' (List.range q.segNum.toNat)
      (fun a ha => hlive a (List.mem_range.mp ha)) List.nodup_range
    have hlen : ((List.range q.segNum.toNat).map some).length = q.segNum.toNat := by
      rw [List.length_map, List.length_range]
    have hpos := hq.2.1
    refine ⟨⟨none, 0, h''⟩, ?_, rfl, rfl, fun a (ha : a < h''.next) => ?_⟩
    · rw [tssRelease, addrRelease]
      dsimp only
      rw [if_neg (by omega), List.take_of_length_le (by omega), hfree, Option.map_some]
    · rw [hfreed', hfreed, List.append_nil, List.count_reverse]
      exact List.count_eq_one_of_mem List.nodup_range (List.mem_range.mpr (by omega))

/-- **A second mapping** loses the first segment of the first. -/
theorem lost_of_second {num : ℤ} (hnum : 0 < num) (hnext : h.next = num.toNat) (hfreed : h.freed = [])
    (hr : tssMmap ⟨some ((List.range num.toNat).map some), num, h⟩ q = some r) : Lost 0 r.2 := by
  obtain ⟨n, hn⟩ : ∃ n, num.toNat = n + 1 := ⟨num.toNat - 1, by omega⟩
  have hlist : (List.range num.toNat).map some = some 0 :: ((List.range n).map Nat.succ).map some := by
    rw [hn, List.range_succ_eq_map, List.map_cons]
  rw [tssMmap] at hr
  dsimp only at hr
  rw [hlist] at hr
  refine lost_of_mapSegs (by omega) (by rw [hfreed]; exact List.not_mem_nil) ?_ (fun _ => ⟨rfl, fun hzero => ?_⟩) hr
  · intro hmem
    obtain ⟨a, ha, heq⟩ := List.mem_map.mp hmem
    obtain ⟨b, -, rfl⟩ := List.mem_map.mp ha
    exact absurd (Option.some.inj heq) (Nat.succ_ne_zero b)
  · exact Int.toNat_eq_zero.mp hzero

/-- **A first mapping** that gets some segments and not all loses the first. -/
theorem lost_of_first (hsome : ¬ q.Quiet) (hincomplete : ¬ q.Complete) (hr : tssMmap .init q = some r) :
    Lost 0 r.2 := by
  rw [Request.Quiet, not_or, not_or, Bool.not_eq_false, not_le, Bool.not_eq_false] at hsome
  obtain ⟨hvzalloc, hpos, hkmalloc⟩ := hsome
  obtain ⟨j, hj, hno⟩ : ∃ j : ℕ, j < q.segNum ∧ ¬ (q.kmalloc j = true ∧ q.remap j = true) := by
    by_contra hall
    refine hincomplete ⟨hvzalloc, hpos, fun j hj => ?_⟩
    by_contra hno
    exact hall ⟨j, hj, hno⟩
  obtain ⟨n, hn⟩ : ∃ n, q.segNum.toNat = n + 1 := ⟨q.segNum.toNat - 1, by omega⟩
  rw [tssMmap] at hr
  dsimp only [Mgmt.init] at hr
  rw [if_pos ⟨hvzalloc, hpos⟩, hn, mapSegs] at hr
  dsimp only at hr
  generalize (if q.size.toNat < segLimit then q.size.toNat else segLimit) = segSize at hr
  have hlive : 0 < ((Heap.empty : Heap ℕ).alloc segSize).next := by
    rw [Heap.next_alloc]
    exact Nat.succ_pos _
  rw [if_neg (by rw [List.length_replicate]; omega), hkmalloc, if_neg (by decide), addrRelease_uncounted,
    Option.map_some] at hr
  split_ifs at hr with hremap
  · obtain rfl := Option.some.inj hr
    exact ⟨hlive, List.not_mem_nil, fun l hl => by cases hl⟩
  · rw [Bool.not_eq_false] at hremap
    have hne : j ≠ 0 := fun heq => hno (heq ▸ ⟨hkmalloc, hremap⟩)
    exact lost_of_incomplete hlive List.not_mem_nil ⟨j, by omega, by omega, hno⟩ hr

end First

/-- **When the bookkeeping is right:** in every state of a run of mappings and the release, **exactly
when** only the last call gets a segment, and gets all. -/
theorem tidy_iff (qs : List Request) : Tidy .init qs ↔ Sound qs := by
  induction qs with
  | nil =>
      exact iff_of_true ⟨clean_init, .init, rfl, rfl, rfl, fun a ha => absurd ha (Nat.not_lt_zero a)⟩ trivial
  | cons q qs ih =>
      rw [Sound]
      rcases em q.Quiet with hquiet | hsome
      · have hnot : ¬ (q.Complete ∧ qs = []) := by
          rintro ⟨⟨hvzalloc, hpos, hall⟩, -⟩
          rcases hquiet with hno | hno | hno
          · rw [hvzalloc] at hno
            cases hno
          · exact absurd hpos (not_lt.mpr hno)
          · rw [(hall 0 hpos).1] at hno
            cases hno
        obtain ⟨ret, hr⟩ := tssMmap_quiet hquiet
        rw [or_iff_left hnot, and_iff_right hquiet, ← ih]
        constructor
        · rintro ⟨-, r, hr', hrest⟩
          obtain rfl := Option.some.inj (hr.symm.trans hr')
          exact hrest
        · exact fun hrest => ⟨clean_init, _, hr, hrest⟩
      · rw [or_iff_right fun hboth => hsome hboth.1]
        rcases em q.Complete with hcomplete | hincomplete
        · rw [and_iff_right hcomplete]
          cases qs with
          | nil => exact iff_of_true (tidy_of_complete hcomplete) rfl
          | cons q' qs =>
              refine iff_of_false ?_ (List.cons_ne_nil _ _)
              rintro ⟨-, r, hr, -, r', hr', hrest⟩
              obtain ⟨h', hmap, hnext, hfreed, -⟩ := tssMmap_complete hcomplete
              obtain rfl := Option.some.inj (hmap.symm.trans hr)
              exact not_tidy_of_lost (lost_of_second hcomplete.2.1 hnext hfreed hr') hrest
        · refine iff_of_false ?_ fun hboth => hincomplete hboth.1
          rintro ⟨-, r, hr, hrest⟩
          exact not_tidy_of_lost (lost_of_first hsome hincomplete hr) hrest

/-- A mapping with everything granted. -/
def granted (size : UInt64) : Request := ⟨size, true, fun _ => true, fun _ => true⟩

/-- A second mapping, of two segments, writes behind the list of the first, of one. -/
theorem second_mapping_leaves_list :
    (tssMmap .init (granted 0x1000)).isSome = true ∧
      ((tssMmap .init (granted 0x1000)).bind fun r => tssMmap r.2 (granted 0x20000)).isNone = true ∧
      ¬ Tidy .init [granted 0x1000, granted 0x20000] := by
  have hnone : ((tssMmap .init (granted 0x1000)).bind fun r => tssMmap r.2 (granted 0x20000)).isNone = true := by
    decide +kernel
  refine ⟨by decide +kernel, hnone, ?_⟩
  rintro ⟨-, r, hr, -, r', hr', -⟩
  rw [hr, Option.bind_some, hr'] at hnone
  cases hnone

end Mmap
end Tcs
end TsbAgent
