/-
# The shared ring of notices

`tsb/kernel/platform/notify/ring_array.c`.  Up to `MAX_CONCURR_PROCESS` readers
share one ring.  A notice carries the bitmap of the readers that have not read it
yet (`queue_bitmaps`); a new notice gets the bitmap of all readers (`queue_mask`).

`retrieve_queue` looks for the first notice with the reader's bit, clears the bit
and, when it was the last one, retires an item: not the notice it has found, but
the oldest one of the ring.  That is right because of the invariant `Shared`: the
bitmap of a notice is contained in that of every later one, so once a bitmap is
empty the oldest is empty as well.

The second half is about lists of notices: what a reader has pending in one
(`pendingOf`) and how the changes of the ring act on it.
-/

import TsbAgent.Basic
import TsbAgent.Lib.Fifo
import TsbAgent.Lib.Ring
import Mathlib.Data.Finset.Basic
import Mathlib.Data.Finset.Insert

namespace TsbAgent
namespace Notify

open Libc

/-- A reader's number, below `MAX_CONCURR_PROCESS`. -/
abbrev Ident := Fin 32

/-- `MAX_BUF_ITEMS_NUM`. -/
def maxBufItemsNum : ℕ := 1000

/-- `MIN_BUF_ITEMS_NUM`. -/
def minBufItemsNum : ℕ := 100

/-- `DEFAULT_BUF_ITEMS_NUM`. -/
def defaultBufItemsNum : ℕ := 500

/-- `MAX_NOTICE_SIZE`. -/
def maxNoticeSize : ℤ := 48

/-- `struct notify`. -/
structure Notice where
  type : ℤ
  length : ℤ
  buf : Bytes
deriving DecidableEq

/-- `struct httc_notify`. -/
structure HttcNotify where
  queueBitmaps : Finset Ident
  notifyItem : Notice

/-- `kzalloc` of an item. -/
def HttcNotify.zero : HttcNotify := ⟨∅, 0, 0, List.replicate 48 0⟩

/-- `clear_bit(nr, item->queue_bitmaps)`. -/
def HttcNotify.clearBit (nr : Ident) (x : HttcNotify) : HttcNotify :=
  { x with queueBitmaps := x.queueBitmaps.erase nr }

/-- `struct ring_queue`; `create_queue` makes no other lengths. -/
structure RingQueue where
  queueMask : Finset Ident
  ring : Ring HttcNotify
  le_len : minBufItemsNum ≤ ring.len
  len_le : ring.len ≤ maxBufItemsNum

/-- The length `create_queue` settles on. -/
def clampLength (length : ℕ) : ℕ :=
  if length > maxBufItemsNum ∨ length < minBufItemsNum then defaultBufItemsNum else length

theorem clampLength_range (length : ℕ) :
    minBufItemsNum ≤ clampLength length ∧ clampLength length ≤ maxBufItemsNum := by
  unfold clampLength minBufItemsNum maxBufItemsNum defaultBufItemsNum
  split_ifs <;> omega

/-- `create_queue`, when it has the memory. -/
def createQueue (length : ℕ) : RingQueue where
  queueMask := ∅
  ring :=
    { len := clampLength length
      head := clampLength length - 1
      tail := clampLength length - 1
      slot := fun _ => HttcNotify.zero
      head_lt := by
        have := (clampLength_range length).1
        unfold minBufItemsNum at this
        omega
      tail_lt := by
        have := (clampLength_range length).1
        unfold minBufItemsNum at this
        omega }
  le_len := (clampLength_range length).1
  len_le := (clampLength_range length).2

/-- `get_queue`: retire the oldest item. -/
def getQueue (q : RingQueue) : RingQueue :=
  if q.ring.isEmpty then q else { q with ring := q.ring.pop, le_len := q.le_len, len_le := q.len_le }

/-- `put_queue`. -/
def putQueue (q : RingQueue) (n : Notice) : RingQueue :=
  if q.ring.isFull then q
  else { q with ring := q.ring.push ⟨q.queueMask, n⟩, le_len := q.le_len, len_le := q.len_le }

/-- A change of one slot of the ring. -/
def RingQueue.modify (q : RingQueue) (h : ℕ) (f : HttcNotify → HttcNotify) : RingQueue :=
  { q with ring := q.ring.modify h f, le_len := q.le_len, len_le := q.len_le }

/-- `retrieve_queue`. -/
def retrieveQueue (q : RingQueue) (ident : Ident) : RingQueue × Option Notice :=
  if q.ring.isEmpty then (q, none)
  else
    match q.ring.findSlot fun x => ident ∈ x.queueBitmaps with
    | none => (q, none)
    | some h =>
        let q' := q.modify h (HttcNotify.clearBit ident)
        (if (q'.ring.slot h).queueBitmaps = ∅ then getQueue q' else q',
          some (q.ring.slot h).notifyItem)

/-- `clear_queue_bit`. -/
def clearQueueBit (q : RingQueue) (nr : Ident) : RingQueue :=
  if q.ring.isEmpty then q
  else q.ring.slots.foldl (fun q h => q.modify h (HttcNotify.clearBit nr)) q

/-- One round of `copy_queue`: a notice with its bitmap. -/
def copyItem (des : RingQueue) (x : HttcNotify) : RingQueue :=
  let des := putQueue (if des.ring.isFull then getQueue des else des) x.notifyItem
  des.modify des.ring.tail fun y => { y with queueBitmaps := x.queueBitmaps }

/-- `copy_queue`. -/
def copyQueue (src des : RingQueue) : RingQueue :=
  if src.ring.isEmpty then des else src.ring.slots.foldl (fun des h => copyItem des (src.ring.slot h)) des

/-- `get_channel_num`. -/
def getChannelNum (q : RingQueue) (channel : Ident) : ℕ :=
  if q.ring.isEmpty then 0
  else q.ring.slots.countP fun h => channel ∈ (q.ring.slot h).queueBitmaps

/-! ### What a reader has pending in a list of notices -/

/-- The notices with the reader's bit, oldest first. -/
def pendingOf (i : Ident) (l : List HttcNotify) : List Notice :=
  (l.filter fun x => i ∈ x.queueBitmaps).map HttcNotify.notifyItem

/-- **The invariant of the ring:** an earlier bitmap is contained in every later
one, and all are contained in the mask of the readers. -/
structure Shared (mask : Finset Ident) (l : List HttcNotify) : Prop where
  mono : l.Pairwise fun x y => x.queueBitmaps ⊆ y.queueBitmaps
  sub : ∀ x ∈ l, x.queueBitmaps ⊆ mask

section Lists

variable {mask : Finset Ident} {l l₁ l₂ : List HttcNotify} {i j : Ident}

theorem Shared.append (h : Shared mask l) (n : Notice) : Shared mask (l ++ [⟨mask, n⟩]) := by
  refine ⟨List.pairwise_append.mpr ⟨h.mono, List.pairwise_singleton _ _, ?_⟩, ?_⟩
  · intro x hx y hy
    rw [List.mem_singleton.mp hy]
    exact h.sub x hx
  · intro x hx
    rcases List.mem_append.mp hx with hx | hx
    · exact h.sub x hx
    · rw [List.mem_singleton.mp hx]

theorem Shared.sublist (h : Shared mask l) (hl : l₁.Sublist l) : Shared mask l₁ :=
  ⟨h.mono.sublist hl, fun x hx => h.sub x (hl.subset hx)⟩

theorem Shared.rtake (h : Shared mask l) (n : ℕ) : Shared mask (l.rtake n) :=
  h.sublist (List.drop_sublist _ _)

theorem Shared.insert (h : Shared mask l) (i : Ident) : Shared (insert i mask) l :=
  ⟨h.mono, fun x hx => (h.sub x hx).trans (Finset.subset_insert i mask)⟩

theorem Shared.clearBit (h : Shared mask l) (i : Ident) :
    Shared (mask.erase i) (l.map (HttcNotify.clearBit i)) := by
  refine ⟨List.pairwise_map.mpr (h.mono.imp fun hxy => Finset.erase_subset_erase i hxy), ?_⟩
  intro x hx
  obtain ⟨y, hy, rfl⟩ := List.mem_map.mp hx
  exact Finset.erase_subset_erase i (h.sub y hy)

theorem pendingOf_nil : pendingOf i [] = [] := rfl

theorem pendingOf_append : pendingOf i (l₁ ++ l₂) = pendingOf i l₁ ++ pendingOf i l₂ := by
  simp [pendingOf]

theorem pendingOf_cons (x : HttcNotify) : pendingOf i (x :: l) =
    if i ∈ x.queueBitmaps then x.notifyItem :: pendingOf i l else pendingOf i l := by
  unfold pendingOf
  rw [List.filter_cons]
  split_ifs with h₁ h₂ h₂
  · rfl
  · exact absurd (of_decide_eq_true h₁) h₂
  · exact absurd (decide_eq_true h₂) h₁
  · rfl

theorem pendingOf_eq_nil (h : ∀ x ∈ l, i ∉ x.queueBitmaps) : pendingOf i l = [] := by
  unfold pendingOf
  rw [List.filter_eq_nil_iff.mpr fun x hx => by simpa using h x hx, List.map_nil]

theorem Shared.pendingOf_eq_nil (h : Shared mask l) (hi : i ∉ mask) : pendingOf i l = [] :=
  Notify.pendingOf_eq_nil fun x hx hix => hi (h.sub x hx hix)

/-- **A reader's pending notices in the last items are the reader's last ones.** -/
theorem Shared.pendingOf_rtake (h : Shared mask l) (n : ℕ) :
    pendingOf i (l.rtake n) = (pendingOf i l).rtake n := by
  have hup : l.Pairwise fun x y => decide (i ∈ x.queueBitmaps) = true →
      decide (i ∈ y.queueBitmaps) = true :=
    h.mono.imp fun hxy hx => decide_eq_true (hxy (of_decide_eq_true hx))
  unfold pendingOf
  rw [filter_rtake hup, List.rtake, List.rtake, List.map_drop, List.length_map]

theorem mem_clearBit_of_ne (h : j ≠ i) {x : HttcNotify} :
    j ∈ (x.clearBit i).queueBitmaps ↔ j ∈ x.queueBitmaps := by
  rw [HttcNotify.clearBit, Finset.mem_erase]
  exact ⟨And.right, fun hj => ⟨h, hj⟩⟩

theorem pendingOf_clearBit_of_ne (h : j ≠ i) :
    pendingOf j (l.map (HttcNotify.clearBit i)) = pendingOf j l := by
  induction l with
  | nil => rfl
  | cons x l ih =>
      rw [List.map_cons, pendingOf_cons, pendingOf_cons, ih]
      simp only [mem_clearBit_of_ne h]
      rfl

/-- Reading the first notice with the reader's bit. -/
theorem Shared.read {x : HttcNotify} (h : Shared mask (l₁ ++ x :: l₂))
    (hl : ∀ y ∈ l₁, i ∉ y.queueBitmaps) : Shared mask (l₁ ++ x.clearBit i :: l₂) := by
  obtain ⟨h₁, h₂, h₁₂⟩ := List.pairwise_append.mp h.mono
  obtain ⟨hx, h₂⟩ := List.pairwise_cons.mp h₂
  have hxi : (x.clearBit i).queueBitmaps ⊆ x.queueBitmaps := Finset.erase_subset _ _
  refine ⟨List.pairwise_append.mpr ⟨h₁, List.pairwise_cons.mpr ⟨?_, h₂⟩, ?_⟩, ?_⟩
  · exact fun y hy => hxi.trans (hx y hy)
  · intro y hy z hz
    rcases List.mem_cons.mp hz with rfl | hz
    · exact Finset.subset_erase.mpr ⟨h₁₂ y hy x List.mem_cons_self, hl y hy⟩
    · exact h₁₂ y hy z (List.mem_cons_of_mem _ hz)
  · intro y hy
    rcases List.mem_append.mp hy with hy | hy
    · exact h.sub y (List.mem_append_left _ hy)
    · rcases List.mem_cons.mp hy with rfl | hy
      · exact hxi.trans (h.sub x (by simp))
      · exact h.sub y (by simp [hy])

/-- **Retiring the oldest notice loses nothing** once a later one has been read
by everybody. -/
theorem Shared.pendingOf_tail (h : Shared mask l) {x : HttcNotify} (hx : x ∈ l)
    (he : x.queueBitmaps = ∅) : pendingOf j l.tail = pendingOf j l := by
  rcases l with _ | ⟨y, l⟩
  · rfl
  · have hy : y.queueBitmaps = ∅ := by
      rcases List.mem_cons.mp hx with rfl | hx
      · exact he
      · exact Finset.subset_empty.mp (he ▸ (List.pairwise_cons.mp h.mono).1 x hx)
    rw [List.tail_cons, pendingOf_cons, hy, if_neg (Finset.notMem_empty j)]

end Lists

/-! ### What the functions do to the notices in the ring -/

section Queue

variable {q q' : RingQueue} {i j : Ident} {n : Notice}

theorem two_le_len (q : RingQueue) : 2 ≤ q.ring.len := by
  have h := q.le_len
  unfold minBufItemsNum at h
  omega

/-- Putting into the ring, with the oldest item retired when it is full. -/
theorem putQueue_drop (q : RingQueue) (n : Notice) :
    (putQueue (if q.ring.isFull then getQueue q else q) n).queueMask = q.queueMask ∧
      (putQueue (if q.ring.isFull then getQueue q else q) n).ring =
        q.ring.pushDrop ⟨q.queueMask, n⟩ := by
  unfold Ring.pushDrop
  split_ifs with hf
  · have hne := Ring.not_isEmpty_of_isFull (two_le_len q) hf
    have hget : getQueue q = { q with
        ring := q.ring.pop, le_len := q.le_len, len_le := q.len_le } := if_neg hne
    rw [hget, putQueue, if_neg (Ring.not_isFull_pop hne)]
    exact ⟨rfl, rfl⟩
  · rw [putQueue, if_neg hf]
    exact ⟨rfl, rfl⟩

theorem clearQueueBit_spec (q : RingQueue) (nr : Ident) :
    (clearQueueBit q nr).queueMask = q.queueMask ∧
      (clearQueueBit q nr).ring.len = q.ring.len ∧
      (clearQueueBit q nr).ring.items = q.ring.items.map (HttcNotify.clearBit nr) := by
  have hfold : ∀ (l : List ℕ) (q : RingQueue),
      (l.foldl (fun q h => q.modify h (HttcNotify.clearBit nr)) q).queueMask = q.queueMask ∧
      (l.foldl (fun q h => q.modify h (HttcNotify.clearBit nr)) q).ring.len = q.ring.len ∧
      (l.foldl (fun q h => q.modify h (HttcNotify.clearBit nr)) q).ring =
        l.foldl (fun r h => r.modify h (HttcNotify.clearBit nr)) q.ring := by
    intro l
    induction l with
    | nil => exact fun q => ⟨rfl, rfl, rfl⟩
    | cons h l ih => exact fun q => ih (q.modify h (HttcNotify.clearBit nr))
  unfold clearQueueBit
  split_ifs with he
  · rw [q.ring.isEmpty_iff.mp he, List.map_nil]
    exact ⟨rfl, rfl, rfl⟩
  · obtain ⟨hmask, hlen, hring⟩ := hfold q.ring.slots q
    refine ⟨hmask, hlen, ?_⟩
    rw [hring]
    exact Ring.items_modifyAll _

theorem retrieveQueue_none (h : (retrieveQueue q i).2 = none) :
    (retrieveQueue q i).1 = q ∧ pendingOf i q.ring.items = [] := by
  unfold retrieveQueue at h ⊢
  by_cases he : q.ring.isEmpty
  · rw [if_pos he, q.ring.isEmpty_iff.mp he]
    exact ⟨rfl, rfl⟩
  · rw [if_neg he] at h ⊢
    cases hf : q.ring.findSlot fun x => i ∈ x.queueBitmaps with
    | none =>
        refine ⟨rfl, pendingOf_eq_nil fun x hx => ?_⟩
        simpa using Ring.forall_of_findSlot_none hf x hx
    | some k =>
        rw [hf] at h
        exact absurd h (by simp)

/-- **`retrieve_queue` takes the reader's oldest pending notice** and changes
nothing for the others, whatever item it retires. -/
theorem retrieveQueue_some (hs : Shared q.queueMask q.ring.items)
    (h : retrieveQueue q i = (q', some n)) :
    q'.queueMask = q.queueMask ∧ q'.ring.len = q.ring.len ∧ Shared q'.queueMask q'.ring.items ∧
      pendingOf i q.ring.items = n :: pendingOf i q'.ring.items ∧
      ∀ j, j ≠ i → pendingOf j q'.ring.items = pendingOf j q.ring.items := by
  unfold retrieveQueue at h
  have he : ¬ q.ring.isEmpty := by
    intro he
    rw [if_pos he] at h
    exact absurd h (by simp)
  rw [if_neg he] at h
  cases hf : q.ring.findSlot fun x => i ∈ x.queueBitmaps with
  | none =>
      rw [hf] at h
      exact absurd h (by simp)
  | some k =>
      rw [hf] at h
      simp only [Prod.mk.injEq, Option.some.injEq] at h
      obtain ⟨hq, rfl⟩ := h
      obtain ⟨l₁, l₂, hitems, hl₁, hk, hmod⟩ := Ring.exists_of_findSlot hf
      have hi : i ∈ (q.ring.slot k).queueBitmaps := of_decide_eq_true hk
      have hl₁' : ∀ y ∈ l₁, i ∉ y.queueBitmaps := fun y hy => of_decide_eq_false (hl₁ y hy)
      have hslot : (q.modify k (HttcNotify.clearBit i)).ring.slot k =
          (q.ring.slot k).clearBit i := Function.update_self ..
      have hm : (q.modify k (HttcNotify.clearBit i)).ring.items =
          l₁ ++ (q.ring.slot k).clearBit i :: l₂ := hmod _
      have hs' : Shared q.queueMask (l₁ ++ (q.ring.slot k).clearBit i :: l₂) :=
        (hitems ▸ hs).read hl₁'
      have hni : i ∉ ((q.ring.slot k).clearBit i).queueBitmaps := Finset.notMem_erase i _
      have hpi : pendingOf i q.ring.items = (q.ring.slot k).notifyItem ::
          pendingOf i (l₁ ++ (q.ring.slot k).clearBit i :: l₂) := by
        rw [hitems, pendingOf_append, pendingOf_append, pendingOf_eq_nil hl₁', pendingOf_cons,
          pendingOf_cons, if_pos hi, if_neg hni, List.nil_append, List.nil_append]
      have hpj : ∀ j, j ≠ i →
          pendingOf j (l₁ ++ (q.ring.slot k).clearBit i :: l₂) = pendingOf j q.ring.items := by
        intro j hj
        rw [hitems, pendingOf_append, pendingOf_append, pendingOf_cons, pendingOf_cons]
        simp only [mem_clearBit_of_ne hj]
        rfl
      rw [hslot] at hq
      split_ifs at hq with hempty
      · have hne : ¬ (q.modify k (HttcNotify.clearBit i)).ring.isEmpty := by
          rw [Ring.isEmpty_iff, hm]
          simp
        rw [getQueue, if_neg hne] at hq
        subst hq
        have htail : ∀ j, pendingOf j (l₁ ++ (q.ring.slot k).clearBit i :: l₂).tail =
            pendingOf j (l₁ ++ (q.ring.slot k).clearBit i :: l₂) :=
          fun j => hs'.pendingOf_tail (by simp) hempty
        refine ⟨rfl, rfl, ?_, ?_, fun j hj => ?_⟩
        · rw [Ring.items_pop hne, hm]
          exact hs'.sublist (List.tail_sublist _)
        · rw [Ring.items_pop hne, hm, htail, hpi]
        · rw [Ring.items_pop hne, hm, htail, hpj j hj]
      · subst hq
        refine ⟨rfl, rfl, hm ▸ hs', by rw [hm, hpi], fun j hj => by rw [hm, hpj j hj]⟩

theorem copyItem_spec (des : RingQueue) (x : HttcNotify) :
    (copyItem des x).queueMask = des.queueMask ∧ (copyItem des x).ring.len = des.ring.len ∧
      (copyItem des x).ring.items = (des.ring.items ++ [x]).rtake (des.ring.len - 1) := by
  obtain ⟨hmask, hring⟩ := putQueue_drop des x.notifyItem
  have hmod : (copyItem des x).ring = des.ring.pushDrop x := by
    unfold copyItem RingQueue.modify
    simp only [hring]
    unfold Ring.pushDrop Ring.push Ring.modify
    simp only [Function.update_self, Function.update_idem]
  have hlen : (des.ring.pushDrop x).len = des.ring.len := by
    unfold Ring.pushDrop
    split_ifs <;> rfl
  refine ⟨hmask, by rw [hmod, hlen], ?_⟩
  rw [hmod]
  exact Ring.items_pushDrop (two_le_len des) x

/-- **Copying keeps the last notices that the new ring has room for.** -/
theorem copyQueue_spec (src des : RingQueue) (hdes : des.ring.items = []) :
    (copyQueue src des).queueMask = des.queueMask ∧
      (copyQueue src des).ring.len = des.ring.len ∧
      (copyQueue src des).ring.items = src.ring.items.rtake (des.ring.len - 1) := by
  have hfold : ∀ l : List ℕ,
      (l.foldl (fun des h => copyItem des (src.ring.slot h)) des).queueMask = des.queueMask ∧
      (l.foldl (fun des h => copyItem des (src.ring.slot h)) des).ring.len = des.ring.len ∧
      (l.foldl (fun des h => copyItem des (src.ring.slot h)) des).ring.items =
        (l.map src.ring.slot).rtake (des.ring.len - 1) := by
    intro l
    induction l using List.reverseRecOn with
    | nil => exact ⟨rfl, rfl, by rw [List.map_nil, List.rtake_nil]; exact hdes⟩
    | append_singleton l h ih =>
        obtain ⟨hmask, hlen, hitems⟩ := ih
        rw [List.foldl_append, List.foldl_cons, List.foldl_nil]
        obtain ⟨hmask', hlen', hitems'⟩ := copyItem_spec
          (l.foldl (fun des h => copyItem des (src.ring.slot h)) des) (src.ring.slot h)
        refine ⟨hmask'.trans hmask, hlen'.trans hlen, ?_⟩
        rw [hitems', hlen, hitems, rtake_rtake_append, List.map_append, List.map_singleton]
  unfold copyQueue
  split_ifs with he
  · rw [hdes, src.ring.isEmpty_iff.mp he, List.rtake_nil]
    exact ⟨rfl, rfl, rfl⟩
  · exact hfold src.ring.slots

theorem getChannelNum_eq (q : RingQueue) (c : Ident) :
    getChannelNum q c = (pendingOf c q.ring.items).length := by
  unfold getChannelNum
  split_ifs with he
  · rw [q.ring.isEmpty_iff.mp he]
    rfl
  · rw [pendingOf, List.length_map, ← List.countP_eq_length_filter, Ring.items, List.countP_map]
    rfl

end Queue

end Notify
end TsbAgent
