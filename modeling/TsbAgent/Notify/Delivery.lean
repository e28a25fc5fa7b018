/-
# Delivery of notices

`tsb/kernel/platform/notify/notify.c`: processes subscribe by opening a queue
(`ioctl_tsb_create_notify_queue`) and read it (`ioctl_tsb_get_notify_block`,
`ioctl_tsb_get_notify_noblock`) until they close the file
(`tsb_destroy_notify_read_queue`); the kernel puts notices (`tsb_put_notify`) and
the ring can be resized (`ioctl_tsb_set_queue_num`).

`Spec` says what this is for: every subscriber has a queue of its own, bounded by
the capacity of the ring, which is one less than its length.  A `Fifo` keeps its
history, so the statement is about what a subscriber received, what it lost and
what is pending.  `Refines` relates the shared ring to these queues, and
`notify_delivery` says that every sequence of operations keeps them related and
hands every reader what its own queue would.

A reading call is one step here.  The two reading calls differ in waiting only:
while there is nothing to read, one returns nothing and the other does not
return.  A notice counts as received once it is retrieved for the caller's buffer;
a call whose `copy_to_user` fails stops after that notice.
-/

import TsbAgent.Notify.RingArray
import Mathlib.Data.Finset.Card
import Mathlib.Data.List.FinRange

namespace TsbAgent
namespace Notify

/-- `dev_list`, the ring, and the `private_data` of the open files. -/
structure State where
  queue : RingQueue
  inuse : Ident → Bool
  notifySum : Ident → ℤ
  privateData : ℕ → Option Ident

/-- `tsb_notify_init`. -/
def State.init : State :=
  ⟨createQueue defaultBufItemsNum, fun _ => false, fun _ => 0, fun _ => none⟩

/-- An operation on the notices; `get` carries the copy to user space that
fails, if one does. -/
inductive Op
  | create (filp : ℕ)
  | destroy (filp : ℕ)
  | put (entry : Notice)
  | get (filp : ℕ) (fault : Option ℕ)
  | setQueueNum (queueLength : ℕ) (kzalloc : Bool)

/-- `ioctl_tsb_create_notify_queue`. -/
def createNotifyQueue (s : State) (filp : ℕ) : State :=
  match (List.finRange 32).find? fun i => !s.inuse i with
  | none => s
  | some i =>
      { queue := { s.queue with queueMask := insert i s.queue.queueMask }
        inuse := Function.update s.inuse i true
        notifySum := Function.update s.notifySum i 0
        privateData := Function.update s.privateData filp (some i) }

/-- `tsb_destroy_notify_read_queue`, on the release of a file. -/
def destroyNotifyReadQueue (s : State) (filp : ℕ) : State :=
  match s.privateData filp with
  | none => s
  | some i =>
      { queue := clearQueueBit { s.queue with queueMask := s.queue.queueMask.erase i } i
        inuse := Function.update s.inuse i false
        notifySum := Function.update s.notifySum i 0
        privateData := Function.update s.privateData filp none }

/-- `tsb_put_notify`; the count is compared as an `unsigned int`. -/
def putNotify (s : State) (entry : Notice) : State :=
  if entry.length > maxNoticeSize then s
  else if s.queue.queueMask.card = 0 then s
  else
    { s with
      queue := putQueue (if s.queue.ring.isFull then getQueue s.queue else s.queue) entry
      notifySum := fun i =>
        if i ∈ s.queue.queueMask ∧ s.notifySum i % 4294967296 < s.queue.ring.len - 1 then
          s.notifySum i + 1
        else s.notifySum i }

/-- The loop of a reading call, for at most `fuel` notices. -/
def readLoop (i : Ident) : ℕ → Option ℕ → RingQueue → ℤ → RingQueue × ℤ × List Notice
  | 0, _, q, sum => (q, sum, [])
  | fuel + 1, fault, q, sum =>
      match retrieveQueue q i with
      | (q, none) => (q, sum, [])
      | (q, some n) =>
          let sum := if sum - 1 < 0 then 0 else sum - 1
          match fault with
          | some 0 => (q, sum, [n])
          | some (k + 1) =>
              let r := readLoop i fuel (some k) q sum
              (r.1, r.2.1, n :: r.2.2)
          | none =>
              let r := readLoop i fuel none q sum
              (r.1, r.2.1, n :: r.2.2)

/-- `ioctl_tsb_get_notify_noblock`, and `ioctl_tsb_get_notify_block` once it has
something to read. -/
def getNotify (s : State) (filp : ℕ) (fault : Option ℕ) : State × List Notice :=
  match s.privateData filp with
  | none => (s, [])
  | some i =>
      if s.notifySum i ≤ 0 then (s, [])
      else
        let r := readLoop i s.queue.ring.len fault s.queue (s.notifySum i)
        ({ s with queue := r.1, notifySum := Function.update s.notifySum i r.2.1 }, r.2.2)

/-- `ioctl_tsb_set_queue_num`; `create_queue` takes the length as an `unsigned int`. -/
def setQueueNum (s : State) (queueLength : ℕ) (kzalloc : Bool) : State :=
  if queueLength = s.queue.ring.len then s
  else if kzalloc = false then s
  else
    let q := copyQueue s.queue
      { createQueue (queueLength % 4294967296) with queueMask := s.queue.queueMask }
    { s with
      queue := q
      notifySum := fun i => if i ∈ q.queueMask then getChannelNum q i else s.notifySum i }

/-- One operation, with the notices it hands out. -/
def step (s : State) : Op → State × List Notice
  | .create filp => (createNotifyQueue s filp, [])
  | .destroy filp => (destroyNotifyReadQueue s filp, [])
  | .put entry => (putNotify s entry, [])
  | .get filp fault => getNotify s filp fault
  | .setQueueNum queueLength kzalloc => (setQueueNum s queueLength kzalloc, [])

/-- The operations in a row, with what each of them hands out. -/
def run (s : State) : List Op → State × List (List Notice)
  | [] => (s, [])
  | op :: ops => ((run (step s op).1 ops).1, (step s op).2 :: (run (step s op).1 ops).2)

/-! ### What the notices are for -/

/-- A bounded queue for every subscriber. -/
structure Spec where
  cap : ℕ
  subs : Ident → Option (Fifo Notice)
  privateData : ℕ → Option Ident

/-- No subscriber, and room for `DEFAULT_BUF_ITEMS_NUM - 1` notices. -/
def Spec.init : Spec := ⟨defaultBufItemsNum - 1, fun _ => none, fun _ => none⟩

/-- How many of `m` pending notices a reading call takes. -/
def readCount (m : ℕ) : Option ℕ → ℕ
  | none => m
  | some k => k + 1

/-- A new subscriber, if there is a free number. -/
def Spec.create (a : Spec) (filp : ℕ) : Spec :=
  match (List.finRange 32).find? fun i => (a.subs i).isNone with
  | none => a
  | some i =>
      { a with
        subs := Function.update a.subs i (some Fifo.empty)
        privateData := Function.update a.privateData filp (some i) }

/-- The subscriber leaves. -/
def Spec.destroy (a : Spec) (filp : ℕ) : Spec :=
  match a.privateData filp with
  | none => a
  | some i =>
      { a with
        subs := Function.update a.subs i none
        privateData := Function.update a.privateData filp none }

/-- Every subscriber gets the notice, and keeps as many as there is room for. -/
def Spec.put (a : Spec) (entry : Notice) : Spec :=
  if entry.length > maxNoticeSize then a
  else { a with subs := fun i => (a.subs i).map fun f => (f.offer entry).limit a.cap }

/-- The subscriber takes what is pending, or stops at the copy that fails. -/
def Spec.get (a : Spec) (filp : ℕ) (fault : Option ℕ) : Spec × List Notice :=
  match (a.privateData filp).bind fun i => (a.subs i).map fun f => (i, f) with
  | none => (a, [])
  | some (i, f) =>
      ({ a with
        subs := Function.update a.subs i (some (f.take (readCount f.pending.length fault))) },
        f.pending.take (readCount f.pending.length fault))

/-- Room for a different number of notices. -/
def Spec.setQueueNum (a : Spec) (queueLength : ℕ) (kzalloc : Bool) : Spec :=
  if queueLength = a.cap + 1 then a
  else if kzalloc = false then a
  else
    { a with
      cap := clampLength (queueLength % 4294967296) - 1
      subs := fun i =>
        (a.subs i).map fun f => f.limit (clampLength (queueLength % 4294967296) - 1) }

/-- One operation on the subscribers' queues, with the notices it hands out. -/
def Spec.step (a : Spec) : Op → Spec × List Notice
  | .create filp => (a.create filp, [])
  | .destroy filp => (a.destroy filp, [])
  | .put entry => (a.put entry, [])
  | .get filp fault => a.get filp fault
  | .setQueueNum queueLength kzalloc => (a.setQueueNum queueLength kzalloc, [])

/-- The operations in a row on the subscribers' queues. -/
def Spec.run (a : Spec) : List Op → Spec × List (List Notice)
  | [] => (a, [])
  | op :: ops => (((a.step op).1.run ops).1, (a.step op).2 :: ((a.step op).1.run ops).2)

/-- The ring `s` serves the queues of `a`. -/
structure Refines (s : State) (a : Spec) : Prop where
  cap : a.cap + 1 = s.queue.ring.len
  priv : a.privateData = s.privateData
  live : ∀ i, s.inuse i = (a.subs i).isSome
  mask : ∀ i, i ∈ s.queue.queueMask ↔ (a.subs i).isSome = true
  shared : Shared s.queue.queueMask s.queue.ring.items
  pending : ∀ i f, a.subs i = some f → f.pending = pendingOf i s.queue.ring.items
  sum : ∀ i f, a.subs i = some f → s.notifySum i = f.pending.length
  owner : ∀ filp i, s.privateData filp = some i → i ∈ s.queue.queueMask
  owner_inj : ∀ filp filp' i, s.privateData filp = some i → s.privateData filp' = some i → filp = filp'

theorem items_createQueue (length : ℕ) : (createQueue length).ring.items = [] :=
  (createQueue length).ring.isEmpty_iff.mp rfl

theorem refines_init : Refines State.init Spec.init where
  cap := rfl
  priv := rfl
  live := fun _ => rfl
  mask := fun i => by simp [State.init, Spec.init, createQueue]
  shared := by
    rw [State.init, items_createQueue]
    exact ⟨List.Pairwise.nil, fun x hx => absurd hx List.not_mem_nil⟩
  pending := fun i f h => absurd h (by simp [Spec.init])
  sum := fun i f h => absurd h (by simp [Spec.init])
  owner := fun filp i h => absurd h (by simp [State.init])
  owner_inj := fun filp filp' i h => absurd h (by simp [State.init])

section Steps

variable {s : State} {a : Spec}

theorem update_eq_some {ι β : Type*} [DecidableEq ι] {g : ι → Option β} {i j : ι} {o : Option β}
    {x : β} (h : Function.update g i o j = some x) : (j = i ∧ o = some x) ∨ (j ≠ i ∧ g j = some x) := by
  rcases eq_or_ne j i with rfl | hne
  · rw [Function.update_self] at h
    exact Or.inl ⟨rfl, h⟩
  · rw [Function.update_of_ne hne] at h
    exact Or.inr ⟨hne, h⟩

/-- A file that is released has no reader. -/
theorem update_none_eq_some {ι β : Type*} [DecidableEq ι] {g : ι → Option β} {i j : ι} {x : β}
    (h : Function.update g i none j = some x) : j ≠ i ∧ g j = some x := by
  rcases update_eq_some h with ⟨-, hx⟩ | hj
  · cases hx
  · exact hj

/-- The files have readers of the queue, and no two files the same one. -/
structure Owned (priv : ℕ → Option Ident) (mask : Finset Ident) : Prop where
  mem : ∀ filp i, priv filp = some i → i ∈ mask
  inj : ∀ filp filp' i, priv filp = some i → priv filp' = some i → filp = filp'

theorem Owned.insert {priv : ℕ → Option Ident} {mask : Finset Ident} {i : Ident}
    (h : Owned priv mask) (hi : i ∉ mask) (filp : ℕ) :
    Owned (Function.update priv filp (some i)) (insert i mask) := by
  have hold : ∀ {g}, priv g ≠ some i := fun hg => hi (h.mem _ i hg)
  refine ⟨fun g j hg => ?_, fun g g' j hg hg' => ?_⟩
  · rcases update_eq_some hg with ⟨-, hji⟩ | ⟨-, hg⟩
    · exact Option.some.inj hji ▸ Finset.mem_insert_self _ _
    · exact Finset.mem_insert_of_mem (h.mem g j hg)
  · rcases update_eq_some hg with ⟨rfl, hji⟩ | ⟨-, hgj⟩ <;>
      rcases update_eq_some hg' with ⟨rfl, hji'⟩ | ⟨-, hgj'⟩
    · rfl
    · exact absurd (hgj'.trans hji.symm) hold
    · exact absurd (hgj.trans hji'.symm) hold
    · exact h.inj g g' j hgj hgj'

theorem Owned.erase {priv : ℕ → Option Ident} {mask : Finset Ident} {i : Ident} {filp : ℕ}
    (h : Owned priv mask) (hp : priv filp = some i) :
    Owned (Function.update priv filp none) (mask.erase i) := by
  refine ⟨fun g j hg => ?_, fun g g' j hg hg' => ?_⟩
  · obtain ⟨hne, hg⟩ := update_none_eq_some hg
    exact Finset.mem_erase.mpr ⟨fun hji => hne (h.inj g filp i (hji ▸ hg) hp), h.mem g j hg⟩
  · exact h.inj g g' j (update_none_eq_some hg).2 (update_none_eq_some hg').2

theorem Refines.create (h : Refines s a) (filp : ℕ) :
    Refines (createNotifyQueue s filp) (a.create filp) := by
  have hfree : ((List.finRange 32).find? fun i => !s.inuse i) =
      (List.finRange 32).find? fun i => (a.subs i).isNone := by
    congr 1
    funext i
    rw [h.live i]
    cases a.subs i <;> rfl
  unfold createNotifyQueue Spec.create
  rw [hfree]
  cases hf : (List.finRange 32).find? fun i => (a.subs i).isNone with
  | none => exact h
  | some i =>
      have hfound : (a.subs i).isNone = true := by simpa using List.find?_some hf
      have hnone : a.subs i = none := Option.isNone_iff_eq_none.mp hfound
      have hi : i ∉ s.queue.queueMask := by
        rw [h.mask i, hnone]
        exact Bool.false_ne_true
      have howned := Owned.insert ⟨h.owner, h.owner_inj⟩ hi filp
      refine ⟨h.cap, by simp only [h.priv], fun j => ?_, fun j => ?_, h.shared.insert i,
        fun j f hj => ?_, fun j f hj => ?_, howned.mem, howned.inj⟩
      · rcases eq_or_ne j i with rfl | hne
        · simp only [Function.update_self, Option.isSome_some]
        · simp only [Function.update_of_ne hne, h.live j]
      · rcases eq_or_ne j i with rfl | hne
        · simp
        · simp [Finset.mem_insert, hne, h.mask j]
      · rcases update_eq_some hj with ⟨rfl, he⟩ | ⟨hne, hj⟩
        · obtain rfl := Option.some.inj he
          exact (h.shared.pendingOf_eq_nil hi).symm
        · exact h.pending j f hj
      · rcases update_eq_some hj with ⟨rfl, he⟩ | ⟨hne, hj⟩
        · obtain rfl := Option.some.inj he
          simp [Fifo.empty]
        · simp only [Function.update_of_ne hne]
          exact h.sum j f hj

theorem Refines.destroy (h : Refines s a) (filp : ℕ) :
    Refines (destroyNotifyReadQueue s filp) (a.destroy filp) := by
  unfold destroyNotifyReadQueue Spec.destroy
  rw [h.priv]
  cases hp : s.privateData filp with
  | none => exact h
  | some i =>
      obtain ⟨hmask, hlen, hitems⟩ :=
        clearQueueBit_spec { s.queue with queueMask := s.queue.queueMask.erase i } i
      have howned := Owned.erase ⟨h.owner, h.owner_inj⟩ hp
      refine ⟨h.cap.trans hlen.symm, rfl, fun j => ?_, fun j => ?_, ?_, fun j f hj => ?_,
        fun j f hj => ?_, hmask ▸ howned.mem, howned.inj⟩
      · rcases eq_or_ne j i with rfl | hne
        · simp only [Function.update_self, Option.isSome_none]
        · simp only [Function.update_of_ne hne, h.live j]
      · simp only [hmask, Finset.mem_erase]
        rcases eq_or_ne j i with rfl | hne
        · simp
        · simp [hne, h.mask j]
      · simp only [hmask, hitems]
        exact h.shared.clearBit i
      · obtain ⟨hne, hj⟩ := update_none_eq_some hj
        simp only [hitems, pendingOf_clearBit_of_ne hne]
        exact h.pending j f hj
      · obtain ⟨hne, hj⟩ := update_none_eq_some hj
        simp only [Function.update_of_ne hne]
        exact h.sum j f hj

/-- The subscribers after a change of the ring that keeps its readers and cuts
every pending list to the same number. -/
theorem Refines.limit (h : Refines s a) {q : RingQueue} {sum : Ident → ℤ} {cap : ℕ}
    {g : Fifo Notice → Fifo Notice} (hmask : q.queueMask = s.queue.queueMask)
    (hlen : cap + 1 = q.ring.len) (hshared : Shared q.queueMask q.ring.items)
    (hpending : ∀ i f, a.subs i = some f → (g f).pending = pendingOf i q.ring.items)
    (hsum : ∀ i f, a.subs i = some f → sum i = (g f).pending.length) :
    Refines { s with queue := q, notifySum := sum }
      { a with cap := cap, subs := fun i => (a.subs i).map g } := by
  refine ⟨hlen, h.priv, fun i => ?_, fun i => ?_, hshared, fun i f hf => ?_, fun i f hf => ?_,
    fun filp i hi => ?_, h.owner_inj⟩
  · simp only [Option.isSome_map, h.live i]
  · simp only [Option.isSome_map, hmask, h.mask i]
  · obtain ⟨f₀, hf₀, rfl⟩ := Option.map_eq_some_iff.mp hf
    exact hpending i f₀ hf₀
  · obtain ⟨f₀, hf₀, rfl⟩ := Option.map_eq_some_iff.mp hf
    exact hsum i f₀ hf₀
  · simp only [hmask]
    exact h.owner filp i hi

theorem length_rtake {α : Type*} (l : List α) (n : ℕ) : (l.rtake n).length = min n l.length := by
  rw [List.rtake, List.length_drop]
  omega

theorem Refines.put (h : Refines s a) (entry : Notice) :
    Refines (putNotify s entry) (a.put entry) := by
  unfold putNotify Spec.put
  by_cases hlen : entry.length > maxNoticeSize
  · rw [if_pos hlen, if_pos hlen]
    exact h
  · rw [if_neg hlen, if_neg hlen]
    by_cases hcard : s.queue.queueMask.card = 0
    · have hnone : ∀ i, a.subs i = none := by
        intro i
        have hi : i ∉ s.queue.queueMask := by
          rw [Finset.card_eq_zero.mp hcard]
          exact Finset.notMem_empty i
        rw [h.mask i] at hi
        exact Option.not_isSome_iff_eq_none.mp hi
      have hsame : (fun i => (a.subs i).map fun f => (f.offer entry).limit a.cap) = a.subs := by
        funext i
        rw [hnone i, Option.map_none]
      rw [if_pos hcard, hsame]
      exact h
    · rw [if_neg hcard]
      obtain ⟨hmask, hring⟩ := putQueue_drop s.queue entry
      have hcap := h.cap
      have hitems := Ring.items_pushDrop (two_le_len s.queue) (⟨s.queue.queueMask, entry⟩ : HttcNotify)
      have hrlen : (s.queue.ring.pushDrop ⟨s.queue.queueMask, entry⟩).len = s.queue.ring.len := by
        unfold Ring.pushDrop
        split_ifs <;> rfl
      rw [← hring, show s.queue.ring.len - 1 = a.cap by omega] at hitems
      have hshared := h.shared.append entry
      have hpending : ∀ i f, a.subs i = some f → ((f.offer entry).limit a.cap).pending =
          pendingOf i (putQueue (if s.queue.ring.isFull then getQueue s.queue else s.queue)
            entry).ring.items := by
        intro i f hf
        have hi : i ∈ s.queue.queueMask := by
          rw [h.mask i, hf]
          rfl
        rw [hitems, hshared.pendingOf_rtake, pendingOf_append, pendingOf_cons, if_pos hi,
          pendingOf_nil, ← h.pending i f hf]
        rfl
      refine h.limit hmask (by rw [hring, hrlen, hcap]) ?_ hpending fun i f hf => ?_
      · rw [hmask, hitems]
        exact hshared.rtake _
      · have hi : i ∈ s.queue.queueMask := by
          rw [h.mask i, hf]
          rfl
        have hsum := h.sum i f hf
        have hlt : f.pending.length ≤ a.cap := by
          have hle : (pendingOf i s.queue.ring.items).length ≤ s.queue.ring.items.length := by
            rw [pendingOf, List.length_map]
            exact List.length_filter_le _ _
          have := s.queue.ring.length_items_lt
          rw [← h.pending i f hf] at hle
          omega
        have hmax : s.queue.ring.len ≤ 1000 := s.queue.len_le
        change _ = (((f.pending ++ [entry]).rtake a.cap).length : ℤ)
        rw [length_rtake, List.length_append, List.length_singleton, hsum,
          Int.emod_eq_of_lt (by omega) (by omega)]
        simp only [hi, true_and]
        split_ifs <;> omega

theorem Refines.setQueueNum (h : Refines s a) (queueLength : ℕ) (kzalloc : Bool) :
    Refines (setQueueNum s queueLength kzalloc) (a.setQueueNum queueLength kzalloc) := by
  unfold Notify.setQueueNum Spec.setQueueNum
  rw [h.cap]
  split_ifs with hsame hk
  · exact h
  · exact h
  · obtain ⟨hmask, hlen, hitems⟩ := copyQueue_spec s.queue
      { createQueue (queueLength % 4294967296) with queueMask := s.queue.queueMask }
      (items_createQueue _)
    have hclamp : clampLength (queueLength % 4294967296) - 1 + 1 =
        clampLength (queueLength % 4294967296) := by
      have := (clampLength_range (queueLength % 4294967296)).1
      unfold minBufItemsNum at this
      omega
    change _ = clampLength (queueLength % 4294967296) at hlen
    change _ = s.queue.ring.items.rtake (clampLength (queueLength % 4294967296) - 1) at hitems
    have hpending : ∀ i f, a.subs i = some f →
        (f.limit (clampLength (queueLength % 4294967296) - 1)).pending =
          pendingOf i (copyQueue s.queue
            { createQueue (queueLength % 4294967296) with
              queueMask := s.queue.queueMask }).ring.items := by
      intro i f hf
      rw [hitems, h.shared.pendingOf_rtake, ← h.pending i f hf]
      rfl
    refine h.limit hmask (hclamp.trans hlen.symm) ?_ hpending fun i f hf => ?_
    · rw [hmask, hitems]
      exact h.shared.rtake _
    · have hi : i ∈ s.queue.queueMask := by
        rw [h.mask i, hf]
        rfl
      rw [hmask, if_pos hi, getChannelNum_eq, hpending i f hf]

/-- What the loop of a reading call leaves and hands out. -/
structure ReadSpec (i : Ident) (k : ℕ) (q : RingQueue) (r : RingQueue × ℤ × List Notice) : Prop where
  mask : r.1.queueMask = q.queueMask
  len : r.1.ring.len = q.ring.len
  shared : Shared r.1.queueMask r.1.ring.items
  pending : pendingOf i r.1.ring.items = (pendingOf i q.ring.items).drop k
  sum : r.2.1 = ((pendingOf i q.ring.items).drop k).length
  out : r.2.2 = (pendingOf i q.ring.items).take k
  other : ∀ j, j ≠ i → pendingOf j r.1.ring.items = pendingOf j q.ring.items

/-- One more notice in front of what the rest of the loop hands out. -/
theorem ReadSpec.cons {i : Ident} {k : ℕ} {q q' : RingQueue} {n : Notice}
    {r : RingQueue × ℤ × List Notice} (hs : Shared q.queueMask q.ring.items)
    (hr : retrieveQueue q i = (q', some n)) (h : ReadSpec i k q' r) :
    ReadSpec i (k + 1) q (r.1, r.2.1, n :: r.2.2) := by
  obtain ⟨hmask, hlen, -, hpend, hother⟩ := retrieveQueue_some hs hr
  refine ⟨h.mask.trans hmask, h.len.trans hlen, h.shared, ?_, ?_, ?_, fun j hj => ?_⟩
  · rw [hpend, List.drop_succ_cons]
    exact h.pending
  · rw [hpend, List.drop_succ_cons]
    exact h.sum
  · rw [hpend, List.take_succ_cons, ← h.out]
  · exact (h.other j hj).trans (hother j hj)

/-- **A reading call takes the reader's oldest pending notices**, all of them
unless a copy fails, and changes nothing for the other readers. -/
theorem readLoop_spec {i : Ident} {fuel : ℕ} {fault : Option ℕ} {q : RingQueue} {sum : ℤ}
    (hs : Shared q.queueMask q.ring.items) (hfuel : (pendingOf i q.ring.items).length < fuel)
    (hsum : sum = (pendingOf i q.ring.items).length) :
    ReadSpec i (readCount (pendingOf i q.ring.items).length fault) q (readLoop i fuel fault q sum) := by
  induction fuel generalizing fault q sum with
  | zero => exact absurd hfuel (Nat.not_lt_zero _)
  | succ fuel ih =>
      rw [readLoop]
      rcases hr : retrieveQueue q i with ⟨q', _ | n⟩
      · obtain ⟨hq, hnil⟩ := retrieveQueue_none (q := q) (i := i) (by rw [hr])
        rw [hr] at hq
        obtain rfl : q' = q := hq
        refine ⟨rfl, rfl, hs, ?_, ?_, ?_, fun _ _ => rfl⟩
        · rw [hnil, List.drop_nil]
        · rw [hsum, hnil, List.drop_nil]
        · rw [hnil, List.take_nil]
      · obtain ⟨-, -, hs', hpend, -⟩ := retrieveQueue_some hs hr
        have hcount : (pendingOf i q.ring.items).length = (pendingOf i q'.ring.items).length + 1 := by
          rw [hpend, List.length_cons]
        have hdec : (if sum - 1 < 0 then 0 else sum - 1) = (pendingOf i q'.ring.items).length := by
          rw [hsum, hcount]
          split_ifs <;> omega
        simp only [hdec]
        have hstop : ReadSpec i 0 q' (q', ((pendingOf i q'.ring.items).length : ℤ), []) :=
          ⟨rfl, rfl, hs', rfl, rfl, rfl, fun _ _ => rfl⟩
        have hrest : ∀ f, ReadSpec i (readCount (pendingOf i q'.ring.items).length f) q'
            (readLoop i fuel f q' (pendingOf i q'.ring.items).length) :=
          fun f => ih hs' (by omega) rfl
        rcases fault with _ | _ | k
        · rw [hcount]
          exact (hrest none).cons hs hr
        · exact hstop.cons hs hr
        · exact (hrest (some k)).cons hs hr

theorem Refines.read (h : Refines s a) {i : Ident} {f : Fifo Notice} (hf : a.subs i = some f) {k : ℕ}
    {r : RingQueue × ℤ × List Notice} (hr : ReadSpec i k s.queue r) :
    Refines { s with queue := r.1, notifySum := Function.update s.notifySum i r.2.1 }
      { a with subs := Function.update a.subs i (some (f.take k)) } := by
  have hpend := h.pending i f hf
  have hsome : ∀ j, (Function.update a.subs i (some (f.take k)) j).isSome = (a.subs j).isSome := by
    intro j
    rcases eq_or_ne j i with rfl | hne
    · rw [Function.update_self, hf]
      rfl
    · rw [Function.update_of_ne hne]
  refine ⟨h.cap.trans hr.len.symm, h.priv, fun j => ?_, fun j => ?_, hr.shared, fun j g hj => ?_,
    fun j g hj => ?_, fun filp j hj => ?_, h.owner_inj⟩
  · simp only [hsome, h.live j]
  · simp only [hsome, hr.mask, h.mask j]
  · rcases update_eq_some hj with ⟨rfl, he⟩ | ⟨hne, hj⟩
    · obtain rfl := Option.some.inj he
      simp only [hr.pending, ← hpend]
      rfl
    · simp only [hr.other j hne]
      exact h.pending j g hj
  · rcases update_eq_some hj with ⟨rfl, he⟩ | ⟨hne, hj⟩
    · obtain rfl := Option.some.inj he
      simp only [Function.update_self, hr.sum, ← hpend]
      rfl
    · simp only [Function.update_of_ne hne]
      exact h.sum j g hj
  · simp only [hr.mask]
    exact h.owner filp j hj

theorem Refines.get (h : Refines s a) (filp : ℕ) (fault : Option ℕ) :
    (getNotify s filp fault).2 = (a.get filp fault).2 ∧
      Refines (getNotify s filp fault).1 (a.get filp fault).1 := by
  have hpriv : a.privateData filp = s.privateData filp := congrFun h.priv filp
  unfold getNotify Spec.get
  rw [hpriv]
  cases hp : s.privateData filp with
  | none => exact ⟨rfl, h⟩
  | some i =>
      obtain ⟨f, hf⟩ := Option.isSome_iff_exists.mp ((h.mask i).mp (h.owner filp i hp))
      have hpend := h.pending i f hf
      have hsum := h.sum i f hf
      simp only [Option.bind_some, hf, Option.map_some]
      by_cases hzero : s.notifySum i ≤ 0
      · have hnil : f.pending = [] := List.length_eq_zero_iff.mp (by omega)
        have hr : ReadSpec i (readCount f.pending.length fault) s.queue
            (s.queue, s.notifySum i, []) := by
          refine ⟨rfl, rfl, h.shared, ?_, ?_, ?_, fun _ _ => rfl⟩
          · rw [← hpend, hnil, List.drop_nil]
          · rw [hsum, ← hpend, hnil, List.drop_nil]
          · rw [← hpend, hnil, List.take_nil]
        have href := h.read hf hr
        simp only [Function.update_eq_self] at href
        rw [if_pos hzero]
        exact ⟨by rw [hnil, List.take_nil], href⟩
      · have hle : (pendingOf i s.queue.ring.items).length < s.queue.ring.len := by
          refine Nat.lt_of_le_of_lt ?_ s.queue.ring.length_items_lt
          rw [pendingOf, List.length_map]
          exact List.length_filter_le _ _
        have hr : ReadSpec i (readCount (pendingOf i s.queue.ring.items).length fault) s.queue
            (readLoop i s.queue.ring.len fault s.queue (s.notifySum i)) :=
          readLoop_spec h.shared hle (hpend ▸ hsum)
        rw [← hpend] at hr
        rw [if_neg hzero]
        exact ⟨hr.out.trans (by rw [← hpend]), h.read hf hr⟩

/-- **One operation keeps the ring and the queues related**, and hands out the
same notices. -/
theorem Refines.step (h : Refines s a) (op : Op) :
    (Notify.step s op).2 = (a.step op).2 ∧ Refines (Notify.step s op).1 (a.step op).1 := by
  cases op with
  | create filp => exact ⟨rfl, h.create filp⟩
  | destroy filp => exact ⟨rfl, h.destroy filp⟩
  | put entry => exact ⟨rfl, h.put entry⟩
  | get filp fault => exact h.get filp fault
  | setQueueNum queueLength kzalloc => exact ⟨rfl, h.setQueueNum queueLength kzalloc⟩

theorem Refines.run (h : Refines s a) (ops : List Op) :
    (Notify.run s ops).2 = (a.run ops).2 ∧ Refines (Notify.run s ops).1 (a.run ops).1 := by
  induction ops generalizing s a with
  | nil => exact ⟨rfl, h⟩
  | cons op ops ih =>
      obtain ⟨hout, hs⟩ := h.step op
      obtain ⟨houts, hs'⟩ := ih hs
      refine ⟨?_, hs'⟩
      rw [Notify.run, Spec.run, hout, houts]

end Steps

/-- **Every subscriber gets its notices.**  After every sequence of operations:
each of them handed out exactly what the subscribers' own bounded queues hand
out; every live reader has such a queue, whose pending notices are those the
reader's bit is set on, in which received and pending notices together are in
put order, and which accounts for every notice put since the subscription as
received, pending or dropped for lack of room; and the bitmap of a notice in the
ring is contained in that of every later one and in the mask of the live readers. -/
theorem notify_delivery (ops : List Op) :
    (run State.init ops).2 = (Spec.init.run ops).2 ∧
    Shared (run State.init ops).1.queue.queueMask (run State.init ops).1.queue.ring.items ∧
    (Spec.init.run ops).1.cap + 1 = (run State.init ops).1.queue.ring.len ∧
    (Spec.init.run ops).1.privateData = (run State.init ops).1.privateData ∧
    ∀ i, (i ∈ (run State.init ops).1.queue.queueMask ↔ (run State.init ops).1.inuse i = true) ∧
      (i ∈ (run State.init ops).1.queue.queueMask → ∃ f : Fifo Notice,
        (Spec.init.run ops).1.subs i = some f ∧
        f.pending = pendingOf i (run State.init ops).1.queue.ring.items ∧
        (f.received ++ f.pending).Sublist f.put ∧
        f.put.Perm (f.received ++ f.pending ++ f.dropped) ∧
        (f.dropped = [] → f.put = f.received ++ f.pending)) := by
  obtain ⟨hout, h⟩ := refines_init.run ops
  refine ⟨hout, h.shared, h.cap, h.priv, fun i => ⟨?_, fun hi => ?_⟩⟩
  · rw [h.mask i, h.live i]
  · obtain ⟨f, hf⟩ := Option.isSome_iff_exists.mp ((h.mask i).mp hi)
    exact ⟨f, hf, h.pending i f hf, f.ordered, f.complete, f.put_eq_of_dropped_nil⟩

end Notify
end TsbAgent
