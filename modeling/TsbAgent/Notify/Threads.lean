/-
# Readers, putters and resizers at once

The functions of `notify.c` run by any number of threads, between which the kernel
may switch at every `notify_lock` and at every operation on `notify_sum`:

| code | steps |
| --- | --- |
| `ioctl_tsb_get_notify_block` | the test of `wait_event_interruptible`, then the loop |
| `ioctl_tsb_get_notify_noblock` | one `atomic_read`, then the loop |
| a round of the loop | `retrieve_queue` under the lock; `atomic_dec`; `atomic_read`, and an `atomic_set` if that is negative; `copy_to_user` |
| `tsb_put_notify` | the ring under the lock; with the lock kept, for every reader `atomic_read`, `atomic_inc` and `wake_up` |
| `ioctl_tsb_set_queue_num` | `create_queue`; the copy of the ring under the lock; with the lock kept, an `atomic_set` for every reader |

`Section` is what the thread that holds `notify_lock` has still to do; nobody else gets
the lock meanwhile, but the operations on the counters go on.

A pointer that `retrieve_queue` has returned names a slot of a ring; the rings are
numbered, and only the one in use is in memory, since a resize frees the old one.
The release of a file comes when no call on it is running, because a running call
holds a reference to the file.

`put` and `copied` are not in the code: the notices that were put, and for each copy to
a reader what the notice was when it was retrieved and what was copied.
-/

import TsbAgent.Lib.Run
import TsbAgent.Notify.Delivery

namespace TsbAgent
namespace Notify

/-- What `retrieve_queue` returned: a slot of a ring, and the notice that was in it. -/
structure Pointer where
  queue : ℕ
  slot : ℕ
  notice : Notice

/-- Where a reading call is: before the operation named. -/
inductive Stage
  | wait
  | asleep
  | retrieve
  | dec (p : Pointer)
  | read (p : Pointer)
  | set (p : Pointer)
  | copy (p : Pointer)

/-- Where a thread is: in no call, in a reading call for a file and a reader's number,
or in a resize, with the length of the new ring and waiting for the lock. -/
inductive Proc
  | idle
  | reader (filp : ℕ) (ident : Ident) (stage : Stage)
  | resize (length : ℕ)

/-- What the holder of `notify_lock` has still to do, for which readers. -/
inductive Section
  | free
  | putRead (todo : List Ident)
  | putInc (pos : Ident) (todo : List Ident)
  | putWake (pos : Ident) (todo : List Ident)
  | resizeSet (todo : List Ident)
deriving DecidableEq

/-- The readers that are still to be served. -/
def Section.todo : Section → List Ident
  | .free => []
  | .putRead todo => todo
  | .putInc pos todo => pos :: todo
  | .putWake pos todo => pos :: todo
  | .resizeSet todo => todo

/-- The readers, the threads, the lock and the number of the ring in use. -/
structure Threads extends State where
  current : ℕ
  lock : Section
  procs : ℕ → Proc
  bound : ℕ
  put : List Notice
  copied : List (Notice × Option Notice)

def Threads.init : Threads := ⟨State.init, 0, .free, fun _ => .idle, 0, [], []⟩

/-- A call that a thread makes. -/
inductive Call
  | block (filp : ℕ)
  | noblock (filp : ℕ)
  | setQueueNum (queueLength : ℕ) (kzalloc : Bool)

/-- `next` says whether `copy_to_user` succeeds, if it comes to that; `locked` is the
next step of the holder of the lock. -/
inductive Act
  | create (filp : ℕ)
  | release (filp : ℕ)
  | put (entry : Notice)
  | locked
  | call (t : ℕ) (c : Call)
  | interrupt (t : ℕ)
  | next (t : ℕ) (copy : Bool)

/-- The file a thread is reading from. -/
def Proc.filp : Proc → Option ℕ
  | .reader filp _ _ => some filp
  | _ => none

/-- `for_each_set_bit`: the readers in the mask, in order. -/
def readersOf (mask : Finset Ident) : List Ident := (List.finRange 32).filter (· ∈ mask)

/-- The slot `retrieve_queue` returns. -/
def retrieveSlot (q : RingQueue) (ident : Ident) : Option ℕ :=
  if q.ring.isEmpty then none else q.ring.findSlot fun x => ident ∈ x.queueBitmaps

/-- The ring after `tsb_put_notify`. -/
def putDrop (q : RingQueue) (entry : Notice) : RingQueue :=
  putQueue (if q.ring.isFull then getQueue q else q) entry

/-- The ring after `ioctl_tsb_set_queue_num`. -/
def resized (q : RingQueue) (length : ℕ) : RingQueue :=
  copyQueue q { createQueue length with queueMask := q.queueMask }

/-- `wake_up`: the calls asleep on the reader's queue look again. -/
def wakeUp (pos : Ident) : Proc → Proc
  | .reader filp ident .asleep => .reader filp ident (if ident = pos then .wait else .asleep)
  | p => p

namespace Threads

variable (s : Threads) (t : ℕ)

def move (pr : Proc) : Threads := { s with procs := Function.update s.procs t pr }

/-- What a pointer points to; nothing, once its ring has been freed. -/
def deref (p : Pointer) : Option Notice :=
  if p.queue = s.current then some (s.queue.ring.slot p.slot).notifyItem else none

/-- The beginning of a call, up to its first lock. -/
def call : Call → Threads
  | .block filp =>
      match s.privateData filp with
      | none => s
      | some i => s.move t (.reader filp i .wait)
  | .noblock filp =>
      match s.privateData filp with
      | none => s
      | some i => if s.notifySum i ≤ 0 then s else s.move t (.reader filp i .retrieve)
  | .setQueueNum queueLength kzalloc =>
      if queueLength = s.queue.ring.len then s
      else if kzalloc = false then s
      else s.move t (.resize (queueLength % 4294967296))

/-- The next step of a reading call. -/
def reads (filp : ℕ) (i : Ident) (copy : Bool) : Stage → Option Threads
  | .wait => some (s.move t (.reader filp i (if 0 < s.notifySum i then .retrieve else .asleep)))
  | .asleep => none
  | .retrieve =>
      if s.lock ≠ .free then none
      else
        match retrieveSlot s.queue i with
        | none => some (s.move t .idle)
        | some h =>
            some { s.move t (.reader filp i (.dec ⟨s.current, h, (s.queue.ring.slot h).notifyItem⟩)) with
              queue := (retrieveQueue s.queue i).1 }
  | .dec p =>
      some { s.move t (.reader filp i (.read p)) with
        notifySum := Function.update s.notifySum i (s.notifySum i - 1) }
  | .read p => some (s.move t (.reader filp i (if s.notifySum i < 0 then .set p else .copy p)))
  | .set p =>
      some { s.move t (.reader filp i (.copy p)) with notifySum := Function.update s.notifySum i 0 }
  | .copy p =>
      some { s.move t (if copy then .reader filp i .retrieve else .idle) with
        copied := (p.notice, s.deref p) :: s.copied }

/-- The next step of the holder of the lock. -/
def locked : Option Threads :=
  match s.lock with
  | .free => none
  | .putRead [] => some { s with lock := .free }
  | .putRead (pos :: todo) =>
      some { s with
        lock := if s.notifySum pos % 4294967296 < s.queue.ring.len - 1 then .putInc pos todo
          else .putWake pos todo }
  | .putInc pos todo =>
      some { s with
        lock := .putWake pos todo
        notifySum := Function.update s.notifySum pos (s.notifySum pos + 1) }
  | .putWake pos todo => some { s with lock := .putRead todo, procs := fun u => wakeUp pos (s.procs u) }
  | .resizeSet [] => some { s with lock := .free }
  | .resizeSet (pos :: todo) =>
      some { s with
        lock := .resizeSet todo
        notifySum := Function.update s.notifySum pos (getChannelNum s.queue pos) }

/-- One step of the system. -/
def step : Act → Option Threads
  | .create filp =>
      if s.lock ≠ .free then none else some { s with toState := createNotifyQueue s.toState filp }
  | .release filp =>
      if s.lock ≠ .free ∨ ∃ u < s.bound, (s.procs u).filp = some filp then none
      else some { s with toState := destroyNotifyReadQueue s.toState filp }
  | .put entry =>
      if entry.length > maxNoticeSize then some s
      else if s.lock ≠ .free then none
      else if s.queue.queueMask.card = 0 then some s
      else
        some { s with
          queue := putDrop s.queue entry
          lock := .putRead (readersOf s.queue.queueMask)
          put := entry :: s.put }
  | .locked => s.locked
  | .call t c =>
      match s.procs t with
      | .idle => some (call { s with bound := max s.bound (t + 1) } t c)
      | _ => none
  | .interrupt t =>
      match s.procs t with
      | .reader _ _ .wait => some (s.move t .idle)
      | .reader _ _ .asleep => some (s.move t .idle)
      | _ => none
  | .next t copy =>
      match s.procs t with
      | .idle => none
      | .reader filp i stage => s.reads t filp i copy stage
      | .resize length =>
          if s.lock ≠ .free then none
          else
            some { s.move t .idle with
              queue := resized s.queue length
              current := s.current + 1
              lock := .resizeSet (readersOf s.queue.queueMask) }

end Threads

/-! ### What a step can do -/

/-- A stage of a reading call that holds no pointer. -/
def Stage.pointer : Stage → Option Pointer
  | .wait => none
  | .asleep => none
  | .retrieve => none
  | .dec p => some p
  | .read p => some p
  | .set p => some p
  | .copy p => some p

/-- A move of one thread that touches nothing else. -/
inductive Moves (s : Threads) : Proc → Proc → Prop
  | read {filp i stage} (hpriv : s.privateData filp = some i)
      (hstage : stage = .wait ∨ stage = .retrieve) : Moves s .idle (.reader filp i stage)
  | resize (length : ℕ) : Moves s .idle (.resize length)
  | quit {filp i stage} (hstage : stage.pointer = none) : Moves s (.reader filp i stage) .idle
  | awake {filp i} : Moves s (.reader filp i .wait) (.reader filp i .retrieve)
  | sleep {filp i} (hsum : s.notifySum i ≤ 0) :
      Moves s (.reader filp i .wait) (.reader filp i .asleep)
  | negative {filp i p} (hsum : s.notifySum i < 0) :
      Moves s (.reader filp i (.read p)) (.reader filp i (.set p))
  | proceed {filp i p} (hsum : 0 ≤ s.notifySum i) :
      Moves s (.reader filp i (.read p)) (.reader filp i (.copy p))

/-- What a step can do, action by action. -/
inductive Taken (s : Threads) : Act → Threads → Prop
  | none {a} : Taken s a s
  | create {filp} (hfree : s.lock = .free) :
      Taken s (.create filp) { s with toState := createNotifyQueue s.toState filp }
  | release {filp} (hfree : s.lock = .free) (hno : ∀ u < s.bound, (s.procs u).filp ≠ some filp) :
      Taken s (.release filp) { s with toState := destroyNotifyReadQueue s.toState filp }
  | put {entry} (hfree : s.lock = .free) (hlen : ¬ entry.length > maxNoticeSize)
      (hcard : s.queue.queueMask.card ≠ 0) :
      Taken s (.put entry) { s with
        queue := putDrop s.queue entry
        lock := .putRead (readersOf s.queue.queueMask)
        put := entry :: s.put }
  | unlock (htodo : s.lock.todo = []) : Taken s .locked { s with lock := .free }
  | putInc {pos todo} (hlock : s.lock = .putRead (pos :: todo))
      (hsum : s.notifySum pos % 4294967296 < s.queue.ring.len - 1) :
      Taken s .locked { s with lock := .putInc pos todo }
  | putFull {pos todo} (hlock : s.lock = .putRead (pos :: todo))
      (hsum : ¬ s.notifySum pos % 4294967296 < s.queue.ring.len - 1) :
      Taken s .locked { s with lock := .putWake pos todo }
  | inc {pos todo} (hlock : s.lock = .putInc pos todo) :
      Taken s .locked { s with
        lock := .putWake pos todo
        notifySum := Function.update s.notifySum pos (s.notifySum pos + 1) }
  | wake {pos todo} (hlock : s.lock = .putWake pos todo) :
      Taken s .locked { s with lock := .putRead todo, procs := fun u => wakeUp pos (s.procs u) }
  | recount {pos todo} (hlock : s.lock = .resizeSet (pos :: todo)) :
      Taken s .locked { s with
        lock := .resizeSet todo
        notifySum := Function.update s.notifySum pos (getChannelNum s.queue pos) }
  | calls {t c b pr} (hb : s.bound ≤ b) (ht : t < b) (hm : Moves s (s.procs t) pr) :
      Taken s (.call t c) { s.move t pr with bound := b }
  | bound {t c b} (hb : s.bound ≤ b) : Taken s (.call t c) { s with bound := b }
  | moves {t pr a} (hm : Moves s (s.procs t) pr) (hidle : s.procs t ≠ .idle) : Taken s a (s.move t pr)
  | retrieve {t filp i h copy} (hfree : s.lock = .free) (ht : s.procs t = .reader filp i .retrieve)
      (hslot : retrieveSlot s.queue i = some h) :
      Taken s (.next t copy)
        { s.move t (.reader filp i (.dec ⟨s.current, h, (s.queue.ring.slot h).notifyItem⟩)) with
          queue := (retrieveQueue s.queue i).1 }
  | dec {t filp i p copy} (ht : s.procs t = .reader filp i (.dec p)) :
      Taken s (.next t copy) { s.move t (.reader filp i (.read p)) with
        notifySum := Function.update s.notifySum i (s.notifySum i - 1) }
  | set {t filp i p copy} (ht : s.procs t = .reader filp i (.set p)) :
      Taken s (.next t copy) { s.move t (.reader filp i (.copy p)) with
        notifySum := Function.update s.notifySum i 0 }
  | copy {t filp i p copy pr} (ht : s.procs t = .reader filp i (.copy p))
      (hpr : pr = .idle ∨ pr = .reader filp i .retrieve) :
      Taken s (.next t copy) { s.move t pr with copied := (p.notice, s.deref p) :: s.copied }
  | resize {t length copy} (hfree : s.lock = .free) (ht : s.procs t = .resize length) :
      Taken s (.next t copy) { s.move t .idle with
        queue := resized s.queue length
        current := s.current + 1
        lock := .resizeSet (readersOf s.queue.queueMask) }

namespace Threads

variable {s s' : Threads} {t : ℕ}

theorem reads_taken {filp : ℕ} {i : Ident} {stage : Stage} {copy : Bool}
    (ht : s.procs t = .reader filp i stage) (hs : s.reads t filp i copy stage = some s') :
    Taken s (.next t copy) s' := by
  have hidle : s.procs t ≠ .idle := by
    rw [ht]
    exact Proc.noConfusion
  cases stage with
  | wait =>
      obtain rfl := Option.some.inj hs
      refine .moves ?_ hidle
      rw [ht]
      split_ifs with hsum
      · exact .awake
      · exact .sleep (not_lt.mp hsum)
  | asleep => cases hs
  | retrieve =>
      simp only [reads, ne_eq, ite_not] at hs
      split_ifs at hs with hfree
      cases hslot : retrieveSlot s.queue i with
      | none =>
          rw [hslot] at hs
          obtain rfl := Option.some.inj hs
          refine .moves ?_ hidle
          rw [ht]
          exact .quit rfl
      | some h =>
          rw [hslot] at hs
          obtain rfl := Option.some.inj hs
          exact .retrieve hfree ht hslot
  | dec p =>
      obtain rfl := Option.some.inj hs
      exact .dec ht
  | read p =>
      obtain rfl := Option.some.inj hs
      refine .moves ?_ hidle
      rw [ht]
      split_ifs with hsum
      · exact .negative hsum
      · exact .proceed (not_lt.mp hsum)
  | set p =>
      obtain rfl := Option.some.inj hs
      exact .set ht
  | copy p =>
      obtain rfl := Option.some.inj hs
      refine .copy ht ?_
      cases copy with
      | false => exact Or.inl rfl
      | true => exact Or.inr rfl

theorem locked_taken (hs : s.locked = some s') : Taken s .locked s' := by
  unfold locked at hs
  split at hs
  case h_1 => cases hs
  case h_2 hlock =>
    obtain rfl := Option.some.inj hs
    exact .unlock (by rw [hlock]; rfl)
  case h_3 pos todo hlock =>
    obtain rfl := Option.some.inj hs
    split_ifs with hsum
    · exact .putInc hlock hsum
    · exact .putFull hlock hsum
  case h_4 pos todo hlock =>
    obtain rfl := Option.some.inj hs
    exact .inc hlock
  case h_5 pos todo hlock =>
    obtain rfl := Option.some.inj hs
    exact .wake hlock
  case h_6 hlock =>
    obtain rfl := Option.some.inj hs
    exact .unlock (by rw [hlock]; rfl)
  case h_7 pos todo hlock =>
    obtain rfl := Option.some.inj hs
    exact .recount hlock

theorem call_taken (ht : s.procs t = .idle) (c : Call) :
    Taken s (.call t c) (call { s with bound := max s.bound (t + 1) } t c) := by
  have hb : s.bound ≤ max s.bound (t + 1) := le_max_left _ _
  have htb : t < max s.bound (t + 1) := lt_of_lt_of_le (Nat.lt_succ_self t) (le_max_right _ _)
  cases c with
  | block filp =>
      simp only [call]
      cases hpriv : s.privateData filp with
      | none => exact .bound hb
      | some i => exact .calls hb htb (ht ▸ .read hpriv (Or.inl rfl))
  | noblock filp =>
      simp only [call]
      cases hpriv : s.privateData filp with
      | none => exact .bound hb
      | some i =>
          simp only
          split_ifs
          · exact .bound hb
          · exact .calls hb htb (ht ▸ .read hpriv (Or.inr rfl))
  | setQueueNum queueLength kzalloc =>
      simp only [call]
      split_ifs
      · exact .bound hb
      · exact .bound hb
      · exact .calls hb htb (ht ▸ .resize _)

/-- **Every step is one of these.** -/
theorem step_taken {a : Act} (hs : s.step a = some s') : Taken s a s' := by
  cases a with
  | create filp =>
      simp only [step, ne_eq, ite_not] at hs
      split_ifs at hs with hfree
      obtain rfl := Option.some.inj hs
      exact .create hfree
  | release filp =>
      simp only [step] at hs
      split_ifs at hs with hno
      obtain rfl := Option.some.inj hs
      push Not at hno
      exact .release hno.1 hno.2
  | put entry =>
      simp only [step] at hs
      split_ifs at hs with hlen hfree hcard
      · obtain rfl := Option.some.inj hs
        exact .none
      · obtain rfl := Option.some.inj hs
        exact .none
      · obtain rfl := Option.some.inj hs
        exact .put (not_not.mp hfree) hlen hcard
  | locked => exact locked_taken hs
  | call t c =>
      simp only [step] at hs
      split at hs
      case h_1 ht =>
        obtain rfl := Option.some.inj hs
        exact call_taken ht c
      case h_2 => cases hs
  | interrupt t =>
      simp only [step] at hs
      split at hs
      case h_1 ht =>
        obtain rfl := Option.some.inj hs
        exact .moves (ht ▸ .quit rfl) (by rw [ht]; exact Proc.noConfusion)
      case h_2 ht =>
        obtain rfl := Option.some.inj hs
        exact .moves (ht ▸ .quit rfl) (by rw [ht]; exact Proc.noConfusion)
      case h_3 => cases hs
  | next t copy =>
      simp only [step] at hs
      split at hs
      case h_1 => cases hs
      case h_2 ht => exact reads_taken ht hs
      case h_3 length ht =>
        split_ifs at hs with hfree
        obtain rfl := Option.some.inj hs
        exact .resize (not_not.mp hfree) ht

end Threads

/-! ### What every run keeps -/

/-- The readers' numbers, the files and the calls belong together. -/
structure Wf (s : Threads) : Prop where
  live : ∀ i, s.inuse i = true ↔ i ∈ s.queue.queueMask
  shared : Shared s.queue.queueMask s.queue.ring.items
  owner : ∀ filp i, s.privateData filp = some i → i ∈ s.queue.queueMask
  owner_inj : ∀ filp filp' i, s.privateData filp = some i → s.privateData filp' = some i → filp = filp'
  reader : ∀ t filp i stage, s.procs t = .reader filp i stage →
    i ∈ s.queue.queueMask ∧ ∀ g, s.privateData g = some i → g = filp
  bound : ∀ t, s.bound ≤ t → s.procs t = .idle
  todo : s.lock.todo.Nodup ∧ ∀ i ∈ s.lock.todo, i ∈ s.queue.queueMask

section Rings

variable {q : RingQueue} {i : Ident}

/-- The ring after a put, for the readers. -/
theorem putDrop_spec (hs : Shared q.queueMask q.ring.items) (entry : Notice) :
    (putDrop q entry).queueMask = q.queueMask ∧ (putDrop q entry).ring.len = q.ring.len ∧
      Shared q.queueMask (putDrop q entry).ring.items ∧
      ∀ i ∈ q.queueMask, getChannelNum (putDrop q entry) i =
        min (q.ring.len - 1) (getChannelNum q i + 1) := by
  obtain ⟨hmask, hring⟩ := putQueue_drop q entry
  have hitems := Ring.items_pushDrop (two_le_len q) (⟨q.queueMask, entry⟩ : HttcNotify)
  have hlen : (q.ring.pushDrop ⟨q.queueMask, entry⟩).len = q.ring.len := by
    unfold Ring.pushDrop
    split_ifs <;> rfl
  rw [← hring] at hitems hlen
  have hshared := hs.append entry
  refine ⟨hmask, hlen, hitems ▸ hshared.rtake _, fun i hi => ?_⟩
  rw [getChannelNum_eq, getChannelNum_eq, putDrop, hitems, hshared.pendingOf_rtake, length_rtake,
    pendingOf_append, pendingOf_cons, if_pos hi, pendingOf_nil, List.length_append,
    List.length_singleton]

/-- The ring after a resize, for the readers. -/
theorem resized_spec (hs : Shared q.queueMask q.ring.items) (length : ℕ) :
    (resized q length).queueMask = q.queueMask ∧ Shared q.queueMask (resized q length).ring.items ∧
      ∀ i, getChannelNum (resized q length) i ≤ getChannelNum q i := by
  obtain ⟨hmask, -, hitems⟩ := copyQueue_spec q { createQueue length with queueMask := q.queueMask }
    (items_createQueue _)
  refine ⟨hmask, hitems ▸ hs.rtake _, fun i => ?_⟩
  rw [getChannelNum_eq, getChannelNum_eq, resized, hitems, hs.pendingOf_rtake, length_rtake]
  exact min_le_right _ _

theorem retrieveQueue_of_slot {h : ℕ} (hslot : retrieveSlot q i = some h) :
    retrieveQueue q i = ((retrieveQueue q i).1, some (q.ring.slot h).notifyItem) := by
  unfold retrieveSlot at hslot
  split_ifs at hslot with hempty
  unfold retrieveQueue
  rw [if_neg hempty, hslot]

/-- The ring after a retrieval, for the readers. -/
theorem retrieveQueue_count {h : ℕ} (hs : Shared q.queueMask q.ring.items)
    (hslot : retrieveSlot q i = some h) :
    getChannelNum q i = getChannelNum (retrieveQueue q i).1 i + 1 ∧
      ∀ j, j ≠ i → getChannelNum (retrieveQueue q i).1 j = getChannelNum q j := by
  obtain ⟨-, -, -, hpend, hother⟩ := retrieveQueue_some hs (retrieveQueue_of_slot hslot)
  refine ⟨?_, fun j hj => ?_⟩
  · rw [getChannelNum_eq, getChannelNum_eq, hpend, List.length_cons]
  · rw [getChannelNum_eq, getChannelNum_eq, hother j hj]

/-- What creating a reader's queue does. -/
theorem createNotifyQueue_cases (s : State) (filp : ℕ) : createNotifyQueue s filp = s ∨
    ∃ i, s.inuse i = false ∧ createNotifyQueue s filp =
      { queue := { s.queue with queueMask := insert i s.queue.queueMask }
        inuse := Function.update s.inuse i true
        notifySum := Function.update s.notifySum i 0
        privateData := Function.update s.privateData filp (some i) } := by
  unfold createNotifyQueue
  cases hf : (List.finRange 32).find? fun i => !s.inuse i with
  | none => exact Or.inl rfl
  | some i => exact Or.inr ⟨i, by simpa using List.find?_some hf, rfl⟩

/-- What the release of a file does. -/
theorem destroyNotifyReadQueue_cases (s : State) (filp : ℕ) : destroyNotifyReadQueue s filp = s ∨
    ∃ i q, s.privateData filp = some i ∧ q.queueMask = s.queue.queueMask.erase i ∧
      q.ring.items = s.queue.ring.items.map (HttcNotify.clearBit i) ∧
      destroyNotifyReadQueue s filp =
        { queue := q
          inuse := Function.update s.inuse i false
          notifySum := Function.update s.notifySum i 0
          privateData := Function.update s.privateData filp none } := by
  unfold destroyNotifyReadQueue
  cases hp : s.privateData filp with
  | none => exact Or.inl rfl
  | some i =>
      obtain ⟨hmask, -, hitems⟩ :=
        clearQueueBit_spec { s.queue with queueMask := s.queue.queueMask.erase i } i
      exact Or.inr ⟨i, _, rfl, hmask, hitems, rfl⟩

theorem mem_readersOf {mask : Finset Ident} : i ∈ readersOf mask ↔ i ∈ mask := by
  simp [readersOf]

theorem nodup_readersOf (mask : Finset Ident) : (readersOf mask).Nodup :=
  (List.nodup_finRange 32).filter _

end Rings

theorem Moves.reader {s : Threads} {p : Proc} {filp : ℕ} {i : Ident} {stage : Stage}
    (h : Moves s p (.reader filp i stage)) :
    s.privateData filp = some i ∨ ∃ stage', p = .reader filp i stage' := by
  cases h with
  | read hpriv => exact Or.inl hpriv
  | awake => exact Or.inr ⟨_, rfl⟩
  | sleep => exact Or.inr ⟨_, rfl⟩
  | negative => exact Or.inr ⟨_, rfl⟩
  | proceed => exact Or.inr ⟨_, rfl⟩

/-- What `wake_up` makes of the calls: those asleep on the queue look again, every other
call is where it was. -/
theorem wakeUp_eq_reader {pos i : Ident} {p : Proc} {filp : ℕ} {stage : Stage}
    (h : wakeUp pos p = .reader filp i stage) :
    (p = .reader filp i stage ∧ (stage = .asleep → i ≠ pos)) ∨
      (p = .reader filp i .asleep ∧ stage = .wait) := by
  unfold wakeUp at h
  split at h
  · split_ifs at h with hpos
    · obtain ⟨rfl, rfl, rfl⟩ := Proc.reader.inj h
      exact Or.inr ⟨rfl, rfl⟩
    · obtain ⟨rfl, rfl, rfl⟩ := Proc.reader.inj h
      exact Or.inl ⟨rfl, fun _ => hpos⟩
  · rename_i hno
    exact Or.inl ⟨h, fun hst => absurd (hst ▸ h) (hno filp i)⟩

section Wf

variable {s : Threads} {t : ℕ}

theorem wf_init : Wf Threads.init where
  live := fun i => by simp [Threads.init, State.init, createQueue]
  shared := by
    change Shared _ (createQueue defaultBufItemsNum).ring.items
    rw [items_createQueue]
    exact ⟨List.Pairwise.nil, fun x hx => absurd hx List.not_mem_nil⟩
  owner := fun filp i h => absurd h (by simp [Threads.init, State.init])
  owner_inj := fun filp filp' i h => absurd h (by simp [Threads.init, State.init])
  reader := fun t filp i stage h => by cases h
  bound := fun _ _ => rfl
  todo := ⟨List.nodup_nil, fun i h => absurd h List.not_mem_nil⟩

/-- A step of one thread, with the readers' numbers and the files as they are. -/
theorem Wf.move (h : Wf s) {q : RingQueue} {sum : Ident → ℤ} {lock : Section} {pr : Proc}
    {current b : ℕ} {put : List Notice} {copied : List (Notice × Option Notice)}
    (hmask : q.queueMask = s.queue.queueMask) (hshared : Shared q.queueMask q.ring.items)
    (hb : s.bound ≤ b) (ht : t < b ∨ pr = .idle)
    (hpr : ∀ filp i stage, pr = .reader filp i stage →
      i ∈ s.queue.queueMask ∧ ∀ g, s.privateData g = some i → g = filp)
    (htodo : lock.todo.Nodup ∧ ∀ i ∈ lock.todo, i ∈ s.queue.queueMask) :
    Wf ⟨⟨q, s.inuse, sum, s.privateData⟩, current, lock, Function.update s.procs t pr, b, put, copied⟩ := by
  refine ⟨fun i => ?_, hshared, fun filp i hi => ?_, h.owner_inj, fun u filp i stage hu => ?_,
    fun u hu => ?_, ?_⟩
  · simp only [hmask]
    exact h.live i
  · simp only [hmask]
    exact h.owner filp i hi
  · simp only [hmask]
    rcases eq_or_ne u t with rfl | hne
    · simp only [Function.update_self] at hu
      exact hpr filp i stage hu
    · simp only [Function.update_of_ne hne] at hu
      exact h.reader u filp i stage hu
  · rcases eq_or_ne u t with rfl | hne
    · simp only [Function.update_self]
      exact ht.resolve_left fun hlt => absurd hlt (not_lt.mpr hu)
    · simp only [Function.update_of_ne hne]
      exact h.bound u (le_trans hb hu)
  · simp only [hmask]
    exact htodo

theorem Wf.lt_bound (h : Wf s) (ht : s.procs t ≠ .idle) : t < s.bound := by
  by_contra hlt
  exact ht (h.bound t (not_lt.mp hlt))

theorem Wf.create (h : Wf s) (filp : ℕ) :
    Wf { s with toState := createNotifyQueue s.toState filp } := by
  rcases createNotifyQueue_cases s.toState filp with he | ⟨i, hfree, he⟩
  · rw [he]
    exact h
  · rw [he]
    have hi : i ∉ s.queue.queueMask := fun hm => by
      rw [(h.live i).mpr hm] at hfree
      cases hfree
    have howned := Owned.insert ⟨h.owner, h.owner_inj⟩ hi filp
    refine ⟨fun j => ?_, h.shared.insert i, howned.mem, howned.inj,
      fun u g j stage hu => ⟨Finset.mem_insert_of_mem (h.reader u g j stage hu).1, fun g' hg' => ?_⟩,
      h.bound, h.todo.1, fun j hj => Finset.mem_insert_of_mem (h.todo.2 j hj)⟩
    · rcases eq_or_ne j i with rfl | hne
      · simp
      · simp [Finset.mem_insert, hne, h.live j]
    · rcases update_eq_some hg' with ⟨-, hji⟩ | ⟨-, hg'⟩
      · exact absurd (Option.some.inj hji ▸ (h.reader u g j stage hu).1) hi
      · exact (h.reader u g j stage hu).2 g' hg'

theorem Wf.release (h : Wf s) (hfree : s.lock = .free) {filp : ℕ}
    (hno : ∀ u < s.bound, (s.procs u).filp ≠ some filp) :
    Wf { s with toState := destroyNotifyReadQueue s.toState filp } := by
  rcases destroyNotifyReadQueue_cases s.toState filp with he | ⟨i, q, hp, hmask, hitems, he⟩
  · rw [he]
    exact h
  · rw [he]
    have howned := Owned.erase ⟨h.owner, h.owner_inj⟩ hp
    refine ⟨fun j => ?_, ?_, hmask ▸ howned.mem, howned.inj, fun u g j stage hu => ?_, h.bound, ?_⟩
    · simp only [hmask, Finset.mem_erase]
      rcases eq_or_ne j i with rfl | hne
      · simp
      · simp [hne, h.live j]
    · simp only [hmask, hitems]
      exact h.shared.clearBit i
    · obtain ⟨hj, huniq⟩ := h.reader u g j stage hu
      simp only [hmask, Finset.mem_erase]
      refine ⟨⟨?_, hj⟩, fun g' hg' => huniq g' (update_none_eq_some hg').2⟩
      -- a call of the reader that leaves would be a call on the file
      rintro rfl
      have hbusy : s.procs u ≠ .idle := by
        rw [hu]
        exact Proc.noConfusion
      refine hno u (h.lt_bound hbusy) ?_
      rw [hu, huniq filp hp]
      rfl
    · rw [hfree]
      exact ⟨List.nodup_nil, fun j hj => absurd hj List.not_mem_nil⟩

/-- **One step keeps the numbers, the files and the calls together.** -/
theorem Wf.step (h : Wf s) {a : Act} {s' : Threads} (hs : Taken s a s') : Wf s' := by
  have hsame : ∀ {filp i stage} {u : ℕ}, s.procs u = .reader filp i stage →
      i ∈ s.queue.queueMask ∧ ∀ g, s.privateData g = some i → g = filp :=
    fun hu => h.reader _ _ _ _ hu
  have hmoves : ∀ {u pr}, Moves s (s.procs u) pr → ∀ filp i stage, pr = .reader filp i stage →
      i ∈ s.queue.queueMask ∧ ∀ g, s.privateData g = some i → g = filp := by
    rintro u _ hm filp i stage rfl
    rcases hm.reader with hpriv | ⟨stage', hu⟩
    · exact ⟨h.owner filp i hpriv, fun g hg => h.owner_inj g filp i hg hpriv⟩
    · exact hsame hu
  have hlt : ∀ {u filp i stage}, s.procs u = .reader filp i stage → u < s.bound := fun hu =>
    h.lt_bound (by rw [hu]; exact Proc.noConfusion)
  cases hs with
  | none => exact h
  | create => exact h.create _
  | release hfree hno => exact h.release hfree hno
  | put hfree =>
      obtain ⟨hmask, -, hshared, -⟩ := putDrop_spec h.shared (q := s.queue) _
      refine ⟨fun i => ?_, hmask ▸ hshared, fun g i hg => ?_, h.owner_inj, fun u g i stage hu => ?_,
        h.bound, nodup_readersOf _, fun i hi => ?_⟩
      · simp only [hmask]
        exact h.live i
      · simp only [hmask]
        exact h.owner g i hg
      · simp only [hmask]
        exact hsame hu
      · simp only [hmask]
        exact mem_readersOf.mp hi
  | unlock => exact { h with todo := ⟨List.nodup_nil, fun i hi => absurd hi List.not_mem_nil⟩ }
  | putInc hlock => exact { h with todo := by have := h.todo; rwa [hlock] at this }
  | putFull hlock => exact { h with todo := by have := h.todo; rwa [hlock] at this }
  | inc hlock => exact { h with todo := by have := h.todo; rwa [hlock] at this }
  | wake hlock =>
      have htodo := h.todo
      rw [hlock] at htodo
      refine { h with
        reader := fun u g i stage hu => ?_
        bound := fun u hu => ?_
        todo := ⟨htodo.1.of_cons, fun i hi => htodo.2 i (List.mem_cons_of_mem _ hi)⟩ }
      · rcases wakeUp_eq_reader hu with ⟨hu, -⟩ | ⟨hu, -⟩
        · exact hsame hu
        · exact hsame hu
      · simp only [h.bound u hu]
        rfl
  | recount hlock =>
      have htodo := h.todo
      rw [hlock] at htodo
      exact { h with todo := ⟨htodo.1.of_cons, fun i hi => htodo.2 i (List.mem_cons_of_mem _ hi)⟩ }
  | calls hb ht hm => exact h.move rfl h.shared hb (Or.inl ht) (hmoves hm) h.todo
  | bound hb => exact { h with bound := fun u hu => h.bound u (le_trans hb hu) }
  | moves hm hidle => exact h.move rfl h.shared le_rfl (Or.inl (h.lt_bound hidle)) (hmoves hm) h.todo
  | retrieve hfree ht hslot =>
      obtain ⟨hmask, -, hshared, -⟩ := retrieveQueue_some h.shared (retrieveQueue_of_slot hslot)
      refine h.move hmask hshared le_rfl (Or.inl (hlt ht)) (fun g j stage hr => ?_) h.todo
      obtain ⟨rfl, rfl, -⟩ := Proc.reader.inj hr
      exact hsame ht
  | dec ht =>
      refine h.move rfl h.shared le_rfl (Or.inl (hlt ht)) (fun g j stage hr => ?_) h.todo
      obtain ⟨rfl, rfl, -⟩ := Proc.reader.inj hr
      exact hsame ht
  | set ht =>
      refine h.move rfl h.shared le_rfl (Or.inl (hlt ht)) (fun g j stage hr => ?_) h.todo
      obtain ⟨rfl, rfl, -⟩ := Proc.reader.inj hr
      exact hsame ht
  | copy ht hpr =>
      refine h.move rfl h.shared le_rfl (Or.inl (hlt ht)) (fun g j stage hr => ?_) h.todo
      rcases hpr with rfl | rfl
      · cases hr
      · obtain ⟨rfl, rfl, -⟩ := Proc.reader.inj hr
        exact hsame ht
  | resize hfree ht =>
      obtain ⟨hmask, hshared, -⟩ := resized_spec h.shared (q := s.queue) _
      exact h.move hmask (hmask ▸ hshared) le_rfl (Or.inr rfl) (fun g j stage hr => by cases hr)
        ⟨nodup_readersOf _, fun i hi => mem_readersOf.mp hi⟩

theorem wf_run {acts : List Act} (hrun : Run.run Threads.step Threads.init acts = some s) : Wf s :=
  Run.run_preserves (fun _ _ _ h hs => h.step (Threads.step_taken hs)) wf_init hrun

end Wf

end Notify
end TsbAgent
