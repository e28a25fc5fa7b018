/-
# The unread counters

`notify_sum` of a reader is incremented under `notify_lock`, by the put, and
decremented outside it, by the calls that have retrieved a notice.  What it is to be
is the number of notices in the ring with the reader's bit (`get_channel_num`).

Between a retrieval and its decrement the counter is one too high.  So the quantity
that follows the ring is `owed`, the counter less the decrements that are still to be
made, and the invariant (`Counts`) says how the two are related while a put or a resize
is at work.  Two operations look at the counter itself and take it for the number
of unread notices:

* the put compares it with the capacity of the ring, and does not increment a counter
  that is there because of decrements still to be made;
* the resize overwrites it with the number of unread notices, and the decrements that
  are still to be made then take it too low.

`notify_counters_exact` says that nothing else goes wrong.
-/

import TsbAgent.Lib.Tally
import TsbAgent.Notify.Threads

namespace TsbAgent
namespace Notify

/-- A call of the reader between its retrieval and its decrement. -/
def Proc.atDec (i : Ident) : Proc → Bool
  | .reader _ j (.dec _) => j = i
  | _ => false

/-- How many decrements of the counter are still to be made. -/
noncomputable def inFlight (s : Threads) (i : Ident) : ℕ :=
  Tally.tally (fun p => Proc.atDec i p = true) s.procs

/-- The counter, with these decrements made. -/
noncomputable def owed (s : Threads) (i : Ident) : ℤ := s.notifySum i - inFlight s i

/-- The counter `owed` of a reader and the number `c` of its unread notices, in a ring of
`len` slots, while the lock is held. -/
def Counts (len c owed : ℤ) (i : Ident) : Section → Prop
  | .free => c = owed
  | .putRead todo => if i ∈ todo then owed ≤ len - 1 ∧ c = min (len - 1) (owed + 1) else c = owed
  | .putInc pos todo =>
      if i = pos then c = owed + 1
      else if i ∈ todo then owed ≤ len - 1 ∧ c = min (len - 1) (owed + 1)
      else c = owed
  | .putWake _ todo => if i ∈ todo then owed ≤ len - 1 ∧ c = min (len - 1) (owed + 1) else c = owed
  | .resizeSet todo => if i ∈ todo then c ≤ owed else c = owed

/-- The invariant: the counters follow the ring, no counter is ever found negative, and
a call sleeps only while the counter is not positive. -/
structure Counting (s : Threads) : Prop where
  wf : Wf s
  nonneg : ∀ i ∈ s.queue.queueMask, 0 ≤ owed s i
  counts : ∀ i ∈ s.queue.queueMask,
    Counts s.queue.ring.len (getChannelNum s.queue i) (owed s i) i s.lock
  noSet : ∀ t filp i p, s.procs t ≠ .reader filp i (.set p)
  asleep : ∀ t filp i, s.procs t = .reader filp i .asleep →
    s.notifySum i ≤ 0 ∨ ∃ todo, s.lock = .putWake i todo

/-- A put that looks at a counter takes the branch it takes with the decrements made, and
a resize that overwrites one finds none still to be made. -/
def CountsRight (s : Threads) : Act → Prop
  | .locked =>
      match s.lock with
      | .putRead (pos :: _) =>
          s.notifySum pos % 4294967296 < s.queue.ring.len - 1 ↔ owed s pos < s.queue.ring.len - 1
      | .resizeSet (pos :: _) => inFlight s pos = 0
      | _ => True
  | _ => True

section Flight

variable {s : Threads} {t : ℕ}

theorem Wf.bounded (h : Wf s) (i : Ident) :
    Tally.Bounded (fun p => Proc.atDec i p = true) s.procs := by
  refine (Set.finite_lt_nat s.bound).subset fun u hu => ?_
  have hu : Proc.atDec i (s.procs u) = true := hu
  refine h.lt_bound fun hidle => ?_
  rw [hidle] at hu
  cases hu

theorem atDec_eq_true {i : Ident} {p : Proc} :
    p.atDec i = true ↔ ∃ filp ptr, p = .reader filp i (.dec ptr) := by
  constructor
  · intro h
    unfold Proc.atDec at h
    split at h
    · exact ⟨_, _, by rw [of_decide_eq_true h]⟩
    · cases h
  · rintro ⟨filp, ptr, rfl⟩
    simp [Proc.atDec]

theorem Wf.inFlight_eq_zero (h : Wf s) {i : Ident} :
    inFlight s i = 0 ↔ ∀ u filp ptr, s.procs u ≠ .reader filp i (.dec ptr) := by
  rw [inFlight, Tally.tally_eq_zero (h.bounded i)]
  simp only [atDec_eq_true]
  exact ⟨fun hno u filp ptr hu => hno u ⟨filp, ptr, hu⟩, fun hno u ⟨filp, ptr, hu⟩ => hno u filp ptr hu⟩

/-- A reader that is not in the mask has no call at all. -/
theorem Wf.inFlight_of_notMem (h : Wf s) {i : Ident} (hi : i ∉ s.queue.queueMask) : inFlight s i = 0 :=
  h.inFlight_eq_zero.mpr fun u _ _ hu => hi (h.reader u _ _ _ hu).1

theorem Moves.atDec {p pr : Proc} (h : Moves s p pr) (i : Ident) :
    p.atDec i = false ∧ pr.atDec i = false := by
  cases h with
  | read _ hstage => rcases hstage with rfl | rfl <;> exact ⟨rfl, rfl⟩
  | @quit _ _ stage hstage =>
      refine ⟨?_, rfl⟩
      cases stage with
      | dec p => cases hstage
      | _ => rfl
  | _ => exact ⟨rfl, rfl⟩

theorem atDec_wakeUp (i pos : Ident) (p : Proc) : (wakeUp pos p).atDec i = p.atDec i := by
  unfold wakeUp
  split
  · split_ifs <;> rfl
  · rfl

/-- A step of one thread that is not about to decrement, before or after it. -/
theorem inFlight_move (s : Threads) {pr : Proc} (i : Ident) (hold : (s.procs t).atDec i = false)
    (hnew : pr.atDec i = false) : inFlight (s.move t pr) i = inFlight s i := by
  refine Tally.tally_congr fun u => ?_
  rcases eq_or_ne u t with rfl | hne
  · simp only [Threads.move, Function.update_self, hold, hnew]
  · simp only [Threads.move, Function.update_of_ne hne]

/-- The decrement itself, and the retrieval before it. -/
theorem Wf.inFlight_dec (h : Wf s) {filp : ℕ} {i : Ident} {stage : Stage} (pr : Proc)
    (ht : s.procs t = .reader filp i stage) (hpr : ∀ j, j ≠ i → pr.atDec j = false) (j : Ident) :
    (inFlight (s.move t pr) j + if (s.procs t).atDec j then 1 else 0) =
        inFlight s j + (if pr.atDec j then 1 else 0) ∧
      (j ≠ i → inFlight (s.move t pr) j = inFlight s j) := by
  have hupdate := Tally.tally_update (h.bounded j) t pr
  refine ⟨hupdate, fun hj => ?_⟩
  have hold : (s.procs t).atDec j = false := by
    rw [ht]
    cases stage with
    | dec p => exact decide_eq_false fun he => hj he.symm
    | _ => rfl
  exact inFlight_move s j hold (hpr j hj)

end Flight

section Steps

variable {s : Threads} {t : ℕ}

theorem counting_init : Counting Threads.init where
  wf := wf_init
  nonneg := fun i hi => absurd hi (by simp [Threads.init, State.init, createQueue])
  counts := fun i hi => absurd hi (by simp [Threads.init, State.init, createQueue])
  noSet := fun t filp i p h => by cases h
  asleep := fun t filp i h => by cases h

/-- The counter of a reader is never found negative. -/
theorem Counting.sum_nonneg (h : Counting s) {filp : ℕ} {i : Ident} {stage : Stage}
    (ht : s.procs t = .reader filp i stage) : 0 ≤ s.notifySum i := by
  have hnonneg := h.nonneg i (h.wf.reader t filp i stage ht).1
  unfold owed at hnonneg
  omega

/-- Nobody is to be woken while the lock is free. -/
theorem Counting.asleep_free (h : Counting s) (hfree : s.lock = .free) {filp : ℕ} {i : Ident}
    (ht : s.procs t = .reader filp i .asleep) : s.notifySum i ≤ 0 := by
  refine (h.asleep t filp i ht).resolve_right fun ⟨todo, hlock⟩ => ?_
  rw [hfree] at hlock
  cases hlock

/-- A step of one thread that leaves the ring and the counters. -/
theorem Counting.move (h : Counting s) {b : ℕ} {pr : Proc} {copied : List (Notice × Option Notice)}
    (hwf : Wf { s.move t pr with bound := b, copied := copied })
    (hat : ∀ i, (s.procs t).atDec i = false ∧ pr.atDec i = false)
    (hset : ∀ filp i p, pr ≠ .reader filp i (.set p))
    (hasleep : ∀ filp i, pr = .reader filp i .asleep → s.notifySum i ≤ 0) :
    Counting { s.move t pr with bound := b, copied := copied } := by
  have howed : ∀ i, owed { s.move t pr with bound := b, copied := copied } i = owed s i := by
    intro i
    have hflight := inFlight_move s i (hat i).1 (hat i).2
    exact congrArg (fun n : ℕ => s.notifySum i - n) hflight
  refine ⟨hwf, fun i hi => ?_, fun i hi => ?_, fun u filp i p hu => ?_, fun u filp i hu => ?_⟩
  · rw [howed]
    exact h.nonneg i hi
  · rw [howed]
    exact h.counts i hi
  · rcases eq_or_ne u t with rfl | hne
    · simp only [Threads.move, Function.update_self] at hu
      exact hset filp i p hu
    · simp only [Threads.move, Function.update_of_ne hne] at hu
      exact h.noSet u filp i p hu
  · rcases eq_or_ne u t with rfl | hne
    · simp only [Threads.move, Function.update_self] at hu
      exact Or.inl (hasleep filp i hu)
    · simp only [Threads.move, Function.update_of_ne hne] at hu
      exact h.asleep u filp i hu

theorem Counting.moves (h : Counting s) {b : ℕ} {pr : Proc} (hm : Moves s (s.procs t) pr)
    (hwf : Wf { s.move t pr with bound := b }) : Counting { s.move t pr with bound := b } := by
  refine h.move hwf hm.atDec (fun filp i p hp => ?_) (fun filp i hp => ?_)
  · generalize ht : s.procs t = old at hm
    cases hm with
    | read _ hstage => rcases hstage with rfl | rfl <;> cases hp
    | negative hsum => exact absurd (h.sum_nonneg ht) (not_le.mpr hsum)
    | _ => cases hp
  · generalize ht : s.procs t = old at hm
    cases hm with
    | read _ hstage => rcases hstage with rfl | rfl <;> cases hp
    | sleep hsum =>
        obtain ⟨-, rfl, -⟩ := Proc.reader.inj hp
        exact hsum
    | _ => cases hp

/-- A reading call that stays one, with its next stage. -/
theorem procs_move {filp : ℕ} {i : Ident} {stage stage' : Stage} {u g : ℕ} {j : Ident} {st : Stage}
    (hu : (s.move t (.reader filp i stage')).procs u = .reader g j st) (hne : st ≠ stage')
    (ht : s.procs t = .reader filp i stage) : s.procs u = .reader g j st := by
  rcases eq_or_ne u t with rfl | hut
  · simp only [Threads.move, Function.update_self] at hu
    exact absurd (Proc.reader.inj hu).2.2.symm hne
  · simpa only [Threads.move, Function.update_of_ne hut] using hu

/-- A call has retrieved a notice: the ring has one less for the reader, and the
counter is to be decremented once more. -/
theorem Counting.retrieve (h : Counting s) {filp h' : ℕ} {i : Ident} {p : Pointer}
    (hfree : s.lock = .free) (ht : s.procs t = .reader filp i .retrieve)
    (hslot : retrieveSlot s.queue i = some h')
    (hwf : Wf { s.move t (.reader filp i (.dec p)) with queue := (retrieveQueue s.queue i).1 }) :
    Counting { s.move t (.reader filp i (.dec p)) with queue := (retrieveQueue s.queue i).1 } := by
  have hnew : ∀ j, j ≠ i → Proc.atDec j (.reader filp i (.dec p)) = false :=
    fun j hj => decide_eq_false fun he => hj he.symm
  obtain ⟨hmask, -⟩ := retrieveQueue_some h.wf.shared (retrieveQueue_of_slot hslot)
  obtain ⟨hcount, hother⟩ := retrieveQueue_count h.wf.shared hslot
  have hone : inFlight (s.move t (.reader filp i (.dec p))) i = inFlight s i + 1 := by
    have hself : Proc.atDec i (.reader filp i (.dec p)) = true := decide_eq_true rfl
    have hbefore : (s.procs t).atDec i = false := by rw [ht]; rfl
    have := (h.wf.inFlight_dec _ ht hnew i).1
    simpa [hself, hbefore] using this
  have hcounts : ∀ j ∈ s.queue.queueMask, (getChannelNum s.queue j : ℤ) = owed s j := by
    intro j hj
    have := h.counts j hj
    rwa [hfree] at this
  have howed : ∀ j ∈ s.queue.queueMask,
      (getChannelNum (retrieveQueue s.queue i).1 j : ℤ) =
        s.notifySum j - inFlight (s.move t (.reader filp i (.dec p))) j := by
    intro j hj
    have hj := hcounts j hj
    unfold owed at hj
    rcases eq_or_ne j i with rfl | hne
    · rw [hone]
      push_cast
      omega
    · rw [hother j hne, (h.wf.inFlight_dec _ ht hnew j).2 hne]
      exact hj
  refine ⟨hwf, fun j hj => ?_, fun j hj => ?_, fun u g j q hu => ?_, fun u g j hu => ?_⟩
  · exact le_of_le_of_eq (Int.natCast_nonneg _) (howed j (hmask ▸ hj))
  · simp only [hfree, Threads.move]
    exact howed j (hmask ▸ hj)
  · exact h.noSet u g j q (procs_move hu Stage.noConfusion ht)
  · exact h.asleep u g j (procs_move hu Stage.noConfusion ht)

/-- The decrement changes nothing that is owed. -/
theorem Counting.dec (h : Counting s) {filp : ℕ} {i : Ident} {p : Pointer}
    (ht : s.procs t = .reader filp i (.dec p)) (hwf : Wf { s.move t (.reader filp i (.read p)) with
      notifySum := Function.update s.notifySum i (s.notifySum i - 1) }) :
    Counting { s.move t (.reader filp i (.read p)) with
      notifySum := Function.update s.notifySum i (s.notifySum i - 1) } := by
  have hone : inFlight (s.move t (.reader filp i (.read p))) i + 1 = inFlight s i := by
    have hself : (s.procs t).atDec i = true := atDec_eq_true.mpr ⟨filp, p, ht⟩
    have hafter : Proc.atDec i (.reader filp i (.read p)) = false := rfl
    have := (h.wf.inFlight_dec (.reader filp i (.read p)) ht (fun _ _ => rfl) i).1
    simpa [hself, hafter] using this
  have howed : ∀ j, owed { s.move t (.reader filp i (.read p)) with
      notifySum := Function.update s.notifySum i (s.notifySum i - 1) } j = owed s j := by
    intro j
    change Function.update s.notifySum i (s.notifySum i - 1) j -
      (inFlight (s.move t (.reader filp i (.read p))) j : ℤ) = s.notifySum j - inFlight s j
    rcases eq_or_ne j i with rfl | hne
    · rw [Function.update_self, ← hone]
      push_cast
      omega
    · rw [Function.update_of_ne hne, (h.wf.inFlight_dec _ ht (fun _ _ => rfl) j).2 hne]
  refine ⟨hwf, fun j hj => ?_, fun j hj => ?_, fun u g j q hu => ?_, fun u g j hu => ?_⟩
  · rw [howed]
    exact h.nonneg j hj
  · rw [howed]
    exact h.counts j hj
  · exact h.noSet u g j q (procs_move hu Stage.noConfusion ht)
  · refine (h.asleep u g j (procs_move hu Stage.noConfusion ht)).imp_left fun hle => ?_
    rcases eq_or_ne j i with rfl | hne
    · simp only [Function.update_self]
      omega
    · simpa only [Function.update_of_ne hne] using hle

/-- A step of the holder of the lock that leaves the ring. -/
theorem Counting.lock (h : Counting s) {lock : Section} {sum : Ident → ℤ}
    (hwf : Wf { s with lock := lock, notifySum := sum })
    (hnonneg : ∀ i ∈ s.queue.queueMask, 0 ≤ sum i - (inFlight s i : ℤ))
    (hcounts : ∀ i ∈ s.queue.queueMask,
      Counts s.queue.ring.len (getChannelNum s.queue i) (sum i - inFlight s i) i lock)
    (hasleep : ∀ t filp i, s.procs t = .reader filp i .asleep →
      sum i ≤ 0 ∨ ∃ todo, lock = .putWake i todo) :
    Counting { s with lock := lock, notifySum := sum } :=
  ⟨hwf, hnonneg, hcounts, h.noSet, hasleep⟩

theorem Counting.create (h : Counting s) (hfree : s.lock = .free) (filp : ℕ)
    (hwf : Wf { s with toState := createNotifyQueue s.toState filp }) :
    Counting { s with toState := createNotifyQueue s.toState filp } := by
  rcases createNotifyQueue_cases s.toState filp with he | ⟨i, hin, he⟩
  · rw [he]
    exact h
  · rw [he] at hwf ⊢
    have hi : i ∉ s.queue.queueMask := fun hm => by
      rw [(h.wf.live i).mpr hm] at hin
      cases hin
    -- the new reader has no call and no bit anywhere
    have hflight : inFlight s i = 0 := h.wf.inFlight_of_notMem hi
    have hnone : getChannelNum s.queue i = 0 := by
      rw [getChannelNum_eq, h.wf.shared.pendingOf_eq_nil hi, List.length_nil]
    have hcounts : ∀ j ∈ insert i s.queue.queueMask,
        (getChannelNum s.queue j : ℤ) = Function.update s.notifySum i 0 j - inFlight s j := by
      intro j hj
      rcases eq_or_ne j i with rfl | hne
      · rw [Function.update_self, hflight, hnone]
        rfl
      · have hj := h.counts j (Finset.mem_of_mem_insert_of_ne hj hne)
        rw [hfree] at hj
        rw [Function.update_of_ne hne]
        exact hj
    refine ⟨hwf, fun j hj => ?_, fun j hj => ?_, h.noSet, fun u g j hu => ?_⟩
    · exact le_of_le_of_eq (Int.natCast_nonneg _) (hcounts j hj)
    · simp only [hfree]
      exact hcounts j hj
    · have hne : j ≠ i := fun he => hi (he ▸ (h.wf.reader u g j _ hu).1)
      simp only [Function.update_of_ne hne]
      exact h.asleep u g j hu

theorem Counting.release (h : Counting s) (hfree : s.lock = .free) {filp : ℕ}
    (hwf : Wf { s with toState := destroyNotifyReadQueue s.toState filp }) :
    Counting { s with toState := destroyNotifyReadQueue s.toState filp } := by
  rcases destroyNotifyReadQueue_cases s.toState filp with he | ⟨i, q, hp, hmask, hitems, he⟩
  · rw [he]
    exact h
  · rw [he] at hwf ⊢
    have hcounts : ∀ j ∈ q.queueMask,
        (getChannelNum q j : ℤ) = Function.update s.notifySum i 0 j - inFlight s j := by
      intro j hj
      rw [hmask] at hj
      obtain ⟨hne, hj⟩ := Finset.mem_erase.mp hj
      have hj := h.counts j hj
      rw [hfree] at hj
      rw [Function.update_of_ne hne, getChannelNum_eq, hitems, pendingOf_clearBit_of_ne hne,
        ← getChannelNum_eq]
      exact hj
    refine ⟨hwf, fun j hj => ?_, fun j hj => ?_, h.noSet, fun u g j hu => Or.inl ?_⟩
    · exact le_of_le_of_eq (Int.natCast_nonneg _) (hcounts j hj)
    · simp only [hfree]
      exact hcounts j hj
    · rcases eq_or_ne j i with rfl | hne
      · simp only [Function.update_self, le_refl]
      · simp only [Function.update_of_ne hne]
        exact h.asleep_free hfree hu

/-- A put: the ring has one more for every reader, or as many as it has room for. -/
theorem Counting.put (h : Counting s) (hfree : s.lock = .free) (entry : Notice)
    (hwf : Wf { s with
      queue := putDrop s.queue entry
      lock := .putRead (readersOf s.queue.queueMask)
      put := entry :: s.put }) :
    Counting { s with
      queue := putDrop s.queue entry
      lock := .putRead (readersOf s.queue.queueMask)
      put := entry :: s.put } := by
  obtain ⟨hmask, hlen, -, hcount⟩ := putDrop_spec h.wf.shared entry
  refine ⟨hwf, fun i hi => h.nonneg i (hmask ▸ hi), fun i hi => ?_, h.noSet, fun u g i hu => Or.inl ?_⟩
  · have hi : i ∈ s.queue.queueMask := hmask ▸ hi
    have hold : (getChannelNum s.queue i : ℤ) = owed s i := by
      have := h.counts i hi
      rwa [hfree] at this
    have hroom : getChannelNum s.queue i < s.queue.ring.len := by
      rw [getChannelNum_eq, pendingOf, List.length_map]
      exact lt_of_le_of_lt (List.length_filter_le _ _) s.queue.ring.length_items_lt
    have hlen2 := two_le_len s.queue
    simp only [Counts, if_pos (mem_readersOf.mpr hi), hlen, hcount i hi]
    change owed s i ≤ _ ∧ _ = min _ (owed s i + 1)
    rw [← hold]
    omega
  · exact h.asleep_free hfree hu

/-- A resize: no reader has more than before. -/
theorem Counting.resize (h : Counting s) (hfree : s.lock = .free) {length : ℕ}
    (ht : s.procs t = .resize length) (hwf : Wf { s.move t .idle with
      queue := resized s.queue length
      current := s.current + 1
      lock := .resizeSet (readersOf s.queue.queueMask) }) :
    Counting { s.move t .idle with
      queue := resized s.queue length
      current := s.current + 1
      lock := .resizeSet (readersOf s.queue.queueMask) } := by
  obtain ⟨hmask, -, hcount⟩ := resized_spec h.wf.shared length
  have hflight : ∀ i, inFlight (s.move t .idle) i = inFlight s i := fun i =>
    inFlight_move s i (by rw [ht]; rfl) rfl
  have howed : ∀ i, s.notifySum i - (inFlight (s.move t .idle) i : ℤ) = owed s i := by
    intro i
    rw [hflight]
    rfl
  have hback : ∀ {u g i stage}, (s.move t .idle).procs u = .reader g i stage →
      s.procs u = .reader g i stage := by
    intro u g i stage hu
    rcases eq_or_ne u t with rfl | hne
    · simp only [Threads.move, Function.update_self] at hu
      cases hu
    · simpa only [Threads.move, Function.update_of_ne hne] using hu
  refine ⟨hwf, fun i hi => ?_, fun i hi => ?_, fun u g i p hu => h.noSet u g i p (hback hu),
    fun u g i hu => Or.inl ?_⟩
  · exact le_of_le_of_eq (h.nonneg i (hmask ▸ hi)) (howed i).symm
  · have hi : i ∈ s.queue.queueMask := hmask ▸ hi
    have hold := h.counts i hi
    rw [hfree] at hold
    have hle : (getChannelNum (resized s.queue length) i : ℤ) ≤ getChannelNum s.queue i :=
      Int.ofNat_le.mpr (hcount i)
    simp only [Counts, if_pos (mem_readersOf.mpr hi)]
    exact (hle.trans_eq hold).trans_eq (howed i).symm
  · exact h.asleep_free hfree (hback hu)

/-- The put looks at a counter and goes on to increment it. -/
theorem Counts.putInc {len c o : ℤ} {i pos : Ident} {todo : List Ident} (hpos : pos ∉ todo)
    (h : Counts len c o i (.putRead (pos :: todo))) (hlt : i = pos → o < len - 1) :
    Counts len c o i (.putInc pos todo) := by
  simp only [Counts] at h ⊢
  rcases eq_or_ne i pos with rfl | hne
  · rw [if_pos List.mem_cons_self] at h
    rw [if_pos rfl]
    have := hlt rfl
    omega
  · rw [if_neg hne]
    simpa only [List.mem_cons, hne, false_or] using h

/-- The put looks at a counter and leaves it. -/
theorem Counts.putFull {len c o : ℤ} {i pos : Ident} {todo : List Ident} (hpos : pos ∉ todo)
    (h : Counts len c o i (.putRead (pos :: todo))) (hge : i = pos → len - 1 ≤ o) :
    Counts len c o i (.putWake pos todo) := by
  simp only [Counts] at h ⊢
  rcases eq_or_ne i pos with rfl | hne
  · rw [if_pos List.mem_cons_self] at h
    rw [if_neg hpos]
    have := hge rfl
    omega
  · simpa only [List.mem_cons, hne, false_or] using h

/-- A call sleeps only while its counter is not positive, unless it is about to be woken. -/
theorem Counting.sleeping (h : Counting s) {filp : ℕ} {i : Ident}
    (ht : s.procs t = .reader filp i .asleep) (hno : ∀ todo, s.lock ≠ .putWake i todo) :
    s.notifySum i ≤ 0 :=
  (h.asleep t filp i ht).resolve_right fun ⟨todo, hlock⟩ => hno todo hlock

theorem Counting.unlock (h : Counting s) (hnil : s.lock.todo = [])
    (hwf : Wf { s with lock := .free }) : Counting { s with lock := .free } := by
  refine h.lock hwf h.nonneg (fun i hi => ?_) fun u g i hu => Or.inl (h.sleeping hu fun todo hl => ?_)
  · have hc := h.counts i hi
    generalize hlock : s.lock = lock at hc hnil
    cases lock with
    | free => exact hc
    | putRead todo =>
        obtain rfl : todo = [] := hnil
        simpa [Counts, owed] using hc
    | putInc pos todo => cases hnil
    | putWake pos todo => cases hnil
    | resizeSet todo =>
        obtain rfl : todo = [] := hnil
        simpa [Counts, owed] using hc
  · rw [hl] at hnil
    cases hnil

/-- The put has looked at a counter; `hc` says what that makes of the counts. -/
theorem Counting.look (h : Counting s) {pos : Ident} {todo : List Ident} {lock : Section}
    (hlock : s.lock = .putRead (pos :: todo)) (hwf : Wf { s with lock := lock })
    (hc : ∀ i c, Counts s.queue.ring.len c (owed s i) i (.putRead (pos :: todo)) →
      Counts s.queue.ring.len c (owed s i) i lock) : Counting { s with lock := lock } := by
  refine h.lock hwf h.nonneg (fun i hi => ?_) fun u g i hu => Or.inl (h.sleeping hu fun todo hl => ?_)
  · have hold := h.counts i hi
    rw [hlock] at hold
    exact hc i _ hold
  · rw [hlock] at hl
    cases hl

theorem Counting.inc (h : Counting s) {pos : Ident} {todo : List Ident}
    (hlock : s.lock = .putInc pos todo) (hpos : pos ∉ todo) (hwf : Wf { s with
      lock := .putWake pos todo
      notifySum := Function.update s.notifySum pos (s.notifySum pos + 1) }) :
    Counting { s with
      lock := .putWake pos todo
      notifySum := Function.update s.notifySum pos (s.notifySum pos + 1) } := by
  have hother : ∀ i, i ≠ pos → Function.update s.notifySum pos (s.notifySum pos + 1) i =
      s.notifySum i := fun i hne => Function.update_of_ne hne ..
  refine h.lock hwf (fun i hi => ?_) (fun i hi => ?_) fun u g i hu => ?_
  · have hn := h.nonneg i hi
    unfold owed at hn
    rcases eq_or_ne i pos with rfl | hne
    · rw [Function.update_self]
      omega
    · rwa [hother i hne]
  · have hc := h.counts i hi
    rw [hlock] at hc
    simp only [Counts] at hc ⊢
    rcases eq_or_ne i pos with rfl | hne
    · rw [if_pos rfl] at hc
      rw [if_neg hpos, Function.update_self, hc, owed]
      omega
    · rw [if_neg hne] at hc
      rw [hother i hne]
      exact hc
  · rcases eq_or_ne i pos with rfl | hne
    · exact Or.inr ⟨todo, rfl⟩
    · rw [hother i hne]
      refine Or.inl (h.sleeping hu fun todo hl => ?_)
      rw [hlock] at hl
      cases hl

theorem Counting.wake (h : Counting s) {pos : Ident} {todo : List Ident}
    (hlock : s.lock = .putWake pos todo)
    (hwf : Wf { s with lock := .putRead todo, procs := fun u => wakeUp pos (s.procs u) }) :
    Counting { s with lock := .putRead todo, procs := fun u => wakeUp pos (s.procs u) } := by
  have hflight : ∀ i, Tally.tally (fun p => Proc.atDec i p = true) (fun u => wakeUp pos (s.procs u)) =
      inFlight s i := fun i => Tally.tally_congr fun u => by rw [atDec_wakeUp]
  refine ⟨hwf, fun i hi => ?_, fun i hi => ?_, fun u g i p hu => ?_, fun u g i hu => Or.inl ?_⟩
  · rw [owed, inFlight, hflight]
    exact h.nonneg i hi
  · have hc := h.counts i hi
    rw [hlock] at hc
    rw [owed, inFlight, hflight]
    exact hc
  · rcases wakeUp_eq_reader hu with ⟨hu, -⟩ | ⟨-, hst⟩
    · exact h.noSet u g i p hu
    · cases hst
  · -- whoever is still asleep sleeps on another reader's queue
    rcases wakeUp_eq_reader hu with ⟨hu, hne⟩ | ⟨-, hst⟩
    · refine h.sleeping hu fun todo' hl => ?_
      rw [hlock] at hl
      exact hne rfl (Section.putWake.inj hl).1.symm
    · cases hst

theorem Counting.recount (h : Counting s) {pos : Ident} {todo : List Ident}
    (hlock : s.lock = .resizeSet (pos :: todo)) (hpos : pos ∉ todo) (hzero : inFlight s pos = 0)
    (hwf : Wf { s with
      lock := .resizeSet todo
      notifySum := Function.update s.notifySum pos (getChannelNum s.queue pos) }) :
    Counting { s with
      lock := .resizeSet todo
      notifySum := Function.update s.notifySum pos (getChannelNum s.queue pos) } := by
  have hother : ∀ i, i ≠ pos → Function.update s.notifySum pos (getChannelNum s.queue pos : ℤ) i =
      s.notifySum i := fun i hne => Function.update_of_ne hne ..
  refine h.lock hwf (fun i hi => ?_) (fun i hi => ?_) fun u g i hu => Or.inl ?_
  · rcases eq_or_ne i pos with rfl | hne
    · rw [Function.update_self, hzero]
      omega
    · rw [hother i hne]
      exact h.nonneg i hi
  · have hc := h.counts i hi
    rw [hlock] at hc
    simp only [Counts] at hc ⊢
    rcases eq_or_ne i pos with rfl | hne
    · rw [if_neg hpos, Function.update_self, hzero]
      omega
    · rw [hother i hne]
      simpa only [List.mem_cons, hne, false_or, owed] using hc
  · have hle : s.notifySum i ≤ 0 := by
      refine h.sleeping hu fun todo hl => ?_
      rw [hlock] at hl
      cases hl
    rcases eq_or_ne i pos with rfl | hne
    · have hc := h.counts i (h.wf.reader u g i _ hu).1
      rw [hlock] at hc
      simp only [Counts, List.mem_cons, true_or, if_true, owed] at hc
      rw [Function.update_self]
      omega
    · rw [hother i hne]
      exact hle

/-- **One step keeps the counters**, when it counts right. -/
theorem Counting.step (h : Counting s) {a : Act} {s' : Threads} (hok : CountsRight s a)
    (hs : Taken s a s') : Counting s' := by
  have hwf := h.wf.step hs
  have hnodup := h.wf.todo.1
  cases hs with
  | none => exact h
  | create hfree => exact h.create hfree _ hwf
  | release hfree => exact h.release hfree hwf
  | put hfree => exact h.put hfree _ hwf
  | unlock hnil => exact h.unlock hnil hwf
  | @putInc pos todo hlock hsum =>
      rw [hlock] at hnodup
      rw [CountsRight, hlock] at hok
      refine h.look hlock hwf fun i c hc => ?_
      exact hc.putInc (List.nodup_cons.mp hnodup).1 fun he => he ▸ hok.mp hsum
  | @putFull pos todo hlock hsum =>
      rw [hlock] at hnodup
      rw [CountsRight, hlock] at hok
      refine h.look hlock hwf fun i c hc => ?_
      exact hc.putFull (List.nodup_cons.mp hnodup).1 fun he => not_lt.mp fun hlt => hsum (hok.mpr (he ▸ hlt))
  | @inc pos todo hlock =>
      rw [hlock] at hnodup
      exact h.inc hlock (List.nodup_cons.mp hnodup).1 hwf
  | wake hlock => exact h.wake hlock hwf
  | @recount pos todo hlock =>
      rw [hlock] at hnodup
      rw [CountsRight, hlock] at hok
      exact h.recount hlock (List.nodup_cons.mp hnodup).1 hok hwf
  | calls hb ht hm => exact h.moves hm hwf
  | bound => exact ⟨hwf, h.nonneg, h.counts, h.noSet, h.asleep⟩
  | moves hm => exact h.moves hm hwf
  | retrieve hfree ht hslot => exact h.retrieve hfree ht hslot hwf
  | dec ht => exact h.dec ht hwf
  | set ht => exact absurd ht (h.noSet _ _ _ _)
  | copy ht hpr =>
      refine h.move hwf (fun i => ⟨by rw [ht]; rfl, ?_⟩) (fun g i p he => ?_) fun g i he => ?_
      · rcases hpr with rfl | rfl <;> rfl
      · rcases hpr with rfl | rfl <;> cases he
      · rcases hpr with rfl | rfl <;> cases he
  | resize hfree ht => exact h.resize hfree ht hwf

end Steps

/-- The counter of the reader is exact, a call that waits for notices finds it positive
when and only when there is an unread one, and no call sleeps while there is. -/
def Exact (s : Threads) (i : Ident) : Prop :=
  s.notifySum i = getChannelNum s.queue i ∧
    (0 < s.notifySum i ↔ ∃ x ∈ s.queue.ring.items, i ∈ x.queueBitmaps) ∧
    ((∃ x ∈ s.queue.ring.items, i ∈ x.queueBitmaps) →
      ∀ t filp, s.procs t ≠ .reader filp i .asleep)

theorem getChannelNum_pos {q : RingQueue} {i : Ident} :
    0 < getChannelNum q i ↔ ∃ x ∈ q.ring.items, i ∈ x.queueBitmaps := by
  rw [getChannelNum_eq, pendingOf, List.length_map, ← List.countP_eq_length_filter,
    List.countP_pos_iff]
  simp only [decide_eq_true_eq]

/-- **When the unread counters are exact.**  In every run, of any number of readers,
putters and resizers in any order of their lock sections and atomic operations, whose
steps count right: in every state reached, for every subscribed reader that has no call
between its retrieval and its decrement, and that the holder of the lock has no more to
do for, the counter is the number of notices in the ring with the reader's bit, and a
blocked call is let go exactly when there is one. -/
theorem notify_counters_exact (acts : List Act) (s : Threads)
    (hrun : Run.run Threads.step Threads.init acts = some s)
    (hok : Run.Meets Threads.step CountsRight Threads.init acts) :
    ∀ i ∈ s.queue.queueMask, (∀ t filp p, s.procs t ≠ .reader filp i (.dec p)) →
      i ∉ s.lock.todo → Exact s i := by
  intro i hi hno htodo
  have h : Counting s := Run.run_invariant
    (fun _ _ _ h hok hs => h.step hok (Threads.step_taken hs)) counting_init hok hrun
  have hzero : inFlight s i = 0 := h.wf.inFlight_eq_zero.mpr hno
  have hsum : s.notifySum i = getChannelNum s.queue i := by
    have hc := h.counts i hi
    rw [owed, hzero] at hc
    generalize s.lock = lock at hc htodo
    cases lock with
    | free =>
        simp only [Counts] at hc
        omega
    | putRead todo =>
        rw [Counts, if_neg (show i ∉ todo from htodo)] at hc
        omega
    | putInc pos todo =>
        obtain ⟨hne, hnot⟩ := not_or.mp fun hor => htodo (List.mem_cons.mpr hor)
        rw [Counts, if_neg hne, if_neg hnot] at hc
        omega
    | putWake pos todo =>
        rw [Counts, if_neg fun hmem => htodo (List.mem_cons_of_mem pos hmem)] at hc
        omega
    | resizeSet todo =>
        rw [Counts, if_neg (show i ∉ todo from htodo)] at hc
        omega
  have hpos : 0 < s.notifySum i ↔ ∃ x ∈ s.queue.ring.items, i ∈ x.queueBitmaps := by
    rw [← getChannelNum_pos, hsum]
    exact Int.natCast_pos
  refine ⟨hsum, hpos, fun hx t filp ht => ?_⟩
  rcases h.asleep t filp i ht with hle | ⟨todo, hlock⟩
  · exact absurd (hpos.mpr hx) (not_lt.mpr hle)
  · rw [hlock] at htodo
    exact htodo List.mem_cons_self

/-- A notice without content. -/
def emptyNotice : Notice := ⟨0, 0, List.replicate 48 0⟩

/-- A put, with one reader to be served. -/
def putOne : List Act := [.put emptyNotice, .locked, .locked, .locked, .locked]

/-- One reader, one notice. -/
theorem notify_counters_exact_one :
    ∃ s, Run.run Threads.step Threads.init (.create 0 :: putOne) = some s ∧ s.notifySum 0 = 1 ∧
      Exact s 0 := by
  refine ⟨_, rfl, rfl, notify_counters_exact (.create 0 :: putOne) _ rfl ?_ 0 (by decide)
    (fun t filp p ht => by cases ht) List.not_mem_nil⟩
  refine ⟨trivial, fun s₁ h₁ => ⟨trivial, fun s₂ h₂ => ⟨?_, fun s₃ h₃ => ⟨?_, fun s₄ h₄ =>
    ⟨?_, fun s₅ h₅ => ⟨?_, fun _ _ => trivial⟩⟩⟩⟩⟩⟩
  all_goals
    obtain rfl := Option.some.inj h₁
    obtain rfl := Option.some.inj h₂
  · -- no call is there that could be about to decrement
    have hzero : inFlight Threads.init 0 = 0 := wf_init.inFlight_of_notMem (Finset.notMem_empty 0)
    change (0 : ℤ) % 4294967296 < 499 ↔ (0 : ℤ) - (inFlight Threads.init 0 : ℤ) < 499
    rw [hzero]
    decide
  · obtain rfl := Option.some.inj h₃
    trivial
  · obtain rfl := Option.some.inj h₃
    obtain rfl := Option.some.inj h₄
    trivial
  · obtain rfl := Option.some.inj h₃
    obtain rfl := Option.some.inj h₄
    obtain rfl := Option.some.inj h₅
    trivial

/-- A reader with two notices; a resize between the retrieval of the first and its
decrement; the copy fails; the reader waits for more. -/
def resizeInFlight : List Act :=
  .create 0 :: putOne ++ putOne ++
    [.call 0 (.noblock 0), .next 0 true, .call 1 (.setQueueNum 200 true), .next 1 true, .locked,
      .locked, .next 0 true, .next 0 true, .next 0 false, .call 0 (.block 0), .next 0 true]

/-- **A reader sleeps with a notice unread.**  The resize counts one unread notice, and
the decrement that was still to be made takes the counter to zero.  Nobody is in a lock
section or between a retrieval and its decrement; one notice has the reader's bit; the
counter is zero, and the reader is asleep. -/
theorem notify_asleep_with_unread :
    (∃ s, Run.run Threads.step Threads.init resizeInFlight = some s ∧ s.lock = .free ∧
      0 ∈ s.queue.queueMask ∧ (∀ t filp i p, s.procs t ≠ .reader filp i (.dec p)) ∧
      s.notifySum 0 = 0 ∧ getChannelNum s.queue 0 = 1 ∧ s.procs 0 = .reader 0 0 .asleep) ∧
      ¬ ∀ acts s, Run.run Threads.step Threads.init acts = some s → ∀ i ∈ s.queue.queueMask,
        (∀ t filp p, s.procs t ≠ .reader filp i (.dec p)) → i ∉ s.lock.todo → Exact s i := by
  obtain ⟨s, hs, hlock, hmask, hsum, hcount, hbound, hp₀, hp₁⟩ :
      ∃ s, Run.run Threads.step Threads.init resizeInFlight = some s ∧ s.lock = .free ∧
        0 ∈ s.queue.queueMask ∧ s.notifySum 0 = 0 ∧ getChannelNum s.queue 0 = 1 ∧ s.bound = 2 ∧
        s.procs 0 = .reader 0 0 .asleep ∧ s.procs 1 = .idle :=
    ⟨_, rfl, rfl, by decide +kernel, by decide +kernel, by decide +kernel, rfl, rfl, rfl⟩
  have hno : ∀ t filp i p, s.procs t ≠ .reader filp i (.dec p) := by
    intro t filp i p ht
    match t with
    | 0 =>
        rw [hp₀] at ht
        cases ht
    | 1 =>
        rw [hp₁] at ht
        cases ht
    | t + 2 =>
        rw [(wf_run hs).bound (t + 2) (by omega)] at ht
        cases ht
  refine ⟨⟨s, hs, hlock, hmask, hno, hsum, hcount, hp₀⟩, fun hall => ?_⟩
  obtain ⟨hexact, -⟩ := hall resizeInFlight s hs 0 hmask (fun t filp p => hno t filp 0 p)
    (by rw [hlock]; exact List.not_mem_nil)
  rw [hsum, hcount] at hexact
  exact absurd hexact (by decide)

end Notify
end TsbAgent
