/-
# What a reader gets

`retrieve_queue` returns a pointer into the ring, and the reading call copies what it
points to after it has released `notify_lock`.  Until then the slot may be written again,
by a put that comes round to it, and the whole ring may be freed, by a resize.  A notice
that all its readers have retrieved is retired at once, so the slot counts as unused
while the last of them is still to copy it.

`notify_content_intact` says that nothing else can happen to it: in the runs where no put
writes a slot, and no resize frees a ring, that a call still points to, every reader
is handed the bytes that were put.
-/

import TsbAgent.Notify.Threads

namespace TsbAgent
namespace Notify

/-- A reading call has retrieved the pointer and not yet copied. -/
def Holds (s : Threads) (p : Pointer) : Prop :=
  ∃ t filp i stage, s.procs t = .reader filp i stage ∧ stage.pointer = some p

/-- The slot a put writes. -/
def RingQueue.nextSlot (q : RingQueue) : ℕ := (q.ring.tail + 1) % q.ring.len

/-- A put writes no slot, and a resize frees no ring, that a call points to. -/
def KeepsHeld (s : Threads) : Act → Prop
  | .put entry => entry.length ≤ maxNoticeSize → s.queue.queueMask.card ≠ 0 →
      ∀ p, Holds s p → p.slot ≠ s.queue.nextSlot
  | .next t _ => ∀ length, s.procs t = .resize length → ∀ p, ¬ Holds s p
  | _ => True

/-- The invariant: what the calls point to is in memory and as it was retrieved, and
it, the notices in the ring and the copies are notices that were put. -/
structure Intact (s : Threads) : Prop where
  held : ∀ p, Holds s p → s.deref p = some p.notice ∧ p.notice ∈ s.put
  items : ∀ x ∈ s.queue.ring.items, x.notifyItem ∈ s.put
  copied : ∀ c ∈ s.copied, c.2 = some c.1 ∧ c.1 ∈ s.put

/-! ### What the functions do to the contents of the slots -/

section Slots

variable {q : RingQueue} {i : Ident}

theorem slot_modify (h k : ℕ) (f : HttcNotify → HttcNotify)
    (hf : ∀ x, (f x).notifyItem = x.notifyItem) :
    ((q.modify h f).ring.slot k).notifyItem = (q.ring.slot k).notifyItem := by
  rcases eq_or_ne k h with rfl | hne
  · exact (congrArg HttcNotify.notifyItem (Function.update_self ..)).trans (hf _)
  · exact congrArg HttcNotify.notifyItem (Function.update_of_ne hne ..)

theorem getQueue_slot (k : ℕ) : (getQueue q).ring.slot k = q.ring.slot k := by
  unfold getQueue
  split_ifs <;> rfl

/-- `clear_queue_bit` changes bitmaps only. -/
theorem clearQueueBit_slot (k : ℕ) :
    ((clearQueueBit q i).ring.slot k).notifyItem = (q.ring.slot k).notifyItem := by
  have hfold : ∀ (l : List ℕ) (q : RingQueue),
      ((l.foldl (fun q h => q.modify h (HttcNotify.clearBit i)) q).ring.slot k).notifyItem =
        (q.ring.slot k).notifyItem := by
    intro l
    induction l with
    | nil => exact fun q => rfl
    | cons h l ih => exact fun q => (ih _).trans (slot_modify h k _ fun _ => rfl)
  unfold clearQueueBit
  split_ifs
  · rfl
  · exact hfold _ q

/-- So does `retrieve_queue`. -/
theorem retrieveQueue_slot (k : ℕ) :
    ((retrieveQueue q i).1.ring.slot k).notifyItem = (q.ring.slot k).notifyItem := by
  unfold retrieveQueue
  split_ifs
  · rfl
  · cases q.ring.findSlot fun x => i ∈ x.queueBitmaps with
    | none => rfl
    | some h =>
        have hmod := slot_modify (q := q) h k (HttcNotify.clearBit i) fun _ => rfl
        simp only
        split_ifs
        · rw [getQueue_slot, hmod]
        · exact hmod

/-- A put writes the next slot. -/
theorem putDrop_slot (entry : Notice) {k : ℕ} (hk : k ≠ q.nextSlot) :
    (putDrop q entry).ring.slot k = q.ring.slot k := by
  have hring : (putDrop q entry).ring = q.ring.pushDrop ⟨q.queueMask, entry⟩ :=
    (putQueue_drop q entry).2
  rw [hring, Ring.pushDrop]
  split_ifs
  · exact Function.update_of_ne hk ..
  · exact Function.update_of_ne hk ..

theorem slot_mem_items {h : ℕ} (hslot : retrieveSlot q i = some h) :
    q.ring.slot h ∈ q.ring.items := by
  unfold retrieveSlot at hslot
  split_ifs at hslot
  obtain ⟨l₁, l₂, hitems, -⟩ := Ring.exists_of_findSlot hslot
  rw [hitems]
  exact List.mem_append_right _ List.mem_cons_self

/-- The notices in the ring after a retrieval were in it before. -/
theorem retrieveQueue_items {x : HttcNotify} (hx : x ∈ (retrieveQueue q i).1.ring.items) :
    ∃ y ∈ q.ring.items, y.notifyItem = x.notifyItem := by
  unfold retrieveQueue at hx
  split_ifs at hx
  · exact ⟨x, hx, rfl⟩
  · cases hf : q.ring.findSlot fun x => i ∈ x.queueBitmaps with
    | none =>
        rw [hf] at hx
        exact ⟨x, hx, rfl⟩
    | some h =>
        rw [hf] at hx
        obtain ⟨l₁, l₂, hitems, -, -, hmod⟩ := Ring.exists_of_findSlot hf
        have hmod : (q.modify h (HttcNotify.clearBit i)).ring.items =
            l₁ ++ (q.ring.slot h).clearBit i :: l₂ := hmod _
        have hold : x ∈ (q.modify h (HttcNotify.clearBit i)).ring.items →
            ∃ y ∈ q.ring.items, y.notifyItem = x.notifyItem := by
          intro hx
          rw [hmod] at hx
          rw [hitems]
          rcases List.mem_append.mp hx with hx | hx
          · exact ⟨x, List.mem_append_left _ hx, rfl⟩
          · rcases List.mem_cons.mp hx with rfl | hx
            · exact ⟨_, List.mem_append_right _ List.mem_cons_self, rfl⟩
            · exact ⟨x, List.mem_append_right _ (List.mem_cons_of_mem _ hx), rfl⟩
        simp only at hx
        split_ifs at hx
        · have hne : ¬ (q.modify h (HttcNotify.clearBit i)).ring.isEmpty := by
            rw [Ring.isEmpty_iff, hmod]
            simp
          rw [getQueue, if_neg hne, Ring.items_pop hne] at hx
          exact hold (List.mem_of_mem_tail hx)
        · exact hold hx

theorem putDrop_items {entry : Notice} {x : HttcNotify} (hx : x ∈ (putDrop q entry).ring.items) :
    x ∈ q.ring.items ∨ x.notifyItem = entry := by
  have hitems := Ring.items_pushDrop (two_le_len q) (⟨q.queueMask, entry⟩ : HttcNotify)
  rw [← (putQueue_drop q entry).2] at hitems
  rw [putDrop, hitems] at hx
  rcases List.mem_append.mp (List.mem_of_mem_drop hx) with hx | hx
  · exact Or.inl hx
  · exact Or.inr (by rw [List.mem_singleton.mp hx])

theorem resized_items {length : ℕ} {x : HttcNotify} (hx : x ∈ (resized q length).ring.items) :
    x ∈ q.ring.items := by
  obtain ⟨-, -, hitems⟩ := copyQueue_spec q { createQueue length with queueMask := q.queueMask }
    (items_createQueue _)
  rw [resized, hitems] at hx
  exact List.mem_of_mem_drop hx

end Slots

section Steps

variable {s : Threads} {t : ℕ}

theorem intact_init : Intact Threads.init where
  held := fun p ⟨t, filp, i, stage, ht, _⟩ => by cases ht
  items := fun x hx => by
    have hnil : Threads.init.queue.ring.items = [] := items_createQueue _
    rw [hnil] at hx
    exact absurd hx List.not_mem_nil
  copied := fun c hc => absurd hc List.not_mem_nil

/-- A thread that moves on: the pointers are its own or were there before. -/
theorem holds_move {pr : Proc} {p : Pointer} (h : Holds (s.move t pr) p) :
    (∃ filp i stage, pr = .reader filp i stage ∧ stage.pointer = some p) ∨ Holds s p := by
  obtain ⟨u, filp, i, stage, hu, hp⟩ := h
  rcases eq_or_ne u t with rfl | hne
  · simp only [Threads.move, Function.update_self] at hu
    exact Or.inl ⟨filp, i, stage, hu, hp⟩
  · simp only [Threads.move, Function.update_of_ne hne] at hu
    exact Or.inr ⟨u, filp, i, stage, hu, hp⟩

/-- A thread that moves on with the pointer it had. -/
theorem holds_of_move {filp : ℕ} {i : Ident} {stage stage' : Stage} {p : Pointer}
    (h : Holds (s.move t (.reader filp i stage')) p) (ht : s.procs t = .reader filp i stage)
    (hst : stage.pointer = stage'.pointer) : Holds s p := by
  rcases holds_move h with ⟨g, j, st, hr, hp⟩ | h
  · obtain ⟨-, -, rfl⟩ := Proc.reader.inj hr
    exact ⟨t, filp, i, stage, ht, hst.trans hp⟩
  · exact h

theorem Moves.holds {pr : Proc} {p : Pointer} (hm : Moves s (s.procs t) pr)
    (h : Holds (s.move t pr) p) : Holds s p := by
  rcases holds_move h with ⟨filp, i, stage, rfl, hp⟩ | h
  · generalize ht : s.procs t = old at hm
    cases hm with
    | read _ hstage => rcases hstage with rfl | rfl <;> cases hp
    | awake => cases hp
    | sleep => cases hp
    | negative => exact ⟨t, filp, i, _, ht, hp⟩
    | proceed => exact ⟨t, filp, i, _, ht, hp⟩
  · exact h

/-- A step that hands out no pointer and changes no slot that one points to. -/
theorem Intact.keep (h : Intact s) {s' : Threads} (hcurrent : s'.current = s.current)
    (hput : ∀ n ∈ s.put, n ∈ s'.put) (hcopied : s'.copied = s.copied)
    (hheld : ∀ p, Holds s' p → Holds s p)
    (hslot : ∀ p, Holds s p →
      (s'.queue.ring.slot p.slot).notifyItem = (s.queue.ring.slot p.slot).notifyItem)
    (hitems : ∀ x ∈ s'.queue.ring.items,
      (∃ y ∈ s.queue.ring.items, y.notifyItem = x.notifyItem) ∨ x.notifyItem ∈ s'.put) : Intact s' := by
  refine ⟨fun p hp => ?_, fun x hx => ?_, fun c hc => ?_⟩
  · have hp := hheld p hp
    obtain ⟨hd, hn⟩ := h.held p hp
    refine ⟨?_, hput _ hn⟩
    rw [Threads.deref, hcurrent, hslot p hp]
    exact hd
  · rcases hitems x hx with ⟨y, hy, he⟩ | hx
    · exact hput _ (he ▸ h.items y hy)
    · exact hx
  · rw [hcopied] at hc
    exact ⟨(h.copied c hc).1, hput _ (h.copied c hc).2⟩

/-- A step that leaves the ring. -/
theorem Intact.same (h : Intact s) {s' : Threads} (hring : s'.queue.ring = s.queue.ring)
    (hcurrent : s'.current = s.current) (hput : s'.put = s.put) (hcopied : s'.copied = s.copied)
    (hheld : ∀ p, Holds s' p → Holds s p) : Intact s' := by
  refine h.keep hcurrent (fun n hn => hput ▸ hn) hcopied hheld (fun p _ => by rw [hring]) fun x hx => ?_
  rw [hring] at hx
  exact Or.inl ⟨x, hx, rfl⟩

/-- A call that has retrieved a notice points to a slot that has it. -/
theorem Intact.retrieve (h : Intact s) {filp k : ℕ} {i : Ident}
    (hslot : retrieveSlot s.queue i = some k) :
    Intact { s.move t (.reader filp i (.dec ⟨s.current, k, (s.queue.ring.slot k).notifyItem⟩)) with
      queue := (retrieveQueue s.queue i).1 } := by
  have hderef : ∀ p : Pointer, s.deref p = some p.notice →
      (if p.queue = s.current then some ((retrieveQueue s.queue i).1.ring.slot p.slot).notifyItem
        else none) = some p.notice := by
    intro p hd
    rw [retrieveQueue_slot]
    exact hd
  refine ⟨fun p hp => ?_, fun x hx => ?_, h.copied⟩
  · rcases holds_move hp with ⟨g, j, st, hr, hp⟩ | hp
    · obtain ⟨-, -, rfl⟩ := Proc.reader.inj hr
      obtain rfl := Option.some.inj hp
      exact ⟨hderef _ (if_pos rfl), h.items _ (slot_mem_items hslot)⟩
    · exact ⟨hderef p (h.held p hp).1, (h.held p hp).2⟩
  · obtain ⟨y, hy, he⟩ := retrieveQueue_items hx
    exact he ▸ h.items y hy

/-- **One step leaves intact what the calls point to**, when it keeps it. -/
theorem Intact.step (h : Intact s) {a : Act} {s' : Threads} (hok : KeepsHeld s a)
    (hs : Taken s a s') : Intact s' := by
  cases hs with
  | none => exact h
  | create =>
      rcases createNotifyQueue_cases s.toState _ with he | ⟨i, -, he⟩
      · rw [he]
        exact h
      · rw [he]
        exact h.same rfl rfl rfl rfl fun _ hp => hp
  | @release filp =>
      refine h.keep rfl (fun _ hn => hn) rfl (fun _ hp => hp) (fun p _ => ?_) fun x hx => Or.inl ?_
      · change ((destroyNotifyReadQueue s.toState filp).queue.ring.slot p.slot).notifyItem = _
        unfold destroyNotifyReadQueue
        cases s.privateData filp with
        | none => rfl
        | some i => exact clearQueueBit_slot p.slot
      · change x ∈ (destroyNotifyReadQueue s.toState filp).queue.ring.items at hx
        rcases destroyNotifyReadQueue_cases s.toState filp with he | ⟨i, q, -, -, hitems, he⟩
        · rw [he] at hx
          exact ⟨x, hx, rfl⟩
        · rw [he] at hx
          simp only [hitems] at hx
          obtain ⟨y, hy, rfl⟩ := List.mem_map.mp hx
          exact ⟨y, hy, rfl⟩
  | put hfree hlen hcard =>
      refine h.keep rfl (fun _ hn => List.mem_cons_of_mem _ hn) rfl (fun _ hp => hp) (fun p hp => ?_)
        fun x hx => ?_
      · exact congrArg HttcNotify.notifyItem (putDrop_slot _ (hok (not_lt.mp hlen) hcard p hp))
      · rcases putDrop_items hx with hx | hx
        · exact Or.inl ⟨x, hx, rfl⟩
        · exact Or.inr (hx ▸ List.mem_cons_self)
  | unlock => exact h.same rfl rfl rfl rfl fun _ hp => hp
  | putInc => exact h.same rfl rfl rfl rfl fun _ hp => hp
  | putFull => exact h.same rfl rfl rfl rfl fun _ hp => hp
  | inc => exact h.same rfl rfl rfl rfl fun _ hp => hp
  | wake =>
      refine h.same rfl rfl rfl rfl fun p ⟨u, filp, i, stage, hu, hp⟩ => ?_
      rcases wakeUp_eq_reader hu with ⟨hu, -⟩ | ⟨-, rfl⟩
      · exact ⟨u, filp, i, stage, hu, hp⟩
      · cases hp
  | recount => exact h.same rfl rfl rfl rfl fun _ hp => hp
  | calls _ _ hm => exact h.same rfl rfl rfl rfl fun _ hp => hm.holds hp
  | bound => exact h.same rfl rfl rfl rfl fun _ hp => hp
  | moves hm => exact h.same rfl rfl rfl rfl fun _ hp => hm.holds hp
  | retrieve hfree ht hslot => exact h.retrieve hslot
  | dec ht => exact h.same rfl rfl rfl rfl fun _ hp => holds_of_move hp ht rfl
  | set ht => exact h.same rfl rfl rfl rfl fun _ hp => holds_of_move hp ht rfl
  | @copy t filp i p _ _ ht hpr =>
      obtain ⟨hd, hn⟩ := h.held p ⟨t, filp, i, _, ht, rfl⟩
      refine ⟨fun p hp => ?_, h.items, fun c hc => ?_⟩
      · refine h.held p ?_
        rcases holds_move hp with ⟨g, j, st, hr, hp⟩ | hp
        · rcases hpr with rfl | rfl
          · cases hr
          · obtain ⟨-, -, rfl⟩ := Proc.reader.inj hr
            cases hp
        · exact hp
      · rcases List.mem_cons.mp hc with rfl | hc
        · exact ⟨hd, hn⟩
        · exact h.copied c hc
  | resize hfree ht =>
      refine ⟨fun p hp => ?_, fun x hx => h.items x (resized_items hx), h.copied⟩
      rcases holds_move hp with ⟨g, j, st, hr, -⟩ | hp
      · cases hr
      · exact absurd hp (hok _ ht p)

end Steps

/-- A notice with content. -/
def oneNotice : Notice := ⟨1, 4, List.replicate 48 7⟩

/-- One reader, one notice, and a call of the reader. -/
def callOne : List Act :=
  [.create 0, .put oneNotice, .locked, .locked, .locked, .locked, .call 0 (.noblock 0)]

/-- A reading call goes on as a reading call, or returns. -/
theorem reads_not_resize {s s' : Threads} {t filp : ℕ} {i : Ident} {copy : Bool} {stage : Stage}
    (hs : s.reads t filp i copy stage = some s') (length : ℕ) : s'.procs t ≠ .resize length := by
  cases stage with
  | asleep => cases hs
  | retrieve =>
      simp only [Threads.reads] at hs
      split_ifs at hs
      split at hs <;> obtain rfl := Option.some.inj hs <;> simp [Threads.move]
  | copy p =>
      obtain rfl := Option.some.inj hs
      cases copy <;> simp [Threads.move]
  | _ =>
      obtain rfl := Option.some.inj hs
      simp [Threads.move]

/-- A call that only reads takes nothing from the others. -/
theorem meets_reading {t : ℕ} (copies : List Bool) {s : Threads}
    (ht : ∀ length, s.procs t ≠ .resize length) :
    Run.Meets Threads.step KeepsHeld s (copies.map (.next t)) := by
  induction copies generalizing s with
  | nil => trivial
  | cons copy copies ih =>
      refine ⟨fun length hl => absurd hl (ht length), fun s' hs => ih fun length => ?_⟩
      simp only [Threads.step] at hs
      split at hs
      case h_1 => cases hs
      case h_2 => exact reads_not_resize hs length
      case h_3 hl => exact absurd hl (ht _)

/-- A resize between the retrieval of the notice and its copy. -/
def resizeBeforeCopy : List Act :=
  callOne ++ [.next 0 true, .call 1 (.setQueueNum 200 true), .next 1 true, .locked, .locked,
    .next 0 true, .next 0 true, .next 0 true, .next 0 true]

end Notify
end TsbAgent
