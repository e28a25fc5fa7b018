/-
# The callbacks of notices

`notify_back_func` of `tss-main/tcs/tcsapi/tcsk/notify.c` has ten slots.
`tcsk_register_notify_callback` takes the first free slot, and refuses a function that it meets
*before* that slot; `tcsk_unregister_notify_callback` frees the first slot of a function; and
`tpcm_notifier` calls what is in every slot.  A function that was registered in a slot behind one that has
become free since is not met, and is registered a second time:

| call | slots |
| --- | --- |
| register `f`, register `g` | `f`, `g` |
| unregister `f` | –, `g` |
| register `g`, returns 0 | `g`, `g` |
| unregister `g` | –, `g` |

`callbacks_registered_iff` says that this is all that goes wrong.  Functions are of any type;
`NULL` is `none`.
-/

import TsbAgent.Lib.Run
import TsbAgent.Tcs.Basic
import Mathlib.Data.List.Count
import Mathlib.Logic.Function.Basic

namespace TsbAgent
namespace Tcs

/-- `MAX_NOTIFY_CALL_BACK`. -/
def maxNotifyCallBack : ℕ := 10

/-- `TPCM_NOTIFY_TYPE_TRUSTED_STATUS`. -/
def tpcmNotifyTypeTrustedStatus : UInt32 := 4

/-- `TPCM_NOTIFY_TYPE_LICENSE`. -/
def tpcmNotifyTypeLicense : UInt32 := 8

section Source

variable {F : Type*} [DecidableEq F]

/-- `tcsk_register_notify_callback`: what it returns, and the slots. -/
def tcskRegisterNotifyCallback (f : Option F) : List (Option F) → ℤ × List (Option F)
  | [] => (-1, [])
  | none :: slots => (0, f :: slots)
  | some g :: slots =>
      if some g = f then (-1, some g :: slots)
      else
        let rest := tcskRegisterNotifyCallback f slots
        (rest.1, some g :: rest.2)

/-- `tcsk_unregister_notify_callback`, which always returns 0. -/
def tcskUnregisterNotifyCallback (f : Option F) : List (Option F) → List (Option F)
  | [] => []
  | x :: slots => if x ≠ none ∧ x = f then none :: slots else x :: tcskUnregisterNotifyCallback f slots

omit [DecidableEq F] in
/-- The functions that a notice calls. -/
def called (slots : List (Option F)) : List F := slots.filterMap id

omit [DecidableEq F] in
/-- `tpcm_notifier`: the functions that it calls, none when there is no notice to deliver, and
`notify_type`. -/
def tpcmNotifier (slots : List (Option F)) (notifyType pnotifyType : UInt32) : Option (List F) × UInt32 :=
  let notifyType := notifyType ||| pnotifyType
  if notifyType &&& tpcmNotifyTypeTrustedStatus ≠ 0 then
    (some (called slots), notifyType &&& ~~~ tpcmNotifyTypeTrustedStatus)
  else if notifyType &&& tpcmNotifyTypeLicense ≠ 0 then
    (some (called slots), notifyType &&& ~~~ tpcmNotifyTypeLicense)
  else (none, notifyType)

/-- The calls from outside. -/
inductive CallbackCall (F : Type*)
  | register (f : Option F)
  | unregister (f : Option F)
  | notify (type : UInt32)

/-- The slots and `notify_type`.  `registered` and `notices` are not in the source: the functions whose
last register returned 0 and that were not unregistered since, and every notice that was delivered, with the
functions it called and those that were registered then. -/
structure Callbacks (F : Type*) where
  slots : List (Option F)
  notifyType : UInt32
  registered : F → Bool
  notices : List (List F × (F → Bool))

omit [DecidableEq F] in
/-- No function is registered. -/
def Callbacks.start : Callbacks F := ⟨List.replicate maxNotifyCallBack none, 0, fun _ => false, []⟩

/-- A function becomes registered, or stops being so. -/
def setRegistered (registered : F → Bool) (f : Option F) (b : Bool) : F → Bool :=
  match f with
  | none => registered
  | some f => Function.update registered f b

/-- One call. -/
def Callbacks.step (s : Callbacks F) : CallbackCall F → Option (Callbacks F)
  | .register f =>
      let result := tcskRegisterNotifyCallback f s.slots
      some { s with
        slots := result.2
        registered := if result.1 = 0 then setRegistered s.registered f true else s.registered }
  | .unregister f =>
      some { s with
        slots := tcskUnregisterNotifyCallback f s.slots
        registered := setRegistered s.registered f false }
  | .notify type =>
      let result := tpcmNotifier s.slots s.notifyType type
      some { s with
        notifyType := result.2
        notices := (result.1.map fun l => (l, s.registered)).toList ++ s.notices }

end Source

/-! ### What should hold -/

section Spec

variable {F : Type*} [DecidableEq F]

/-- Every registered function is in one slot, and the others are in none; and so every notice that was
delivered has called every function once that was registered then, and no other. -/
structure CallbacksOk (s : Callbacks F) : Prop where
  slots : ∀ f, s.slots.count (some f) = (s.registered f).toNat
  notices : ∀ n ∈ s.notices, ∀ f, n.1.count f = (n.2 f).toNat

/-- The function is not behind the first free slot. -/
def NotBehind (s : Callbacks F) : CallbackCall F → Prop
  | .register (some f) => some f ∉ s.slots.dropWhile Option.isSome
  | _ => True

variable {s : Callbacks F} {f g : F} {slots : List (Option F)}

/-- A register returns 0 when there is a free slot and it has not met its function before that. -/
theorem register_zero_iff : (tcskRegisterNotifyCallback (some f) slots).1 = 0 ↔
    some f ∉ slots.takeWhile Option.isSome ∧ none ∈ slots := by
  induction slots with
  | nil => simp [tcskRegisterNotifyCallback]
  | cons y slots ih =>
      cases y with
      | none => simp [tcskRegisterNotifyCallback]
      | some k =>
          rw [tcskRegisterNotifyCallback]
          rcases eq_or_ne (some k) (some f) with hk | hk
          · rw [if_pos hk]
            simp [hk]
          · rw [if_neg hk]
            simp [ih, Ne.symm hk]

/-- **A register that returns 0** puts its function into a slot that was free. -/
theorem count_register_of_zero {x : Option F} (h : (tcskRegisterNotifyCallback x slots).1 = 0) (g : F) :
    (tcskRegisterNotifyCallback x slots).2.count (some g) =
      slots.count (some g) + if x = some g then 1 else 0 := by
  induction slots with
  | nil => exact absurd h (by simp [tcskRegisterNotifyCallback])
  | cons y slots ih =>
      cases y with
      | none =>
          rw [tcskRegisterNotifyCallback, List.count_cons, List.count_cons]
          simp
      | some k =>
          rw [tcskRegisterNotifyCallback] at h ⊢
          rcases eq_or_ne (some k) x with hk | hk
          · rw [if_pos hk] at h
            cases h
          · rw [if_neg hk] at h ⊢
            dsimp only at h ⊢
            rw [List.count_cons, List.count_cons, ih h]
            omega

/-- A register that does not return 0 changes nothing. -/
theorem register_of_ne_zero {x : Option F} (h : (tcskRegisterNotifyCallback x slots).1 ≠ 0) :
    (tcskRegisterNotifyCallback x slots).2 = slots := by
  induction slots with
  | nil => rfl
  | cons y slots ih =>
      cases y with
      | none => exact absurd rfl h
      | some k =>
          rw [tcskRegisterNotifyCallback] at h ⊢
          split_ifs at h ⊢ with hk
          · rfl
          · exact congrArg _ (ih h)

/-- An unregister frees one slot of its function. -/
theorem count_unregister (x : Option F) (g : F) :
    (tcskUnregisterNotifyCallback x slots).count (some g) =
      slots.count (some g) - if x = some g then 1 else 0 := by
  induction slots with
  | nil => simp [tcskUnregisterNotifyCallback]
  | cons y slots ih =>
      rw [tcskUnregisterNotifyCallback]
      by_cases hy : y ≠ none ∧ y = x
      · rw [if_pos hy, List.count_cons, List.count_cons, hy.2]
        simp
      · rw [if_neg hy, List.count_cons, List.count_cons, ih]
        rcases eq_or_ne x (some g) with rfl | hx
        · have hne : y ≠ some g := fun h => hy ⟨by rw [h]; simp, h⟩
          simp [hne]
        · simp [hx]

@[simp] theorem setRegistered_none (registered : F → Bool) (b : Bool) :
    setRegistered registered none b = registered := rfl

/-- **A register** keeps the slots in order exactly when its function is not behind a free slot. -/
theorem register_ok_iff {x : Option F} (h : CallbacksOk s) :
    (∃ s', s.step (.register x) = some s' ∧ CallbacksOk s') ↔ NotBehind s (.register x) := by
  have hstep : (∃ s', s.step (.register x) = some s' ∧ CallbacksOk s') ↔
      ∀ g, (tcskRegisterNotifyCallback x s.slots).2.count (some g) =
        ((if (tcskRegisterNotifyCallback x s.slots).1 = 0 then setRegistered s.registered x true
          else s.registered) g).toNat :=
    ⟨fun ⟨s', hs', hok⟩ => by obtain rfl := Option.some.inj hs'; exact hok.slots,
      fun hcount => ⟨_, rfl, ⟨hcount, h.notices⟩⟩⟩
  rw [hstep]
  by_cases hzero : (tcskRegisterNotifyCallback x s.slots).1 = 0
  · simp only [count_register_of_zero hzero, if_pos hzero]
    cases x with
    | none => exact iff_of_true (fun g => by simpa using h.slots g) trivial
    | some f =>
        have hfront := (register_zero_iff.mp hzero).1
        have hmem : some f ∈ s.slots ↔ some f ∈ s.slots.dropWhile Option.isSome := by
          conv_lhs => rw [← List.takeWhile_append_dropWhile (p := Option.isSome) (l := s.slots)]
          rw [List.mem_append, or_iff_right hfront]
        rw [NotBehind, ← hmem, ← List.count_eq_zero]
        constructor
        · intro hcount
          have hf := hcount f
          rw [if_pos rfl, setRegistered, Function.update_self] at hf
          exact Nat.succ.inj hf
        · intro hnone g
          rcases eq_or_ne f g with rfl | hne
          · rw [if_pos rfl, hnone, setRegistered, Function.update_self]
            rfl
          · rw [if_neg (by simpa using hne), setRegistered, Function.update_of_ne hne.symm]
            exact h.slots g
  · simp only [register_of_ne_zero hzero, if_neg hzero]
    refine iff_of_true h.slots ?_
    cases x with
    | none => trivial
    | some f =>
        intro hbehind
        have hsplit := List.takeWhile_append_dropWhile (p := Option.isSome) (l := s.slots)
        have hone : s.slots.count (some f) ≤ 1 := (h.slots f).trans_le (Bool.toNat_le _)
        rw [← hsplit, List.count_append] at hone
        have hpos := List.count_pos_iff.mpr hbehind
        refine hzero (register_zero_iff.mpr ⟨fun hfront => ?_, ?_⟩)
        · have hpos' := List.count_pos_iff.mpr hfront
          omega
        · by_contra hfull
          have hnil : s.slots.dropWhile Option.isSome = [] := List.dropWhile_eq_nil_iff.mpr fun y hy => by
            cases y with
            | none => exact absurd hy hfull
            | some _ => rfl
          rw [hnil] at hbehind
          exact absurd hbehind List.not_mem_nil

/-- An unregister takes its function out of the slots. -/
theorem CallbacksOk.unregister {x : Option F} (h : CallbacksOk s) :
    CallbacksOk { s with
      slots := tcskUnregisterNotifyCallback x s.slots
      registered := setRegistered s.registered x false } := by
  refine ⟨fun g => ?_, h.notices⟩
  change (tcskUnregisterNotifyCallback x s.slots).count (some g) = (setRegistered s.registered x false g).toNat
  rw [count_unregister]
  cases x with
  | none => simpa using h.slots g
  | some f =>
      rcases eq_or_ne f g with rfl | hne
      · have hone : s.slots.count (some f) ≤ 1 := (h.slots f).trans_le (Bool.toNat_le _)
        rw [if_pos rfl, setRegistered, Function.update_self]
        exact Nat.sub_eq_zero_of_le hone
      · rw [if_neg (by simpa using hne), setRegistered, Function.update_of_ne hne.symm]
        exact h.slots g

theorem count_called (slots : List (Option F)) (f : F) : (called slots).count f = slots.count (some f) := by
  induction slots with
  | nil => rfl
  | cons x slots ih =>
      rw [called] at ih ⊢
      cases x with
      | none => rw [List.filterMap_cons_none rfl, ih, List.count_cons_of_ne (by simp)]
      | some g =>
          have hcons : (some g :: slots).filterMap id = g :: slots.filterMap id := rfl
          rw [hcons, List.count_cons, List.count_cons, ih]
          simp

omit [DecidableEq F] in
/-- What a notice calls, if there is one. -/
theorem eq_called_of_tpcmNotifier {notifyType pnotifyType : UInt32} {l : List F}
    (h : (tpcmNotifier slots notifyType pnotifyType).1 = some l) : l = called slots := by
  unfold tpcmNotifier at h
  dsimp only at h
  split_ifs at h
  · exact (Option.some.inj h).symm
  · exact (Option.some.inj h).symm

/-- A notice calls every registered function once. -/
theorem CallbacksOk.notify {type : UInt32} (h : CallbacksOk s) :
    ∃ s', s.step (.notify type) = some s' ∧ CallbacksOk s' := by
  refine ⟨_, rfl, h.slots, fun n hn => ?_⟩
  rcases List.mem_append.mp hn with hnew | hold
  · obtain ⟨l, hl, rfl⟩ := Option.map_eq_some_iff.mp (Option.mem_toList.mp hnew)
    obtain rfl := eq_called_of_tpcmNotifier hl
    intro f
    rw [count_called]
    exact h.slots f
  · exact h.notices n hold

/-- **One call** keeps what should hold exactly when it registers no function from behind a free slot. -/
theorem callbacks_step_iff (s : Callbacks F) (c : CallbackCall F) (h : CallbacksOk s) :
    NotBehind s c ↔ ∃ s', s.step c = some s' ∧ CallbacksOk s' := by
  cases c with
  | register x => exact (register_ok_iff h).symm
  | unregister x => exact iff_of_true trivial ⟨_, rfl, h.unregister⟩
  | notify type => exact iff_of_true trivial h.notify

theorem CallbacksOk.start : CallbacksOk (Callbacks.start : Callbacks F) where
  slots f := List.count_eq_zero.mpr fun hf => by
    rw [Callbacks.start, List.mem_replicate] at hf
    cases hf.2
  notices n hn := absurd hn List.not_mem_nil

end Spec

/-- **When the callbacks are in order.**  For every sequence of registers, unregisters and notices: after
every one of them each registered function is in one slot and no other is in any, and every notice has
called each function that was registered once and no other, exactly when no register is of a function in a
slot behind a free one. -/
theorem callbacks_registered_iff {F : Type*} [DecidableEq F] (cs : List (CallbackCall F)) :
    (∀ cs₁ cs₂, cs = cs₁ ++ cs₂ → ∃ s, Run.run Callbacks.step .start cs₁ = some s ∧ CallbacksOk s) ↔
      Run.Meets Callbacks.step NotBehind .start cs :=
  Run.forall_prefix_iff_meets callbacks_step_iff CallbacksOk.start

/-- **A function is called twice:** it was registered in the second slot, the first has become free, and
it is registered again; and after it has been unregistered it is called all the same. -/
theorem callback_registered_twice :
    ∃ s, Run.run Callbacks.step .start
        [.register (some 'f'), .register (some 'g'), .unregister (some 'f'), .register (some 'g'), .notify 4,
          .unregister (some 'g'), .notify 4] = some s ∧
      s.notices.map Prod.fst = [['g'], ['g', 'g']] ∧ s.registered 'g' = false ∧ ¬ CallbacksOk s := by
  refine ⟨_, rfl, by decide, by decide, fun h => ?_⟩
  exact absurd (h.slots 'g') (by decide)

end Tcs
end TsbAgent
