/-
# The policies that the kernel is told

`tpcm_ioctl_inform_policy` (`tss-main/tcs/tcsapi/tcsk/tcs.c`) gives the policy in a command to one of
the setters of `tss-main/tcs/tcsapi/tcsk/tcs_policy_mgmt.c`, which copies it into the kernel's store.
A command is a header of 12 bytes, `ord`, `size` and `num`, and from byte 24 on the policy; `size` and
`num` are `int`s that nothing relates to each other or to the length of the command:

| setter | copies | when | stores |
| --- | --- | --- | --- |
| `tcs_util_set_admin_auth_policies` | `80 * (size / 80)` | that is not 0 | the number |
| `tcs_util_set_process_ids`, `_process_roles`, `_dmeasure_process_policy` | `size` | `size ≠ 0` | `num`, `size` |
| `tcs_util_set_dmeasure_policy` | `40 * num` | `size ≠ 0` | `num`, `size` |
| `tcs_util_set_ptrace_protect_policy`, `_tnc_policy` | `size` | `size ≠ 0` | `size` |
| `tcs_util_set_global_control_policy` | 80 | always | |

The lengths are converted to `size_t`, so that a negative one is more than `vmalloc` ever gives.
`kernel_policies_well_formed_iff` says which commands keep the store well formed and are copied from
inside the command, over whole runs.
-/

import TsbAgent.Lib.Access
import TsbAgent.Lib.Run
import TsbAgent.Lib.Word
import TsbAgent.Tcs.SizeWalk
import Mathlib.Logic.Function.Basic

namespace TsbAgent
namespace Tcs

open Libc Records FileIntegrity Word

/-! ### The command -/

/-- A command: the memory behind `ucmd`, and `ucmdLen`. -/
structure Inform where
  mem : Mem
  length : ℕ

namespace Inform

/-- `cmd->ord`. -/
def ord (c : Inform) : ℕ := ofHost (c.mem.bytes 12 4)

/-- `cmd->size`. -/
def size (c : Inform) : ℤ := int32 (ofHost (c.mem.bytes 16 4))

/-- `cmd->num`. -/
def num (c : Inform) : ℤ := int32 (ofHost (c.mem.bytes 20 4))

/-- The first `n` bytes of `cmd->policy`. -/
def policy (c : Inform) (n : ℕ) : Bytes := c.mem.bytes 24 n

/-- `cmd->size / sizeof(struct admin_auth_policy)`, a division in 64 bits without sign. -/
def listSize (c : Inform) : ℤ := int32 (sizeT c.size / 80 : ℕ)

end Inform

/-- The commands that have a branch of their own. -/
inductive InformOrd
  | setAdminAuthPolicies
  | updateFileProtectPolicy
  | updateProcessIdentity
  | updateProcessRoles
  | setGlobalControlPolicy
  | setSignDMeasurePolicy
  | updateDmeasureProcessPolicy
  | updatePtraceProtectsPolicy
  | updateTncPolicy
deriving DecidableEq

/-- The numbers `TPCM_ORD_` of the commands. -/
def informOrds : List (ℕ × InformOrd) :=
  [(0x104B, .setAdminAuthPolicies), (0x1066, .updateFileProtectPolicy), (0x1040, .updateProcessIdentity),
    (0x1042, .updateProcessRoles), (0x1044, .setGlobalControlPolicy), (0x1021, .setSignDMeasurePolicy),
    (0x104E, .updateDmeasureProcessPolicy), (0x1054, .updatePtraceProtectsPolicy), (0x105B, .updateTncPolicy)]

/-- The branch of the `switch`, none for the default. -/
def informOrdOf (ord : ℕ) : Option InformOrd := informOrds.lookup ord

/-! ### The store -/

/-- The policies that the kernel keeps in buffers of their own. -/
inductive PolicySlot
  | adminAuth
  | processIds
  | processRoles
  | dmeasure
  | dmeasureProcess
  | ptraceProtect
  | tnc
deriving DecidableEq

/-- A policy in the store: its buffer, and the number of items and the size where the store has a
field for them. -/
structure SlotPolicy where
  buffer : Option Bytes
  num : Option ℤ
  size : Option ℤ

/-- `struct tcs_policy_management`. -/
structure PolicyMgmt where
  globalCtrlPolicy : Bytes
  stored : PolicySlot → SlotPolicy

/-- `gst_policy_mgmt`, none before it is initialized, and what has been copied out of commands. -/
structure KernelPolicies where
  mgmt : Option PolicyMgmt
  copies : List Access

/-- What `vmalloc` gives: nothing for no bytes, and nothing for as many as a negative number. -/
structure Vmalloc where
  gives : ℕ → Bool
  zero : gives 0 = false
  huge : ∀ n, 2 ^ 63 ≤ n → gives n = false

section Setters

variable (v : Vmalloc) (c : Inform) (s : KernelPolicies)

/-- What the setters of buffers have in common: `n` bytes are copied when `filled`. -/
def setPolicy (slot : PolicySlot) (filled : Bool) (n : ℕ) (num size : Option ℤ) :
    Option TssErr × KernelPolicies :=
  match s.mgmt with
  | none => (some .itemNotFound, s)
  | some m =>
      if filled then
        if ¬ v.gives n then (some .nomem, s)
        else
          (none, ⟨some { m with stored := Function.update m.stored slot ⟨some (c.policy n), num, size⟩ },
            ⟨24, n, c.length⟩ :: s.copies⟩)
      else (none, ⟨some { m with stored := Function.update m.stored slot ⟨none, num, size⟩ }, s.copies⟩)

/-- `tcs_util_set_admin_auth_policies`. -/
def tcsUtilSetAdminAuthPolicies (listSize : ℤ) : Option TssErr × KernelPolicies :=
  setPolicy v c s .adminAuth (listSize ≠ 0) (sizeT (80 * listSize)) (some listSize) none

/-- `tcs_util_set_process_ids`. -/
def tcsUtilSetProcessIds (num length : ℤ) : Option TssErr × KernelPolicies :=
  setPolicy v c s .processIds (length ≠ 0) (sizeT length) (some num) (some length)

/-- `tcs_util_set_process_roles`. -/
def tcsUtilSetProcessRoles (num length : ℤ) : Option TssErr × KernelPolicies :=
  setPolicy v c s .processRoles (length ≠ 0) (sizeT length) (some num) (some length)

/-- `tcs_util_set_global_control_policy`. -/
def tcsUtilSetGlobalControlPolicy : Option TssErr × KernelPolicies :=
  match s.mgmt with
  | none => (some .itemNotFound, s)
  | some m => (none, ⟨some { m with globalCtrlPolicy := c.policy 80 }, ⟨24, 80, c.length⟩ :: s.copies⟩)

/-- `tcs_util_set_dmeasure_policy`: the number decides how much is copied, the length whether. -/
def tcsUtilSetDmeasurePolicy (itemCount length : ℤ) : Option TssErr × KernelPolicies :=
  setPolicy v c s .dmeasure (length ≠ 0) (sizeT (40 * itemCount)) (some itemCount) (some length)

/-- `tcs_util_set_dmeasure_process_policy`. -/
def tcsUtilSetDmeasureProcessPolicy (itemCount length : ℤ) : Option TssErr × KernelPolicies :=
  setPolicy v c s .dmeasureProcess (length ≠ 0) (sizeT length) (some itemCount) (some length)

/-- `tcs_util_set_ptrace_protect_policy`. -/
def tcsUtilSetPtraceProtectPolicy (length : ℤ) : Option TssErr × KernelPolicies :=
  setPolicy v c s .ptraceProtect (length ≠ 0) (sizeT length) none (some length)

/-- `tcs_util_set_tnc_policy`. -/
def tcsUtilSetTncPolicy (length : ℤ) : Option TssErr × KernelPolicies :=
  setPolicy v c s .tnc (length ≠ 0) (sizeT length) none (some length)

/-- `tpcm_ioctl_inform_policy`, with `uiRspRet`. -/
def tpcmIoctlInformPolicy : Option TssErr × KernelPolicies :=
  match informOrdOf c.ord with
  | some .setAdminAuthPolicies => tcsUtilSetAdminAuthPolicies v c s c.listSize
  | some .updateFileProtectPolicy => (none, s)
  | some .updateProcessIdentity => tcsUtilSetProcessIds v c s c.num c.size
  | some .updateProcessRoles => tcsUtilSetProcessRoles v c s c.num c.size
  | some .setGlobalControlPolicy => tcsUtilSetGlobalControlPolicy c s
  | some .setSignDMeasurePolicy => tcsUtilSetDmeasurePolicy v c s c.num c.size
  | some .updateDmeasureProcessPolicy => tcsUtilSetDmeasureProcessPolicy v c s c.num c.size
  | some .updatePtraceProtectsPolicy => tcsUtilSetPtraceProtectPolicy v c s c.size
  | some .updateTncPolicy => tcsUtilSetTncPolicy v c s c.size
  | none => (some .itemNotFound, s)

end Setters

/-- A command on the store, with what `vmalloc` gives during it. -/
def informStep (s : KernelPolicies) (a : Vmalloc × Inform) : Option KernelPolicies :=
  some (tpcmIoctlInformPolicy a.1 a.2 s).2

/-! ### What the readers of the store rely on -/

/-- The bytes that the first `n` items of a buffer take, where the store has their number. -/
def itemsRoom (slot : PolicySlot) (b : Bytes) (n : ℕ) : ℕ :=
  let m : Mem := fun p => b.getD p 0
  match slot with
  | .adminAuth => 80 * n
  | .dmeasure => 40 * n
  | .processIds => walk (SizeWalk.identity.itemBytes m) n 0
  | .processRoles => walk (SizeWalk.role.itemBytes m) n 0
  | .dmeasureProcess => walk (fun p => align4 (10 + (m.ntohs (p + 8)).toNat)) n 0
  | .ptraceProtect => 0
  | .tnc => 0

/-- A stored policy is well formed: the buffer has the recorded size, the recorded items fit in it,
and there are none without a buffer. -/
structure SlotPolicy.WellFormed (slot : PolicySlot) (x : SlotPolicy) : Prop where
  size : ∀ n ∈ x.size, ((x.buffer.getD []).length : ℤ) = n
  items : ∀ n ∈ x.num, 0 ≤ n ∧ itemsRoom slot (x.buffer.getD []) n.toNat ≤ (x.buffer.getD []).length
  empty : x.buffer = none → ∀ n ∈ x.num, n = 0

/-- The store is well formed, and every copy was from inside its command. -/
structure KernelPolicies.WellFormed (s : KernelPolicies) : Prop where
  global : ∀ m ∈ s.mgmt, m.globalCtrlPolicy.length = 80
  stored : ∀ m ∈ s.mgmt, ∀ slot, (m.stored slot).WellFormed slot
  copies : Safe s.copies

/-- The numbers of a command agree: with no policy it has no items; a policy for which there is memory
is all in the command, and has room for its items. -/
def Inform.Consistent (v : Vmalloc) (c : Inform) : InformOrd → Prop
  | .setAdminAuthPolicies => v.gives (sizeT (80 * c.listSize)) = true → 24 + sizeT (80 * c.listSize) ≤ c.length
  | .updateFileProtectPolicy => True
  | .updateProcessIdentity => HasItems .processIds
  | .updateProcessRoles => HasItems .processRoles
  | .setGlobalControlPolicy => 24 + 80 ≤ c.length
  | .setSignDMeasurePolicy =>
      if c.size = 0 then c.num = 0
      else v.gives (sizeT (40 * c.num)) = true → 24 + sizeT (40 * c.num) ≤ c.length ∧ c.size = 40 * c.num
  | .updateDmeasureProcessPolicy => HasItems .dmeasureProcess
  | .updatePtraceProtectsPolicy => v.gives (sizeT c.size) = true → 24 + sizeT c.size ≤ c.length
  | .updateTncPolicy => v.gives (sizeT c.size) = true → 24 + sizeT c.size ≤ c.length
where
  /-- Items of varying size, as many as `num`. -/
  HasItems (slot : PolicySlot) : Prop :=
    if c.size = 0 then c.num = 0
    else v.gives (sizeT c.size) = true → 24 + sizeT c.size ≤ c.length ∧ 0 ≤ c.num ∧
      itemsRoom slot (c.policy (sizeT c.size)) c.num.toNat ≤ sizeT c.size

/-- The store is not there, or the command has no branch, or its numbers agree. -/
def InformOk (s : KernelPolicies) (a : Vmalloc × Inform) : Prop :=
  s.mgmt ≠ none → ∀ o ∈ informOrdOf a.2.ord, a.2.Consistent a.1 o

section Proofs

variable {v : Vmalloc} {c : Inform} {s : KernelPolicies} {m : PolicyMgmt} {slot : PolicySlot}

theorem int32_bounds (z : ℤ) : -2 ^ 31 ≤ int32 z ∧ int32 z < 2 ^ 31 := by
  have hlow := @Int.le_bmod z (2 ^ 32) (by decide)
  have hhigh := @Int.bmod_lt z (2 ^ 32) (by decide)
  unfold int32
  omega

theorem Vmalloc.gives_zero (v : Vmalloc) : v.gives (sizeT 0) = false := v.zero

/-- A length that `vmalloc` gives memory for is a positive number. -/
theorem Vmalloc.pos_of_gives {z : ℤ} (hlow : -2 ^ 62 ≤ z) (hhigh : z < 2 ^ 62)
    (h : v.gives (sizeT z) = true) : 0 < z ∧ (sizeT z : ℤ) = z := by
  have hsize : (sizeT z : ℤ) = z % 2 ^ 64 := Int.toNat_of_nonneg (Int.emod_nonneg _ (by decide))
  have hlt : sizeT z < 2 ^ 63 := by
    rcases Nat.lt_or_ge (sizeT z) (2 ^ 63) with hlt | hge
    · exact hlt
    · rw [v.huge _ hge] at h
      cases h
  have hne : sizeT z ≠ 0 := by
    intro h0
    rw [h0, v.zero] at h
    cases h
  omega

/-- A slot that gets another policy. -/
theorem wellFormed_update {x : SlotPolicy} {copies : List Access} (h : s.WellFormed) (hm : s.mgmt = some m)
    (hsafe : Safe copies) :
    (⟨some { m with stored := Function.update m.stored slot x }, copies⟩ : KernelPolicies).WellFormed ↔
      x.WellFormed slot := by
  constructor
  · intro hw
    have hx := hw.stored _ rfl slot
    simp only [Function.update_self] at hx
    exact hx
  · intro hx
    refine ⟨fun m' hm' => ?_, fun m' hm' slot' => ?_, hsafe⟩
    · obtain rfl := Option.some.inj hm'
      exact h.global m hm
    · obtain rfl := Option.some.inj hm'
      rcases eq_or_ne slot' slot with rfl | hne
      · simp only [Function.update_self]
        exact hx
      · simp only [Function.update_of_ne hne]
        exact h.stored m hm slot'

/-- **A setter of a buffer:** what was well formed stays so exactly when what is stored is, and it was
copied from inside the command. -/
theorem setPolicy_wellFormed_iff {filled : Bool} {n : ℕ} {num size : Option ℤ} (h : s.WellFormed)
    (hm : s.mgmt = some m) : (setPolicy v c s slot filled n num size).2.WellFormed ↔
      if filled then v.gives n = true → 24 + n ≤ c.length ∧
        SlotPolicy.WellFormed slot ⟨some (c.policy n), num, size⟩
      else SlotPolicy.WellFormed slot ⟨none, num, size⟩ := by
  unfold setPolicy
  rw [hm]
  cases filled with
  | false => exact wellFormed_update h hm h.copies
  | true =>
      simp only [if_true]
      cases hv : v.gives n with
      | false => simpa using h
      | true =>
          simp only [not_true_eq_false, if_false, true_imp_iff]
          constructor
          · intro hw
            have hsafe := safe_cons.mp hw.copies
            exact ⟨hsafe.1, (wellFormed_update h hm hw.copies).mp hw⟩
          · rintro ⟨hin, hx⟩
            exact (wellFormed_update h hm (safe_cons.mpr ⟨hin, h.copies⟩)).mpr hx

theorem wellFormed_none {num size : Option ℤ} :
    SlotPolicy.WellFormed slot ⟨none, num, size⟩ ↔ (∀ k ∈ size, k = 0) ∧ ∀ k ∈ num, k = 0 := by
  constructor
  · intro h
    exact ⟨fun k hk => (h.size k hk).symm, h.empty rfl⟩
  · rintro ⟨hsize, hnum⟩
    refine ⟨fun k hk => (hsize k hk).symm, fun k hk => ?_, fun _ => hnum⟩
    obtain rfl := hnum k hk
    refine ⟨le_rfl, ?_⟩
    cases slot <;> exact Nat.le_refl 0

theorem wellFormed_some {n : ℕ} {num size : Option ℤ} :
    SlotPolicy.WellFormed slot ⟨some (c.policy n), num, size⟩ ↔ (∀ k ∈ size, (n : ℤ) = k) ∧
      ∀ k ∈ num, 0 ≤ k ∧ itemsRoom slot (c.policy n) k.toNat ≤ n := by
  have hlen : (c.policy n).length = n := Mem.length_bytes ..
  constructor
  · intro h
    refine ⟨fun k hk => ?_, fun k hk => ?_⟩
    · rw [← h.size k hk, Option.getD_some, hlen]
    · have hitems := h.items k hk
      rwa [Option.getD_some, hlen] at hitems
  · rintro ⟨hsize, hnum⟩
    refine ⟨fun k hk => ?_, fun k hk => ?_, fun hnone => by cases hnone⟩
    · rw [← hsize k hk, Option.getD_some, hlen]
    · rw [Option.getD_some, hlen]
      exact hnum k hk

/-- The setters whose items vary in size. -/
theorem setItems_wellFormed_iff (h : s.WellFormed) (hm : s.mgmt = some m) :
    (setPolicy v c s slot (c.size ≠ 0) (sizeT c.size) (some c.num) (some c.size)).2.WellFormed ↔
      Inform.Consistent.HasItems v c slot := by
  obtain ⟨hlow, hhigh⟩ := int32_bounds (ofHost (c.mem.bytes 16 4))
  rw [setPolicy_wellFormed_iff h hm, wellFormed_none, wellFormed_some, Inform.Consistent.HasItems]
  by_cases h0 : c.size = 0
  · simp [h0]
  · simp only [h0, ne_eq, not_false_eq_true, decide_true, if_true, if_false, Option.mem_some_iff,
      forall_eq']
    refine forall_congr' fun hv => and_congr_right fun _ => and_iff_right ?_
    exact (Vmalloc.pos_of_gives (z := c.size) (by unfold Inform.size; omega) (by unfold Inform.size; omega) hv).2

/-- The setters that store a size and no number. -/
theorem setSize_wellFormed_iff (h : s.WellFormed) (hm : s.mgmt = some m) :
    (setPolicy v c s slot (c.size ≠ 0) (sizeT c.size) none (some c.size)).2.WellFormed ↔
      (v.gives (sizeT c.size) = true → 24 + sizeT c.size ≤ c.length) := by
  obtain ⟨hlow, hhigh⟩ := int32_bounds (ofHost (c.mem.bytes 16 4))
  rw [setPolicy_wellFormed_iff h hm, wellFormed_none, wellFormed_some]
  by_cases h0 : c.size = 0
  · simp [h0, v.gives_zero]
  · simp only [h0, ne_eq, not_false_eq_true, decide_true, if_true, Option.mem_some_iff, forall_eq',
      Option.not_mem_none, false_imp_iff, implies_true, and_true]
    refine forall_congr' fun hv => and_iff_left ?_
    exact (Vmalloc.pos_of_gives (z := c.size) (by unfold Inform.size; omega) (by unfold Inform.size; omega) hv).2

/-- The administrators' policies: the number is the size divided by that of an item. -/
theorem setAdminAuth_wellFormed_iff (h : s.WellFormed) (hm : s.mgmt = some m) :
    (tcsUtilSetAdminAuthPolicies v c s c.listSize).2.WellFormed ↔
      (v.gives (sizeT (80 * c.listSize)) = true → 24 + sizeT (80 * c.listSize) ≤ c.length) := by
  obtain ⟨hlow, hhigh⟩ := int32_bounds (sizeT c.size / 80 : ℕ)
  rw [tcsUtilSetAdminAuthPolicies, setPolicy_wellFormed_iff h hm, wellFormed_none, wellFormed_some]
  by_cases h0 : c.listSize = 0
  · simp [h0, v.gives_zero]
  · simp only [h0, ne_eq, not_false_eq_true, decide_true, if_true, Option.mem_some_iff, forall_eq',
      Option.not_mem_none, false_imp_iff, implies_true, true_and]
    refine forall_congr' fun hv => and_iff_left ?_
    obtain ⟨hpos, hsize⟩ := Vmalloc.pos_of_gives (z := 80 * c.listSize)
      (by unfold Inform.listSize; omega) (by unfold Inform.listSize; omega) hv
    refine ⟨by omega, ?_⟩
    change 80 * c.listSize.toNat ≤ sizeT (80 * c.listSize)
    omega

/-- The policy of the dynamic measurement: the number must be that of the length. -/
theorem setDmeasure_wellFormed_iff (h : s.WellFormed) (hm : s.mgmt = some m) :
    (tcsUtilSetDmeasurePolicy v c s c.num c.size).2.WellFormed ↔ c.Consistent v .setSignDMeasurePolicy := by
  obtain ⟨hlow, hhigh⟩ := int32_bounds (ofHost (c.mem.bytes 20 4))
  rw [tcsUtilSetDmeasurePolicy, setPolicy_wellFormed_iff h hm, wellFormed_none, wellFormed_some,
    Inform.Consistent]
  by_cases h0 : c.size = 0
  · simp [h0]
  · simp only [h0, ne_eq, not_false_eq_true, decide_true, if_true, if_false, Option.mem_some_iff,
      forall_eq']
    refine forall_congr' fun hv => and_congr_right fun _ => ?_
    obtain ⟨hpos, hsize⟩ := Vmalloc.pos_of_gives (z := 40 * c.num) (by unfold Inform.num; omega)
      (by unfold Inform.num; omega) hv
    have hroom : 0 ≤ c.num ∧ 40 * c.num.toNat ≤ sizeT (40 * c.num) := by omega
    exact ⟨fun hstored => hstored.1.symm.trans hsize, fun hlen => ⟨hsize.trans hlen.symm, hroom⟩⟩

theorem setGlobalControl_wellFormed_iff (h : s.WellFormed) (hm : s.mgmt = some m) :
    (tcsUtilSetGlobalControlPolicy c s).2.WellFormed ↔ 24 + 80 ≤ c.length := by
  rw [tcsUtilSetGlobalControlPolicy, hm]
  constructor
  · exact fun hw => (safe_cons.mp hw.copies).1
  · refine fun hin => ⟨fun m' hm' => ?_, fun m' hm' => ?_, safe_cons.mpr ⟨hin, h.copies⟩⟩
    · obtain rfl := Option.some.inj hm'
      exact Mem.length_bytes ..
    · obtain rfl := Option.some.inj hm'
      exact h.stored m hm

/-- Before it is initialized no command changes the store. -/
theorem tpcmIoctlInformPolicy_of_none (hm : s.mgmt = none) : (tpcmIoctlInformPolicy v c s).2 = s := by
  unfold tpcmIoctlInformPolicy
  split <;> simp [tcsUtilSetAdminAuthPolicies, tcsUtilSetProcessIds, tcsUtilSetProcessRoles,
    tcsUtilSetGlobalControlPolicy, tcsUtilSetDmeasurePolicy, tcsUtilSetDmeasureProcessPolicy,
    tcsUtilSetPtraceProtectPolicy, tcsUtilSetTncPolicy, setPolicy, hm]

/-- **One command** keeps the store well formed, and is copied from inside, exactly when its numbers
agree. -/
theorem tpcmIoctlInformPolicy_wellFormed_iff (h : s.WellFormed) :
    (tpcmIoctlInformPolicy v c s).2.WellFormed ↔ InformOk s (v, c) := by
  cases hm : s.mgmt with
  | none =>
      rw [tpcmIoctlInformPolicy_of_none hm]
      exact iff_of_true h fun hne => absurd hm hne
  | some m =>
      have hok : InformOk s (v, c) ↔ ∀ o ∈ informOrdOf c.ord, c.Consistent v o := by
        rw [InformOk, hm]
        simp
      rw [hok, tpcmIoctlInformPolicy]
      cases informOrdOf c.ord with
      | none => simpa using h
      | some o =>
          simp only [Option.mem_some_iff, forall_eq']
          cases o with
          | setAdminAuthPolicies => exact setAdminAuth_wellFormed_iff h hm
          | updateFileProtectPolicy => exact iff_of_true h trivial
          | updateProcessIdentity => exact setItems_wellFormed_iff h hm
          | updateProcessRoles => exact setItems_wellFormed_iff h hm
          | setGlobalControlPolicy => exact setGlobalControl_wellFormed_iff h hm
          | setSignDMeasurePolicy => exact setDmeasure_wellFormed_iff h hm
          | updateDmeasureProcessPolicy => exact setItems_wellFormed_iff h hm
          | updatePtraceProtectsPolicy => exact setSize_wellFormed_iff h hm
          | updateTncPolicy => exact setSize_wellFormed_iff h hm

end Proofs

/-- **When the kernel's store stays well formed.**  From any well formed store and for every sequence of
commands, with any bytes, and whatever `vmalloc` gives: the store is well formed after every command, and
every byte was copied from inside its command, exactly when the numbers of every command agree. -/
theorem kernel_policies_well_formed_iff (s : KernelPolicies) (h : s.WellFormed) (as : List (Vmalloc × Inform)) :
    (∀ as₁ as₂, as = as₁ ++ as₂ → ∃ s', Run.run informStep s as₁ = some s' ∧ s'.WellFormed) ↔
      Run.Meets informStep InformOk s as := by
  refine Run.forall_prefix_iff_meets (fun s a hs => ?_) h
  rw [← tpcmIoctlInformPolicy_wellFormed_iff hs, informStep]
  simp

/-- A store without policies. -/
def KernelPolicies.empty : KernelPolicies where
  mgmt := some ⟨List.replicate 80 0, fun
    | .adminAuth => ⟨none, some 0, none⟩
    | .ptraceProtect => ⟨none, none, some 0⟩
    | .tnc => ⟨none, none, some 0⟩
    | _ => ⟨none, some 0, some 0⟩⟩
  copies := []

/-- A command with this policy. -/
def Inform.of (ord size num : ℕ) (policy : Bytes) : Inform where
  mem := fun p => (List.replicate 12 0 ++ hostBytes 4 ord ++ hostBytes 4 size ++ hostBytes 4 num ++ policy).getD p 0
  length := 24 + policy.length

/-- A machine with a megabyte. -/
def Vmalloc.megabyte : Vmalloc where
  gives n := decide (0 < n ∧ n < 2 ^ 20)
  zero := by decide
  huge n hn := decide_eq_false (by omega)

theorem KernelPolicies.empty_wellFormed : KernelPolicies.empty.WellFormed where
  global m hm := by
    obtain rfl := Option.some.inj hm
    rfl
  stored m hm slot := by
    obtain rfl := Option.some.inj hm
    cases slot <;> exact wellFormed_none.mpr (by simp)
  copies := safe_nil

/-- One item of 40 bytes, with the numbers that it should have. -/
theorem kernel_policies_well_formed_of_one_item :
    ∃ s', Run.run informStep .empty [(Vmalloc.megabyte, Inform.of 0x1021 40 1 (List.replicate 40 0))] = some s' ∧
      s'.WellFormed := by
  refine (kernel_policies_well_formed_iff .empty KernelPolicies.empty_wellFormed
    [(Vmalloc.megabyte, Inform.of 0x1021 40 1 (List.replicate 40 0))]).mpr
    ⟨fun _ o ho => ?_, fun _ _ => trivial⟩ _ [] (List.append_nil _).symm
  have hord : informOrdOf (Inform.of 0x1021 40 1 (List.replicate 40 0)).ord = some .setSignDMeasurePolicy := by
    decide
  have hsize : (Inform.of 0x1021 40 1 (List.replicate 40 0)).size = 40 := by decide
  have hnum : (Inform.of 0x1021 40 1 (List.replicate 40 0)).num = 1 := by decide
  obtain rfl := Option.some.inj (hord.symm.trans ho)
  rw [Inform.Consistent, hsize, hnum, if_neg (by decide)]
  exact fun _ => ⟨by decide, by decide⟩

/-- **A store that is not well formed:** three identities without a buffer, and a global control policy
copied from behind the end of its command. -/
theorem kernel_policies_not_well_formed :
    (∃ s', Run.run informStep .empty [(Vmalloc.megabyte, Inform.of 0x1040 0 3 [])] = some s' ∧
      ¬ ∀ m ∈ s'.mgmt, ∀ slot, (m.stored slot).WellFormed slot) ∧
    ∃ s', Run.run informStep .empty [(Vmalloc.megabyte, Inform.of 0x1044 80 1 [])] = some s' ∧
      ¬ Safe s'.copies := by
  refine ⟨⟨_, rfl, fun h => ?_⟩, ⟨_, rfl, by decide⟩⟩
  have hids := (h _ rfl .processIds).empty (by decide) 3 (by decide)
  exact absurd hids (by decide)

end Tcs
end TsbAgent
