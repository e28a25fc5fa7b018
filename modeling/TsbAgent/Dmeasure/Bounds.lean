/-
# The bytes that the measurement ioctls touch

`parse_add_policy_dmeasure_process`, `parse_del_policy_dmeasure_process`, the ioctl that calls them and
`ioctl_dmeasure_user_interface` of `tsb/kernel/dmeasure/policy/policy_dmeasure.c`, watched at their bounds
like those of `TsbAgent.ProcessIdentity.Bounds`.

| access | bytes | guarded by |
| --- | --- | --- |
| header of an item, converted in place | 10 | that a byte is left |
| object id | `be_object_id_length` | nothing |
| `object_ids[512]`, written | `be_object_id_length` | nothing |
| `object_ids`, printed | up to a terminator | that a policy was found, and the debug mode |
| `name[512]` and `pid`, written | the length of the request | nothing |

`ioctls_in_bounds_iff` is about all six functions.  A loop goes on as long as something is left, so it
is about every number of rounds.
-/

import TsbAgent.Dmeasure.Policy
import TsbAgent.ProcessIdentity.Bounds

namespace TsbAgent
namespace Dmeasure
namespace Bounds

open Libc Word FileIntegrity Codec Bounded ProcessIdentity ProcessIdentity.Bounds

/-! ### Items -/

/-- `be_object_id_length`. -/
def idLength (c : Cursor ProcessPolicy) : ℕ := netAt c.item 8 2

/-- `object_id`. -/
def idOf (c : Cursor ProcessPolicy) : Bytes := (itemAt c.item).objectId

/-- What the list and the pointer are after an addition. -/
def afterAdd (f : DmeasureFeatureConf) (c : Cursor ProcessPolicy) : Cursor ProcessPolicy :=
  c.next [(4, 4), (8, 2)] (10 + idLength c) (addProcessPolicy c.list (newPolicy f (itemAt c.item)))

/-- A round of `parse_add_policy_dmeasure_process`. -/
def addRound (f : DmeasureFeatureConf) (kz : ℕ → ℕ → Bool) (c : Cursor ProcessPolicy) :
    Except (Failure ℤ) (Cursor ProcessPolicy) := do
  let _ ← read c.p c.pItem 10
  malloc (kz c.round 0) (idLength c + 1) (-1)
  let _ ← copy c.p (c.pItem + 10) (idLength c) (idLength c + 1)
  pure (afterAdd f c)

/-- `parse_add_policy_dmeasure_process`, up to a number of rounds. -/
def parseAddPolicyDmeasureProcess (f : DmeasureFeatureConf) (kz : ℕ → ℕ → Bool) (list : List ProcessPolicy)
    (p : Bytes) (length : ℤ) (rounds : ℕ) : Except (Failure ℤ) (Cursor ProcessPolicy) :=
  repeatWhile Cursor.Left (addRound f kz) rounds (.start list p length)

/-- What the list and the pointer are after a deletion. -/
def afterDel (c : Cursor ProcessPolicy) : Cursor ProcessPolicy :=
  c.next [(8, 2)] (10 + idLength c) (delProcessPolicy c.list (itemAt c.item))

/-- `object_ids` is printed. -/
def Printed (debug : Bool) (c : Cursor ProcessPolicy) : Prop :=
  debug = true ∧ c.list.any (itemAt c.item).names = true

instance (debug : Bool) (c : Cursor ProcessPolicy) : Decidable (Printed debug c) :=
  inferInstanceAs (Decidable (_ ∧ _))

/-- A round of `parse_del_policy_dmeasure_process`; `debug` says whether `LOG_MODE` lets debug messages
pass. -/
def delRound (debug : Bool) (c : Cursor ProcessPolicy) : Except (Failure ℤ) (Cursor ProcessPolicy) := do
  let _ ← read c.p c.pItem 10
  let id ← copy c.p (c.pItem + 10) (idLength c) 512
  -- `object_ids` is zero behind the copy
  needs (Printed debug c → Ends (id ++ List.replicate (512 - id.length) 0) 0)
  pure (afterDel c)

/-- `parse_del_policy_dmeasure_process`, up to a number of rounds. -/
def parseDelPolicyDmeasureProcess (debug : Bool) (list : List ProcessPolicy) (p : Bytes) (length : ℤ)
    (rounds : ℕ) : Except (Failure ℤ) (Cursor ProcessPolicy) :=
  repeatWhile Cursor.Left (delRound debug) rounds (.start list p length)

/-- The node for the item is allocated. -/
def AddGranted (kz : ℕ → ℕ → Bool) (c : Cursor ProcessPolicy) : Prop := kz c.round 0 = true

/-- The item lies in the buffer, its object id as far as there is memory. -/
def AddFits (kz : ℕ → ℕ → Bool) (c : Cursor ProcessPolicy) : Prop :=
  c.Holds 10 ∧ (AddGranted kz c → c.Holds (10 + idLength c))

/-- The item lies in the buffer and its object id in `object_ids`, with a terminator when it is
printed. -/
def DelFits (debug : Bool) (c : Cursor ProcessPolicy) : Prop :=
  c.Holds (10 + idLength c) ∧ idLength c ≤ 512 ∧ (Printed debug c → idLength c = 512 → (0 : UInt8) ∈ idOf c)

/-- The object id lies in the buffer when the item does. -/
theorem holds_id {c : Cursor ProcessPolicy} {room : ℤ} (hin : c.Holds 10) :
    Inside c.p (c.pItem + 10) (idLength c) ∧ (idLength c : ℤ) ≤ room ↔
      c.Holds (10 + idLength c) ∧ (idLength c : ℤ) ≤ room := by
  unfold Inside Cursor.Holds at *
  omega

/-- What is copied is the object id. -/
theorem fieldAt_id {c : Cursor ProcessPolicy} (hin : c.Holds (10 + idLength c)) (hpos : 0 ≤ c.pItem) :
    fieldAt c.p (c.pItem + 10).toNat (idLength c : ℤ).toNat = idOf c := by
  have hoff : (c.pItem + 10).toNat = c.pItem.toNat + 10 := by omega
  have hlen : idLength c ≤ ((c.p.drop c.pItem.toNat).drop 10).length := by
    rw [List.length_drop, List.length_drop]
    unfold Cursor.Holds at hin
    omega
  have hid : idOf c = ((c.p.drop c.pItem.toNat).drop 10).takeD (idLength c) 0 := rfl
  rw [hid, List.takeD_eq_take _ hlen, fieldAt, hoff, Int.toNat_natCast, List.drop_drop]

/-- A copy in `object_ids` ends there, or fills it. -/
theorem ends_copy {id : Bytes} (h : id.length ≤ 512) :
    Ends (id ++ List.replicate (512 - id.length) 0) 0 ↔ (id.length = 512 → (0 : UInt8) ∈ id) := by
  rw [Ends, Int.toNat_zero, List.drop_zero, List.mem_append, List.mem_replicate]
  constructor
  · rintro ⟨-, hid | hzero⟩ hfull
    · exact hid
    · omega
  · intro hid
    refine ⟨le_rfl, ?_⟩
    rcases eq_or_ne id.length 512 with hfull | hfull
    · exact .inl (hid hfull)
    · exact .inr ⟨by omega, rfl⟩

/-- **A round over an item that is added.** -/
theorem round_add (f : DmeasureFeatureConf) (kz : ℕ → ℕ → Bool) :
    Round (addRound f kz) (AddFits kz) (AddGranted kz) (afterAdd f) := by
  intro c Q
  have hhead : Inside c.p c.pItem (10 : ℕ) ↔ c.Holds 10 := inside_iff (by decide)
  rw [addRound, meets_bind, meets_read, hhead, meets_bind, meets_malloc, meets_bind, meets_copy, meets_pure,
    AddFits]
  constructor
  · rintro ⟨hin, hrest⟩
    have hall (hg : AddGranted kz c) := hrest hg (by omega)
    exact ⟨⟨hin, fun hg => ((holds_id hin).mp (hall hg).1).1⟩, fun hg => (hall hg).2⟩
  · rintro ⟨⟨hin, hfits⟩, hq⟩
    exact ⟨hin, fun hg _ => ⟨(holds_id hin).mpr ⟨hfits hg, by omega⟩, hq hg⟩⟩

/-- **A round over an item that is deleted.** -/
theorem round_del (debug : Bool) :
    Round (delRound debug) (DelFits debug) (fun _ => True) afterDel := by
  intro c Q
  have hhead : Inside c.p c.pItem (10 : ℕ) ↔ c.Holds 10 := inside_iff (by decide)
  have hlength : (idOf c).length = idLength c := (itemAt c.item).length_objectId
  rw [delRound, meets_bind, meets_read, hhead, meets_bind, meets_copy, meets_bind, meets_needs, meets_pure,
    DelFits, forall_true_left]
  constructor
  · rintro ⟨hin, hcopy, hprinted, hq⟩
    obtain ⟨hfits, hroom⟩ := (holds_id hin).mp hcopy
    rw [fieldAt_id hfits hin.1, ends_copy (by omega), hlength] at hprinted
    exact ⟨⟨hfits, by omega, hprinted⟩, hq⟩
  · rintro ⟨⟨hfits, hroom, hprinted⟩, hq⟩
    have hin : c.Holds 10 := by
      unfold Cursor.Holds at hfits ⊢
      omega
    rw [fieldAt_id hfits hin.1, ends_copy (by omega), hlength]
    exact ⟨hin, (holds_id hin).mpr ⟨hfits, by omega⟩, hprinted, hq⟩

/-- **When items are added inside their buffer:** every item that the loop comes to lies in it. -/
theorem parse_add_iff {f : DmeasureFeatureConf} {kz : ℕ → ℕ → Bool} {list : List ProcessPolicy} {p : Bytes}
    {length : ℤ} : (∀ n, Meets (parseAddPolicyDmeasureProcess f kz list p length n) fun _ => True) ↔
      ∀ c, Comes Cursor.Left (AddGranted kz) (afterAdd f) (.start list p length) c → c.Left → AddFits kz c :=
  meets_repeatWhile (round_add f kz)

/-- **When items are deleted inside their buffers.** -/
theorem parse_del_iff {debug : Bool} {list : List ProcessPolicy} {p : Bytes} {length : ℤ} :
    (∀ n, Meets (parseDelPolicyDmeasureProcess debug list p length n) fun _ => True) ↔
      ∀ c, Comes Cursor.Left (fun _ => True) afterDel (.start list p length) c → c.Left → DelFits debug c :=
  meets_repeatWhile (round_del debug)

/-! ### The ioctls -/

/-- `tsb_measure_kernel_memory`, `tsb_measure_kernel_memory_all` and `tsb_measure_process`. -/
structure Measures where
  kernelMemory : CStr → ℤ
  kernelMemoryAll : ℤ
  process : ℕ → ℤ

/-- Everything a call finds: the answers of `kzalloc` and `vmalloc`, `LOG_MODE`, the defaults, what `pid`
held before it was copied, and what the functions behind the ioctls say. -/
structure Env where
  kz : ℕ → ℕ → Bool
  vmalloc : Bool
  debug : Bool
  feature : DmeasureFeatureConf
  stack : Bytes
  measures : Measures
  identities : Identities

/-- A result that is not looked at. -/
def ignoring {α : Type} (x : Except (Failure ℤ) α) : Except (Failure ℤ) ℤ :=
  match x with
  | .error .fault => .error .fault
  | _ => pure 0

/-- `struct tsb_general_policy`, with the memory that can be read at `data`. -/
structure GeneralPolicy where
  length : ℤ
  data : Bytes

/-- `dmeasure_process_add_del_policy`; the parameter is `none` when it cannot be copied. -/
def dmeasureProcessAddDelPolicy (env : Env) (list : List ProcessPolicy) (operate : ℤ)
    (param : Option GeneralPolicy) (rounds : ℕ) : Except (Failure ℤ) ℤ :=
  match param with
  | none => .error (.error (-1))
  | some q => do
      let buff ← request env.vmalloc q.length q.data
      if operate = 1 then
        ignoring (parseAddPolicyDmeasureProcess env.feature env.kz list buff q.length rounds)
      else ignoring (parseDelPolicyDmeasureProcess env.debug list buff q.length rounds)

/-- The case `TYPE_DMEASURE_KERNEL_MEMORY`: `name` is zero behind the copy. -/
def Env.kernelMemory (env : Env) (q : UserInterfaceParameter) : Except (Failure ℤ) ℤ := do
  match ← copyFromUser q.data q.length 512 with
  | none => .error (.error tsbErrorSystem)
  | some got =>
      let name ← readText (got ++ List.replicate (512 - got.length) 0) 0
      pure (env.measures.kernelMemory name)

/-- The case `TYPE_DMEASURE_PROCESS`. -/
def Env.process (env : Env) (q : UserInterfaceParameter) : Except (Failure ℤ) ℤ := do
  match ← copyFromUser q.data q.length 4 with
  | none => .error (.error tsbErrorSystem)
  | some got => pure (env.measures.process (hostAt (got ++ env.stack.drop got.length) 0 4))

/-- `ioctl_dmeasure_user_interface`. -/
def ioctlDmeasureUserInterface (env : Env) (param : Option UserInterfaceParameter) : Except (Failure ℤ) ℤ :=
  match param with
  | none => .error (.error (-1))
  | some q =>
      if q.type = 1 then env.kernelMemory q
      else if q.type = 2 then pure env.measures.kernelMemoryAll
      else if q.type = 3 then env.process q
      else pure tsbMeasureFaile

/-- The length of the request fits in the variable, and the name ends in it. -/
def InterfaceFits (q : UserInterfaceParameter) : Prop :=
  (q.type = 1 → 0 ≤ q.length ∧ q.length ≤ 512 ∧
    (q.length = 512 → 512 ≤ q.data.length → (0 : UInt8) ∈ q.data.take 512)) ∧
  (q.type = 3 → 0 ≤ q.length ∧ q.length ≤ 4)

theorem meets_ignoring {α : Type} {x : Except (Failure ℤ) α} :
    Meets (ignoring x) (fun _ => True) ↔ Meets x fun _ => True := by
  cases x with
  | ok a => exact Iff.rfl
  | error e =>
      cases e with
      | error e => exact Iff.rfl
      | fault => exact Iff.rfl

/-- What is copied into `name` ends there. -/
theorem meets_kernelMemory {env : Env} {q : UserInterfaceParameter} :
    Meets (env.kernelMemory q) (fun _ => True) ↔ 0 ≤ q.length ∧ q.length ≤ 512 ∧
      (q.length = 512 → 512 ≤ q.data.length → (0 : UInt8) ∈ q.data.take 512) := by
  rw [Env.kernelMemory, meets_bind, meets_copyFromUser, and_assoc]
  refine and_congr_right fun hnonneg => and_congr_right fun hroom => ?_
  rcases em (q.length ≤ q.data.length) with hlen | hlen
  · have hgot : (q.data.take q.length.toNat).length = q.length.toNat := List.length_take_of_le (by omega)
    rw [if_pos hlen, meets_bind, meets_readText, ends_copy (by omega), hgot, meets_pure, and_true]
    constructor
    · intro h hfull _
      have hmem := h (by omega)
      rwa [hfull] at hmem
    · intro h hfull
      rw [hfull]
      exact h (by omega) (by omega)
  · rw [if_neg hlen]
    exact iff_of_true trivial fun hfull hdata => absurd (by omega) hlen

/-- What is copied into `pid` fits there. -/
theorem meets_process {env : Env} {q : UserInterfaceParameter} :
    Meets (env.process q) (fun _ => True) ↔ 0 ≤ q.length ∧ q.length ≤ 4 := by
  rw [Env.process, meets_bind, meets_copyFromUser]
  refine and_iff_left ?_
  split_ifs with hlen
  · trivial
  · trivial

theorem forall_some_iff {α : Type} {a : α} {P : α → Prop} : (∀ b, some a = some b → P b) ↔ P a :=
  ⟨fun h => h a rfl, fun h _ hb => Option.some.inj hb ▸ h⟩

/-- **When the measurement ioctl stays in its variables.** -/
theorem dmeasure_interface_iff {env : Env} {param : Option UserInterfaceParameter} :
    Meets (ioctlDmeasureUserInterface env param) (fun _ => True) ↔ ∀ q, param = some q → InterfaceFits q := by
  cases param with
  | none => exact iff_of_true trivial fun q h => by cases h
  | some q =>
      rw [forall_some_iff, ioctlDmeasureUserInterface, InterfaceFits]
      split_ifs with h1 h2 h3
      · rw [meets_kernelMemory]
        exact ⟨fun h => ⟨fun _ => h, fun h3 => absurd (h1.symm.trans h3) (by decide)⟩, fun h => h.1 h1⟩
      · exact iff_of_true trivial ⟨fun h => absurd h h1, fun h3 => absurd (h2.symm.trans h3) (by decide)⟩
      · rw [meets_process]
        exact ⟨fun h => ⟨fun h => absurd h h1, fun _ => h⟩, fun h => h.2 h3⟩
      · exact iff_of_true trivial ⟨fun h => absurd h h1, fun h => absurd h h3⟩

/-- **When the ioctl that adds and deletes stays in its buffers:** the bytes it has copied are parsed
inside them. -/
theorem add_del_policy_iff {env : Env} {list : List ProcessPolicy} {operate : ℤ} {param : Option GeneralPolicy} :
    (∀ n, Meets (dmeasureProcessAddDelPolicy env list operate param n) fun _ => True) ↔
      ∀ q, param = some q → env.vmalloc = true → 0 < q.length → q.length ≤ q.data.length →
        if operate = 1 then
          ∀ c, Comes Cursor.Left (AddGranted env.kz) (afterAdd env.feature)
            (.start list (q.data.take q.length.toNat) q.length) c → c.Left → AddFits env.kz c
        else
          ∀ c, Comes Cursor.Left (fun _ => True) afterDel (.start list (q.data.take q.length.toNat) q.length) c →
            c.Left → DelFits env.debug c := by
  cases param with
  | none => exact iff_of_true (fun _ => trivial) fun q h => by cases h
  | some q =>
      rw [forall_some_iff]
      simp only [dmeasureProcessAddDelPolicy, meets_bind, meets_request]
      rcases eq_or_ne operate 1 with hop | hop
      · simp only [if_pos hop, meets_ignoring, ← parse_add_iff]
        exact ⟨fun h hv hpos hlen n => h n hv hpos hlen, fun h n hv hpos hlen => h hv hpos hlen n⟩
      · simp only [if_neg hop, meets_ignoring, ← parse_del_iff]
        exact ⟨fun h hv hpos hlen n => h n hv hpos hlen, fun h n hv hpos hlen => h hv hpos hlen n⟩

/-! ### All six -/

/-- A call of one of the functions, with the list it finds and its arguments. -/
inductive Call
  | parsePolicyProcessIds (list : List ProcessIdentityUser) (p : Bytes) (length : ℤ)
  | parsePolicyProcessRoles (list : List ProcessRoleUser) (p : Bytes) (length : ℤ)
  | parseAddPolicyDmeasureProcess (list : List ProcessPolicy) (p : Bytes) (length : ℤ)
  | parseDelPolicyDmeasureProcess (list : List ProcessPolicy) (p : Bytes) (length : ℤ)
  | ioctlDmeasureUserInterface (param : Option UserInterfaceParameter)
  | ioctlProcessIdentityUserInterface (param : Option UserInterfaceParameter)

/-- **The call stays in bounds:** for any number of rounds, all that it reads is in the bytes given, all
that it copies fits, and the strings it uses end. -/
def Call.InBounds (env : Env) : Call → Prop
  | .parsePolicyProcessIds list p length =>
      ∀ n, Meets (Bounds.parsePolicyProcessIds env.kz list p length n) fun _ => True
  | .parsePolicyProcessRoles list p length =>
      ∀ n, Meets (Bounds.parsePolicyProcessRoles env.kz list p length n) fun _ => True
  | .parseAddPolicyDmeasureProcess list p length =>
      ∀ n, Meets (Bounds.parseAddPolicyDmeasureProcess env.feature env.kz list p length n) fun _ => True
  | .parseDelPolicyDmeasureProcess list p length =>
      ∀ n, Meets (Bounds.parseDelPolicyDmeasureProcess env.debug list p length n) fun _ => True
  | .ioctlDmeasureUserInterface param => Meets (Bounds.ioctlDmeasureUserInterface env param) fun _ => True
  | .ioctlProcessIdentityUserInterface param =>
      Meets (Bounds.ioctlProcessIdentityUserInterface env.identities param) fun _ => True

/-- Every item that a loop comes to lies in the bytes given; a request fits where it is copied, and its
strings end. -/
def Call.Fits (env : Env) : Call → Prop
  | .parsePolicyProcessIds list p length =>
      ∀ c, Comes Cursor.Left (Cursor.IdentityGranted env.kz) Cursor.afterIdentity (.start list p length) c →
        c.Left → c.IdentityFits env.kz
  | .parsePolicyProcessRoles list p length =>
      ∀ c, Comes Cursor.Left (Cursor.RoleGranted env.kz) Cursor.afterRole (.start list p length) c →
        c.Left → c.RoleFits env.kz
  | .parseAddPolicyDmeasureProcess list p length =>
      ∀ c, Comes Cursor.Left (AddGranted env.kz) (afterAdd env.feature) (.start list p length) c →
        c.Left → AddFits env.kz c
  | .parseDelPolicyDmeasureProcess list p length =>
      ∀ c, Comes Cursor.Left (fun _ => True) afterDel (.start list p length) c → c.Left → DelFits env.debug c
  | .ioctlDmeasureUserInterface param => ∀ q, param = some q → InterfaceFits q
  | .ioctlProcessIdentityUserInterface param => ∀ q, param = some q → env.identities.Fits q

/-- **When the ioctls stay in bounds:** for whatever they find and are given. -/
theorem ioctls_in_bounds_iff (env : Env) (c : Call) : c.InBounds env ↔ c.Fits env := by
  cases c with
  | parsePolicyProcessIds list p length => exact parse_ids_iff
  | parsePolicyProcessRoles list p length => exact parse_roles_iff
  | parseAddPolicyDmeasureProcess list p length => exact parse_add_iff
  | parseDelPolicyDmeasureProcess list p length => exact parse_del_iff
  | ioctlDmeasureUserInterface param => exact dmeasure_interface_iff
  | ioctlProcessIdentityUserInterface param => exact identity_interface_iff

/-- A kernel that grants everything, with empty lists. -/
def granting : Env where
  kz := fun _ _ => true
  vmalloc := true
  debug := false
  feature := ⟨0, 0, 0, 0⟩
  stack := [0, 0, 0, 0]
  measures := ⟨fun _ => 0, 0, fun _ => 0⟩
  identities := ⟨⟨[], .noLib, fun _ => false⟩, [], false, ⟨none, []⟩, fun _ => none, true⟩

/-- **None of the six stays in bounds for every buffer:** headers that announce a hash, a member, an object
id that is not there; an object id of 513 bytes; a request of 513 bytes for `name` and of 5 for `pid`; and
a role without a terminator. -/
theorem six_out_of_bounds :
    ¬ Call.InBounds granting (.parsePolicyProcessIds [] [0, 0, 0, 32, 0, 0] 6) ∧
    ¬ Call.InBounds granting (.parsePolicyProcessRoles [] [0, 0, 0, 0, 0, 0, 0, 0, 0, 0, 0, 1] 12) ∧
    ¬ Call.InBounds granting (.parseAddPolicyDmeasureProcess [] [0, 0, 0, 0, 0, 0, 0, 0, 0, 1] 10) ∧
    ¬ Call.InBounds granting (.parseDelPolicyDmeasureProcess []
      ([0, 0, 0, 0, 0, 0, 0, 0, 2, 1] ++ List.replicate 514 97) 524) ∧
    ¬ Call.InBounds granting (.ioctlDmeasureUserInterface (some ⟨1, 513, List.replicate 513 97⟩)) ∧
    ¬ Call.InBounds granting (.ioctlDmeasureUserInterface (some ⟨3, 5, List.replicate 5 0⟩)) ∧
    ¬ Call.InBounds granting (.ioctlProcessIdentityUserInterface (some ⟨3, 1, [97]⟩)) := by
  refine ⟨fun h => ?_, fun h => ?_, fun h => ?_, fun h => ?_, fun h => ?_, fun h => ?_, fun h => ?_⟩
  · have hfits := parse_ids_iff.mp h _ .refl (by decide)
    exact absurd (hfits.2.2 ⟨rfl, rfl, rfl, by decide⟩).2 (by decide)
  · have hfits := parse_roles_iff.mp h _ .refl (by decide)
    exact absurd ((((hfits rfl).2 rfl).2 rfl).1.2.1) (by decide)
  · have hfits := parse_add_iff.mp h _ .refl (by decide)
    exact absurd (hfits.2 rfl).2 (by decide)
  · have hfits := parse_del_iff.mp h _ .refl (by decide)
    exact absurd hfits.2.1 (by decide +kernel)
  · rw [Call.InBounds, dmeasure_interface_iff] at h
    exact absurd ((h _ rfl).1 rfl).2.1 (by decide)
  · rw [Call.InBounds, dmeasure_interface_iff] at h
    exact absurd ((h _ rfl).2 rfl).2 (by decide)
  · rw [Call.InBounds, identity_interface_iff] at h
    exact absurd ((h _ rfl rfl (by decide) (by decide)).2 rfl) (by decide)

end Bounds
end Dmeasure
end TsbAgent
