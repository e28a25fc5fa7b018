/-
# The bytes that the identity ioctls touch

`parse_policy_process_ids`, `parse_policy_process_roles` and `ioctl_process_identity_user_interface` of
`tsb/kernel/dmeasure/process_identity/process_identity.c`, watched at their bounds
(`TsbAgent.Lib.Bounded`).

| access | bytes | guarded by |
| --- | --- | --- |
| header of an identity, converted in place | 6 | that a byte is left |
| first hash, compared with those of the list | `be_hash_length` of the item and of the list | nothing |
| hashes and name | `be_hash_length * (be_lib_number + 1)` as an `int`, and `name_length` | `kzalloc` |
| header of a role, converted in place | 12 | that a byte is left |
| name and members | `be_name_length`, and 1 byte and its value for each member | nothing |
| `pid` and the name of a verification | 4, and up to a terminator | that the length is not zero |

A round takes the pointer on by what the header says, reduced to an `int`.  For a role this may be
nothing or less, and then the loop comes to bytes that it has converted before, so the state holds
the buffer.
-/

import TsbAgent.ProcessIdentity.Load
import TsbAgent.Lib.Bounded

namespace TsbAgent
namespace ProcessIdentity
namespace Bounds

open Libc Word FileIntegrity Codec Bounded

/-! ### The loops over items -/

/-- Where a loop over items is: the buffer, the pointer, the length that is left, the number of rounds
and the list. -/
structure Cursor (κ : Type) where
  p : Bytes
  pItem : ℤ
  length : ℤ
  round : ℕ
  list : List κ

/-- What the pointer points to. -/
def Cursor.item {κ : Type} (c : Cursor κ) : Bytes := c.p.drop c.pItem.toNat

/-- The bytes of a field in the other order. -/
def swapAt (b : Bytes) (off w : ℕ) : Bytes := b.take off ++ ((fieldAt b off w).reverse ++ b.drop (off + w))

/-- The cursor behind an item: the fields of its header are converted, and `item_len` is aligned. -/
def Cursor.next {κ : Type} (c : Cursor κ) (fields : List (ℕ × ℕ)) (itemLen : ℤ) (list : List κ) : Cursor κ :=
  let n := Tcf.alignInt (int32 itemLen)
  { p := fields.foldl (fun b f => swapAt b (c.pItem.toNat + f.1) f.2) c.p
    pItem := c.pItem + n
    length := int32 (c.length - n)
    round := c.round + 1
    list := list }

/-- The cursor at the start of a buffer. -/
def Cursor.start {κ : Type} (list : List κ) (p : Bytes) (length : ℤ) : Cursor κ := ⟨p, 0, length, 0, list⟩

/-- Something is left. -/
def Cursor.Left {κ : Type} (c : Cursor κ) : Prop := 0 < c.length

instance {κ : Type} : DecidablePred (Cursor.Left (κ := κ)) := fun _ => inferInstanceAs (Decidable (_ < _))

/-- The first `n` bytes of the item lie in the buffer. -/
def Cursor.Holds {κ : Type} (c : Cursor κ) (n : ℤ) : Prop := 0 ≤ c.pItem ∧ c.pItem + n ≤ c.p.length

/-! ### Identities -/

/-- `check_policy_process_ids_repeat` for the `n` bytes at `off`. -/
def checkPolicyProcessIdsRepeat (b : Bytes) (off : ℤ) (n : ℕ) : List ProcessIdentityUser → Except (Failure ℤ) Bool
  | [] => pure false
  | x :: l => do
      let hash ← read b off n
      needs (n ≤ x.hash.length)
      if memcmp n x.hash hash = 0 then pure true else checkPolicyProcessIdsRepeat b off n l

/-- `hash_len`, an `int`. -/
def Cursor.hashLen (c : Cursor ProcessIdentityUser) : ℤ := int32 (hashLenAt c.item)

/-- `name_length`. -/
def Cursor.nameLength (c : Cursor ProcessIdentityUser) : ℕ := (c.item.getD 0 0).toNat

/-- What the list and the pointer are after an identity. -/
def Cursor.afterIdentity (c : Cursor ProcessIdentityUser) : Cursor ProcessIdentityUser :=
  c.next [(2, 2), (4, 2)] (6 + c.nameLength + c.hashLen) (identityAt c.item :: c.list)

/-- A round of `parse_policy_process_ids`; `kz` are the answers of `kzalloc`, round by round. -/
def identityRound (kz : ℕ → ℕ → Bool) (c : Cursor ProcessIdentityUser) :
    Except (Failure ℤ) (Cursor ProcessIdentityUser) := do
  let _ ← read c.p c.pItem 6
  let _ ← checkPolicyProcessIdsRepeat c.p (c.pItem + 6) (netAt c.item 2 2) c.list
  malloc (kz c.round 0) 0 (-1)
  malloc (kz c.round 1) (c.nameLength + 1) (-1)
  malloc (kz c.round 2) c.hashLen (-1)
  let _ ← copy c.p (c.pItem + 6) c.hashLen c.hashLen
  let _ ← copy c.p (c.pItem + 6 + c.hashLen) c.nameLength (c.nameLength + 1)
  pure c.afterIdentity

/-- `parse_policy_process_ids`, up to a number of rounds. -/
def parsePolicyProcessIds (kz : ℕ → ℕ → Bool) (list : List ProcessIdentityUser) (p : Bytes) (length : ℤ)
    (rounds : ℕ) : Except (Failure ℤ) (Cursor ProcessIdentityUser) :=
  repeatWhile Cursor.Left (identityRound kz) rounds (.start list p length)

/-- The first hash can be compared with those of the list, up to the first that is equal. -/
def Comparable (b : Bytes) (off : ℤ) (n : ℕ) : List ProcessIdentityUser → Prop
  | [] => True
  | x :: l => (Inside b off n ∧ n ≤ x.hash.length) ∧
      (memcmp n x.hash (fieldAt b off.toNat n) ≠ 0 → Comparable b off n l)

/-- All memory for an identity is granted. -/
def Cursor.IdentityGranted (kz : ℕ → ℕ → Bool) (c : Cursor ProcessIdentityUser) : Prop :=
  kz c.round 0 = true ∧ kz c.round 1 = true ∧ kz c.round 2 = true ∧ 0 ≤ c.hashLen

/-- The identity lies in the buffer, and its first hash can be compared. -/
def Cursor.IdentityFits (kz : ℕ → ℕ → Bool) (c : Cursor ProcessIdentityUser) : Prop :=
  c.Holds 6 ∧ Comparable c.p (c.pItem + 6) (netAt c.item 2 2) c.list ∧
    (c.IdentityGranted kz → c.Holds (6 + c.hashLen + c.nameLength))

theorem meets_checkRepeat {b : Bytes} {off : ℤ} {n : ℕ} {l : List ProcessIdentityUser} {P : Prop} :
    Meets (checkPolicyProcessIdsRepeat b off n l) (fun _ => P) ↔ Comparable b off n l ∧ P := by
  induction l with
  | nil => exact (and_iff_right trivial).symm
  | cons x l ih =>
      rw [checkPolicyProcessIdsRepeat, Comparable, meets_bind, meets_read, meets_bind, meets_needs]
      rcases eq_or_ne (memcmp n x.hash (fieldAt b off.toNat n)) 0 with h | h
      · rw [if_pos h, meets_pure]
        exact ⟨fun ⟨hin, hlen, hp⟩ => ⟨⟨⟨hin, hlen⟩, fun hne => absurd h hne⟩, hp⟩,
          fun ⟨⟨⟨hin, hlen⟩, _⟩, hp⟩ => ⟨hin, hlen, hp⟩⟩
      · rw [if_neg h, ih]
        exact ⟨fun ⟨hin, hlen, hc, hp⟩ => ⟨⟨⟨hin, hlen⟩, fun _ => hc⟩, hp⟩,
          fun ⟨⟨⟨hin, hlen⟩, hc⟩, hp⟩ => ⟨hin, hlen, hc h, hp⟩⟩

/-- The hashes and the name lie in the buffer when the identity does. -/
theorem holds_identity {c : Cursor ProcessIdentityUser} (hin : c.Holds 6) (hlen : 0 ≤ c.hashLen) :
    Inside c.p (c.pItem + 6) c.hashLen ∧ Inside c.p (c.pItem + 6 + c.hashLen) c.nameLength ↔
      c.Holds (6 + c.hashLen + c.nameLength) := by
  unfold Inside Cursor.Holds at *
  omega

/-- **A round over an identity.** -/
theorem round_identity (kz : ℕ → ℕ → Bool) :
    Round (identityRound kz) (Cursor.IdentityFits kz) (Cursor.IdentityGranted kz) Cursor.afterIdentity := by
  intro c Q
  have hhead : Inside c.p c.pItem (6 : ℕ) ↔ c.Holds 6 := inside_iff (by decide)
  rw [identityRound, meets_bind, meets_read, hhead, meets_bind, meets_checkRepeat]
  simp only [meets_bind, meets_malloc, meets_copy, meets_pure]
  constructor
  · rintro ⟨hin, hcomp, hrest⟩
    have hall (hg : c.IdentityGranted kz) := hrest hg.1 le_rfl hg.2.1 (by omega) hg.2.2.1 hg.2.2.2
    refine ⟨⟨hin, hcomp, fun hg => ?_⟩, fun hg => (hall hg).2.2⟩
    obtain ⟨⟨hhash, -⟩, ⟨hname, -⟩, -⟩ := hall hg
    exact (holds_identity hin hg.2.2.2).mp ⟨hhash, hname⟩
  · rintro ⟨⟨hin, hcomp, hfits⟩, hq⟩
    refine ⟨hin, hcomp, fun h0 _ h1 _ h2 hlen => ?_⟩
    have hg : c.IdentityGranted kz := ⟨h0, h1, h2, hlen⟩
    obtain ⟨hhash, hname⟩ := (holds_identity hin hlen).mpr (hfits hg)
    exact ⟨⟨hhash, le_rfl⟩, ⟨hname, by omega⟩, hq hg⟩

/-- **When a list of identities is read inside its buffer:** every identity that the loop comes to lies
in it. -/
theorem parse_ids_iff {kz : ℕ → ℕ → Bool} {list : List ProcessIdentityUser} {p : Bytes} {length : ℤ} :
    (∀ n, Meets (parsePolicyProcessIds kz list p length n) fun _ => True) ↔
      ∀ c, Comes Cursor.Left (Cursor.IdentityGranted kz) Cursor.afterIdentity (.start list p length) c →
        c.Left → c.IdentityFits kz :=
  meets_repeatWhile (round_identity kz)

/-! ### Roles -/

/-- Where the loop over the members of a role is: their number so far, and the pointer. -/
abbrev MemberAt := ℕ × ℤ

/-- The length of the name of a member. -/
def memberLength (p : Bytes) (q : ℤ) : ℕ := ((p.drop q.toNat).getD 0 0).toNat

/-- A member of a role. -/
def memberRound (kz : ℕ → Bool) (p : Bytes) (s : MemberAt) : Except (Failure ℤ) (Bytes × MemberAt) := do
  let _ ← read p s.2 1
  malloc (kz (3 + s.1)) (memberLength p s.2 + 1) (-1)
  let name ← copy p (s.2 + 1) (memberLength p s.2) (memberLength p s.2 + 1)
  pure (name, s.1 + 1, s.2 + 1 + memberLength p s.2)

/-- `be_name_length`, `be_members_length` and `be_members_number`. -/
def Cursor.nameLen (c : Cursor ProcessRoleUser) : ℕ := netAt c.item 0 4

@[inherit_doc Cursor.nameLen]
def Cursor.membersLength (c : Cursor ProcessRoleUser) : ℕ := netAt c.item 4 4

@[inherit_doc Cursor.nameLen]
def Cursor.membersNumber (c : Cursor ProcessRoleUser) : ℕ := netAt c.item 8 4

/-- What the list and the pointer are after a role. -/
def Cursor.afterRole (c : Cursor ProcessRoleUser) : Cursor ProcessRoleUser :=
  c.next [(0, 4), (4, 4), (8, 4)] (12 + c.nameLen + c.membersLength) (roleAt c.item :: c.list)

/-- A round of `parse_policy_process_roles`; `be_name_length + 1` is an `unsigned int`. -/
def roleRound (kz : ℕ → ℕ → Bool) (c : Cursor ProcessRoleUser) :
    Except (Failure ℤ) (Cursor ProcessRoleUser) := do
  malloc (kz c.round 0) 0 (-1)
  let _ ← read c.p c.pItem 12
  malloc (kz c.round 1) ((c.nameLen + 1) % 2 ^ 32 : ℕ) (-1)
  let _ ← copy c.p (c.pItem + 12) c.nameLen ((c.nameLen + 1) % 2 ^ 32 : ℕ)
  malloc (kz c.round 2) (8 * c.membersNumber) (-1)
  let _ ← decode (memberRound (kz c.round) c.p) c.membersNumber (0, c.pItem + 12 + c.nameLen)
  pure c.afterRole

/-- `parse_policy_process_roles`, up to a number of rounds. -/
def parsePolicyProcessRoles (kz : ℕ → ℕ → Bool) (list : List ProcessRoleUser) (p : Bytes) (length : ℤ)
    (rounds : ℕ) : Except (Failure ℤ) (Cursor ProcessRoleUser) :=
  repeatWhile Cursor.Left (roleRound kz) rounds (.start list p length)

/-- The length of a member lies in the buffer, and its name when there is memory for it. -/
def MemberFits (kz : ℕ → Bool) (p : Bytes) (s : MemberAt) : Prop :=
  0 ≤ s.2 ∧ s.2 + 1 ≤ p.length ∧ (kz (3 + s.1) = true → s.2 + 1 + memberLength p s.2 ≤ p.length)

/-- There is memory for a member. -/
def MemberGranted (kz : ℕ → Bool) (s : MemberAt) : Prop := kz (3 + s.1) = true

/-- The next member. -/
def nextMember (p : Bytes) (s : MemberAt) : MemberAt := (s.1 + 1, s.2 + 1 + memberLength p s.2)

/-- The first member. -/
def Cursor.firstMember (c : Cursor ProcessRoleUser) : MemberAt := (0, c.pItem + 12 + c.nameLen)

/-- All memory for a role is granted. -/
def Cursor.RoleGranted (kz : ℕ → ℕ → Bool) (c : Cursor ProcessRoleUser) : Prop :=
  kz c.round 0 = true ∧ kz c.round 1 = true ∧ kz c.round 2 = true ∧
    AllFit (MemberGranted (kz c.round)) (nextMember c.p) c.membersNumber c.firstMember

/-- The role lies in the buffer: its header, its name and its members, as far as there is memory. -/
def Cursor.RoleFits (kz : ℕ → ℕ → Bool) (c : Cursor ProcessRoleUser) : Prop :=
  kz c.round 0 = true → c.Holds 12 ∧ (kz c.round 1 = true → (c.nameLen + 1 < 2 ^ 32 ∧ c.Holds (12 + c.nameLen)) ∧
    (kz c.round 2 = true → Walks (MemberFits (kz c.round) c.p) (MemberGranted (kz c.round)) (nextMember c.p)
      (fun _ => True) c.membersNumber c.firstMember))

theorem item_member (kz : ℕ → Bool) (p : Bytes) :
    Item (memberRound kz p) (MemberFits kz p) (MemberGranted kz) (nextMember p) := by
  intro s Q
  have hhead : Inside p s.2 (1 : ℕ) ↔ 0 ≤ s.2 ∧ s.2 + 1 ≤ p.length := inside_iff (by decide)
  rw [memberRound, meets_bind, meets_read, hhead, meets_bind, meets_malloc, meets_bind, meets_copy, meets_pure,
    MemberFits, MemberGranted]
  have hname (h0 : 0 ≤ s.2) (h1 : s.2 + 1 ≤ p.length) :
      (Inside p (s.2 + 1) (memberLength p s.2) ∧ (memberLength p s.2 : ℤ) ≤ memberLength p s.2 + 1) ↔
        s.2 + 1 + memberLength p s.2 ≤ p.length := by
    unfold Inside
    omega
  constructor
  · rintro ⟨⟨h0, h1⟩, hrest⟩
    have hall (hg : kz (3 + s.1) = true) := hrest hg (by omega)
    exact ⟨⟨h0, h1, fun hg => (hname h0 h1).mp (hall hg).1⟩, fun hg => (hall hg).2⟩
  · rintro ⟨⟨h0, h1, hfits⟩, hq⟩
    exact ⟨⟨h0, h1⟩, fun hg _ => ⟨(hname h0 h1).mpr (hfits hg), hq hg⟩⟩

/-- The name of a role fits in its memory and lies in the buffer when the role does. -/
theorem holds_roleName {c : Cursor ProcessRoleUser} (hin : c.Holds 12) :
    Inside c.p (c.pItem + 12) c.nameLen ∧ (c.nameLen : ℤ) ≤ ((c.nameLen + 1) % 2 ^ 32 : ℕ) ↔
      c.nameLen + 1 < 2 ^ 32 ∧ c.Holds (12 + c.nameLen) := by
  have hlt : c.nameLen < 256 ^ 4 := netAt_lt _ _ _
  unfold Inside Cursor.Holds at *
  omega

/-- The members of a role. -/
theorem meets_members {kz : ℕ → Bool} {p : Bytes} {n : ℕ} {s : MemberAt} {P : Prop} :
    Meets (decode (memberRound kz p) n s) (fun _ => P) ↔
      Walks (MemberFits kz p) (MemberGranted kz) (nextMember p) (fun _ => True) n s ∧
        (AllFit (MemberGranted kz) (nextMember p) n s → P) := by
  rw [meets_decode (Q := fun _ => P) (item_member kz p), walks_iff]

/-- **A round over a role.** -/
theorem round_role (kz : ℕ → ℕ → Bool) :
    Round (roleRound kz) (Cursor.RoleFits kz) (Cursor.RoleGranted kz) Cursor.afterRole := by
  intro c Q
  have hhead : Inside c.p c.pItem (12 : ℕ) ↔ c.Holds 12 := inside_iff (by decide)
  rw [roleRound, meets_bind, meets_malloc]
  simp only [meets_bind, meets_malloc, meets_read, meets_copy, meets_pure, meets_members, hhead]
  constructor
  · intro h
    refine ⟨fun h0 => ?_, fun ⟨h0, h1, h2, hall⟩ => ?_⟩
    · obtain ⟨hin, hname⟩ := h h0 le_rfl
      refine ⟨hin, fun h1 => ?_⟩
      obtain ⟨hfits, hmembers⟩ := hname h1 (by omega)
      exact ⟨(holds_roleName hin).mp hfits, fun h2 => (hmembers h2 (by omega)).1⟩
    · obtain ⟨-, hname⟩ := h h0 le_rfl
      obtain ⟨-, hmembers⟩ := hname h1 (by omega)
      exact (hmembers h2 (by omega)).2 hall
  · rintro ⟨hfits, hq⟩ h0 -
    obtain ⟨hin, hname⟩ := hfits h0
    refine ⟨hin, fun h1 _ => ?_⟩
    obtain ⟨hroom, hmembers⟩ := hname h1
    exact ⟨(holds_roleName hin).mpr hroom, fun h2 _ => ⟨hmembers h2, fun hall => hq ⟨h0, h1, h2, hall⟩⟩⟩

/-- **When a list of roles is read inside its buffer:** every role that the loop comes to lies in it. -/
theorem parse_roles_iff {kz : ℕ → ℕ → Bool} {list : List ProcessRoleUser} {p : Bytes} {length : ℤ} :
    (∀ n, Meets (parsePolicyProcessRoles kz list p length n) fun _ => True) ↔
      ∀ c, Comes Cursor.Left (Cursor.RoleGranted kz) Cursor.afterRole (.start list p length) c →
        c.Left → c.RoleFits kz :=
  meets_repeatWhile (round_role kz)

/-! ### The user interface -/

/-- `struct tsb_user_interface_parameter`, with the memory that can be read at `data`. -/
structure UserInterfaceParameter where
  type : ℤ
  length : ℤ
  data : Bytes

/-- `copy_from_user` of `n` bytes into `room` bytes: `none` when there are not so many, where the rest is
filled with zeros. -/
def copyFromUser (data : Bytes) (n room : ℤ) : Except (Failure ℤ) (Option Bytes) := do
  needs (0 ≤ n ∧ n ≤ room)
  pure (if n ≤ data.length then some (data.take n.toNat) else none)

/-- The buffer of a request: a length, `vmalloc` and `copy_from_user`. -/
def request (vmalloc : Bool) (length : ℤ) (data : Bytes) : Except (Failure ℤ) Bytes := do
  check (length = 0) (-1)
  malloc vmalloc length (-1)
  match ← copyFromUser data length length with
  | none => .error (.error (-1))
  | some buff => pure buff

/-- `TSB_MEASURE_FAILE`. -/
def tsbMeasureFaile : ℤ := 1

/-- `TSB_ERROR_SYSTEM`. -/
def tsbErrorSystem : ℤ := 3

/-- What `tsb_verify_process_taskp` returns. -/
def verifyRet : Except VerifyErr Unit → ℤ
  | .ok () => 0
  | .error .processIdentityPolicy => 300
  | .error .system => tsbErrorSystem
  | .error .calcHash => 2
  | .error .measureFaile => tsbMeasureFaile
  | .error .minusOne => -1

/-- What the ioctl finds: the policy, the roles, the tasks, and whether `vmalloc` grants memory. -/
structure Identities where
  verifier : Verifier
  roles : List ProcessRoleUser
  special : Bool
  current : Task
  task : ℤ → Option Task
  vmalloc : Bool

/-- `tsb_verify_process`. -/
def Identities.tsbVerifyProcess (k : Identities) (pid : ℤ) (name : CStr) : ℤ :=
  if pid = 0 then verifyRet (tsbVerifyProcessTaskp k.verifier k.current name)
  else
    match k.task pid with
    | none => tsbErrorSystem
    | some task => verifyRet (tsbVerifyProcessTaskp k.verifier task name)

/-- The `switch` of the ioctl: what it returns, and what it copies to the user. -/
def Identities.serve (k : Identities) (type : ℤ) (buff : Bytes) : Except (Failure ℤ) (ℤ × Option Bytes) :=
  if type = 1 then do
    let pid ← read buff 0 4
    let name ← readText buff 4
    pure (k.tsbVerifyProcess (int32 (ofHost pid)) name, none)
  else if type = 2 then
    match getProcessIdentity k.verifier k.special k.current with
    | none => pure (tsbMeasureFaile, none)
    | some name => pure (0, some (name.bytes ++ [0]))
  else if type = 3 then do
    let name ← readText buff 0
    pure (isRoleMember k.verifier k.roles k.special k.current name, none)
  else pure (tsbMeasureFaile, none)

/-- `ioctl_process_identity_user_interface`; the parameter is `none` when it cannot be copied. -/
def ioctlProcessIdentityUserInterface (k : Identities) (param : Option UserInterfaceParameter) :
    Except (Failure ℤ) (ℤ × Option Bytes) :=
  match param with
  | none => .error (.error (-1))
  | some q => do
      let buff ← request k.vmalloc q.length q.data
      k.serve q.type buff

/-- The strings of a request end in its buffer. -/
def Texts (type : ℤ) (buff : Bytes) : Prop :=
  (type = 1 → (0 : UInt8) ∈ buff.drop 4) ∧ (type = 3 → (0 : UInt8) ∈ buff)

/-- The strings end in the bytes of the request, when these are copied. -/
def Identities.Fits (k : Identities) (q : UserInterfaceParameter) : Prop :=
  k.vmalloc = true → 0 < q.length → q.length ≤ q.data.length → Texts q.type (q.data.take q.length.toNat)

theorem meets_copyFromUser {data : Bytes} {n room : ℤ} {Q : Option Bytes → Prop} :
    Meets (copyFromUser data n room) Q ↔
      (0 ≤ n ∧ n ≤ room) ∧ Q (if n ≤ data.length then some (data.take n.toNat) else none) := by
  rw [copyFromUser, meets_bind, meets_needs, meets_pure]

/-- A request goes on with the bytes it has copied. -/
theorem meets_request {vmalloc : Bool} {length : ℤ} {data : Bytes} {Q : Bytes → Prop} :
    Meets (request vmalloc length data) Q ↔
      (vmalloc = true → 0 < length → length ≤ data.length → Q (data.take length.toNat)) := by
  rw [request, meets_bind, meets_check, meets_bind, meets_malloc, meets_bind, meets_copyFromUser]
  constructor
  · intro h hgranted hpos hlen
    have hgot := (h hpos.ne' hgranted hpos.le).2
    rwa [if_pos hlen] at hgot
  · intro h hne hgranted hnonneg
    refine ⟨⟨hnonneg, le_rfl⟩, ?_⟩
    split_ifs with hlen
    · exact h hgranted (by omega) hlen
    · trivial

theorem meets_serve {k : Identities} {type : ℤ} {buff : Bytes} :
    Meets (k.serve type buff) (fun _ => True) ↔ Texts type buff := by
  have hpid : (0 : UInt8) ∈ buff.drop 4 → 4 < buff.length := fun h => by
    have hlen := List.length_pos_of_mem h
    rw [List.length_drop] at hlen
    omega
  unfold Identities.serve Texts
  split_ifs with h1 h2 h3
  · subst h1
    rw [meets_bind, meets_read, meets_bind, meets_readText, meets_pure, Ends, Inside]
    constructor
    · exact fun h => ⟨fun _ => h.2.1.2, fun h3 => absurd h3 (by decide)⟩
    · intro h
      have hend := h.1 rfl
      have hlen := hpid hend
      exact ⟨by omega, ⟨by decide, hend⟩, trivial⟩
  · subst h2
    refine iff_of_true ?_ ⟨fun h1 => absurd h1 (by decide), fun h3 => absurd h3 (by decide)⟩
    cases getProcessIdentity k.verifier k.special k.current with
    | none => trivial
    | some name => trivial
  · subst h3
    rw [meets_bind, meets_readText, meets_pure, Ends]
    exact ⟨fun h => ⟨fun h1 => absurd h1 (by decide), fun _ => h.1.2⟩, fun h => ⟨⟨le_rfl, h.2 rfl⟩, trivial⟩⟩
  · exact iff_of_true trivial ⟨fun h => absurd h h1, fun h => absurd h h3⟩

/-- **When the identity ioctl stays in its buffer.** -/
theorem identity_interface_iff {k : Identities} {param : Option UserInterfaceParameter} :
    Meets (ioctlProcessIdentityUserInterface k param) (fun _ => True) ↔ ∀ q, param = some q → k.Fits q := by
  cases param with
  | none => exact iff_of_true trivial fun q h => by cases h
  | some q =>
      have hone : (∀ r, some q = some r → k.Fits r) ↔ k.Fits q :=
        ⟨fun h => h q rfl, fun h r hr => Option.some.inj hr ▸ h⟩
      rw [hone, ioctlProcessIdentityUserInterface, meets_bind, meets_request, Identities.Fits]
      simp only [meets_serve]

end Bounds
end ProcessIdentity
end TsbAgent
