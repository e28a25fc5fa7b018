/-
# The hash of an administrator's authorisation policy

A `struct admin_auth_policy` says who may update an object.  The hash that stands for a
caller is computed in user space (`tcs_util_calc_policy_hash` in
`tcsu/tcs_util_policy_update.c`) and in the kernel (the same name in
`tcsk/tcs_policy_mgmt.c`), and `tcs_util_verify_update_by_admin_auth_policy` recomputes
it from the policy.  The bytes they feed to SM3, after the four bytes of the flags:

| | user or group | identity or role |
| --- | --- | --- |
| verification | `be_user_or_group`, network order | the name, at most 64 bytes |
| user space | uid or gid, **host order** | identity **and** role, the role at most 64 bytes |
| kernel | uid or gid, network order | identity **or else** role, the role up to its end |

`admin_auth_hashes_agree_iff` says which policies survive the differences.  Built without
`TSS_DEBUG`, as the makefiles do unless told otherwise.
-/

import TsbAgent.Tcs.Caller

namespace TsbAgent
namespace Tcs

open Libc Word

/-- `MAX_PROCESS_NAME_LENGTH`. -/
def maxProcessNameLength : ℕ := 64

/-- `struct admin_auth_policy`, its numbers in host order. -/
structure AdminAuthPolicy where
  objectId : UInt32
  adminAuthType : UInt32
  policyFlags : UInt32
  userOrGroup : UInt32
  processOrRole : { b : Bytes // b.length = maxProcessNameLength }

namespace AdminAuthPolicy

variable (p : AdminAuthPolicy)

/-- The 80 bytes of the structure. -/
def bytes : Bytes :=
  netBytes 4 p.objectId.toNat ++ netBytes 4 p.adminAuthType.toNat ++
    netBytes 4 p.policyFlags.toNat ++ netBytes 4 p.userOrGroup.toNat ++ p.processOrRole.1

def user : Bool := hasFlag p.policyFlags policyFlagUserId
def group : Bool := hasFlag p.policyFlags policyFlagGroupId
def identity : Bool := hasFlag p.policyFlags policyFlagProcessIdentity
def role : Bool := hasFlag p.policyFlags policyFlagProcessRole
def env : Bool := hasFlag p.policyFlags policyFlagEnv

/-- The name in `process_or_role`. -/
def name : CStr := CStr.ofBytes p.processOrRole.1

/-- `process_or_role` read as a string: a name that fills the field runs on into what
follows in memory. -/
def nameString (after : Bytes) : CStr := CStr.ofBytes (p.processOrRole.1 ++ after)

end AdminAuthPolicy

/-! ### The three functions -/

section Source

variable (tsb : Bool) (c : Caller)

/-- The user or the group as the two functions hash it, in the byte order of each. -/
def idBytes (order : ℕ → ℕ → Bytes) (p : AdminAuthPolicy) : Bytes :=
  if p.user then order 4 c.uid.toNat else if p.group then order 4 c.gid.toNat else []

/-- The identity as both functions hash it. -/
def identityBytes : Except TssErr Bytes :=
  match getProcessIdentity tsb c with
  | none => .error .adminAuth
  | some name => .ok name.bytes

/-- The bytes for `sm3_update` of `tcs_util_calc_policy_hash` in user space. -/
def tcsUtilCalcPolicyHashUser (p : AdminAuthPolicy) (after : Bytes) : Except TssErr Bytes :=
  let head := netBytes 4 p.policyFlags.toNat ++ idBytes c hostBytes p
  if p.env ∧ measureEnv tsb c ≠ 0 then .error .adminAuth
  else
    match if p.identity then identityBytes tsb c else .ok [] with
    | .error e => .error e
    | .ok process =>
        if p.role then
          if tsbIsRoleMember tsb c (p.nameString after) = 0 then .error .adminAuth
          else .ok (head ++ (process ++ (p.nameString after).bytes.take maxProcessNameLength))
        else .ok (head ++ process)

/-- The entry for an object, with the entries after it. -/
def findAdminAuthPolicy (objectId : UInt32) :
    List AdminAuthPolicy → Option (AdminAuthPolicy × List AdminAuthPolicy)
  | [] => none
  | p :: rest => if p.objectId = objectId then some (p, rest) else findAdminAuthPolicy objectId rest

/-- What the kernel hashes for the entry it has found. -/
def calcPolicyHashEntry (p : AdminAuthPolicy) (after : Bytes) : Except TssErr Bytes :=
  let head := netBytes 4 p.policyFlags.toNat ++ idBytes c netBytes p
  let process : Except TssErr Bytes :=
    if p.identity then identityBytes tsb c
    else if p.role then
      if tcsUtilIsRoleMember tsb c (p.nameString after) = 0 then .error .adminAuth
      else .ok (p.nameString after).bytes
    else .ok []
  match process with
  | .error e => .error e
  | .ok name => if p.env ∧ measureEnv tsb c ≠ 0 then .error .adminAuth else .ok (head ++ name)

/-- `tcs_util_calc_policy_hash` in the kernel: no hash when there is no entry.  `beyond` is
what follows the copy of the list in memory. -/
def tcsUtilCalcPolicyHashKernel (list : Except TssErr (List AdminAuthPolicy)) (beyond : Bytes)
    (objectId : UInt32) : Except TssErr (Option Bytes) :=
  match list with
  | .error _ => .ok none
  | .ok l =>
      match findAdminAuthPolicy objectId l with
      | none => .ok none
      | some (p, rest) =>
          (calcPolicyHashEntry tsb c p (rest.flatMap AdminAuthPolicy.bytes ++ beyond)).map some

/-- The bytes that the verification feeds to `sm3_update`. -/
def referenceBytes (p : AdminAuthPolicy) (after : Bytes) : Bytes :=
  netBytes 4 p.policyFlags.toNat ++
    (if p.user ∨ p.group then netBytes 4 p.userOrGroup.toNat else []) ++
    (if p.identity ∨ p.role then (p.nameString after).bytes.take maxProcessNameLength else [])

/-- `tcs_util_verify_update_by_admin_auth_policy`, with the list of the TPCM. -/
def tcsUtilVerifyUpdateByAdminAuthPolicy {H : Type*} [DecidableEq H] (sm3 : Bytes → H)
    (list : Except TssErr (List AdminAuthPolicy)) (stack : Bytes) (id : UInt32) (hash : H) :
    Option TssErr :=
  if id ≥ 4 ∨ id < 1 then some .badData
  else
    match list with
    | .error e => some e
    | .ok l =>
        match findAdminAuthPolicy id l with
        | none => some .itemNotFound
        | some (p, _) => if hash = sm3 (referenceBytes p stack) then none else some .adminAuth

end Source

/-! ### What a policy asks for -/

/-- **The caller satisfies the policy:** every flag that is set names a requirement. -/
structure Satisfies (tsb : Bool) (p : AdminAuthPolicy) (c : Caller) : Prop where
  user : p.user = true → c.uid = p.userOrGroup
  group : p.group = true → c.gid = p.userOrGroup
  identity : p.identity = true → tsb = true ∧ c.identity = some p.name
  role : p.role = true → tsb = true ∧ c.member p.name = true
  env : p.env = true → tsb = true ∧ c.env = true

/-- `p` is the entry of the list for the object, and `rest` follows it. -/
def Listed (id : UInt32) (p : AdminAuthPolicy) (rest l : List AdminAuthPolicy) : Prop :=
  findAdminAuthPolicy id l = some (p, rest)

/-- The hash of the caller passes the verification. -/
def Authorised {H : Type*} [DecidableEq H] (sm3 : Bytes → H) (tpcm : List AdminAuthPolicy)
    (stack : Bytes) (id : UInt32) (fed : Bytes) : Prop :=
  tcsUtilVerifyUpdateByAdminAuthPolicy sm3 (.ok tpcm) stack id (sm3 fed) = none

/-- **The hashes of a caller agree with the reference exactly when it satisfies the policy**,
and so does the authorisation. -/
structure HashesAgree {H : Type*} [DecidableEq H] (sm3 : Bytes → H) (tsb : Bool)
    (tpcm loaded : List AdminAuthPolicy) (p : AdminAuthPolicy) (after beyond stack : Bytes)
    (c : Caller) : Prop where
  user : tcsUtilCalcPolicyHashUser tsb c p after = .ok (referenceBytes p stack) ↔ Satisfies tsb p c
  kernel : tcsUtilCalcPolicyHashKernel tsb c (.ok loaded) beyond p.objectId =
    .ok (some (referenceBytes p stack)) ↔ Satisfies tsb p c
  userAuthorised : (∃ fed, tcsUtilCalcPolicyHashUser tsb c p after = .ok fed ∧
    Authorised sm3 tpcm stack p.objectId fed) ↔ Satisfies tsb p c
  kernelAuthorised : (∃ fed, tcsUtilCalcPolicyHashKernel tsb c (.ok loaded) beyond p.objectId =
    .ok (some fed) ∧ Authorised sm3 tpcm stack p.objectId fed) ↔ Satisfies tsb p c

/-- A user or group number with the same bytes in both orders, such as that of `root`. -/
def Palindrome (n : UInt32) : Prop := hostBytes 4 n.toNat = netBytes 4 n.toNat

/-- The name ends in its field, or a zero byte follows the field. -/
def Ends (p : AdminAuthPolicy) (after : Bytes) : Prop :=
  (0 : UInt8) ∈ p.processOrRole.1 ∨ deref after = 0

/-- **The policies on which the three functions agree.**  With the TSB there: one kind of
number, which both byte orders write the same, and one kind of name, which ends where it
should.  Without it: no name or number is looked at, or no role is asked for. -/
def Uniform (tsb : Bool) (p : AdminAuthPolicy) (after behind : Bytes) : Prop :=
  if tsb then
    ¬ (p.user = true ∧ p.group = true) ∧ ¬ (p.identity = true ∧ p.role = true) ∧
      (p.user = true ∨ p.group = true → Palindrome p.userOrGroup) ∧
      (p.role = true → Ends p after ∧ Ends p behind)
  else
    p.env = true ∨ p.identity = true ∨
      (p.role = false ∧ ¬ (p.user = true ∧ p.group = true) ∧
        (p.user = true ∨ p.group = true → Palindrome p.userOrGroup))

section Bytes

variable {p : AdminAuthPolicy} {after : Bytes}

theorem nameString_take : (p.nameString after).bytes.take maxProcessNameLength = p.name.bytes := by
  change (cstr (p.processOrRole.1 ++ after)).take maxProcessNameLength = cstr p.processOrRole.1
  rw [← cstr_take, List.take_left' p.processOrRole.2]

/-- The string is the name exactly when it ends where the name ends. -/
theorem nameString_eq_iff : p.nameString after = p.name ↔ Ends p after := by
  rw [CStr.ext_iff]
  change cstr (p.processOrRole.1 ++ after) = cstr p.processOrRole.1 ↔ _
  by_cases h : (0 : UInt8) ∈ p.processOrRole.1
  · exact iff_of_true (cstr_append_of_mem h after) (Or.inl h)
  · rw [cstr_append_of_notMem h, cstr_of_nulFree h, List.append_right_eq_self, Ends, or_iff_right h]
    cases after with
    | nil => simp [deref]
    | cons x after =>
        rw [cstr_cons, deref_cons]
        split_ifs with hx <;> simp [hx]

/-- The flags and the number have a fixed size, so the parts are compared one by one. -/
theorem fed_inj {f i i' x y : Bytes} (h : i.length = i'.length) :
    f ++ i ++ x = f ++ i' ++ y ↔ i = i' ∧ x = y := by
  rw [List.append_assoc, List.append_assoc, List.append_right_inj]
  exact ⟨fun he => List.append_inj he h, fun ⟨h₁, h₂⟩ => by rw [h₁, h₂]⟩

/-- The reference does not depend on what follows the policy on the stack. -/
theorem referenceBytes_eq (stack : Bytes) : referenceBytes p stack =
    netBytes 4 p.policyFlags.toNat ++
      (if p.user ∨ p.group then netBytes 4 p.userOrGroup.toNat else []) ++
      (if p.identity ∨ p.role then p.name.bytes else []) := by
  rw [referenceBytes, nameString_take]

end Bytes

section Fed

variable {tsb : Bool} {c : Caller} {p : AdminAuthPolicy} {after stack : Bytes}

theorem length_idBytes {order : ℕ → ℕ → Bytes} (h : ∀ w n, (order w n).length = w) :
    (idBytes c order p).length =
      (if p.user ∨ p.group then netBytes 4 p.userOrGroup.toNat else []).length := by
  unfold idBytes
  cases p.user <;> cases p.group <;> simp [h]

/-- The bytes of a number agree with the reference. -/
def IdsAgree (order : ℕ → ℕ → Bytes) (p : AdminAuthPolicy) (c : Caller) : Prop :=
  (p.user = true → order 4 c.uid.toNat = netBytes 4 p.userOrGroup.toNat) ∧
    (p.user = false → p.group = true → order 4 c.gid.toNat = netBytes 4 p.userOrGroup.toNat)

theorem idBytes_eq_iff {order : ℕ → ℕ → Bytes} : idBytes c order p =
    (if p.user ∨ p.group then netBytes 4 p.userOrGroup.toNat else []) ↔ IdsAgree order p c := by
  unfold idBytes IdsAgree
  cases p.user <;> cases p.group <;> simp

/-- **When the hash of user space is the reference.** -/
theorem tcsUtilCalcPolicyHashUser_eq_iff :
    tcsUtilCalcPolicyHashUser tsb c p after = .ok (referenceBytes p stack) ↔
      (p.env = true → measureEnv tsb c = 0) ∧ IdsAgree hostBytes p c ∧
      (p.identity = true → ∃ name, getProcessIdentity tsb c = some name ∧
        name.bytes ++ (if p.role then p.name.bytes else []) = p.name.bytes) ∧
      (p.role = true → tsbIsRoleMember tsb c (p.nameString after) ≠ 0) := by
  have hfed : ∀ x : Bytes, netBytes 4 p.policyFlags.toNat ++ idBytes c hostBytes p ++ x =
      referenceBytes p stack ↔
        IdsAgree hostBytes p c ∧ x = if p.identity ∨ p.role then p.name.bytes else [] := by
    intro x
    rw [referenceBytes_eq, fed_inj (length_idBytes length_hostBytes), idBytes_eq_iff]
  unfold tcsUtilCalcPolicyHashUser
  simp only [nameString_take]
  by_cases he : p.env = true ∧ measureEnv tsb c ≠ 0
  · rw [if_pos he]
    exact iff_of_false nofun fun h => he.2 (h.1 he.1)
  · have henv : p.env = true → measureEnv tsb c = 0 := fun h => not_not.mp fun h0 => he ⟨h, h0⟩
    rw [if_neg he, and_iff_right henv]
    cases hi : p.identity with
    | false =>
        cases hr : p.role with
        | false => simp [hfed, hi, hr, -List.append_assoc, -List.append_nil]
        | true =>
            by_cases hm : tsbIsRoleMember tsb c (p.nameString after) = 0
            · simp [hm]
            · simp [hm, hfed, hi, hr, -List.append_assoc, -List.append_nil]
    | true =>
        rw [if_pos rfl, identityBytes]
        cases hid : getProcessIdentity tsb c with
        | none => simp
        | some name =>
            cases hr : p.role with
            | false =>
                simp only [Bool.false_eq_true, if_false, Except.ok.injEq, hfed, hi, hr]
                simp
            | true =>
                by_cases hm : tsbIsRoleMember tsb c (p.nameString after) = 0
                · simp [hm]
                · simp [hm, hfed, hi, hr, -List.append_assoc, -List.append_nil]

/-- **When the hash of the kernel is the reference.** -/
theorem calcPolicyHashEntry_eq_iff :
    calcPolicyHashEntry tsb c p after = .ok (referenceBytes p stack) ↔
      (p.env = true → measureEnv tsb c = 0) ∧ IdsAgree netBytes p c ∧
      (p.identity = true → getProcessIdentity tsb c = some p.name) ∧
      (p.identity = false → p.role = true →
        tcsUtilIsRoleMember tsb c (p.nameString after) ≠ 0 ∧ p.nameString after = p.name) := by
  have hfed : ∀ x : Bytes, netBytes 4 p.policyFlags.toNat ++ idBytes c netBytes p ++ x =
      referenceBytes p stack ↔
        IdsAgree netBytes p c ∧ x = if p.identity ∨ p.role then p.name.bytes else [] := by
    intro x
    rw [referenceBytes_eq, fed_inj (length_idBytes length_netBytes), idBytes_eq_iff]
  have hlast : ∀ x : Bytes, (if p.env = true ∧ measureEnv tsb c ≠ 0 then Except.error TssErr.adminAuth
      else .ok (netBytes 4 p.policyFlags.toNat ++ idBytes c netBytes p ++ x)) =
        .ok (referenceBytes p stack) ↔ (p.env = true → measureEnv tsb c = 0) ∧
        IdsAgree netBytes p c ∧ x = if p.identity ∨ p.role then p.name.bytes else [] := by
    intro x
    by_cases he : p.env = true ∧ measureEnv tsb c ≠ 0
    · rw [if_pos he]
      exact iff_of_false nofun fun h => he.2 (h.1 he.1)
    · have henv : p.env = true → measureEnv tsb c = 0 := fun h => not_not.mp fun h0 => he ⟨h, h0⟩
      rw [if_neg he, Except.ok.injEq, hfed]
      exact (and_iff_right henv).symm
  unfold calcPolicyHashEntry
  cases hi : p.identity with
  | false =>
      cases hr : p.role with
      | false => simp [hlast, hi, hr, -List.append_assoc, -List.append_nil]
      | true =>
          by_cases hm : tcsUtilIsRoleMember tsb c (p.nameString after) = 0
          · simp [hm]
          · simp [hm, hlast, hi, hr, CStr.ext_iff, -List.append_assoc, -List.append_nil]
  | true =>
      rw [identityBytes]
      cases hid : getProcessIdentity tsb c with
      | none => simp
      | some name => simp [hlast, hi, CStr.ext_iff, -List.append_assoc, -List.append_nil]

end Fed

/-! ### The policies on which they agree -/

section Uniform

variable {tsb : Bool} {c : Caller} {p : AdminAuthPolicy} {after behind stack : Bytes}

/-- The caller gets the reference from both functions exactly when it satisfies the policy. -/
def FedAgree (tsb : Bool) (p : AdminAuthPolicy) (after behind stack : Bytes) (c : Caller) : Prop :=
  (tcsUtilCalcPolicyHashUser tsb c p after = .ok (referenceBytes p stack) ↔ Satisfies tsb p c) ∧
    (calcPolicyHashEntry tsb c p behind = .ok (referenceBytes p stack) ↔ Satisfies tsb p c)

theorem toNat_lt_pow (n : UInt32) : n.toNat < 256 ^ 4 := n.toNat_lt

theorem idsAgree_netBytes : IdsAgree netBytes p c ↔ (p.user = true → c.uid = p.userOrGroup) ∧
    (p.user = false → p.group = true → c.gid = p.userOrGroup) := by
  simp only [IdsAgree, netBytes_inj (toNat_lt_pow _) (toNat_lt_pow _), UInt32.toNat_inj]

/-- A number with the same bytes in both orders is compared rightly in either. -/
theorem idsAgree_hostBytes (h : p.user = true ∨ p.group = true → Palindrome p.userOrGroup) :
    IdsAgree hostBytes p c ↔ (p.user = true → c.uid = p.userOrGroup) ∧
      (p.user = false → p.group = true → c.gid = p.userOrGroup) := by
  by_cases hk : p.user = true ∨ p.group = true
  · rw [IdsAgree, ← h hk]
    simp only [hostBytes_inj (toNat_lt_pow _) (toNat_lt_pow _), UInt32.toNat_inj]
  · rw [not_or] at hk
    simp [IdsAgree, hk.1, hk.2]

theorem satisfies_iff : Satisfies tsb p c ↔
    ((p.user = true → c.uid = p.userOrGroup) ∧ (p.group = true → c.gid = p.userOrGroup)) ∧
      (p.identity = true → tsb = true ∧ c.identity = some p.name) ∧
      (p.role = true → tsb = true ∧ c.member p.name = true) ∧
      (p.env = true → tsb = true ∧ c.env = true) :=
  ⟨fun h => ⟨⟨h.user, h.group⟩, h.identity, h.role, h.env⟩,
    fun ⟨⟨hu, hg⟩, hi, hr, he⟩ => ⟨hu, hg, hi, hr, he⟩⟩

/-- With one kind of number, the branch for the group is not shadowed. -/
theorem ids_iff (h : ¬ (p.user = true ∧ p.group = true)) :
    ((p.user = true → c.uid = p.userOrGroup) ∧
      (p.user = false → p.group = true → c.gid = p.userOrGroup)) ↔
    ((p.user = true → c.uid = p.userOrGroup) ∧ (p.group = true → c.gid = p.userOrGroup)) := by
  cases hu : p.user <;> simp_all

theorem fedAgree_of_loaded (h : Uniform true p after behind) :
    FedAgree true p after behind stack c := by
  obtain ⟨hug, hir, hpal, hends⟩ := h
  have hname : p.role = true → p.nameString after = p.name ∧ p.nameString behind = p.name :=
    fun hr => ⟨nameString_eq_iff.mpr (hends hr).1, nameString_eq_iff.mpr (hends hr).2⟩
  rw [FedAgree, tcsUtilCalcPolicyHashUser_eq_iff, calcPolicyHashEntry_eq_iff, satisfies_iff,
    idsAgree_hostBytes hpal, idsAgree_netBytes, ids_iff hug]
  simp only [getProcessIdentity_eq_some, measureEnv_eq_zero, tsbIsRoleMember_ne_zero,
    tcsUtilIsRoleMember_ne_zero]
  cases hi : p.identity with
  | true =>
      have hr : p.role = false := by simpa [hi] using hir
      simp only [hr, CStr.ext_iff]
      constructor <;> aesop
  | false =>
      cases hr : p.role with
      | false =>
          constructor <;> aesop
      | true =>
          obtain ⟨ha, hb⟩ := hname hr
          rw [ha, hb]
          constructor <;> aesop

/-- Without the TSB both functions refuse a policy on the kernel or on the identity, and
nobody satisfies it. -/
theorem fedAgree_of_refused (h : p.env = true ∨ p.identity = true) :
    FedAgree false p after behind stack c := by
  rw [FedAgree, tcsUtilCalcPolicyHashUser_eq_iff, calcPolicyHashEntry_eq_iff, satisfies_iff]
  simp only [getProcessIdentity_eq_some, measureEnv_eq_zero]
  rcases h with h | h <;> simp [h]

theorem fedAgree_of_numbers (hi : p.identity = false) (hr : p.role = false)
    (hug : ¬ (p.user = true ∧ p.group = true))
    (hpal : p.user = true ∨ p.group = true → Palindrome p.userOrGroup) :
    FedAgree tsb p after behind stack c := by
  rw [FedAgree, tcsUtilCalcPolicyHashUser_eq_iff, calcPolicyHashEntry_eq_iff, satisfies_iff,
    idsAgree_hostBytes hpal, idsAgree_netBytes, ids_iff hug]
  simp only [measureEnv_eq_zero, hi, hr, Bool.false_eq_true, false_imp_iff, true_and, and_comm,
    imp_true_iff, and_self]

theorem fedAgree_of_uniform (h : Uniform tsb p after behind) :
    FedAgree tsb p after behind stack c := by
  cases tsb with
  | true => exact fedAgree_of_loaded h
  | false =>
      by_cases hei : p.env = true ∨ p.identity = true
      · exact fedAgree_of_refused hei
      · rw [not_or, Bool.not_eq_true, Bool.not_eq_true] at hei
        obtain he | hi | ⟨hr, hug, hpal⟩ := h
        · exact fedAgree_of_refused (.inl he)
        · exact fedAgree_of_refused (.inr hi)
        · exact fedAgree_of_numbers hei.2 hr hug hpal

/-- The caller that the policy describes. -/
def described (p : AdminAuthPolicy) : Caller where
  uid := p.userOrGroup
  gid := p.userOrGroup
  identity := some p.name
  member := fun role => role = p.name
  env := true

theorem satisfies_described (h : tsb = true ∨ (p.env = false ∧ p.identity = false ∧ p.role = false)) :
    Satisfies tsb p (described p) := by
  rw [satisfies_iff]
  obtain rfl | ⟨he, hi, hr⟩ := h
  · simp [described]
  · simp [described, he, hi, hr]

/-- The kernel does not look at the group when it has looked at the user. -/
theorem one_kind_of_number (h : ∀ c, FedAgree tsb p after behind stack c)
    (hsat : Satisfies tsb p (described p)) : ¬ (p.user = true ∧ p.group = true) := by
  rintro ⟨hu, hg⟩
  have hk := calcPolicyHashEntry_eq_iff.mp ((h (described p)).2.mpr hsat)
  have hother := (h { described p with gid := p.userOrGroup + 1 }).2.mp
    (calcPolicyHashEntry_eq_iff.mpr ⟨hk.1, ⟨hk.2.1.1, fun hf => by simp [hu] at hf⟩, hk.2.2⟩)
  have hne : p.userOrGroup + 1 = p.userOrGroup := hother.group hg
  simp at hne

theorem palindrome_of_fedAgree (h : ∀ c, FedAgree tsb p after behind stack c)
    (hsat : Satisfies tsb p (described p)) (hk : p.user = true ∨ p.group = true) :
    Palindrome p.userOrGroup := by
  have hids := (tcsUtilCalcPolicyHashUser_eq_iff.mp ((h (described p)).1.mpr hsat)).2.1
  cases hu : p.user with
  | true => exact hids.1 hu
  | false => exact hids.2 hu (hk.resolve_left (by simp [hu]))

/-- The kernel does not look at the role when it has looked at the identity. -/
theorem one_kind_of_name (h : ∀ c, FedAgree tsb p after behind stack c)
    (hsat : Satisfies tsb p (described p)) : ¬ (p.identity = true ∧ p.role = true) := by
  rintro ⟨hi, hr⟩
  have hk := calcPolicyHashEntry_eq_iff.mp ((h (described p)).2.mpr hsat)
  have hother := (h { described p with member := fun _ => false }).2.mp
    (calcPolicyHashEntry_eq_iff.mpr ⟨hk.1, hk.2.1, hk.2.2.1, fun hf => by simp [hi] at hf⟩)
  exact Bool.false_ne_true (hother.role hr).2

theorem uniform_of_fedAgree (h : ∀ c, FedAgree tsb p after behind stack c) :
    Uniform tsb p after behind := by
  cases htsb : tsb with
  | true =>
      have hsat : Satisfies tsb p (described p) := satisfies_described (.inl htsb)
      have hir := one_kind_of_name h hsat
      refine ⟨one_kind_of_number h hsat, hir, palindrome_of_fedAgree h hsat, fun hr => ⟨?_, ?_⟩⟩
      · have hu := tcsUtilCalcPolicyHashUser_eq_iff.mp ((h (described p)).1.mpr hsat)
        have hm := tsbIsRoleMember_ne_zero.mp (hu.2.2.2 hr) htsb
        exact nameString_eq_iff.mp (of_decide_eq_true hm)
      · have hi : p.identity = false := by simpa [hr] using hir
        have hk := calcPolicyHashEntry_eq_iff.mp ((h (described p)).2.mpr hsat)
        exact nameString_eq_iff.mp (hk.2.2.2 hi hr).2
  | false =>
      by_cases hei : p.env = true ∨ p.identity = true
      · exact hei.imp id .inl
      rw [not_or, Bool.not_eq_true, Bool.not_eq_true] at hei
      have hr : p.role = false := by
        -- a caller whose numbers have the bytes of the policy's passes for want of an answer
        by_contra hr
        rw [Bool.not_eq_false] at hr
        let n : UInt32 := UInt32.ofNat (ofHost (netBytes 4 p.userOrGroup.toNat))
        have hn : hostBytes 4 n.toNat = netBytes 4 p.userOrGroup.toNat := by
          have hlt := ofHost_lt (netBytes 4 p.userOrGroup.toNat)
          have hinv := hostBytes_ofHost (netBytes 4 p.userOrGroup.toNat)
          rw [length_netBytes] at hlt hinv
          rw [UInt32.toNat_ofNat_of_lt' hlt, hinv]
        have hu := (h { described p with uid := n, gid := n }).1.mp
          (tcsUtilCalcPolicyHashUser_eq_iff.mpr ⟨fun he => by simp [hei.1] at he,
            ⟨fun _ => hn, fun _ _ => hn⟩, fun hi => by simp [hei.2] at hi,
            fun _ => tsbIsRoleMember_ne_zero.mpr fun ht => by simp [htsb] at ht⟩)
        exact Bool.false_ne_true (htsb.symm.trans (hu.role hr).1)
      have hsat : Satisfies tsb p (described p) := satisfies_described (.inr ⟨hei.1, hei.2, hr⟩)
      exact .inr (.inr ⟨hr, one_kind_of_number h hsat, palindrome_of_fedAgree h hsat⟩)

end Uniform

/-! ### The authorisation -/

section Authorisation

variable {H : Type*} [DecidableEq H] {sm3 : Bytes → H} {tsb : Bool} {c : Caller}
  {p : AdminAuthPolicy} {tpcm loaded rest rest' : List AdminAuthPolicy}
  {after beyond stack : Bytes}

/-- An admitted entry is verified against its own bytes. -/
theorem authorised_iff (hsm3 : Function.Injective sm3) (hid : 1 ≤ p.objectId ∧ p.objectId < 4)
    (hl : Listed p.objectId p rest tpcm) {fed : Bytes} :
    Authorised sm3 tpcm stack p.objectId fed ↔ fed = referenceBytes p stack := by
  have hrange : ¬ (p.objectId ≥ 4 ∨ p.objectId < 1) := by
    rw [not_or, ge_iff_le, UInt32.not_le, UInt32.not_lt]
    exact hid.symm
  simp only [Authorised, tcsUtilVerifyUpdateByAdminAuthPolicy, if_neg hrange]
  rw [hl]
  by_cases hf : fed = referenceBytes p stack
  · simp [hf]
  · simp [hf, hsm3.eq_iff]

theorem tcsUtilCalcPolicyHashKernel_eq_iff (hl : Listed p.objectId p rest' loaded) {fed : Bytes} :
    tcsUtilCalcPolicyHashKernel tsb c (.ok loaded) beyond p.objectId = .ok (some fed) ↔
      calcPolicyHashEntry tsb c p (rest'.flatMap AdminAuthPolicy.bytes ++ beyond) = .ok fed := by
  simp only [tcsUtilCalcPolicyHashKernel]
  rw [hl]
  change Except.map some (calcPolicyHashEntry tsb c p _) = _ ↔ _
  generalize calcPolicyHashEntry tsb c p (rest'.flatMap AdminAuthPolicy.bytes ++ beyond) = r
  cases r <;> simp [Except.map]

theorem hashesAgree_iff (hsm3 : Function.Injective sm3) (hid : 1 ≤ p.objectId ∧ p.objectId < 4)
    (hl : Listed p.objectId p rest tpcm) (hl' : Listed p.objectId p rest' loaded) :
    HashesAgree sm3 tsb tpcm loaded p after beyond stack c ↔
      FedAgree tsb p after (rest'.flatMap AdminAuthPolicy.bytes ++ beyond) stack c := by
  constructor
  · exact fun h => ⟨h.user, (tcsUtilCalcPolicyHashKernel_eq_iff hl').symm.trans h.kernel⟩
  · intro h
    refine ⟨h.1, (tcsUtilCalcPolicyHashKernel_eq_iff hl').trans h.2, ?_, ?_⟩
    · simp only [authorised_iff hsm3 hid hl, exists_eq_right]
      exact h.1
    · simp only [authorised_iff hsm3 hid hl, exists_eq_right]
      exact (tcsUtilCalcPolicyHashKernel_eq_iff hl').trans h.2

end Authorisation

/-- A policy for one user, as an administrator may write it. -/
def userPolicy (uid : UInt32) : AdminAuthPolicy where
  objectId := 1
  adminAuthType := 0
  policyFlags := policyFlagUserId
  userOrGroup := uid
  processOrRole := ⟨List.replicate maxProcessNameLength 0, List.length_replicate⟩

theorem listed_userPolicy (uid : UInt32) :
    Listed (userPolicy uid).objectId (userPolicy uid) [] [userPolicy uid] := rfl

end Tcs
end TsbAgent
