/-
# NV spaces with a policy

A space that is defined on a policy gets the hash of the policy as its authorisation
(`tcs_utils_policy_passwd`), and whoever uses it computes a hash of himself from the saved
flags (`tcs_utils_get_policy_passwd`).  The bytes they feed to SM3, after the flags:

| | user or group | identity or role | password |
| --- | --- | --- | --- |
| definition | `user_or_group` | the name with its end | the password with its end |
| use | uid or gid | the identity with its end, in a buffer of **64 bytes**, or the role | the same |

`policy_authorises_iff` says when the two agree exactly for the processes that satisfy the
policy.  Two things are in the way: an identity of 64 characters or more is written past
the buffer, and without a TSB every process counts as a member of every role.
-/

import TsbAgent.Tcs.Caller
import TsbAgent.Tcs.NvInfo

namespace TsbAgent
namespace Tcs

open Libc Word

/-- `MAX_USER_OR_GROUP_ID`. -/
def maxUserOrGroupId : UInt32 := 65535

/-- `MAX_NAME_LENGTH`. -/
def maxNameLength : ℕ := 255

/-- The size of `process_or_role` in `tcs_utils_get_policy_passwd`. -/
def processOrRoleSize : ℕ := 64

/-- `policy->policy_flags & POLICY_FLAG_USER_ID`, and so on. -/
structure NvFlags where
  user : Bool
  group : Bool
  identity : Bool
  role : Bool
  passwd : Bool
  env : Bool
deriving DecidableEq

def NvFlags.of (flags : UInt32) : NvFlags where
  user := hasFlag flags policyFlagUserId
  group := hasFlag flags policyFlagGroupId
  identity := hasFlag flags policyFlagProcessIdentity
  role := hasFlag flags policyFlagProcessRole
  passwd := hasFlag flags policyFlagUsedPasswd
  env := hasFlag flags policyFlagEnv

/-- `struct auth_policy`.  The source follows the pointers that the flags ask for without
looking at them first. -/
structure AuthPolicy where
  policyFlags : UInt32
  userOrGroup : UInt32
  processOrRole : Option CStr
  password : Option CStr
  named : (NvFlags.of policyFlags).identity ∨ (NvFlags.of policyFlags).role → processOrRole.isSome
  passworded : (NvFlags.of policyFlags).passwd → password.isSome

namespace AuthPolicy

variable (p : AuthPolicy)

def flags : NvFlags := NvFlags.of p.policyFlags

/-- The name the policy asks for. -/
def name : CStr := p.processOrRole.getD CStr.empty

/-- The password the policy asks for. -/
def passwd : CStr := p.password.getD CStr.empty

end AuthPolicy

/-- A string with its end. -/
def withEnd (s : CStr) : Bytes := s.bytes ++ [0]

/-- `tcs_utils_policy_passwd`: the bytes for SM3. -/
def tcsUtilsPolicyPasswd (p : AuthPolicy) : Except TssErr Bytes :=
  if (p.flags.user ∧ p.flags.group) ∨ (p.flags.identity ∧ p.flags.role) ∨
      ((p.flags.user ∨ p.flags.group) ∧ p.userOrGroup > maxUserOrGroupId) ∨
      ((p.flags.identity ∨ p.flags.role) ∧ p.name.strlen > maxNameLength) then .error .parameter
  else .ok (hostBytes 4 p.policyFlags.toNat ++
    ((if p.flags.user ∨ p.flags.group then hostBytes 4 p.userOrGroup.toNat else []) ++
    ((if p.flags.identity ∨ p.flags.role then withEnd p.name else []) ++
    (if p.flags.passwd then withEnd p.passwd else []))))

/-! ### Using a space -/

/-- What is asked for: a space by its name or by its index. -/
inductive NvKey
  | name (s : CStr)
  | index (i : UInt32)

def NvKey.hit : NvKey → Bytes → Bool
  | name s => hasName s
  | index i => hasIndex i

/-- What the system grants: the reader, the memory for the record and for the role. -/
structure PolicyIo where
  read : NvRead
  record : Bool
  role : Bool

section Use

variable (tsb : Bool) (c : Caller)

/-- The identity or the role.  `none` when the identity is written past its buffer, or when
there is no name to follow. -/
def processBytes (info : NvInfo) : Option (Except TssErr Bytes) :=
  let flags := NvFlags.of info.policyFlags
  if flags.identity then
    match getProcessIdentity tsb c with
    | none => some (.error .adminAuth)
    | some n => if (withEnd n).length > processOrRoleSize then none else some (.ok (withEnd n))
  else if flags.role then
    match info.processOrRole with
    | none => none
    | some r => if tsbIsRoleMember tsb c r = 0 then some (.error .adminAuth) else some (.ok (withEnd r))
  else some (.ok [])

/-- The user or the group. -/
def ownerBytes (info : NvInfo) : Bytes :=
  let flags := NvFlags.of info.policyFlags
  if flags.user then hostBytes 4 c.uid.toNat else if flags.group then hostBytes 4 c.gid.toNat else []

/-- The password, where the flags ask for it. -/
def passwdBytes (info : NvInfo) (passwd : Option CStr) : Except TssErr Bytes :=
  if (NvFlags.of info.policyFlags).passwd then
    match passwd with
    | none => .error .parameter
    | some w => .ok (withEnd w)
  else .ok []

/-- The bytes for SM3 from the saved entry. -/
def entryPasswd (info : NvInfo) (passwd : Option CStr) : Option (Except TssErr Bytes) :=
  if (NvFlags.of info.policyFlags).env ∧ measureEnv tsb c ≠ 0 then some (.error .adminAuth)
  else
    match processBytes tsb c info with
    | none => none
    | some (.error e) => some (.error e)
    | some (.ok process) =>
        match passwdBytes info passwd with
        | .error e => some (.error e)
        | .ok w => some (.ok (hostBytes 4 info.policyFlags.toNat ++ (ownerBytes c info ++ (process ++ w))))

/-- The bytes for SM3 when there is no policy: the password alone. -/
def plainPasswd (passwd : Option CStr) : Except TssErr Bytes :=
  match passwd with
  | none => .error .parameter
  | some w => .ok w.bytes

/-- What is left when the record cannot be had: an error for a name, the password alone for
an index. -/
def NvKey.otherwise (passwd : Option CStr) (e : TssErr) : NvKey → Except TssErr Bytes
  | name _ => .error e
  | index _ => plainPasswd passwd

/-- `tcs_utils_get_policy_passwd`: the bytes for SM3.  `none` when a loop does not end or
memory is overwritten. -/
def tcsUtilsGetPolicyPasswd (io : PolicyIo) (file : Option Bytes) (key : NvKey)
    (passwd : Option CStr) : Option (Except TssErr Bytes) :=
  match tcsUtilsGetNvInfo io.read file key.hit with
  | none => none
  | some (.error e) => some (key.otherwise passwd e)
  | some (.ok p) =>
      let info := nvInfoToAuth p
      if info.policyFlags = noPolicy then some (plainPasswd passwd)
      else if ¬ io.record then some (key.otherwise passwd .nomem)
      else if info.processOrRole.isSome ∧ ¬ io.role then some (.error .nomem)
      else entryPasswd tsb c info passwd

end Use

/-! ### What the policy is about -/

/-- **The process satisfies the policy:** the user or group, the identity or role that it has
with the TSB, the password, and a kernel that the TSB measures clean where the policy asks
for one. -/
structure AuthPolicy.Satisfied (p : AuthPolicy) (tsb : Bool) (c : Caller) (passwd : Option CStr) :
    Prop where
  user : p.flags.user → c.uid = p.userOrGroup
  group : p.flags.group → c.gid = p.userOrGroup
  identity : p.flags.identity → tsb ∧ c.identity = some p.name
  role : p.flags.role → tsb ∧ c.member p.name
  passwd : p.flags.passwd → passwd = some p.passwd
  env : p.flags.env → tsb ∧ c.env

/-- The saved entry of a space on the policy. -/
def AuthPolicy.entry (p : AuthPolicy) (index size : UInt32) (name : NvName) : NvInfo where
  index := index
  size := size
  name := name
  policyFlags := p.policyFlags
  userOrGroup := p.userOrGroup
  processOrRole := p.processOrRole

/-- The first entry that the key is about. -/
def NvKey.Finds (key : NvKey) (l : List NvInfo) (e : NvInfo) : Prop :=
  ∃ as bs, l = as ++ e :: bs ∧ (∀ a ∈ as, ∀ r, key.hit (a.encoded ++ r) = false) ∧
    ∀ r, key.hit (e.encoded ++ r) = true

/-- Everything the use of a space asks the system for. -/
structure PolicyIo.Granted (io : PolicyIo) : Prop where
  read : io.read.Granted
  record : io.record = true
  role : io.role = true

/-- **The bytes agree exactly for the processes that satisfy the policy.** -/
def Authorises (tsb : Bool) (c : Caller) (io : PolicyIo) (file : Option Bytes) (key : NvKey)
    (p : AuthPolicy) (passwd : Option CStr) : Prop :=
  ∃ ret, tcsUtilsGetPolicyPasswd tsb c io file key passwd = some ret ∧
    (ret = tcsUtilsPolicyPasswd p ↔ p.Satisfied tsb c passwd)

/-- The kernel measures clean, if the policy asks for it. -/
def EnvMet (tsb : Bool) (c : Caller) (p : AuthPolicy) : Prop := p.flags.env → tsb ∧ c.env

/-- **When they do:** an identity that is asked for fits its buffer, and where all but the
role is right there is a TSB to ask for the role. -/
structure PolicyMet (tsb : Bool) (c : Caller) (p : AuthPolicy) (passwd : Option CStr) : Prop where
  fits : EnvMet tsb c p → p.flags.identity → tsb →
    ∀ n, c.identity = some n → n.strlen < processOrRoleSize
  role : p.flags.role → EnvMet tsb c p → (p.flags.user → c.uid = p.userOrGroup) →
    (p.flags.group → c.gid = p.userOrGroup) → (p.flags.passwd → passwd = some p.passwd) → tsb

section Bytes

variable {s t : CStr} {x y : Bytes}

/-- Strings with their ends are read off one after the other. -/
theorem withEnd_append_inj : withEnd s ++ x = withEnd t ++ y ↔ s = t ∧ x = y := by
  constructor
  · intro h
    have hcs : cstr (withEnd s ++ x) = s.bytes := by
      rw [withEnd, List.append_assoc, cstr_append_of_notMem s.nulFree]
      simp [cstr]
    have hct : cstr (withEnd t ++ y) = t.bytes := by
      rw [withEnd, List.append_assoc, cstr_append_of_notMem t.nulFree]
      simp [cstr]
    have hst : s = t := CStr.ext (by rw [← hcs, h, hct])
    subst hst
    exact ⟨rfl, List.append_cancel_left h⟩
  · rintro ⟨rfl, rfl⟩
    rfl

theorem withEnd_inj : withEnd s = withEnd t ↔ s = t := by
  have h := withEnd_append_inj (s := s) (t := t) (x := []) (y := [])
  simpa using h

end Bytes

section Agreement

variable {tsb : Bool} {c : Caller} {p : AuthPolicy} {passwd : Option CStr} {b : Bytes}
  {index size : UInt32} {name : NvName}

/-- A policy that was accepted. -/
structure AuthPolicy.Accepted (p : AuthPolicy) : Prop where
  owner : ¬ (p.flags.user ∧ p.flags.group)
  process : ¬ (p.flags.identity ∧ p.flags.role)

theorem policyPasswd_eq_ok (h : tcsUtilsPolicyPasswd p = .ok b) : p.Accepted ∧
    b = hostBytes 4 p.policyFlags.toNat ++
      ((if p.flags.user ∨ p.flags.group then hostBytes 4 p.userOrGroup.toNat else []) ++
      ((if p.flags.identity ∨ p.flags.role then withEnd p.name else []) ++
      (if p.flags.passwd then withEnd p.passwd else []))) := by
  unfold tcsUtilsPolicyPasswd at h
  split at h
  · cases h
  · rename_i hbad
    rw [not_or, not_or] at hbad
    exact ⟨⟨hbad.1, hbad.2.1⟩, (Except.ok.inj h).symm⟩

/-- No policy that was accepted has the flags of a space without one. -/
theorem flags_ne_noPolicy (h : p.Accepted) : p.policyFlags ≠ noPolicy := by
  intro hflags
  refine h.owner ?_
  rw [AuthPolicy.flags, hflags]
  decide

theorem ownerBytes_eq_iff (h : p.Accepted) :
    ownerBytes c (p.entry index size name) =
        (if p.flags.user ∨ p.flags.group then hostBytes 4 p.userOrGroup.toNat else []) ↔
      (p.flags.user → c.uid = p.userOrGroup) ∧ (p.flags.group → c.gid = p.userOrGroup) := by
  have hinj (x y : UInt32) : hostBytes 4 x.toNat = hostBytes 4 y.toNat ↔ x = y := by
    rw [hostBytes_inj x.toNat_lt y.toNat_lt, UInt32.toNat_inj]
  have hne := h.owner
  change (if p.flags.user then hostBytes 4 c.uid.toNat
    else if p.flags.group then hostBytes 4 c.gid.toNat else []) = _ ↔ _
  cases hu : p.flags.user <;> cases hg : p.flags.group <;> simp_all

theorem length_ownerBytes : (ownerBytes c (p.entry index size name)).length =
    (if p.flags.user ∨ p.flags.group then hostBytes 4 p.userOrGroup.toNat else []).length := by
  change (if p.flags.user then hostBytes 4 c.uid.toNat
    else if p.flags.group then hostBytes 4 c.gid.toNat else []).length = _
  cases hu : p.flags.user <;> cases hg : p.flags.group <;> simp

theorem envMet_iff : EnvMet tsb c p ↔ ¬ (p.flags.env ∧ measureEnv tsb c ≠ 0) := by
  rw [not_and_not_right, measureEnv_eq_zero]
  rfl

theorem passwdBytes_entry : passwdBytes (p.entry index size name) passwd =
    if p.flags.passwd then
      match passwd with
      | none => .error .parameter
      | some w => .ok (withEnd w)
    else .ok [] := rfl

/-- The name that the policy asks for. -/
def AuthPolicy.nameBytes (p : AuthPolicy) : Bytes :=
  if p.flags.identity ∨ p.flags.role then withEnd p.name else []

/-- With the name it has hashed, the use side agrees with the definition when the owner, the
name and the password do. -/
theorem entryPasswd_of_process (passwd : Option CStr) {process : Bytes} (hb : tcsUtilsPolicyPasswd p = .ok b)
    (henv : EnvMet tsb c p) (hproc : processBytes tsb c (p.entry index size name) = some (.ok process))
    (hshape : (∃ n m, process = withEnd n ∧ p.nameBytes = withEnd m) ∨ process = [] ∧ p.nameBytes = []) :
    ∃ ret, entryPasswd tsb c (p.entry index size name) passwd = some ret ∧
      (ret = .ok b ↔ ((p.flags.user → c.uid = p.userOrGroup) ∧ (p.flags.group → c.gid = p.userOrGroup)) ∧
        process = p.nameBytes ∧ (p.flags.passwd → passwd = some p.passwd)) := by
  obtain ⟨hacc, rfl⟩ := policyPasswd_eq_ok hb
  have hentry : entryPasswd tsb c (p.entry index size name) passwd =
      match passwdBytes (p.entry index size name) passwd with
      | .error e => some (.error e)
      | .ok w => some (.ok (hostBytes 4 p.policyFlags.toNat ++
          (ownerBytes c (p.entry index size name) ++ (process ++ w)))) := by
    rw [entryPasswd, hproc]
    exact if_neg (envMet_iff.mp henv)
  have hsplit (w w' : Bytes) : (hostBytes 4 p.policyFlags.toNat ++
        (ownerBytes c (p.entry index size name) ++ (process ++ w)) =
      hostBytes 4 p.policyFlags.toNat ++
        ((if p.flags.user ∨ p.flags.group then hostBytes 4 p.userOrGroup.toNat else []) ++
          (p.nameBytes ++ w'))) ↔
      ((p.flags.user → c.uid = p.userOrGroup) ∧ (p.flags.group → c.gid = p.userOrGroup)) ∧
        process ++ w = p.nameBytes ++ w' := by
    rw [List.append_cancel_left_eq, List.append_eq_append_iff_of_size_eq_left length_ownerBytes,
      ownerBytes_eq_iff hacc]
  rw [hentry, passwdBytes_entry]
  cases hP : p.flags.passwd with
  | false =>
      refine ⟨_, rfl, ?_⟩
      rw [Except.ok.injEq]
      refine (hsplit [] []).trans ?_
      rw [List.append_nil, List.append_nil]
      simp
  | true =>
      cases passwd with
      | none => exact ⟨_, rfl, by simp⟩
      | some w =>
          refine ⟨_, rfl, ?_⟩
          rw [Except.ok.injEq]
          refine (hsplit (withEnd w) (withEnd p.passwd)).trans (and_congr_right fun _ => ?_)
          rw [imp_iff_right rfl, Option.some.injEq]
          rcases hshape with ⟨n, m, hn, hm⟩ | ⟨hn, hm⟩
          · rw [hn, hm, withEnd_append_inj, withEnd_inj, withEnd_inj]
          · rw [hn, hm, List.nil_append, List.nil_append, withEnd_inj, and_iff_right rfl]

/-- The name of the entry is the name of the policy. -/
theorem processOrRole_eq (h : p.flags.identity ∨ p.flags.role) : p.processOrRole = some p.name := by
  obtain ⟨s, hs⟩ := Option.isSome_iff_exists.mp (p.named h)
  rw [AuthPolicy.name, hs, Option.getD_some]

/-- What stands for the identity or the role of the process. -/
theorem processBytes_entry : processBytes tsb c (p.entry index size name) =
    if p.flags.identity then
      match getProcessIdentity tsb c with
      | none => some (.error .adminAuth)
      | some n => if (withEnd n).length > processOrRoleSize then none else some (.ok (withEnd n))
    else if p.flags.role then
      if tsbIsRoleMember tsb c p.name = 0 then some (.error .adminAuth) else some (.ok (withEnd p.name))
    else some (.ok []) := by
  unfold processBytes
  change (if p.flags.identity then _ else if p.flags.role then match p.processOrRole with
    | none => none
    | some r => _ else _) = _
  split_ifs with hi hr
  · rfl
  · rw [processOrRole_eq (.inr hr)]
    rename_i hm
    exact if_pos hm
  · rw [processOrRole_eq (.inr hr)]
    rename_i hm
    exact if_neg hm
  · rfl

/-- Without the kernel that the policy asks for, there is no hash. -/
theorem entryPasswd_of_not_env (h : ¬ EnvMet tsb c p) :
    entryPasswd tsb c (p.entry index size name) passwd = some (.error .adminAuth) := by
  rw [envMet_iff, not_not] at h
  rw [entryPasswd]
  exact if_pos h

/-- Without an identity, or a membership, there is no hash either. -/
theorem entryPasswd_of_error {e : TssErr} (henv : EnvMet tsb c p)
    (hproc : processBytes tsb c (p.entry index size name) = some (.error e)) :
    entryPasswd tsb c (p.entry index size name) passwd = some (.error e) := by
  rw [entryPasswd, hproc]
  exact if_neg (envMet_iff.mp henv)

/-- **The use side,** case by case: no hash for an identity that does not fit, and otherwise
the bytes of the definition exactly for these processes. -/
theorem entryPasswd_spec (hb : tcsUtilsPolicyPasswd p = .ok b) :
    ((∃ n, EnvMet tsb c p ∧ p.flags.identity ∧ tsb ∧ c.identity = some n ∧ processOrRoleSize ≤ n.strlen) ∧
        entryPasswd tsb c (p.entry index size name) passwd = none) ∨
      (∀ n, EnvMet tsb c p → p.flags.identity → tsb → c.identity = some n → n.strlen < processOrRoleSize) ∧
        ∃ ret, entryPasswd tsb c (p.entry index size name) passwd = some ret ∧
          (ret = .ok b ↔ EnvMet tsb c p ∧
            ((p.flags.user → c.uid = p.userOrGroup) ∧ (p.flags.group → c.gid = p.userOrGroup)) ∧
            (p.flags.identity → tsb ∧ c.identity = some p.name) ∧
            (p.flags.role → tsb → c.member p.name) ∧ (p.flags.passwd → passwd = some p.passwd)) := by
  by_cases henv : EnvMet tsb c p
  · have hproc := @processBytes_entry tsb c p index size name
    obtain ⟨hacc, -⟩ := policyPasswd_eq_ok hb
    cases hi : p.flags.identity with
    | true =>
        have hr : p.flags.role = false := by
          have hne := hacc.process
          simpa [hi] using hne
        have hname : p.nameBytes = withEnd p.name := if_pos (.inl hi)
        rw [hi, if_pos rfl] at hproc
        cases hg : getProcessIdentity tsb c with
        | none =>
            have hno (n : CStr) : ¬ (tsb = true ∧ c.identity = some n) := fun h => by
              rw [getProcessIdentity_eq_some.mpr h] at hg
              cases hg
            rw [hg] at hproc
            refine .inr ⟨fun n _ _ ht hn => absurd ⟨ht, hn⟩ (hno n), _, entryPasswd_of_error henv hproc, ?_⟩
            refine iff_of_false nofun ?_
            rintro ⟨-, -, hid, -, -⟩
            exact hno _ (hid rfl)
        | some n =>
            obtain ⟨ht, hn⟩ := getProcessIdentity_eq_some.mp hg
            have hlen : (withEnd n).length = n.strlen + 1 := by simp [withEnd, CStr.strlen]
            rw [hg] at hproc
            by_cases hfit : (withEnd n).length > processOrRoleSize
            · refine .inl ⟨⟨n, henv, rfl, ht, hn, by omega⟩, ?_⟩
              rw [entryPasswd, hproc]
              exact (if_neg (envMet_iff.mp henv)).trans (by simp only [if_pos hfit])
            · refine .inr ⟨fun m _ _ _ hm => ?_, ?_⟩
              · obtain rfl := Option.some.inj (hn.symm.trans hm)
                omega
              · simp only [if_neg hfit] at hproc
                obtain ⟨ret, hret, hiff⟩ := entryPasswd_of_process passwd hb henv hproc
                  (.inl ⟨n, p.name, rfl, hname⟩)
                refine ⟨ret, hret, hiff.trans ?_⟩
                rw [hname, withEnd_inj, hn, Option.some.injEq, hr]
                exact ⟨fun h => ⟨henv, h.1, fun _ => ⟨ht, h.2.1⟩, nofun, h.2.2⟩,
                  fun h => ⟨h.2.1, (h.2.2.1 rfl).2, h.2.2.2.2⟩⟩
    | false =>
        rw [hi, if_neg Bool.false_ne_true] at hproc
        refine .inr ⟨nofun, ?_⟩
        cases hr : p.flags.role with
        | true =>
            have hname : p.nameBytes = withEnd p.name := if_pos (.inr hr)
            rw [hr, if_pos rfl] at hproc
            by_cases hm : tsbIsRoleMember tsb c p.name = 0
            · rw [if_pos hm] at hproc
              refine ⟨_, entryPasswd_of_error henv hproc, iff_of_false nofun ?_⟩
              rintro ⟨-, -, -, hmem, -⟩
              exact tsbIsRoleMember_ne_zero.mpr (hmem rfl) hm
            · rw [if_neg hm] at hproc
              have hmem := tsbIsRoleMember_ne_zero.mp hm
              obtain ⟨ret, hret, hiff⟩ := entryPasswd_of_process passwd hb henv hproc
                (.inl ⟨p.name, p.name, rfl, hname⟩)
              refine ⟨ret, hret, hiff.trans ?_⟩
              exact ⟨fun h => ⟨henv, h.1, nofun, fun _ => hmem, h.2.2⟩,
                fun h => ⟨h.2.1, hname.symm, h.2.2.2.2⟩⟩
        | false =>
            have hname : p.nameBytes = [] := if_neg (by simp [hi, hr])
            rw [hr, if_neg Bool.false_ne_true] at hproc
            obtain ⟨ret, hret, hiff⟩ := entryPasswd_of_process passwd hb henv hproc
              (.inr ⟨rfl, hname⟩)
            refine ⟨ret, hret, hiff.trans ?_⟩
            exact ⟨fun h => ⟨henv, h.1, nofun, nofun, h.2.2⟩,
              fun h => ⟨h.2.1, hname.symm, h.2.2.2.2⟩⟩
  · refine .inr ⟨fun n h => absurd h henv, _, entryPasswd_of_not_env henv, ?_⟩
    simp [henv]

/-- The entry of the policy is what the use side reads. -/
theorem getPolicyPasswd_eq {io : PolicyIo} {key : NvKey} {l : List NvInfo} (hacc : p.Accepted)
    (hio : io.Granted) (hfits : NvFits l) (hfind : key.Finds l (p.entry index size name)) :
    tcsUtilsGetPolicyPasswd tsb c io (some (nvFile l)) key passwd =
      entryPasswd tsb c (p.entry index size name) passwd := by
  obtain ⟨as, bs, rfl, has, he⟩ := hfind
  have hrole := hfits.roles (p.entry index size name) (by simp)
  have hflags : (p.entry index size name).policyFlags ≠ noPolicy := flags_ne_noPolicy hacc
  simp only [tcsUtilsGetPolicyPasswd, get_hit hio.read hfits has he, nvInfoToAuth_encoded hrole,
    if_neg hflags, hio.record, hio.role, not_true_eq_false, and_false, if_false]

/-- The saved entry authorises exactly the processes that satisfy the policy if and only if `PolicyMet`. -/
theorem entryPasswd_authorises_iff (hb : tcsUtilsPolicyPasswd p = .ok b) :
    (∃ ret, entryPasswd tsb c (p.entry index size name) passwd = some ret ∧
      (ret = .ok b ↔ p.Satisfied tsb c passwd)) ↔ PolicyMet tsb c p passwd := by
  obtain ⟨hacc, -⟩ := policyPasswd_eq_ok hb
  rcases @entryPasswd_spec tsb c p passwd b index size name hb with ⟨⟨n, henv, hi, ht, hn, hlong⟩, hnone⟩ | ⟨hfit, ret, hret, hiff⟩
  · refine iff_of_false ?_ fun h => absurd (h.fits henv hi ht n hn) (by omega)
    rintro ⟨ret, hret, -⟩
    rw [hnone] at hret
    cases hret
  · rw [hret]
    constructor
    · rintro ⟨ret', hret', hsat⟩
      obtain rfl := Option.some.inj hret'
      rw [hiff] at hsat
      refine ⟨fun henv hi ht n hn => hfit n henv hi ht hn, fun hr henv hu hg hp => ?_⟩
      by_contra hno
      have hi : p.flags.identity = true → False := fun hi => hacc.process ⟨hi, hr⟩
      exact hno ((hsat.mp ⟨henv, ⟨hu, hg⟩, fun h => (hi h).elim, fun _ ht => absurd ht hno, hp⟩).role hr).1
    · rintro hmet
      refine ⟨ret, rfl, hiff.trans ⟨?_, fun h => ?_⟩⟩
      · rintro ⟨henv, ⟨hu, hg⟩, hi, hr, hp⟩
        refine ⟨hu, hg, hi, fun h => ?_, hp, henv⟩
        have ht := hmet.role h henv hu hg hp
        exact ⟨ht, hr h ht⟩
      · exact ⟨h.env, ⟨h.user, h.group⟩, h.identity, fun hr _ => (h.role hr).2, h.passwd⟩

/-- **Policies and processes:** for a policy that was accepted and its saved entry, the bytes
that are hashed for a process are those of the definition exactly when the process
satisfies the policy — if and only if `PolicyMet`. -/
theorem policy_authorises_iff {io : PolicyIo} {key : NvKey} {l : List NvInfo}
    (hb : tcsUtilsPolicyPasswd p = .ok b) (hio : io.Granted) (hfits : NvFits l)
    (hfind : key.Finds l (p.entry index size name)) :
    Authorises tsb c io (some (nvFile l)) key p passwd ↔ PolicyMet tsb c p passwd := by
  obtain ⟨hacc, -⟩ := policyPasswd_eq_ok hb
  rw [Authorises, getPolicyPasswd_eq hacc hio hfits hfind, hb]
  exact entryPasswd_authorises_iff hb

end Agreement

/-- A policy on membership of the role `r`. -/
def rolePolicy : AuthPolicy where
  policyFlags := policyFlagProcessRole
  userOrGroup := 0
  processOrRole := some ⟨[114], by decide⟩
  password := none
  named := fun _ => rfl
  passworded := by decide

/-- A process without identity or role. -/
def nobody : Caller where
  uid := 1000
  gid := 1000
  identity := none
  member := fun _ => false
  env := true

/-- A reader of the directory that gets all it asks for. -/
def PolicyIo.granted : PolicyIo := ⟨⟨.taken, true, true, true, []⟩, true, true⟩

/-- The directory with the one space of the policy. -/
def roleEntry : NvInfo := rolePolicy.entry 5 16 (NvName.ofCStr CStr.empty)

theorem roleEntry_fits : NvFits [roleEntry] where
  small := by
    have hlen : (nvFile [roleEntry]).length = roleEntry.encoded.length := by simp [nvFile]
    rw [hlen, NvInfo.length_encoded]
    decide
  roles := by
    intro e he
    obtain rfl := List.mem_singleton.mp he
    decide

theorem roleEntry_found : (NvKey.index 5).Finds [roleEntry] roleEntry :=
  ⟨[], [], rfl, nofun, fun _ => hasIndex_encoded.trans (by decide)⟩

/-- With a TSB, the process without the role is turned away. -/
theorem role_asked_for : Authorises true nobody PolicyIo.granted (some (nvFile [roleEntry]))
    (.index 5) rolePolicy none :=
  (policy_authorises_iff (b := hostBytes 4 16 ++ [114, 0]) rfl ⟨⟨rfl, rfl, rfl, rfl⟩, rfl, rfl⟩
    roleEntry_fits roleEntry_found).mpr
    ⟨fun _ h => absurd h (by decide), fun _ _ _ _ _ => rfl⟩

/-- **Without one, it is let in:** the bytes are those of the definition, and the process has
no role. -/
theorem role_not_asked_for :
    tcsUtilsGetPolicyPasswd false nobody PolicyIo.granted (some (nvFile [roleEntry])) (.index 5) none =
        some (tcsUtilsPolicyPasswd rolePolicy) ∧
      ¬ rolePolicy.Satisfied false nobody none ∧
      ¬ Authorises false nobody PolicyIo.granted (some (nvFile [roleEntry])) (.index 5) rolePolicy none := by
  have hacc : rolePolicy.Accepted := ⟨by decide, by decide⟩
  have hget : tcsUtilsGetPolicyPasswd false nobody PolicyIo.granted (some (nvFile [roleEntry])) (.index 5)
      none = some (tcsUtilsPolicyPasswd rolePolicy) :=
    (getPolicyPasswd_eq hacc ⟨⟨rfl, rfl, rfl, rfl⟩, rfl, rfl⟩ roleEntry_fits roleEntry_found).trans
      (by decide)
  have hsat : ¬ rolePolicy.Satisfied false nobody none :=
    fun h => absurd (h.role (by decide)).1 Bool.false_ne_true
  refine ⟨hget, hsat, ?_⟩
  rintro ⟨ret, hret, hiff⟩
  rw [hget] at hret
  obtain rfl := Option.some.inj hret
  exact hsat (hiff.mp rfl)

end Tcs
end TsbAgent
