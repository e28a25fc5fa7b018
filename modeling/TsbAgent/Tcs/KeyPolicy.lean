/-
# Keys with a policy

`tss-main/tcs/tcsapi/tcsu/tcs_key.c`: a key that is created on a policy gets the hash of the
policy as its authorisation, the policy is saved beside the key as `<path><name>.policy`, and
whoever uses the key computes a hash of himself from that file.  `tcs_utils_policy_passwd` is the
function of the NV spaces again (`TsbAgent.Tcs.NvPolicy`), word for word.

| bytes of the file | |
| --- | --- |
| 0 – 3 | `policy_flags` |
| 4 – 7 | `user_or_group` |
| 8 – 15 | `prlength`, the length of the name with its end, 0 without a name |
| 16 – | the name with its end |

From a whole file the use side hashes what it hashes for an NV space (`savedPasswd_record`), with the
same two slips.  But the file need not be whole: `tcs_utils_save_policy` sets `ret` to
`TSS_ERR_WRITE` after a short write, and to `TSS_SUCCESS` on the next line.  And the creation of an
external encryption key succeeds without a key and without a file when `TCM_GetRandom` gives too
few bytes.
-/

import TsbAgent.Httcutils.File
import TsbAgent.Tcs.NvPolicy

namespace TsbAgent
namespace Tcs
namespace Key

open Libc Word File Httcutils

/-! ### The policy file -/

/-- The bytes of `struct save_policy` for the policy. -/
def record (p : AuthPolicy) : Bytes :=
  hostBytes 4 p.policyFlags.toNat ++ (hostBytes 4 p.userOrGroup.toNat ++
    match p.processOrRole with
    | none => hostBytes 8 0
    | some s => hostBytes 8 (s.strlen + 1) ++ withEnd s)

/-- What the system grants `tcs_utils_save_policy`: the record, the name of the file, the write. -/
structure SaveIo where
  record : Bool
  fileName : Bool
  write : Stream

/-- `tcs_utils_save_policy`: what it returns, and the policy file. -/
def tcsUtilsSavePolicy (io : SaveIo) (file : Option Bytes) (p : AuthPolicy) :
    Option TssErr × Option Bytes :=
  if ¬ io.record then (some .nomem, file)
  else if ¬ io.fileName then (some .nomem, file)
  else
    let (written, file) := httcUtilFileWrite io.write file (record p)
    let _ret := if written ≠ (record p).length then some TssErr.write else none
    -- `ret = TSS_SUCCESS;` whatever was written
    (none, file)

section Use

variable (tsb : Bool) (c : Caller)

/-- The identity of the process; `none` when it is written past its buffer. -/
def identityPart (flags : NvFlags) : Option (Except TssErr Bytes) :=
  if flags.identity then
    match getProcessIdentity tsb c with
    | none => some (.error .adminAuth)
    | some n => if (withEnd n).length > processOrRoleSize then none else some (.ok (withEnd n))
  else some (.ok [])

/-- The role of the file; `none` when the file does not hold what is read. -/
def rolePart (flags : NvFlags) (policy : Bytes) : Option (Except TssErr Bytes) :=
  if flags.role then
    if policy.length < 16 then none
    else if tsbIsRoleMember tsb c (CStr.ofBytes (policy.drop 16)) = 0 then some (.error .adminAuth)
    else if (policy.drop 16).length < hostAt policy 8 8 then none
    else some (.ok ((policy.drop 16).take (hostAt policy 8 8)))
  else some (.ok [])

/-- The password, where the flags ask for it. -/
def passwdPart (flags : NvFlags) (passwd : Option CStr) : Except TssErr Bytes :=
  if flags.passwd then
    match passwd with
    | none => .error .parameter
    | some w => .ok (withEnd w)
  else .ok []

/-- The user or the group. -/
def ownerPart (flags : NvFlags) : Bytes :=
  if flags.user then hostBytes 4 c.uid.toNat else if flags.group then hostBytes 4 c.gid.toNat else []

/-- The bytes for SM3 from a policy file. -/
def savedPasswd (policy : Bytes) (passwd : Option CStr) : Option (Except TssErr Bytes) :=
  if policy.length < 4 then none
  else
    let policyFlags := UInt32.ofNat (hostAt policy 0 4)
    let flags := NvFlags.of policyFlags
    if flags.env ∧ measureEnv tsb c ≠ 0 then some (.error .adminAuth)
    else
      match identityPart tsb c flags with
      | none => none
      | some (.error e) => some (.error e)
      | some (.ok identity) =>
          match rolePart tsb c flags policy with
          | none => none
          | some (.error e) => some (.error e)
          | some (.ok role) =>
              match passwdPart flags passwd with
              | .error e => some (.error e)
              | .ok w =>
                  some (.ok (hostBytes 4 policyFlags.toNat ++
                    (ownerPart c flags ++ (identity ++ role ++ w))))

/-- `tcs_utils_get_policy_passwd`: the bytes for SM3; without a policy file, the password alone. -/
def tcsUtilsGetPolicyPasswd (buf : Bool) (io : ReadIo) (file : Option Bytes) (passwd : Option CStr) :
    Option (Except TssErr Bytes) :=
  if ¬ buf then some (.error .nomem)
  else
    match httcUtilFileReadFull io file with
    | some policy => savedPasswd tsb c policy passwd
    | none => some (plainPasswd passwd)

end Use

/-! ### Creating a key -/

/-- What a step of a creation leads to: the next step, or a return with `ret`. -/
inductive Outcome
  | goesOn
  | returns (ret : Option TssErr)

/-- The first return of the steps. -/
def firstReturn : List Outcome → Option (Option TssErr)
  | [] => none
  | .goesOn :: os => firstReturn os
  | .returns ret :: _ => some ret

/-- A call whose result is tested against 0. -/
def Outcome.ofCall : Option TssErr → Outcome
  | none => .goesOn
  | some e => .returns (some e)

/-- A test that ends the creation with an error. -/
def Outcome.unless (ok : Bool) (e : TssErr) : Outcome := if ok then .goesOn else .returns (some e)

/-- The kinds of keys that can be created on a policy. -/
inductive KeyKind
  | sign
  | encrypt
  | innerEncrypt
  | seal

/-- `type`. -/
inductive KeyType
  | sm2128
  | sm4128
  | other
deriving DecidableEq

/-- `SM4_KEY_SIZE * 2`. -/
def encryptKeySize : ℕ := 32

/-- What the system and the TCM answer during a creation. -/
structure CreateIo where
  buf : Bool
  keyName : Bool
  semGet : Option TssErr
  analysisKeypath : Option TssErr
  tcmOpen : Option TssErr
  getRandom : Option TssErr
  encryptKeyLen : ℕ
  treeKeyCreate : Option TssErr
  sm4Encrypt : Option TssErr
  keyFile : Bool
  save : SaveIo

/-- `tcs_utils_policy_passwd` as a step. -/
def policyStep (p : AuthPolicy) : Outcome :=
  match tcsUtilsPolicyPasswd p with
  | .error e => .returns (some e)
  | .ok _ => .goesOn

/-- `TCM_GetRandom`: with too few bytes and no error, `ret` is still 0. -/
def randomStep (io : CreateIo) : Outcome :=
  match io.getRandom with
  | some e => .returns (some e)
  | none => if io.encryptKeyLen ≠ encryptKeySize then .returns none else .goesOn

/-- The steps of `tcs_create_sign_key_on_policy`, `tcs_create_encrypt_key_on_policy`,
`tcs_create_inner_encrypt_key_on_policy` and `tcs_create_seal_key_on_policy` before the policy is
saved, in the order of each. -/
def KeyKind.steps (io : CreateIo) (keyPath : Option CStr) (type : KeyType) (p : AuthPolicy) :
    KeyKind → List Outcome
  | .sign =>
      [.unless (keyPath.isSome && type = .sm2128) .parameter, .unless io.buf .nomem, .ofCall io.semGet,
       .ofCall io.analysisKeypath, policyStep p, .ofCall io.tcmOpen, .ofCall io.treeKeyCreate]
  | .encrypt =>
      [.unless (keyPath.isSome && type = .sm4128) .parameter, policyStep p, .unless io.buf .nomem,
       .unless io.keyName .nomem, .ofCall io.semGet, .ofCall io.tcmOpen, randomStep io,
       .ofCall io.analysisKeypath, .ofCall io.treeKeyCreate, .ofCall io.sm4Encrypt,
       .unless io.keyFile .write]
  | .innerEncrypt =>
      [.unless (keyPath.isSome && type = .sm4128) .parameter, policyStep p, .unless io.buf .nomem,
       .unless io.keyName .nomem, .ofCall io.semGet, .ofCall io.analysisKeypath, .ofCall io.tcmOpen,
       .ofCall io.treeKeyCreate]
  | .seal =>
      [.unless (keyPath.isSome && type ≠ .other) .parameter, policyStep p, .unless io.buf .nomem,
       .ofCall io.semGet, .ofCall io.analysisKeypath, .ofCall io.tcmOpen, .ofCall io.treeKeyCreate]

/-- The creation of a key on a policy: what it returns, and the policy file.  After an error of
`tcs_utils_save_policy` the key tree is deleted. -/
def tcsCreateKeyOnPolicy (k : KeyKind) (io : CreateIo) (keyPath : Option CStr) (type : KeyType)
    (file : Option Bytes) (p : AuthPolicy) : Option TssErr × Option Bytes :=
  match firstReturn (k.steps io keyPath type p) with
  | some ret => (ret, file)
  | none => tcsUtilsSavePolicy io.save file p

/-! ### From the file -/

section Agreement

variable {tsb : Bool} {c : Caller} {p : AuthPolicy} {passwd : Option CStr} {b : Bytes}

theorem length_record : 16 ≤ (record p).length := by
  unfold record
  split
  · simp
  · simp
    omega

theorem flags_record : UInt32.ofNat (hostAt (record p) 0 4) = p.policyFlags := by
  have h := @hostAt_append [] (hostBytes 4 p.userOrGroup.toNat ++
    match p.processOrRole with
    | none => hostBytes 8 0
    | some s => hostBytes 8 (s.strlen + 1) ++ withEnd s) 0 4 p.policyFlags.toNat rfl p.policyFlags.toNat_lt
  rw [List.nil_append] at h
  rw [record, h, UInt32.ofNat_toNat]

theorem record_of_name {s : CStr} (h : p.processOrRole = some s) : record p =
    (hostBytes 4 p.policyFlags.toNat ++ hostBytes 4 p.userOrGroup.toNat) ++
      (hostBytes 8 (s.strlen + 1) ++ withEnd s) := by
  simp [record, h]

theorem data_record {s : CStr} (h : p.processOrRole = some s) : (record p).drop 16 = withEnd s := by
  rw [record_of_name h, ← List.append_assoc]
  exact List.drop_left' (by simp)

/-- A name that a policy with a role was accepted with is short. -/
theorem strlen_le_of_ok (hb : tcsUtilsPolicyPasswd p = .ok b) (hr : p.flags.role = true) :
    p.name.strlen ≤ maxNameLength := by
  unfold tcsUtilsPolicyPasswd at hb
  split at hb
  · cases hb
  · rename_i hbad
    simp only [not_or] at hbad
    exact not_lt.mp fun h => hbad.2.2.2 ⟨.inr hr, h⟩

/-- The role read back from the file is the role of the policy. -/
theorem rolePart_record (hb : tcsUtilsPolicyPasswd p = .ok b) :
    rolePart tsb c p.flags (record p) =
      if p.flags.role then
        if tsbIsRoleMember tsb c p.name = 0 then some (.error .adminAuth) else some (.ok (withEnd p.name))
      else some (.ok []) := by
  unfold rolePart
  cases hr : p.flags.role with
  | false => rfl
  | true =>
      have hname := processOrRole_eq (.inr hr)
      have hle := strlen_le_of_ok hb hr
      have hlen : (withEnd p.name).length = p.name.strlen + 1 := by simp [withEnd, CStr.strlen]
      have hn : p.name.strlen + 1 < 256 ^ 8 := by
        have : maxNameLength < 256 := by decide
        omega
      have hpr : hostAt (record p) 8 8 = p.name.strlen + 1 := by
        rw [record_of_name hname]
        exact hostAt_append (by simp) hn
      have hstr : CStr.ofBytes (withEnd p.name) = p.name := CStr.ofBytes_terminated p.name []
      rw [if_pos rfl, if_pos rfl, if_neg (not_lt.mpr length_record), data_record hname, hstr, hpr,
        if_neg (not_lt.mpr hlen.ge), ← hlen, List.take_length]

/-- **From a whole file** the use side hashes what it hashes for an NV space on the same policy. -/
theorem savedPasswd_record (hb : tcsUtilsPolicyPasswd p = .ok b) (index size : UInt32) (name : NvName) :
    savedPasswd tsb c (record p) passwd = entryPasswd tsb c (p.entry index size name) passwd := by
  obtain ⟨hacc, -⟩ := policyPasswd_eq_ok hb
  have hlen : ¬ (record p).length < 4 := by
    have := @length_record p
    omega
  have hflags : NvFlags.of p.policyFlags = p.flags := rfl
  unfold savedPasswd entryPasswd
  rw [if_neg hlen]
  simp only [flags_record, hflags, rolePart_record hb, processBytes_entry, identityPart]
  change (if p.flags.env ∧ measureEnv tsb c ≠ 0 then _ else _) = if p.flags.env ∧ measureEnv tsb c ≠ 0 then _ else _
  refine if_congr Iff.rfl rfl ?_
  cases hi : p.flags.identity with
  | true =>
      have hr : p.flags.role = false := by
        have hne := hacc.process
        simpa [hi] using hne
      cases hg : getProcessIdentity tsb c with
      | none => simp
      | some n =>
          by_cases hfit : (withEnd n).length > processOrRoleSize
          · simp [hfit]
          · simp only [hr, hfit, if_true, if_false, Bool.false_eq_true, List.append_nil]
            rfl
  | false =>
      cases hr : p.flags.role with
      | true =>
          by_cases hm : tsbIsRoleMember tsb c p.name = 0
          · simp [hm]
          · simp only [hm, if_true, if_false, Bool.false_eq_true, List.nil_append]
            rfl
      | false =>
          simp only [if_false, Bool.false_eq_true, List.nil_append]
          rfl

/-! ### Creation, saving and use -/

/-- The whole policy file is in place: the write is taken, or the file cannot be opened and was the
same before. -/
def Lands (io : Stream) (file : Option Bytes) (b : Bytes) : Prop :=
  Takes io b.length ∨ io.opens = false ∧ file = some b

theorem httcUtilFileWrite_eq_some_iff {io : Stream} {file : Option Bytes} (hne : b ≠ []) :
    (httcUtilFileWrite io file b).2 = some b ↔ Lands io file b := by
  unfold httcUtilFileWrite Lands
  cases ho : io.opens with
  | false =>
      have hno : ¬ Takes io b.length := fun h => Bool.false_ne_true (ho.symm.trans h.opens)
      simp [hno]
  | true =>
      have hpos := List.length_pos_iff.mpr hne
      simp only [not_true_eq_false, if_false, Option.some.injEq, Bool.true_eq_false, false_and, or_false]
      constructor
      · intro h
        have hlen := congrArg List.length h
        rw [Stream.length_kept, List.length_take] at hlen
        exact ⟨ho, by omega, by omega⟩
      · intro h
        exact kept_of_takes h le_rfl

/-- **When a creation leaves its file:** if all steps before succeed and the memory is there, the file
lands; and if `TCM_GetRandom` has given too few bytes, the file was there before. -/
structure FileMet (k : KeyKind) (io : CreateIo) (keyPath : Option CStr) (type : KeyType)
    (file : Option Bytes) (p : AuthPolicy) : Prop where
  lands : firstReturn (k.steps io keyPath type p) = none → io.save.record → io.save.fileName →
    Lands io.save.write file (record p)
  random : firstReturn (k.steps io keyPath type p) = some none → file = some (record p)

theorem create_complete_iff {k : KeyKind} {io : CreateIo} {keyPath : Option CStr} {type : KeyType}
    {file : Option Bytes} :
    ((tcsCreateKeyOnPolicy k io keyPath type file p).1 = none →
      (tcsCreateKeyOnPolicy k io keyPath type file p).2 = some (record p)) ↔
      FileMet k io keyPath type file p := by
  have hne : record p ≠ [] := List.ne_nil_of_length_pos (lt_of_lt_of_le (by decide) length_record)
  unfold tcsCreateKeyOnPolicy
  cases hf : firstReturn (k.steps io keyPath type p) with
  | some ret =>
      cases ret with
      | some e => exact ⟨fun _ => ⟨by simp [hf], by simp [hf]⟩, fun _ => by simp⟩
      | none => exact ⟨fun h => ⟨by simp [hf], fun _ => h rfl⟩, fun h _ => h.random hf⟩
  | none =>
      simp only [tcsUtilsSavePolicy]
      cases hr : io.save.record with
      | false => exact ⟨fun _ => ⟨by simp [hr], by simp [hf]⟩, fun _ => by simp⟩
      | true =>
          cases hn : io.save.fileName with
          | false => exact ⟨fun _ => ⟨by simp [hn], by simp [hf]⟩, fun _ => by simp⟩
          | true =>
              have hwrite := @httcUtilFileWrite_eq_some_iff (record p) io.save.write file hne
              exact ⟨fun h => ⟨fun _ _ _ => hwrite.mp (h rfl), by simp [hf]⟩,
                fun h _ => hwrite.mpr (h.lands hf hr hn)⟩

/-- **Creation, saving and use:** for a policy that was accepted, the bytes hashed for a process from its
file are those of the creation exactly when the process satisfies the policy, and a creation that
succeeds leaves the whole file — if and only if `PolicyMet` and `FileMet`. -/
theorem key_policy_iff {k : KeyKind} {io : CreateIo} {keyPath : Option CStr} {type : KeyType}
    {file : Option Bytes} {read : ReadIo} (hb : tcsUtilsPolicyPasswd p = .ok b)
    (hread : httcUtilFileReadFull read (some (record p)) = some (record p)) :
    ((∃ ret, tcsUtilsGetPolicyPasswd tsb c true read (some (record p)) passwd = some ret ∧
        (ret = .ok b ↔ p.Satisfied tsb c passwd)) ∧
      ((tcsCreateKeyOnPolicy k io keyPath type file p).1 = none →
        (tcsCreateKeyOnPolicy k io keyPath type file p).2 = some (record p))) ↔
      PolicyMet tsb c p passwd ∧ FileMet k io keyPath type file p := by
  rw [create_complete_iff]
  refine and_congr_left fun _ => ?_
  rw [tcsUtilsGetPolicyPasswd, hread, if_neg (by simp)]
  simp only [savedPasswd_record hb 0 0 (NvName.ofCStr CStr.empty)]
  exact entryPasswd_authorises_iff hb

end Agreement

/-- A policy on the user root. -/
def rootPolicy : AuthPolicy where
  policyFlags := policyFlagUserId
  userOrGroup := 0
  processOrRole := none
  password := none
  named := by decide
  passworded := by decide

/-- Every step succeeds; the policy file is written as the stream lets it. -/
def CreateIo.succeeds (write : Stream) : CreateIo :=
  ⟨true, true, none, none, none, none, encryptKeySize, none, none, true, ⟨true, true, write⟩⟩

/-- The bytes for SM3 of a key for root. -/
def rootBytes : Bytes := hostBytes 4 32 ++ hostBytes 4 0

theorem rootPolicy_ok : tcsUtilsPolicyPasswd rootPolicy = .ok rootBytes := by decide

/-- A signing key for root, with a policy file of 16 bytes that is written. -/
theorem key_policy_root :
    (∃ ret, tcsUtilsGetPolicyPasswd true nobody true ⟨true, true, true⟩ (some (record rootPolicy)) none =
        some ret ∧ (ret = .ok rootBytes ↔ rootPolicy.Satisfied true nobody none)) ∧
      ((tcsCreateKeyOnPolicy .sign (CreateIo.succeeds ⟨true, 16, 0⟩) (some CStr.empty) .sm2128 none
          rootPolicy).1 = none →
        (tcsCreateKeyOnPolicy .sign (CreateIo.succeeds ⟨true, 16, 0⟩) (some CStr.empty) .sm2128 none
          rootPolicy).2 = some (record rootPolicy)) := by
  refine (key_policy_iff rootPolicy_ok (by decide)).mpr ⟨⟨fun _ h => ?_, fun h => ?_⟩,
    ⟨fun _ _ _ => ?_, fun h => ?_⟩⟩
  · exact absurd h (by decide)
  · exact absurd h (by decide)
  · exact .inl ⟨rfl, by decide, rfl⟩
  · exact absurd h (by decide)

/-- **The policy file cannot be opened:** the creation of the signing key succeeds without it. -/
theorem key_without_policy_file : tcsUtilsPolicyPasswd rootPolicy = .ok rootBytes ∧
    (tcsCreateKeyOnPolicy .sign (CreateIo.succeeds ⟨false, 0, 0⟩) (some CStr.empty) .sm2128 none
      rootPolicy) = (none, none) :=
  ⟨rootPolicy_ok, by decide⟩

end Key
end Tcs
end TsbAgent
