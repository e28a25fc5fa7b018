/-
# The certificate of an administrator

`tcs_util_get_cert_by_uid` (`tss-main/tcs/tcsapi/tcsu/tcs_util_policy_update.c`) and
`tcs_dev_get_cert_by_uid` (`tcs_cert_verify.c`) look the signer of an update up in the
list of administrators that the TPCM keeps.  Both compare

`strncmp (name, uid, strlen (uid) < 32 ? strlen (uid) : 32)`

so a name matches as soon as it *begins* with the first 32 bytes of `uid`
(`certMatches_iff`): with a proper prefix of it, and for the empty `uid` every name does.
The two differ when nobody matches: the first returns `TSS_ERR_INVALID_UID`, the
second what `tcs_get_admin_list` returned, which is success.

`cert_lookup_exact_iff` says when they are right all the same.
-/

import TsbAgent.Tcs.Basic

namespace TsbAgent
namespace Tcs

open Libc

/-- `TPCM_UID_MAX_LENGTH`. -/
def tpcmUidMaxLength : ℕ := 32

/-- `MAX_CERT_SIZE`. -/
def maxCertSize : ℕ := 64

/-- `struct admin_cert_item`. -/
structure AdminCertItem where
  certType : UInt32
  certLen : UInt32
  name : { b : Bytes // b.length = tpcmUidMaxLength }
  data : { b : Bytes // b.length = maxCertSize }

/-- The name as a string; it may fill its array. -/
def AdminCertItem.nameString (c : AdminCertItem) : CStr := CStr.ofBytes c.name.1

/-- The test of both loops. -/
def certMatches (uid : CStr) (c : AdminCertItem) : Bool :=
  strncmp (if uid.strlen < tpcmUidMaxLength then uid.strlen else tpcmUidMaxLength)
    c.name.1 uid.bytes = 0

/-- The loop of both functions: the first item that matches. -/
def findCert (uid : CStr) : List AdminCertItem → Option AdminCertItem
  | [] => none
  | c :: cs => if certMatches uid c then some c else findCert uid cs

/-- `tcs_util_get_cert_by_uid`. -/
def tcsUtilGetCertByUid (adminList : Except TssErr (List AdminCertItem)) (uid : Option CStr) :
    Except TssErr AdminCertItem :=
  match adminList with
  | .error e => .error e
  | .ok policy =>
      match policy, uid with
      | [], _ => .error .itemNotFound
      | c :: _, none => .ok c
      | policy, some uid =>
          match findCert uid policy with
          | some c => .ok c
          | none => .error .invalidUid

/-- `tcs_dev_get_cert_by_uid`; the certificate stays unset when nobody matches. -/
def tcsDevGetCertByUid (adminList : Except TssErr (List AdminCertItem)) (uid : CStr) :
    Except TssErr (Option AdminCertItem) :=
  match adminList with
  | .error e => .error e
  | .ok item => .ok (findCert uid item)

/-- The lookup of `uid` in a list is exact: it succeeds when, and only when, an administrator
has that name, and then with the certificate of an administrator of that name. -/
def ExactLookup (uid : CStr) (l : List AdminCertItem)
    (r : Except TssErr (Option AdminCertItem)) : Prop :=
  ((∃ cert, r = .ok cert) ↔ ∃ c ∈ l, c.nameString = uid) ∧
    ∀ cert, r = .ok cert → ∃ c ∈ l, cert = some c ∧ c.nameString = uid

/-- `c` is the first of the list whose name begins with the first 32 bytes of `uid`. -/
def FirstMatch (uid : CStr) (l : List AdminCertItem) (c : AdminCertItem) : Prop :=
  ∃ l₁ l₂, l = l₁ ++ c :: l₂ ∧ uid.bytes.take tpcmUidMaxLength <+: c.nameString.bytes ∧
    ∀ d ∈ l₁, ¬ uid.bytes.take tpcmUidMaxLength <+: d.nameString.bytes

section Lookup

variable {uid : CStr} {l : List AdminCertItem} {c : AdminCertItem}

/-- **A name matches when it begins with the first 32 bytes of the `uid`.** -/
theorem certMatches_iff : certMatches uid c = true ↔
    uid.bytes.take tpcmUidMaxLength <+: c.nameString.bytes := by
  have hn : (if uid.strlen < tpcmUidMaxLength then uid.strlen else tpcmUidMaxLength) =
      min tpcmUidMaxLength uid.bytes.length := by
    rw [CStr.strlen]
    split_ifs <;> omega
  have huid : cstr (uid.bytes.take (min tpcmUidMaxLength uid.bytes.length)) =
      uid.bytes.take tpcmUidMaxLength := by
    rw [cstr_take, cstr_of_nulFree uid.nulFree, ← List.take_take, List.take_length]
  rw [certMatches, hn, decide_eq_true_iff, strncmp_eq_zero, huid, cstr_take,
    List.prefix_iff_eq_take, List.length_take]
  exact eq_comm

theorem findCert_eq_find (uid : CStr) (l : List AdminCertItem) :
    findCert uid l = l.find? (certMatches uid) := by
  induction l with
  | nil => rfl
  | cons c l ih =>
      rw [findCert, List.find?_cons, ih]
      cases certMatches uid c <;> rfl

/-- The loop finds the first match. -/
theorem findCert_eq_some_iff : findCert uid l = some c ↔ FirstMatch uid l c := by
  rw [findCert_eq_find, List.find?_eq_some_iff_append, certMatches_iff]
  constructor
  · rintro ⟨hc, l₁, l₂, hl, hfirst⟩
    refine ⟨l₁, l₂, hl, hc, fun d hd hp => ?_⟩
    have hno := hfirst d hd
    rw [certMatches_iff.mpr hp] at hno
    exact absurd hno (by decide)
  · rintro ⟨l₁, l₂, hl, hc, hfirst⟩
    refine ⟨hc, l₁, l₂, hl, fun d hd => ?_⟩
    rw [Bool.not_eq_true', Bool.eq_false_iff]
    exact fun hm => hfirst d hd (certMatches_iff.mp hm)

theorem FirstMatch.mem (h : FirstMatch uid l c) : c ∈ l := by
  obtain ⟨l₁, l₂, rfl, -⟩ := h
  exact List.mem_append_right _ List.mem_cons_self

/-- A name has at most 32 bytes, so the administrator of a name matches it. -/
theorem certMatches_of_name (h : c.nameString = uid) : certMatches uid c = true := by
  rw [certMatches_iff, h]
  exact List.take_prefix _ _

theorem findCert_ne_none (hc : c ∈ l) (h : c.nameString = uid) : findCert uid l ≠ none := by
  intro hn
  rw [findCert_eq_find, List.find?_eq_none] at hn
  exact hn c hc (certMatches_of_name h)

/-- A lookup that ends with the first match is exact when that match has the name. -/
theorem exactLookup_some (hf : FirstMatch uid l c) :
    ExactLookup uid l (.ok (some c)) ↔ c.nameString = uid := by
  constructor
  · rintro ⟨-, h⟩
    obtain ⟨d, -, hd, hname⟩ := h (some c) rfl
    rw [Option.some.inj hd]
    exact hname
  · intro hname
    refine ⟨iff_of_true ⟨some c, rfl⟩ ⟨c, hf.mem, hname⟩, fun cert hcert => ?_⟩
    exact ⟨c, hf.mem, (Except.ok.inj hcert).symm, hname⟩

theorem tcsUtilGetCertByUid_of_find (h : findCert uid l = some c) :
    tcsUtilGetCertByUid (.ok l) (some uid) = .ok c := by
  cases l with
  | nil => exact absurd h (by simp [findCert])
  | cons d l => simp only [tcsUtilGetCertByUid, h]

theorem tcsUtilGetCertByUid_of_find_none (h : findCert uid l = none) :
    ∃ err, tcsUtilGetCertByUid (.ok l) (some uid) = .error err := by
  cases l with
  | nil => exact ⟨.itemNotFound, rfl⟩
  | cons d l => exact ⟨.invalidUid, by simp only [tcsUtilGetCertByUid, h]⟩

end Lookup

/-- **When the lookup of a certificate is exact.**  For every list of administrators and
every `uid`: the lookup of the policy updates is exact when, and only when, the first
administrator whose name begins with the first 32 bytes of `uid`, if there is one, has that
very name; the lookup of the device policies when, and only when, there is one and it has. -/
theorem cert_lookup_exact_iff (l : List AdminCertItem) (uid : CStr) :
    (ExactLookup uid l ((tcsUtilGetCertByUid (.ok l) (some uid)).map some) ↔
        ∀ c, FirstMatch uid l c → c.nameString = uid) ∧
      (ExactLookup uid l (tcsDevGetCertByUid (.ok l) uid) ↔
        ∃ c, FirstMatch uid l c ∧ c.nameString = uid) := by
  cases hf : findCert uid l with
  | none =>
      have hnot : ∀ c, ¬ FirstMatch uid l c := by
        intro c hc
        rw [findCert_eq_some_iff.mpr hc] at hf
        exact Option.some_ne_none _ hf
      have hnone : ¬ ∃ c ∈ l, c.nameString = uid := by
        rintro ⟨c, hc, hname⟩
        exact findCert_ne_none hc hname hf
      obtain ⟨err, herr⟩ := tcsUtilGetCertByUid_of_find_none hf
      have hutil : ExactLookup uid l ((tcsUtilGetCertByUid (.ok l) (some uid)).map some) := by
        rw [herr]
        exact ⟨iff_of_false (by simp [Except.map]) hnone, by simp [Except.map]⟩
      have hdev : ¬ ExactLookup uid l (tcsDevGetCertByUid (.ok l) uid) := by
        rintro ⟨hiff, -⟩
        exact hnone (hiff.mp ⟨_, rfl⟩)
      refine ⟨iff_of_true hutil fun c hc => absurd hc (hnot c), iff_of_false hdev ?_⟩
      rintro ⟨c, hc, -⟩
      exact hnot c hc
  | some c =>
      have hfirst : FirstMatch uid l c := findCert_eq_some_iff.mp hf
      have huniq : ∀ d, FirstMatch uid l d → d = c := by
        intro d hd
        rw [findCert_eq_some_iff.mpr hd] at hf
        exact Option.some.inj hf
      rw [tcsUtilGetCertByUid_of_find hf, tcsDevGetCertByUid, hf, Except.map,
        exactLookup_some hfirst]
      refine ⟨⟨fun h d hd => huniq d hd ▸ h, fun h => h c hfirst⟩,
        ⟨fun h => ⟨c, hfirst, h⟩, ?_⟩⟩
      rintro ⟨d, hd, hname⟩
      exact huniq d hd ▸ hname

/-- **Three lookups that are not exact.**  The only administrator is called `ab`.  The `uid`
`a` and the empty `uid` give his certificate in both lookups, and the unknown `uid` `x` passes
the second without any. -/
theorem cert_lookup_not_exact :
    ∃ (admin : AdminCertItem) (a empty x : CStr),
      admin.nameString ≠ a ∧ admin.nameString ≠ empty ∧ admin.nameString ≠ x ∧
        tcsUtilGetCertByUid (.ok [admin]) (some a) = .ok admin ∧
        tcsUtilGetCertByUid (.ok [admin]) (some empty) = .ok admin ∧
        tcsDevGetCertByUid (.ok [admin]) a = .ok (some admin) ∧
        tcsDevGetCertByUid (.ok [admin]) empty = .ok (some admin) ∧
        tcsDevGetCertByUid (.ok [admin]) x = .ok none ∧
        ¬ ExactLookup a [admin] ((tcsUtilGetCertByUid (.ok [admin]) (some a)).map some) ∧
        ¬ ExactLookup x [admin] (tcsDevGetCertByUid (.ok [admin]) x) := by
  let admin : AdminCertItem :=
    ⟨1, 64, ⟨97 :: 98 :: List.replicate 30 0, by decide⟩, ⟨List.replicate 64 0, by decide⟩⟩
  let a : CStr := ⟨[97], by decide⟩
  let empty : CStr := ⟨[], by decide⟩
  let x : CStr := ⟨[120], by decide⟩
  have hno : ∀ uid : CStr, admin.nameString ≠ uid → ∀ r cert, r = .ok cert →
      ¬ ExactLookup uid [admin] r := by
    rintro uid hu r cert hr ⟨hiff, -⟩
    obtain ⟨c, hc, h⟩ := hiff.mp ⟨cert, hr⟩
    rw [List.mem_singleton.mp hc] at h
    exact hu h
  have ha : admin.nameString ≠ a := by decide
  have hx : admin.nameString ≠ x := by decide
  exact ⟨admin, a, empty, x, ha, by decide, hx, rfl, rfl, rfl, rfl, rfl, hno a ha _ _ rfl,
    hno x hx _ _ rfl⟩

end Tcs
end TsbAgent
