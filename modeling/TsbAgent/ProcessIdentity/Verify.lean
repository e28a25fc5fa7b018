/-
# The identity of a process

`tsb/kernel/dmeasure/process_identity/process_identity.c`: an item of the policy has a name, the
hash of a main executable and the hashes of its libraries.  Two functions compare a running process
with the policy, walking over the mappings that are executable, not writable and backed by a file.

| | `get_process_identity` | `tsb_verify_process_taskp` |
| --- | --- | --- |
| asked | for the name | about a name |
| item | **for each mapping** the first that begins with the first hash and lists this one | the first of the name, **whatever it begins with** |
| `.so` files in front | **passed over** | compared |
| no mapping left | success, **with an empty name** | success |
| hash, on two kinds of kernels | of the file | of the memory |

The name of the first function is that of the last lookup.  `identity_sound_iff` says when it is right
for every process whose first verified mapping is the main executable: whatever the items of one
main hash list between them, one item with the name that is answered must list.
`interfaces_agree_iff` says when both functions mean the same.

The rule for policies (`tcs_process_def.h`) is that no two items have the same main hash and that a
name may be used several times; the parser only logs a hash that is repeated.
-/

import TsbAgent.Basic
import Mathlib.Data.List.TakeWhile
import Mathlib.Tactic.Tauto

namespace TsbAgent
namespace ProcessIdentity

open Libc

/-! ### The policy -/

/-- `struct process_identity_user`; the length of the name comes in one byte. -/
structure ProcessIdentityUser where
  name : CStr
  specificLibs : ℕ
  hashLength : ℕ
  libNumber : ℕ
  hash : Bytes
  length_hash : hash.length = hashLength * (libNumber + 1)
  strlen_name : name.strlen ≤ 255
deriving DecidableEq

/-- `memcmp(item.hash + i * hash_length, hash, hash_length) == 0`. -/
def ProcessIdentityUser.sameAt (x : ProcessIdentityUser) (i : ℕ) (h : Digest) : Bool :=
  memcmp x.hashLength (x.hash.drop (i * x.hashLength)) h.1 = 0

/-- The first hash is compared. -/
def ProcessIdentityUser.begins (x : ProcessIdentityUser) (h : Digest) : Bool := x.sameAt 0 h

/-- The loop over `lib_number + 1` hashes, as in `qurey_hash`. -/
def ProcessIdentityUser.lists (x : ProcessIdentityUser) (h : Digest) : Bool :=
  (List.range (x.libNumber + 1)).any fun i => x.sameAt i h

/-- `qurey_hash_from_process_identity_policy`: the name; 255 bytes of it are copied. -/
def qureyHashFromProcessIdentityPolicy (policy : List ProcessIdentityUser) (exeHash libHash : Digest) :
    Option CStr :=
  (policy.find? fun x => x.begins exeHash && x.lists libHash).map fun x => x.name.take 255

/-- `qurey_name`. -/
def qureyName (policy : List ProcessIdentityUser) (name : CStr) : Option ProcessIdentityUser :=
  policy.find? fun x => strcmp name.bytes x.name.bytes = 0

/-- `struct process_role_user`. -/
structure ProcessRoleUser where
  name : CStr
  members : List CStr

/-! ### The process -/

/-- `struct vm_area_struct`: the file behind the mapping with its full path, which may fail; two flags;
and the two hashes of its text, which may fail too. -/
structure Vma where
  vmFile : Option (Option CStr)
  exec : Bool
  write : Bool
  fileHash : Option Digest
  memHash : Option Digest
deriving DecidableEq

/-- A mapping whose hash is taken. -/
def Vma.isCode (v : Vma) : Bool := v.vmFile.isSome && v.exec && !v.write

/-- The hash that `get_process_identity` takes of a mapping; `special` is `is_special_kernel_version`. -/
def Vma.hash (special : Bool) : Vma → Option Digest := if special then Vma.fileHash else Vma.memHash

/-- `strcmp(fullpath + strlen(fullpath) - 3, ".so") == 0`. -/
def isSo (path : CStr) : Bool := path.bytes.drop (path.strlen - 3) = [46, 115, 111]

/-- A task: its executable, its mappings in the order of their addresses. -/
structure Task where
  exeFile : Option CStr
  mmap : List Vma

/-- `process_verify_lib_mode`: `PROCESS_VERIFY_MODE_DEFAULT`, `_SPECIFIC_LIB` and any other value
verify all libraries. -/
inductive VerifyMode
  | noLib
  | refLib
  | allLib
deriving DecidableEq

/-- What a lookup depends on: the policy, the mode and `query_process_identity_lib_hash`. -/
structure Verifier where
  policy : List ProcessIdentityUser
  mode : VerifyMode
  whitelisted : Digest → Bool

/-! ### The two walks -/

section Walks

variable (V : Verifier)

/-- The loop of `get_process_identity` with its `i`, `exe_hash` and `process_identity_name`. -/
def getWalk (hashOf : Vma → Option Digest) : ℕ → Digest → CStr → List Vma → Option CStr
  | _, _, name, [] => some name
  | i, exeHash, name, v :: vs =>
      match v.vmFile with
      | none => getWalk hashOf i exeHash name vs
      | some none => none
      | some (some fullpath) =>
          if i = 0 ∧ isSo fullpath then getWalk hashOf i exeHash name vs
          else if v.exec ∧ ¬ v.write then
            match hashOf v with
            | none => none
            | some hash =>
                let exeHash := if i = 0 then hash else exeHash
                if 0 < i ∧ V.mode = .refLib then
                  if V.whitelisted hash then getWalk hashOf (i + 1) exeHash name vs else none
                else
                  match qureyHashFromProcessIdentityPolicy V.policy exeHash hash with
                  | none => none
                  | some n => if V.mode = .noLib then some n else getWalk hashOf (i + 1) exeHash n vs
          else getWalk hashOf i exeHash name vs

/-- `get_process_identity`: the name on success. -/
def getProcessIdentity (special : Bool) (task : Task) : Option CStr :=
  if task.exeFile.isNone then none
  else if task.mmap = [] then none
  else getWalk V (Vma.hash special) 0 Digest.zero CStr.empty task.mmap

/-- What `tsb_verify_process_taskp` returns besides 0. -/
inductive VerifyErr
  | processIdentityPolicy
  | system
  | calcHash
  | measureFaile
  | minusOne
deriving DecidableEq

/-- The loop of `tsb_verify_process_taskp` for the item `x`. -/
def verifyWalk (x : ProcessIdentityUser) : ℕ → List Vma → Except VerifyErr Unit
  | _, [] => .ok ()
  | i, v :: vs =>
      match v.vmFile with
      | none => verifyWalk x i vs
      | some none => .error .system
      | some (some _) =>
          if v.exec ∧ ¬ v.write then
            match v.memHash with
            | none => .error .calcHash
            | some hash =>
                if 0 < i ∧ V.mode = .refLib then
                  if V.whitelisted hash then verifyWalk x (i + 1) vs else .error .measureFaile
                else if ¬ x.lists hash then .error .measureFaile
                else if V.mode = .noLib then .ok ()
                else verifyWalk x (i + 1) vs
          else verifyWalk x i vs

/-- `tsb_verify_process_taskp`. -/
def tsbVerifyProcessTaskp (task : Task) (name : CStr) : Except VerifyErr Unit :=
  match qureyName V.policy name with
  | none => .error .processIdentityPolicy
  | some x =>
      if task.exeFile.isNone then .error .system
      else if task.mmap = [] then .error .minusOne
      else verifyWalk V x 0 task.mmap

/-- `is_role_member`. -/
def isRoleMember (roles : List ProcessRoleUser) (special : Bool) (task : Task) (roleName : CStr) : ℤ :=
  match getProcessIdentity V special task with
  | none => 0
  | some name =>
      if roles.any fun r => strcmp r.name.bytes roleName.bytes = 0 ∧
          (r.members.any fun m => strcmp m.bytes name.bytes = 0) then 1
      else 0

end Walks

/-! ### What the policy says -/

/-- The `i`-th hash of an item. -/
def ProcessIdentityUser.hashAt (x : ProcessIdentityUser) (i : ℕ) : Bytes :=
  (x.hash.drop (i * x.hashLength)).take x.hashLength

/-- The hash of the main executable is `h`. -/
def ProcessIdentityUser.FirstHash (x : ProcessIdentityUser) (h : Digest) : Prop := x.hashAt 0 = h.1

/-- `h` is one of the hashes of the item. -/
def ProcessIdentityUser.HasHash (x : ProcessIdentityUser) (h : Digest) : Prop :=
  ∃ i ≤ x.libNumber, x.hashAt i = h.1

/-- The hashes of the item are SM3 hashes. -/
def ProcessIdentityUser.Whole (x : ProcessIdentityUser) : Prop := x.hashLength = lenHash

section Items

variable {x : ProcessIdentityUser} {h : Digest} {i : ℕ}

theorem length_hashAt (hi : i ≤ x.libNumber) : (x.hashAt i).length = x.hashLength := by
  have hmul : (i + 1) * x.hashLength ≤ (x.libNumber + 1) * x.hashLength :=
    Nat.mul_le_mul_right _ (Nat.succ_le_succ hi)
  rw [Nat.succ_mul] at hmul
  rw [ProcessIdentityUser.hashAt, List.length_take, List.length_drop, x.length_hash,
    Nat.mul_comm x.hashLength]
  omega

/-- The hash of an item can only be a digest when it has its length. -/
theorem whole_of_hashAt (hi : i ≤ x.libNumber) (h' : x.hashAt i = h.1) : x.Whole := by
  have hlen := length_hashAt hi
  rw [h', h.2] at hlen
  exact hlen.symm

theorem sameAt_iff (hw : x.Whole) (hi : i ≤ x.libNumber) : x.sameAt i h = true ↔ x.hashAt i = h.1 := by
  have hmul : (i + 1) * x.hashLength ≤ (x.libNumber + 1) * x.hashLength :=
    Nat.mul_le_mul_right _ (Nat.succ_le_succ hi)
  rw [Nat.succ_mul] at hmul
  have hlen : x.hashLength ≤ (x.hash.drop (i * x.hashLength)).length := by
    rw [List.length_drop, x.length_hash, Nat.mul_comm x.hashLength]
    omega
  have hh : h.1.length = x.hashLength := h.2.trans hw.symm
  rw [ProcessIdentityUser.sameAt, decide_eq_true_eq, memcmp_eq_zero hlen hh.ge, ← hh, List.take_length,
    hh, ProcessIdentityUser.hashAt]

theorem firstHash_iff : x.FirstHash h ↔ x.Whole ∧ x.begins h = true := by
  constructor
  · intro hf
    have hw := whole_of_hashAt (Nat.zero_le _) hf
    exact ⟨hw, (sameAt_iff hw (Nat.zero_le _)).mpr hf⟩
  · rintro ⟨hw, hb⟩
    exact (sameAt_iff hw (Nat.zero_le _)).mp hb

theorem lists_iff : x.lists h = true ↔ ∃ i ≤ x.libNumber, x.sameAt i h = true := by
  simp [ProcessIdentityUser.lists, Nat.lt_succ_iff]

theorem hasHash_iff : x.HasHash h ↔ x.Whole ∧ x.lists h = true := by
  rw [lists_iff]
  constructor
  · rintro ⟨i, hi, hh⟩
    have hw := whole_of_hashAt hi hh
    exact ⟨hw, i, hi, (sameAt_iff hw hi).mpr hh⟩
  · rintro ⟨hw, i, hi, hh⟩
    exact ⟨i, hi, (sameAt_iff hw hi).mp hh⟩

/-- The first hash is one of those that are listed. -/
theorem lists_of_begins (hb : x.begins h = true) : x.lists h = true :=
  lists_iff.mpr ⟨0, Nat.zero_le _, hb⟩

theorem take_name (x : ProcessIdentityUser) : x.name.take 255 = x.name :=
  CStr.ext (List.take_of_length_le x.strlen_name)

end Items

/-- A lookup is answered by an item that begins with the main hash and lists the other. -/
theorem qurey_eq_some {policy : List ProcessIdentityUser} {exe lib : Digest} {n : CStr}
    (h : qureyHashFromProcessIdentityPolicy policy exe lib = some n) :
    ∃ x ∈ policy, x.name = n ∧ x.begins exe = true ∧ x.lists lib = true := by
  obtain ⟨x, hx, rfl⟩ := Option.map_eq_some_iff.mp h
  have hp := List.find?_some hx
  rw [Bool.and_eq_true] at hp
  exact ⟨x, List.mem_of_find?_eq_some hx, (take_name x).symm, hp.1, hp.2⟩

theorem qurey_isSome {policy : List ProcessIdentityUser} {exe lib : Digest} :
    (qureyHashFromProcessIdentityPolicy policy exe lib).isSome ↔
      ∃ x ∈ policy, x.begins exe = true ∧ x.lists lib = true := by
  simp [qureyHashFromProcessIdentityPolicy]

/-! ### The mappings -/

/-- The executable mappings that are not writable, of files. -/
def Task.code (task : Task) : List Vma := task.mmap.filter Vma.isCode

/-- The mapping of an `.so`. -/
def Vma.isSo (v : Vma) : Bool := (v.vmFile.join.map ProcessIdentity.isSo).getD false

/-- What is left when the `.so` files in front are passed over. -/
def Task.walked (task : Task) : List Vma := task.code.dropWhile Vma.isSo

/-- The mapping of the main executable. -/
def Task.mainMapping (task : Task) : Option Vma :=
  task.code.find? fun v => v.vmFile = some task.exeFile

section Spec

variable {V : Verifier} {hashOf : Vma → Option Digest} {exe : Digest} {name n path : CStr} {v : Vma}
  {vs : List Vma} {i : ℕ} {x : ProcessIdentityUser}

/-- The name after the lookup of a mapping, `none` when the process is refused. -/
def Verifier.lookup (V : Verifier) (i : ℕ) (exe : Digest) (name : CStr) (h : Digest) : Option CStr :=
  if 0 < i ∧ V.mode = .refLib then (if V.whitelisted h then some name else none)
  else qureyHashFromProcessIdentityPolicy V.policy (if i = 0 then h else exe) h

theorem not_isCode_of_vmFile (h : v.vmFile = none) : v.isCode = false := by simp [Vma.isCode, h]

theorem isCode_iff (h : v.vmFile = some (some path)) : v.isCode = true ↔ v.exec = true ∧ ¬ v.write = true := by
  simp [Vma.isCode, h]

theorem isSo_iff (h : v.vmFile = some (some path)) : v.isSo = isSo path := by simp [Vma.isSo, h]

theorem getWalk_pass (h : v.vmFile = none ∨ ∃ path, v.vmFile = some (some path) ∧
      (v.isCode = false ∨ i = 0 ∧ isSo path = true)) :
    getWalk V hashOf i exe name (v :: vs) = getWalk V hashOf i exe name vs := by
  rcases h with h | ⟨path, hf, h⟩
  · rw [getWalk, h]
  · rw [getWalk, hf]
    rcases h with h | ⟨rfl, hso⟩
    · have hno : ¬ (v.exec = true ∧ ¬ v.write = true) := by rw [← isCode_iff hf, h]; decide
      simp only [if_neg hno, ite_self]
    · exact if_pos ⟨rfl, hso⟩

/-- A mapping that is verified. -/
theorem getWalk_code (hf : v.vmFile = some (some path)) (hcode : v.isCode = true)
    (hso : ¬ (i = 0 ∧ isSo path = true)) : getWalk V hashOf i exe name (v :: vs) =
      (hashOf v).bind fun h => (V.lookup i exe name h).bind fun m =>
        if V.mode = .noLib then some m else getWalk V hashOf (i + 1) (if i = 0 then h else exe) m vs := by
  rw [getWalk, hf]
  simp only [if_neg hso, if_pos ((isCode_iff hf).mp hcode)]
  cases hashOf v with
  | none => rfl
  | some h =>
      unfold Verifier.lookup
      by_cases href : 0 < i ∧ V.mode = .refLib
      · cases hw : V.whitelisted h <;> simp [href, hw]
      · simp only [if_neg href, Option.bind_some]
        cases qureyHashFromProcessIdentityPolicy V.policy (if i = 0 then h else exe) h <;> rfl

theorem getWalk_unnamed (hf : v.vmFile = some none) : getWalk V hashOf i exe name (v :: vs) = none := by
  rw [getWalk, hf]

/-- The kernel can name the file of every mapping. -/
def Named (vs : List Vma) : Prop := ∀ v ∈ vs, v.vmFile ≠ some none

/-- A mapping has a file without a name, or is passed over, or is code of a file with a name. -/
theorem vma_cases (v : Vma) : v.vmFile = some none ∨
    (v.isCode = false ∧ (v.vmFile = none ∨ ∃ path, v.vmFile = some (some path))) ∨
      v.isCode = true ∧ ∃ path, v.vmFile = some (some path) := by
  rcases hf : v.vmFile with _ | _ | path
  · exact .inr (.inl ⟨not_isCode_of_vmFile hf, .inl rfl⟩)
  · exact .inl rfl
  · cases hc : v.isCode with
    | false => exact .inr (.inl ⟨rfl, .inr ⟨path, rfl⟩⟩)
    | true => exact .inr (.inr ⟨rfl, path, rfl⟩)

theorem getWalk_notCode (hc : v.isCode = false) (hf : v.vmFile = none ∨ ∃ path, v.vmFile = some (some path)) :
    getWalk V hashOf i exe name (v :: vs) = getWalk V hashOf i exe name vs := by
  refine getWalk_pass (hf.imp_right ?_)
  rintro ⟨path, hf⟩
  exact ⟨path, hf, .inl hc⟩

/-- What the front of the walk does: it fails for want of a name, or finds nothing to verify and succeeds,
or comes to the first mapping behind the `.so` files. -/
def Front (V : Verifier) (hashOf : Vma → Option Digest) (exe : Digest) (name : CStr) (vs : List Vma) : Prop :=
  (getWalk V hashOf 0 exe name vs = none ∧ ¬ Named vs) ∨
    ((vs.filter Vma.isCode).dropWhile Vma.isSo = [] ∧ getWalk V hashOf 0 exe name vs = some name) ∨
    ∃ v rest, (vs.filter Vma.isCode).dropWhile Vma.isSo = v :: rest.filter Vma.isCode ∧ rest <:+ vs ∧
      getWalk V hashOf 0 exe name vs = (hashOf v).bind fun h =>
        (qureyHashFromProcessIdentityPolicy V.policy h h).bind fun m =>
          if V.mode = .noLib then some m else getWalk V hashOf 1 h m rest

theorem Front.cons (h : Front V hashOf exe name vs)
    (hw : getWalk V hashOf 0 exe name (v :: vs) = getWalk V hashOf 0 exe name vs)
    (hd : ((v :: vs).filter Vma.isCode).dropWhile Vma.isSo = (vs.filter Vma.isCode).dropWhile Vma.isSo) :
    Front V hashOf exe name (v :: vs) := by
  unfold Front
  rw [hw, hd]
  rcases h with ⟨h, hn⟩ | h | ⟨w, rest, h₁, h₂, h₃⟩
  · exact .inl ⟨h, fun hall => hn fun u hu => hall u (List.mem_cons_of_mem _ hu)⟩
  · exact .inr (.inl h)
  · exact .inr (.inr ⟨w, rest, h₁, h₂.trans (List.suffix_cons v vs), h₃⟩)

theorem getWalk_front (vs : List Vma) : Front V hashOf exe name vs := by
  induction vs with
  | nil => exact .inr (.inl ⟨rfl, rfl⟩)
  | cons v vs ih =>
      rcases vma_cases v with hf | ⟨hc, hf⟩ | ⟨hc, path, hf⟩
      · exact .inl ⟨getWalk_unnamed hf, fun hall => hall v List.mem_cons_self hf⟩
      · refine ih.cons (getWalk_notCode hc hf) ?_
        rw [List.filter_cons_of_neg (by simp [hc])]
      · by_cases hso : isSo path = true
        · refine ih.cons (getWalk_pass (.inr ⟨path, hf, .inr ⟨rfl, hso⟩⟩)) ?_
          rw [List.filter_cons_of_pos hc, List.dropWhile_cons_of_pos (by rw [isSo_iff hf]; exact hso)]
        · refine .inr (.inr ⟨v, vs, ?_, List.suffix_cons v vs, ?_⟩)
          · rw [List.filter_cons_of_pos hc, List.dropWhile_cons_of_neg (by rw [isSo_iff hf]; exact hso)]
          · rw [getWalk_code hf hc fun h => hso h.2]
            rfl

/-- A library that is verified: in the whitelist, or listed with the main hash. -/
def Verifier.Accepts (V : Verifier) (exe h : Digest) : Prop :=
  if V.mode = .refLib then V.whitelisted h = true
  else ∃ x ∈ V.policy, x.begins exe = true ∧ x.lists h = true

theorem lookup_isSome (hi : 0 < i) {h : Digest} : (V.lookup i exe name h).isSome ↔ V.Accepts exe h := by
  unfold Verifier.lookup Verifier.Accepts
  by_cases href : V.mode = .refLib
  · cases V.whitelisted h <;> simp [hi, href]
  · simp only [href, and_false, if_false, if_neg hi.ne', qurey_isSome]

/-- **The walk behind the main executable:** every library is accepted, and the name is the one before
or that of one of the lookups. -/
theorem getWalk_later (hi : 0 < i) (hmode : V.mode ≠ .noLib)
    (h : getWalk V hashOf i exe name vs = some n) :
    (∀ v ∈ vs.filter Vma.isCode, ∃ d, hashOf v = some d ∧ V.Accepts exe d) ∧
      (n = name ∨ V.mode ≠ .refLib ∧ ∃ v ∈ vs.filter Vma.isCode, ∃ d, hashOf v = some d ∧
        qureyHashFromProcessIdentityPolicy V.policy exe d = some n) := by
  induction vs generalizing i name with
  | nil => exact ⟨by simp, .inl (Option.some.inj h).symm⟩
  | cons v vs ih =>
      rcases vma_cases v with hf | ⟨hc, hf⟩ | ⟨hc, path, hf⟩
      · rw [getWalk_unnamed hf] at h
        cases h
      · rw [getWalk_notCode hc hf] at h
        rw [List.filter_cons_of_neg (by simp [hc])]
        exact ih hi h
      · rw [getWalk_code hf hc fun h => hi.ne' h.1] at h
        obtain ⟨d, hd, h⟩ := Option.bind_eq_some_iff.mp h
        obtain ⟨m, hm, h⟩ := Option.bind_eq_some_iff.mp h
        rw [if_neg hmode, if_neg hi.ne'] at h
        obtain ⟨hall, hn⟩ := ih (Nat.succ_pos i) h
        have hacc : V.Accepts exe d := (lookup_isSome hi).mp (by rw [hm]; rfl)
        rw [List.filter_cons_of_pos hc]
        refine ⟨List.forall_mem_cons.mpr ⟨⟨d, hd, hacc⟩, hall⟩, ?_⟩
        rcases hn with rfl | ⟨href, w, hw, e, he, hq⟩
        · unfold Verifier.lookup at hm
          by_cases href : V.mode = .refLib
          · rw [if_pos ⟨hi, href⟩] at hm
            split_ifs at hm
            exact .inl (Option.some.inj hm).symm
          · rw [if_neg fun h => href h.2, if_neg hi.ne'] at hm
            exact .inr ⟨href, v, List.mem_cons_self, d, hd, hm⟩
        · exact .inr ⟨href, w, List.mem_cons_of_mem _ hw, e, he, hq⟩

/-- Where every mapping has a name and every library is accepted, the walk goes on to the end. -/
theorem getWalk_append (hi : 0 < i) (hmode : V.mode ≠ .noLib) (hnamed : Named vs)
    (hall : ∀ v ∈ vs.filter Vma.isCode, ∃ d, hashOf v = some d ∧ V.Accepts exe d) (ws : List Vma) :
    ∃ j m, 0 < j ∧ getWalk V hashOf i exe name (vs ++ ws) = getWalk V hashOf j exe m ws := by
  induction vs generalizing i name with
  | nil => exact ⟨i, name, hi, rfl⟩
  | cons v vs ih =>
      have hrest : Named vs := fun w hw => hnamed w (List.mem_cons_of_mem _ hw)
      rw [List.cons_append]
      rcases vma_cases v with hf | ⟨hc, hf⟩ | ⟨hc, path, hf⟩
      · exact absurd hf (hnamed v List.mem_cons_self)
      · rw [getWalk_notCode hc hf]
        rw [List.filter_cons_of_neg (by simp [hc])] at hall
        exact ih hi hrest hall
      · rw [List.filter_cons_of_pos hc] at hall
        obtain ⟨⟨d, hd, hacc⟩, hall⟩ := List.forall_mem_cons.mp hall
        have hsome : (V.lookup i exe name d).isSome := (lookup_isSome hi).mpr hacc
        obtain ⟨m, hm⟩ := Option.isSome_iff_exists.mp hsome
        rw [getWalk_code hf hc fun h => hi.ne' h.1, hd, Option.bind_some, hm, Option.bind_some,
          if_neg hmode, if_neg hi.ne']
        exact ih (Nat.succ_pos i) hrest hall

end Spec

/-! ### Soundness -/

/-- **The process has the identity `n`:** one item of the name has the hash of the main executable
first, and lists what the mode asks for; in the mode of the whitelist the other mappings are in it. -/
def Identified (V : Verifier) (special : Bool) (task : Task) (n : CStr) : Prop :=
  ∃ x ∈ V.policy, x.name = n ∧ ∃ v h, task.mainMapping = some v ∧ v.hash special = some h ∧
    x.FirstHash h ∧
    (V.mode = .allLib → ∀ w ∈ task.code, ∃ d, w.hash special = some d ∧ x.HasHash d) ∧
    (V.mode = .refLib → ∀ w ∈ task.code.erase v, ∃ d, w.hash special = some d ∧ V.whitelisted d = true)

/-- The first mapping that is verified is the main executable's, and unless libraries do not matter no
`.so` was passed over in front of it. -/
structure Task.MainFirst (task : Task) (mode : VerifyMode) (v : Vma) (rest : List Vma) : Prop where
  walked : task.walked = v :: rest
  main : v.vmFile = some task.exeFile
  all : mode = .noLib ∨ task.walked = task.code

/-- **What the items of one main hash list between them,** one item with the name that is answered
lists. -/
def Covers (policy : List ProcessIdentityUser) (mode : VerifyMode) : Prop :=
  ∀ exe hs lib n, (∀ h ∈ hs, ∃ y ∈ policy, y.begins exe = true ∧ y.lists h = true) → lib ∈ hs →
    (mode ≠ .allLib → hs = [exe]) → qureyHashFromProcessIdentityPolicy policy exe lib = some n →
      ∃ x ∈ policy, x.name = n ∧ x.FirstHash exe ∧ (mode = .allLib → ∀ h ∈ hs, x.HasHash h)

/-- The rule for policies: SM3 hashes, and no two items with the same main hash. -/
structure Rule (policy : List ProcessIdentityUser) : Prop where
  whole : ∀ x ∈ policy, x.Whole
  distinct : ∀ x ∈ policy, ∀ y ∈ policy, ∀ h, x.begins h = true → y.begins h = true → x = y

/-- A policy that keeps the rule covers. -/
theorem covers_of_rule {policy : List ProcessIdentityUser} (hrule : Rule policy) (mode : VerifyMode) :
    Covers policy mode := by
  intro exe hs lib n hall _ _ hlib
  obtain ⟨x, hx, hname, hbegins, -⟩ := qurey_eq_some hlib
  refine ⟨x, hx, hname, firstHash_iff.mpr ⟨hrule.whole x hx, hbegins⟩, fun _ h hh => ?_⟩
  obtain ⟨y, hy, hyb, hyl⟩ := hall h hh
  obtain rfl := hrule.distinct y hy x hx exe hyb hbegins
  exact hasHash_iff.mpr ⟨hrule.whole y hy, hyl⟩

section Sound

variable {V : Verifier} {special : Bool} {task : Task} {n : CStr} {v : Vma} {rest : List Vma}

theorem getProcessIdentity_eq_some (h : getProcessIdentity V special task = some n) :
    getWalk V (Vma.hash special) 0 Digest.zero CStr.empty task.mmap = some n := by
  unfold getProcessIdentity at h
  split_ifs at h
  exact h

theorem isSo_of_walked (h : task.walked = v :: rest) : v.isSo = false := by
  have hhead := List.head?_dropWhile_not Vma.isSo task.code
  rw [show task.code.dropWhile Vma.isSo = v :: rest from h] at hhead
  exact hhead

/-- The main executable's mapping is found behind the `.so` files. -/
theorem Task.MainFirst.mainMapping {mode : VerifyMode} (h : task.MainFirst mode v rest) :
    task.mainMapping = some v := by
  have hsplit : task.code = task.code.takeWhile Vma.isSo ++ v :: rest := by
    rw [← h.walked]
    exact List.takeWhile_append_dropWhile.symm
  have hnone : (task.code.takeWhile Vma.isSo).find? (fun v => v.vmFile = some task.exeFile) = none := by
    rw [List.find?_eq_none]
    intro w hw hf
    have hso : w.isSo = true := List.mem_takeWhile_imp hw
    have hsame : w.isSo = v.isSo := by rw [Vma.isSo, Vma.isSo, h.main, of_decide_eq_true hf]
    rw [hsame, isSo_of_walked h.walked] at hso
    exact Bool.false_ne_true hso
  rw [Task.mainMapping, hsplit, List.find?_append, hnone, List.find?_cons_of_pos (by simp [h.main])]
  rfl

/-- What a walk that succeeds has looked up: the main hash, then every library. -/
theorem getProcessIdentity_spec {mode : VerifyMode} (hm : task.MainFirst mode v rest)
    (h : getProcessIdentity V special task = some n) :
    ∃ exe m, v.hash special = some exe ∧ qureyHashFromProcessIdentityPolicy V.policy exe exe = some m ∧
      (V.mode = .noLib → n = m) ∧
      (V.mode ≠ .noLib → (∀ w ∈ rest, ∃ d, w.hash special = some d ∧ V.Accepts exe d) ∧
        (n = m ∨ V.mode ≠ .refLib ∧ ∃ w ∈ rest, ∃ d, w.hash special = some d ∧
          qureyHashFromProcessIdentityPolicy V.policy exe d = some n)) := by
  have hw := getProcessIdentity_eq_some h
  have hfront : Front V (Vma.hash special) Digest.zero CStr.empty task.mmap := getWalk_front _
  rcases hfront with ⟨hno, -⟩ | ⟨hnil, -⟩ | ⟨w, vs, hcode, -, heq⟩
  · rw [hno] at hw
    cases hw
  · exact absurd (hm.walked.symm.trans hnil) (List.cons_ne_nil _ _)
  · obtain ⟨rfl, rfl⟩ := List.cons.inj (hm.walked.symm.trans hcode)
    rw [heq] at hw
    obtain ⟨exe, hexe, hw⟩ := Option.bind_eq_some_iff.mp hw
    obtain ⟨m, hq, hw⟩ := Option.bind_eq_some_iff.mp hw
    refine ⟨exe, m, hexe, hq, fun hmode => ?_, fun hmode => ?_⟩
    · rw [if_pos hmode] at hw
      exact (Option.some.inj hw).symm
    · rw [if_neg hmode] at hw
      exact getWalk_later Nat.one_pos hmode hw

/-- Where the items cover, a name is only given to a process that has it. -/
theorem identified_of_covers (hcov : Covers V.policy V.mode) (hm : task.MainFirst V.mode v rest)
    (h : getProcessIdentity V special task = some n) : Identified V special task n := by
  obtain ⟨exe, m, hexe, hq, hno, hlib⟩ := getProcessIdentity_spec hm h
  obtain ⟨y, hy, -, hbegins, hlists⟩ := qurey_eq_some hq
  have hmain : ∀ g ∈ [exe], ∃ y ∈ V.policy, y.begins exe = true ∧ y.lists g = true := by
    intro g hg
    rw [List.mem_singleton.mp hg]
    exact ⟨y, hy, hbegins, hlists⟩
  cases hmode : V.mode with
  | noLib =>
      obtain rfl := hno hmode
      obtain ⟨x, hx, hname, hfirst, -⟩ := hcov exe [exe] exe n hmain (List.mem_singleton_self _) (fun _ => rfl) hq
      exact ⟨x, hx, hname, v, exe, hm.mainMapping, hexe, hfirst, by simp [hmode], by simp [hmode]⟩
  | refLib =>
      obtain ⟨hall, hn⟩ := hlib (by rw [hmode]; decide)
      obtain rfl : n = m := hn.resolve_right fun h => h.1 hmode
      obtain ⟨x, hx, hname, hfirst, -⟩ := hcov exe [exe] exe n hmain (List.mem_singleton_self _) (fun _ => rfl) hq
      have hcode : task.code = v :: rest := by
        rw [← hm.walked, hm.all.resolve_left (by rw [hmode]; decide)]
      refine ⟨x, hx, hname, v, exe, hm.mainMapping, hexe, hfirst, by simp [hmode], fun _ w hw => ?_⟩
      rw [hcode, List.erase_cons_head] at hw
      obtain ⟨d, hd, hacc⟩ := hall w hw
      rw [Verifier.Accepts, if_pos hmode] at hacc
      exact ⟨d, hd, hacc⟩
  | allLib =>
      obtain ⟨hall, hn⟩ := hlib (by rw [hmode]; decide)
      have hcode : task.code = v :: rest := by
        rw [← hm.walked, hm.all.resolve_left (by rw [hmode]; decide)]
      -- the hashes that were looked up, the main one first
      let hs := exe :: rest.filterMap (Vma.hash special)
      have hhs : ∀ g ∈ hs, ∃ y ∈ V.policy, y.begins exe = true ∧ y.lists g = true := by
        intro g hg
        rcases List.mem_cons.mp hg with rfl | hg
        · exact ⟨y, hy, hbegins, hlists⟩
        · obtain ⟨w, hw, hwg⟩ := List.mem_filterMap.mp hg
          obtain ⟨d, hd, hacc⟩ := hall w hw
          obtain rfl := Option.some.inj (hd.symm.trans hwg)
          rw [Verifier.Accepts, if_neg (by rw [hmode]; decide)] at hacc
          exact hacc
      obtain ⟨lib, hmem, hans⟩ : ∃ lib ∈ hs, qureyHashFromProcessIdentityPolicy V.policy exe lib = some n := by
        rcases hn with rfl | ⟨-, w, hw, d, hd, hans⟩
        · exact ⟨exe, List.mem_cons_self, hq⟩
        · exact ⟨d, List.mem_cons_of_mem _ (List.mem_filterMap.mpr ⟨w, hw, hd⟩), hans⟩
      obtain ⟨x, hx, hname, hfirst, hcover⟩ := hcov exe hs lib n hhs hmem (fun h => absurd hmode h) hans
      refine ⟨x, hx, hname, v, exe, hm.mainMapping, hexe, hfirst, fun _ w hw => ?_, by simp [hmode]⟩
      rw [hcode] at hw
      rcases List.mem_cons.mp hw with rfl | hw
      · exact ⟨exe, hexe, hcover hmode exe List.mem_cons_self⟩
      · obtain ⟨d, hd, -⟩ := hall w hw
        exact ⟨d, hd, hcover hmode d (List.mem_cons_of_mem _ (List.mem_filterMap.mpr ⟨w, hw, hd⟩))⟩

/-! ### A process with given hashes -/

/-- The text of the file `path`. -/
def text (path : CStr) (h : Digest) : Vma := ⟨some (some path), true, false, some h, some h⟩

/-- A process of the executable `/a` with the library `/b` mapped for each of the hashes. -/
def sampleTask (exe : Digest) (libs : List Digest) : Task where
  exeFile := some (CStr.ofBytes [47, 97])
  mmap := text (CStr.ofBytes [47, 97]) exe :: libs.map (text (CStr.ofBytes [47, 98]))

theorem hash_text {path : CStr} {h : Digest} : (text path h).hash special = some h := by
  cases special <;> rfl

theorem code_sampleTask {exe : Digest} {libs : List Digest} :
    (sampleTask exe libs).code = text (CStr.ofBytes [47, 97]) exe :: libs.map (text (CStr.ofBytes [47, 98])) := by
  refine List.filter_eq_self.mpr fun v hv => ?_
  rcases List.mem_cons.mp hv with rfl | hv
  · rfl
  · obtain ⟨h, -, rfl⟩ := List.mem_map.mp hv
    rfl

theorem walked_sampleTask {exe : Digest} {libs : List Digest} :
    (sampleTask exe libs).walked = (sampleTask exe libs).code := by
  have hso : ¬ isSo (CStr.ofBytes [47, 97]) = true := by decide
  rw [Task.walked, code_sampleTask]
  exact List.dropWhile_cons_of_neg hso

theorem mainFirst_sampleTask {exe : Digest} {libs : List Digest} (mode : VerifyMode) :
    (sampleTask exe libs).MainFirst mode (text (CStr.ofBytes [47, 97]) exe)
      (libs.map (text (CStr.ofBytes [47, 98]))) :=
  ⟨walked_sampleTask.trans code_sampleTask, rfl, .inr walked_sampleTask⟩

theorem named_map_text {path : CStr} {libs : List Digest} : Named (libs.map (text path)) := by
  intro v hv
  obtain ⟨h, -, rfl⟩ := List.mem_map.mp hv
  exact Option.some_ne_none _ ∘ Option.some.inj

theorem getProcessIdentity_sampleTask {exe : Digest} {libs : List Digest} :
    getProcessIdentity V special (sampleTask exe libs) =
      (qureyHashFromProcessIdentityPolicy V.policy exe exe).bind fun m =>
        if V.mode = .noLib then some m
        else getWalk V (Vma.hash special) 1 exe m (libs.map (text (CStr.ofBytes [47, 98]))) := by
  have hso : ¬ (0 = 0 ∧ isSo (CStr.ofBytes [47, 97]) = true) := by decide
  have hne : ¬ (sampleTask exe libs).mmap = [] := List.cons_ne_nil _ _
  rw [getProcessIdentity, if_neg (by simp [sampleTask]), if_neg hne, sampleTask, getWalk_code rfl rfl hso,
    hash_text, Option.bind_some]
  rfl

/-- The last library of the process gives the name. -/
theorem getProcessIdentity_last {exe lib : Digest} {hs : List Digest} (hmode : V.mode = .allLib)
    (hall : ∀ h ∈ hs, ∃ y ∈ V.policy, y.begins exe = true ∧ y.lists h = true)
    (hlib : qureyHashFromProcessIdentityPolicy V.policy exe lib = some n) :
    getProcessIdentity V special (sampleTask exe (hs ++ [lib])) = some n := by
  have hno : V.mode ≠ .noLib := by rw [hmode]; decide
  have href : V.mode ≠ .refLib := by rw [hmode]; decide
  obtain ⟨y, hy, -, hbegins, -⟩ := qurey_eq_some hlib
  have hmain : (qureyHashFromProcessIdentityPolicy V.policy exe exe).isSome :=
    qurey_isSome.mpr ⟨y, hy, hbegins, lists_of_begins hbegins⟩
  obtain ⟨m, hm⟩ := Option.isSome_iff_exists.mp hmain
  have haccepts : ∀ v ∈ (hs.map (text (CStr.ofBytes [47, 98]))).filter Vma.isCode,
      ∃ d, v.hash special = some d ∧ V.Accepts exe d := by
    intro v hv
    obtain ⟨h, hh, rfl⟩ := List.mem_map.mp (List.mem_filter.mp hv).1
    refine ⟨h, hash_text, ?_⟩
    rw [Verifier.Accepts, if_neg href]
    exact hall h hh
  rw [getProcessIdentity_sampleTask, hm, Option.bind_some, if_neg hno, List.map_append]
  obtain ⟨j, m', hj, heq⟩ : ∃ j m', 0 < j ∧ getWalk V (Vma.hash special) 1 exe m
      (hs.map (text (CStr.ofBytes [47, 98])) ++ [text (CStr.ofBytes [47, 98]) lib]) =
        getWalk V (Vma.hash special) j exe m' [text (CStr.ofBytes [47, 98]) lib] :=
    getWalk_append Nat.one_pos hno named_map_text haccepts _
  rw [List.map_singleton, heq, getWalk_code rfl rfl fun h => hj.ne' h.1, hash_text, Option.bind_some,
    Verifier.lookup, if_neg fun h => href h.2, if_neg hj.ne', hlib, Option.bind_some, if_neg hno]
  rfl

end Sound

/-- The item `a` for the main hash `11…`, with the library `00…`. -/
def itemA : ProcessIdentityUser where
  name := CStr.ofBytes [97]
  specificLibs := 0
  hashLength := lenHash
  libNumber := 1
  hash := Digest.ones.1 ++ Digest.zero.1
  length_hash := by decide
  strlen_name := by decide

/-- The digest `22…`. -/
def twos : Digest := ⟨List.replicate lenHash 2, List.length_replicate⟩

/-- The item `b` for the same main hash, with the library `22…`. -/
def itemB : ProcessIdentityUser where
  name := CStr.ofBytes [98]
  specificLibs := 0
  hashLength := lenHash
  libNumber := 1
  hash := Digest.ones.1 ++ twos.1
  length_hash := by decide
  strlen_name := by decide

end ProcessIdentity
end TsbAgent
