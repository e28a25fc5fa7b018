/-
# Process identities and roles

`tss-main/tcf/src/tcf_process.c`: two lists are packed into a buffer and extracted from it
again.

| list | item | narrowed by the writer |
| --- | --- | --- |
| identities | 6 bytes, the hashes, the name, aligned | `specific_libs` to 8 bits, `lib_number`, `hash_length` and **the length of the hashes** to 16 bits |
| roles | 12 bytes, the name, a length and a name for each member, aligned | nothing that is accepted |

The reader computes the length of the hashes in 32 bits.  So where `(lib_number + 1) *
hash_length` does not fit in 16 bits, fewer bytes are written than the reader steps over, and
every following item is shifted: a list that reads back has no such identity
(`IdsFit`, from the total that the reader stays within).  The length of either buffer is an
`int`.  The bytes between two items are what `malloc` gave.
-/

import TsbAgent.Tcf.Basic
import Mathlib.Algebra.BigOperators.Ring.List
import Mathlib.Algebra.Order.BigOperators.Group.List

namespace TsbAgent
namespace Tcf

open Libc Word Codec FileIntegrity

/-- `MAX_PROCESS_NAME_LENGTH`. -/
def maxProcessNameLength : ℕ := 64

/-- What a writer leaves: the size it asked for, `*length`, and the bytes from the start of the
buffer on. -/
structure Serialized where
  alloc : ℕ
  length : ℤ
  data : Bytes

/-! ### Identities -/

/-- `struct process_identity_user`.  `hash` points to the hash of the program and one for each
library. -/
structure ProcessIdentityUser where
  name : Option CStr
  hashLength : UInt32
  specificLibs : ℤ
  libNumber : ℤ
  hash : Option Bytes
  length_hash : ∀ b, hash = some b → b.length = ((libNumber + 1) * hashLength.toNat).toNat

/-- `name_len`. -/
def ProcessIdentityUser.nameLen (x : ProcessIdentityUser) : ℕ := (x.name.getD CStr.empty).strlen

/-- `hash_len` of the writer, a `uint16_t`. -/
def ProcessIdentityUser.hashLen (x : ProcessIdentityUser) : ℕ :=
  ((x.libNumber + 1) * x.hashLength.toNat % 2 ^ 16).toNat

/-- What an identity takes. -/
def ProcessIdentityUser.size (x : ProcessIdentityUser) : ℕ := align4 (6 + x.nameLen + x.hashLen)

/-- The first loop. -/
def checkProcessIds : List ProcessIdentityUser → Option TcfErr
  | [] => none
  | x :: xs =>
      match x.hash, x.name with
      | some _, some name =>
          if name.strlen > maxProcessNameLength then some .parameter else checkProcessIds xs
      | _, _ => some .parameter

/-- The second loop: an identity may be refused, and its hashes may be read beyond their end. -/
def writeProcessIds : List ProcessIdentityUser → Except Fail Unit
  | [] => .ok ()
  | x :: xs =>
      if x.specificLibs > 255 then .error (.error .parameter)
      else if x.hashLen > (x.hash.getD []).length then .error .fault
      else writeProcessIds xs

/-- `struct process_identity`. -/
def encodeProcessId (x : ProcessIdentityUser) : Bytes :=
  [UInt8.ofNat x.nameLen, UInt8.ofNat (x.specificLibs % 2 ^ 8).toNat] ++
    (netBytes 2 x.hashLength.toNat ++ (netBytes 2 (x.libNumber % 2 ^ 16).toNat ++
      ((x.hash.getD []).take x.hashLen ++ (x.name.getD CStr.empty).bytes)))

/-- `tcf_util_process_ids_serialize`, where `malloc` gives a memory of `fill`. -/
def tcfUtilProcessIdsSerialize (fill : ℕ → UInt8) (ids : List ProcessIdentityUser) : Except Fail Serialized :=
  match checkProcessIds ids with
  | some e => .error (.error e)
  | none =>
      let actLen := (ids.map ProcessIdentityUser.size).sum % 2 ^ 32
      match writeProcessIds ids with
      | .error e => .error e
      | .ok () =>
          .ok
            { alloc := actLen
              length := int32 actLen
              data := pack fill encodeProcessId ProcessIdentityUser.size 0 ids }

/-- What is filled in of an identity; the name is what stands before its terminator. -/
structure ProcessIdentity where
  name : Bytes
  hashLength : ℕ
  specificLibs : ℤ
  libNumber : ℤ
  hash : Bytes
deriving DecidableEq

/-- One round of `tcf_util_process_ids_extract`. -/
def readProcessId (length : ℤ) (op : ℕ) (p : Bytes) : Except Fail (ProcessIdentity × ℕ) :=
  if p.length < 6 then .error .fault
  else
    let nameLength := (p.getD 0 0).toNat
    let hashLength := netAt p 2 2
    let libNumber := netAt p 4 2
    let hashLen := int32 (hashLength * (1 + libNumber) : ℕ)
    let size := align4 (hashLen.toNat + nameLength + 6)
    if op + hashLen + nameLength > length then .error (.error .parameter)
    -- the memory for the hashes
    else if hashLen < 0 then .error (.error .nomem)
    else if p.length < 6 + hashLen.toNat + nameLength then .error .fault
    else if op + hashLen > length then .error (.error .parameter)
    else if (op + size : ℕ) > length then .error (.error .parameter)
    else
      .ok ({
        name := fieldAt p (6 + hashLen.toNat) nameLength
        hashLength := hashLength
        specificLibs := (p.getD 1 0).toNat
        libNumber := libNumber
        hash := fieldAt p 6 hashLen.toNat }, size)

/-- `tcf_util_process_ids_extract`. -/
def tcfUtilProcessIdsExtract (ids : Bytes) (num : ℕ) (length : ℤ) : Except Fail (List ProcessIdentity) :=
  unpack (readProcessId length) num 0 ids

/-- What is to be read back of an identity. -/
def ProcessIdentityUser.view (x : ProcessIdentityUser) : ProcessIdentity where
  name := (x.name.getD CStr.empty).bytes
  hashLength := x.hashLength.toNat
  specificLibs := x.specificLibs
  libNumber := x.libNumber
  hash := x.hash.getD []

/-! ### Roles -/

/-- `struct process_role_user`; `member_number` is the length of the list. -/
structure ProcessRoleUser where
  name : Option CStr
  members : List (Option CStr)

/-- `namelen`. -/
def ProcessRoleUser.namelen (x : ProcessRoleUser) : ℕ := (x.name.getD CStr.empty).strlen

/-- What a member takes. -/
def memberSize (m : Option CStr) : ℕ := 1 + (m.getD CStr.empty).strlen

/-- `op_member` at the end of the loop. -/
def ProcessRoleUser.opMember (x : ProcessRoleUser) : ℕ := (x.members.map memberSize).sum

/-- What a role takes. -/
def ProcessRoleUser.size (x : ProcessRoleUser) : ℕ := align4 (12 + x.opMember + x.namelen)

/-- A name that is there and not too long. -/
def nameAllowed (name : Option CStr) : Bool :=
  match name with
  | none => false
  | some name => decide (name.strlen ≤ maxProcessNameLength)

/-- The first loop: `act_len`, which is aligned after each role, or a name that is not allowed. -/
def checkProcessRoles : ℕ → List ProcessRoleUser → Except TcfErr ℕ
  | actLen, [] => .ok actLen
  | actLen, x :: xs =>
      if nameAllowed x.name = false then .error .parameter
      else if x.members.all nameAllowed = false then .error .parameter
      else checkProcessRoles (align4 ((actLen + 12 + x.namelen + x.opMember) % 2 ^ 32) % 2 ^ 32) xs

/-- `struct role_member`. -/
def encodeMember (m : Option CStr) : Bytes :=
  UInt8.ofNat (m.getD CStr.empty).strlen :: (m.getD CStr.empty).bytes

/-- `struct process_role`. -/
def encodeProcessRole (x : ProcessRoleUser) : Bytes :=
  netBytes 4 x.namelen ++ (netBytes 4 x.opMember ++ (netBytes 4 x.members.length ++
    ((x.name.getD CStr.empty).bytes ++ pack (fun _ => 0) encodeMember memberSize 0 x.members)))

/-- `tcf_util_process_roles_serialize`. -/
def tcfUtilProcessRolesSerialize (fill : ℕ → UInt8) (roles : List ProcessRoleUser) : Except Fail Serialized :=
  match checkProcessRoles 0 roles with
  | .error e => .error (.error e)
  | .ok actLen =>
      .ok
        { alloc := actLen
          length := int32 actLen
          data := pack fill encodeProcessRole ProcessRoleUser.size 0 roles }

/-- What is filled in of a role. -/
structure ProcessRole where
  name : Bytes
  members : List Bytes
deriving DecidableEq

/-- One member; `op` is the offset of the role and `total` is `member_length + role_name_length`. -/
def readMember (length : ℤ) (op total memberOpt : ℕ) (q : Bytes) : Except Fail (Bytes × ℕ) :=
  if q.length < 1 then .error .fault
  else
    let memberLength := (q.getD 0 0).toNat
    if (op + memberOpt + memberLength : ℕ) > length then .error (.error .parameter)
    else if q.length < 1 + memberLength then .error .fault
    else if memberOpt + 1 + memberLength > total then .error (.error .parameter)
    else .ok (fieldAt q 1 memberLength, 1 + memberLength)

/-- One round of `tcf_util_process_roles_extract`. -/
def readProcessRole (length : ℤ) (op : ℕ) (p : Bytes) : Except Fail (ProcessRole × ℕ) :=
  if p.length < 12 then .error .fault
  else
    let nameLength := int32 (netAt p 0 4 : ℕ)
    if nameLength + 1 < 0 then .error (.error .nomem)
    else if op + nameLength > length then .error (.error .parameter)
    else if nameLength < 0 ∨ p.length < 12 + nameLength.toNat then .error .fault
    else
      let total := (netAt p 4 4 + nameLength.toNat) % 2 ^ 32
      match unpack (readMember length op total) (netAt p 8 4) nameLength.toNat (p.drop (12 + nameLength.toNat)) with
      | .error e => .error e
      | .ok members =>
          let memberOpt := nameLength.toNat + (members.map fun m => 1 + m.length).sum
          let size := align4 (memberOpt + 12)
          if (op + size : ℕ) > length then .error (.error .parameter)
          else .ok (⟨fieldAt p 12 nameLength.toNat, members⟩, size)

/-- `tcf_util_process_roles_extract`. -/
def tcfUtilProcessRolesExtract (roles : Bytes) (num : ℕ) (length : ℤ) : Except Fail (List ProcessRole) :=
  unpack (readProcessRole length) num 0 roles

/-- What is to be read back of a role. -/
def ProcessRoleUser.view (x : ProcessRoleUser) : ProcessRole where
  name := (x.name.getD CStr.empty).bytes
  members := x.members.map fun m => (m.getD CStr.empty).bytes

/-! ### Either list -/

/-- A list of identities or of roles. -/
inductive ProcessItems
  | ids (ids : List ProcessIdentityUser)
  | roles (roles : List ProcessRoleUser)

/-- The list in a buffer. -/
def ProcessItems.serialize (fill : ℕ → UInt8) : ProcessItems → Except Fail Serialized
  | ids xs => tcfUtilProcessIdsSerialize fill xs
  | roles xs => tcfUtilProcessRolesSerialize fill xs

/-- The list is extracted again. -/
def ProcessItems.ReadBack (s : Serialized) : ProcessItems → Prop
  | ids xs => tcfUtilProcessIdsExtract s.data xs.length s.length = .ok (xs.map ProcessIdentityUser.view)
  | roles xs => tcfUtilProcessRolesExtract s.data xs.length s.length = .ok (xs.map ProcessRoleUser.view)

/-- **The list round-trips:** it is written into its buffer, the length is that of the bytes
written, and it is extracted again. -/
def ProcessItems.RoundTrips (x : ProcessItems) (o : Except Fail Serialized) : Prop :=
  ∃ s, o = .ok s ∧ s.data.length ≤ s.alloc ∧ s.length = s.data.length ∧ x.ReadBack s

/-- The numbers of an identity fit in their fields. -/
structure ProcessIdentityUser.Fits (x : ProcessIdentityUser) : Prop where
  specificLibs : 0 ≤ x.specificLibs
  libNumber : 0 ≤ x.libNumber
  libNumber_lt : x.libNumber < 2 ^ 16
  hash : (x.libNumber + 1) * x.hashLength.toNat < 2 ^ 16

/-- **The condition:** the numbers of every identity fit in their fields, and the size of the list
is an `int`. -/
def ProcessItems.Fits : ProcessItems → Prop
  | ids xs => (∀ x ∈ xs, x.Fits) ∧ (xs.map ProcessIdentityUser.size).sum < 2 ^ 31
  | roles xs => (xs.map ProcessRoleUser.size).sum < 2 ^ 31

section Ids

variable {x : ProcessIdentityUser} {xs : List ProcessIdentityUser} {r : Bytes} {len : ℕ}

/-- What the writer demands of an identity. -/
structure IdAccepted (x : ProcessIdentityUser) : Prop where
  nameLen : x.nameLen ≤ 64
  hash : x.hash.isSome
  specificLibs : x.specificLibs ≤ 255
  hashLen : x.hashLen ≤ (x.hash.getD []).length

theorem accepted_of_ids (h : checkProcessIds xs = none) (hwrite : writeProcessIds xs = .ok ()) :
    ∀ x ∈ xs, IdAccepted x := by
  induction xs with
  | nil => nofun
  | cons x xs ih =>
      rw [checkProcessIds] at h
      rw [writeProcessIds] at hwrite
      split at h
      · rename_i b name hhash hname
        split_ifs at h with hlen
        split_ifs at hwrite with hlibs hread
        refine List.forall_mem_cons.mpr ⟨⟨?_, ?_, by omega, by omega⟩, ih h hwrite⟩
        · rw [maxProcessNameLength] at hlen
          rw [ProcessIdentityUser.nameLen, hname, Option.getD_some]
          omega
        · rw [hhash]
          rfl
      · exact absurd h (by simp)

/-- Hashes are read beyond their end only where `lib_number` is negative. -/
theorem negative_of_fault (hcheck : checkProcessIds xs = none) (h : writeProcessIds xs = .error .fault) :
    ∃ x ∈ xs, x.libNumber < 0 := by
  induction xs with
  | nil => exact absurd h (by simp [writeProcessIds])
  | cons x xs ih =>
      rw [checkProcessIds] at hcheck
      rw [writeProcessIds] at h
      split at hcheck
      · rename_i b name hhash hname
        split_ifs at hcheck with hlen
        split_ifs at h with hlibs hread
        · exact absurd h (by simp)
        · refine ⟨x, List.mem_cons_self, ?_⟩
          rw [hhash, Option.getD_some, x.length_hash b hhash, ProcessIdentityUser.hashLen] at hread
          by_contra hpos
          have hprod : 0 ≤ (x.libNumber + 1) * x.hashLength.toNat := Int.mul_nonneg (by omega) (by omega)
          omega
        · obtain ⟨y, hy, hneg⟩ := ih hcheck h
          exact ⟨y, List.mem_cons_of_mem _ hy, hneg⟩
      · exact absurd hcheck (by simp)

theorem IdAccepted.length_encode (h : IdAccepted x) :
    (encodeProcessId x).length = 6 + x.hashLen + x.nameLen := by
  have hlen := h.hashLen
  rw [encodeProcessId, ProcessIdentityUser.nameLen, CStr.strlen]
  simp only [List.length_append, List.length_cons, List.length_nil, length_netBytes, List.length_take]
  omega

theorem IdAccepted.fits (h : IdAccepted x) : (encodeProcessId x).length ≤ x.size := by
  have hle := le_align4 (6 + x.nameLen + x.hashLen)
  rw [h.length_encode, ProcessIdentityUser.size]
  omega

/-- What the reader finds in the fixed part. -/
theorem IdAccepted.fields (h : IdAccepted x) :
    ((encodeProcessId x ++ r).getD 0 0).toNat = x.nameLen ∧
      ((encodeProcessId x ++ r).getD 1 0).toNat = (x.specificLibs % 2 ^ 8).toNat ∧
      netAt (encodeProcessId x ++ r) 2 2 = x.hashLength.toNat % 2 ^ 16 ∧
      netAt (encodeProcessId x ++ r) 4 2 = (x.libNumber % 2 ^ 16).toNat := by
  have hname := h.nameLen
  have hhead : (encodeProcessId x ++ r) = [UInt8.ofNat x.nameLen, UInt8.ofNat (x.specificLibs % 2 ^ 8).toNat] ++
      (netBytes 2 x.hashLength.toNat ++ (netBytes 2 (x.libNumber % 2 ^ 16).toNat ++
        (((x.hash.getD []).take x.hashLen ++ (x.name.getD CStr.empty).bytes) ++ r))) := by
    simp only [encodeProcessId, List.append_assoc]
  have hlib : (x.libNumber % 2 ^ 16).toNat < 256 ^ 2 := by omega
  refine ⟨?_, ?_, ?_, ?_⟩
  · rw [hhead]
    show (UInt8.ofNat x.nameLen).toNat = x.nameLen
    rw [UInt8.toNat_ofNat']
    omega
  · rw [hhead]
    show (UInt8.ofNat (x.specificLibs % 2 ^ 8).toNat).toNat = (x.specificLibs % 2 ^ 8).toNat
    rw [UInt8.toNat_ofNat']
    omega
  · rw [hhead, netAt, fieldAt_skip (k := 2) rfl, ← netAt, netAt_head]
    rfl
  · rw [hhead, netAt, fieldAt_skip (k := 2) rfl, ← netAt, netAt_skip, netAt_head, Nat.mod_eq_of_lt hlib]

theorem ProcessIdentityUser.Fits.hashLen (h : x.Fits) (ha : IdAccepted x) :
    x.hashLength.toNat * (1 + x.libNumber.toNat) = x.hashLen ∧ (x.hash.getD []).length = x.hashLen ∧
      x.hashLen < 2 ^ 16 ∧ x.hashLength.toNat < 2 ^ 16 := by
  have hpos := h.libNumber
  have hlt := h.hash
  obtain ⟨n, hn⟩ := Int.eq_ofNat_of_zero_le hpos
  have hprod : (x.libNumber + 1) * x.hashLength.toNat = (x.hashLength.toNat * (1 + n) : ℕ) := by
    rw [hn]
    push_cast
    ring
  obtain ⟨b, hb⟩ := Option.isSome_iff_exists.mp ha.hash
  rw [hprod] at hlt
  have hone : x.hashLength.toNat * 1 ≤ x.hashLength.toNat * (1 + n) := Nat.mul_le_mul_left _ (by omega)
  rw [ProcessIdentityUser.hashLen, hb, Option.getD_some, x.length_hash b hb, hprod, hn,
    Int.toNat_natCast, Int.toNat_natCast]
  generalize x.hashLength.toNat * (1 + n) = k at hlt hone ⊢
  omega

/-- **An identity whose numbers fit reads back.** -/
theorem IdAccepted.readsBack (ha : IdAccepted x) (h : x.Fits) :
    ReadsBack (readProcessId len) len encodeProcessId ProcessIdentityUser.size ProcessIdentityUser.view x := by
  intro op pad tail hop _
  obtain ⟨f0, f1, f2, f4⟩ := @IdAccepted.fields _ (pad ++ tail) ha
  obtain ⟨hprod, hhash, hlt, hhl⟩ := h.hashLen ha
  have hlength := ha.length_encode
  have hname := ha.nameLen
  have hlibs := ha.specificLibs
  have hlibs' := h.specificLibs
  have hlib := h.libNumber
  have hlib' := h.libNumber_lt
  have hsize : align4 (x.hashLen + x.nameLen + 6) = x.size := by
    rw [ProcessIdentityUser.size]
    congr 1
    omega
  have hle := le_align4 (x.hashLen + x.nameLen + 6)
  rw [hsize] at hle
  have hlong : (encodeProcessId x ++ (pad ++ tail)).length ≥ 6 + x.hashLen + x.nameLen := by
    rw [List.length_append]
    omega
  have htake : (x.hash.getD []).take x.hashLen = x.hash.getD [] := List.take_of_length_le (by omega)
  have hshape : encodeProcessId x ++ (pad ++ tail) =
      ([UInt8.ofNat x.nameLen, UInt8.ofNat (x.specificLibs % 2 ^ 8).toNat] ++ netBytes 2 x.hashLength.toNat ++
        netBytes 2 (x.libNumber % 2 ^ 16).toNat) ++ (x.hash.getD [] ++
          ((x.name.getD CStr.empty).bytes ++ (pad ++ tail))) := by
    simp only [encodeProcessId, htake, List.append_assoc]
  have hhashes : fieldAt (encodeProcessId x ++ (pad ++ tail)) 6 x.hashLen = x.hash.getD [] := by
    rw [hshape]
    exact fieldAt_append (by simp) hhash
  have hnames : fieldAt (encodeProcessId x ++ (pad ++ tail)) (6 + x.hashLen) x.nameLen =
      (x.name.getD CStr.empty).bytes := by
    rw [hshape, ← List.append_assoc]
    refine fieldAt_append ?_ rfl
    simp only [List.length_append, List.length_cons, List.length_nil, length_netBytes, hhash]
  have hmod : x.hashLength.toNat % 2 ^ 16 = x.hashLength.toNat := Nat.mod_eq_of_lt hhl
  have hmod' : x.libNumber % 2 ^ 16 = x.libNumber := Int.emod_eq_of_lt hlib hlib'
  have hmod8 : x.specificLibs % 2 ^ 8 = x.specificLibs := Int.emod_eq_of_lt hlibs' (by omega)
  unfold readProcessId
  dsimp only
  rw [f0, f1, f2, f4, hmod, hmod', hmod8, hprod, int32_eq (by omega) (by omega), Int.toNat_natCast, hsize,
    if_neg (by omega), if_neg (by omega), if_neg (by omega), if_neg (by omega), if_neg (by omega),
    if_neg (by omega),
    hhashes, hnames, Int.toNat_of_nonneg hlibs', Int.toNat_of_nonneg hlib]
  rfl

/-- What the reader steps over. -/
def ProcessIdentity.stride (y : ProcessIdentity) : ℕ :=
  align4 (y.hashLength * (1 + y.libNumber.toNat) + y.name.length + 6)

/-- What every identity that was read has. -/
theorem of_readProcessId {length : ℤ} {op s : ℕ} {p : Bytes} {y : ProcessIdentity} (hp : 4 ∣ p.length)
    (h : readProcessId length op p = .ok (y, s)) : s = y.stride ∧ 4 ∣ s ∧ s ≤ p.length := by
  unfold readProcessId at h
  split_ifs at h with h0
  dsimp only at h
  split_ifs at h with h1 h2 h3 h4 h5
  obtain ⟨rfl, rfl⟩ := Prod.mk.inj (Except.ok.inj h)
  have hl : netAt p 2 2 < 65536 := netAt_lt p 2 2
  have hn : 1 + netAt p 4 2 ≤ 65536 := by
    have := netAt_lt p 4 2
    omega
  have hprod : netAt p 2 2 * (1 + netAt p 4 2) ≤ 65535 * 65536 := Nat.mul_le_mul (by omega) hn
  have hint : int32 (netAt p 2 2 * (1 + netAt p 4 2) : ℕ) = (netAt p 2 2 * (1 + netAt p 4 2) : ℕ) := by
    rw [int32, Int.bmod_def] at h2 ⊢
    omega
  rw [hint, Int.toNat_natCast] at h3 ⊢
  have hname :
      (fieldAt p (6 + netAt p 2 2 * (1 + netAt p 4 2)) (p.getD 0 0).toNat).length = (p.getD 0 0).toNat := by
    rw [fieldAt, List.length_take, List.length_drop]
    omega
  refine ⟨?_, dvd_align4 _, align4_le_of_dvd hp (by omega)⟩
  rw [ProcessIdentity.stride]
  dsimp only
  rw [hname, Int.toNat_natCast]

theorem fields_of_readProcessId {length : ℤ} {op s : ℕ} {p : Bytes} {y : ProcessIdentity}
    (h : readProcessId length op p = .ok (y, s)) :
    0 ≤ y.specificLibs ∧ 0 ≤ y.libNumber ∧ y.libNumber < 2 ^ 16 := by
  unfold readProcessId at h
  split_ifs at h with h0
  dsimp only at h
  split_ifs at h with h1 h2 h3 h4 h5
  obtain ⟨rfl, -⟩ := Prod.mk.inj (Except.ok.inj h)
  have hlib : netAt p 4 2 < 65536 := netAt_lt p 4 2
  exact ⟨Int.natCast_nonneg _, Int.natCast_nonneg _, by dsimp only; omega⟩

/-- The reader steps over all the hashes, the writer over their length in 16 bits. -/
theorem size_le_stride (hlib : 0 ≤ x.libNumber) :
    x.size ≤ x.view.stride ∧ (x.size = x.view.stride → (x.libNumber + 1) * x.hashLength.toNat < 2 ^ 16) := by
  obtain ⟨n, hn⟩ := Int.eq_ofNat_of_zero_le hlib
  have hprod : (x.libNumber + 1) * x.hashLength.toNat = (x.hashLength.toNat * (1 + n) : ℕ) := by
    rw [hn]
    push_cast
    ring
  have hview : x.view.stride = align4 (x.hashLength.toNat * (1 + n) + x.nameLen + 6) := by
    rw [ProcessIdentity.stride]
    show align4 (x.hashLength.toNat * (1 + x.libNumber.toNat) + x.nameLen + 6) = _
    rw [hn, Int.toNat_natCast]
  have hsize : x.size = align4 (6 + x.nameLen + x.hashLength.toNat * (1 + n) % 2 ^ 16) := by
    rw [ProcessIdentityUser.size, ProcessIdentityUser.hashLen, hprod]
    rfl
  rw [hview, hsize, hprod]
  generalize x.hashLength.toNat * (1 + n) = k
  unfold align4
  split_ifs <;> omega

theorem eq_of_sum_le {α : Type*} {f g : α → ℕ} {l : List α} (hle : ∀ a ∈ l, f a ≤ g a)
    (hsum : (l.map g).sum ≤ (l.map f).sum) : ∀ a ∈ l, f a = g a := by
  intro a ha
  by_contra hne
  have hlt := List.sum_lt_sum (f := f) (g := g) hle ⟨a, ha, lt_of_le_of_ne (hle a ha) hne⟩
  omega

theorem ids_round_trip_iff {fill : ℕ → UInt8} (hall : ∀ x ∈ xs, IdAccepted x) :
    (ProcessItems.ids xs).RoundTrips
        (.ok { alloc := (xs.map ProcessIdentityUser.size).sum % 2 ^ 32
               length := int32 ((xs.map ProcessIdentityUser.size).sum % 2 ^ 32 : ℕ)
               data := pack fill encodeProcessId ProcessIdentityUser.size 0 xs }) ↔
      (ProcessItems.ids xs).Fits := by
  have hlength := @length_pack _ fill _ _ 0 _ fun x hx => (hall x hx).fits
  constructor
  · rintro ⟨s, hs, -, hint, hback⟩
    obtain rfl := Except.ok.inj hs
    dsimp only at hint
    rw [hlength] at hint
    have hsum : (xs.map ProcessIdentityUser.size).sum < 2 ^ 31 := by
      rw [int32, Int.bmod_def] at hint
      omega
    have hfields := unpack_forall (fun op p' y s _ hread => fields_of_readProcessId hread) hback
    have hdvd : 4 ∣ (pack fill encodeProcessId ProcessIdentityUser.size 0 xs).length := by
      rw [hlength]
      refine List.dvd_sum fun n hn => ?_
      obtain ⟨x, -, rfl⟩ := List.mem_map.mp hn
      exact dvd_align4 _
    obtain ⟨-, hfits⟩ := unpack_fits (fun op p y s hp hread => of_readProcessId hp hread) hdvd hback
    rw [hlength, List.map_map] at hfits
    have hlib (x) (hx : x ∈ xs) := hfields x.view (List.mem_map_of_mem hx)
    have hsize := eq_of_sum_le (fun x hx => (size_le_stride (hlib x hx).2.1).1) hfits
    refine ⟨fun x hx => ⟨(hlib x hx).1, (hlib x hx).2.1, (hlib x hx).2.2, ?_⟩, hsum⟩
    exact (size_le_stride (hlib x hx).2.1).2 (hsize x hx)
  · rintro ⟨hfit, hsum⟩
    have hmod : (xs.map ProcessIdentityUser.size).sum % 2 ^ 32 = (xs.map ProcessIdentityUser.size).sum :=
      Nat.mod_eq_of_lt (by omega)
    rw [hmod, int32_eq (by omega) (by omega)]
    refine ⟨_, rfl, hlength.le, ?_, ?_⟩
    · dsimp only
      rw [hlength]
    · have hread := @unpack_pack _ _ _ fill _ _ 0 0 _ _ [] _ _ (fun x hx => (hall x hx).fits)
        (fun x hx => (hall x hx).readsBack (hfit x hx)) (by rw [Nat.zero_add])
      rw [List.append_nil] at hread
      exact hread

end Ids

section Roles

variable {x : ProcessRoleUser} {xs : List ProcessRoleUser} {actLen len : ℕ}

/-- What the writer demands of a role. -/
structure RoleAccepted (x : ProcessRoleUser) : Prop where
  name : x.namelen ≤ 64
  members : ∀ m ∈ x.members, (m.getD CStr.empty).strlen ≤ 64

theorem strlen_of_nameAllowed {name : Option CStr} (h : ¬ nameAllowed name = false) :
    (name.getD CStr.empty).strlen ≤ 64 := by
  cases name with
  | none => exact absurd rfl h
  | some name =>
      by_contra hlong
      exact h (decide_eq_false hlong)

/-- `act_len` is the size of the roles, in 32 bits. -/
theorem accepted_of_roles {total : ℕ} (hdvd : 4 ∣ actLen) (hlt : actLen < 2 ^ 32)
    (h : checkProcessRoles actLen xs = .ok total) :
    total = (actLen + (xs.map ProcessRoleUser.size).sum) % 2 ^ 32 ∧ ∀ x ∈ xs, RoleAccepted x := by
  induction xs generalizing actLen with
  | nil =>
      obtain rfl := Except.ok.inj h
      exact ⟨(Nat.mod_eq_of_lt (by simpa using hlt)).symm, nofun⟩
  | cons x xs ih =>
      rw [checkProcessRoles] at h
      split_ifs at h with hname hmembers
      have hnext : align4 ((actLen + 12 + x.namelen + x.opMember) % 2 ^ 32) % 2 ^ 32 =
          (actLen + x.size) % 2 ^ 32 := by
        rw [ProcessRoleUser.size]
        unfold align4
        split_ifs <;> omega
      have hsize : 4 ∣ x.size := dvd_align4 _
      rw [hnext] at h
      obtain ⟨rfl, hall⟩ := ih (by omega) (Nat.mod_lt _ (by decide)) h
      refine ⟨?_, List.forall_mem_cons.mpr ⟨⟨strlen_of_nameAllowed hname, fun m hm => ?_⟩, hall⟩⟩
      · rw [List.map_cons, List.sum_cons, Nat.mod_add_mod, Nat.add_assoc]
      · have hm' : nameAllowed m = true := by
          rw [Bool.not_eq_false, List.all_eq_true] at hmembers
          exact hmembers m hm
        exact strlen_of_nameAllowed (by rw [hm']; decide)

theorem length_encodeMember (m : Option CStr) : (encodeMember m).length = memberSize m := by
  rw [encodeMember, memberSize, List.length_cons, CStr.strlen, Nat.add_comm]

theorem length_encodeProcessRole (x : ProcessRoleUser) :
    (encodeProcessRole x).length = 12 + x.opMember + x.namelen := by
  have hmembers := @length_pack _ (fun _ => 0) _ _ 0 _ fun m (_ : m ∈ x.members) => (length_encodeMember m).le
  rw [encodeProcessRole, ProcessRoleUser.opMember, ProcessRoleUser.namelen, CStr.strlen]
  simp only [List.length_append, length_netBytes, hmembers]
  omega

theorem encodeProcessRole_fits (x : ProcessRoleUser) : (encodeProcessRole x).length ≤ x.size := by
  rw [length_encodeProcessRole]
  exact le_align4 _

/-- A member reads back, in a role that ends before the list. -/
theorem readsBack_encodeMember {length : ℤ} {op total : ℕ} {m : Option CStr}
    (hm : (m.getD CStr.empty).strlen ≤ 64) (hlen : (op + total : ℕ) ≤ length) :
    ReadsBack (readMember length op total) total encodeMember memberSize
      (fun m => (m.getD CStr.empty).bytes) m := by
  intro opt pad tail hopt _
  have hhead : ((encodeMember m ++ (pad ++ tail)).getD 0 0).toNat = (m.getD CStr.empty).strlen := by
    show (UInt8.ofNat (m.getD CStr.empty).strlen).toNat = _
    rw [UInt8.toNat_ofNat']
    omega
  have hlength : (encodeMember m ++ (pad ++ tail)).length ≥ 1 + (m.getD CStr.empty).strlen := by
    rw [List.length_append, length_encodeMember, memberSize]
    omega
  have hname : fieldAt (encodeMember m ++ (pad ++ tail)) 1 (m.getD CStr.empty).strlen =
      (m.getD CStr.empty).bytes := by
    have hfield := @fieldAt_append [UInt8.ofNat (m.getD CStr.empty).strlen] (m.getD CStr.empty).bytes
      (pad ++ tail) 1 (m.getD CStr.empty).strlen rfl rfl
    rwa [List.singleton_append] at hfield
  rw [memberSize] at hopt
  unfold readMember
  dsimp only
  rw [hhead, hname, if_neg (by omega), if_neg (by omega), if_neg (by omega), if_neg (by omega)]
  rfl

/-- What a reader finds in the fixed part, and behind it. -/
theorem RoleAccepted.fields {r : Bytes} (h : RoleAccepted x) (hsize : x.size < 2 ^ 32) :
    netAt (encodeProcessRole x ++ r) 0 4 = x.namelen ∧ netAt (encodeProcessRole x ++ r) 4 4 = x.opMember ∧
      netAt (encodeProcessRole x ++ r) 8 4 = x.members.length ∧
      (encodeProcessRole x ++ r).drop 12 = (x.name.getD CStr.empty).bytes ++
        (pack (fun _ => 0) encodeMember memberSize 0 x.members ++ r) := by
  have hle : 12 + x.opMember + x.namelen ≤ x.size := le_align4 _
  have hname := h.name
  have hcount : x.members.length ≤ x.opMember := by
    rw [ProcessRoleUser.opMember]
    calc x.members.length = (x.members.map fun _ => 1).sum := by simp
      _ ≤ (x.members.map memberSize).sum := List.sum_le_sum fun m _ => Nat.le_add_right 1 _
  have hshape : encodeProcessRole x ++ r =
      netBytes 4 x.namelen ++ (netBytes 4 x.opMember ++ (netBytes 4 x.members.length ++
        ((x.name.getD CStr.empty).bytes ++ (pack (fun _ => 0) encodeMember memberSize 0 x.members ++ r)))) := by
    simp only [encodeProcessRole, List.append_assoc]
  refine ⟨?_, ?_, ?_, ?_⟩
  · rw [hshape, netAt_head]
    exact Nat.mod_eq_of_lt (by omega)
  · rw [hshape, netAt_skip, netAt_head]
    exact Nat.mod_eq_of_lt (by omega)
  · rw [hshape, netAt_skip, netAt_skip, netAt_head]
    exact Nat.mod_eq_of_lt (by omega)
  · rw [hshape, ← List.append_assoc, ← List.append_assoc]
    exact List.drop_left' (by simp)

/-- **A role reads back.** -/
theorem RoleAccepted.readsBack (h : RoleAccepted x) (hlen : len < 2 ^ 31) :
    ReadsBack (readProcessRole len) len encodeProcessRole ProcessRoleUser.size ProcessRoleUser.view x := by
  intro op pad tail hop _
  have hle : 12 + x.opMember + x.namelen ≤ x.size := le_align4 _
  have hname := h.name
  obtain ⟨f0, f4, f8, f12⟩ := @RoleAccepted.fields x (pad ++ tail) h (by omega)
  have hfield : fieldAt (encodeProcessRole x ++ (pad ++ tail)) 12 x.namelen = (x.name.getD CStr.empty).bytes := by
    rw [fieldAt, f12]
    exact List.take_left' rfl
  have hdrop : (encodeProcessRole x ++ (pad ++ tail)).drop (12 + x.namelen) =
      pack (fun _ => 0) encodeMember memberSize 0 x.members ++ (pad ++ tail) := by
    rw [← List.drop_drop, f12]
    exact List.drop_left' rfl
  have hlong : (encodeProcessRole x ++ (pad ++ tail)).length ≥ 12 + x.opMember + x.namelen := by
    rw [List.length_append, length_encodeProcessRole]
    omega
  have hmembers := @unpack_pack _ _ _ (fun _ => 0) encodeMember memberSize 0 x.namelen
    (x.opMember + x.namelen) x.members (pad ++ tail) (readMember len op (x.opMember + x.namelen))
    (fun m => (m.getD CStr.empty).bytes) (fun m _ => (length_encodeMember m).le)
    (fun m hm => readsBack_encodeMember (h.members m hm) (by omega)) (by rw [ProcessRoleUser.opMember]; omega)
  have hsum : ((x.members.map fun m => (m.getD CStr.empty).bytes).map fun m => 1 + m.length).sum = x.opMember := by
    rw [List.map_map]
    rfl
  have hsize : align4 (x.namelen + x.opMember + 12) = x.size := by
    rw [ProcessRoleUser.size]
    congr 1
    omega
  have htotal : (x.opMember + x.namelen) % 2 ^ 32 = x.opMember + x.namelen := Nat.mod_eq_of_lt (by omega)
  unfold readProcessRole
  dsimp only
  rw [f0, f4, f8, int32_eq (by omega) (by omega), Int.toNat_natCast, htotal, hdrop, hmembers]
  dsimp only
  rw [hsum, hsize, hfield, if_neg (by omega), if_neg (by omega), if_neg (by omega), if_neg (by omega),
    if_neg (by omega)]
  rfl

theorem roles_round_trip_iff {fill : ℕ → UInt8} (hall : ∀ x ∈ xs, RoleAccepted x) :
    (ProcessItems.roles xs).RoundTrips
        (.ok { alloc := (xs.map ProcessRoleUser.size).sum % 2 ^ 32
               length := int32 ((xs.map ProcessRoleUser.size).sum % 2 ^ 32 : ℕ)
               data := pack fill encodeProcessRole ProcessRoleUser.size 0 xs }) ↔
      (ProcessItems.roles xs).Fits := by
  have hlength := @length_pack _ fill _ _ 0 _ fun x (_ : x ∈ xs) => encodeProcessRole_fits x
  constructor
  · rintro ⟨s, hs, -, hint, -⟩
    obtain rfl := Except.ok.inj hs
    dsimp only at hint
    rw [hlength, int32, Int.bmod_def] at hint
    show (xs.map ProcessRoleUser.size).sum < 2 ^ 31
    omega
  · intro hsum
    have hsum : (xs.map ProcessRoleUser.size).sum < 2 ^ 31 := hsum
    have hmod : (xs.map ProcessRoleUser.size).sum % 2 ^ 32 = (xs.map ProcessRoleUser.size).sum :=
      Nat.mod_eq_of_lt (by omega)
    rw [hmod, int32_eq (by omega) (by omega)]
    refine ⟨_, rfl, hlength.le, ?_, ?_⟩
    · dsimp only
      rw [hlength]
    · have hread := @unpack_pack _ _ _ fill _ _ 0 0 _ _ [] _ _ (fun x _ => encodeProcessRole_fits x)
        (fun x hx => (hall x hx).readsBack hsum) (by rw [Nat.zero_add])
      rw [List.append_nil] at hread
      exact hread

end Roles

/-- **A list round-trips exactly when it fits,** for every list that is not refused: the numbers of
the identities in their fields, and the size in an `int`. -/
theorem process_round_trip_iff {x : ProcessItems} {fill : ℕ → UInt8}
    (h : ∀ e, x.serialize fill ≠ .error (.error e)) : x.RoundTrips (x.serialize fill) ↔ x.Fits := by
  cases x with
  | ids xs =>
      unfold ProcessItems.serialize tcfUtilProcessIdsSerialize at h ⊢
      dsimp only at h ⊢
      cases hcheck : checkProcessIds xs with
      | some e =>
          rw [hcheck] at h
          exact absurd rfl (h e)
      | none =>
          rw [hcheck] at h
          cases hwrite : writeProcessIds xs with
          | ok _ => exact ids_round_trip_iff (accepted_of_ids hcheck hwrite)
          | error e =>
              rw [hwrite] at h
              cases e with
              | error e => exact absurd rfl (h e)
              | fault =>
                  refine iff_of_false (fun hr => ?_) (fun hr => ?_)
                  · obtain ⟨s, hs, -⟩ := hr
                    exact absurd hs (by simp)
                  · obtain ⟨y, hy, hneg⟩ := negative_of_fault hcheck hwrite
                    exact absurd (hr.1 y hy).libNumber (by omega)
  | roles xs =>
      unfold ProcessItems.serialize tcfUtilProcessRolesSerialize at h ⊢
      dsimp only at h ⊢
      cases hcheck : checkProcessRoles 0 xs with
      | error e =>
          rw [hcheck] at h
          exact absurd rfl (h e)
      | ok actLen =>
          obtain ⟨rfl, hall⟩ := accepted_of_roles (Nat.dvd_zero 4) (by decide) hcheck
          rw [Nat.zero_add]
          exact roles_round_trip_iff hall

/-- A role with a name of three characters, a member of one and one without a character. -/
def sampleRoles : List ProcessRoleUser :=
  [⟨some ⟨[97, 98, 99], by decide⟩, [some ⟨[100], by decide⟩, some ⟨[], by decide⟩]⟩]

theorem process_round_trip_iff_roles :
    (ProcessItems.roles sampleRoles).RoundTrips ((ProcessItems.roles sampleRoles).serialize fun _ => 7) := by
  have hsize : (ProcessItems.roles sampleRoles).Fits := by
    show (sampleRoles.map ProcessRoleUser.size).sum < 2 ^ 31
    decide
  refine (process_round_trip_iff fun e => ?_).mpr hsize
  have hcheck : checkProcessRoles 0 sampleRoles = .ok 20 := by decide +kernel
  rw [ProcessItems.serialize, tcfUtilProcessRolesSerialize, hcheck]
  exact fun h => nomatch h

/-- An identity whose hashes are 65536 bytes: 2047 libraries and the program, 32 bytes each. -/
def wideIdentity : ProcessIdentityUser where
  name := some (CStr.ofBytes [97])
  hashLength := 32
  specificLibs := 1
  libNumber := 2047
  hash := some (List.replicate 65536 7)
  length_hash b hb := by
    obtain rfl := Option.some.inj hb
    rw [List.length_replicate]
    rfl

theorem encode_wideIdentity :
    pack (fun _ => 0) encodeProcessId ProcessIdentityUser.size 0 [wideIdentity] = [1, 1, 0, 32, 7, 255, 97, 0] := by
  have hlen : wideIdentity.hashLen = 0 := by decide +kernel
  have henc : encodeProcessId wideIdentity = [1, 1, 0, 32, 7, 255, 97] := by
    rw [encodeProcessId, hlen, List.take_zero]
    decide +kernel
  have hsize : wideIdentity.size = 8 := by
    rw [ProcessIdentityUser.size, hlen]
    decide +kernel
  rw [pack, pack, henc, hsize]
  rfl

/-- **The length of the hashes is 0 for the writer:** 8 bytes are written, and not one hash. -/
theorem wide_identity_lost :
    ∃ s, (ProcessItems.ids [wideIdentity]).serialize (fun _ => 0) = .ok s ∧
      s.data = [1, 1, 0, 32, 7, 255, 97, 0] ∧
      tcfUtilProcessIdsExtract s.data 1 s.length = .error (.error .parameter) ∧
      ¬ (ProcessItems.ids [wideIdentity]).RoundTrips ((ProcessItems.ids [wideIdentity]).serialize fun _ => 0) := by
  have hlen : wideIdentity.hashLen = 0 := by decide +kernel
  have hcheck : checkProcessIds [wideIdentity] = none := rfl
  have hwrite : writeProcessIds [wideIdentity] = .ok () := by
    rw [writeProcessIds, if_neg (by decide +kernel), hlen, if_neg (Nat.not_lt_zero _)]
    rfl
  have hsum : ([wideIdentity].map ProcessIdentityUser.size).sum = 8 := by
    show wideIdentity.size + 0 = 8
    rw [ProcessIdentityUser.size, hlen]
    decide +kernel
  obtain ⟨s, hs, hdata, hread⟩ : ∃ s, (ProcessItems.ids [wideIdentity]).serialize (fun _ => 0) = .ok s ∧
      s.data = [1, 1, 0, 32, 7, 255, 97, 0] ∧
      tcfUtilProcessIdsExtract s.data 1 s.length = .error (.error .parameter) := by
    rw [ProcessItems.serialize, tcfUtilProcessIdsSerialize, hcheck, hwrite, hsum, encode_wideIdentity]
    exact ⟨_, rfl, rfl, by decide +kernel⟩
  refine ⟨s, hs, hdata, hread, ?_⟩
  rintro ⟨t, ht, -, -, hback⟩
  obtain rfl : s = t := Except.ok.inj (hs.symm.trans ht)
  have hback : tcfUtilProcessIdsExtract s.data 1 s.length = .ok _ := hback
  rw [hread] at hback
  exact absurd hback (by simp)

end Tcf
end TsbAgent
