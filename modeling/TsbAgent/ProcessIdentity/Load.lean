/-
# The identities and roles that the kernel loads

`parse_policy_process_ids` and `parse_policy_process_roles` of
`tsb/kernel/dmeasure/process_identity/process_identity.c`: what `TsbAgent.Tcf.Process` has written is
read again, by a loop that knows the length of the buffer and no number of items.

| item | length in the kernel |
| --- | --- |
| identity | 6 bytes, the name and **`be_hash_length * (be_lib_number + 1)` in 32 bits**, aligned |
| role | 12 bytes, the name and `be_members_length`, aligned |

An item is put in front of the list, so the list is stored backwards; a hash that is repeated is only
logged.  Every role list that has been written into its buffer and whose length is an `int` is loaded
(`loads_roles_iff`).  The length of the hashes has 16 bits in the writer, so an identity list is loaded
exactly when in addition no number is cut (`loads_ids_iff`): with one identity of 65536 bytes of hashes
the kernel takes the following items for its hashes.

Memory that the buffer does not have reads as whatever is behind it.  All allocations are granted that
an `int` can ask for.
-/

import TsbAgent.ProcessIdentity.Verify
import TsbAgent.Lib.Drain
import TsbAgent.Tcf.Process

namespace TsbAgent
namespace ProcessIdentity

open Libc Word Drain FileIntegrity

/-! ### The two loops -/

/-- `item_len`, an `int`, after `BYTE4_ALIGNMENT`; a negative one would take the pointer back. -/
def itemLen (n : ℕ) : Option ℕ :=
  if 0 < Tcf.alignInt (int32 n) then some (Tcf.alignInt (int32 n)).toNat else none

/-- `kzalloc(n + 1)` and `n` bytes copied from `off` on. -/
def nameAt (m : Bytes) (off n : ℕ) : CStr := CStr.ofBytes ((m.drop off).takeD n 0)

theorem strlen_nameAt_le (m : Bytes) (off n : ℕ) : (nameAt m off n).strlen ≤ n := by
  have hle : (cstr ((m.drop off).takeD n 0)).length ≤ _ := (List.takeWhile_sublist _).length_le
  rw [List.takeD_length] at hle
  exact hle

/-- `hash_len` before it is an `int`. -/
def hashLenAt (m : Bytes) : ℕ := netAt m 2 2 * (netAt m 4 2 + 1)

/-- The identity at `p_item`, converted. -/
def identityAt (m : Bytes) : ProcessIdentityUser where
  name := nameAt m (6 + hashLenAt m) (m.getD 0 0).toNat
  specificLibs := (m.getD 1 0).toNat
  hashLength := netAt m 2 2
  libNumber := netAt m 4 2
  hash := (m.drop 6).takeD (hashLenAt m) 0
  length_hash := List.takeD_length _ _ _
  strlen_name := (strlen_nameAt_le _ _ _).trans (Nat.le_of_lt_succ (m.getD 0 0).toNat_lt)

/-- One turn of `parse_policy_process_ids`; no memory is given for a negative length. -/
def readIdentity (m : Bytes) : Option (ProcessIdentityUser × ℕ) :=
  if 2 ^ 31 ≤ hashLenAt m then none
  else (itemLen (6 + (m.getD 0 0).toNat + hashLenAt m)).map fun n => (identityAt m, n)

/-- `parse_policy_process_ids` for `g_list_policy_process_identity`: the list, and the length that is
left. -/
def parsePolicyProcessIds (l : List ProcessIdentityUser) (p : Bytes) (length : ℤ) :
    Option (List ProcessIdentityUser × ℤ) :=
  (drain readIdentity length.toNat p length).map fun o => (o.1.reverse ++ l, o.2)

/-- The loop over `be_members_number` members. -/
def readMembers : ℕ → Bytes → List CStr
  | 0, _ => []
  | n + 1, m => nameAt m 1 (m.getD 0 0).toNat :: readMembers n (m.drop (1 + (m.getD 0 0).toNat))

/-- The role at `p_item`, converted. -/
def roleAt (m : Bytes) : ProcessRoleUser where
  name := nameAt m 12 (netAt m 0 4)
  members := readMembers (netAt m 8 4) (m.drop (12 + netAt m 0 4))

/-- One turn of `parse_policy_process_roles`. -/
def readRole (m : Bytes) : Option (ProcessRoleUser × ℕ) :=
  (itemLen (12 + netAt m 0 4 + netAt m 4 4)).map fun n => (roleAt m, n)

/-- `parse_policy_process_roles` for `g_list_policy_process_role`. -/
def parsePolicyProcessRoles (l : List ProcessRoleUser) (p : Bytes) (length : ℤ) :
    Option (List ProcessRoleUser × ℤ) :=
  (drain readRole length.toNat p length).map fun o => (o.1.reverse ++ l, o.2)

/-! ### What is to be stored -/

/-- The identity `y` of the kernel is the identity `x` that was encoded. -/
structure IdStored (y : ProcessIdentityUser) (x : Tcf.ProcessIdentityUser) : Prop where
  name : y.name = x.name.getD CStr.empty
  specificLibs : (y.specificLibs : ℤ) = x.specificLibs
  hashLength : y.hashLength = x.hashLength.toNat
  libNumber : (y.libNumber : ℤ) = x.libNumber
  hash : y.hash = x.hash.getD []

/-- The role of the kernel for a role that was encoded. -/
def roleStored (x : Tcf.ProcessRoleUser) : ProcessRoleUser :=
  ⟨x.name.getD CStr.empty, x.members.map fun m => m.getD CStr.empty⟩

/-- Both lists of the kernel. -/
structure Lists where
  ids : List ProcessIdentityUser
  roles : List ProcessRoleUser

/-- **The list is loaded:** it was written into its buffer, the kernel consumes the buffer, whatever is
`beyond` it, and puts exactly the encoded items in front of its list. -/
def Loads (k : Lists) (beyond : Bytes) (s : Tcf.Serialized) : Tcf.ProcessItems → Prop
  | .ids xs => s.data.length ≤ s.alloc ∧ ∃ ys, List.Forall₂ IdStored ys xs ∧
      parsePolicyProcessIds k.ids (s.data ++ beyond) s.length = some (ys.reverse ++ k.ids, 0)
  | .roles xs => s.data.length ≤ s.alloc ∧
      parsePolicyProcessRoles k.roles (s.data ++ beyond) s.length =
        some ((xs.map roleStored).reverse ++ k.roles, 0)

/-! ### One item -/

theorem itemLen_eq {n : ℕ} (hpos : 0 < n) (h : align4 n < 2 ^ 31) : itemLen n = some (align4 n) := by
  have hle := le_align4 n
  have halign : Tcf.alignInt (int32 n) = align4 n := by
    rw [int32_eq (by omega) (by omega), Tcf.alignInt_eq h]
  rw [itemLen, halign, if_pos (by omega), Int.toNat_natCast]

/-- A length that is not much more than an `int` is not taken for another one. -/
theorem eq_of_itemLen {n k : ℕ} (hn : n < 2 ^ 31 + 2 ^ 30) (h : itemLen n = some k) : k = align4 n := by
  rw [itemLen] at h
  split_ifs at h with hpos
  obtain rfl := Option.some.inj h
  have hle := le_align4 n
  by_cases hlt : align4 n < 2 ^ 31
  · rw [int32_eq (by omega) (by omega), Tcf.alignInt_eq hlt, Int.toNat_natCast]
  · refine absurd hpos ?_
    have hup := align4_le n
    unfold Tcf.alignInt
    by_cases hint : n < 2 ^ 31
    · -- only the alignment passes the largest `int`
      have hmod : (n : ℤ).tmod 4 = (n % 4 : ℕ) := Int.tmod_eq_emod_of_nonneg (by omega)
      have hend : ((n : ℤ) + 4 - (n % 4 : ℕ)) = 2 ^ 31 := by
        unfold align4 at hlt hup
        split_ifs at hlt hup <;> omega
      rw [int32_eq (show 0 ≤ (n : ℤ) by omega) (by omega), hmod, if_neg (by omega), hend]
      decide
    · have hneg : int32 n = n - 2 ^ 32 := by
        rw [int32, Int.bmod_def]
        omega
      have hmod : ((n - 2 ^ 32 : ℤ).tmod 4).natAbs < 4 := by
        rw [Int.natAbs_tmod]
        exact Nat.mod_lt _ (by decide)
      rw [hneg, int32, Int.bmod_def]
      split_ifs <;> omega

theorem nameAt_append {a r : Bytes} {off n : ℕ} {s : CStr} (ha : a.length = off) (hs : s.strlen = n) :
    nameAt (a ++ (s.bytes ++ r)) off n = s := by
  apply CStr.ext
  show cstr _ = s.bytes
  rw [List.drop_left' ha, List.takeD_left' hs, cstr_of_nulFree s.nulFree]

/-- Every element on the right has one on the left. -/
theorem exists_left_of_forall₂ {α β : Type*} {R : α → β → Prop} {l : List α} {u : List β}
    (h : List.Forall₂ R l u) : ∀ b ∈ u, ∃ a ∈ l, R a b := by
  induction h with
  | nil => simp
  | cons hab _ ih =>
      intro b hb
      rcases List.mem_cons.mp hb with rfl | hb
      · exact ⟨_, List.mem_cons_self, hab⟩
      · obtain ⟨a, ha, hR⟩ := ih b hb
        exact ⟨a, List.mem_cons_of_mem _ ha, hR⟩

section Ids

variable {x : Tcf.ProcessIdentityUser} {xs : List Tcf.ProcessIdentityUser} {r : Bytes}

theorem IdStored.unique {y z : ProcessIdentityUser} (hy : IdStored y x) (hz : IdStored z x) : y = z := by
  obtain ⟨y1, y2, y3, y4, y5, _, _⟩ := y
  obtain ⟨z1, z2, z3, z4, z5, _, _⟩ := z
  obtain ⟨hy1, hy2, hy3, hy4, hy5⟩ := hy
  obtain ⟨hz1, hz2, hz3, hz4, hz5⟩ := hz
  dsimp only at *
  obtain rfl := hy1.trans hz1.symm
  obtain rfl := hy3.trans hz3.symm
  obtain rfl := hy5.trans hz5.symm
  obtain rfl : y2 = z2 := by omega
  obtain rfl : y4 = z4 := by omega
  rfl

/-- The kernel reads the numbers that fit, and so the length of the hashes. -/
theorem fields_of_fits (ha : Tcf.IdAccepted x) (h : x.Fits) :
    ((Tcf.encodeProcessId x ++ r).getD 0 0).toNat = x.nameLen ∧
      (((Tcf.encodeProcessId x ++ r).getD 1 0).toNat : ℤ) = x.specificLibs ∧
      netAt (Tcf.encodeProcessId x ++ r) 2 2 = x.hashLength.toNat ∧
      (netAt (Tcf.encodeProcessId x ++ r) 4 2 : ℤ) = x.libNumber ∧
      hashLenAt (Tcf.encodeProcessId x ++ r) = x.hashLen := by
  obtain ⟨f0, f1, f2, f4⟩ := @Tcf.IdAccepted.fields _ r ha
  obtain ⟨hprod, -, -, hhl⟩ := h.hashLen ha
  have hlibs := ha.specificLibs
  have hlibs' := h.specificLibs
  have hlib := h.libNumber
  have hlib' := h.libNumber_lt
  have hmod : x.hashLength.toNat % 2 ^ 16 = x.hashLength.toNat := Nat.mod_eq_of_lt hhl
  have hmod' : x.libNumber % 2 ^ 16 = x.libNumber := Int.emod_eq_of_lt hlib hlib'
  rw [hmod] at f2
  rw [hmod'] at f4
  refine ⟨f0, by omega, f2, by omega, ?_⟩
  rw [hashLenAt, f2, f4, Nat.add_comm, hprod]

/-- **An identity whose numbers fit is stored.** -/
theorem idStored_identityAt (ha : Tcf.IdAccepted x) (h : x.Fits) :
    IdStored (identityAt (Tcf.encodeProcessId x ++ r)) x := by
  obtain ⟨f0, f1, f2, f4, fh⟩ := @fields_of_fits x r ha h
  obtain ⟨-, hhash, -, -⟩ := h.hashLen ha
  have htake : (x.hash.getD []).take x.hashLen = x.hash.getD [] := List.take_of_length_le hhash.le
  have hshape : Tcf.encodeProcessId x ++ r =
      ([UInt8.ofNat x.nameLen, UInt8.ofNat (x.specificLibs % 2 ^ 8).toNat] ++ netBytes 2 x.hashLength.toNat ++
        netBytes 2 (x.libNumber % 2 ^ 16).toNat) ++ (x.hash.getD [] ++ ((x.name.getD CStr.empty).bytes ++ r)) := by
    simp only [Tcf.encodeProcessId, htake, List.append_assoc]
  refine ⟨?_, f1, f2, f4, ?_⟩
  · show nameAt _ (6 + hashLenAt _) _ = _
    rw [f0, fh, hshape, ← List.append_assoc]
    refine nameAt_append ?_ rfl
    simp only [List.length_append, List.length_cons, List.length_nil, length_netBytes, hhash]
  · show ((Tcf.encodeProcessId x ++ r).drop 6).takeD (hashLenAt _) 0 = _
    rw [fh, hshape, List.drop_left' (by simp), List.takeD_left' hhash]

theorem readsSlot_id (ha : Tcf.IdAccepted x) (h : x.Fits) :
    ReadsSlot readIdentity Tcf.encodeProcessId Tcf.ProcessIdentityUser.size
      (fun x => identityAt (Tcf.encodeProcessId x)) x := by
  intro pad tail _
  obtain ⟨f0, -, -, -, fh⟩ := @fields_of_fits x (pad ++ tail) ha h
  obtain ⟨-, -, hlt, -⟩ := h.hashLen ha
  have hname := ha.nameLen
  have hsize := align4_le (6 + x.nameLen + x.hashLen)
  have hid : identityAt (Tcf.encodeProcessId x ++ (pad ++ tail)) = identityAt (Tcf.encodeProcessId x) := by
    refine (idStored_identityAt ha h).unique ?_
    have hself := @idStored_identityAt x [] ha h
    rwa [List.append_nil] at hself
  rw [readIdentity, fh, f0, if_neg (by omega), itemLen_eq (by omega) (by omega), hid]
  rfl

/-- What the kernel steps over. -/
def ProcessIdentityUser.stride (y : ProcessIdentityUser) : ℕ := align4 (6 + y.name.strlen + y.hash.length)

theorem of_readIdentity {m : Bytes} {y : ProcessIdentityUser} {n : ℕ} (h : readIdentity m = some (y, n)) :
    y.stride ≤ n ∧ y.libNumber < 2 ^ 16 := by
  rw [readIdentity] at h
  split_ifs at h with hlen
  obtain ⟨k, hk, h⟩ := Option.map_eq_some_iff.mp h
  obtain ⟨rfl, rfl⟩ := Prod.mk.inj h
  have hbyte : (m.getD 0 0).toNat < 256 := (m.getD 0 0).toNat_lt
  have hlib : netAt m 4 2 < 256 ^ 2 := netAt_lt m 4 2
  have hname := strlen_nameAt_le m (6 + hashLenAt m) (m.getD 0 0).toNat
  have hhash : (identityAt m).hash.length = hashLenAt m := List.takeD_length _ _ _
  obtain rfl := eq_of_itemLen (by omega) hk
  refine ⟨?_, hlib⟩
  rw [ProcessIdentityUser.stride, hhash]
  refine Tcf.align4_le_of_dvd (Tcf.dvd_align4 _) ?_
  have hle := le_align4 (6 + (m.getD 0 0).toNat + hashLenAt m)
  have hstrlen : (identityAt m).name.strlen ≤ (m.getD 0 0).toNat := hname
  omega

/-- The kernel steps over all the hashes that it stores. -/
theorem IdStored.stride {y : ProcessIdentityUser} (h : IdStored y x) : y.stride = x.view.stride := by
  have hlib : x.libNumber.toNat = y.libNumber := by
    rw [← h.libNumber]
    rfl
  rw [ProcessIdentityUser.stride, Tcf.ProcessIdentity.stride, y.length_hash, h.hashLength, h.name]
  show align4 _ = align4 (x.hashLength.toNat * (1 + x.libNumber.toNat) + x.nameLen + 6)
  rw [hlib]
  congr 1
  have hname : x.nameLen = (x.name.getD CStr.empty).strlen := rfl
  rw [Nat.add_comm 1 y.libNumber]
  omega

/-- Numbers that were stored are not negative. -/
theorem numbers_of_stored {ys : List ProcessIdentityUser} (h : List.Forall₂ IdStored ys xs)
    (hlib : ∀ y ∈ ys, y.libNumber < 2 ^ 16) :
    ∀ x ∈ xs, 0 ≤ x.specificLibs ∧ 0 ≤ x.libNumber ∧ x.libNumber < 2 ^ 16 := by
  intro x hx
  obtain ⟨y, hy, hstored⟩ := exists_left_of_forall₂ h x hx
  have hlt := hlib y hy
  have hnum := hstored.libNumber
  have hspec := hstored.specificLibs
  omega

theorem size_pos (x : Tcf.ProcessIdentityUser) : 0 < x.size := by
  have hle := le_align4 (6 + x.nameLen + x.hashLen)
  rw [Tcf.ProcessIdentityUser.size]
  omega

theorem int32_mod_le (n : ℕ) : int32 (n % 2 ^ 32 : ℕ) ≤ n := by
  rw [int32, Int.bmod_def]
  omega

/-- **An identity list is loaded exactly when it fits.** -/
theorem loads_ids_iff {fill : ℕ → UInt8} {k : Lists} {beyond : Bytes} (hall : ∀ x ∈ xs, Tcf.IdAccepted x) :
    Loads k beyond
        { alloc := (xs.map Tcf.ProcessIdentityUser.size).sum % 2 ^ 32
          length := int32 ((xs.map Tcf.ProcessIdentityUser.size).sum % 2 ^ 32 : ℕ)
          data := Codec.pack fill Tcf.encodeProcessId Tcf.ProcessIdentityUser.size 0 xs } (.ids xs) ↔
      (Tcf.ProcessItems.ids xs).Fits := by
  have hlength := @Codec.length_pack _ fill _ _ 0 _ fun x hx => (hall x hx).fits
  constructor
  · rintro ⟨-, ys, hstored, hparse⟩
    obtain ⟨⟨zs, left⟩, hdrain, hzs⟩ := Option.map_eq_some_iff.mp hparse
    obtain ⟨hrev, rfl⟩ := Prod.mk.inj hzs
    obtain rfl : zs = ys := List.reverse_injective (List.append_cancel_right hrev)
    have hlib := drain_forall (fun m y n h => (of_readIdentity h).2) hdrain
    have hsum := drain_consumes (fun m y n h => (of_readIdentity h).1) hdrain
    have hstride : zs.map ProcessIdentityUser.stride = xs.map fun x => x.view.stride := by
      refine List.forall₂_eq_eq_eq ▸ ?_
      rw [List.forall₂_map_left_iff, List.forall₂_map_right_iff]
      exact hstored.imp fun y x h => h.stride
    have hback := numbers_of_stored hstored hlib
    have hle := int32_mod_le (xs.map Tcf.ProcessIdentityUser.size).sum
    rw [hstride, Int.zero_add] at hsum
    dsimp only at hsum
    have hsize := Tcf.eq_of_sum_le (fun x hx => (Tcf.size_le_stride (hback x hx).2.1).1) (by omega)
    have hlt := Tcf.int32_lt ((xs.map Tcf.ProcessIdentityUser.size).sum % 2 ^ 32 : ℕ)
    have hge : (xs.map Tcf.ProcessIdentityUser.size).sum ≤ (xs.map fun x => x.view.stride).sum :=
      List.sum_le_sum fun x hx => (Tcf.size_le_stride (hback x hx).2.1).1
    refine ⟨fun x hx => ⟨(hback x hx).1, (hback x hx).2.1, (hback x hx).2.2, ?_⟩, by omega⟩
    exact (Tcf.size_le_stride (hback x hx).2.1).2 (hsize x hx)
  · rintro ⟨hfit, hsum⟩
    have hmod : (xs.map Tcf.ProcessIdentityUser.size).sum % 2 ^ 32 = (xs.map Tcf.ProcessIdentityUser.size).sum :=
      Nat.mod_eq_of_lt (by omega)
    have hstored : List.Forall₂ IdStored (xs.map fun x => identityAt (Tcf.encodeProcessId x)) xs := by
      rw [List.forall₂_map_left_iff, List.forall₂_same]
      intro x hx
      have hself := @idStored_identityAt x [] (hall x hx) (hfit x hx)
      rwa [List.append_nil] at hself
    refine ⟨?_, _, hstored, ?_⟩
    · dsimp only
      rw [hlength, hmod]
    · dsimp only
      rw [hmod, int32_eq (by omega) (by omega), parsePolicyProcessIds, Int.toNat_natCast,
        drain_pack_all (fun x hx => size_pos x) (fun x hx => (hall x hx).fits)
          (fun x hx => readsSlot_id (hall x hx) (hfit x hx)) le_rfl]
      rfl

end Ids

section Roles

variable {x : Tcf.ProcessRoleUser} {xs : List Tcf.ProcessRoleUser} {r : Bytes}

/-- The members are read again. -/
theorem readMembers_pack {fill : ℕ → UInt8} {pos : ℕ} {ms : List (Option CStr)}
    (h : ∀ m ∈ ms, (m.getD CStr.empty).strlen ≤ 64) :
    readMembers ms.length (Codec.pack fill Tcf.encodeMember Tcf.memberSize pos ms ++ r) =
      ms.map fun m => m.getD CStr.empty := by
  induction ms generalizing pos with
  | nil => rfl
  | cons m ms ih =>
      obtain ⟨hm, hms⟩ := List.forall_mem_cons.mp h
      have hlength := Tcf.length_encodeMember m
      have hpack : Codec.pack fill Tcf.encodeMember Tcf.memberSize pos (m :: ms) ++ r =
          Tcf.encodeMember m ++ (Codec.pack fill Tcf.encodeMember Tcf.memberSize (pos + Tcf.memberSize m) ms ++ r) := by
        rw [Codec.pack, hlength, Nat.sub_self, List.append_assoc]
        rfl
      have hhead : ((Tcf.encodeMember m ++ (Codec.pack fill Tcf.encodeMember Tcf.memberSize
          (pos + Tcf.memberSize m) ms ++ r)).getD 0 0).toNat = (m.getD CStr.empty).strlen := by
        show (UInt8.ofNat (m.getD CStr.empty).strlen).toNat = _
        rw [UInt8.toNat_ofNat']
        omega
      rw [hpack, List.length_cons, readMembers, hhead, List.map_cons]
      congr 1
      swap
      · rw [← Tcf.memberSize, List.drop_left' hlength, ih hms]
      exact @nameAt_append [UInt8.ofNat (m.getD CStr.empty).strlen] _ 1 _ (m.getD CStr.empty) rfl rfl

theorem role_size_pos (x : Tcf.ProcessRoleUser) : 0 < x.size := by
  have hle := Tcf.encodeProcessRole_fits x
  rw [Tcf.length_encodeProcessRole] at hle
  omega

/-- **A role that is not larger than an `int` is stored.** -/
theorem readsSlot_role (h : Tcf.RoleAccepted x) (hsize : x.size < 2 ^ 31) :
    ReadsSlot readRole Tcf.encodeProcessRole Tcf.ProcessRoleUser.size roleStored x := by
  intro pad tail _
  have hname : x.namelen = (x.name.getD CStr.empty).strlen := rfl
  obtain ⟨f0, f4, f8, f12⟩ := @Tcf.RoleAccepted.fields x (pad ++ tail) h (by omega)
  have hlen : align4 (12 + x.namelen + x.opMember) = x.size := by
    rw [Tcf.ProcessRoleUser.size]
    congr 1
    omega
  have hrole : roleAt (Tcf.encodeProcessRole x ++ (pad ++ tail)) = roleStored x := by
    have hn : nameAt (Tcf.encodeProcessRole x ++ (pad ++ tail)) 12 x.namelen = x.name.getD CStr.empty := by
      rw [nameAt, f12]
      exact @nameAt_append [] _ 0 _ _ rfl rfl
    rw [roleAt, f0, f8, hn, ← List.drop_drop, f12, List.drop_left' hname.symm, readMembers_pack h.members]
    rfl
  rw [readRole, f0, f4, itemLen_eq (by omega) (by omega), hlen, hrole]
  rfl

/-- **A role list is loaded exactly when its length is an `int`.** -/
theorem loads_roles_iff {fill : ℕ → UInt8} {k : Lists} {beyond : Bytes} (hall : ∀ x ∈ xs, Tcf.RoleAccepted x) :
    Loads k beyond
        { alloc := (xs.map Tcf.ProcessRoleUser.size).sum % 2 ^ 32
          length := int32 ((xs.map Tcf.ProcessRoleUser.size).sum % 2 ^ 32 : ℕ)
          data := Codec.pack fill Tcf.encodeProcessRole Tcf.ProcessRoleUser.size 0 xs } (.roles xs) ↔
      (Tcf.ProcessItems.roles xs).Fits := by
  have hlength := @Codec.length_pack _ fill _ _ 0 _ fun x (_ : x ∈ xs) => Tcf.encodeProcessRole_fits x
  constructor
  · rintro ⟨hinside, hparse⟩
    show (xs.map Tcf.ProcessRoleUser.size).sum < 2 ^ 31
    obtain ⟨⟨ys, left⟩, hdrain, ho⟩ := Option.map_eq_some_iff.mp hparse
    obtain ⟨-, rfl⟩ := Prod.mk.inj ho
    dsimp only at hinside hdrain
    rw [hlength] at hinside
    by_contra hsum
    -- the length is negative, so the loop does not run
    have hneg : int32 ((xs.map Tcf.ProcessRoleUser.size).sum % 2 ^ 32 : ℕ) < 0 := by
      rw [int32, Int.bmod_def]
      omega
    rw [drain_of_nonpos hneg.le] at hdrain
    exact hneg.ne (Prod.mk.inj (Option.some.inj hdrain)).2
  · intro hsum
    have hsum : (xs.map Tcf.ProcessRoleUser.size).sum < 2 ^ 31 := hsum
    have hmod : (xs.map Tcf.ProcessRoleUser.size).sum % 2 ^ 32 = (xs.map Tcf.ProcessRoleUser.size).sum :=
      Nat.mod_eq_of_lt (by omega)
    have hsize : ∀ x ∈ xs, x.size < 2 ^ 31 := fun x hx =>
      (List.single_le_sum (fun _ _ => Nat.zero_le _) _ (List.mem_map_of_mem hx)).trans_lt hsum
    refine ⟨?_, ?_⟩
    · dsimp only
      rw [hlength, hmod]
    · dsimp only
      rw [hmod, int32_eq (by omega) (by omega), parsePolicyProcessRoles, Int.toNat_natCast,
        drain_pack_all (fun x _ => role_size_pos x) (fun x _ => Tcf.encodeProcessRole_fits x)
          (fun x hx => readsSlot_role (hall x hx) (hsize x hx)) le_rfl]
      rfl

end Roles

/-- **Either list is loaded exactly when it fits,** whenever the writer has succeeded. -/
theorem loads_iff {x : Tcf.ProcessItems} {fill : ℕ → UInt8} {k : Lists} {beyond : Bytes} {s : Tcf.Serialized}
    (h : x.serialize fill = .ok s) : Loads k beyond s x ↔ x.Fits := by
  cases x with
  | ids xs =>
      unfold Tcf.ProcessItems.serialize Tcf.tcfUtilProcessIdsSerialize at h
      dsimp only at h
      split at h
      · cases h
      · rename_i hcheck
        split at h
        · cases h
        · rename_i hwrite
          obtain rfl := Except.ok.inj h
          exact loads_ids_iff (Tcf.accepted_of_ids hcheck hwrite)
  | roles xs =>
      unfold Tcf.ProcessItems.serialize Tcf.tcfUtilProcessRolesSerialize at h
      dsimp only at h
      split at h
      · cases h
      · rename_i actLen hcheck
        obtain rfl := Except.ok.inj h
        obtain ⟨rfl, hall⟩ := Tcf.accepted_of_roles (Nat.dvd_zero 4) (by decide) hcheck
        rw [Nat.zero_add]
        exact loads_roles_iff hall

end ProcessIdentity
end TsbAgent
