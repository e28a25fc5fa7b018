/-
# The network control policy, and both policies together

The writer and the reader of `tss-main/tcf/src/tcf_network_control.c` and its length test
`get_network_control_date_len`.  An item is 8 bytes and 16 bytes for each address range.
Nothing is narrowed here but the size of the buffer, an `int`, and the number of ranges,
which the loop of the writer takes as an `int` too.

`AccessItems` is a list for either policy: `access_round_trip_iff` says when all the walks over
a list agree.
-/

import TsbAgent.Tcf.FileProtect
import Mathlib.Algebra.Order.BigOperators.Group.List

namespace TsbAgent
namespace Tcf

open Libc Word Codec FileIntegrity Tcs Fac

/-- `struct ip_config_user`. -/
structure IpConfigUser where
  id : UInt32
  fromAddr : UInt32
  toAddr : UInt32
  status : UInt32
deriving DecidableEq

/-- `struct network_config_item_user`; the array has as many pointers as the number says. -/
structure NetworkConfigItemUser where
  portSw : UInt32
  totalNum : UInt32
  item : List IpConfigUser
  length_item : item.length = totalNum.toNat

/-- `process_num`. -/
def NetworkConfigItemUser.processNum (x : NetworkConfigItemUser) : ℤ := int32 x.totalNum.toNat

/-! ### The writer -/

/-- `buf_len` after the first loop. -/
def networkBufLen : ℤ → List NetworkConfigItemUser → ℤ
  | bufLen, [] => bufLen
  | bufLen, x :: xs => networkBufLen (alignInt (int32 (bufLen + 8 + 16 * x.totalNum.toNat))) xs

/-- The test of the second loop, from `op` on. -/
def checkNetwork (bufLen : ℤ) : ℤ → List NetworkConfigItemUser → Option Fail
  | _, [] => none
  | op, x :: xs =>
      let op := alignInt (int32 (op + 8 + 16 * x.processNum.toNat))
      if op > bufLen then some (.error .inputExceed) else checkNetwork bufLen op xs

/-- `struct ip_config`. -/
def encodeIp (x : IpConfigUser) : Bytes :=
  netBytes 4 x.id.toNat ++ (netBytes 4 x.fromAddr.toNat ++ (netBytes 4 x.toAddr.toNat ++ netBytes 4 x.status.toNat))

/-- `struct network_config_item`, with the ranges that the loop reaches. -/
def encodeNetwork (x : NetworkConfigItemUser) : Bytes :=
  netBytes 4 x.portSw.toNat ++ (netBytes 4 x.totalNum.toNat ++
    pack (fun _ => 0) encodeIp (fun _ => 16) 0 (x.item.take x.processNum.toNat))

/-- What an item takes. -/
def NetworkConfigItemUser.size (x : NetworkConfigItemUser) : ℕ := 8 + 16 * x.processNum.toNat

/-- `tcf_util_network_control_policy_serialize`. -/
def tcfUtilNetworkControlPolicySerialize (items : List NetworkConfigItemUser) : Except Fail PolicyBuffer :=
  let bufLen := networkBufLen 0 items
  if bufLen < 0 then .error (.error .nomem)
  else
    match checkNetwork bufLen 0 items with
    | some e => .error e
    | none => .ok ⟨bufLen, pack (fun _ => 0) encodeNetwork NetworkConfigItemUser.size 0 items⟩

/-! ### The readers -/

/-- What is filled in of an item. -/
structure NetworkConfigItem where
  portSw : ℕ
  totalNum : ℕ
  item : List IpConfigUser
deriving DecidableEq

/-- One range of `tcf_util_network_control_policy_extract`. -/
def readIp (_opt : ℕ) (p : Bytes) : Except Fail (IpConfigUser × ℕ) :=
  if p.length < 16 then .error .fault
  else
    .ok (⟨UInt32.ofNat (netAt p 0 4), UInt32.ofNat (netAt p 4 4), UInt32.ofNat (netAt p 8 4),
      UInt32.ofNat (netAt p 12 4)⟩, 16)

/-- One item of `tcf_util_network_control_policy_extract`. -/
def readNetwork (length : ℤ) (op : ℕ) (p : Bytes) : Except Fail (NetworkConfigItem × ℕ) :=
  if p.length < 8 then .error .fault
  else
    match unpack readIp (netAt p 4 4) 0 (p.drop 8) with
    | .error e => .error e
    | .ok item =>
        let size := align4 (8 + 16 * netAt p 4 4)
        if (op + size : ℕ) > length then .error (.error .outputExceed)
        else .ok (⟨netAt p 0 4, netAt p 4 4, item⟩, size)

/-- `tcf_util_network_control_policy_extract`. -/
def tcfUtilNetworkControlPolicyExtract (items : Bytes) (length : ℤ) (num : ℕ) :
    Except Fail (List NetworkConfigItem) :=
  unpack (readNetwork length) num 0 items

/-- The size of a `struct network_config_item` with its ranges, in 32 bits. -/
def networkItemSize (m : Mem) (p : ℕ) : UInt32 := 8 + m.ntohl (p + 4) * 16

/-- `get_network_control_date_len`. -/
def getNetworkControlDateLen (m : Mem) (items : ℕ) (itemsNum : UInt32) : UInt32 :=
  itemsSize networkItemSize m items itemsNum

/-- What is to be read back of an item. -/
def NetworkConfigItemUser.view (x : NetworkConfigItemUser) : NetworkConfigItem :=
  ⟨x.portSw.toNat, x.totalNum.toNat, x.item⟩

/-- **The walks agree:** the items are written inside the buffer, the length test comes to the
length, and the items are extracted again. -/
structure NetworkRoundTrips (items : List NetworkConfigItemUser) (u : PolicyBuffer) : Prop where
  written : (u.data.length : ℤ) = u.bufLen
  tested : ∀ m p, Holds m p u.data →
    ((getNetworkControlDateLen m p (UInt32.ofNat items.length)).toNat : ℤ) = u.bufLen
  extracted : tcfUtilNetworkControlPolicyExtract u.data u.bufLen items.length =
    .ok (items.map NetworkConfigItemUser.view)

/-- **The condition:** the size of the list is an `int`. -/
def NetworkFits (items : List NetworkConfigItemUser) : Prop :=
  (items.map fun x => 8 + 16 * x.totalNum.toNat).sum < 2 ^ 31

section Items

variable {x : NetworkConfigItemUser} {items : List NetworkConfigItemUser} {len : ℕ}

theorem length_encodeIp (x : IpConfigUser) : (encodeIp x).length = 16 := by
  simp [encodeIp]

/-- A range reads back. -/
theorem readsBack_encodeIp (x : IpConfigUser) : ReadsBack readIp len encodeIp (fun _ => 16) id x := by
  intro op pad tail _ _
  have hlength := length_encodeIp x
  have hid : x.id.toNat < 256 ^ 4 := x.id.toNat_lt
  have hfrom : x.fromAddr.toNat < 256 ^ 4 := x.fromAddr.toNat_lt
  have hto : x.toAddr.toNat < 256 ^ 4 := x.toAddr.toNat_lt
  have hstatus : x.status.toNat < 256 ^ 4 := x.status.toNat_lt
  have hshape : encodeIp x ++ (pad ++ tail) = netBytes 4 x.id.toNat ++ (netBytes 4 x.fromAddr.toNat ++
      (netBytes 4 x.toAddr.toNat ++ (netBytes 4 x.status.toNat ++ (pad ++ tail)))) := by
    simp only [encodeIp, List.append_assoc]
  have f0 : netAt (encodeIp x ++ (pad ++ tail)) 0 4 = x.id.toNat := by
    rw [hshape, netAt_head, Nat.mod_eq_of_lt hid]
  have f4 : netAt (encodeIp x ++ (pad ++ tail)) 4 4 = x.fromAddr.toNat := by
    rw [hshape, netAt_skip, netAt_head, Nat.mod_eq_of_lt hfrom]
  have f8 : netAt (encodeIp x ++ (pad ++ tail)) 8 4 = x.toAddr.toNat := by
    rw [hshape, netAt_skip, netAt_skip, netAt_head, Nat.mod_eq_of_lt hto]
  have f12 : netAt (encodeIp x ++ (pad ++ tail)) 12 4 = x.status.toNat := by
    rw [hshape, netAt_skip, netAt_skip, netAt_skip, netAt_head, Nat.mod_eq_of_lt hstatus]
  have hlong : ¬ (encodeIp x ++ (pad ++ tail)).length < 16 := by
    rw [List.length_append]
    omega
  rw [readIp, if_neg hlong, f0, f4, f8, f12]
  simp only [UInt32.ofNat_toNat]
  rfl

/-- A number of ranges that an `int` holds is written in full. -/
theorem take_item (h : x.totalNum.toNat < 2 ^ 31) :
    x.processNum.toNat = x.totalNum.toNat ∧ x.item.take x.processNum.toNat = x.item := by
  have hnum : x.processNum.toNat = x.totalNum.toNat := by
    rw [NetworkConfigItemUser.processNum, int32_eq (by omega) (by omega), Int.toNat_natCast]
  refine ⟨hnum, List.take_of_length_le ?_⟩
  rw [hnum, x.length_item]

theorem processNum_le (x : NetworkConfigItemUser) : x.processNum.toNat ≤ x.totalNum.toNat := by
  rw [NetworkConfigItemUser.processNum, int32, Int.bmod_def]
  omega

theorem length_encodeNetwork (x : NetworkConfigItemUser) : (encodeNetwork x).length = x.size := by
  have hitems := @length_pack_const _ (fun _ => 0) encodeIp 0 (x.item.take x.processNum.toNat) 16
    fun y _ => (length_encodeIp y).le
  have hlen : (x.item.take x.processNum.toNat).length = x.processNum.toNat := by
    rw [List.length_take, x.length_item]
    exact min_eq_left (processNum_le x)
  rw [encodeNetwork, NetworkConfigItemUser.size]
  simp only [List.length_append, length_netBytes, hitems, hlen]
  omega

theorem encodeNetwork_fields (x : NetworkConfigItemUser) (r : Bytes) :
    netAt (encodeNetwork x ++ r) 0 4 = x.portSw.toNat ∧ netAt (encodeNetwork x ++ r) 4 4 = x.totalNum.toNat ∧
      (encodeNetwork x ++ r).drop 8 =
        pack (fun _ => 0) encodeIp (fun _ => 16) 0 (x.item.take x.processNum.toNat) ++ r := by
  have hport : x.portSw.toNat < 256 ^ 4 := x.portSw.toNat_lt
  have htotal : x.totalNum.toNat < 256 ^ 4 := x.totalNum.toNat_lt
  have hshape : encodeNetwork x ++ r = netBytes 4 x.portSw.toNat ++ (netBytes 4 x.totalNum.toNat ++
      (pack (fun _ => 0) encodeIp (fun _ => 16) 0 (x.item.take x.processNum.toNat) ++ r)) := by
    simp only [encodeNetwork, List.append_assoc]
  rw [hshape]
  refine ⟨?_, ?_, ?_⟩
  · rw [netAt_head, Nat.mod_eq_of_lt hport]
  · rw [netAt_skip, netAt_head, Nat.mod_eq_of_lt htotal]
  · rw [← List.append_assoc]
    exact List.drop_left' (by simp)

/-- **An item is extracted again.** -/
theorem readsBack_encodeNetwork (h : x.totalNum.toNat < 2 ^ 31) :
    ReadsBack (readNetwork len) len encodeNetwork NetworkConfigItemUser.size NetworkConfigItemUser.view x := by
  intro op pad tail hop _
  obtain ⟨f0, f4, hdrop⟩ := encodeNetwork_fields x (pad ++ tail)
  obtain ⟨hnum, htake⟩ := take_item h
  have hlength := length_encodeNetwork x
  have hlong : ¬ (encodeNetwork x ++ (pad ++ tail)).length < 8 := by
    rw [List.length_append, hlength, NetworkConfigItemUser.size]
    omega
  have hitems := @unpack_pack _ _ _ (fun _ => 0) _ _ 0 0 (16 * x.item.length) _ (pad ++ tail) readIp _
    (fun y (_ : y ∈ x.item) => (length_encodeIp y).le) (fun y _ => readsBack_encodeIp y) (by simp [Nat.mul_comm])
  rw [x.length_item] at hitems
  have hsize : align4 (8 + 16 * x.totalNum.toNat) = x.size := by
    rw [NetworkConfigItemUser.size, hnum, align4, if_pos (by omega)]
  rw [readNetwork, if_neg hlong, f0, f4, hdrop, htake, hitems]
  dsimp only
  rw [hsize, if_neg (by omega), List.map_id]
  rfl

/-- What the length test takes an item for. -/
theorem toNat_networkItemSize {m : Mem} {q : ℕ} (h : 8 + 16 * x.totalNum.toNat < 2 ^ 31)
    (hm : Holds m q (encodeNetwork x)) : (networkItemSize m q).toNat = x.size := by
  obtain ⟨-, f4, -⟩ := encodeNetwork_fields x []
  rw [List.append_nil] at f4
  obtain ⟨hnum, -⟩ := @take_item x (by omega)
  have hlength := length_encodeNetwork x
  rw [NetworkConfigItemUser.size] at hlength
  have htotal : (m.ntohl (q + 4)).toNat = x.totalNum.toNat := by rw [hm.ntohl (by omega), f4]
  have h8 : (8 : UInt32).toNat = 8 := rfl
  have h16 : (16 : UInt32).toNat = 16 := rfl
  rw [networkItemSize, UInt32.toNat_add, UInt32.toNat_mul, htotal, h8, h16, NetworkConfigItemUser.size, hnum]
  omega

/-- An item that was read took all its ranges from the buffer. -/
theorem of_readNetwork {length : ℤ} {op s : ℕ} {p : Bytes} {y : NetworkConfigItem}
    (h : readNetwork length op p = .ok (y, s)) : s = 8 + 16 * y.totalNum ∧ s ≤ p.length := by
  unfold readNetwork at h
  split_ifs at h with h0
  split at h
  · exact absurd h (by simp)
  · rename_i item hitem
    dsimp only at h
    split_ifs at h with h1
    obtain ⟨rfl, rfl⟩ := Prod.mk.inj (Except.ok.inj h)
    have hsize : align4 (8 + 16 * netAt p 4 4) = 8 + 16 * netAt p 4 4 := by
      rw [align4, if_pos (by omega)]
    have hread :
        ∀ op p y s, 1 ∣ p.length → readIp op p = .ok (y, s) → s = (fun _ => 16) y ∧ 1 ∣ s ∧ s ≤ p.length := by
      intro op p y s _ hread
      unfold readIp at hread
      split_ifs at hread with hlong
      obtain ⟨-, rfl⟩ := Prod.mk.inj (Except.ok.inj hread)
      exact ⟨rfl, one_dvd _, by omega⟩
    obtain ⟨hlen, hsum⟩ := unpack_fits hread (one_dvd _) hitem
    have hconst : (item.map fun _ => 16).sum = 16 * netAt p 4 4 := by
      simp [hlen, Nat.mul_comm]
    rw [hconst, List.length_drop] at hsum
    rw [hsize]
    exact ⟨rfl, by omega⟩

end Items

section Whole

variable {items : List NetworkConfigItemUser} {bufLen : ℤ}

theorem networkBufLen_lt (h : bufLen < 2 ^ 31) : networkBufLen bufLen items < 2 ^ 31 := by
  induction items generalizing bufLen with
  | nil => exact h
  | cons x items ih => exact ih (int32_lt _)

/-- The size of the buffer is that of the items. -/
theorem networkBufLen_eq {n : ℕ} (hn : 4 ∣ n)
    (h : n + (items.map fun x => 8 + 16 * x.totalNum.toNat).sum < 2 ^ 31) :
    networkBufLen n items = (n + (items.map fun x => 8 + 16 * x.totalNum.toNat).sum : ℕ) := by
  induction items generalizing n with
  | nil => rfl
  | cons x items ih =>
      rw [List.map_cons, List.sum_cons] at h ⊢
      have hsize : (n : ℤ) + 8 + 16 * x.totalNum.toNat = (n + (8 + 16 * x.totalNum.toNat) : ℕ) := by omega
      have hint : int32 (n + (8 + 16 * x.totalNum.toNat) : ℕ) = (n + (8 + 16 * x.totalNum.toNat) : ℕ) :=
        int32_eq (by omega) (by omega)
      rw [networkBufLen.eq_def]
      dsimp only
      rw [hsize, hint, alignInt_of_dvd (by omega), hint, ih (by omega) (by omega), Nat.add_assoc]

/-- **The walks agree exactly when the size is an `int`.** -/
theorem network_agree_iff :
    NetworkRoundTrips items
        ⟨networkBufLen 0 items, pack (fun _ => 0) encodeNetwork NetworkConfigItemUser.size 0 items⟩ ↔
      NetworkFits items := by
  have henc : ∀ x ∈ items, (encodeNetwork x).length ≤ x.size := fun x _ => (length_encodeNetwork x).le
  have hlength := @length_pack _ (fun _ => 0) _ _ 0 _ henc
  constructor
  · intro h
    have hwritten := h.written
    dsimp only at hwritten
    have hlt := @networkBufLen_lt items 0 (by decide)
    have hread : ∀ op p y s, 1 ∣ p.length → readNetwork (networkBufLen 0 items) op p = .ok (y, s) →
        s = (fun y : NetworkConfigItem => 8 + 16 * y.totalNum) y ∧ 1 ∣ s ∧ s ≤ p.length := by
      intro op p y s _ hread
      obtain ⟨hs, hle⟩ := of_readNetwork hread
      exact ⟨hs, one_dvd _, hle⟩
    obtain ⟨-, hsum⟩ := unpack_fits hread (one_dvd _) h.extracted
    rw [List.map_map] at hsum
    show (items.map fun x => 8 + 16 * x.totalNum.toNat).sum < 2 ^ 31
    have hview : (items.map fun x => 8 + 16 * x.totalNum.toNat).sum ≤
        (pack (fun _ => 0) encodeNetwork NetworkConfigItemUser.size 0 items).length := hsum
    omega
  · intro hfits
    have hfits : (items.map fun x => 8 + 16 * x.totalNum.toNat).sum < 2 ^ 31 := hfits
    have heach : ∀ x ∈ items, 8 + 16 * x.totalNum.toNat < 2 ^ 31 := by
      intro x hx
      have hle := List.single_le_sum (fun _ _ => Nat.zero_le _) _
        (List.mem_map_of_mem (f := fun x => 8 + 16 * x.totalNum.toNat) hx)
      omega
    have hsizes : items.map NetworkConfigItemUser.size = items.map fun x => 8 + 16 * x.totalNum.toNat := by
      refine List.map_congr_left fun x hx => ?_
      have hx := heach x hx
      rw [NetworkConfigItemUser.size, (@take_item x (by omega)).1]
    have hbuf : networkBufLen 0 items = ((items.map NetworkConfigItemUser.size).sum : ℕ) := by
      have hbuf := @networkBufLen_eq items 0 (by decide) (by omega)
      rwa [Nat.zero_add, ← hsizes] at hbuf
    rw [← hsizes] at hfits
    have hcount : 8 * items.length ≤ (items.map NetworkConfigItemUser.size).sum :=
      mul_length_le_sum fun x _ => Nat.le_add_right _ _
    refine ⟨?_, fun m p hm => ?_, ?_⟩
    · dsimp only
      rw [hlength, hbuf]
    · have hsum := itemsSize_pack henc (fun x hx q hq => toNat_networkItemSize (heach x hx) hq) hm (by omega)
        (by omega)
      dsimp only
      rw [getNetworkControlDateLen, hsum, hbuf]
    · have hnum : ∀ x ∈ items, x.totalNum.toNat < 2 ^ 31 := by
        intro x hx
        have hx := heach x hx
        omega
      have hread := @unpack_pack _ _ _ (fun _ => 0) _ _ 0 0 _ _ [] _ _ henc
        (fun x hx => readsBack_encodeNetwork (hnum x hx)) (by rw [Nat.zero_add])
      rw [List.append_nil] at hread
      dsimp only
      rw [hbuf]
      exact hread

end Whole

/-! ### Either policy -/

/-- A list for one of the two policies. -/
inductive AccessItems
  | fileProtect (items : List FileProtectItemUser)
  | network (items : List NetworkConfigItemUser)

/-- The list in a buffer. -/
def AccessItems.serialize : AccessItems → Except Fail PolicyBuffer
  | fileProtect items => tcfUtilFileProtectPolicySerialize items
  | network items => tcfUtilNetworkControlPolicySerialize items

/-- **The walks over the list agree.** -/
def AccessItems.RoundTrips (o : Except Fail PolicyBuffer) : AccessItems → Prop
  | fileProtect items => ∃ u, o = .ok u ∧ FileProtectRoundTrips items u
  | network items => ∃ u, o = .ok u ∧ NetworkRoundTrips items u

/-- **The condition.** -/
def AccessItems.Fits : AccessItems → Prop
  | fileProtect items => FileProtectFits items
  | network items => NetworkFits items

/-- The network writer reports what it refuses. -/
theorem checkNetwork_ne_fault {bufLen op : ℤ} {items : List NetworkConfigItemUser} :
    checkNetwork bufLen op items ≠ some .fault := by
  induction items generalizing op with
  | nil => exact fun h => nomatch h
  | cons x items ih =>
      rw [checkNetwork]
      split_ifs with hend
      · exact fun h => nomatch h
      · exact ih

/-- **The walks over a list agree exactly when the list fits,** for every list that is not
refused. -/
theorem access_round_trip_iff {x : AccessItems} (h : ∀ e, x.serialize ≠ .error (.error e)) :
    x.RoundTrips x.serialize ↔ x.Fits := by
  cases x with
  | fileProtect items =>
      unfold AccessItems.serialize tcfUtilFileProtectPolicySerialize at h ⊢
      dsimp only at h ⊢
      split_ifs at h ⊢ with hneg
      · exact absurd rfl (h _)
      cases hcheck : checkFileProtect (fileProtectBufLen 0 items) 0 items with
      | none =>
          have hagree := file_protect_agree_iff (accepted_of_checkFileProtect hcheck)
          constructor
          · rintro ⟨u, hu, hround⟩
            obtain rfl := Except.ok.inj hu
            exact hagree.mp hround
          · exact fun hfits => ⟨_, rfl, hagree.mpr hfits⟩
      | some e =>
          rw [hcheck] at h
          cases e with
          | error e => exact absurd rfl (h e)
          | fault =>
              refine iff_of_false (fun hr => ?_) (fun hr => ?_)
              · obtain ⟨u, hu, -⟩ := hr
                exact absurd hu (by simp)
              · obtain ⟨y, hy, hlong⟩ := long_of_checkFileProtect hcheck
                exact hlong (hr.each y hy)
  | network items =>
      unfold AccessItems.serialize tcfUtilNetworkControlPolicySerialize at h ⊢
      dsimp only at h ⊢
      split_ifs at h ⊢ with hneg
      · exact absurd rfl (h _)
      cases hcheck : checkNetwork (networkBufLen 0 items) 0 items with
      | none =>
          constructor
          · rintro ⟨u, hu, hround⟩
            obtain rfl := Except.ok.inj hu
            exact network_agree_iff.mp hround
          · exact fun hfits => ⟨_, rfl, network_agree_iff.mpr hfits⟩
      | some e =>
          rw [hcheck] at h
          cases e with
          | error e => exact absurd rfl (h e)
          | fault => exact absurd hcheck checkNetwork_ne_fault

/-- An item with `n` privileged processes. -/
def protectedBy (n : ℕ) : FileProtectItemUser where
  type := 1
  measureFlags := 2
  path := some ⟨[47, 97], by decide⟩
  privilegedProcessNum := n
  privilegedProcesses := List.replicate n (some ⟨0, some ⟨[47, 98], by decide⟩, Digest.ones⟩)
  length_processes := by rw [List.length_replicate, Int.toNat_natCast]

theorem checkFileProtect_protectedBy {n : ℕ} {bufLen : ℤ}
    (h : ¬ alignInt (int32 (0 + 260 + 292 * n)) > bufLen) : checkFileProtect bufLen 0 [protectedBy n] = none := by
  have hprocesses : (protectedBy n).privilegedProcesses.findSome? checkPrivileged = none := by
    refine List.findSome?_eq_none_iff.mpr fun p hp => ?_
    rw [(List.mem_replicate.mp hp).2]
    decide
  have hlen : (protectedBy n).privilegedProcesses.length = n := List.length_replicate
  have hpath : checkPath (protectedBy n).path = none := by
    show checkPath (some ⟨[47, 97], by decide⟩) = none
    decide
  rw [checkFileProtect, hpath, hprocesses, hlen]
  dsimp only
  rw [if_neg h]
  rfl

theorem access_round_trip_iff_one :
    (AccessItems.fileProtect [protectedBy 1]).RoundTrips (AccessItems.fileProtect [protectedBy 1]).serialize := by
  have hcheck : checkFileProtect (fileProtectBufLen 0 [protectedBy 1]) 0 [protectedBy 1] = none :=
    checkFileProtect_protectedBy (by decide +kernel)
  refine (access_round_trip_iff fun e => ?_).mpr ⟨?_, by decide⟩
  · rw [AccessItems.serialize, tcfUtilFileProtectPolicySerialize, if_neg (by decide +kernel), hcheck]
    exact fun h => nomatch h
  · intro x hx
    obtain rfl := List.mem_singleton.mp hx
    refine ⟨by decide, by decide, by decide, by decide, ?_, fun process hp => ?_⟩
    · show 2 < 2 ^ 31
      decide
    · obtain rfl := Option.some.inj (List.mem_replicate.mp hp).2
      show 2 < 2 ^ 31
      decide

/-- **65536 privileged processes are written, and none is counted.** -/
theorem count_wraps :
    (AccessItems.fileProtect [protectedBy 65536]).serialize =
        .ok ⟨19136772, pack (fun _ => 0) encodeFileProtect FileProtectItemUser.size 0 [protectedBy 65536]⟩ ∧
      ¬ (AccessItems.fileProtect [protectedBy 65536]).RoundTrips
        (AccessItems.fileProtect [protectedBy 65536]).serialize := by
  have hbuf : fileProtectBufLen 0 [protectedBy 65536] = 19136772 := by decide +kernel
  have hcheck : checkFileProtect 19136772 0 [protectedBy 65536] = none :=
    checkFileProtect_protectedBy (by decide +kernel)
  have hok : (AccessItems.fileProtect [protectedBy 65536]).serialize =
      .ok ⟨19136772, pack (fun _ => 0) encodeFileProtect FileProtectItemUser.size 0 [protectedBy 65536]⟩ := by
    rw [AccessItems.serialize, tcfUtilFileProtectPolicySerialize, hbuf, if_neg (by decide), hcheck]
  refine ⟨hok, ?_⟩
  rintro ⟨u, hu, hround⟩
  rw [hok] at hu
  obtain rfl := Except.ok.inj hu
  rw [← hbuf] at hround
  have hfits := (file_protect_agree_iff (accepted_of_checkFileProtect hcheck)).mp hround
  have hlt : (65536 : ℤ) < 2 ^ 16 := (hfits.each _ List.mem_cons_self).num_lt
  exact absurd hlt (by decide)

end Tcf
end TsbAgent
