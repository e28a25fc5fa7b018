/-
# Policies from user space in the kernel

What the encoders of the TCF write, the kernel parses with code of its own: the identities and roles
(`TsbAgent.ProcessIdentity.Load`), and the items of the process measurement that are added or deleted.

| list | stored as it was encoded, or deleted, |
| --- | --- |
| identities | when no number is cut and the size is an `int` |
| roles | when the size is an `int` |
| added items | when the intervals are below `2 ^ 31`, since the kernel keeps an `int` |
| deleted items | when no object id is stored more often than it is listed, nor longer than 512 bytes |

The last row is about `parse_del_policy_dmeasure_process`: it leaves its loop over the list at the first
policy with the object id, while `parse_add_policy_dmeasure_process` never asks whether the id is
there already.  So two additions of an item need two deletions (`encoded_policy_iff`).
-/

import TsbAgent.Dmeasure.Policy
import TsbAgent.ProcessIdentity.Load
import TsbAgent.Tcf.Dmeasure
import Mathlib.Data.List.Count

namespace TsbAgent
namespace Dmeasure

open Libc Word Run Drain FileIntegrity

/-! ### The items that are read -/

/-- The item that the kernel finds for an item that was encoded. -/
def itemOf (x : Tcf.DmeasureProcessItemUser) : DmeasureProcessItem where
  objectIdType := .ofByte x.objectIdType
  subProcessMode := x.subProcessMode.toNat
  oldProcessMode := x.oldProcessMode.toNat
  shareLibMode := x.shareLibMode.toNat
  beMeasureInterval := x.measureInterval.toNat
  beObjectIdLength := x.objectIdLength.toNat
  objectId := x.objectId
  length_objectId := x.length_objectId

theorem readsSlot_item (x : Tcf.DmeasureProcessItemUser) :
    ReadsSlot readItem Tcf.encodeDmeasureProcess Tcf.DmeasureProcessItemUser.itemSize itemOf x := by
  intro pad tail _
  have hshape : Tcf.encodeDmeasureProcess x ++ (pad ++ tail) =
      [x.objectIdType, x.subProcessMode, x.oldProcessMode, x.shareLibMode] ++
        (netBytes 4 x.measureInterval.toNat ++ (netBytes 2 x.objectIdLength.toNat ++
          (x.objectId ++ (pad ++ tail)))) := by
    simp only [Tcf.encodeDmeasureProcess, List.append_assoc]
  have hlen : netAt (Tcf.encodeDmeasureProcess x ++ (pad ++ tail)) 8 2 = x.objectIdLength.toNat := by
    have hlt : x.objectIdLength.toNat < 256 ^ 2 := x.objectIdLength.toNat_lt
    rw [hshape, netAt, fieldAt_skip (k := 4) rfl, ← netAt, netAt_skip, netAt_head, Nat.mod_eq_of_lt hlt]
  have hinterval : netAt (Tcf.encodeDmeasureProcess x ++ (pad ++ tail)) 4 4 = x.measureInterval.toNat := by
    have hlt : x.measureInterval.toNat < 256 ^ 4 := x.measureInterval.toNat_lt
    rw [hshape, netAt, fieldAt_skip (k := 4) rfl, ← netAt, netAt_head, Nat.mod_eq_of_lt hlt]
  have hid :
      ((Tcf.encodeDmeasureProcess x ++ (pad ++ tail)).drop 10).takeD x.objectIdLength.toNat 0 = x.objectId := by
    rw [hshape, ← List.append_assoc, ← List.append_assoc, List.drop_left' (by simp),
      List.takeD_left' x.length_objectId]
  have hitem : itemAt (Tcf.encodeDmeasureProcess x ++ (pad ++ tail)) = itemOf x := by
    have hmodes : netAt (Tcf.encodeDmeasureProcess x ++ (pad ++ tail)) 1 1 = x.subProcessMode.toNat ∧
        netAt (Tcf.encodeDmeasureProcess x ++ (pad ++ tail)) 2 1 = x.oldProcessMode.toNat ∧
        netAt (Tcf.encodeDmeasureProcess x ++ (pad ++ tail)) 3 1 = x.shareLibMode.toNat := by
      rw [hshape]
      exact ⟨rfl, rfl, rfl⟩
    unfold itemAt itemOf
    simp only [hlen, hinterval, hid, hmodes.1, hmodes.2.1, hmodes.2.2]
    rfl
  rw [readItem, hitem]
  rfl

/-- **The kernel reads exactly the encoded items,** whatever is behind the buffer. -/
theorem items_pack {xs : List Tcf.DmeasureProcessItemUser} {beyond : Bytes} :
    items (Codec.pack (fun _ => 0) Tcf.encodeDmeasureProcess Tcf.DmeasureProcessItemUser.itemSize 0 xs ++ beyond)
      (xs.map Tcf.DmeasureProcessItemUser.itemSize).sum = (xs.map itemOf, 0) := by
  have henc : ∀ x ∈ xs, (Tcf.encodeDmeasureProcess x).length ≤ x.itemSize := by
    intro x _
    rw [Tcf.length_encodeDmeasureProcess]
    exact (Tcf.itemSize_bounds x).1
  have hpos : ∀ x ∈ xs, 0 < x.itemSize := by
    intro x _
    have hle := (Tcf.itemSize_bounds x).2.1
    omega
  rw [items, Int.toNat_natCast, drain_pack_all hpos henc (fun x _ => readsSlot_item x) le_rfl]
  rfl

/-! ### Adding -/

theorem addProcessPolicy_perm (l : List ProcessPolicy) (x : ProcessPolicy) :
    (addProcessPolicy l x).Perm (x :: l) := by
  unfold addProcessPolicy
  split
  · exact List.Perm.refl _
  · exact List.perm_append_singleton x l
  · exact addFullPath_perm x false l

/-- The sections of an update whose memory is all granted add its items, in some order. -/
theorem run_add {f : DmeasureFeatureConf} {l : List ProcessPolicy} {xs : List DmeasureProcessItem} :
    ∃ l', run lockedStep l (parseAddPolicyDmeasureProcess f (List.replicate xs.length true) xs) = some l' ∧
      l'.Perm (l ++ xs.map (newPolicy f)) := by
  induction xs generalizing l with
  | nil => exact ⟨l, rfl, by simp⟩
  | cons x xs ih =>
      obtain ⟨l', hrun, hperm⟩ := @ih (addProcessPolicy l (newPolicy f x))
      refine ⟨l', hrun, hperm.trans ?_⟩
      rw [List.map_cons]
      exact ((addProcessPolicy_perm l _).append_right _).trans List.perm_middle.symm

/-! ### Deleting -/

theorem names_iff {x : DmeasureProcessItem} {y : ProcessPolicy} : x.names y = true ↔ y.objectId = x.objectId := by
  have hx := x.length_objectId
  have hy := y.length_objectId
  unfold DmeasureProcessItem.names
  rw [decide_eq_true_eq]
  constructor
  · rintro ⟨hlen, hcmp⟩
    rwa [memcmp_eq_zero (by omega) (by omega), List.take_of_length_le (by omega),
      List.take_of_length_le (by omega)] at hcmp
  · intro h
    have hlen : y.beObjectIdLength = x.beObjectIdLength := by rw [← hy, h, hx]
    refine ⟨hlen, ?_⟩
    rw [memcmp_eq_zero (by omega) (by omega), h]

/-- A deletion takes its object id from the list once. -/
theorem objectIds_del (l : List ProcessPolicy) (x : DmeasureProcessItem) :
    (delProcessPolicy l x).map ProcessPolicy.objectId = (l.map ProcessPolicy.objectId).erase x.objectId := by
  induction l with
  | nil => rfl
  | cons y l ih =>
      unfold delProcessPolicy at ih ⊢
      rw [List.map_cons]
      by_cases h : y.objectId = x.objectId
      · rw [List.eraseP_cons_of_pos (names_iff.mpr h), h, List.erase_cons_head]
      · rw [List.eraseP_cons_of_neg fun hn => h (names_iff.mp hn), List.map_cons, ih,
          List.erase_cons_tail (by simpa using h)]

/-- The sections of a deletion come to an end where no id overruns `object_ids`. -/
theorem run_del_iff {l l' : List ProcessPolicy} {xs : List DmeasureProcessItem} :
    run lockedStep l (xs.map .del) = some l' ↔
      (∀ x ∈ xs, x.beObjectIdLength ≤ 512) ∧ xs.foldl delProcessPolicy l = l' := by
  induction xs generalizing l with
  | nil => simp
  | cons x xs ih =>
      rw [List.map_cons, run_cons, lockedStep, List.forall_mem_cons, List.foldl_cons]
      by_cases h : x.beObjectIdLength ≤ 512
      · rw [if_pos h, Option.bind_some, ih, and_iff_right h]
      · rw [if_neg h]
        simp [h]

/-- A list of deletions takes each object id as often as it is listed. -/
theorem objectIds_foldl_del (l : List ProcessPolicy) (xs : List DmeasureProcessItem) :
    (xs.foldl delProcessPolicy l).map ProcessPolicy.objectId =
      (l.map ProcessPolicy.objectId).diff (xs.map DmeasureProcessItem.objectId) := by
  induction xs generalizing l with
  | nil => rw [List.foldl_nil, List.map_nil, List.diff_nil]
  | cons x xs ih => rw [List.foldl_cons, ih, objectIds_del, List.map_cons, List.diff_cons]

/-! ### The lists of user space -/

/-- A list that the TCF encodes for the kernel. -/
inductive PolicyList
  | process (x : Tcf.ProcessItems)
  | add (xs : List Tcf.DmeasureProcessItemUser)
  | del (xs : List Tcf.DmeasureProcessItemUser)

/-- The items that the update `u` holds, and their room: behind the fields there are `56` bytes less. -/
def updateBuffer (u : Tcf.DmeasureUpdate) : Tcf.Serialized where
  alloc := (u.alloc - 56).toNat
  length := int32 u.dataLength.toNat
  data := u.data

/-- The encoder has succeeded with the buffer `s`; `num` is an `int`. -/
def PolicyList.Encoded (fill : ℕ → UInt8) (s : Tcf.Serialized) : PolicyList → Prop
  | .process x => x.serialize fill = .ok s
  | .add xs | .del xs => xs.length < 2 ^ 31 ∧ ∃ tpcmId action replayCounter u,
      Tcf.tcfPrepareUpdateDmeasureProcessPolicy xs tpcmId action replayCounter = .ok u ∧ s = updateBuffer u

/-- What the kernel holds, and its defaults. -/
structure Kernel where
  lists : ProcessIdentity.Lists
  processes : List ProcessPolicy
  dmeasureFeature : DmeasureFeatureConf

/-- The policy `y` is the item `x` that was encoded, up to the defaults for zero. -/
structure PolicyStored (f : DmeasureFeatureConf) (y : ProcessPolicy) (x : Tcf.DmeasureProcessItemUser) : Prop where
  objectIdType : y.objectIdType = .ofByte x.objectIdType
  subProcessMode : y.subProcessMode = if x.subProcessMode = 0 then int32 f.isChildMeasure else x.subProcessMode.toNat
  oldProcessMode :
    y.oldProcessMode = if x.oldProcessMode = 0 then int32 f.isExsitedProcessMeasure else x.oldProcessMode.toNat
  shareLibMode : y.shareLibMode = if x.shareLibMode = 0 then int32 f.isLibMeasure else x.shareLibMode.toNat
  measureInterval :
    y.beMeasureInterval = if x.measureInterval = 0 then int32 f.timeInterval else x.measureInterval.toNat
  objectId : y.objectId = x.objectId

/-- **The bytes mean the same in the kernel:** they lie in their buffer, it is consumed exactly, whatever is
`beyond` it, and the encoded items are stored, in addition to what there was; or no policy with one
of the listed object ids remains. -/
def PolicyList.MeansSame (k : Kernel) (beyond : Bytes) (s : Tcf.Serialized) : PolicyList → Prop
  | .process x => ProcessIdentity.Loads k.lists beyond s x
  | .add xs => s.data.length ≤ s.alloc ∧ (items (s.data ++ beyond) s.length).2 = 0 ∧
      ∃ l' ys, run lockedStep k.processes ((Request.add (s.data ++ beyond) s.length).sections k.dmeasureFeature
          (List.replicate (items (s.data ++ beyond) s.length).1.length true)) = some l' ∧
        l'.Perm (k.processes ++ ys) ∧ List.Forall₂ (PolicyStored k.dmeasureFeature) ys xs
  | .del xs => s.data.length ≤ s.alloc ∧ (items (s.data ++ beyond) s.length).2 = 0 ∧
      ∃ l', run lockedStep k.processes ((Request.del (s.data ++ beyond) s.length).sections k.dmeasureFeature []) =
          some l' ∧
        ∀ y ∈ l', ∀ x ∈ xs, y.objectId ≠ x.objectId

/-- **The condition,** on the list and, for a deletion, on what is stored. -/
def PolicyList.Keeps (k : Kernel) : PolicyList → Prop
  | .process x => x.Fits
  | .add xs => ∀ x ∈ xs, x.measureInterval.toNat < 2 ^ 31
  | .del xs => ∀ x ∈ xs, x.objectIdLength.toNat ≤ 512 ∧
      (k.processes.map ProcessPolicy.objectId).count x.objectId ≤
        (xs.map Tcf.DmeasureProcessItemUser.objectId).count x.objectId

/-- What the encoder of the process lists leaves. -/
theorem items_of_prepare {xs : List Tcf.DmeasureProcessItemUser} {tpcmId beyond : Bytes} {action : UInt32}
    {replayCounter : UInt64} {u : Tcf.DmeasureUpdate} (hnum : xs.length < 2 ^ 31)
    (h : Tcf.tcfPrepareUpdateDmeasureProcessPolicy xs tpcmId action replayCounter = .ok u) :
    (updateBuffer u).data.length ≤ (updateBuffer u).alloc ∧
      items ((updateBuffer u).data ++ beyond) (updateBuffer u).length = (xs.map itemOf, 0) := by
  obtain ⟨hinside, hlen, -⟩ := Tcf.process_round_trips hnum h
  unfold Tcf.tcfPrepareUpdateDmeasureProcessPolicy at h
  split_ifs at h with hid
  split at h
  · cases h
  · rename_i hcheck
    obtain rfl := Except.ok.inj h
    obtain ⟨hsum, -⟩ := Tcf.sum_of_check hnum (by decide) (Nat.zero_le _) hcheck
    rw [Nat.zero_add] at hsum
    have htoNat : (UInt32.ofNat (xs.map Tcf.DmeasureProcessItemUser.itemSize).sum).toNat =
        (xs.map Tcf.DmeasureProcessItemUser.itemSize).sum :=
      UInt32.toNat_ofNat_of_lt' (show _ < 2 ^ 32 by omega)
    constructor
    · dsimp only [updateBuffer] at hinside ⊢
      omega
    · dsimp only [updateBuffer]
      rw [htoNat, int32_eq (by omega) (by omega)]
      exact items_pack

theorem int32_mode (b : UInt8) (d : ℕ) :
    int32 (if b.toNat = 0 then (d : ℤ) else b.toNat) = if b = 0 then int32 d else (b.toNat : ℤ) := by
  have hlt : b.toNat < 256 := b.toNat_lt
  have hzero : b.toNat = 0 ↔ b = 0 := by rw [← UInt8.toNat_inj]; rfl
  by_cases h : b = 0
  · rw [if_pos (hzero.mpr h), if_pos h]
  · rw [if_neg (mt hzero.mp h), if_neg h, int32_eq (by omega) (by omega)]

/-- The node for an item is the item, where the interval is an `int`. -/
theorem policyStored_newPolicy {f : DmeasureFeatureConf} {x : Tcf.DmeasureProcessItemUser}
    (h : x.measureInterval.toNat < 2 ^ 31) : PolicyStored f (newPolicy f (itemOf x)) x := by
  refine ⟨rfl, int32_mode _ _, int32_mode _ _, int32_mode _ _, ?_, rfl⟩
  have hzero : x.measureInterval.toNat = 0 ↔ x.measureInterval = 0 := by rw [← UInt32.toNat_inj]; rfl
  show int32 (if x.measureInterval.toNat = 0 then (f.timeInterval : ℤ) else x.measureInterval.toNat) = _
  by_cases h0 : x.measureInterval = 0
  · rw [if_pos (hzero.mpr h0), if_pos h0]
  · rw [if_neg (mt hzero.mp h0), if_neg h0, int32_eq (by omega) (by omega)]

theorem add_means_iff {k : Kernel} {xs : List Tcf.DmeasureProcessItemUser} {m : Bytes} {length : ℤ}
    (hitems : items m length = (xs.map itemOf, 0)) :
    (∃ l' ys, run lockedStep k.processes ((Request.add m length).sections k.dmeasureFeature
          (List.replicate (items m length).1.length true)) = some l' ∧
        l'.Perm (k.processes ++ ys) ∧ List.Forall₂ (PolicyStored k.dmeasureFeature) ys xs) ↔
      ∀ x ∈ xs, x.measureInterval.toNat < 2 ^ 31 := by
  obtain ⟨l, hrun, hperm⟩ := @run_add k.dmeasureFeature k.processes (xs.map itemOf)
  rw [Request.sections, hitems]
  constructor
  · rintro ⟨l', ys, hrun', hperm', hstored⟩ x hx
    obtain rfl := Option.some.inj (hrun.symm.trans hrun')
    have hys := (List.perm_append_left_iff _).mp (hperm'.symm.trans hperm)
    obtain ⟨y, hy, hxy⟩ := ProcessIdentity.exists_left_of_forall₂ hstored x hx
    obtain ⟨z, -, rfl⟩ := List.mem_map.mp (hys.mem_iff.mp hy)
    have hinterval := hxy.measureInterval
    -- what is kept is an `int`
    have hlt : (newPolicy k.dmeasureFeature z).beMeasureInterval < 2 ^ 31 := Tcf.int32_lt _
    rw [hinterval] at hlt
    split_ifs at hlt with h0
    · rw [h0]
      decide
    · omega
  · intro h
    refine ⟨l, _, hrun, hperm, ?_⟩
    rw [List.map_map, List.forall₂_map_left_iff, List.forall₂_same]
    exact fun x hx => policyStored_newPolicy (h x hx)

theorem del_means_iff {k : Kernel} {xs : List Tcf.DmeasureProcessItemUser} {m : Bytes} {length : ℤ}
    (hitems : items m length = (xs.map itemOf, 0)) :
    (∃ l', run lockedStep k.processes ((Request.del m length).sections k.dmeasureFeature []) = some l' ∧
        ∀ y ∈ l', ∀ x ∈ xs, y.objectId ≠ x.objectId) ↔ (PolicyList.del xs).Keeps k := by
  have hids : (xs.map itemOf).map DmeasureProcessItem.objectId = xs.map Tcf.DmeasureProcessItemUser.objectId := by
    rw [List.map_map]
    rfl
  have hgone : ∀ x : Tcf.DmeasureProcessItemUser,
      (∀ y ∈ (xs.map itemOf).foldl delProcessPolicy k.processes, y.objectId ≠ x.objectId) ↔
        (k.processes.map ProcessPolicy.objectId).count x.objectId ≤
          (xs.map Tcf.DmeasureProcessItemUser.objectId).count x.objectId := by
    intro x
    rw [← Nat.sub_eq_zero_iff_le, ← List.count_diff, ← hids, ← objectIds_foldl_del, List.count_eq_zero]
    simp [List.mem_map]
  rw [Request.sections, hitems]
  constructor
  · rintro ⟨l', hrun, hnone⟩ x hx
    obtain ⟨hlen, rfl⟩ := run_del_iff.mp hrun
    exact ⟨hlen _ (List.mem_map_of_mem hx), (hgone x).mp fun y hy => hnone y hy x hx⟩
  · intro h
    refine ⟨_, run_del_iff.mpr ⟨?_, rfl⟩, fun y hy x hx => (hgone x).mpr (h x hx).2 y hy⟩
    intro z hz
    obtain ⟨x, hx, rfl⟩ := List.mem_map.mp hz
    exact (h x hx).1

/-- **When the bytes mean the same in the kernel:** for every list that its encoder accepts, whatever
the kernel holds and whatever follows the buffer, exactly when the list `Keeps`. -/
theorem encoded_policy_iff (p : PolicyList) (k : Kernel) (fill : ℕ → UInt8) (beyond : Bytes) (s : Tcf.Serialized)
    (h : p.Encoded fill s) : p.MeansSame k beyond s ↔ p.Keeps k := by
  cases p with
  | process x => exact ProcessIdentity.loads_iff h
  | add xs =>
      obtain ⟨hnum, tpcmId, action, replayCounter, u, hu, rfl⟩ := h
      obtain ⟨hinside, hitems⟩ := @items_of_prepare xs tpcmId beyond action replayCounter u hnum hu
      have hleft : (items ((updateBuffer u).data ++ beyond) (updateBuffer u).length).2 = 0 := by rw [hitems]
      rw [PolicyList.MeansSame, and_iff_right hinside, and_iff_right hleft, add_means_iff hitems]
      rfl
  | del xs =>
      obtain ⟨hnum, tpcmId, action, replayCounter, u, hu, rfl⟩ := h
      obtain ⟨hinside, hitems⟩ := @items_of_prepare xs tpcmId beyond action replayCounter u hnum hu
      have hleft : (items ((updateBuffer u).data ++ beyond) (updateBuffer u).length).2 = 0 := by rw [hitems]
      rw [PolicyList.MeansSame, and_iff_right hinside, and_iff_right hleft, del_means_iff hitems]

/-- An item for the path `/a`. -/
def pathItem : Tcf.DmeasureProcessItemUser := ⟨0, 0, 0, 0, 0, 2, [47, 97], rfl⟩

/-- A kernel that measures nothing, with its defaults. -/
def emptyKernel : Kernel := ⟨⟨[], []⟩, [], ⟨1, 2, 1, 1⟩⟩

/-- The update with `pathItem`. -/
def pathUpdate : Tcf.Serialized := ⟨268, 12, [0, 0, 0, 0, 0, 0, 0, 0, 0, 2, 47, 97]⟩

theorem encoded_pathItem : ∃ tpcmId action replayCounter u,
    Tcf.tcfPrepareUpdateDmeasureProcessPolicy [pathItem] tpcmId action replayCounter = .ok u ∧
      pathUpdate = updateBuffer u := by
  have hcheck : Tcf.checkDmeasureProcess [pathItem].length 0 [pathItem] = none := by decide +kernel
  refine ⟨[9], 0, 5, ?_⟩
  rw [Tcf.tcfPrepareUpdateDmeasureProcessPolicy, if_neg (by decide), hcheck]
  refine ⟨_, rfl, ?_⟩
  rw [pathUpdate, updateBuffer, Tcf.Serialized.mk.injEq]
  decide +kernel

theorem encoded_policy_iff_path :
    (PolicyList.add [pathItem]).Encoded (fun _ => 0) pathUpdate ∧
      (PolicyList.add [pathItem]).MeansSame emptyKernel [1, 2] pathUpdate := by
  have henc : (PolicyList.add [pathItem]).Encoded (fun _ => 0) pathUpdate :=
    ⟨by decide, encoded_pathItem⟩
  refine ⟨henc, (encoded_policy_iff _ _ _ _ _ henc).mpr ?_⟩
  show ∀ x ∈ [pathItem], x.measureInterval.toNat < 2 ^ 31
  decide

/-- The list after two additions of the item. -/
def addedTwice : List ProcessPolicy :=
  (run lockedStep [] ((Request.add pathUpdate.data pathUpdate.length).sections emptyKernel.dmeasureFeature [true] ++
    (Request.add pathUpdate.data pathUpdate.length).sections emptyKernel.dmeasureFeature [true])).getD []

/-- **Two additions, one deletion:** the item is still stored.  And an identity with 65536 bytes of hashes
is accepted by the encoder and not loaded. -/
theorem deleted_once :
    ((PolicyList.del [pathItem]).Encoded (fun _ => 0) pathUpdate ∧ addedTwice.length = 2 ∧
      (∃ l', run lockedStep addedTwice ((Request.del pathUpdate.data pathUpdate.length).sections
        emptyKernel.dmeasureFeature []) = some l' ∧ ∃ y ∈ l', y.objectId = pathItem.objectId) ∧
      ¬ (PolicyList.del [pathItem]).MeansSame ⟨⟨[], []⟩, addedTwice, emptyKernel.dmeasureFeature⟩ [] pathUpdate) ∧
    ∃ s, (PolicyList.process (.ids [Tcf.wideIdentity])).Encoded (fun _ => 0) s ∧
      ∀ k beyond, ¬ (PolicyList.process (.ids [Tcf.wideIdentity])).MeansSame k beyond s := by
  constructor
  · refine ⟨⟨by decide, encoded_pathItem⟩, by decide +kernel, ?_, ?_⟩
    · exact ⟨_, rfl, by decide +kernel⟩
    · rintro ⟨-, -, h⟩
      have hkeeps := (del_means_iff (by decide +kernel)).mp h
      exact absurd (hkeeps pathItem (List.mem_singleton_self _)).2 (by decide +kernel)
  · have hlen : Tcf.wideIdentity.hashLen = 0 := by decide +kernel
    have hwrite : Tcf.writeProcessIds [Tcf.wideIdentity] = .ok () := by
      rw [Tcf.writeProcessIds, if_neg (by decide +kernel), hlen, if_neg (Nat.not_lt_zero _)]
      rfl
    obtain ⟨s, hs⟩ : ∃ s, (Tcf.ProcessItems.ids [Tcf.wideIdentity]).serialize (fun _ => 0) = .ok s := by
      rw [Tcf.ProcessItems.serialize, Tcf.tcfUtilProcessIdsSerialize, hwrite]
      exact ⟨_, rfl⟩
    refine ⟨s, hs, fun k beyond h => ?_⟩
    have hfits := (ProcessIdentity.loads_iff hs).mp h
    exact absurd (hfits.1 _ (List.mem_singleton_self _)).hash (by decide)

end Dmeasure
end TsbAgent
