/-
# The policies of the dynamic measurement

`tss-main/tcf/src/tcf_dmeasure.c`: two lists of items are packed into an update and read
again from what the TCS has stored.

| list | item | what is written |
| --- | --- | --- |
| system | 40 bytes: type, interval, name of at most 31 characters | **the type of the first item**, the interval and the name of the item |
| processes | 10 bytes and the object id, aligned | the item's own |

So a system list is read back exactly when all its items have one type
(`dmeasure_round_trip_iff`); the buffer of the list is also sized by an `int`, which a list of
more than 2 GiB overflows.  A process list is always read back: the strict test of the reader,
`ops + 10 >= length`, lets an item with an empty object id pass because the item takes 12
bytes.  All memory that is asked for is granted, unless the size is negative.
-/

import TsbAgent.Tcf.Basic

namespace TsbAgent
namespace Tcf

open Libc Word Codec FileIntegrity

/-- `TPCM_DMEASURE_OBJECT_SIZE`. -/
def tpcmDmeasureObjectSize : ℕ := 32

/-- `struct dmeasure_policy_item_user`. -/
structure DmeasurePolicyItemUser where
  name : Option CStr
  type : UInt32
  intervalMilli : UInt32
deriving DecidableEq

/-- `struct dmeasure_process_item_user`. -/
structure DmeasureProcessItemUser where
  objectIdType : UInt8
  subProcessMode : UInt8
  oldProcessMode : UInt8
  shareLibMode : UInt8
  measureInterval : UInt32
  objectIdLength : UInt16
  objectId : Bytes
  length_objectId : objectId.length = objectIdLength.toNat
deriving DecidableEq

/-- An update: the buffer, and what is written behind its 56 bytes of fields. -/
structure DmeasureUpdate where
  alloc : ℤ
  action : UInt32
  replayCounter : UInt64
  itemNumber : UInt32
  dataLength : UInt32
  tpcmId : Bytes
  data : Bytes

/-! ### The system list -/

/-- The checks of the loop. -/
def checkDmeasureNames : List DmeasurePolicyItemUser → Option TcfErr
  | [] => none
  | x :: xs =>
      match x.name with
      | none => some .parameter
      | some name =>
          if name.strlen + 1 > tpcmDmeasureObjectSize then some .inputExceed else checkDmeasureNames xs

/-- `item[i]`, where `type` is `items->type`. -/
def encodeDmeasureItem (type : UInt32) (x : DmeasurePolicyItemUser) : Bytes :=
  netBytes 4 type.toNat ++ (netBytes 4 x.intervalMilli.toNat ++ ((x.name.getD CStr.empty).bytes ++
    List.replicate (tpcmDmeasureObjectSize - (x.name.getD CStr.empty).strlen) 0))

/-- `items->type`. -/
def firstType (items : List DmeasurePolicyItemUser) : UInt32 :=
  (items.head?.map DmeasurePolicyItemUser.type).getD 0

/-- `tcf_prepare_update_dmeasure_policy`. -/
def tcfPrepareUpdateDmeasurePolicy (items : List DmeasurePolicyItemUser) (tpcmId : Bytes)
    (action : UInt32) (replayCounter : UInt64) : Except TcfErr DmeasureUpdate :=
  if tpcmId.length > FileIntegrity.maxTpcmIdSize then .error .inputExceed
  else
    let olen := int32 (56 + 40 * items.length : ℕ)
    if olen < 0 then .error .nomem
    else
      match checkDmeasureNames items with
      | some e => .error e
      | none =>
          .ok
            { alloc := olen
              action := action
              replayCounter := replayCounter
              itemNumber := UInt32.ofNat items.length
              dataLength := UInt32.ofNat (40 * items.length)
              tpcmId := tpcmId
              data := pack (fun _ => 0) (encodeDmeasureItem (firstType items)) (fun _ => 40) 0 items }

/-- One round of `tcf_get_dmeasure_policy`.  The name ends somewhere in the memory. -/
def readDmeasureItem (_op : ℕ) (p : Bytes) : Except Fail (DmeasurePolicyItemUser × ℕ) :=
  if p.length < 40 ∨ (0 : UInt8) ∉ p.drop 8 then .error .fault
  else
    .ok (⟨some (CStr.ofBytes (p.drop 8)), UInt32.ofNat (netAt p 0 4), UInt32.ofNat (netAt p 4 4)⟩, 40)

/-- `tcf_get_dmeasure_policy`, for what the TCS has stored. -/
def tcfGetDmeasurePolicy (data : Bytes) (itemCount : ℕ) : Except Fail (List DmeasurePolicyItemUser) :=
  unpack readDmeasureItem itemCount 0 data

/-! ### The process list -/

/-- `MAX_PROCESS_DMEASURE_POLICY_ITEM_SIZE`. -/
def maxProcessDmeasurePolicyItemSize : ℕ := align4 (10 + 256)

/-- `item_size`. -/
def DmeasureProcessItemUser.itemSize (x : DmeasureProcessItemUser) : ℕ := align4 (10 + x.objectIdLength.toNat)

/-- The test of the loop, from `ops` on. -/
def checkDmeasureProcess (num : ℕ) : ℕ → List DmeasureProcessItemUser → Option TcfErr
  | _, [] => none
  | ops, x :: xs =>
      if sizeT (int32 (ops + x.itemSize : ℕ)) > maxProcessDmeasurePolicyItemSize * num then some .parameter
      else checkDmeasureProcess num (ops + x.itemSize) xs

/-- The bytes of an item. -/
def encodeDmeasureProcess (x : DmeasureProcessItemUser) : Bytes :=
  [x.objectIdType, x.subProcessMode, x.oldProcessMode, x.shareLibMode] ++
    (netBytes 4 x.measureInterval.toNat ++ (netBytes 2 x.objectIdLength.toNat ++ x.objectId))

/-- `tcf_prepare_update_dmeasure_process_policy`. -/
def tcfPrepareUpdateDmeasureProcessPolicy (items : List DmeasureProcessItemUser) (tpcmId : Bytes)
    (action : UInt32) (replayCounter : UInt64) : Except TcfErr DmeasureUpdate :=
  if tpcmId.length > FileIntegrity.maxTpcmIdSize then .error .parameter
  else
    match checkDmeasureProcess items.length 0 items with
    | some e => .error e
    | none =>
        .ok
          { alloc := 56 + maxProcessDmeasurePolicyItemSize * items.length
            action := action
            replayCounter := replayCounter
            itemNumber := UInt32.ofNat items.length
            dataLength := UInt32.ofNat (items.map DmeasureProcessItemUser.itemSize).sum
            tpcmId := tpcmId
            data := pack (fun _ => 0) encodeDmeasureProcess DmeasureProcessItemUser.itemSize 0 items }

/-- What is filled in of an item. -/
structure DmeasureProcess where
  objectIdType : UInt8
  subProcessMode : UInt8
  oldProcessMode : UInt8
  shareLibMode : UInt8
  measureInterval : UInt32
  objectIdLength : ℕ
  objectId : Bytes
deriving DecidableEq

/-- One round of `tcf_get_dmeasure_process_policy`. -/
def readDmeasureProcess (length : ℤ) (ops : ℕ) (p : Bytes) : Except Fail (DmeasureProcess × ℕ) :=
  if ops + 10 ≥ sizeT length then .error (.error .nomem)
  else if p.length < 10 then .error .fault
  else if ops + 10 + netAt p 8 2 > sizeT length then .error (.error .nomem)
  else if p.length < 10 + netAt p 8 2 then .error .fault
  else
    .ok ({
      objectIdType := p.getD 0 0
      subProcessMode := p.getD 1 0
      oldProcessMode := p.getD 2 0
      shareLibMode := p.getD 3 0
      measureInterval := UInt32.ofNat (netAt p 4 4)
      objectIdLength := netAt p 8 2
      objectId := fieldAt p 10 (netAt p 8 2) }, align4 (10 + netAt p 8 2))

/-- `tcf_get_dmeasure_process_policy`, for what the TCS has stored. -/
def tcfGetDmeasureProcessPolicy (data : Bytes) (itemCount : ℕ) (length : ℤ) :
    Except Fail (List DmeasureProcess) :=
  unpack (readDmeasureProcess length) itemCount 0 data

/-- What is to be read back of an item. -/
def DmeasureProcessItemUser.view (x : DmeasureProcessItemUser) : DmeasureProcess where
  objectIdType := x.objectIdType
  subProcessMode := x.subProcessMode
  oldProcessMode := x.oldProcessMode
  shareLibMode := x.shareLibMode
  measureInterval := x.measureInterval
  objectIdLength := x.objectIdLength.toNat
  objectId := x.objectId

/-! ### Either list -/

/-- A list for one of the two policies. -/
inductive DmeasureItems
  | policy (items : List DmeasurePolicyItemUser)
  | process (items : List DmeasureProcessItemUser)

/-- How many items. -/
def DmeasureItems.num : DmeasureItems → ℕ
  | policy items => items.length
  | process items => items.length

/-- The update for the list. -/
def DmeasureItems.prepare (tpcmId : Bytes) (action : UInt32) (replayCounter : UInt64) :
    DmeasureItems → Except TcfErr DmeasureUpdate
  | policy items => tcfPrepareUpdateDmeasurePolicy items tpcmId action replayCounter
  | process items => tcfPrepareUpdateDmeasureProcessPolicy items tpcmId action replayCounter

/-- The items are read back from the data of the update, by their number and length. -/
def DmeasureItems.ReadBack (u : DmeasureUpdate) : DmeasureItems → Prop
  | policy items => tcfGetDmeasurePolicy u.data u.itemNumber.toNat = .ok items
  | process items =>
      tcfGetDmeasureProcessPolicy u.data u.itemNumber.toNat (int32 u.dataLength.toNat) =
        .ok (items.map DmeasureProcessItemUser.view)

/-- **The list round-trips:** it is written inside the buffer, with its length, and read back. -/
structure DmeasureItems.RoundTrips (x : DmeasureItems) (u : DmeasureUpdate) : Prop where
  inside : 56 + u.data.length ≤ u.alloc
  dataLength : u.dataLength.toNat = u.data.length
  readBack : x.ReadBack u

/-- **The condition:** the items of a system list have one type, and their size is an `int`. -/
def DmeasureItems.OneType : DmeasureItems → Prop
  | policy items => (∀ a ∈ items, ∀ b ∈ items, a.type = b.type) ∧ 56 + 40 * items.length < 2 ^ 31
  | process _ => True

section Policy

variable {items : List DmeasurePolicyItemUser} {type : UInt32} {x : DmeasurePolicyItemUser} {p : Bytes}

/-- A name that ends in its field. -/
def DmeasurePolicyItemUser.NameFits (x : DmeasurePolicyItemUser) : Prop :=
  ∃ name, x.name = some name ∧ name.strlen < 32

theorem nameFits_of_check (h : checkDmeasureNames items = none) : ∀ x ∈ items, x.NameFits := by
  induction items with
  | nil => nofun
  | cons x items ih =>
      rw [checkDmeasureNames] at h
      split at h
      · exact absurd h (by simp)
      · rename_i name hname
        split_ifs at h with hlen
        rw [tpcmDmeasureObjectSize] at hlen
        exact List.forall_mem_cons.mpr ⟨⟨name, hname, by omega⟩, ih h⟩

theorem length_encodeDmeasureItem (h : x.NameFits) : (encodeDmeasureItem type x).length = 40 := by
  obtain ⟨name, hname, hlen⟩ := h
  rw [encodeDmeasureItem, hname, Option.getD_some, CStr.strlen, tpcmDmeasureObjectSize]
  rw [CStr.strlen] at hlen
  simp only [List.length_append, length_netBytes, List.length_replicate]
  omega

theorem ofNat_netAt_head {n : UInt32} {r : Bytes} : UInt32.ofNat (netAt (netBytes 4 n.toNat ++ r) 0 4) = n := by
  have hlt : n.toNat < 256 ^ 4 := n.toNat_lt
  rw [netAt_head, Nat.mod_eq_of_lt hlt, UInt32.ofNat_toNat]

/-- An item reads back with the type that was written. -/
theorem readsBack_encodeDmeasureItem {len : ℕ} (h : x.NameFits) :
    ReadsBack readDmeasureItem len (encodeDmeasureItem type) (fun _ => 40) (fun x => { x with type := type }) x := by
  intro op pad tail _ hpad
  have hlen := @length_encodeDmeasureItem type x h
  obtain ⟨name, hname, hstrlen⟩ := h
  obtain ⟨k, hk⟩ : ∃ k, tpcmDmeasureObjectSize - name.strlen = k + 1 := by
    refine ⟨31 - name.strlen, ?_⟩
    rw [tpcmDmeasureObjectSize]
    omega
  have hshape : encodeDmeasureItem type x ++ (pad ++ tail) = netBytes 4 type.toNat ++
      (netBytes 4 x.intervalMilli.toNat ++ (name.bytes ++ 0 :: (List.replicate k 0 ++ (pad ++ tail)))) := by
    rw [encodeDmeasureItem, hname, Option.getD_some, hk, List.replicate_succ]
    simp only [List.append_assoc, List.cons_append]
  have hdrop : (encodeDmeasureItem type x ++ (pad ++ tail)).drop 8 =
      name.bytes ++ 0 :: (List.replicate k 0 ++ (pad ++ tail)) := by
    rw [hshape, ← List.append_assoc]
    exact List.drop_left' (by simp)
  have hfits : ¬ ((encodeDmeasureItem type x ++ (pad ++ tail)).length < 40 ∨
      (0 : UInt8) ∉ (encodeDmeasureItem type x ++ (pad ++ tail)).drop 8) := by
    rw [hdrop, List.length_append]
    simp only [List.mem_append, List.mem_cons, true_or, or_true, not_true_eq_false, or_false]
    omega
  rw [readDmeasureItem, if_neg hfits, hdrop, CStr.ofBytes_terminated, hshape, ofNat_netAt_head, netAt_skip,
    ofNat_netAt_head, ← hname]

/-- **A system list reads back with the type of its first item.** -/
theorem get_policy (h : checkDmeasureNames items = none) :
    tcfGetDmeasurePolicy (pack (fun _ => 0) (encodeDmeasureItem type) (fun _ => 40) 0 items) items.length =
      .ok (items.map fun x => { x with type := type }) := by
  have hfits := nameFits_of_check h
  have hread := @unpack_pack _ _ _ (fun _ => 0) _ _ 0 0 _ _ [] _ _
    (fun x hx => (@length_encodeDmeasureItem type x (hfits x hx)).le)
    (fun x hx => readsBack_encodeDmeasureItem (hfits x hx)) le_rfl
  rwa [List.append_nil] at hread

theorem map_firstType_eq_iff :
    items.map (fun x => { x with type := firstType items }) = items ↔
      ∀ a ∈ items, ∀ b ∈ items, a.type = b.type := by
  have hself : items.map (fun x => { x with type := firstType items }) = items ↔
      ∀ x ∈ items, x.type = firstType items := by
    have hmap := @List.map_inj_left _ _ items (fun x => { x with type := firstType items }) id
    rw [List.map_id] at hmap
    rw [hmap]
    refine forall₂_congr fun x _ => ⟨fun h => ?_, fun h => ?_⟩
    · exact (congrArg DmeasurePolicyItemUser.type h).symm
    · rw [← h]
      rfl
  rw [hself]
  cases items with
  | nil => simp
  | cons y ys =>
      have hfirst : firstType (y :: ys) = y.type := rfl
      rw [hfirst]
      refine ⟨fun h a ha b hb => ?_, fun h x hx => h x hx y List.mem_cons_self⟩
      rw [h a ha, h b hb]

end Policy

section Process

variable {items : List DmeasureProcessItemUser} {x : DmeasureProcessItemUser} {num ops len : ℕ}

theorem itemSize_bounds (x : DmeasureProcessItemUser) :
    10 + x.objectIdLength.toNat ≤ x.itemSize ∧ 12 ≤ x.itemSize ∧ x.itemSize < 2 ^ 31 := by
  have hlt : x.objectIdLength.toNat < 65536 := x.objectIdLength.toNat_lt
  have hle := le_align4 (10 + x.objectIdLength.toNat)
  have hge := align4_le (10 + x.objectIdLength.toNat)
  refine ⟨hle, ?_, ?_⟩
  · rw [DmeasureProcessItemUser.itemSize]
    unfold align4
    split_ifs <;> omega
  · rw [DmeasureProcessItemUser.itemSize]
    omega

theorem length_encodeDmeasureProcess (x : DmeasureProcessItemUser) :
    (encodeDmeasureProcess x).length = 10 + x.objectIdLength.toNat := by
  rw [encodeDmeasureProcess, ← x.length_objectId]
  simp only [List.length_append, length_netBytes, List.length_cons, List.length_nil]
  omega

/-- The items that pass the test end inside the buffer and where an `int` reaches. -/
theorem sum_of_check (hnum : num < 2 ^ 31) (hops : ops < 2 ^ 31) (hfit : ops ≤ 268 * num)
    (h : checkDmeasureProcess num ops items = none) :
    ops + (items.map DmeasureProcessItemUser.itemSize).sum < 2 ^ 31 ∧
      ops + (items.map DmeasureProcessItemUser.itemSize).sum ≤ 268 * num := by
  induction items generalizing ops with
  | nil => exact ⟨by simpa using hops, by simpa using hfit⟩
  | cons x items ih =>
      rw [checkDmeasureProcess] at h
      split_ifs at h with hend
      have hmax : maxProcessDmeasurePolicyItemSize = 268 := rfl
      rw [hmax] at hend
      obtain ⟨-, -, hsize⟩ := itemSize_bounds x
      have hlt := end_lt (by omega) hops hsize hend
      have hle : ops + x.itemSize ≤ 268 * num := by
        rw [int32_eq (by omega) (by omega), sizeT] at hend
        omega
      obtain ⟨hsum, hsum'⟩ := ih hlt hle h
      rw [List.map_cons, List.sum_cons]
      omega

/-- **An item of a process list reads back.** -/
theorem readsBack_encodeDmeasureProcess (hlen : len < 2 ^ 31) :
    ReadsBack (readDmeasureProcess len) len encodeDmeasureProcess DmeasureProcessItemUser.itemSize
      DmeasureProcessItemUser.view x := by
  intro op pad tail hop hpad
  obtain ⟨hle, h12, -⟩ := itemSize_bounds x
  have hlength := length_encodeDmeasureProcess x
  have hsizeT : sizeT (len : ℤ) = len := by
    rw [sizeT]
    omega
  have hlong : (encodeDmeasureProcess x ++ (pad ++ tail)).length ≥ 10 + x.objectIdLength.toNat := by
    rw [List.length_append]
    omega
  have hshape : encodeDmeasureProcess x ++ (pad ++ tail) =
      [x.objectIdType, x.subProcessMode, x.oldProcessMode, x.shareLibMode] ++
        (netBytes 4 x.measureInterval.toNat ++ (netBytes 2 x.objectIdLength.toNat ++
          (x.objectId ++ (pad ++ tail)))) := by
    simp only [encodeDmeasureProcess, List.append_assoc]
  have hid : netAt (encodeDmeasureProcess x ++ (pad ++ tail)) 8 2 = x.objectIdLength.toNat := by
    have hlt : x.objectIdLength.toNat < 256 ^ 2 := x.objectIdLength.toNat_lt
    rw [hshape, netAt, fieldAt_skip (k := 4) rfl, ← netAt, netAt_skip, netAt_head, Nat.mod_eq_of_lt hlt]
  have hinterval : UInt32.ofNat (netAt (encodeDmeasureProcess x ++ (pad ++ tail)) 4 4) = x.measureInterval := by
    rw [hshape, netAt, fieldAt_skip (k := 4) rfl, ← netAt, ofNat_netAt_head]
  have hobject : fieldAt (encodeDmeasureProcess x ++ (pad ++ tail)) 10 x.objectIdLength.toNat = x.objectId := by
    rw [hshape, ← List.append_assoc, ← List.append_assoc]
    exact fieldAt_append (by simp) x.length_objectId
  unfold readDmeasureProcess
  rw [hsizeT, hid, if_neg (by omega), if_neg (by omega), if_neg (by omega), if_neg (by omega), hinterval, hobject,
    hshape]
  rfl

end Process

section Either

variable {u : DmeasureUpdate} {tpcmId : Bytes} {action : UInt32} {replayCounter : UInt64}

/-- The size of the buffer, an `int`, is enough exactly when it has not wrapped. -/
theorem int32_ge_iff {n : ℕ} : (n : ℤ) ≤ int32 n ↔ n < 2 ^ 31 := by
  refine ⟨fun h => ?_, fun h => ?_⟩
  · have hlt := int32_lt n
    omega
  · rw [int32_eq (by omega) (by omega)]

theorem length_pack_items {items : List DmeasurePolicyItemUser} {type : UInt32}
    (h : checkDmeasureNames items = none) :
    (pack (fun _ => 0) (encodeDmeasureItem type) (fun _ => 40) 0 items).length = 40 * items.length := by
  have hfits := nameFits_of_check h
  exact length_pack_const fun x hx => (length_encodeDmeasureItem (hfits x hx)).le

theorem policy_round_trip_iff {items : List DmeasurePolicyItemUser} (hnum : items.length < 2 ^ 31)
    (h : tcfPrepareUpdateDmeasurePolicy items tpcmId action replayCounter = .ok u) :
    (DmeasureItems.policy items).RoundTrips u ↔ (DmeasureItems.policy items).OneType := by
  unfold tcfPrepareUpdateDmeasurePolicy at h
  split_ifs at h with hid
  dsimp only at h
  split_ifs at h with hneg
  split at h
  · exact absurd h (by simp)
  · rename_i hcheck
    obtain rfl := Except.ok.inj h
    have hlength := @length_pack_items items (firstType items) hcheck
    have hcount : (UInt32.ofNat items.length).toNat = items.length :=
      UInt32.toNat_ofNat_of_lt' (show _ < 2 ^ 32 by omega)
    have hread : (DmeasureItems.policy items).ReadBack
        { alloc := int32 (56 + 40 * items.length : ℕ), action := action, replayCounter := replayCounter,
          itemNumber := UInt32.ofNat items.length, dataLength := UInt32.ofNat (40 * items.length),
          tpcmId := tpcmId,
          data := pack (fun _ => 0) (encodeDmeasureItem (firstType items)) (fun _ => 40) 0 items } ↔
        ∀ a ∈ items, ∀ b ∈ items, a.type = b.type := by
      rw [← map_firstType_eq_iff]
      dsimp only [DmeasureItems.ReadBack]
      rw [hcount, get_policy hcheck]
      exact ⟨fun h => Except.ok.inj h, fun h => congrArg Except.ok h⟩
    constructor
    · rintro ⟨hinside, -, hback⟩
      refine ⟨hread.mp hback, int32_ge_iff.mp ?_⟩
      dsimp only at hinside
      rw [hlength] at hinside
      exact hinside
    · rintro ⟨htypes, hsize⟩
      refine ⟨?_, ?_, hread.mpr htypes⟩
      · dsimp only
        rw [hlength]
        exact int32_ge_iff.mpr hsize
      · dsimp only
        rw [hlength]
        exact UInt32.toNat_ofNat_of_lt' (show _ < 2 ^ 32 by omega)

theorem process_round_trips {items : List DmeasureProcessItemUser} (hnum : items.length < 2 ^ 31)
    (h : tcfPrepareUpdateDmeasureProcessPolicy items tpcmId action replayCounter = .ok u) :
    (DmeasureItems.process items).RoundTrips u := by
  unfold tcfPrepareUpdateDmeasureProcessPolicy at h
  split_ifs at h with hid
  split at h
  · exact absurd h (by simp)
  · rename_i hcheck
    obtain rfl := Except.ok.inj h
    obtain ⟨hsum, hfit⟩ := sum_of_check hnum (by decide) (Nat.zero_le _) hcheck
    rw [Nat.zero_add] at hsum hfit
    have henc : ∀ x ∈ items, (encodeDmeasureProcess x).length ≤ x.itemSize := by
      intro x _
      rw [length_encodeDmeasureProcess]
      exact (itemSize_bounds x).1
    have hlength := @length_pack _ (fun _ => 0) _ _ 0 _ henc
    have hlen : (UInt32.ofNat (items.map DmeasureProcessItemUser.itemSize).sum).toNat =
        (items.map DmeasureProcessItemUser.itemSize).sum :=
      UInt32.toNat_ofNat_of_lt' (show _ < 2 ^ 32 by omega)
    have hcount : (UInt32.ofNat items.length).toNat = items.length :=
      UInt32.toNat_ofNat_of_lt' (show _ < 2 ^ 32 by omega)
    have hmax : maxProcessDmeasurePolicyItemSize = 268 := rfl
    refine ⟨?_, ?_, ?_⟩
    · dsimp only
      rw [hlength, hmax]
      omega
    · dsimp only
      rw [hlength, hlen]
    · have hread := @unpack_pack _ _ _ (fun _ => 0) _ _ 0 0 _ _ [] _ _ henc
        (fun x _ => @readsBack_encodeDmeasureProcess x _ hsum) (by rw [Nat.zero_add])
      rw [List.append_nil] at hread
      dsimp only [DmeasureItems.ReadBack]
      rw [hlen, hcount, int32_eq (by omega) (by omega)]
      exact hread

end Either

/-- **A list round-trips exactly when the items of a system list have one type** and the list is
not larger than an `int`.  A list for the processes always does. -/
theorem dmeasure_round_trip_iff {x : DmeasureItems} {u : DmeasureUpdate} {tpcmId : Bytes} {action : UInt32}
    {replayCounter : UInt64} (hnum : x.num < 2 ^ 31) (h : x.prepare tpcmId action replayCounter = .ok u) :
    x.RoundTrips u ↔ x.OneType := by
  cases x with
  | policy items => exact policy_round_trip_iff hnum h
  | process items => exact iff_of_true (process_round_trips hnum h) trivial

/-- A process item without an object id, and one with an id of five bytes. -/
def sampleDmeasureProcesses : List DmeasureProcessItemUser :=
  [⟨1, 2, 3, 4, 500, 0, [], rfl⟩, ⟨1, 0, 0, 1, 60000, 5, [1, 2, 3, 4, 5], rfl⟩]

theorem dmeasure_round_trip_iff_processes :
    ∃ u, (DmeasureItems.process sampleDmeasureProcesses).prepare [9] 0 5 = .ok u ∧
      (DmeasureItems.process sampleDmeasureProcesses).RoundTrips u := by
  have hcheck : checkDmeasureProcess sampleDmeasureProcesses.length 0 sampleDmeasureProcesses = none := by
    decide +kernel
  obtain ⟨u, h⟩ : ∃ u, (DmeasureItems.process sampleDmeasureProcesses).prepare [9] 0 5 = .ok u := by
    rw [DmeasureItems.prepare, tcfPrepareUpdateDmeasureProcessPolicy, if_neg (by decide), hcheck]
    exact ⟨_, rfl⟩
  exact ⟨u, h, (dmeasure_round_trip_iff (by decide) h).mpr trivial⟩

/-- Two items of different types. -/
def sampleDmeasureItems : List DmeasurePolicyItemUser :=
  [⟨some ⟨[97], by decide⟩, 0, 100⟩, ⟨some ⟨[98], by decide⟩, 1, 200⟩]

/-- **The second item comes back with the type of the first.** -/
theorem second_type_lost :
    ∃ u, (DmeasureItems.policy sampleDmeasureItems).prepare [9] 0 5 = .ok u ∧
      tcfGetDmeasurePolicy u.data u.itemNumber.toNat =
        .ok [⟨some ⟨[97], by decide⟩, 0, 100⟩, ⟨some ⟨[98], by decide⟩, 0, 200⟩] ∧
      ¬ (DmeasureItems.policy sampleDmeasureItems).RoundTrips u := by
  obtain ⟨u, h, hread⟩ : ∃ u, (DmeasureItems.policy sampleDmeasureItems).prepare [9] 0 5 = .ok u ∧
      tcfGetDmeasurePolicy u.data u.itemNumber.toNat =
        .ok [⟨some ⟨[97], by decide⟩, 0, 100⟩, ⟨some ⟨[98], by decide⟩, 0, 200⟩] :=
    ⟨_, rfl, by decide +kernel⟩
  refine ⟨u, h, hread, fun hround => ?_⟩
  have hback := hround.readBack
  rw [DmeasureItems.ReadBack, hread] at hback
  exact absurd hback (by decide)

end Tcf
end TsbAgent
