/-
# Interrupted updates of the two policies

What `tcs_update_file_protect_policy` and `tcs_update_network_control_policy` are to write, as a
rewrite (`TsbAgent.Tcs.PolicyRewrite`): none where they return before the first write.

| action | `data` | `item` |
| --- | --- | --- |
| set | the given items | |
| add | the stored items | the given ones |
| delete | the stored items that no given one matches | |

`interrupted_rewrite_iff` says which failures the policy file survives.  There is one that leaves the
old policy, and it is the one before anything has happened; a failure that is noticed later has
destroyed the old policy and not finished the new one.
-/

import TsbAgent.Tcs.PolicyRewrite

namespace TsbAgent
namespace Tcs
namespace PolicyRewrite

open Libc Word Packed Httcutils
open File (Stream)
open NetworkControl (NetworkIo NetworkData NetworkUpdate storedBuffer offsetsFrom savedItem
  tcsUpdateNetworkControlPolicy)

/-! ### The updates -/

/-- An update, with what the system grants it. -/
inductive Update
  | fileProtect (io : ProtectIo) (u : ProtectUpdate)
  | network (io : NetworkIo) (u : NetworkUpdate)

/-- What `httc_set_file_protect_policy` is to write, if it comes to that. -/
def fileProtectSet (d : ProtectData) : Option Rewrite :=
  if ¬ checkBuffer (d.item ++ d.after) (int32 d.item.length) d.num then none
  else some ⟨int32 d.item.length, d.num, d.item, []⟩

/-- The same for `httc_add_file_protect_policy`. -/
def fileProtectAdd (io : ProtectIo) (file : Option Bytes) (d : ProtectData) : Option Rewrite :=
  if d.num = 0 then none
  else if ¬ checkBuffer (d.item ++ d.after) (int32 d.item.length) d.num then none
  else
    (httcUtilFileReadFull io.read file).bind fun buffer =>
        if ¬ checkStored buffer io.heap then none
        else if (storedItems buffer io.heap).any fun p => (givenItems d).any (sameItem p) then none
        else
          some ⟨int32 (buffer.length + d.item.length), int32 (intAt (buffer ++ io.heap) 4 + d.num),
            buffer.drop 8, d.item⟩

/-- The same for `httc_delete_file_protect_policy`. -/
def fileProtectDelete (io : ProtectIo) (file : Option Bytes) (d : ProtectData) : Option Rewrite :=
  if d.num = 0 then none
  else if ¬ checkBuffer (d.item ++ d.after) (int32 d.item.length) d.num then none
  else
    (httcUtilFileReadFull io.read file).bind fun buffer =>
        if ¬ io.malloc then none
        else if ¬ checkStored buffer io.heap then none
        else
          let items := storedItems buffer io.heap
          let deleted := items.countP fun p => (givenItems d).any (sameItem p)
          let data := (items.map (keptItem d)).flatten
          some ⟨int32 data.length, int32 (intAt (buffer ++ io.heap) 4 - deleted), data, []⟩

/-- What `tcs_update_file_protect_policy` is to write. -/
def fileProtectRewrite (io : ProtectIo) (file : Option Bytes) (u : ProtectUpdate) : Option Rewrite :=
  if ¬ u.sizeOk ∨ io.cert ≠ none ∨ io.verify ≠ none then none
  else
    match u.action with
    | .set => fileProtectSet u.args
    | .add => fileProtectAdd io file u.args
    | .delete => fileProtectDelete io file u.args
    | .other => none

/-- What `httc_set_network_control_policy` is to write, if it comes to that. -/
def networkSet (d : NetworkData) : Option Rewrite :=
  if ¬ d.buffer.Accepted then none else some ⟨int32 d.item.length, d.num, d.item, []⟩

/-- The same for `httc_add_network_control_policy`. -/
def networkAdd (io : NetworkIo) (file : Option Bytes) (d : NetworkData) : Option Rewrite :=
  if d.num = 0 then none
  else if ¬ d.buffer.Accepted then none
  else
    (httcUtilFileReadFull io.read file).bind fun buffer =>
        let m := io.around.hold buffer
        let number := m.int 4
        if ¬ (storedBuffer io.around buffer).Accepted then none
        else if (offsetsFrom m number.toNat 8).any fun o => d.names (m.item o) then none
        else some ⟨int32 (buffer.length + d.item.length), int32 (number + d.num), buffer.drop 8, d.item⟩

/-- What a deletion leaves of the `number` stored items. -/
def networkLeft (d : NetworkData) (m : NetworkControl.Memory) (number : ℤ) : Option Rewrite :=
  let offsets := offsetsFrom m number.toNat 8
  let deleted := offsets.countP fun o => d.names (m.item o)
  ((offsets.filter fun o => ¬ d.names (m.item o)).mapM (savedItem m)).map fun saved =>
    ⟨int32 saved.flatten.length, int32 (number - deleted), saved.flatten, []⟩

/-- The same for `httc_delete_network_control_policy`. -/
def networkDelete (io : NetworkIo) (file : Option Bytes) (d : NetworkData) : Option Rewrite :=
  if d.num = 0 then none
  else if ¬ d.buffer.Accepted then none
  else
    (httcUtilFileReadFull io.read file).bind fun buffer =>
        if ¬ io.malloc then none
        else if ¬ (storedBuffer io.around buffer).Accepted then none
        else networkLeft d (io.around.hold buffer) ((io.around.hold buffer).int 4)

/-- What `tcs_update_network_control_policy` is to write. -/
def networkRewrite (io : NetworkIo) (file : Option Bytes) (u : NetworkUpdate) : Option Rewrite :=
  if ¬ u.sizeOk ∨ io.cert ≠ none ∨ io.verify ≠ none then none
  else
    match u.action with
    | .set => networkSet u.args
    | .add => networkAdd io file u.args
    | .delete => networkDelete io file u.args
    | .other => none

namespace Update

/-- The policy that is updated. -/
def policy : Update → Policy
  | fileProtect _ _ => .fileProtect
  | network _ _ => .network

/-- What is to be written. -/
def rewrite (c : Update) (file : Option Bytes) : Option Rewrite :=
  match c with
  | fileProtect io u => fileProtectRewrite io file u
  | network io u => networkRewrite io file u

/-- Room for all the bytes that are to be written. -/
def room (c : Update) (file : Option Bytes) : ℕ :=
  (c.rewrite file).elim 0 fun r => 4 + (r.data.length + r.item.length)

/-- The file after an update in which one write meets such a stream. -/
def interrupted (c : Update) (file : Option Bytes) (w : Write) (s : Stream) : Option Bytes :=
  match c with
  | fileProtect io u => (tcsUpdateFileProtectPolicy (failing io (c.room file) w s) file u).2
  | network io u =>
      (tcsUpdateNetworkControlPolicy ⟨failing io.toProtectIo (c.room file) w s, io.around⟩ file u).2

/-- The file after an update in which no write fails. -/
def completed (c : Update) (file : Option Bytes) : Option Bytes :=
  c.interrupted file .size ⟨true, c.room file, 0⟩

end Update

/-- **The file has recovered:** the update makes a new list when nothing fails, and the file decodes
to the old one or to the new one. -/
def Recovers (c : Update) (file : Option Bytes) (old : List Bytes) (w : Write) (s : Stream) : Prop :=
  ∃ new, Decodes c.policy (c.completed file) new ∧
    (Decodes c.policy (c.interrupted file w s) old ∨ Decodes c.policy (c.interrupted file w s) new)

/-! ### The updates as rewrites -/

section Updates

variable {io : ProtectIo} {file : Option Bytes} {f buffer : Bytes} {r : Rewrite} {size num : ℤ} {data item : Bytes}

theorem writeOffset_nil {s : Stream} {off : ℕ} : (httcUtilFileWriteOffset s file [] off).2 = file := by
  cases file with
  | none => rfl
  | some f =>
      cases hopens : s.opens with
      | false => simp [httcUtilFileWriteOffset, hopens]
      | true => simp [httcUtilFileWriteOffset, hopens, Stream.kept]

/-- A rewrite of the size, the number and the data alone. -/
theorem writeProtected_eq_write :
    (writeProtected io file size num data).2 = (⟨size, num, data, []⟩ : Rewrite).write io file := by
  rw [Rewrite.write]
  rcases writeProtected io file size num data with ⟨ret, file₁⟩
  cases ret with
  | some e => rfl
  | none => exact writeOffset_nil.symm

/-- What an addition goes on with: the new items, at an offset. -/
def thenItem (io : ProtectIo) (item : Bytes) (off : ℕ) :
    Option TssErr × Option Bytes → Option TssErr × Option Bytes
  | (some e, file) => (some e, file)
  | (none, file) =>
      match httcUtilFileWriteOffset io.writeItem file item off with
      | (x, file') => if x ≠ item.length then (some .write, file') else (none, file')

/-- A rewrite that goes on with new items behind the old ones. -/
theorem thenItem_eq_write (hbuffer : 8 ≤ buffer.length) :
    (thenItem io item buffer.length (writeProtected io file size num (buffer.drop 8))).2 =
      (⟨size, num, buffer.drop 8, item⟩ : Rewrite).write io file := by
  have hlength : 8 + (buffer.drop 8).length = buffer.length := by
    rw [List.length_drop]
    omega
  rw [Rewrite.write]
  rcases writeProtected io file size num (buffer.drop 8) with ⟨ret, file₁⟩
  cases ret with
  | some e => rfl
  | none =>
      simp only [thenItem, hlength]
      split_ifs <;> rfl

/-- The file after a rewrite, or without one. -/
def after (io : ProtectIo) (file : Option Bytes) (r : Option Rewrite) : Option Bytes :=
  r.elim file fun r => r.write io file

theorem fileProtectSet_eq (d : ProtectData) :
    (httcSetFileProtectPolicy io file d).2 = after io file (fileProtectSet d) := by
  rw [httcSetFileProtectPolicy, fileProtectSet]
  split_ifs with hcheck
  · exact writeProtected_eq_write
  · rfl

theorem fileProtectAdd_eq (hf : 8 ≤ f.length) (d : ProtectData) :
    (httcAddFileProtectPolicy io (some f) d).2 = after io (some f) (fileProtectAdd io (some f) d) := by
  rw [httcAddFileProtectPolicy, fileProtectAdd]
  cases hread : httcUtilFileReadFull io.read (some f) with
  | none => split_ifs <;> rfl
  | some buffer =>
      obtain ⟨-, -, -, rfl⟩ := httcUtilFileReadFull_eq_some.mp hread
      rw [Option.bind_some]
      dsimp only
      split_ifs with hnum hcheck hstored hsame
      · rfl
      · rfl
      · exact thenItem_eq_write hf
      · rfl
      · rfl

theorem fileProtectDelete_eq (d : ProtectData) :
    (httcDeleteFileProtectPolicy io file d).2 = after io file (fileProtectDelete io file d) := by
  rw [httcDeleteFileProtectPolicy, fileProtectDelete]
  cases hread : httcUtilFileReadFull io.read file with
  | none => split_ifs <;> rfl
  | some buffer =>
      rw [Option.bind_some]
      dsimp only
      split_ifs with hnum hcheck hmalloc hstored
      · rfl
      · exact writeProtected_eq_write
      · rfl
      · rfl
      · rfl

/-- **An update of the file protection policy** writes nothing or makes the rewrite. -/
theorem fileProtect_update_eq (hf : 8 ≤ f.length) (u : ProtectUpdate) :
    (tcsUpdateFileProtectPolicy io (some f) u).2 = after io (some f) (fileProtectRewrite io (some f) u) := by
  rw [tcsUpdateFileProtectPolicy, fileProtectRewrite]
  cases hsize : u.sizeOk with
  | false => simp [after]
  | true =>
      cases hcert : io.cert with
      | some e => simp [after]
      | none =>
          cases hverify : io.verify with
          | some e => simp [after]
          | none =>
              simp only [not_true_eq_false, if_false, ne_eq, or_self]
              cases haction : u.action with
              | set => exact fileProtectSet_eq u.args
              | add => exact fileProtectAdd_eq hf u.args
              | delete => exact fileProtectDelete_eq u.args
              | other => rfl

section Network

variable {io : NetworkIo} {file : Option Bytes} {f : Bytes}

theorem networkSet_eq (d : NetworkData) :
    (NetworkControl.httcSetNetworkControlPolicy io file d).2 = after io.toProtectIo file (networkSet d) := by
  rw [NetworkControl.httcSetNetworkControlPolicy, networkSet]
  split_ifs with hcheck
  · exact writeProtected_eq_write
  · rfl

theorem networkAdd_eq (hf : 8 ≤ f.length) (d : NetworkData) :
    (NetworkControl.httcAddNetworkControlPolicy io (some f) d).2 =
      after io.toProtectIo (some f) (networkAdd io (some f) d) := by
  rw [NetworkControl.httcAddNetworkControlPolicy, networkAdd]
  cases hread : httcUtilFileReadFull io.read (some f) with
  | none => split_ifs <;> rfl
  | some buffer =>
      obtain ⟨-, -, -, rfl⟩ := httcUtilFileReadFull_eq_some.mp hread
      rw [Option.bind_some]
      dsimp only
      split_ifs with hnum hcheck hstored hsame
      · rfl
      · rfl
      · exact thenItem_eq_write hf
      · rfl
      · rfl

theorem returned_snd (r : Option TssErr × Option Bytes) : (NetworkControl.returned r).2 = r.2 := rfl

theorem writeSaved_eq (num : ℤ) (saved : Option (List Bytes)) :
    (NetworkControl.writeSaved io file num saved).2 =
      after io.toProtectIo file (saved.map fun l => ⟨int32 l.flatten.length, num, l.flatten, []⟩) := by
  cases saved with
  | none => rfl
  | some l => exact writeProtected_eq_write

theorem networkLeft_eq (d : NetworkData) (m : NetworkControl.Memory) (number : ℤ) :
    (NetworkControl.deleteItems io file d m number).2 = after io.toProtectIo file (networkLeft d m number) :=
  writeSaved_eq _ _

theorem networkDelete_eq (d : NetworkData) :
    (NetworkControl.httcDeleteNetworkControlPolicy io file d).2 =
      after io.toProtectIo file (networkDelete io file d) := by
  rw [NetworkControl.httcDeleteNetworkControlPolicy, networkDelete]
  cases hread : httcUtilFileReadFull io.read file with
  | none => split_ifs <;> rfl
  | some buffer =>
      rw [Option.bind_some]
      dsimp only
      split_ifs with hnum hcheck hmalloc hstored
      · rfl
      · exact networkLeft_eq d _ _
      · rfl
      · rfl
      · rfl

/-- **An update of the network control policy** writes nothing or makes the rewrite. -/
theorem network_update_eq (hf : 8 ≤ f.length) (u : NetworkUpdate) :
    (tcsUpdateNetworkControlPolicy io (some f) u).2 =
      after io.toProtectIo (some f) (networkRewrite io (some f) u) := by
  rw [tcsUpdateNetworkControlPolicy, networkRewrite]
  cases hsize : u.sizeOk with
  | false => simp [after]
  | true =>
      cases hcert : io.cert with
      | some e => simp [after]
      | none =>
          cases hverify : io.verify with
          | some e => simp [after]
          | none =>
              simp only [not_true_eq_false, if_false, ne_eq, or_self]
              cases haction : u.action with
              | set => exact (returned_snd _).trans (networkSet_eq u.args)
              | add => exact (returned_snd _).trans (networkAdd_eq hf u.args)
              | delete => exact networkDelete_eq u.args
              | other => rfl

end Network

end Updates

/-! ### The updates, interrupted -/

/-- What the system grants an update. -/
def Update.io : Update → ProtectIo
  | fileProtect io _ => io
  | network io _ => io.toProtectIo

section Interrupted

variable {c : Update} {f : Bytes} {r : Rewrite} {w : Write} {s : Stream}

theorem interrupted_eq (hf : 8 ≤ f.length) :
    c.interrupted (some f) w s = after (failing c.io (c.room (some f)) w s) (some f) (c.rewrite (some f)) := by
  cases c with
  | fileProtect io u => exact fileProtect_update_eq hf u
  | network io u => exact network_update_eq hf u

theorem fileProtectSet_item {d : ProtectData} (h : fileProtectSet d = some r) : r.item = [] := by
  unfold fileProtectSet at h
  split_ifs at h
  obtain rfl := Option.some.inj h
  rfl

theorem networkSet_item {d : NetworkData} (h : networkSet d = some r) : r.item = [] := by
  unfold networkSet at h
  split_ifs at h
  obtain rfl := Option.some.inj h
  rfl

/-- The file that was read is the file. -/
theorem of_read {io : ReadIo} {g : Bytes → Option Rewrite}
    (h : (httcUtilFileReadFull io (some f)).bind g = some r) :
    g f = some r := by
  obtain ⟨buffer, hread, hg⟩ := Option.bind_eq_some_iff.mp h
  obtain ⟨-, -, -, rfl⟩ := httcUtilFileReadFull_eq_some.mp hread
  exact hg

theorem fileProtectAdd_data {io : ProtectIo} {d : ProtectData} (h : fileProtectAdd io (some f) d = some r) :
    r.data = f.drop 8 := by
  unfold fileProtectAdd at h
  split_ifs at h
  have hread := of_read h
  split_ifs at hread
  obtain rfl := Option.some.inj hread
  rfl

theorem networkAdd_data {io : NetworkIo} {d : NetworkData} (h : networkAdd io (some f) d = some r) :
    r.data = f.drop 8 := by
  unfold networkAdd at h
  split_ifs at h
  have hread := of_read h
  dsimp only at hread
  split_ifs at hread
  obtain rfl := Option.some.inj hread
  rfl

theorem fileProtectDelete_item {io : ProtectIo} {d : ProtectData} (h : fileProtectDelete io (some f) d = some r) :
    r.item = [] := by
  unfold fileProtectDelete at h
  split at h
  · exact absurd h (by simp)
  split at h
  · exact absurd h (by simp)
  have hread := of_read h
  split_ifs at hread
  obtain rfl := Option.some.inj hread
  rfl

theorem networkLeft_item {d : NetworkData} {m : NetworkControl.Memory} {number : ℤ}
    (h : networkLeft d m number = some r) : r.item = [] := by
  obtain ⟨saved, -, rfl⟩ := Option.map_eq_some_iff.mp h
  rfl

theorem networkDelete_item {io : NetworkIo} {d : NetworkData} (h : networkDelete io (some f) d = some r) :
    r.item = [] := by
  unfold networkDelete at h
  split at h
  · exact absurd h (by simp)
  split at h
  · exact absurd h (by simp)
  have hread := of_read h
  split_ifs at hread
  exact networkLeft_item hread

/-- Only an addition has new items, and the old ones before them. -/
theorem data_of_rewrite (h : c.rewrite (some f) = some r) (hitem : r.item ≠ []) : r.data = f.drop 8 := by
  cases c with
  | fileProtect io u =>
      rw [Update.rewrite, fileProtectRewrite] at h
      split_ifs at h
      cases haction : u.action with
      | set => exact absurd (fileProtectSet_item (by rwa [haction] at h)) hitem
      | add => exact fileProtectAdd_data (by rwa [haction] at h)
      | delete => exact absurd (fileProtectDelete_item (by rwa [haction] at h)) hitem
      | other => exact absurd h (by simp [haction])
  | network io u =>
      rw [Update.rewrite, networkRewrite] at h
      split_ifs at h
      cases haction : u.action with
      | set => exact absurd (networkSet_item (by rwa [haction] at h)) hitem
      | add => exact networkAdd_data (by rwa [haction] at h)
      | delete => exact absurd (networkDelete_item (by rwa [haction] at h)) hitem
      | other => exact absurd h (by simp [haction])

/-- **Which failures a policy file survives.**  For every stored policy, every update and every write
that fails in whatever way: the update makes a new list and the file decodes to the old list or to
the new one exactly when nothing is to be written, or what is to be written is items and nothing
else and the first write does not even open the file, or the write goes unnoticed and has lost
nothing, or only bytes of the size or zeros, and is followed by others. -/
theorem interrupted_rewrite_iff (c : Update) {file : Option Bytes} {old : List Bytes}
    (h : Decodes c.policy file old) (w : Write) (s : Stream) :
    Recovers c file old w s ↔
      ∀ r ∈ c.rewrite file, r.Sound c.policy ∧ (w = .size ∧ s.opens = false ∨ r.Harmless w s) := by
  obtain ⟨⟨f, rfl, hf⟩, -, -⟩ := h
  rw [Recovers, Update.completed, interrupted_eq hf.header, interrupted_eq hf.header]
  cases hr : c.rewrite (some f) with
  | none =>
      have hsame : Decodes c.policy (some f) old := decodes_iff_holds.mpr hf
      exact ⟨fun _ r hr => absurd hr (by simp), fun _ => ⟨old, hsame, .inl hsame⟩⟩
  | some r =>
      have hroom : c.room (some f) = 4 + (r.data.length + r.item.length) := by
        rw [Update.room, hr]
        rfl
      have hadd : r.item ≠ [] → old.flatten.length = r.data.length := fun hitem => by
        rw [data_of_rewrite hr hitem, hf.data]
      refine (rewrite_recovers_iff hf hadd hroom.ge).trans ?_
      simp only [Option.mem_def, Option.some.injEq, forall_eq']

end Interrupted

/-- The file with the items of these letters. -/
def lettersFile (size : ℤ) (letters : List UInt8) : Bytes :=
  intBytes size ++ (intBytes letters.length ++ (letters.map letterItem).flatten)

theorem lettersFile_holds {size : ℤ} {letters : List UInt8} (h : letters.length < 100000) :
    HoldsItems (Policy.IsItem .fileProtect) (lettersFile size letters) (letters.map letterItem) := by
  have hitem (letter : UInt8) : (letterItem letter).length = 260 := by
    rw [letterItem, List.length_append, List.length_replicate, List.length_cons, List.length_replicate]
  have hflat : (letters.map letterItem).flatten.length = 260 * letters.length := by
    simp [List.length_flatten, Function.comp_def, hitem, Nat.mul_comm]
  refine ⟨?_, ?_, ?_, ?_, fun c hc => ?_⟩
  · simp only [lettersFile, List.length_append, length_intBytes]
    omega
  · simp only [lettersFile, List.length_append, length_intBytes, hflat, maxFileSize]
    omega
  · rw [lettersFile, intAt_append length_intBytes (by omega) (by omega), Int.toNat_natCast, List.length_map]
  · rw [lettersFile, ← List.append_assoc]
    exact List.drop_left' (by simp)
  · obtain ⟨letter, -, rfl⟩ := List.mem_map.mp hc
    have hnum : privilegedProcessNum (letterItem letter) = 0 := rfl
    show (letterItem letter).length = itemSize (letterItem letter)
    rw [hitem, itemSize, hnum, Nat.zero_mul, Nat.add_zero, sizeofFileProtectItem]

/-- An addition of the item of `b`. -/
def addLetter : Update := .fileProtect grantedIo ⟨true, .add, 1, letterItem 98, []⟩

theorem addLetter_rewrite :
    addLetter.rewrite (some (lettersFile 260 [97])) = some ⟨528, 2, letterItem 97, letterItem 98⟩ := by
  decide +kernel

/-- If the file cannot be opened for the size, the old policy is left. -/
theorem unopened_size_recovers :
    Recovers addLetter (some (lettersFile 260 [97])) [letterItem 97] .size ⟨false, 0, 0⟩ := by
  have hstored : Decodes .fileProtect (some (lettersFile 260 [97])) [letterItem 97] :=
    decodes_iff_holds.mpr (lettersFile_holds (by decide))
  refine (interrupted_rewrite_iff addLetter hstored .size ⟨false, 0, 0⟩).mpr fun r hr => ⟨?_, .inl ⟨rfl, rfl⟩⟩
  obtain rfl := Option.some.inj (addLetter_rewrite.symm.trans hr)
  have hwhole : Rewrite.whole ⟨528, 2, letterItem 97, letterItem 98⟩ = lettersFile 528 [97, 98] := by
    decide +kernel
  rw [Rewrite.Sound, hwhole]
  exact ⟨_, lettersFile_holds (by decide)⟩

/-- **If it cannot be opened for the data, both policies are lost:** the size and the number of two
items are left, and the reader rejects the file. -/
theorem unopened_data_loses_policy :
    Decodes .fileProtect (some (lettersFile 260 [97])) [letterItem 97] ∧
      addLetter.interrupted (some (lettersFile 260 [97])) .data ⟨false, 0, 0⟩ = some (intBytes 528 ++ intBytes 2) ∧
      ¬ Recovers addLetter (some (lettersFile 260 [97])) [letterItem 97] .data ⟨false, 0, 0⟩ := by
  have hfile : addLetter.interrupted (some (lettersFile 260 [97])) .data ⟨false, 0, 0⟩ =
      some (intBytes 528 ++ intBytes 2) := by
    decide +kernel
  refine ⟨decodes_iff_holds.mpr (lettersFile_holds (by decide)), hfile, ?_⟩
  have hlost : ∀ l, ¬ HoldsItems (Policy.IsItem .fileProtect) (intBytes 528 ++ intBytes 2) l := by
    intro l
    refine not_holds_of_part (@lettersFile_holds 528 [97, 98] (by decide)) ⟨letterItem 97 ++ letterItem 98, ?_⟩ ?_
    · decide +kernel
    · decide +kernel
  rintro ⟨new, -, hF⟩
  rw [hfile] at hF
  exact hF.elim (fun h => hlost _ (decodes_iff_holds.mp h)) fun h => hlost _ (decodes_iff_holds.mp h)

end PolicyRewrite
end Tcs
end TsbAgent
