/-
# The store of the network control policy

`tcs_update_network_control_policy` and `tcs_get_network_control_policy` of
`tss-main/tcs/tcsapi/tcsu/tcs_network_control.c`.  The file is laid out and written as the one of
the file protection policy (`TsbAgent.Tcs.FileProtect`): a size, a count and the items; what
differs are the items (`TsbAgent.Tcs.NetworkControl`).

A deletion copies the items that it keeps with the length of each made an `int`.  A negative one
`memcpy` takes for a huge one, and the process ends there; nothing has been written then.

On a file that holds items and nothing else the check and the reader agree with the list
(`accepted_of_items`, `get_of_items`).
-/

import TsbAgent.Tcs.FileProtect
import TsbAgent.Tcs.NetworkControl

namespace TsbAgent
namespace Tcs

open Libc Word Packed Records Httcutils

namespace NetworkControl

/-! ### The functions -/

/-- The memory with the bytes of a buffer at its start. -/
def Memory.hold (m : Memory) (b : Bytes) : Memory := fun o =>
  if 0 ≤ o ∧ o < b.length then b.getD o.toNat 0 else m o

/-- `*(int *)(buffer + offset)`. -/
def Memory.int (m : Memory) (offset : ℤ) : ℤ := int32 (ofHost ((m.item offset).bytes 0 4))

/-- What the system grants an update, and the memory around the file that was read. -/
structure NetworkIo extends ProtectIo where
  around : Memory

/-- The data of an update, with the memory around them. -/
structure NetworkData where
  item : Bytes
  around : Memory
  num : ℤ

/-- The given items. -/
def NetworkData.buffer (d : NetworkData) : NetBuffer := ⟨d.around.hold d.item, int32 d.item.length, d.num⟩

/-- The stored items, in the file that was read. -/
def storedBuffer (around : Memory) (buffer : Bytes) : NetBuffer :=
  ⟨fun o => around.hold buffer (8 + o), int32 ((buffer.length : ℤ) - 8), (around.hold buffer).int 4⟩

/-- The offsets of `n` items, from the first one on. -/
def offsetsFrom (m : Memory) (n : ℕ) (offset : ℤ) : List ℤ := (List.range n).map fun i => (nextOffset m)^[i] offset

/-- An item is one of the given ones. -/
def NetworkData.names (d : NetworkData) (cur : Mem) : Bool :=
  (offsetsFrom d.buffer.mem d.num.toNat 0).any fun o => (httcFindSameItem cur (d.buffer.mem.item o)).1 = 0

/-- `httc_set_network_control_policy`. -/
def httcSetNetworkControlPolicy (io : NetworkIo) (file : Option Bytes) (d : NetworkData) :
    Option TssErr × Option Bytes :=
  if ¬ d.buffer.Accepted then (some .parameter, file)
  else writeProtected io.toProtectIo file (int32 d.item.length) d.num d.item

/-- `httc_add_network_control_policy`. -/
def httcAddNetworkControlPolicy (io : NetworkIo) (file : Option Bytes) (d : NetworkData) :
    Option TssErr × Option Bytes :=
  if d.num = 0 then (none, file)
  else if ¬ d.buffer.Accepted then (some .parameter, file)
  else
    match httcUtilFileReadFull io.read file with
    | none => (some .read, file)
    | some buffer =>
        let m := io.around.hold buffer
        let number := m.int 4
        if ¬ (storedBuffer io.around buffer).Accepted then (some .parameter, file)
        else if (offsetsFrom m number.toNat 8).any fun o => d.names (m.item o) then (some .parameter, file)
        else
          match writeProtected io.toProtectIo file (int32 (buffer.length + d.item.length))
            (int32 (number + d.num)) (buffer.drop 8) with
          | (some e, file₁) => (some e, file₁)
          | (none, file₁) =>
              match httcUtilFileWriteOffset io.writeItem file₁ d.item buffer.length with
              | (r, file₂) => if r ≠ d.item.length then (some .write, file₂) else (none, file₂)

/-- What a deletion copies of the item at an offset; the size is a multiple of four. -/
def savedItem (m : Memory) (offset : ℤ) : Option Bytes :=
  let saveLength := int32 (sizeofNetworkConfigItem + totalNum (m.item offset) * sizeofIpConfig)
  if saveLength < 0 then none
  else some ((m.item (nextOffset m offset - saveLength)).bytes 0 saveLength.toNat)

/-- A function that returns, with what it returns. -/
def returned (r : Option TssErr × Option Bytes) : Option (Option TssErr) × Option Bytes := (some r.1, r.2)

/-- What a deletion writes once it has copied the items. -/
def writeSaved (io : NetworkIo) (file : Option Bytes) (num : ℤ) :
    Option (List Bytes) → Option (Option TssErr) × Option Bytes
  | none => (none, file)
  | some saved =>
      returned (writeProtected io.toProtectIo file (int32 saved.flatten.length) num saved.flatten)

/-- The loop of a deletion over the `number` stored items, and the writes. -/
def deleteItems (io : NetworkIo) (file : Option Bytes) (d : NetworkData) (m : Memory) (number : ℤ) :
    Option (Option TssErr) × Option Bytes :=
  let offsets := offsetsFrom m number.toNat 8
  let deleted := offsets.countP fun o => d.names (m.item o)
  writeSaved io file (int32 (number - deleted))
    ((offsets.filter fun o => ¬ d.names (m.item o)).mapM (savedItem m))

/-- `httc_delete_network_control_policy`: what it returns, if it does, and the file. -/
def httcDeleteNetworkControlPolicy (io : NetworkIo) (file : Option Bytes) (d : NetworkData) :
    Option (Option TssErr) × Option Bytes :=
  if d.num = 0 then (some none, file)
  else if ¬ d.buffer.Accepted then (some (some .parameter), file)
  else
    match httcUtilFileReadFull io.read file with
    | none => (some (some .read), file)
    | some buffer =>
        if ¬ io.malloc then (some (some .nomem), file)
        else if ¬ (storedBuffer io.around buffer).Accepted then (some (some .parameter), file)
        else deleteItems io file d (io.around.hold buffer) ((io.around.hold buffer).int 4)

/-- `struct network_control_update`: `sizeOk` says whether `be_size` is the size of the
structure. -/
structure NetworkUpdate where
  sizeOk : Bool
  action : ProtectAction
  num : UInt32
  data : Bytes
  around : Memory

/-- The arguments that the three functions get. -/
def NetworkUpdate.args (u : NetworkUpdate) : NetworkData := ⟨u.data, u.around, int32 u.num.toNat⟩

/-- `tcs_update_network_control_policy`. -/
def tcsUpdateNetworkControlPolicy (io : NetworkIo) (file : Option Bytes) (u : NetworkUpdate) :
    Option (Option TssErr) × Option Bytes :=
  if ¬ u.sizeOk then (some (some .parameter), file)
  else
    match io.cert, io.verify with
    | some e, _ => (some (some e), file)
    | none, some e => (some (some e), file)
    | none, none =>
        match u.action with
        | .set => returned (httcSetNetworkControlPolicy io file u.args)
        | .add => returned (httcAddNetworkControlPolicy io file u.args)
        | .delete => httcDeleteNetworkControlPolicy io file u.args
        | .other => (some (some .notSupport), file)

/-- The loop of `tcs_get_network_control_policy`, which compares its `int` with a length of 64 bits. -/
def getLoop (m : Memory) (dataLen : ℕ) : ℕ → ℤ → Bool
  | 0, _ => true
  | n + 1, offset =>
      if sizeT (int32 (offset + sizeofNetworkConfigItem)) > dataLen then false
      else if sizeT (nextOffset m offset) > dataLen then false
      else getLoop m dataLen n (nextOffset m offset)

/-- `tcs_get_network_control_policy`. -/
def tcsGetNetworkControlPolicy (io : ReadIo) (around : Memory) (malloc : Bool) (file : Option Bytes) :
    Except TssErr GotPolicy :=
  if File.size file = 0 then .ok ⟨[], 0⟩
  else
    match httcUtilFileReadFull io file with
    | none => .error .read
    | some data =>
        let b := storedBuffer around data
        if ¬ b.Accepted then .error .parameter
        else if ¬ malloc then .error .nomem
        else if ¬ getLoop (around.hold data) data.length b.num.toNat 8 then .error .parameter
        else .ok ⟨data.drop 8, b.num⟩

/-! ### Items as bytes -/

/-- What an item takes by its header. -/
def itemLength (c : Bytes) : ℕ := itemBytes fun k => c.getD k 0

/-- An item with all its ranges. -/
def IsItem (c : Bytes) : Prop := c.length = itemLength c

section Items

variable {m : Memory} {c f r : Bytes} {l : List Bytes} {i : ℕ}

/-- The number is in four bytes of the header. -/
theorem itemBytes_congr {p q : Mem} (h : ∀ k < 8, p k = q k) : itemBytes p = itemBytes q := by
  have hnum : p.ntohl 4 = q.ntohl 4 := by
    rw [Mem.ntohl, Mem.ntohl, Mem.ntohs, Mem.ntohs, Mem.ntohs, Mem.ntohs, h 4 (by decide), h 5 (by decide),
      h 6 (by decide), h 7 (by decide)]
  rw [itemBytes, itemBytes, totalNum, totalNum, hnum]

theorem IsItem.le_length (h : IsItem c) : 8 ≤ c.length := by
  rw [h, itemLength, itemBytes, sizeofNetworkConfigItem]
  omega

theorem IsItem.sized (h : IsItem c) : Sized id itemLength c where
  size_eq r := by
    have hlen := h.le_length
    refine Eq.trans ?_ h.symm
    refine itemBytes_congr fun k hk => ?_
    rw [id, List.getD_eq_getElem?_getD, List.getD_eq_getElem?_getD, List.getElem?_append_left (by omega)]
  pos := by
    have hlen := h.le_length
    change 0 < c.length
    omega

theorem hold_natCast {o : ℕ} (h : o < f.length) : m.hold f o = f.getD o 0 := by
  rw [Memory.hold, if_pos ⟨by omega, by omega⟩, Int.toNat_natCast]

/-- The number of the file does not depend on the memory around it. -/
theorem int_hold (h : 8 ≤ f.length) : (m.hold f).int 4 = intAt f 4 := by
  refine congrArg (fun b => int32 (ofHost b)) (List.ext_getElem ?_ fun i h₁ h₂ => ?_)
  · rw [Mem.length_bytes, fieldAt, List.length_take, List.length_drop]
    omega
  · rw [Mem.length_bytes] at h₁
    have hcast : (4 : ℤ) + ((0 + i : ℕ) : ℤ) = (4 + i : ℕ) := by omega
    simp only [Mem.bytes, fieldAt, List.getElem_map, List.getElem_range, List.getElem_take, List.getElem_drop]
    rw [Memory.item, hcast, hold_natCast (by omega), List.getD_eq_getElem?_getD,
      List.getElem?_eq_getElem (by omega)]
    simp only [Option.getD_some]

end Items

/-! ### A file of items -/

/-- The file holds network control items. -/
abbrev Held (f : Bytes) (l : List Bytes) : Prop := HoldsItems IsItem f l

section Held

variable {m : Memory} {c f : Bytes} {l pre post : List Bytes} {i : ℕ}

theorem Held.num_eq (h : Held f l) : (storedBuffer m f).num.toNat = l.length := by
  rw [storedBuffer, int_hold h.header, h.count]

theorem Held.bufferLength_eq (h : Held f l) : (storedBuffer m f).length = l.flatten.length := by
  have hsmall := h.small
  have hlength := h.length_eq
  rw [maxFileSize] at hsmall
  change int32 ((f.length : ℤ) - 8) = _
  rw [int32_eq (by omega) (by omega)]
  omega

/-- What the header of an item says is its length. -/
theorem Held.itemBytes_eq (h : Held f (pre ++ c :: post)) :
    itemBytes ((storedBuffer m f).mem.item pre.flatten.length) = c.length := by
  have hc := h.items c (by simp)
  have hclen := hc.le_length
  have hlength := h.length_eq
  have hflat : (pre ++ c :: post).flatten = pre.flatten ++ (c ++ post.flatten) := by simp
  rw [hflat, List.length_append, List.length_append] at hlength
  refine Eq.trans (itemBytes_congr fun k hk => ?_) hc.symm
  have hcast : (8 : ℤ) + ((pre.flatten.length : ℤ) + (k : ℤ)) = (8 + (pre.flatten.length + k) : ℕ) := by omega
  have hdrop : f.getD (8 + (pre.flatten.length + k)) 0 = (f.drop 8).getD (pre.flatten.length + k) 0 := by
    simp only [List.getD_eq_getElem?_getD, List.getElem?_drop]
  change m.hold f (8 + ((pre.flatten.length : ℤ) + (k : ℤ))) = _
  rw [hcast, hold_natCast (by omega), hdrop, h.data, hflat,
    List.getD_eq_getElem?_getD, List.getD_eq_getElem?_getD, List.getElem?_append_right (by omega),
    Nat.add_sub_cancel_left, List.getElem?_append_left (by omega)]

/-- The items are where those before them end. -/
theorem Held.place_eq (h : Held f l) (hi : i ≤ l.length) :
    (storedBuffer m f).place i = (l.take i).flatten.length := by
  induction i with
  | zero => rfl
  | succ i ih =>
      have hsplit : l = l.take i ++ l[i] :: l.drop (i + 1) := by
        rw [← List.drop_eq_getElem_cons hi, List.take_append_drop]
      have hitem := @Held.itemBytes_eq m _ _ _ _ (hsplit ▸ h)
      rw [NetBuffer.place_succ, ih (by omega), hitem, ← List.take_append_getElem hi, List.flatten_append,
        List.length_append, List.flatten_singleton]

theorem Held.place_le (h : Held f l) (hi : i ≤ l.length) : (storedBuffer m f).place i ≤ l.flatten.length := by
  have hall := @Held.place_eq m _ _ _ h le_rfl
  have hmono := (storedBuffer m f).place_mono hi
  rw [List.take_length] at hall
  omega

theorem Held.tiled (h : Held f l) : (storedBuffer m f).Tiled := by
  rw [NetBuffer.Tiled, h.num_eq, h.place_eq le_rfl, List.take_length, h.bufferLength_eq]

theorem Held.bounded (h : Held f l) : (storedBuffer m f).Bounded := by
  intro i hi _
  rw [h.num_eq] at hi
  have hle := @Held.place_le m _ _ _ h hi
  have hsmall := h.small
  have hlength := h.length_eq
  rw [maxFileSize] at hsmall
  rw [h.bufferLength_eq]
  rw [NetBuffer.place_succ, itemBytes] at hle ⊢
  omega

/-- **The check passes**, whatever is around the file in memory. -/
theorem accepted_of_items (h : Held f l) (m : Memory) : (storedBuffer m f).Accepted :=
  (NetBuffer.validated_iff.mpr h.bounded).exact.mpr h.tiled

/-- The offsets of the reader, which count the header of the file. -/
theorem Held.iterate_eq (h : Held f l) (hi : i ≤ l.length) :
    (nextOffset (m.hold f))^[i] 8 = 8 + (storedBuffer m f).place i := by
  induction i with
  | zero => rfl
  | succ i ih =>
      have hle := @Held.place_le m _ _ _ h hi
      have hsmall := h.small
      have hlength := h.length_eq
      rw [maxFileSize] at hsmall
      have hsame : itemBytes ((m.hold f).item (8 + (storedBuffer m f).place i)) =
          itemBytes ((storedBuffer m f).mem.item ((storedBuffer m f).place i)) := by
        refine itemBytes_congr fun k _ => ?_
        rw [Memory.item, Memory.item, Int.add_assoc]
        rfl
      rw [NetBuffer.place_succ] at hle ⊢
      rw [Function.iterate_succ_apply', ih (by omega), NetBuffer.nextOffset_eq (by omega) (by rw [hsame]; omega),
        hsame]
      omega

/-- The loop of the reader runs to its end. -/
theorem getLoop_eq_true {dataLen n : ℕ} {o : ℤ} (hlen : dataLen < 2 ^ 31)
    (h : ∀ i < n, 0 ≤ (nextOffset m)^[i] o ∧ (nextOffset m)^[i] o + 8 ≤ dataLen ∧
      0 ≤ (nextOffset m)^[i + 1] o ∧ (nextOffset m)^[i + 1] o ≤ dataLen) : getLoop m dataLen n o = true := by
  induction n generalizing o with
  | zero => rfl
  | succ n ih =>
      obtain ⟨h₀, h₁, h₂, h₃⟩ := h 0 (Nat.succ_pos n)
      have hrest := @ih (nextOffset m o) fun i hi => h (i + 1) (by omega)
      change 0 ≤ o at h₀
      change o + 8 ≤ dataLen at h₁
      change 0 ≤ nextOffset m o at h₂
      change nextOffset m o ≤ dataLen at h₃
      have hheader : int32 (o + sizeofNetworkConfigItem) = o + 8 := int32_eq (by omega) (by
        rw [sizeofNetworkConfigItem]
        omega)
      rw [getLoop, hheader, if_neg (by rw [sizeT]; omega), if_neg (by rw [sizeT]; omega)]
      exact hrest

/-- **The reader gives the items**, and the number of the file. -/
theorem get_of_items {io : ReadIo} (h : Held f l) (hio : io.Granted) (m : Memory) :
    tcsGetNetworkControlPolicy io m true (some f) = .ok ⟨l.flatten, intAt f 4⟩ := by
  have hheader := h.header
  have hsmall := h.small
  have hlength := h.length_eq
  have hsize : File.size (some f) ≠ 0 := by
    change f.length ≠ 0
    omega
  have hloop : getLoop (m.hold f) f.length (storedBuffer m f).num.toNat 8 = true := by
    rw [maxFileSize] at hsmall
    refine getLoop_eq_true (by omega) fun i hi => ?_
    rw [h.num_eq] at hi
    have hle := @Held.place_le m _ _ _ h hi
    rw [h.iterate_eq hi.le, h.iterate_eq hi]
    rw [NetBuffer.place_succ, itemBytes, sizeofNetworkConfigItem] at hle ⊢
    omega
  rw [tcsGetNetworkControlPolicy, if_neg hsize, h.read_eq hio]
  dsimp only
  rw [if_neg (not_not.mpr (accepted_of_items h m)), hloop, if_neg (by simp), if_neg (by simp), h.data]
  rw [storedBuffer, int_hold hheader]

end Held

end NetworkControl
end Tcs
end TsbAgent
