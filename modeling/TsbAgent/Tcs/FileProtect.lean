/-
# The store of the file protection policy

`file_protect.data` is a size, a count and the items of the policy, packed.  An item is 260
bytes and 292 for each privileged process.  `tcs_update_file_protect_policy`
(`tss-main/tcs/tcsapi/tcsu/tcs_file_protect.c`) sets, adds or deletes items and
`tcs_get_file_protect_policy` reads them:

| | size | count | items |
| --- | --- | --- | --- |
| set | bytes of the items | given | given |
| add | **bytes of the file** and of the new items | sum | the old ones and the new ones |
| delete | bytes of the items | difference | the old ones that no given one matches |

The readers take no notice of the size, so the items survive; `file_protect_store_refines`
says that the size is right exactly when the last update that wrote the file was no
addition.
-/

import TsbAgent.Lib.Packed
import TsbAgent.Lib.Run
import TsbAgent.Lib.Word
import TsbAgent.Tcs.Basic
import TsbAgent.Httcutils.File
import Mathlib.Data.List.Basic
import Mathlib.Data.List.Flatten

namespace TsbAgent
namespace Tcs

open Libc Word Packed Httcutils
open File (Stream fwriteAt)

/-! ### Items -/

/-- `sizeof(struct file_protect_item)`. -/
def sizeofFileProtectItem : ℕ := 260

/-- `sizeof(struct file_protect_privileged_process)`. -/
def sizeofPrivilegedProcess : ℕ := 292

/-- `ntohs(cur_item->be_privileged_process_num)`. -/
def privilegedProcessNum (p : Bytes) : ℕ := ofNet (fieldAt p 2 2)

/-- What the item at `p` takes. -/
def itemSize (p : Bytes) : ℕ := sizeofFileProtectItem + privilegedProcessNum p * sizeofPrivilegedProcess

/-- The comparison of two items: the paths with `strcmp`, and the flags or the type. -/
def sameItem (p q : Bytes) : Bool :=
  strcmp (p.drop 4) (q.drop 4) = 0 && (p.getD 0 0 == q.getD 0 0 || p.getD 1 0 == q.getD 1 0)

/-- The loop of `check_buffer` and of `tcs_get_file_protect_policy` over the rest of the items,
from an offset; `last` is what is asked of the offset at the end. -/
def itemLoop (buffer : Bytes) (length : ℤ) (last : ℤ → Bool) : ℕ → ℤ → Bool
  | 0, offset => last offset
  | n + 1, offset =>
      let offset₁ := int32 (offset + sizeofFileProtectItem)
      if offset₁ > length then false
      else
        let offset₂ := int32 (offset₁ +
          privilegedProcessNum (buffer.drop offset.toNat) * sizeofPrivilegedProcess)
        if offset₂ > length then false else itemLoop buffer length last n offset₂

/-- `check_buffer`: no item is looked at when the number is negative. -/
def checkBuffer (buffer : Bytes) (length num : ℤ) : Bool :=
  itemLoop buffer length (fun offset => offset = length) num.toNat 0

/-! ### The file -/

/-- An `int` of the file. -/
def intAt (p : Bytes) (off : ℕ) : ℤ := int32 (hostAt p off 4)

/-- The bytes of an `int`. -/
def intBytes (z : ℤ) : Bytes := hostBytes 4 (z % 2 ^ 32).toNat

/-- What the system grants an update: the certificate and the signature, the reader with what
follows its buffer in memory, `malloc`, and the writers. -/
structure ProtectIo where
  cert : Option TssErr
  verify : Option TssErr
  read : ReadIo
  heap : Bytes
  malloc : Bool
  writeSize : Stream
  writeNum : Stream
  writeData : Stream
  writeItem : Stream

/-- The writes of a size, a count and some bytes after them.  The size replaces the file. -/
def writeProtected (io : ProtectIo) (file : Option Bytes) (size num : ℤ) (data : Bytes) :
    Option TssErr × Option Bytes :=
  match httcUtilFileWrite io.writeSize file (intBytes size) with
  | (r₁, file₁) =>
      if r₁ ≠ 4 then (some .write, file₁)
      else
        match httcUtilFileWriteOffset io.writeNum file₁ (intBytes num) 4 with
        | (r₂, file₂) =>
            if r₂ ≠ 4 then (some .write, file₂)
            else
              match httcUtilFileWriteOffset io.writeData file₂ data 8 with
              | (r₃, file₃) => if r₃ ≠ data.length then (some .write, file₃) else (none, file₃)

/-- The data of an update, with what follows it in memory. -/
structure ProtectData where
  item : Bytes
  after : Bytes
  num : ℤ

/-- `httc_set_file_protect_policy`. -/
def httcSetFileProtectPolicy (io : ProtectIo) (file : Option Bytes) (d : ProtectData) :
    Option TssErr × Option Bytes :=
  if ¬ checkBuffer (d.item ++ d.after) (int32 d.item.length) d.num then (some .parameter, file)
  else writeProtected io file (int32 d.item.length) d.num d.item

/-- The items of the file that were read into `buffer`. -/
def storedItems (buffer heap : Bytes) : List Bytes :=
  pointers itemSize ((buffer ++ heap).drop 8) (intAt (buffer ++ heap) 4).toNat

/-- The items of an update. -/
def givenItems (d : ProtectData) : List Bytes := pointers itemSize (d.item ++ d.after) d.num.toNat

/-- The check of what was read. -/
def checkStored (buffer heap : Bytes) : Bool :=
  checkBuffer ((buffer ++ heap).drop 8) (int32 ((buffer.length : ℤ) - 8)) (intAt (buffer ++ heap) 4)

/-- `httc_add_file_protect_policy`. -/
def httcAddFileProtectPolicy (io : ProtectIo) (file : Option Bytes) (d : ProtectData) :
    Option TssErr × Option Bytes :=
  if d.num = 0 then (none, file)
  else if ¬ checkBuffer (d.item ++ d.after) (int32 d.item.length) d.num then (some .parameter, file)
  else
    match httcUtilFileReadFull io.read file with
    | none => (some .read, file)
    | some buffer =>
        if ¬ checkStored buffer io.heap then (some .parameter, file)
        else if (storedItems buffer io.heap).any fun p => (givenItems d).any (sameItem p) then
          (some .parameter, file)
        else
          match writeProtected io file (int32 (buffer.length + d.item.length))
            (int32 (intAt (buffer ++ io.heap) 4 + d.num)) (buffer.drop 8) with
          | (some e, file₁) => (some e, file₁)
          | (none, file₁) =>
              match httcUtilFileWriteOffset io.writeItem file₁ d.item buffer.length with
              | (r, file₂) => if r ≠ d.item.length then (some .write, file₂) else (none, file₂)

/-- The bytes of the item at `p`, which are a multiple of four. -/
def keptItem (d : ProtectData) (p : Bytes) : Bytes :=
  if (givenItems d).any (sameItem p) then [] else p.take (itemSize p)

/-- `httc_delete_file_protect_policy`. -/
def httcDeleteFileProtectPolicy (io : ProtectIo) (file : Option Bytes) (d : ProtectData) :
    Option TssErr × Option Bytes :=
  if d.num = 0 then (none, file)
  else if ¬ checkBuffer (d.item ++ d.after) (int32 d.item.length) d.num then (some .parameter, file)
  else
    match httcUtilFileReadFull io.read file with
    | none => (some .read, file)
    | some buffer =>
        if ¬ io.malloc then (some .nomem, file)
        else if ¬ checkStored buffer io.heap then (some .parameter, file)
        else
          let items := storedItems buffer io.heap
          let deleted := items.countP fun p => (givenItems d).any (sameItem p)
          let data := (items.map (keptItem d)).flatten
          writeProtected io file (int32 data.length) (int32 (intAt (buffer ++ io.heap) 4 - deleted)) data

/-- `be_action`. -/
inductive ProtectAction
  | set
  | add
  | delete
  | other
deriving DecidableEq

/-- `struct file_protect_update`: `sizeOk` says whether `be_size` is the size of the
structure. -/
structure ProtectUpdate where
  sizeOk : Bool
  action : ProtectAction
  num : UInt32
  data : Bytes
  after : Bytes

/-- The arguments that the three functions get: the number is an `int` for them. -/
def ProtectUpdate.args (u : ProtectUpdate) : ProtectData := ⟨u.data, u.after, int32 u.num.toNat⟩

theorem ProtectUpdate.args_num (u : ProtectUpdate) : u.args.num = int32 u.num.toNat := by
  rw [ProtectUpdate.args]

/-- `tcs_update_file_protect_policy`. -/
def tcsUpdateFileProtectPolicy (io : ProtectIo) (file : Option Bytes) (u : ProtectUpdate) :
    Option TssErr × Option Bytes :=
  if ¬ u.sizeOk then (some .parameter, file)
  else
    match io.cert, io.verify with
    | some e, _ => (some e, file)
    | none, some e => (some e, file)
    | none, none =>
        match u.action with
        | .set => httcSetFileProtectPolicy io file u.args
        | .add => httcAddFileProtectPolicy io file u.args
        | .delete => httcDeleteFileProtectPolicy io file u.args
        | .other => (some .notSupport, file)

/-- What `tcs_get_file_protect_policy` gives. -/
structure GotPolicy where
  items : Bytes
  num : ℤ
deriving DecidableEq

/-- `tcs_get_file_protect_policy`. -/
def tcsGetFileProtectPolicy (io : ReadIo) (heap : Bytes) (malloc : Bool) (file : Option Bytes) :
    Except TssErr GotPolicy :=
  if File.size file = 0 then .ok ⟨[], 0⟩
  else
    match httcUtilFileReadFull io file with
    | none => .error .read
    | some data =>
        let num := intAt (data ++ heap) 4
        if ¬ checkStored data heap then .error .parameter
        else if ¬ malloc then .error .nomem
        else if ¬ itemLoop (data ++ heap) data.length (fun _ => true) num.toNat 8 then .error .parameter
        else .ok ⟨data.drop 8, num⟩

/-! ### The policy as a list -/

/-- The path of an item as a string. -/
def itemPath (c : Bytes) : Bytes := cstr (fieldAt c 4 256)

/-- **Two items are equal:** in path, and in type or flags. -/
def Matches (c d : Bytes) : Bool :=
  itemPath c = itemPath d && (c.getD 0 0 == d.getD 0 0 || c.getD 1 0 == d.getD 1 0)

/-- The items of an update. -/
def ProtectUpdate.items (u : ProtectUpdate) : List Bytes := records itemSize u.num.toNat u.data

/-- The items that a store holds, and whether its size field is to be right. -/
structure Protected where
  items : List Bytes
  sized : Bool

/-- One call and what it returned. -/
structure ProtectCall where
  io : ProtectIo
  update : ProtectUpdate
  ret : Option TssErr

/-- The file after a call that returned so. -/
def protectStep (file : Option Bytes) (c : ProtectCall) : Option (Option Bytes) :=
  let r := tcsUpdateFileProtectPolicy c.io file c.update
  if r.1 = c.ret then some r.2 else none

/-- **What a call means for the list of items.**  A rejected call means nothing. -/
def ProtectSpec (t : Protected) (c : ProtectCall) (t' : Protected) : Prop :=
  match c.ret, c.update.action with
  | some _, _ => t' = t
  | none, .set => t' = ⟨c.update.items, true⟩
  | none, .add =>
      if c.update.num = 0 then t' = t
      else t' = ⟨t.items ++ c.update.items, false⟩ ∧
        ∀ a ∈ t.items, ∀ b ∈ c.update.items, Matches a b = false
  | none, .delete =>
      if c.update.num = 0 then t' = t
      else t' = ⟨t.items.filter fun a => !c.update.items.any (Matches a), true⟩
  | none, .other => False

/-- **What the store promises** for a list of items: the reader gives the list, and the count
is its length. -/
structure ProtectPromise (file : Option Bytes) (items : List Bytes) : Prop where
  get : ∀ (io : ReadIo) (heap : Bytes), io.Granted →
    tcsGetFileProtectPolicy io heap true file = .ok ⟨items.flatten, items.length⟩
  list : records itemSize items.length items.flatten = items
  count : ∃ f, file = some f ∧ intAt f 4 = items.length

/-- The size field is the number of the bytes of the items. -/
def SizeRight (file : Option Bytes) (items : List Bytes) : Prop :=
  ∃ f, file = some f ∧ intAt f 0 = items.flatten.length

/-- The path ends in its field. -/
def PathEnds (c : Bytes) : Prop := (0 : UInt8) ∈ fieldAt c 4 256
deriving Decidable

/-- **The condition on a call:** no write fails or is lost, an empty update does not give a
number that is negative as an `int`, the paths end, and the file stays within what the reader
can read. -/
structure ProtectOk (file : Option Bytes) (c : ProtectCall) : Prop where
  writeSize : Takes c.io.writeSize 4
  writeNum : Takes c.io.writeNum 4
  writeData : Takes c.io.writeData (if c.update.action = .set then c.update.data.length else File.size file)
  writeItem : Takes c.io.writeItem c.update.data.length
  num : c.update.data = [] → c.update.num.toNat < 2 ^ 31
  paths : ∀ i ∈ c.update.items, PathEnds i
  small : 8 + c.update.data.length ≤ maxFileSize
  grows : c.update.action = .add → File.size file + c.update.data.length ≤ maxFileSize

/-! ### Items in a buffer -/

/-- An item with all its processes. -/
def IsItem (c : Bytes) : Prop := c.length = itemSize c

section Items

variable {c d r r' heap buffer : Bytes} {l pre : List Bytes} {n : ℕ}

theorem IsItem.le_length (h : IsItem c) : 260 ≤ c.length := by
  rw [h, itemSize, sizeofFileProtectItem]
  omega

theorem itemSize_append (h : 4 ≤ c.length) : itemSize (c ++ r) = itemSize c := by
  have hfield : fieldAt (c ++ r) 2 2 = fieldAt c 2 2 := by
    rw [fieldAt, fieldAt, List.drop_append_of_le_length (by omega), List.take_append_of_le_length]
    rw [List.length_drop]
    omega
  rw [itemSize, itemSize, privilegedProcessNum, privilegedProcessNum, hfield]

theorem privilegedProcessNum_lt (p : Bytes) : privilegedProcessNum p < 65536 := by
  have hlt := ofHost_lt (fieldAt p 2 2).reverse
  have hlen : (fieldAt p 2 2).reverse.length ≤ 2 := by
    rw [List.length_reverse, fieldAt, List.length_take]
    exact Nat.min_le_left _ _
  have hpow : 256 ^ (fieldAt p 2 2).reverse.length ≤ 256 ^ 2 := Nat.pow_le_pow_right (by decide) hlen
  exact lt_of_lt_of_le hlt hpow

theorem IsItem.sized (h : IsItem c) : Sized id itemSize c where
  size_eq r := by
    have hlen := h.le_length
    exact (itemSize_append (by omega : 4 ≤ c.length)).trans h.symm
  pos := by
    have hlen := h.le_length
    change 0 < c.length
    omega

/-- The items of a packed list are the list. -/
theorem records_flatten (heap : Bytes) (hl : ∀ c ∈ l, IsItem c) :
    records itemSize l.length (l.flatten ++ heap) = l := by
  have h := records_packed heap fun c hc => (hl c hc).sized
  rwa [List.map_id, List.flatMap_id] at h

theorem length_le_flatten (hl : ∀ c ∈ l, IsItem c) : 260 * l.length ≤ l.flatten.length := by
  induction l with
  | nil => exact Nat.zero_le _
  | cons c l ih =>
      obtain ⟨hc, hl⟩ := List.forall_mem_cons.mp hl
      have hlen := hc.le_length
      have hrest := ih hl
      rw [List.flatten_cons, List.length_append, List.length_cons]
      omega

/-- The items of a file that can be read are no more than an `int` counts. -/
theorem count_lt_of_small (hl : ∀ c ∈ l, IsItem c) (hsmall : 8 + l.flatten.length ≤ maxFileSize) :
    (l.length : ℤ) < 2 ^ 31 := by
  have hle := length_le_flatten hl
  rw [maxFileSize] at hsmall
  omega

/-- On paths that end, `strcmp` compares the paths. -/
theorem sameItem_eq (hc : IsItem c) (hd : IsItem d) (hpc : PathEnds c) (hpd : PathEnds d) :
    sameItem (c ++ r) (d ++ r') = Matches c d := by
  have hpath {x y : Bytes} (hx : IsItem x) (hp : PathEnds x) : cstr ((x ++ y).drop 4) = itemPath x := by
    have hlen := hx.le_length
    rw [List.drop_append_of_le_length (by omega)]
    have hsplit : x.drop 4 ++ y = fieldAt x 4 256 ++ ((x.drop 4).drop 256 ++ y) := by
      rw [fieldAt, ← List.append_assoc, List.take_append_drop]
    rw [hsplit, cstr_append_of_mem hp, itemPath]
  have hget {x y : Bytes} (hx : IsItem x) (i : ℕ) (hi : i < 260) : (x ++ y).getD i 0 = x.getD i 0 := by
    have hlen := hx.le_length
    rw [List.getD_eq_getElem?_getD, List.getD_eq_getElem?_getD, List.getElem?_append_left (by omega)]
  rw [sameItem, Matches, hget hc 0 (by decide), hget hc 1 (by decide), hget hd 0 (by decide),
    hget hd 1 (by decide)]
  congr 1
  rw [decide_eq_decide, strcmp_eq_zero_iff_cstr, hpath hc hpc, hpath hd hpd]

/-- The two steps of the offset over an item, within a file that can be read. -/
theorem offsets_eq {off len k : ℕ} (hoff : off ≤ len) (hlen : len ≤ maxFileSize) (hk : k < 65536) :
    int32 ((off : ℤ) + sizeofFileProtectItem) = ((off + 260 : ℕ) : ℤ) ∧
      int32 (((off + 260 : ℕ) : ℤ) + k * sizeofPrivilegedProcess) =
        ((off + (sizeofFileProtectItem + k * sizeofPrivilegedProcess) : ℕ) : ℤ) := by
  rw [maxFileSize] at hlen
  rw [sizeofFileProtectItem, sizeofPrivilegedProcess]
  push_cast
  refine ⟨int32_eq (by omega) (by omega), ?_⟩
  rw [int32_eq (by omega) (by omega)]
  ring

theorem itemLoop_succ {off len : ℕ} {last : ℤ → Bool} (hoff : off ≤ len) (hlen : len ≤ maxFileSize) :
    itemLoop buffer len last (n + 1) off =
      (decide (off + itemSize (buffer.drop off) ≤ len) &&
        itemLoop buffer len last n (off + itemSize (buffer.drop off) : ℕ)) := by
  obtain ⟨h₁, h₂⟩ := offsets_eq hoff hlen (privilegedProcessNum_lt (buffer.drop off))
  rw [itemLoop, h₁, Int.toNat_natCast, h₂, itemSize]
  have hle : off + 260 ≤ off + itemSize (buffer.drop off) := by
    rw [itemSize, sizeofFileProtectItem]
    omega
  rw [itemSize] at hle
  by_cases hfit : off + (sizeofFileProtectItem + privilegedProcessNum (buffer.drop off) * sizeofPrivilegedProcess) ≤ len
  · rw [if_neg (by omega), decide_eq_true hfit, Bool.true_and]
    exact if_neg (by omega)
  · rw [decide_eq_false hfit, Bool.false_and]
    split_ifs with hfirst
    · rfl
    · exact if_pos (by omega)

/-- **The loop runs to the end** of items that are all there. -/
theorem itemLoop_flatten {off len : ℕ} {last : ℤ → Bool} (hl : ∀ c ∈ l, IsItem c)
    (hbuf : buffer.drop off = l.flatten ++ heap) (hfit : off + l.flatten.length ≤ len)
    (hlen : len ≤ maxFileSize) :
    itemLoop buffer len last l.length off = last (off + l.flatten.length : ℕ) := by
  induction l generalizing off with
  | nil => rfl
  | cons c l ih =>
      obtain ⟨hc, hl⟩ := List.forall_mem_cons.mp hl
      rw [List.flatten_cons, List.append_assoc] at hbuf
      rw [List.flatten_cons, List.length_append] at hfit
      have hle := hc.le_length
      have hsize : itemSize (buffer.drop off) = c.length := by
        rw [hbuf, itemSize_append (by omega), hc]
      have hdrop : buffer.drop (off + c.length) = l.flatten ++ heap := by
        rw [← List.drop_drop, hbuf, List.drop_left]
      rw [List.length_cons, itemLoop_succ (by omega) hlen, hsize, decide_eq_true (by omega), Bool.true_and,
        ih hl hdrop (by omega), List.flatten_cons, List.length_append, Nat.add_assoc]

/-- **What the check lets pass** is so many items, and nothing else. -/
theorem flatten_of_itemLoop {off len : ℕ} (hoff : off ≤ len) (hlen : len ≤ maxFileSize)
    (hbuf : len ≤ buffer.length) (h : itemLoop buffer len (fun offset => offset = (len : ℤ)) n off = true) :
    ∃ l : List Bytes, l.length = n ∧ (∀ c ∈ l, IsItem c) ∧ (buffer.drop off).take (len - off) = l.flatten := by
  induction n generalizing off with
  | zero =>
      have heq : off = len := by simpa [itemLoop] using h
      subst heq
      exact ⟨[], rfl, nofun, by simp⟩
  | succ n ih =>
      rw [itemLoop_succ hoff hlen, Bool.and_eq_true, decide_eq_true_eq] at h
      obtain ⟨hfit, hrest⟩ := h
      obtain ⟨l, hn, hitems, hflat⟩ := ih hfit hrest
      have hc : IsItem ((buffer.drop off).take (itemSize (buffer.drop off))) := by
        have hclen : ((buffer.drop off).take (itemSize (buffer.drop off))).length =
            itemSize (buffer.drop off) := by
          rw [List.length_take, List.length_drop]
          omega
        have hle : 4 ≤ itemSize (buffer.drop off) := by
          rw [itemSize, sizeofFileProtectItem]
          omega
        have hsame := itemSize_append (c := (buffer.drop off).take (itemSize (buffer.drop off)))
          (r := (buffer.drop off).drop (itemSize (buffer.drop off))) (by omega)
        rw [List.take_append_drop] at hsame
        exact hclen.trans hsame
      refine ⟨_ :: l, by rw [List.length_cons, hn], List.forall_mem_cons.mpr ⟨hc, hitems⟩, ?_⟩
      rw [List.flatten_cons, ← hflat, ← List.drop_drop]
      have hsplit : len - off = itemSize (buffer.drop off) + (len - (off + itemSize (buffer.drop off))) := by
        omega
      rw [hsplit, List.take_add]

end Items

/-! ### A file of items -/

/-- **A policy file holds items**, as many as it says, and nothing else; it can be read whole. -/
structure HoldsItems (item : Bytes → Prop) (f : Bytes) (l : List Bytes) : Prop where
  header : 8 ≤ f.length
  small : f.length ≤ maxFileSize
  count : (intAt f 4).toNat = l.length
  data : f.drop 8 = l.flatten
  items : ∀ c ∈ l, item c

theorem HoldsItems.length_eq {item : Bytes → Prop} {f : Bytes} {l : List Bytes} (h : HoldsItems item f l) :
    f.length = 8 + l.flatten.length := by
  have hlength := congrArg List.length h.data
  have hheader := h.header
  rw [List.length_drop] at hlength
  omega

/-- What can be read is read, if the system grants it. -/
theorem HoldsItems.read_eq {item : Bytes → Prop} {f : Bytes} {l : List Bytes} {io : ReadIo}
    (h : HoldsItems item f l) (hio : io.Granted) : httcUtilFileReadFull io (some f) = some f := by
  have hheader := h.header
  refine httcUtilFileReadFull_eq_some.mpr ⟨hio, h.small, ?_, rfl⟩
  rintro rfl
  simp at hheader

section Held

variable {f heap : Bytes} {l : List Bytes}

theorem intAt_append_left (h : 8 ≤ f.length) : intAt (f ++ heap) 4 = intAt f 4 := by
  rw [intAt, intAt, hostAt, hostAt, fieldAt, fieldAt, List.drop_append_of_le_length (by omega),
    List.take_append_of_le_length]
  rw [List.length_drop]
  omega

theorem HoldsItems.drop_eq (h : HoldsItems IsItem f l) : (f ++ heap).drop 8 = l.flatten ++ heap := by
  rw [List.drop_append_of_le_length h.header, h.data]

/-- **The check passes**, whatever follows the file in memory. -/
theorem HoldsItems.checkStored (h : HoldsItems IsItem f l) (heap : Bytes) : checkStored f heap = true := by
  have hsmall := h.small
  have hlength := h.length_eq
  have hlen : int32 ((f.length : ℤ) - 8) = l.flatten.length := by
    rw [maxFileSize] at hsmall
    rw [int32_eq (by omega) (by omega)]
    omega
  rw [Tcs.checkStored, intAt_append_left h.header, hlen, h.drop_eq, checkBuffer, h.count]
  have hloop : itemLoop (l.flatten ++ heap) l.flatten.length
      (fun offset => offset = (l.flatten.length : ℤ)) l.length (0 : ℕ) = _ :=
    itemLoop_flatten h.items rfl (by omega) (by omega)
  exact hloop.trans (by simp)

/-- **The reader gives the items**, and the number of the file. -/
theorem HoldsItems.get_eq {io : ReadIo} (h : HoldsItems IsItem f l) (hio : io.Granted) (heap : Bytes) :
    tcsGetFileProtectPolicy io heap true (some f) = .ok ⟨l.flatten, intAt f 4⟩ := by
  have hheader := h.header
  have hsmall := h.small
  have hlength := h.length_eq
  have hsize : File.size (some f) ≠ 0 := by
    change f.length ≠ 0
    omega
  have hloop : itemLoop (f ++ heap) f.length (fun _ => true) l.length (8 : ℕ) = _ :=
    itemLoop_flatten h.items h.drop_eq (by omega) (by omega)
  rw [tcsGetFileProtectPolicy, if_neg hsize, h.read_eq hio]
  dsimp only
  rw [h.checkStored, intAt_append_left hheader, h.count, h.data, if_neg (by simp), if_neg (by simp)]
  refine if_neg ?_
  rw [not_not]
  exact hloop

end Held

/-! ### The invariant -/

/-- The file holds the items, and its size field is right or counts the two fields too. -/
structure Stored (file : Option Bytes) (t : Protected) : Prop where
  file_eq : file = some (intBytes (t.items.flatten.length + if t.sized then 0 else 8) ++
    (intBytes t.items.length ++ t.items.flatten))
  items : ∀ c ∈ t.items, IsItem c ∧ PathEnds c
  small : 8 + t.items.flatten.length ≤ maxFileSize

/-- The data of an update are so many items and nothing else. -/
structure Given (u : ProtectUpdate) : Prop where
  num_eq : u.args.num = u.items.length
  items : ∀ i ∈ u.items, IsItem i
  data_eq : u.data = u.items.flatten

section Fields

variable {a c : Bytes} {z : ℤ} {off : ℕ}

@[simp] theorem length_intBytes : (intBytes z).length = 4 := length_hostBytes 4 _

theorem intAt_append (ha : a.length = off) (h₀ : 0 ≤ z) (h₁ : z < 2 ^ 31) :
    intAt (a ++ (intBytes z ++ c)) off = z := by
  have hmod : z % 2 ^ 32 = z := Int.emod_eq_of_lt h₀ (by omega)
  rw [intAt, intBytes, hmod, hostAt_append ha (by norm_num; omega), Int.toNat_of_nonneg h₀, int32_eq h₀ h₁]

end Fields

section Store

variable {file file' : Option Bytes} {t : Protected} {c : ProtectCall} {f heap : Bytes} {e : TssErr}

theorem Stored.count_lt (h : Stored file t) : (t.items.length : ℤ) < 2 ^ 31 :=
  count_lt_of_small (fun c hc => (h.items c hc).1) h.small

theorem Stored.drop_eq (h : Stored (some f) t) : (f ++ heap).drop 8 = t.items.flatten ++ heap := by
  obtain rfl := Option.some.inj h.file_eq
  rw [← List.append_assoc, List.append_assoc]
  exact List.drop_left' (by simp)

theorem Stored.data_eq (h : Stored (some f) t) : f.drop 8 = t.items.flatten := by
  have hdrop := @Stored.drop_eq _ _ [] h
  rwa [List.append_nil, List.append_nil] at hdrop

theorem Stored.length_eq (h : Stored (some f) t) : f.length = 8 + t.items.flatten.length := by
  obtain rfl := Option.some.inj h.file_eq
  simp only [List.length_append, length_intBytes]
  omega

theorem Stored.intAt_eq (h : Stored (some f) t) : intAt (f ++ heap) 4 = t.items.length := by
  have hlt := h.count_lt
  obtain rfl := Option.some.inj h.file_eq
  rw [List.append_assoc, List.append_assoc]
  exact intAt_append length_intBytes (by omega) hlt

theorem Stored.holds (h : Stored (some f) t) : HoldsItems IsItem f t.items where
  header := by
    have hlength := h.length_eq
    omega
  small := by
    rw [h.length_eq]
    exact h.small
  count := by
    have hcount := @Stored.intAt_eq _ _ [] h
    rw [List.append_nil] at hcount
    rw [hcount, Int.toNat_natCast]
  data := h.data_eq
  items c hc := (h.items c hc).1

theorem Stored.checkStored (h : Stored (some f) t) : checkStored f heap = true := h.holds.checkStored heap

/-- The size of an update is the number of its bytes. -/
theorem ProtectOk.length_eq (hok : ProtectOk file c) :
    int32 c.update.args.item.length = (c.update.data.length : ℤ) := by
  have hsmall := hok.small
  rw [maxFileSize] at hsmall
  have hdata : c.update.args.item = c.update.data := rfl
  rw [hdata, int32_eq (by omega) (by omega)]

/-- The update passes the check. -/
def Checked (u : ProtectUpdate) : Prop :=
  checkBuffer (u.args.item ++ u.args.after) (int32 u.args.item.length) u.args.num = true

/-- The number of an update that passes the check is not negative: the check would have looked
at no item. -/
theorem ProtectOk.num_lt (hok : ProtectOk file c) (hcheck : Checked c.update) : c.update.num.toNat < 2 ^ 31 := by
  by_contra hlarge
  have hbound : c.update.num.toNat < 2 ^ 32 := c.update.num.toNat_lt
  have hneg : (int32 c.update.num.toNat).toNat = 0 := by
    rw [int32, Int.bmod_def]
    omega
  rw [Checked, hok.length_eq, ProtectUpdate.args_num, checkBuffer, hneg, itemLoop, decide_eq_true_eq] at hcheck
  have hempty : c.update.data = [] := List.length_eq_zero_iff.mp (by omega)
  exact hlarge (hok.num hempty)

theorem ProtectOk.num_eq (hok : ProtectOk file c) (hcheck : Checked c.update) :
    c.update.args.num = (c.update.num.toNat : ℤ) := by
  have hnum := hok.num_lt hcheck
  rw [ProtectUpdate.args_num, int32_eq (by omega) (by omega)]

theorem num_eq_zero (u : ProtectUpdate) : u.args.num = 0 ↔ u.num = 0 := by
  have hbound : u.num.toNat < 2 ^ 32 := u.num.toNat_lt
  have hzero : u.num = 0 ↔ u.num.toNat = 0 := by simp [← UInt32.toNat_inj]
  rw [hzero, ProtectUpdate.args_num, int32, Int.bmod_def]
  omega

/-- The items of an update that passes the check. -/
theorem ProtectOk.given (hok : ProtectOk file c) (hcheck : Checked c.update) : Given c.update := by
  have hsmall := hok.small
  have hcount : c.update.args.num.toNat = c.update.num.toNat := by
    rw [hok.num_eq hcheck, Int.toNat_natCast]
  have hloop := hcheck
  rw [Checked, hok.length_eq, checkBuffer, hcount] at hloop
  have hfull : c.update.data.length ≤ (c.update.args.item ++ c.update.args.after).length := by
    rw [List.length_append]
    exact Nat.le_add_right _ _
  obtain ⟨l, hl, hitems, hflat⟩ := flatten_of_itemLoop (Nat.zero_le _) (by omega) hfull hloop
  have hdata : c.update.data = l.flatten := by
    rw [← hflat, Nat.sub_zero, List.drop_zero]
    exact (List.take_left' rfl).symm
  have hrec : c.update.items = l := by
    have hr := records_flatten [] hitems
    rwa [List.append_nil, ← hdata, hl] at hr
  exact ⟨by rw [hok.num_eq hcheck, hrec, hl], by rwa [hrec], by rw [hrec, hdata]⟩

theorem any_eq_map (l : List Bytes) (g : Bytes → Bool) : l.any g = (l.map g).any id := by
  rw [List.any_map]
  rfl

/-- An item of the store against the items of an update. -/
theorem any_given {a r : Bytes} (hok : ProtectOk file c) (hgiven : Given c.update) (ha : IsItem a)
    (hpa : PathEnds a) :
    (givenItems c.update.args).any (sameItem (a ++ r)) = c.update.items.any (Matches a) := by
  have hcount : c.update.args.num.toNat = c.update.items.length := by
    rw [hgiven.num_eq, Int.toNat_natCast]
  have hmap := @map_pointers _ itemSize id _ c.update.after _ (sameItem (a ++ r)) (Matches a)
    (fun i hi => (hgiven.items i hi).sized)
    fun i hi r' => sameItem_eq ha (hgiven.items i hi) hpa (hok.paths i hi)
  rw [List.flatMap_id] at hmap
  have hpointers : givenItems c.update.args =
      pointers itemSize (c.update.items.flatten ++ c.update.after) c.update.items.length := by
    rw [givenItems, hcount, ← hgiven.data_eq]
    rfl
  rw [hpointers, any_eq_map, hmap, ← any_eq_map]

/-- What is computed at each stored item, from the item alone. -/
theorem Stored.map_storedItems {β : Type*} {g g' : Bytes → β} (h : Stored (some f) t)
    (hg : ∀ a ∈ t.items, ∀ r, g (a ++ r) = g' a) : (storedItems f heap).map g = t.items.map g' := by
  have hmap := map_pointers heap (fun a ha => ((h.items a ha).1).sized) hg
  rw [List.flatMap_id] at hmap
  rw [storedItems, h.intAt_eq, Int.toNat_natCast, h.drop_eq, hmap]

/-- The stored items that the update names. -/
theorem Stored.map_any_given (h : Stored (some f) t) (hok : ProtectOk file c) (hgiven : Given c.update) :
    (storedItems f heap).map (fun p => (givenItems c.update.args).any (sameItem p)) =
      t.items.map fun a => c.update.items.any (Matches a) :=
  h.map_storedItems fun a ha _ => any_given hok hgiven (h.items a ha).1 (h.items a ha).2

/-- The writes that go through make the file. -/
theorem writeProtected_eq {size num : ℤ} {data : Bytes} {n : ℕ} (hok : ProtectOk file c)
    (hwrites : Takes c.io.writeData n) (hdata : data.length ≤ n) :
    writeProtected c.io file size num data = (none, some (intBytes size ++ (intBytes num ++ data))) := by
  have h4 {z : ℤ} : (intBytes z).length ≤ 4 := length_intBytes.le
  have hnum : fwriteAt (intBytes size) 4 (intBytes num) = intBytes size ++ intBytes num := by
    have hend := File.fwriteAt_end (f := intBytes size) (b := intBytes num)
    rwa [length_intBytes] at hend
  have hrest : fwriteAt (intBytes size ++ intBytes num) 8 data = intBytes size ++ (intBytes num ++ data) := by
    have hend := File.fwriteAt_end (f := intBytes size ++ intBytes num) (b := data)
    rwa [List.length_append, length_intBytes, length_intBytes, List.append_assoc] at hend
  rw [writeProtected, httcUtilFileWrite_eq hok.writeSize h4]
  simp only [length_intBytes]
  rw [httcUtilFileWriteOffset_eq hok.writeNum h4, hnum]
  simp only [length_intBytes]
  rw [httcUtilFileWriteOffset_eq hwrites hdata, hrest]
  simp

/-- A call goes through and the file is as promised, or it fails and the file is as it was. -/
def AllOrNothing (file : Option Bytes) (P : Option Bytes → Prop) (r : Option TssErr × Option Bytes) : Prop :=
  r.1 = none ∧ P r.2 ∨ r.1 ≠ none ∧ r.2 = file

/-- **A set** makes the store, whatever was there, or is rejected. -/
theorem set_spec (hok : ProtectOk file c) (hset : c.update.action = .set) :
    AllOrNothing file (Stored · ⟨c.update.items, true⟩)
      (httcSetFileProtectPolicy c.io file c.update.args) := by
  unfold httcSetFileProtectPolicy
  split_ifs with hcheck
  · refine .inl ?_
    have hgiven := hok.given hcheck
    have hsmall := hok.small
    have hitem : c.update.args.item = c.update.items.flatten := hgiven.data_eq
    have hwrites := hok.writeData
    rw [if_pos hset] at hwrites
    rw [writeProtected_eq hok hwrites (by rw [hitem, ← hgiven.data_eq]), hok.length_eq, hgiven.num_eq, hitem,
      hgiven.data_eq]
    refine ⟨rfl, ⟨?_, fun i hi => ⟨hgiven.items i hi, hok.paths i hi⟩, by rwa [← hgiven.data_eq]⟩⟩
    simp
  · exact .inr ⟨by simp, rfl⟩

/-- The new items are written behind the old ones. -/
theorem Stored.fwriteAt_eq {size num : ℤ} {data : Bytes} (h : Stored (some f) t) :
    fwriteAt (intBytes size ++ (intBytes num ++ t.items.flatten)) f.length data =
      intBytes size ++ (intBytes num ++ (t.items.flatten ++ data)) := by
  have hlen : f.length = (intBytes size ++ (intBytes num ++ t.items.flatten)).length := by
    rw [h.length_eq, List.length_append, List.length_append, length_intBytes, length_intBytes]
    omega
  rw [hlen, File.fwriteAt_end, List.append_assoc, List.append_assoc]

/-- **An addition** of some items appends them if none is there already; the size it writes
counts the two fields. -/
theorem add_spec (h : Stored (some f) t) (hok : ProtectOk (some f) c) (hadd : c.update.action = .add)
    (hnum : c.update.num ≠ 0) :
    AllOrNothing (some f)
      (fun file' => Stored file' ⟨t.items ++ c.update.items, false⟩ ∧
        ∀ a ∈ t.items, ∀ b ∈ c.update.items, Matches a b = false)
      (httcAddFileProtectPolicy c.io (some f) c.update.args) := by
  have hzero : c.update.args.num ≠ 0 := fun hz => hnum ((num_eq_zero _).mp hz)
  unfold httcAddFileProtectPolicy
  rw [if_neg hzero]
  split_ifs with hcheck
  · have hgiven := hok.given hcheck
    have hitem : c.update.args.item = c.update.items.flatten := hgiven.data_eq
    cases hread : httcUtilFileReadFull c.io.read (some f) with
    | none => exact .inr ⟨by simp, rfl⟩
    | some buffer =>
        obtain ⟨-, -, -, rfl⟩ := httcUtilFileReadFull_eq_some.mp hread
        have hany : ((storedItems f c.io.heap).any fun p => (givenItems c.update.args).any (sameItem p)) =
            t.items.any fun a => c.update.items.any (Matches a) := by
          rw [any_eq_map, h.map_any_given hok hgiven, ← any_eq_map]
        have hfile := h.length_eq
        have hwrites : Takes c.io.writeData f.length := by
          have hw := hok.writeData
          rwa [if_neg (by simp [hadd])] at hw
        have hgrows : f.length + c.update.data.length ≤ maxFileSize := hok.grows hadd
        dsimp only
        rw [h.checkStored, if_neg (by simp), hany]
        split_ifs with hsame
        · exact .inr ⟨by simp, rfl⟩
        · refine .inl ?_
          rw [h.data_eq, writeProtected_eq hok hwrites (by omega)]
          dsimp only
          rw [httcUtilFileWriteOffset_eq hok.writeItem (by rw [hitem, ← hgiven.data_eq]), h.fwriteAt_eq]
          have hall : ∀ i ∈ t.items ++ c.update.items, IsItem i ∧ PathEnds i := by
            intro i hi
            rcases List.mem_append.mp hi with hi | hi
            · exact h.items i hi
            · exact ⟨hgiven.items i hi, hok.paths i hi⟩
          have hbytes : (t.items ++ c.update.items).flatten.length + 8 = f.length + c.update.data.length := by
            rw [List.flatten_append, List.length_append, ← hgiven.data_eq, hfile]
            omega
          have hsmall : 8 + (t.items ++ c.update.items).flatten.length ≤ maxFileSize := by omega
          have hsize : int32 (f.length + c.update.args.item.length) =
              (t.items ++ c.update.items).flatten.length + 8 := by
            have hlen : c.update.args.item.length = c.update.data.length := rfl
            rw [maxFileSize] at hgrows
            rw [hlen, int32_eq (by omega) (by omega)]
            omega
          have hnums :
              int32 (intAt (f ++ c.io.heap) 4 + c.update.args.num) = (t.items ++ c.update.items).length := by
            have hlt := count_lt_of_small (fun i hi => (hall i hi).1) hsmall
            rw [List.length_append, Nat.cast_add] at hlt ⊢
            rw [h.intAt_eq, hgiven.num_eq, int32_eq (by omega) hlt]
          dsimp only
          rw [if_neg (by simp), hsize, hnums, hitem, ← List.flatten_append]
          refine ⟨rfl, ⟨rfl, hall, hsmall⟩, fun a ha b hb => ?_⟩
          by_contra hm
          refine hsame (List.any_eq_true.mpr ⟨a, ha, List.any_eq_true.mpr ⟨b, hb, ?_⟩⟩)
          simpa using hm
  · exact .inr ⟨by simp, rfl⟩

/-- What is left of the items when some leave nothing behind. -/
theorem flatten_map_kept (P : Bytes → Bool) (l : List Bytes) :
    (l.map fun a => if P a then [] else a).flatten = (l.filter fun a => !P a).flatten := by
  induction l with
  | nil => rfl
  | cons a l ih =>
      cases ha : P a with
      | false => simp [ha, ih]
      | true => simp [ha, ih]

/-- The items that are written back. -/
theorem Stored.flatten_keptItem (h : Stored (some f) t) (heap : Bytes) (hok : ProtectOk file c)
    (hgiven : Given c.update) :
    ((storedItems f heap).map (keptItem c.update.args)).flatten =
      (t.items.filter fun a => !c.update.items.any (Matches a)).flatten := by
  have hmap : (storedItems f heap).map (keptItem c.update.args) =
      t.items.map fun a => if c.update.items.any (Matches a) then [] else a := by
    refine h.map_storedItems fun a ha r => ?_
    obtain ⟨hitem, hpath⟩ := h.items a ha
    have hsize : itemSize (a ++ r) = a.length := hitem.sized.size_eq r
    rw [keptItem, any_given hok hgiven hitem hpath, hsize, List.take_left]
  rw [hmap, flatten_map_kept]

/-- How many items are not. -/
theorem Stored.countP_storedItems (h : Stored (some f) t) (heap : Bytes) (hok : ProtectOk file c)
    (hgiven : Given c.update) :
    ((storedItems f heap).countP fun p => (givenItems c.update.args).any (sameItem p)) =
      t.items.countP fun a => c.update.items.any (Matches a) := by
  have hcountP (l : List Bytes) (g : Bytes → Bool) : l.countP g = (l.map g).countP id := by
    rw [List.countP_map]
    rfl
  rw [hcountP, h.map_any_given hok hgiven, ← hcountP]

/-- Some of the stored items make a store, with the count and the size that a deletion writes. -/
theorem Stored.filtered (h : Stored file t) (P : Bytes → Bool) :
    Stored (some (intBytes (t.items.filter fun a => !P a).flatten.length ++
        (intBytes (t.items.filter fun a => !P a).length ++ (t.items.filter fun a => !P a).flatten)))
        ⟨t.items.filter fun a => !P a, true⟩ ∧
      int32 (t.items.filter fun a => !P a).flatten.length = (t.items.filter fun a => !P a).flatten.length ∧
      int32 (t.items.length - t.items.countP P) = (t.items.filter fun a => !P a).length := by
  have hstored := h.small
  have hle : (t.items.filter fun a => !P a).flatten.length ≤ t.items.flatten.length :=
    List.filter_sublist.flatten.length_le
  have hsum := List.length_eq_length_filter_add P (l := t.items)
  have hlt := h.count_lt
  refine ⟨⟨by simp, fun a ha => h.items a (List.mem_filter.mp ha).1, by dsimp only; omega⟩, ?_, ?_⟩
  · rw [maxFileSize] at hstored
    exact int32_eq (by omega) (by omega)
  · rw [List.countP_eq_length_filter, int32_eq (by omega) (by omega)]
    omega

/-- **A deletion** leaves the items that no given one matches, and writes their size. -/
theorem delete_spec (h : Stored (some f) t) (hok : ProtectOk (some f) c) (hdelete : c.update.action = .delete)
    (hnum : c.update.num ≠ 0) :
    AllOrNothing (some f)
      (Stored · ⟨t.items.filter fun a => !c.update.items.any (Matches a), true⟩)
      (httcDeleteFileProtectPolicy c.io (some f) c.update.args) := by
  have hzero : c.update.args.num ≠ 0 := fun hz => hnum ((num_eq_zero _).mp hz)
  unfold httcDeleteFileProtectPolicy
  rw [if_neg hzero]
  split_ifs with hcheck hmalloc
  · have hgiven := hok.given hcheck
    cases hread : httcUtilFileReadFull c.io.read (some f) with
    | none => exact .inr ⟨by simp, rfl⟩
    | some buffer =>
        obtain ⟨-, -, -, rfl⟩ := httcUtilFileReadFull_eq_some.mp hread
        have hdeleted := h.countP_storedItems c.io.heap hok hgiven
        have hkept := h.flatten_keptItem c.io.heap hok hgiven
        refine .inl ?_
        dsimp only
        rw [h.checkStored, if_neg (by simp), hdeleted, hkept, h.intAt_eq]
        obtain ⟨hstored, hsize, hnums⟩ := h.filtered fun a => c.update.items.any (Matches a)
        have hfile := h.length_eq
        have hwrites : Takes c.io.writeData f.length := by
          have hw := hok.writeData
          rwa [if_neg (by simp [hdelete])] at hw
        have hle :
            (t.items.filter fun a => !c.update.items.any (Matches a)).flatten.length ≤ t.items.flatten.length :=
          List.filter_sublist.flatten.length_le
        rw [hsize, hnums, writeProtected_eq hok hwrites (by omega)]
        exact ⟨rfl, hstored⟩
  · cases hread : httcUtilFileReadFull c.io.read (some f) with
    | none => exact .inr ⟨by simp, rfl⟩
    | some buffer => exact .inr ⟨by simp, rfl⟩
  · exact .inr ⟨by simp, rfl⟩

/-- An update that is not even tried leaves the file alone; else the action decides. -/
theorem update_cases (io : ProtectIo) (file : Option Bytes) (u : ProtectUpdate) :
    ((tcsUpdateFileProtectPolicy io file u).1 ≠ none ∧ (tcsUpdateFileProtectPolicy io file u).2 = file) ∨
      tcsUpdateFileProtectPolicy io file u = match u.action with
        | .set => httcSetFileProtectPolicy io file u.args
        | .add => httcAddFileProtectPolicy io file u.args
        | .delete => httcDeleteFileProtectPolicy io file u.args
        | .other => (some .notSupport, file) := by
  unfold tcsUpdateFileProtectPolicy
  split_ifs with hsize
  · cases hcert : io.cert with
    | some e => exact .inl ⟨by simp, rfl⟩
    | none =>
        cases hverify : io.verify with
        | some e => exact .inl ⟨by simp, rfl⟩
        | none => exact .inr rfl
  · exact .inl ⟨by simp, rfl⟩

/-- **An update does what it means** and says so, or it is rejected and changes nothing. -/
theorem update_spec (h : Stored file t) (hok : ProtectOk file c) :
    AllOrNothing file (fun file' => ∃ t', ProtectSpec t ⟨c.io, c.update, none⟩ t' ∧ Stored file' t')
      (tcsUpdateFileProtectPolicy c.io file c.update) := by
  obtain ⟨f, rfl⟩ : ∃ f, file = some f := ⟨_, h.file_eq⟩
  rcases update_cases c.io (some f) c.update with hrejected | heq
  · exact .inr hrejected
  · rw [heq]
    cases haction : c.update.action with
    | set =>
        refine (set_spec hok haction).imp_left fun ⟨hret, hstored⟩ => ⟨hret, _, ?_, hstored⟩
        simp only [ProtectSpec, haction]
    | add =>
        by_cases hnum : c.update.num = 0
        · have hnone : httcAddFileProtectPolicy c.io (some f) c.update.args = (none, some f) := by
            rw [httcAddFileProtectPolicy, if_pos ((num_eq_zero _).mpr hnum)]
          rw [hnone]
          refine .inl ⟨rfl, t, ?_, h⟩
          simp only [ProtectSpec, haction, hnum, if_true]
        · refine (add_spec h hok haction hnum).imp_left fun ⟨hret, hstored, hnew⟩ => ⟨hret, _, ?_, hstored⟩
          simp only [ProtectSpec, haction, hnum, if_false]
          exact ⟨trivial, hnew⟩
    | delete =>
        by_cases hnum : c.update.num = 0
        · have hnone : httcDeleteFileProtectPolicy c.io (some f) c.update.args = (none, some f) := by
            rw [httcDeleteFileProtectPolicy, if_pos ((num_eq_zero _).mpr hnum)]
          rw [hnone]
          refine .inl ⟨rfl, t, ?_, h⟩
          simp only [ProtectSpec, haction, hnum, if_true]
        · refine (delete_spec h hok haction hnum).imp_left fun ⟨hret, hstored⟩ => ⟨hret, _, ?_, hstored⟩
          simp only [ProtectSpec, haction, hnum, if_false]
    | other => exact .inr ⟨by simp, rfl⟩

/-- What a step of the store returned. -/
theorem protectStep_eq_some :
    protectStep file c = some file' ↔
      (tcsUpdateFileProtectPolicy c.io file c.update).1 = c.ret ∧
        (tcsUpdateFileProtectPolicy c.io file c.update).2 = file' := by
  by_cases hret : (tcsUpdateFileProtectPolicy c.io file c.update).1 = c.ret
  · simp [protectStep, hret]
  · simp [protectStep, hret]

/-- **Every call is a step of the list.** -/
theorem step_refines (h : Stored file t) (hok : ProtectOk file c) (hstep : protectStep file c = some file') :
    ∃ t', ProtectSpec t c t' ∧ Stored file' t' := by
  obtain ⟨hret, hfile⟩ := protectStep_eq_some.mp hstep
  rcases update_spec h hok with ⟨hnone, t', hspec, hstored⟩ | ⟨hsome, hsame⟩
  · rw [hret] at hnone
    rw [hfile] at hstored
    rw [← hnone] at hspec
    exact ⟨t', hspec, hstored⟩
  · rw [hret] at hsome
    obtain ⟨e, he⟩ := Option.ne_none_iff_exists'.mp hsome
    refine ⟨t, ?_, ?_⟩
    · simp only [ProtectSpec, he]
    · rwa [← hfile, hsame]

/-- A set that goes through makes the store out of any file. -/
theorem stored_of_set (hok : ProtectOk file c) (hset : c.update.action = .set) (hret : c.ret = none)
    (hstep : protectStep file c = some file') : Stored file' ⟨c.update.items, true⟩ := by
  obtain ⟨hnone, hfile⟩ := protectStep_eq_some.mp hstep
  rw [hret] at hnone
  rcases update_cases c.io file c.update with ⟨hsome, -⟩ | heq
  · exact absurd hnone hsome
  · rw [hset] at heq
    rcases set_spec hok hset with ⟨-, hstored⟩ | ⟨hsome, -⟩
    · rwa [← hfile, heq]
    · rw [heq] at hnone
      exact absurd hnone hsome

/-! ### The reader -/

theorem Stored.get_eq {io : ReadIo} (h : Stored file t) (hio : io.Granted) :
    tcsGetFileProtectPolicy io heap true file = .ok ⟨t.items.flatten, t.items.length⟩ := by
  obtain ⟨f, rfl⟩ : ∃ f, file = some f := ⟨_, h.file_eq⟩
  have hcount := @Stored.intAt_eq _ _ [] h
  rw [List.append_nil] at hcount
  rw [h.holds.get_eq hio heap, hcount]

/-- **The store holds what it promises.** -/
theorem Stored.promise (h : Stored file t) : ProtectPromise file t.items where
  get io heap hio := h.get_eq hio
  list := by
    have hrecords := records_flatten [] fun c hc => (h.items c hc).1
    rwa [List.append_nil] at hrecords
  count := by
    obtain ⟨f, rfl⟩ : ∃ f, file = some f := ⟨_, h.file_eq⟩
    have hcount := @Stored.intAt_eq _ _ [] h
    rw [List.append_nil] at hcount
    exact ⟨f, rfl, hcount⟩

/-- The size is right unless an addition wrote it. -/
theorem Stored.sizeRight_iff (h : Stored file t) : SizeRight file t.items ↔ t.sized = true := by
  have hsmall := h.small
  rw [maxFileSize] at hsmall
  obtain ⟨f, rfl⟩ : ∃ f, file = some f := ⟨_, h.file_eq⟩
  have hsize : intAt f 0 = t.items.flatten.length + if t.sized then 0 else 8 := by
    obtain rfl := Option.some.inj h.file_eq
    refine @intAt_append [] _ _ _ rfl ?_ ?_
    · split_ifs <;> omega
    · split_ifs <;> omega
  cases ht : t.sized with
  | true =>
      simp only [ht, if_true] at hsize
      exact ⟨fun _ => rfl, fun _ => ⟨f, rfl, by rw [hsize, add_zero]⟩⟩
  | false =>
      simp only [ht, Bool.false_eq_true, if_false] at hsize
      refine ⟨fun ⟨g, hg, hright⟩ => ?_, nofun⟩
      obtain rfl := Option.some.inj hg
      omega

end Store

/-! ### A set and an addition -/

/-- An item with a path of one letter and no privileged process. -/
def letterItem (letter : UInt8) : Bytes := List.replicate 4 0 ++ letter :: List.replicate 255 0

/-- A system that grants everything. -/
def grantedIo : ProtectIo where
  cert := none
  verify := none
  read := ⟨true, true, true⟩
  heap := []
  malloc := true
  writeSize := ⟨true, maxFileSize, 0⟩
  writeNum := ⟨true, maxFileSize, 0⟩
  writeData := ⟨true, maxFileSize, 0⟩
  writeItem := ⟨true, maxFileSize, 0⟩

/-- An update with the item of a letter, which goes through. -/
def letterCall (action : ProtectAction) (letter : UInt8) : ProtectCall :=
  ⟨grantedIo, ⟨true, action, 1, letterItem letter, []⟩, none⟩

/-- The file after `a` was set. -/
def setFile : Bytes := intBytes 260 ++ (intBytes 1 ++ letterItem 97)

/-- The file after `b` was added. -/
def addedFile : Bytes := intBytes 528 ++ (intBytes 2 ++ (letterItem 97 ++ letterItem 98))

/-- What is left to ask of an update where the system grants everything. -/
theorem granted_ok {file : Option Bytes} {u : ProtectUpdate} (hnum : u.num.toNat < 2 ^ 31)
    (hpaths : ∀ i ∈ u.items, PathEnds i) (hsmall : 8 + File.size file + u.data.length ≤ maxFileSize) :
    ProtectOk file ⟨grantedIo, u, none⟩ where
  writeSize := ⟨rfl, by dsimp only [grantedIo, maxFileSize]; omega, rfl⟩
  writeNum := ⟨rfl, by dsimp only [grantedIo, maxFileSize]; omega, rfl⟩
  writeData := by
    refine ⟨rfl, ?_, rfl⟩
    dsimp only [grantedIo]
    split_ifs <;> omega
  writeItem := by
    refine ⟨rfl, ?_, rfl⟩
    dsimp only [grantedIo]
    omega
  num _ := hnum
  paths := hpaths
  small := by
    dsimp only
    omega
  grows _ := by
    dsimp only
    omega

theorem set_add_run :
    Run.run protectStep none [letterCall .set 97, letterCall .add 98] = some (some addedFile) := by
  decide +kernel

theorem set_add_ok : Run.Meets protectStep ProtectOk none [letterCall .set 97, letterCall .add 98] := by
  refine ⟨granted_ok (by decide) (by decide +kernel) (by decide +kernel), fun file hfile => ?_⟩
  have hset : protectStep none (letterCall .set 97) = some (some setFile) := by decide +kernel
  obtain rfl := Option.some.inj (hset.symm.trans hfile)
  exact ⟨granted_ok (by decide) (by decide +kernel) (by decide +kernel), fun _ _ => trivial⟩

end Tcs
end TsbAgent
