/-
# Writing and reading the reference list

`tss-main/tcf/src/tcf_file_integrity.c`: `tcf_prepare_update_file_integrity` writes a
list of items into an update, `buffer_to_item_array` cuts it into records again,
`file_integrity_add_to_hash_table` copies a record and `file_integrity_parser` reads
the copy.

The header of a record gets `extend_size` and `path_length` of the item whether
or not the item has an extend buffer or a path; the data of the record gets what
there is.  So an item with a null pointer and a length that is not `0` declares a
longer record than is written.  `file_integrity_round_trip_iff` says that this, and a
list of 4 GiB or more, is all that can go wrong.
-/

import TsbAgent.FileIntegrity.Format
import Mathlib.Algebra.BigOperators.Group.List.Basic
import Mathlib.Algebra.Order.Ring.Nat
import Mathlib.Data.List.Forall2

namespace TsbAgent
namespace FileIntegrity

open Libc

/-- `MAX_PATH_LENGTH`. -/
def maxPathLength : ℕ := 4096

/-- `MAX_TPCM_ID_SIZE`. -/
def maxTpcmIdSize : ℕ := 32

/-- `struct file_integrity_item_user`: a pointer that is not null has as many bytes
as its length says. -/
structure ItemUser where
  hashLength : UInt32
  pathLength : UInt32
  isControl : ℤ
  isEnable : ℤ
  isFullPath : ℤ
  extendSize : UInt32
  hash : Option Bytes
  path : Option Bytes
  extendBuffer : Option Bytes
  length_hash : ∀ b, hash = some b → b.length = hashLength.toNat
  length_path : ∀ b, path = some b → b.length = pathLength.toNat
  length_extend : ∀ b, extendBuffer = some b → b.length = extendSize.toNat

/-- `is_bool_value_legal`. -/
def isBoolValueLegal (v : ℤ) : Bool := v = 0 || v = 1

/-- The checks of one item. -/
def checkItem (x : ItemUser) : Except ℤ Unit :=
  if x.hash.isNone then .error tcfErrParameter
  else if x.extendBuffer.isSome && (x.extendSize.toNat ≤ 0 || x.extendSize.toNat ≥ 255) then
    .error tcfErrParameter
  else if x.hashLength.toNat ≠ lenHash then .error tcfErrParameter
  else if x.path.isSome && ((x.isFullPath = 0 && x.pathLength.toNat ≠ lenHash) ||
      x.pathLength.toNat > maxPathLength) then .error tcfErrParameter
  else if !isBoolValueLegal x.isEnable then .error tcfErrParameter
  else if !isBoolValueLegal x.isControl then .error tcfErrParameter
  else if !isBoolValueLegal x.isFullPath then .error tcfErrParameter
  else .ok ()

/-- `item->flags`: bits `FILE_INTEGRITY_FLAG_ENABLE`, `_CONTROL` and `_FULL_PATH`. -/
def encodeFlags (x : ItemUser) : UInt8 :=
  (if x.isEnable ≠ 0 then 1 else 0) ||| (if x.isControl ≠ 0 then 2 else 0) |||
    (if x.isFullPath ≠ 0 then 4 else 0)

/-- The header of a record: the lengths cut to 8 and 16 bits. -/
def encodeHeader (x : ItemUser) : Bytes :=
  [encodeFlags x, UInt8.ofNat x.extendSize.toNat, UInt8.ofNat (x.pathLength.toNat % 65536 / 256),
    UInt8.ofNat x.pathLength.toNat]

/-- The data of a record. -/
def encodeData (x : ItemUser) : Bytes :=
  x.hash.getD [] ++ x.extendBuffer.getD [] ++ x.path.getD []

/-- The bytes a record takes, padding included. -/
def encodedSize (x : ItemUser) : ℕ := 4 + align4 (encodeData x).length

section Prepare

variable (fill : ℕ → UInt8)

/-- One record at `pos`; the padding keeps what `malloc` left there. -/
def encodeItem (pos : ℕ) (x : ItemUser) : Bytes :=
  encodeHeader x ++ encodeData x ++
    (List.range (align4 (encodeData x).length - (encodeData x).length)).map fun j =>
      fill (pos + 4 + (encodeData x).length + j)

/-- The records from `pos` on. -/
def encodeItems : ℕ → List ItemUser → Bytes
  | _, [] => []
  | pos, x :: xs => encodeItem fill pos x ++ encodeItems (pos + encodedSize x) xs

/-- The loop over the items: check, then write. -/
def prepareItems : ℕ → List ItemUser → Except ℤ Bytes
  | _, [] => .ok []
  | pos, x :: xs =>
      match checkItem x with
      | .error r => .error r
      | .ok _ => (prepareItems (pos + encodedSize x) xs).map (encodeItem fill pos x ++ ·)

/-- `struct file_integrity_update`, its numbers in host order. -/
structure FileIntegrityUpdate where
  size : ℕ
  action : UInt32
  replayCounter : UInt64
  itemNumber : UInt32
  dataLength : UInt32
  tpcmId : Bytes
  data : Bytes

/-- `tcf_prepare_update_file_integrity`, when it has the memory. -/
def prepareUpdateFileIntegrity (items : List ItemUser) (tpcmId : Bytes) (action : UInt32)
    (replayCounter : UInt64) : Except ℤ FileIntegrityUpdate :=
  if tpcmId.length = 0 ∨ tpcmId.length > maxTpcmIdSize then .error tcfErrParameter
  else
    (prepareItems fill 56 items).map fun data =>
      { size := 56
        action := action
        replayCounter := replayCounter
        itemNumber := UInt32.ofNat items.length
        dataLength := UInt32.ofNat data.length
        tpcmId := tpcmId
        data := data }

end Prepare

/-- `struct file_integrity_item_info`: the copy of a record. -/
structure ItemInfo where
  size : ℕ
  alignedSize : ℕ
  pathLength : ℕ
  data : Bytes

/-- The copy made by `file_integrity_add_to_hash_table`. -/
def addToHashTable (item : Bytes) : ItemInfo where
  size := recordSize item
  alignedSize := align4 (recordSize item)
  pathLength := pathLength item
  data := item.take (recordSize item)

/-- What `file_integrity_parser` fills in. -/
structure ParsedItem where
  hashLength : ℕ
  extendSize : ℕ
  pathLength : ℕ
  isEnable : ℤ
  isControl : ℤ
  isFullPath : ℤ
  hash : Bytes
  extendBuffer : Option Bytes
  path : Option Bytes

/-- `file_integrity_parser`.  It copies `size` bytes from the data of the record,
four more than the data has: `after` is what follows in memory. -/
def fileIntegrityParser (after : Bytes) (item : ItemInfo) : ParsedItem :=
  let buf := itemData item.data ++ after ++ List.replicate (item.alignedSize - item.size) 0
  { hashLength := lenHash
    extendSize := extendSize item.data
    pathLength := item.pathLength
    isEnable := if itemFlags item.data &&& 1 ≠ 0 then 1 else 0
    isControl := if itemFlags item.data &&& 2 ≠ 0 then 1 else 0
    isFullPath := if itemFlags item.data &&& 4 ≠ 0 then 1 else 0
    hash := buf
    extendBuffer := if extendSize item.data ≠ 0 then some (buf.drop lenHash) else none
    path := if item.pathLength ≠ 0 then some (buf.drop (lenHash + extendSize item.data)) else none }

/-- The bytes at a pointer, none for a null pointer. -/
def bytesAt (p : Option Bytes) (n : ℕ) : Bytes := (p.getD []).take n

/-- The parsed record gives back the item: flags, digest, extended data, path. -/
structure ParsesTo (x : ItemUser) (y : ParsedItem) : Prop where
  isEnable : y.isEnable = x.isEnable
  isControl : y.isControl = x.isControl
  isFullPath : y.isFullPath = x.isFullPath
  hash : some (y.hash.take y.hashLength) = x.hash
  extendSize : y.extendSize = (x.extendBuffer.getD []).length
  extendBuffer : bytesAt y.extendBuffer y.extendSize = x.extendBuffer.getD []
  pathLength : y.pathLength = (x.path.getD []).length
  path : bytesAt y.path y.pathLength = x.path.getD []

/-- **The round trip:** the update splits into the items, in order and without
a rest, and each record parses to its item. -/
def RoundTrip (after : Bytes) (items : List ItemUser) (u : FileIntegrityUpdate) : Prop :=
  ∃ split, bufferToItemArray u.data u.dataLength.toNat = .ok split ∧
    (split.map fun p => align4 (recordSize p)).sum = u.data.length ∧
    List.Forall₂ (fun x p => ParsesTo x (fileIntegrityParser after (addToHashTable p))) items split

/-- A null pointer comes with a length that the header stores as `0`. -/
def Consistent (x : ItemUser) : Prop :=
  (x.extendBuffer = none → x.extendSize.toNat % 256 = 0) ∧
    (x.path = none → x.pathLength.toNat % 65536 = 0)

/-! ### One record -/

section Record

variable {x : ItemUser} {fill : ℕ → UInt8} {pos : ℕ}

/-- What an accepted item looks like. -/
theorem checkItem_ok (h : checkItem x = .ok ()) :
    (∃ d, x.hash = some d ∧ d.length = 32) ∧
    (∀ b, x.extendBuffer = some b → 0 < b.length ∧ b.length < 255) ∧
    (∀ b, x.path = some b → b.length ≤ 4096) ∧
    (x.isEnable = 0 ∨ x.isEnable = 1) ∧ (x.isControl = 0 ∨ x.isControl = 1) ∧
      (x.isFullPath = 0 ∨ x.isFullPath = 1) := by
  unfold checkItem at h
  split_ifs at h with h₁ h₂ h₃ h₄ h₅ h₆ h₇
  obtain ⟨d, hd⟩ : ∃ d, x.hash = some d := Option.ne_none_iff_exists'.mp fun h0 => h₁ (by rw [h0]; rfl)
  refine ⟨⟨d, hd, ?_⟩, fun b hb => ?_, fun b hb => ?_, ?_, ?_, ?_⟩
  · have h32 : x.hashLength.toNat = 32 := not_not.mp h₃
    rw [x.length_hash d hd, h32]
  · have hlen := x.length_extend b hb
    simp only [hb, Option.isSome_some, Bool.true_and, Bool.or_eq_true, decide_eq_true_eq] at h₂
    omega
  · have hlen := x.length_path b hb
    have hmax : ¬ x.pathLength.toNat > 4096 := by
      intro hgt
      exact h₄ (by simp [hb, maxPathLength, hgt])
    omega
  · simpa [isBoolValueLegal, or_iff_not_imp_left] using h₅
  · simpa [isBoolValueLegal, or_iff_not_imp_left] using h₆
  · simpa [isBoolValueLegal, or_iff_not_imp_left] using h₇

theorem length_encodeItem : (encodeItem fill pos x).length = encodedSize x := by
  have hle := le_align4 (encodeData x).length
  rw [encodeItem, List.length_append, List.length_append, List.length_map, List.length_range,
    encodedSize]
  change 4 + _ + _ = _
  omega

/-- The header declares the lengths of the item, cut to 8 and 16 bits. -/
theorem header_encodeItem (fill : ℕ → UInt8) (pos : ℕ) (x : ItemUser) (rest : Bytes) :
    extendSize (encodeItem fill pos x ++ rest) = x.extendSize.toNat % 256 ∧
      pathLength (encodeItem fill pos x ++ rest) = x.pathLength.toNat % 65536 ∧
      itemFlags (encodeItem fill pos x ++ rest) = encodeFlags x := by
  rw [encodeItem, List.append_assoc, List.append_assoc]
  obtain ⟨h₁, h₂, h₃⟩ := header_append (h := encodeHeader x) (show 4 ≤ 4 by omega)
    (encodeData x ++ ((List.range (align4 (encodeData x).length - (encodeData x).length)).map
      (fun j => fill (pos + 4 + (encodeData x).length + j)) ++ rest))
  rw [h₁, h₂, h₃]
  refine ⟨?_, ?_, rfl⟩
  · change (UInt8.ofNat x.extendSize.toNat).toNat = _
    rw [UInt8.toNat_ofNat']
  · change (UInt8.ofNat (x.pathLength.toNat % 65536 / 256)).toNat * 256 +
      (UInt8.ofNat x.pathLength.toNat).toNat = _
    rw [UInt8.toNat_ofNat', UInt8.toNat_ofNat']
    omega

/-- **A consistent item declares the record that is written.** -/
theorem consistent_iff (h : checkItem x = .ok ()) : Consistent x ↔
    x.extendSize.toNat % 256 = (x.extendBuffer.getD []).length ∧
      x.pathLength.toNat % 65536 = (x.path.getD []).length := by
  obtain ⟨-, hext, hpath, -⟩ := checkItem_ok h
  refine and_congr ?_ ?_
  · cases he : x.extendBuffer with
    | none => simp
    | some b =>
        have hlen := x.length_extend b he
        have hb := hext b he
        simp only [reduceCtorEq, false_imp_iff, Option.getD_some, true_iff]
        omega
  · cases hp : x.path with
    | none => simp
    | some b =>
        have hlen := x.length_path b hp
        have hb := hpath b hp
        simp only [reduceCtorEq, false_imp_iff, Option.getD_some, true_iff]
        omega

theorem recordSize_encodeItem (h : checkItem x = .ok ()) (hc : Consistent x) (rest : Bytes) :
    recordSize (encodeItem fill pos x ++ rest) = 4 + (encodeData x).length := by
  obtain ⟨⟨d, hd, hdlen⟩, -⟩ := checkItem_ok h
  obtain ⟨he, hp⟩ := (consistent_iff h).mp hc
  obtain ⟨h₁, h₂, -⟩ := header_encodeItem fill pos x rest
  rw [recordSize, h₁, h₂, he, hp, encodeData, hd, List.length_append, List.length_append,
    Option.getD_some, hdlen]
  omega

theorem align4_encodeItem (h : checkItem x = .ok ()) (hc : Consistent x) (rest : Bytes) :
    align4 (recordSize (encodeItem fill pos x ++ rest)) = (encodeItem fill pos x).length := by
  rw [recordSize_encodeItem h hc, align4_add_four, length_encodeItem, encodedSize]

/-- The lengths a parsed record has are those its header declares. -/
theorem parser_lengths (after item : Bytes) :
    (fileIntegrityParser after (addToHashTable item)).extendSize = extendSize item ∧
      (fileIntegrityParser after (addToHashTable item)).pathLength = pathLength item := by
  have hn : 4 ≤ recordSize item := by
    unfold recordSize
    omega
  exact ⟨(header_take hn item).1, rfl⟩

theorem consistent_of_parsesTo {after rest : Bytes} (h : checkItem x = .ok ())
    (hp : ParsesTo x (fileIntegrityParser after (addToHashTable (encodeItem fill pos x ++ rest)))) :
    Consistent x := by
  obtain ⟨he, hl⟩ := parser_lengths after (encodeItem fill pos x ++ rest)
  obtain ⟨h₁, h₂, -⟩ := header_encodeItem fill pos x rest
  rw [consistent_iff h, ← hp.extendSize, ← hp.pathLength, he, hl, h₁, h₂]
  exact ⟨rfl, rfl⟩

/-- The three flags are read back from their bits. -/
theorem encodeFlags_bits (hen : x.isEnable = 0 ∨ x.isEnable = 1)
    (hco : x.isControl = 0 ∨ x.isControl = 1) (hfu : x.isFullPath = 0 ∨ x.isFullPath = 1) :
    (if encodeFlags x &&& 1 ≠ 0 then (1 : ℤ) else 0) = x.isEnable ∧
      (if encodeFlags x &&& 2 ≠ 0 then (1 : ℤ) else 0) = x.isControl ∧
      (if encodeFlags x &&& 4 ≠ 0 then (1 : ℤ) else 0) = x.isFullPath := by
  unfold encodeFlags
  rcases hen with hen | hen <;> rcases hco with hco | hco <;> rcases hfu with hfu | hfu <;>
    rw [hen, hco, hfu] <;> decide

/-- The bytes at a pointer into a buffer that is null when there are none. -/
theorem bytesAt_append (b rest : Bytes) :
    bytesAt (if b.length ≠ 0 then some (b ++ rest) else none) b.length = b := by
  unfold bytesAt
  split_ifs with h
  · rw [Option.getD_some, List.take_left]
  · rw [not_not, List.length_eq_zero_iff] at h
    rw [h]
    rfl

/-- **A consistent item is parsed back**, whatever stands after its record. -/
theorem parsesTo_encodeItem (after rest : Bytes) (h : checkItem x = .ok ()) (hc : Consistent x) :
    ParsesTo x (fileIntegrityParser after (addToHashTable (encodeItem fill pos x ++ rest))) := by
  obtain ⟨⟨d, hd, hdlen⟩, -, -, hen, hco, hfu⟩ := checkItem_ok h
  obtain ⟨hext, hpl⟩ := (consistent_iff h).mp hc
  obtain ⟨h₁, h₂, h₃⟩ := header_encodeItem fill pos x rest
  have hdata : (encodeItem fill pos x ++ rest).take (recordSize (encodeItem fill pos x ++ rest)) =
      encodeHeader x ++ encodeData x := by
    rw [recordSize_encodeItem h hc, encodeItem, List.append_assoc, List.append_assoc,
      ← List.append_assoc]
    exact List.take_left' (List.length_append)
  have hitem : itemData (encodeHeader x ++ encodeData x) = encodeData x := rfl
  have hflags : itemFlags (encodeHeader x ++ encodeData x) = encodeFlags x := rfl
  have hext' : extendSize (encodeHeader x ++ encodeData x) = (x.extendBuffer.getD []).length := by
    rw [← hdata, (header_take (by unfold recordSize; omega) _).1, h₁, hext]
  have hpl' : pathLength (encodeItem fill pos x ++ rest) = (x.path.getD []).length := h₂.trans hpl
  unfold fileIntegrityParser addToHashTable
  simp only [hdata, hitem, hflags, hext', hpl']
  have hbuf : encodeData x ++ after ++ List.replicate
      (align4 (recordSize (encodeItem fill pos x ++ rest)) -
        recordSize (encodeItem fill pos x ++ rest)) 0 =
      d ++ (x.extendBuffer.getD [] ++ (x.path.getD [] ++ (after ++ List.replicate
        (align4 (recordSize (encodeItem fill pos x ++ rest)) -
          recordSize (encodeItem fill pos x ++ rest)) 0))) := by
    rw [encodeData, hd, Option.getD_some, List.append_assoc, List.append_assoc, List.append_assoc]
  obtain ⟨hb₁, hb₂, hb₃⟩ := encodeFlags_bits hen hco hfu
  rw [hbuf]
  refine ⟨hb₁, hb₂, hb₃, ?_, rfl, ?_, rfl, ?_⟩
  · rw [hd]
    exact congrArg some (List.take_left' hdlen)
  · simp only [List.drop_left' (show d.length = lenHash from hdlen)]
    exact bytesAt_append _ _
  · simp only [← List.append_assoc d, List.drop_left' (show (d ++ x.extendBuffer.getD []).length =
      lenHash + (x.extendBuffer.getD []).length by rw [List.length_append, hdlen]; rfl)]
    exact bytesAt_append _ _

end Record

/-! ### The whole list -/

section List

variable {fill : ℕ → UInt8} {after : Bytes}

theorem prepareItems_ok {pos : ℕ} {items : List ItemUser} {d : Bytes}
    (h : prepareItems fill pos items = .ok d) :
    (∀ x ∈ items, checkItem x = .ok ()) ∧ d = encodeItems fill pos items := by
  induction items generalizing pos d with
  | nil =>
      obtain rfl := Except.ok.inj h
      exact ⟨fun x hx => absurd hx List.not_mem_nil, rfl⟩
  | cons x xs ih =>
      rw [prepareItems] at h
      cases hx : checkItem x with
      | error r =>
          rw [hx] at h
          exact absurd h (by simp)
      | ok u =>
          rw [hx] at h
          cases hr : prepareItems fill (pos + encodedSize x) xs with
          | error r =>
              rw [hr] at h
              exact absurd h (by simp [Except.map])
          | ok rest =>
              rw [hr] at h
              obtain ⟨hall, rfl⟩ := ih hr
              refine ⟨fun y hy => ?_, (Except.ok.inj h).symm⟩
              rcases List.mem_cons.mp hy with rfl | hy
              · exact hx
              · exact hall y hy

theorem length_encodeItems (fill : ℕ → UInt8) (pos : ℕ) (items : List ItemUser) :
    (encodeItems fill pos items).length = (items.map encodedSize).sum := by
  induction items generalizing pos with
  | nil => rfl
  | cons x xs ih =>
      rw [encodeItems, List.length_append, length_encodeItem, ih, List.map_cons, List.sum_cons]

/-- The records of a split take no more than the buffer and its padding. -/
theorem sum_align4_le {data : Bytes} {size : ℕ} {split : List Bytes}
    (h : bufferToItemArray data size = .ok split) :
    (split.map fun p => align4 (recordSize p)).sum ≤ size + 3 := by
  induction split generalizing data size with
  | nil => simp
  | cons p ps ih =>
      rw [bufferToItemArray_eq] at h
      split_ifs at h with h₀ h₁ h₂
      · exact absurd (Except.ok.inj h) (by simp)
      · obtain ⟨rfl, rfl⟩ := List.cons.inj (Except.ok.inj h)
        have := align4_le (recordSize data)
        simp only [List.map_cons, List.map_nil, List.sum_cons, List.sum_nil]
        omega
      · cases hr : bufferToItemArray (data.drop (align4 (recordSize data)))
          (size - align4 (recordSize data)) with
        | error r =>
            rw [hr] at h
            exact absurd h (by simp [Except.map])
        | ok rest =>
            rw [hr] at h
            obtain ⟨rfl, rfl⟩ := List.cons.inj (Except.ok.inj h)
            have := ih hr
            rw [List.map_cons, List.sum_cons]
            omega

/-- **Consistent items are split and parsed back.** -/
theorem split_encodeItems (fill : ℕ → UInt8) (after : Bytes) (pos : ℕ) {items : List ItemUser}
    (hok : ∀ x ∈ items, checkItem x = .ok ()) (hc : ∀ x ∈ items, Consistent x) :
    ∃ split, bufferToItemArray (encodeItems fill pos items) (encodeItems fill pos items).length =
        .ok split ∧
      (split.map fun p => align4 (recordSize p)).sum = (encodeItems fill pos items).length ∧
      List.Forall₂ (fun x p => ParsesTo x (fileIntegrityParser after (addToHashTable p))) items split := by
  induction items generalizing pos with
  | nil => exact ⟨[], rfl, rfl, List.Forall₂.nil⟩
  | cons x xs ih =>
      obtain ⟨ps, hps, hsum, hall⟩ : ∃ ps, bufferToItemArray
            (encodeItems fill (pos + encodedSize x) xs)
            (encodeItems fill (pos + encodedSize x) xs).length = .ok ps ∧
          (ps.map fun p => align4 (recordSize p)).sum =
            (encodeItems fill (pos + encodedSize x) xs).length ∧
          List.Forall₂ (fun x p => ParsesTo x (fileIntegrityParser after (addToHashTable p))) xs ps :=
        ih _ (fun y hy => hok y (List.mem_cons_of_mem _ hy)) fun y hy =>
          hc y (List.mem_cons_of_mem _ hy)
      have hx := hok x List.mem_cons_self
      have hcx := hc x List.mem_cons_self
      rw [encodeItems]
      generalize encodeItems fill (pos + encodedSize x) xs = rest at hps hsum ⊢
      have halign : align4 (recordSize (encodeItem fill pos x ++ rest)) =
          (encodeItem fill pos x).length := align4_encodeItem hx hcx rest
      have hle := le_align4 (recordSize (encodeItem fill pos x ++ rest))
      have hpos : 0 < recordSize (encodeItem fill pos x ++ rest) := by
        unfold recordSize
        omega
      have hlen : (encodeItem fill pos x ++ rest).length =
          (encodeItem fill pos x).length + rest.length := List.length_append
      refine ⟨(encodeItem fill pos x ++ rest) :: ps, ?_, ?_,
        List.Forall₂.cons (parsesTo_encodeItem after rest hx hcx) hall⟩
      · rw [bufferToItemArray_eq, if_neg (by omega), if_pos (by omega), halign]
        split_ifs with hlast
        · have hnil : rest.length = 0 := by omega
          rw [hnil] at hps
          rw [Except.ok.inj (show (.ok [] : Except ℤ (List Bytes)) = .ok ps from hps)]
        · rw [List.drop_left, hlen, Nat.add_sub_cancel_left, hps]
          rfl
      · rw [List.map_cons, List.sum_cons, hsum, halign, hlen]

/-- **Only consistent items are parsed back.** -/
theorem consistent_of_split {pos : ℕ} {items : List ItemUser} {size : ℕ} {split : List Bytes}
    (hok : ∀ x ∈ items, checkItem x = .ok ())
    (hsplit : bufferToItemArray (encodeItems fill pos items) size = .ok split)
    (hall : List.Forall₂
      (fun x p => ParsesTo x (fileIntegrityParser after (addToHashTable p))) items split) :
    ∀ x ∈ items, Consistent x := by
  induction items generalizing pos size split with
  | nil => exact fun x hx => absurd hx List.not_mem_nil
  | cons x xs ih =>
      cases hall with
      | @cons _ p _ ps hp hps =>
          have hx := hok x List.mem_cons_self
          rw [encodeItems, bufferToItemArray_eq] at hsplit
          split_ifs at hsplit with h₀ h₁ h₂
          · exact absurd (Except.ok.inj hsplit) (by simp)
          · obtain ⟨rfl, rfl⟩ := List.cons.inj (Except.ok.inj hsplit)
            cases hps
            intro y hy
            rw [List.mem_singleton.mp hy]
            exact consistent_of_parsesTo hx hp
          · cases hr : bufferToItemArray _ _ with
            | error r =>
                rw [hr] at hsplit
                exact absurd hsplit (by simp [Except.map])
            | ok rest =>
                rw [hr] at hsplit
                obtain ⟨rfl, rfl⟩ := List.cons.inj (Except.ok.inj hsplit)
                have hcx := consistent_of_parsesTo hx hp
                rw [align4_encodeItem hx hcx, List.drop_left] at hr
                intro y hy
                rcases List.mem_cons.mp hy with rfl | hy
                · exact hcx
                · exact ih (fun z hz => hok z (List.mem_cons_of_mem _ hz)) hr hps y hy

end List

/-- **When the reference list survives the round trip.**  For every list of items
that `tcf_prepare_update_file_integrity` accepts: the update splits into exactly
these items and each parses back to its flags, digest, extended data and path, if
and only if every null extend buffer comes with an `extend_size` that is `0` modulo
256, every null path with a `path_length` that is `0` modulo 65536, and the records
take less than 4 GiB. -/
theorem file_integrity_round_trip_iff (fill : ℕ → UInt8) (after : Bytes) (items : List ItemUser)
    (tpcmId : Bytes) (action : UInt32) (replayCounter : UInt64) (u : FileIntegrityUpdate)
    (h : prepareUpdateFileIntegrity fill items tpcmId action replayCounter = .ok u) :
    RoundTrip after items u ↔
      (∀ x ∈ items, (x.extendBuffer = none → x.extendSize.toNat % 256 = 0) ∧
        (x.path = none → x.pathLength.toNat % 65536 = 0)) ∧
      (items.map encodedSize).sum < 4294967296 := by
  unfold prepareUpdateFileIntegrity at h
  split_ifs at h with hid
  cases hp : prepareItems fill 56 items with
  | error r =>
      rw [hp] at h
      exact absurd h (by simp [Except.map])
  | ok d =>
      rw [hp] at h
      obtain rfl := Except.ok.inj h
      obtain ⟨hok, rfl⟩ := prepareItems_ok hp
      have hlen := length_encodeItems fill 56 items
      constructor
      · rintro ⟨split, hsplit, hsum, hall⟩
        refine ⟨consistent_of_split hok hsplit hall, ?_⟩
        have hle := sum_align4_le hsplit
        simp only [hsum, UInt32.toNat_ofNat'] at hle
        omega
      · rintro ⟨hc, hsize⟩
        obtain ⟨split, hsplit, hsum, hall⟩ := split_encodeItems fill after 56 hok hc
        refine ⟨split, ?_, hsum, hall⟩
        simp only [UInt32.toNat_ofNat']
        rw [Nat.mod_eq_of_lt (by omega)]
        exact hsplit

/-- An item with a digest, an extend size and nothing else. -/
def bareItem (extendSize : UInt32) : ItemUser where
  hashLength := 32
  pathLength := 0
  isControl := 0
  isEnable := 1
  isFullPath := 1
  extendSize := extendSize
  hash := some (List.replicate 32 1)
  path := none
  extendBuffer := none
  length_hash := fun b hb => by
    rw [← Option.some.inj hb, List.length_replicate]
    rfl
  length_path := fun b hb => absurd hb (by simp)
  length_extend := fun b hb => absurd hb (by simp)

/-- Two items without extended data and path make the round trip. -/
theorem file_integrity_round_trip_bare :
    ∃ u, prepareUpdateFileIntegrity (fun _ => 0) [bareItem 0, bareItem 0] [1] 0 0 = .ok u ∧
      RoundTrip [] [bareItem 0, bareItem 0] u := by
  refine ⟨_, rfl, (file_integrity_round_trip_iff (fun _ => 0) [] [bareItem 0, bareItem 0] [1] 0 0 _
    rfl).mpr ⟨fun x hx => ?_, by decide⟩⟩
  rcases List.mem_pair.mp hx with rfl | rfl <;> exact ⟨fun _ => rfl, fun _ => rfl⟩

/-- **A null extend buffer with a size breaks the list.**  One item with a digest,
no path, no extend buffer and `extend_size` 4 is accepted; its record declares 4 bytes
more than it has, and the update does not split. -/
theorem file_integrity_null_extend_not_read_back :
    ¬ ∀ (fill : ℕ → UInt8) (after : Bytes) (items : List ItemUser) (tpcmId : Bytes)
      (action : UInt32) (replayCounter : UInt64) (u : FileIntegrityUpdate),
      prepareUpdateFileIntegrity fill items tpcmId action replayCounter = .ok u →
        RoundTrip after items u := by
  intro hall
  obtain ⟨split, hsplit, -, hparse⟩ := hall (fun _ => 0) [] [bareItem 4] [1] 0 0 _ rfl
  have hcheck : ∀ x ∈ [bareItem 4], checkItem x = .ok () := by
    intro x hx
    rw [List.mem_singleton.mp hx]
    rfl
  have hdata : bufferToItemArray (encodeItems (fun _ => 0) 56 [bareItem 4]) 36 = .ok split := hsplit
  have hc := consistent_of_split hcheck hdata hparse (bareItem 4) List.mem_cons_self
  exact absurd (hc.1 rfl) (by decide)

end FileIntegrity
end TsbAgent
