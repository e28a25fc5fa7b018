/-
# The directory of NV spaces

`nvinfo` is a file of `struct nv_save_info`, one after the other: 280 bytes each and then
the name of a process or a role, if there is one.  The functions of
`tss-main/tcs/tcsapi/tcsu/tcs_store.c` that read and write it: `tcs_utils_nv_info_convert`,
`tcs_utils_get_nv_info`, `tcs_is_nv_name_defined`, `tcs_utils_nv_info_list_add`,
`tcs_utils_nv_info_list_delete` and `tcs_read_nv_list`.

A name is compared with `strcmp`, up to its end.  A name of `MAX_NV_NAME_SIZE` characters
has no end of its own and runs on into the flags; `strcmp_name` needs `Terminated` for
that reason.
-/

import TsbAgent.Lib.Packed
import TsbAgent.Lib.Word
import TsbAgent.Lib.File
import TsbAgent.Tcs.Basic
import Mathlib.Data.List.TakeDrop

namespace TsbAgent
namespace Tcs

open Libc Word Packed
open File (Stream)

/-! ### Records -/

/-- `MAX_NV_NAME_SIZE`. -/
def maxNvNameSize : ℕ := 256

/-- `sizeof(struct nv_save_info)`. -/
def nvSaveInfoSize : ℕ := 280

/-- A `char[MAX_NV_NAME_SIZE]`. -/
abbrev NvName := { b : Bytes // b.length = maxNvNameSize }

/-- The array after the name has been copied into zeros. -/
def NvName.ofCStr (s : CStr) : NvName := ⟨s.bytes.takeD maxNvNameSize 0, List.takeD_length _ _ _⟩

/-- `struct nv_info`.  The password is never saved, and `size` is the bits of an `int`. -/
structure NvInfo where
  index : UInt32
  size : UInt32
  name : NvName
  policyFlags : UInt32
  userOrGroup : UInt32
  processOrRole : Option CStr
deriving DecidableEq

namespace NvInfo

variable (e : NvInfo)

/-- The name as a string. -/
def nameStr : CStr := CStr.ofBytes e.name.1

/-- The process or role with its end, nothing for `NULL`. -/
def prBytes : Bytes :=
  match e.processOrRole with
  | none => []
  | some s => s.bytes ++ [0]

/-- The `struct nv_save_info`. -/
def encoded : Bytes :=
  hostBytes 4 e.index.toNat ++ (hostBytes 4 e.size.toNat ++ (e.name.1 ++
    (hostBytes 4 e.policyFlags.toNat ++ (hostBytes 4 e.userOrGroup.toNat ++
      (hostBytes 8 e.prBytes.length ++ e.prBytes)))))

/-- The name ends in its field, or right after it. -/
def Terminated : Prop := (0 : UInt8) ∈ e.name.1 ∨ e.policyFlags.toNat % 256 = 0

end NvInfo

/-- `policy_flags = -1`: the space has no policy. -/
def noPolicy : UInt32 := 0xFFFFFFFF

/-- The flag `AUTH_TO_SAVE` of `tcs_utils_nv_info_convert`.  From 2 GiB on the length of the
process or role is negative as an `int`, and `malloc` gives nothing. -/
def nvInfoToSave (malloc : Bool) (e : NvInfo) : Except TssErr Bytes :=
  if e.prBytes.length ≥ 2 ^ 31 ∨ ¬ malloc then .error .nomem else .ok e.encoded

/-- `curnv->prlength`, of the record at `p`. -/
def prLength (p : Bytes) : ℕ := hostAt p 272 8

/-- What a record takes, the loops add it to a `uint32_t`. -/
def nvSize (p : Bytes) : ℕ := nvSaveInfoSize + prLength p

/-- The flag `SAVE_TO_AUTH` of `tcs_utils_nv_info_convert`. -/
def nvInfoToAuth (p : Bytes) : NvInfo where
  index := UInt32.ofNat (hostAt p 0 4)
  size := UInt32.ofNat (hostAt p 4 4)
  name := ⟨(p.drop 8).takeD maxNvNameSize 0, List.takeD_length _ _ _⟩
  policyFlags := UInt32.ofNat (hostAt p 264 4)
  userOrGroup := UInt32.ofNat (hostAt p 268 4)
  processOrRole := if prLength p = 0 then none else some (CStr.ofBytes (fieldAt p 280 (prLength p)))

/-! ### The file -/

/-- What `tcs_util_sem_get` comes to. -/
inductive SemGet
  | taken
  | timeout
  | failed

def SemGet.err : SemGet → Option TssErr
  | taken => none
  | timeout => some .semTimeout
  | failed => some .sem

/-- What the system grants a reader of the file; `heap` follows the buffer in memory. -/
structure NvRead where
  sem : SemGet
  opens : Bool
  malloc : Bool
  reads : Bool
  heap : Bytes

/-- The length of the file, in a `uint32_t`. -/
def nvLength (f : Bytes) : ℕ := f.length % 2 ^ 32

/-- The search loop of `tcs_utils_get_nv_info` and `tcs_utils_nv_info_list_delete`: the offset
of the first record with the property.  The loop ends within as many rounds as there are
offsets or never. -/
def nvSeek (f heap : Bytes) (hit : Bytes → Bool) : Option (Option ℕ) :=
  seek (2 ^ 32) nvSize (f.take (nvLength f) ++ heap) (nvLength f) hit (nvLength f) 0

/-- `!strcmp(curnv->name, name)`. -/
def hasName (name : CStr) (p : Bytes) : Bool := strcmp (p.drop 8) name.bytes = 0

/-- `curnv->index == index`. -/
def hasIndex (index : UInt32) (p : Bytes) : Bool := hostAt p 0 4 = index.toNat

/-- `tcs_utils_get_nv_info` by name or by index: the memory from the record on.  `none` when
the loop does not end. -/
def tcsUtilsGetNvInfo (io : NvRead) (file : Option Bytes) (hit : Bytes → Bool) :
    Option (Except TssErr Bytes) :=
  match io.sem.err, file with
  | some e, _ => some (.error e)
  | none, none => some (.error .file)
  | none, some f =>
      if ¬ io.opens then some (.error .file)
      else if nvLength f = 0 then some (.error .file)
      else if ¬ io.malloc then some (.error .nomem)
      else if ¬ io.reads then some (.error .write)
      else (nvSeek f io.heap hit).map fun found =>
        match found with
        | none => .error .parameter
        | some off => .ok ((f.take (nvLength f) ++ io.heap).drop off)

/-- `tcs_is_nv_name_defined`: an error counts as a number that is not 0. -/
def tcsIsNvNameDefined (io : NvRead) (file : Option Bytes) (name : CStr) :
    Option (Except TssErr Bool) :=
  if File.size file = 0 then some (.ok false)
  else
    (tcsUtilsGetNvInfo io file (hasName name)).map fun ret =>
      match ret with
      | .ok _ => .ok true
      | .error .parameter => .ok false
      | .error e => .error e

/-- What the system grants `tcs_utils_nv_info_list_add`. -/
structure NvAdd where
  sem : SemGet
  out : Stream

/-- `tcs_utils_nv_info_list_add`. -/
def tcsUtilsNvInfoListAdd (io : NvAdd) (file : Option Bytes) (data : Bytes) :
    Option TssErr × Option Bytes :=
  match io.sem.err with
  | some e => (some e, file)
  | none =>
      let old := file.getD []
      if ¬ io.out.opens then (some .file, file)
      else if io.out.room < data.length then
        (some .write, some (old ++ io.out.kept (data.take io.out.room)))
      else (none, some (old ++ io.out.kept data))

/-- What the system grants `tcs_utils_nv_info_list_delete`: the reader, the memory for the new
file, and the writer. -/
structure NvDelete where
  read : NvRead
  malloc : Bool
  out : Stream

/-- The file without the record at an offset.  After a write that falls short the source tries
to write the old file too, where no byte fits any more. -/
def nvRewrite (io : NvDelete) (f : Bytes) : Option ℕ → Option TssErr × Option Bytes
  | none => (none, some f)
  | some off =>
      let old := f.take (nvLength f)
      let cur := nvSize ((old ++ io.read.heap).drop off) % 2 ^ 32
      let new := old.take off ++ old.drop (off + cur)
      if ¬ io.malloc then (some .nomem, some f)
      else if ¬ io.out.opens then (some .file, some f)
      else if io.out.room < new.length then (some .write, some (io.out.kept (new.take io.out.room)))
      else (none, some (io.out.kept new))

/-- `tcs_utils_nv_info_list_delete`. -/
def tcsUtilsNvInfoListDelete (io : NvDelete) (file : Option Bytes) (index : UInt32) :
    Option (Option TssErr × Option Bytes) :=
  match io.read.sem.err, file with
  | some e, _ => some (some e, file)
  | none, none => some (some .file, file)
  | none, some f =>
      if ¬ io.read.opens then some (some .file, file)
      else if nvLength f = 0 then some (none, file)
      else if ¬ io.read.malloc then some (some .nomem, file)
      else if ¬ io.read.reads then some (some .write, file)
      else (nvSeek f io.read.heap (hasIndex index)).map (nvRewrite io f)

/-- What the system grants `tcs_read_nv_list`: `creates` when there is no file yet, `infos` for
the array. -/
structure NvReadList where
  read : NvRead
  creates : Bool
  infos : Bool

/-- `tcs_read_nv_list`. -/
def tcsReadNvList (io : NvReadList) (file : Option Bytes) : Option (Except TssErr (List NvInfo)) :=
  match io.read.sem.err with
  | some e => some (.error e)
  | none =>
      match file.or (if io.creates then some [] else none) with
      | none => some (.error .file)
      | some f =>
          if ¬ io.read.opens then some (.error .file)
          else if ¬ io.read.malloc then some (.error .nomem)
          else if ¬ io.read.reads then some (.error .write)
          else
            (collect (2 ^ 32) nvSize (f.take (nvLength f) ++ io.read.heap) (nvLength f) nvInfoToAuth
              (nvLength f + 1) 0).map fun infos =>
              if ¬ io.infos then .error .nomem else .ok infos

section Records

variable {e : NvInfo} {name : CStr} {r : Bytes}

theorem NvInfo.length_encoded : e.encoded.length = nvSaveInfoSize + e.prBytes.length := by
  simp only [NvInfo.encoded, List.length_append, length_hostBytes, e.name.2, maxNvNameSize,
    nvSaveInfoSize]
  omega

/-- The fields of a record, whatever follows it. -/
theorem prLength_encoded (hpr : e.prBytes.length < 2 ^ 31) :
    prLength (e.encoded ++ r) = e.prBytes.length := by
  have hsplit : e.encoded ++ r = (hostBytes 4 e.index.toNat ++ hostBytes 4 e.size.toNat ++ e.name.1 ++
      hostBytes 4 e.policyFlags.toNat ++ hostBytes 4 e.userOrGroup.toNat) ++
        (hostBytes 8 e.prBytes.length ++ (e.prBytes ++ r)) := by
    simp only [NvInfo.encoded, List.append_assoc]
  rw [prLength, hsplit]
  refine hostAt_append ?_ (by omega)
  simp only [List.length_append, length_hostBytes, e.name.2, maxNvNameSize]

theorem sized_encoded (hpr : e.prBytes.length < 2 ^ 31) : Sized NvInfo.encoded nvSize e where
  size_eq r := by rw [nvSize, prLength_encoded hpr, NvInfo.length_encoded]
  pos := by rw [NvInfo.length_encoded, nvSaveInfoSize]; omega

theorem drop_name : (e.encoded ++ r).drop 8 = e.name.1 ++ (hostBytes 4 e.policyFlags.toNat ++
    (hostBytes 4 e.userOrGroup.toNat ++ (hostBytes 8 e.prBytes.length ++ (e.prBytes ++ r)))) := by
  have hsplit : e.encoded ++ r = (hostBytes 4 e.index.toNat ++ hostBytes 4 e.size.toNat) ++
      (e.name.1 ++ (hostBytes 4 e.policyFlags.toNat ++ (hostBytes 4 e.userOrGroup.toNat ++
        (hostBytes 8 e.prBytes.length ++ (e.prBytes ++ r))))) := by
    simp only [NvInfo.encoded, List.append_assoc]
  rw [hsplit]
  exact List.drop_left' (by simp)

/-- **A name that ends is compared as a string.** -/
theorem hasName_encoded (ht : e.Terminated) : hasName name (e.encoded ++ r) = decide (e.nameStr = name) := by
  have hcstr : cstr ((e.encoded ++ r).drop 8) = cstr e.name.1 := by
    rw [drop_name]
    by_cases h0 : (0 : UInt8) ∈ e.name.1
    · exact cstr_append_of_mem h0 _
    · -- the field has no end, but the flags start with a zero byte
      have hflags : UInt8.ofNat e.policyFlags.toNat = 0 := by
        rw [← UInt8.toNat_inj, UInt8.toNat_ofNat']
        exact ht.resolve_left h0
      rw [cstr_append_of_notMem h0, cstr_of_nulFree h0, hostBytes, hflags]
      simp [cstr]
  have hiff : strcmp ((e.encoded ++ r).drop 8) name.bytes = 0 ↔ e.nameStr = name := by
    rw [strcmp_eq_zero_iff_cstr, hcstr, cstr_of_nulFree name.nulFree]
    exact ⟨fun h => CStr.ext h, fun h => h ▸ rfl⟩
  rw [hasName, decide_eq_decide]
  exact hiff

theorem hasIndex_encoded {index : UInt32} : hasIndex index (e.encoded ++ r) = decide (e.index = index) := by
  have hat : hostAt (e.encoded ++ r) 0 4 = e.index.toNat := by
    rw [NvInfo.encoded, List.append_assoc]
    exact hostAt_append (a := []) rfl e.index.toNat_lt
  rw [hasIndex, hat, decide_eq_decide, UInt32.toNat_inj]

theorem processOrRole_encoded (hpr : e.prBytes.length < 2 ^ 31) :
    (nvInfoToAuth (e.encoded ++ r)).processOrRole = e.processOrRole := by
  have hfield : fieldAt (e.encoded ++ r) 280 e.prBytes.length = e.prBytes := by
    have hsplit : e.encoded ++ r = (hostBytes 4 e.index.toNat ++ hostBytes 4 e.size.toNat ++ e.name.1 ++
        hostBytes 4 e.policyFlags.toNat ++ hostBytes 4 e.userOrGroup.toNat ++
          hostBytes 8 e.prBytes.length) ++ (e.prBytes ++ r) := by
      simp only [NvInfo.encoded, List.append_assoc]
    rw [hsplit]
    refine fieldAt_append ?_ rfl
    simp only [List.length_append, length_hostBytes, e.name.2, maxNvNameSize]
  simp only [nvInfoToAuth, prLength_encoded hpr, hfield]
  unfold NvInfo.prBytes
  cases e.processOrRole with
  | none => rfl
  | some s =>
      have hstr : CStr.ofBytes (s.bytes ++ [0]) = s := by
        refine CStr.ext ?_
        change cstr (s.bytes ++ [0]) = s.bytes
        rw [cstr_append_of_notMem s.nulFree]
        simp [cstr]
      simp [hstr]

/-- **What was saved is what is restored.** -/
theorem nvInfoToAuth_encoded (hpr : e.prBytes.length < 2 ^ 31) : nvInfoToAuth (e.encoded ++ r) = e := by
  have hrole := processOrRole_encoded (r := r) hpr
  have hindex : hostAt (e.encoded ++ r) 0 4 = e.index.toNat := by
    rw [NvInfo.encoded, List.append_assoc]
    exact hostAt_append (a := []) rfl e.index.toNat_lt
  have hsize : hostAt (e.encoded ++ r) 4 4 = e.size.toNat := by
    rw [NvInfo.encoded, List.append_assoc, List.append_assoc]
    exact hostAt_append (length_hostBytes 4 _) e.size.toNat_lt
  have hname : ((e.encoded ++ r).drop 8).takeD maxNvNameSize 0 = e.name.1 := by
    rw [drop_name]
    exact List.takeD_left' e.name.2
  have hlen : (hostBytes 4 e.index.toNat ++ hostBytes 4 e.size.toNat ++ e.name.1).length = 264 := by
    simp only [List.length_append, length_hostBytes, e.name.2, maxNvNameSize]
  have hflags : hostAt (e.encoded ++ r) 264 4 = e.policyFlags.toNat := by
    have hsplit : e.encoded ++ r = (hostBytes 4 e.index.toNat ++ hostBytes 4 e.size.toNat ++ e.name.1) ++
        (hostBytes 4 e.policyFlags.toNat ++ (hostBytes 4 e.userOrGroup.toNat ++
          (hostBytes 8 e.prBytes.length ++ (e.prBytes ++ r)))) := by
      simp only [NvInfo.encoded, List.append_assoc]
    rw [hsplit]
    exact hostAt_append hlen e.policyFlags.toNat_lt
  have howner : hostAt (e.encoded ++ r) 268 4 = e.userOrGroup.toNat := by
    have hsplit : e.encoded ++ r = (hostBytes 4 e.index.toNat ++ hostBytes 4 e.size.toNat ++ e.name.1 ++
        hostBytes 4 e.policyFlags.toNat) ++ (hostBytes 4 e.userOrGroup.toNat ++
          (hostBytes 8 e.prBytes.length ++ (e.prBytes ++ r))) := by
      simp only [NvInfo.encoded, List.append_assoc]
    rw [hsplit]
    refine hostAt_append ?_ e.userOrGroup.toNat_lt
    rw [List.length_append, hlen, length_hostBytes]
  rw [nvInfoToAuth] at hrole ⊢
  simp only at hrole
  simp only [hindex, hsize, hname, hflags, howner, hrole, UInt32.ofNat_toNat]

end Records

section Directory

variable {l as bs : List NvInfo} {e : NvInfo} {hit : Bytes → Bool} {heap : Bytes}

/-- The file of a directory. -/
def nvFile (l : List NvInfo) : Bytes := l.flatMap NvInfo.encoded

/-- The file can be read as a directory: it has less than 4 GiB, and no process or role has
more than 2 GiB. -/
structure NvFits (l : List NvInfo) : Prop where
  small : (nvFile l).length < 2 ^ 32
  roles : ∀ e ∈ l, e.prBytes.length < 2 ^ 31

theorem NvFits.sized (h : NvFits l) : ∀ e ∈ l, Sized NvInfo.encoded nvSize e :=
  fun e he => sized_encoded (h.roles e he)

theorem NvFits.nvLength (h : NvFits l) : nvLength (nvFile l) = (nvFile l).length :=
  Nat.mod_eq_of_lt h.small

theorem NvFits.length_le (h : NvFits l) : l.length ≤ (nvFile l).length := length_le_flatMap h.sized

theorem nvFile_eq_nil (h : NvFits l) : (nvFile l).length = 0 ↔ l = [] := by
  have hle := h.length_le
  constructor
  · intro h0
    exact List.length_eq_zero_iff.mp (by omega)
  · rintro rfl
    rfl

/-- The search finds the first record with the property. -/
theorem nvSeek_hit (h : NvFits (as ++ e :: bs)) (has : ∀ a ∈ as, ∀ r, hit (a.encoded ++ r) = false)
    (he : ∀ r, hit (e.encoded ++ r) = true) :
    nvSeek (nvFile (as ++ e :: bs)) heap hit = some (some (nvFile as).length) := by
  have hfuel := h.length_le
  rw [List.length_append, List.length_cons] at hfuel
  rw [nvSeek, h.nvLength, List.take_length]
  exact seek_hit [] h.sized has he h.small (by omega)

theorem nvSeek_miss (h : NvFits l) (hne : l ≠ []) (hl : ∀ e ∈ l, ∀ r, hit (e.encoded ++ r) = false) :
    nvSeek (nvFile l) heap hit = some none := by
  rw [nvSeek, h.nvLength, List.take_length]
  exact seek_miss [] h.sized hl hne h.small h.length_le

/-- The system grants everything that the reader asks for. -/
structure NvRead.Granted (io : NvRead) : Prop where
  sem : io.sem.err = none
  opens : io.opens = true
  malloc : io.malloc = true
  reads : io.reads = true

/-- The file, if there is one, holds the directory. -/
def NvHeld (file : Option Bytes) (l : List NvInfo) : Prop :=
  file = none ∧ l = [] ∨ file = some (nvFile l)

variable {io : NvRead} {file file' : Option Bytes} {name : CStr} {index : UInt32}

/-- A record is only found by a reader that gets everything. -/
theorem granted_of_get {f p : Bytes} (h : tcsUtilsGetNvInfo io (some f) hit = some (.ok p)) :
    io.Granted ∧ nvLength f ≠ 0 := by
  unfold tcsUtilsGetNvInfo at h
  cases hsem : io.sem.err with
  | some e => simp [hsem] at h
  | none =>
      simp only [hsem] at h
      split_ifs at h with ho h0 hm hr
      · simp at h
      · exact ⟨⟨hsem, ho, hm, hr⟩, h0⟩
      · simp at h
      · simp at h
      · simp at h

/-- Nor is a record missed by any other reader. -/
theorem granted_of_miss {f : Bytes} (h : tcsUtilsGetNvInfo io (some f) hit = some (.error .parameter)) :
    io.Granted := by
  unfold tcsUtilsGetNvInfo at h
  cases hsem : io.sem with
  | taken =>
      simp only [hsem, SemGet.err] at h
      split_ifs at h with ho h0 hm hr
      · simp at h
      · exact ⟨by rw [hsem]; rfl, ho, hm, hr⟩
      · simp at h
      · simp at h
      · simp at h
  | timeout => simp [hsem, SemGet.err] at h
  | failed => simp [hsem, SemGet.err] at h

theorem get_of_granted {f : Bytes} (hio : io.Granted) (h0 : nvLength f ≠ 0) :
    tcsUtilsGetNvInfo io (some f) hit = (nvSeek f io.heap hit).map fun found =>
      match found with
      | none => .error .parameter
      | some off => .ok ((f.take (nvLength f) ++ io.heap).drop off) := by
  simp [tcsUtilsGetNvInfo, hio.sem, hio.opens, hio.malloc, hio.reads, h0]

theorem nvLength_ne_zero (h : NvFits l) (hne : l ≠ []) : nvLength (nvFile l) ≠ 0 := by
  rw [h.nvLength]
  exact mt (nvFile_eq_nil h).mp hne

/-- **A record is found where it stands.** -/
theorem get_hit (hio : io.Granted) (h : NvFits (as ++ e :: bs))
    (has : ∀ a ∈ as, ∀ r, hit (a.encoded ++ r) = false) (he : ∀ r, hit (e.encoded ++ r) = true) :
    tcsUtilsGetNvInfo io (some (nvFile (as ++ e :: bs))) hit =
      some (.ok (e.encoded ++ (nvFile bs ++ io.heap))) := by
  rw [get_of_granted hio (nvLength_ne_zero h (by simp)), nvSeek_hit h has he, h.nvLength,
    List.take_length]
  simp [nvFile]

theorem get_miss (hio : io.Granted) (h : NvFits l) (hne : l ≠ [])
    (hl : ∀ e ∈ l, ∀ r, hit (e.encoded ++ r) = false) :
    tcsUtilsGetNvInfo io (some (nvFile l)) hit = some (.error .parameter) := by
  rw [get_of_granted hio (nvLength_ne_zero h hne), nvSeek_miss h hne hl]
  rfl

/-- The first entry with a name, among entries whose names end. -/
theorem name_split (ht : ∀ e ∈ l, e.Terminated) (hmem : ∃ e ∈ l, e.nameStr = name) :
    ∃ as e bs, l = as ++ e :: bs ∧ e.nameStr = name ∧
      (∀ a ∈ as, ∀ r, hasName name (a.encoded ++ r) = false) ∧
      ∀ r, hasName name (e.encoded ++ r) = true := by
  have hfind : (l.find? fun e => decide (e.nameStr = name)).isSome = true := by
    rw [List.find?_isSome]
    simpa using hmem
  obtain ⟨e, he⟩ := Option.isSome_iff_exists.mp hfind
  obtain ⟨hname, as, bs, rfl, has⟩ := List.find?_eq_some_iff_append.mp he
  have hname : e.nameStr = name := by simpa using hname
  refine ⟨as, e, bs, rfl, hname, fun a ha r => ?_, fun r => ?_⟩
  · rw [hasName_encoded (ht a (by simp [ha]))]
    simpa using has a ha
  · rw [hasName_encoded (ht e (by simp)), decide_eq_true_eq]
    exact hname

/-- **Looking up a name:** defined exactly when an entry has it. -/
theorem isNvNameDefined_eq (hio : io.Granted) (h : NvFits l) (hheld : NvHeld file l)
    (ht : ∀ e ∈ l, e.Terminated) :
    tcsIsNvNameDefined io file name = some (.ok (decide (∃ e ∈ l, e.nameStr = name))) := by
  unfold tcsIsNvNameDefined
  rcases hheld with ⟨rfl, rfl⟩ | rfl
  · simp [File.size]
  · by_cases hnil : l = []
    · subst hnil
      simp [File.size, nvFile]
    · have hsize : File.size (some (nvFile l)) ≠ 0 := mt (nvFile_eq_nil h).mp hnil
      rw [if_neg hsize]
      by_cases hmem : ∃ e ∈ l, e.nameStr = name
      · obtain ⟨as, e, bs, rfl, -, has, he⟩ := name_split ht hmem
        rw [get_hit hio h has he, decide_eq_true hmem]
        rfl
      · have hl : ∀ e ∈ l, ∀ r, hasName name (e.encoded ++ r) = false := by
          intro e he r
          rw [hasName_encoded (ht e he), decide_eq_false_iff_not]
          exact fun hname => hmem ⟨e, he, hname⟩
        rw [get_miss hio h hnil hl, decide_eq_false hmem]
        rfl

/-- **Reading the list** gives the directory. -/
theorem readNvList_eq {ior : NvReadList} (hio : ior.read.Granted) (hc : ior.creates = true)
    (hi : ior.infos = true) (h : NvFits l) (hheld : NvHeld file l) :
    tcsReadNvList ior file = some (.ok l) := by
  have hfile : file.or (some []) = some (nvFile l) := by
    rcases hheld with ⟨rfl, rfl⟩ | rfl <;> rfl
  have hcollect := @collect_packed _ (2 ^ 32) nvSize NvInfo.encoded l ior.read.heap _ [] _ _ id h.sized
    (fun e he r => nvInfoToAuth_encoded (h.roles e he)) h.small (Nat.lt_succ_of_le h.length_le)
  rw [List.map_id] at hcollect
  have hcollect' : collect (2 ^ 32) nvSize (nvFile l ++ ior.read.heap) (nvFile l).length nvInfoToAuth
      ((nvFile l).length + 1) 0 = some l := hcollect
  simp only [tcsReadNvList, hio.sem, hc, if_true, hfile, hio.opens, hio.malloc, hio.reads, hi,
    not_true_eq_false, if_false, h.nvLength, List.take_length, hcollect', Option.map_some]

/-- Deleting the record of an index, from a directory without duplicates. -/
theorem filter_index (hnodup : ((as ++ e :: bs).map NvInfo.index).Nodup) :
    (as ++ e :: bs).filter (fun x => x.index ≠ e.index) = as ++ bs := by
  rw [List.map_append, List.map_cons, List.nodup_append] at hnodup
  obtain ⟨-, hcons, hdisj⟩ := hnodup
  obtain ⟨hbs, -⟩ := List.nodup_cons.mp hcons
  have has : as.filter (fun x => x.index ≠ e.index) = as := by
    refine List.filter_eq_self.mpr fun a ha => ?_
    simpa using hdisj _ (List.mem_map_of_mem ha) _ List.mem_cons_self
  have hbs' : bs.filter (fun x => x.index ≠ e.index) = bs := by
    refine List.filter_eq_self.mpr fun b hb => ?_
    have hne : b.index ≠ e.index := fun heq => hbs (heq ▸ List.mem_map_of_mem hb)
    simpa using hne
  rw [List.filter_append, has, List.filter_cons_of_neg (by simp), hbs']

/-- The search for an index, in a directory. -/
theorem listDelete_seek (h : NvFits l) (hne : l ≠ []) (index : UInt32) (heap : Bytes) :
    (nvSeek (nvFile l) heap (hasIndex index) = some none ∧ l.filter (fun x => x.index ≠ index) = l) ∨
      ∃ as e bs, l = as ++ e :: bs ∧ e.index = index ∧
        nvSeek (nvFile l) heap (hasIndex index) = some (some (nvFile as).length) := by
  cases hfind : l.find? fun e => decide (e.index = index) with
  | none =>
      have hl : ∀ e ∈ l, e.index ≠ index := by simpa using List.find?_eq_none.mp hfind
      refine .inl ⟨nvSeek_miss h hne fun e he r => ?_, List.filter_eq_self.mpr ?_⟩
      · rw [hasIndex_encoded, decide_eq_false_iff_not]
        exact hl e he
      · simpa using hl
  | some e =>
      obtain ⟨hindex, as, bs, rfl, has⟩ := List.find?_eq_some_iff_append.mp hfind
      have hindex : e.index = index := by simpa using hindex
      refine .inr ⟨as, e, bs, rfl, hindex, nvSeek_hit h (fun a ha r => ?_) fun r => ?_⟩
      · rw [hasIndex_encoded]
        simpa using has a ha
      · rw [hasIndex_encoded, decide_eq_true_eq]
        exact hindex

/-- The file without one of its records. -/
theorem nvRewrite_eq {iod : NvDelete} (h : NvFits (as ++ e :: bs)) (hlost : iod.out.lost = 0)
    (hret : nvRewrite iod (nvFile (as ++ e :: bs)) (some (nvFile as).length) = (none, file')) :
    file' = some (nvFile (as ++ bs)) := by
  have hdrop : (nvFile (as ++ e :: bs) ++ iod.read.heap).drop (nvFile as).length =
      e.encoded ++ (nvFile bs ++ iod.read.heap) := by simp [nvFile]
  have hpr := h.roles e (by simp)
  have hlen : e.encoded.length = nvSaveInfoSize + e.prBytes.length := NvInfo.length_encoded
  have hcur : nvSize ((nvFile (as ++ e :: bs) ++ iod.read.heap).drop (nvFile as).length) % 2 ^ 32 =
      e.encoded.length := by
    rw [hdrop, (sized_encoded hpr).size_eq, hlen]
    refine Nat.mod_eq_of_lt ?_
    rw [nvSaveInfoSize]
    omega
  have hnew : (nvFile (as ++ e :: bs)).take (nvFile as).length ++
      (nvFile (as ++ e :: bs)).drop ((nvFile as).length + e.encoded.length) = nvFile (as ++ bs) := by
    have hfile : nvFile (as ++ e :: bs) = nvFile as ++ (e.encoded ++ nvFile bs) := by simp [nvFile]
    rw [hfile, List.take_left, ← List.drop_drop, List.drop_left, List.drop_left]
    simp [nvFile]
  simp only [nvRewrite, h.nvLength, List.take_length, hcur, hnew] at hret
  split_ifs at hret
  · simp at hret
  · simpa [Stream.kept, hlost, eq_comm] using hret
  · simp at hret
  · simp at hret

/-- **Deleting from the file removes the entry of the index.** -/
theorem listDelete_eq {iod : NvDelete} (h : NvFits l) (hnodup : (l.map NvInfo.index).Nodup)
    (hlost : iod.out.lost = 0)
    (hdel : tcsUtilsNvInfoListDelete iod (some (nvFile l)) index = some (none, file')) :
    file' = some (nvFile (l.filter fun x => x.index ≠ index)) := by
  unfold tcsUtilsNvInfoListDelete at hdel
  cases hsem : iod.read.sem.err with
  | some err => simp [hsem] at hdel
  | none =>
      simp only [hsem] at hdel
      by_cases hnil : l = []
      · subst hnil
        split_ifs at hdel <;> simp_all [nvLength, nvFile]
      · rw [if_neg (nvLength_ne_zero h hnil)] at hdel
        split_ifs at hdel
        · obtain ⟨found, hseek, hret⟩ := Option.map_eq_some_iff.mp hdel
          rcases listDelete_seek h hnil index iod.read.heap with
            ⟨hmiss, hsame⟩ | ⟨as, e, bs, rfl, rfl, hhit⟩
          · rw [hmiss] at hseek
            obtain rfl := Option.some.inj hseek
            rw [hsame]
            exact (Prod.ext_iff.mp hret).2.symm
          · rw [hhit] at hseek
            obtain rfl := Option.some.inj hseek
            rw [filter_index hnodup]
            exact nvRewrite_eq h hlost hret
        all_goals simp at hdel

/-- An entry that was added stands at the end. -/
theorem listAdd_eq {ioa : NvAdd} (hheld : NvHeld file l) (hlost : ioa.out.lost = 0)
    (hadd : tcsUtilsNvInfoListAdd ioa file e.encoded = (none, file')) :
    file' = some (nvFile (l ++ [e])) := by
  have hold : file.getD [] = nvFile l := by
    rcases hheld with ⟨rfl, rfl⟩ | rfl <;> rfl
  unfold tcsUtilsNvInfoListAdd at hadd
  cases hsem : ioa.sem.err with
  | some err => simp [hsem] at hadd
  | none =>
      simp only [hsem] at hadd
      split_ifs at hadd
      · simp at hadd
      · simpa [Stream.kept, hlost, hold, nvFile, eq_comm] using hadd
      · simp at hadd

end Directory

end Tcs
end TsbAgent
