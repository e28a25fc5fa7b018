/-
# The versions of the reference list

`tcf_update_file_integrity` keeps a record of every update in the directory
`file_integrity_update/`, and the version of the update is in the name of the record only:

```
<major>-<sub>-add.record      <major>-<sub>-del.record      <major>-<sub>-set.record
```

`check_file_integrity_version` reads the directory, cuts the names at the `-` and refuses an
update that is older than one of them.  An update that sets the list first removes all the
records and then writes its own.  So the history is lost when

* the removal stops half way,
* or the new record cannot be opened after it,
* or the file system does not tell the type of an entry, in which case the check sees nothing.

A record of 4294967295 bytes is taken for written when it cannot be opened: `-1 != length`
compares an `int` with an `unsigned`.  `integrity_versions_never_decrease` says that there is
nothing else.
-/

import TsbAgent.Httcutils.File
import TsbAgent.Lib.Run
import TsbAgent.Lib.Text
import TsbAgent.Tcf.Basic
import Mathlib.Data.Prod.Lex

namespace TsbAgent
namespace FileIntegrity

open Libc Word Text File Httcutils Tcf

/-- `get_major_version`. -/
def getMajorVersion (version : UInt64) : UInt64 := version &&& 0x0FFFFFFFFFFFFFFF

/-- `get_sub_version`, as an `int`. -/
def getSubVersion (version : UInt64) : ℤ := int32 (version >>> 60).toNat

/-- `POLICY_ACTION_SET`, `POLICY_ACTION_ADD` and `POLICY_ACTION_DELETE` of a record. -/
inductive RecordAction
  | set
  | add
  | del
deriving DecidableEq

/-- `set`, `add` and `del`. -/
def RecordAction.text : RecordAction → Bytes
  | set => [115, 101, 116]
  | add => [97, 100, 100]
  | del => [100, 101, 108]

/-- `record`. -/
def recordText : Bytes := [114, 101, 99, 111, 114, 100]

/-- The name of a record: `%ld-%d-add.record`. -/
def recordName (version : UInt64) (action : RecordAction) : Bytes :=
  printInt (getMajorVersion version).toNat ++ 45 :: (printInt (getSubVersion version) ++
    45 :: (action.text ++ 46 :: recordText))

/-- What `readdir` tells about an entry: its name, and whether `d_type` says that it is a
regular file. -/
structure DirEntry where
  name : Bytes
  regular : Bool

/-- The records in the directory, by their names. -/
abbrev RecordDir := List Bytes

/-- Any order in which a directory may be read. -/
structure Listing where
  entries : RecordDir → List DirEntry
  perm : ∀ s, ((entries s).map DirEntry.name).Perm ([46] :: [46, 46] :: s)

/-- A call of `tcf_update_file_integrity` and what it meets. -/
structure IntegrityCall where
  version : UInt64
  action : UInt32
  number : ℕ
  /-- `local_ref` and its length; the pointer may be null. -/
  localNull : Bool
  localRef : Bytes
  localRef_lt : localRef.length < 2 ^ 32
  /-- What `tcf_util_sem_get` returns. -/
  sem : Option TcfErr
  /-- `access` and `mkdir`, then `opendir` of the check. -/
  path : Bool
  opendir : Bool
  listing : Listing
  /-- What `file_integrity_set`, `file_integrity_add` or `file_integrity_del` returns. -/
  stored : Option TcfErr
  /-- `lstat` and `opendir` of `httc_util_rm`, its reading of the directory, and which files it
  can remove. -/
  rmOpens : Bool
  rmListing : Listing
  removable : Bytes → Bool
  /-- The stream of the new record. -/
  write : Stream

/-! ### The check -/

/-- The loop over the directory. -/
def checkEntries (majorVer : UInt64) (subVer : ℤ) : List DirEntry → Option TcfErr
  | [] => none
  | e :: es =>
      if strncmp 1 e.name [46] = 0 then checkEntries majorVer subVer es
      else if e.regular ∧ strncmp 6 (e.name.drop (e.name.length - 6)) recordText = 0 then
        match strtok 45 e.name with
        | none => some .parameter
        | some (token, rest) =>
            -- `atol` is compared as a `uint64_t`
            if (majorVer.toNat : ℤ) < atol token % 2 ^ 64 then some .version
            else if (majorVer.toNat : ℤ) = atol token % 2 ^ 64 then
              match strtok 45 rest with
              | none => checkEntries majorVer subVer es
              | some (token, _) =>
                  if subVer < atoi token then some .version else checkEntries majorVer subVer es
            else checkEntries majorVer subVer es
      else checkEntries majorVer subVer es

/-- `check_file_integrity_version`. -/
def checkFileIntegrityVersion (c : IntegrityCall) (s : RecordDir) : Option TcfErr :=
  if ¬ c.path then some .file
  else if ¬ c.opendir then some .parameter
  else checkEntries (getMajorVersion c.version) (getSubVersion c.version) (c.listing.entries s)

/-! ### The record of an update -/

/-- The loop of `remove_dir`: whether it gets to its end, and what is left. -/
def removeDir (removable : Bytes → Bool) : List DirEntry → RecordDir → Bool × RecordDir
  | [], s => (true, s)
  | e :: es, s =>
      if strncmp 1 e.name [46] = 0 then removeDir removable es s
      else if e.regular then
        if removable e.name then removeDir removable es (s.erase e.name) else (false, s)
      else removeDir removable es s

/-- `httc_util_rm (FILE_INTEGRITY_FILE_PATH"*")`. -/
def httcUtilRm (c : IntegrityCall) (s : RecordDir) : Bool × RecordDir :=
  if ¬ c.rmOpens then (false, s) else removeDir c.removable (c.rmListing.entries s) s

/-- Writing the record: the file is there once it is opened. -/
def writeRecord (c : IntegrityCall) (action : RecordAction) (s : RecordDir) : Option TcfErr × RecordDir :=
  let ret := (httcUtilFileWrite c.write none c.localRef).1
  (if ret % 2 ^ 32 ≠ c.localRef.length then some .file else none,
    if c.write.opens then s.insert (recordName c.version action) else s)

/-- `update_file_integrity_version`. -/
def updateFileIntegrityVersion (c : IntegrityCall) (s : RecordDir) : Option TcfErr × RecordDir :=
  if c.localNull then (some .parameter, s)
  else if c.action = 1 then writeRecord c .add s
  else if c.action = 2 then writeRecord c .del s
  else if c.action = 0 then
    let r := httcUtilRm c s
    if ¬ r.1 then (some .file, r.2) else writeRecord c .set r.2
  else (some .parameter, s)

/-- `tcf_update_file_integrity`: none is success. -/
def tcfUpdateFileIntegrity (c : IntegrityCall) (s : RecordDir) : Option TcfErr × RecordDir :=
  match c.sem with
  | some e => (some e, s)
  | none =>
      match checkFileIntegrityVersion c s with
      | some e => (some e, s)
      | none =>
          if ¬ (c.action = 0 ∨ c.action = 1 ∨ c.action = 2 ∧ c.number ≠ 0) then (some .parameter, s)
          else
            match c.stored with
            | some e => (some e, s)
            | none => if c.localRef = [] then (none, s) else updateFileIntegrityVersion c s

/-! ### What is claimed -/

/-- The order of the versions: the major version first. -/
def versionKey (version : UInt64) : ℕ ×ₗ ℕ := toLex (version.toNat % 2 ^ 60, version.toNat / 2 ^ 60)

/-- What is read from a name. -/
def parseName (name : Bytes) : Option (ℤ × ℤ) :=
  (strtok 45 name).bind fun r => (strtok 45 r.2).map fun r' => (atol r.1, atoi r'.1)

/-- The versions of the successful calls of a sequence. -/
def successVersions : RecordDir → List IntegrityCall → List UInt64
  | _, [] => []
  | s, c :: cs =>
      match tcfUpdateFileIntegrity c s with
      | (none, s') => c.version :: successVersions s' cs
      | (some _, s') => successVersions s' cs

/-- The directory after a call. -/
def integrityStep (s : RecordDir) (c : IntegrityCall) : Option RecordDir := some (tcfUpdateFileIntegrity c s).2

/-- No record is newer than the call. -/
def NotBelow (s : RecordDir) (version : UInt64) : Prop :=
  ∀ v a, recordName v a ∈ s → versionKey v ≤ versionKey version

/-- There is a record that is not older. -/
def Recorded (k : ℕ ×ₗ ℕ) (s : RecordDir) : Prop := ∃ v a, recordName v a ∈ s ∧ k ≤ versionKey v

/-- The directory holds records only. -/
def WellNamed (s : RecordDir) : Prop := ∀ n ∈ s, ∃ v a, n = recordName v a

/-- The call gets as far as its record. -/
structure Passes (s : RecordDir) (c : IntegrityCall) : Prop where
  sem : c.sem = none
  path : c.path = true
  opendir : c.opendir = true
  notBelow : NotBelow s c.version
  stored : c.stored = none
  localNull : c.localNull = false

/-- **The condition:** the check is told the type of the records; a record that cannot be opened
has not 4294967295 bytes; and a set that gets so far removes all the records and opens its own,
or leaves one that is as new as any. -/
structure KeepsRecords (s : RecordDir) (c : IntegrityCall) : Prop where
  listed : ∀ e ∈ c.listing.entries s, e.name ∈ s → e.regular = true
  opens : Passes s c → c.write.opens = true ∨ c.localRef.length ≠ 2 ^ 32 - 1
  kept : Passes s c → c.action = 0 →
    (httcUtilRm c s).1 = true ∧ c.write.opens = true ∨
      ∀ v a, recordName v a ∈ s → Recorded (versionKey v) (httcUtilRm c s).2

section Name

variable {v w : UInt64} {a : RecordAction}

theorem toNat_getMajorVersion (v : UInt64) : (getMajorVersion v).toNat = v.toNat % 2 ^ 60 := by
  rw [getMajorVersion, UInt64.toNat_and]
  exact Nat.and_two_pow_sub_one_eq_mod _ 60

theorem getSubVersion_eq (v : UInt64) : getSubVersion v = (v.toNat / 2 ^ 60 : ℕ) := by
  have hlt := v.toNat_lt
  have hshift : (v >>> 60).toNat = v.toNat / 2 ^ 60 := by
    rw [UInt64.toNat_shiftRight]
    exact Nat.shiftRight_eq_div_pow _ 60
  rw [getSubVersion, hshift]
  exact int32_eq (by omega) (by omega)

theorem versionKey_le : versionKey v ≤ versionKey w ↔
    v.toNat % 2 ^ 60 < w.toNat % 2 ^ 60 ∨
      v.toNat % 2 ^ 60 = w.toNat % 2 ^ 60 ∧ v.toNat / 2 ^ 60 ≤ w.toNat / 2 ^ 60 :=
  Prod.Lex.toLex_le_toLex

/-- A printed number holds no delimiter. -/
theorem printInt_token (n : ℕ) : printInt n ≠ [] ∧ (45 : UInt8) ∉ printInt n := by
  rw [printInt, if_neg (by omega), Int.toNat_natCast]
  exact ⟨decimal_ne_nil, fun h => absurd (isDigit_of_mem_decimal h) (by decide)⟩

/-- The two tokens of a name. -/
theorem strtok_recordName (v : UInt64) (a : RecordAction) :
    ∃ rest rest', strtok 45 (recordName v a) = some (printInt (v.toNat % 2 ^ 60 : ℕ), rest) ∧
      strtok 45 rest = some (printInt (v.toNat / 2 ^ 60 : ℕ), rest') := by
  obtain ⟨hmajor, hmajorFree⟩ := printInt_token (v.toNat % 2 ^ 60)
  obtain ⟨hsub, hsubFree⟩ := printInt_token (v.toNat / 2 ^ 60)
  rw [recordName, toNat_getMajorVersion, getSubVersion_eq]
  exact ⟨_, _, strtok_append hmajor hmajorFree, strtok_append hsub hsubFree⟩

theorem atol_major (v : UInt64) : atol (printInt (v.toNat % 2 ^ 60 : ℕ)) = (v.toNat % 2 ^ 60 : ℕ) := by
  have hlt : v.toNat % 2 ^ 60 < 2 ^ 60 := Nat.mod_lt _ (by decide)
  exact atol_printInt (hlt.trans (by decide))

theorem atoi_sub (v : UInt64) : atoi (printInt (v.toNat / 2 ^ 60 : ℕ)) = (v.toNat / 2 ^ 60 : ℕ) := by
  have hlt := v.toNat_lt
  exact atoi_printInt (by omega)

/-- **A name gives its version back.** -/
theorem parseName_recordName (v : UInt64) (a : RecordAction) :
    parseName (recordName v a) = some (((getMajorVersion v).toNat : ℤ), getSubVersion v) := by
  obtain ⟨rest, rest', hfirst, hsecond⟩ := strtok_recordName v a
  rw [parseName, hfirst, Option.bind_some, hsecond, Option.map_some, atol_major, atoi_sub, toNat_getMajorVersion,
    getSubVersion_eq]

theorem versionKey_of_name_eq {b : RecordAction} (h : recordName v a = recordName w b) :
    versionKey v = versionKey w := by
  have hparse := congrArg parseName h
  rw [parseName_recordName, parseName_recordName, toNat_getMajorVersion, toNat_getMajorVersion, getSubVersion_eq,
    getSubVersion_eq] at hparse
  obtain ⟨hmajor, hsub⟩ := Prod.mk.inj (Option.some.inj hparse)
  rw [versionKey, versionKey, Int.natCast_inj.mp hmajor, Int.natCast_inj.mp hsub]

/-- A name starts with a digit. -/
theorem recordName_not_dot (v : UInt64) (a : RecordAction) : strncmp 1 (recordName v a) [46] ≠ 0 := by
  rw [recordName, printInt, if_neg (by omega), Int.toNat_natCast]
  cases hd : decimal (getMajorVersion v).toNat with
  | nil => exact absurd hd decimal_ne_nil
  | cons c cs =>
      have hc : isDigit c = true := isDigit_of_mem_decimal (hd ▸ List.mem_cons_self)
      have hne : c ≠ 46 := by
        rintro rfl
        exact absurd hc (by decide)
      show (if c = 46 then _ else byteCmp c 46) ≠ 0
      rw [if_neg hne]
      exact fun h => hne (byteCmp_eq_zero.mp h)

theorem recordName_eq (v : UInt64) (a : RecordAction) : ∃ front, recordName v a = front ++ recordText := by
  refine ⟨printInt (getMajorVersion v).toNat ++ 45 :: (printInt (getSubVersion v) ++ 45 :: (a.text ++ [46])), ?_⟩
  rw [recordName, List.append_assoc, List.cons_append, List.append_assoc, List.cons_append, List.append_assoc]
  rfl

theorem strncmp_recordText (front : Bytes) :
    strncmp 6 ((front ++ recordText).drop ((front ++ recordText).length - 6)) recordText = 0 := by
  have hlen : (front ++ recordText).length - 6 = front.length := by
    rw [List.length_append]
    exact Nat.add_sub_cancel _ 6
  rw [hlen, List.drop_left]
  decide

/-- A name ends with `record`. -/
theorem recordName_record (v : UInt64) (a : RecordAction) :
    strncmp 6 ((recordName v a).drop ((recordName v a).length - 6)) recordText = 0 := by
  obtain ⟨front, hfront⟩ := recordName_eq v a
  rw [hfront]
  exact strncmp_recordText front

end Name

/-! ### The check sees the records -/

section Check

variable {version : UInt64} {es : List DirEntry} {s : RecordDir} {c : IntegrityCall}

theorem strncmp_dot (n : Bytes) : strncmp 1 (46 :: n) [46] = 0 := rfl

theorem dot_ne_recordName (n : Bytes) (v : UInt64) (a : RecordAction) : 46 :: n ≠ recordName v a := by
  intro heq
  refine recordName_not_dot v a ?_
  rw [← heq]
  exact strncmp_dot n

/-- The check goes on after a record exactly when it is not newer. -/
theorem checkEntries_record (v : UInt64) (a : RecordAction) :
    checkEntries (getMajorVersion version) (getSubVersion version) (⟨recordName v a, true⟩ :: es) =
      if versionKey v ≤ versionKey version then
        checkEntries (getMajorVersion version) (getSubVersion version) es
      else some .version := by
  obtain ⟨rest, rest', hfirst, hsecond⟩ := strtok_recordName v a
  have hmajor : ((v.toNat % 2 ^ 60 : ℕ) : ℤ) % 2 ^ 64 = (v.toNat % 2 ^ 60 : ℕ) :=
    Int.emod_eq_of_lt (by omega) (by omega)
  rw [checkEntries, if_neg (recordName_not_dot v a), if_pos ⟨rfl, recordName_record v a⟩, hfirst]
  dsimp only
  rw [hsecond, atol_major, hmajor]
  dsimp only
  rw [atoi_sub, toNat_getMajorVersion, getSubVersion_eq]
  by_cases hlt : version.toNat % 2 ^ 60 < v.toNat % 2 ^ 60
  · rw [if_pos (Int.ofNat_lt.mpr hlt), if_neg]
    rw [versionKey_le]
    omega
  rw [if_neg (mt Int.ofNat_lt.mp hlt)]
  by_cases heq : version.toNat % 2 ^ 60 = v.toNat % 2 ^ 60
  · rw [if_pos (Int.natCast_inj.mpr heq)]
    by_cases hsub : version.toNat / 2 ^ 60 < v.toNat / 2 ^ 60
    · rw [if_pos (Int.ofNat_lt.mpr hsub), if_neg]
      rw [versionKey_le]
      omega
    · rw [if_neg (mt Int.ofNat_lt.mp hsub), if_pos]
      exact versionKey_le.mpr (.inr ⟨heq.symm, not_lt.mp hsub⟩)
  · rw [if_neg (mt Int.natCast_inj.mp heq), if_pos]
    exact versionKey_le.mpr (.inl (lt_of_le_of_ne (not_lt.mp hlt) (Ne.symm heq)))

/-- An entry that is not told to be a regular file is passed over. -/
theorem checkEntries_irregular (n : Bytes) :
    checkEntries (getMajorVersion version) (getSubVersion version) (⟨n, false⟩ :: es) =
      checkEntries (getMajorVersion version) (getSubVersion version) es := by
  rw [checkEntries, ite_eq_left_iff]
  intro _
  exact if_neg fun h => Bool.false_ne_true h.1

/-- The entries of a directory of records. -/
def EntryName (n : Bytes) : Prop := n = [46] ∨ n = [46, 46] ∨ ∃ v a, n = recordName v a

/-- **The check refuses an update exactly when it is told of a newer record,** and for nothing
else than its version. -/
theorem checkEntries_eq_none_iff (hes : ∀ e ∈ es, EntryName e.name) :
    checkEntries (getMajorVersion version) (getSubVersion version) es = none ↔
      ∀ e ∈ es, e.regular = true → ∀ v a, e.name = recordName v a → versionKey v ≤ versionKey version := by
  induction es with
  | nil => exact iff_of_true rfl nofun
  | cons e es ih =>
      obtain ⟨he, hrest⟩ := List.forall_mem_cons.mp hes
      obtain ⟨n, regular⟩ := e
      rw [List.forall_mem_cons, ← ih hrest]
      rcases he with rfl | rfl | ⟨v, a, rfl⟩
      · rw [checkEntries, if_pos (strncmp_dot _)]
        exact (and_iff_right fun _ v a heq => absurd heq (dot_ne_recordName _ v a)).symm
      · rw [checkEntries, if_pos (strncmp_dot _)]
        exact (and_iff_right fun _ v a heq => absurd heq (dot_ne_recordName _ v a)).symm
      · cases regular with
        | false =>
            rw [checkEntries_irregular]
            exact (and_iff_right fun hfalse => nomatch hfalse).symm
        | true =>
            rw [checkEntries_record]
            by_cases hle : versionKey v ≤ versionKey version
            · rw [if_pos hle]
              refine (and_iff_right fun _ w b heq => ?_).symm
              rwa [← versionKey_of_name_eq heq]
            · rw [if_neg hle]
              exact iff_of_false (by simp) fun h => hle (h.1 rfl v a rfl)

theorem entryName_of_listing (hw : WellNamed s) (l : Listing) : ∀ e ∈ l.entries s, EntryName e.name := by
  intro e he
  have hmem := (l.perm s).mem_iff.mp (List.mem_map_of_mem he)
  rcases List.mem_cons.mp hmem with hdot | hmem
  · exact .inl hdot
  rcases List.mem_cons.mp hmem with hdots | hmem
  · exact .inr (.inl hdots)
  · exact .inr (.inr (hw _ hmem))

theorem exists_entry (l : Listing) {n : Bytes} (h : n ∈ s) : ∃ e ∈ l.entries s, e.name = n :=
  List.mem_map.mp ((l.perm s).mem_iff.mpr (List.mem_cons_of_mem _ (List.mem_cons_of_mem _ h)))

/-- An update that is not below a record is not refused for its version. -/
theorem check_of_notBelow (hw : WellNamed s) (h : NotBelow s c.version) :
    checkFileIntegrityVersion c s ≠ some .version := by
  unfold checkFileIntegrityVersion
  split_ifs with hpath hopen
  · rw [(checkEntries_eq_none_iff (entryName_of_listing hw c.listing)).mpr]
    · simp
    · intro e he hregular v a heq
      have hmem := (c.listing.perm s).mem_iff.mp (List.mem_map_of_mem he)
      rw [heq] at hmem
      exact h v a (List.mem_of_ne_of_mem (dot_ne_recordName _ v a).symm
        (List.mem_of_ne_of_mem (dot_ne_recordName _ v a).symm hmem))
  · simp
  · simp

/-- An update that passes the check is not below a record whose type is told. -/
theorem notBelow_of_check (hw : WellNamed s) (hlisted : ∀ e ∈ c.listing.entries s, e.name ∈ s → e.regular = true)
    (h : checkFileIntegrityVersion c s = none) :
    c.path = true ∧ c.opendir = true ∧ NotBelow s c.version := by
  unfold checkFileIntegrityVersion at h
  split_ifs at h with hpath hopen
  refine ⟨hpath, hopen, fun v a hmem => ?_⟩
  obtain ⟨e, he, hname⟩ := exists_entry c.listing hmem
  exact (checkEntries_eq_none_iff (entryName_of_listing hw c.listing)).mp h e he
    (hlisted e he (hname.symm ▸ hmem)) v a hname

end Check

/-! ### One call -/

section Call

variable {c : IntegrityCall} {s : RecordDir} {a : RecordAction} {k : ℕ ×ₗ ℕ}

theorem removeDir_subset (removable : Bytes → Bool) (es : List DirEntry) (s : RecordDir) :
    (removeDir removable es s).2 ⊆ s := by
  induction es generalizing s with
  | nil => exact List.Subset.refl s
  | cons e es ih =>
      rw [removeDir]
      split_ifs
      · exact ih s
      · exact List.Subset.trans (ih _) List.erase_subset
      · exact List.Subset.refl s
      · exact ih s

theorem httcUtilRm_subset (c : IntegrityCall) (s : RecordDir) : (httcUtilRm c s).2 ⊆ s := by
  rw [httcUtilRm]
  split_ifs
  · exact removeDir_subset _ _ s
  · exact List.Subset.refl s

theorem recorded_mono {t : RecordDir} (h : s ⊆ t) (hk : Recorded k s) : Recorded k t := by
  obtain ⟨v, a, hmem, hle⟩ := hk
  exact ⟨v, a, h hmem, hle⟩

theorem writeRecord_subset (c : IntegrityCall) (a : RecordAction) (s : RecordDir) : s ⊆ (writeRecord c a s).2 := by
  unfold writeRecord
  dsimp only
  split_ifs
  · exact fun n hn => List.mem_insert_of_mem hn
  · exact List.Subset.refl s

theorem recorded_writeRecord (hopens : c.write.opens = true) :
    Recorded (versionKey c.version) (writeRecord c a s).2 := by
  unfold writeRecord
  dsimp only
  rw [if_pos hopens]
  exact ⟨c.version, a, List.mem_insert_self, le_rfl⟩

/-- A record that counts as written has been opened, unless it has 4294967295 bytes. -/
theorem opens_of_writeRecord (hlen : c.write.opens = true ∨ c.localRef.length ≠ 2 ^ 32 - 1)
    (h : (writeRecord c a s).1 = none) : c.write.opens = true := by
  by_contra hclosed
  have hne := hlen.resolve_left hclosed
  have hret : (httcUtilFileWrite c.write none c.localRef).1 % 2 ^ 32 ≠ c.localRef.length := by
    rw [httcUtilFileWrite, if_pos hclosed]
    show (-1 : ℤ) % 2 ^ 32 ≠ c.localRef.length
    omega
  unfold writeRecord at h
  dsimp only at h
  rw [if_pos hret] at h
  exact absurd h (Option.some_ne_none _)

theorem wellNamed_writeRecord (hw : WellNamed s) : WellNamed (writeRecord c a s).2 := by
  unfold writeRecord
  dsimp only
  split_ifs
  · intro n hn
    rcases List.mem_insert_iff.mp hn with rfl | hn
    · exact ⟨_, _, rfl⟩
    · exact hw n hn
  · exact hw

theorem wellNamed_subset {t : RecordDir} (h : t ⊆ s) (hw : WellNamed s) : WellNamed t := fun n hn => hw n (h hn)

theorem wellNamed_update (hw : WellNamed s) : WellNamed (updateFileIntegrityVersion c s).2 := by
  unfold updateFileIntegrityVersion
  dsimp only
  split_ifs
  · exact hw
  · exact wellNamed_writeRecord hw
  · exact wellNamed_writeRecord hw
  · exact wellNamed_writeRecord (wellNamed_subset (httcUtilRm_subset c s) hw)
  · exact wellNamed_subset (httcUtilRm_subset c s) hw
  · exact hw

/-- **What a call can do:** fail and leave the directory alone, or get to its record. -/
theorem tcfUpdate_cases (hne : c.localRef ≠ []) :
    ((tcfUpdateFileIntegrity c s).1 ≠ none ∧ (tcfUpdateFileIntegrity c s).2 = s) ∨
      (c.sem = none ∧ checkFileIntegrityVersion c s = none ∧ c.stored = none ∧ c.localNull = false ∧
        tcfUpdateFileIntegrity c s = updateFileIntegrityVersion c s) := by
  unfold tcfUpdateFileIntegrity
  cases hsem : c.sem with
  | some e => exact .inl ⟨by simp, rfl⟩
  | none =>
      cases hcheck : checkFileIntegrityVersion c s with
      | some e => exact .inl ⟨by simp, rfl⟩
      | none =>
          dsimp only
          split_ifs with haction
          · cases hstored : c.stored with
            | some e => exact .inl ⟨by simp, rfl⟩
            | none =>
                dsimp only
                cases hnull : c.localNull with
                | false => exact .inr ⟨rfl, rfl, rfl, rfl, rfl⟩
                | true =>
                    rw [updateFileIntegrityVersion, if_pos hnull]
                    exact .inl ⟨by simp, rfl⟩
          · exact .inl ⟨by simp, rfl⟩

/-- Only the check, the semaphore and the store refuse an update for its version. -/
theorem tcfUpdate_version (h : (tcfUpdateFileIntegrity c s).1 = some .version) :
    c.sem = some .version ∨ checkFileIntegrityVersion c s = some .version ∨ c.stored = some .version := by
  have hwrite (a : RecordAction) (t : RecordDir) : (writeRecord c a t).1 ≠ some .version := by
    unfold writeRecord
    dsimp only
    split_ifs <;> simp
  have hupdate : (updateFileIntegrityVersion c s).1 ≠ some .version := by
    unfold updateFileIntegrityVersion
    dsimp only
    split_ifs <;> first | exact hwrite _ _ | simp
  unfold tcfUpdateFileIntegrity at h
  cases hsem : c.sem with
  | some e =>
      rw [hsem] at h
      exact .inl h
  | none =>
      cases hcheck : checkFileIntegrityVersion c s with
      | some e =>
          rw [hsem, hcheck] at h
          exact .inr (.inl h)
      | none =>
          cases hstored : c.stored with
          | some e =>
              rw [hsem, hcheck, hstored] at h
              dsimp only at h
              split_ifs at h
              · exact .inr (.inr h)
              · exact nomatch h
          | none =>
              rw [hsem, hcheck, hstored] at h
              dsimp only at h
              split_ifs at h
              · exact absurd h hupdate
              · exact nomatch h

theorem wellNamed_call (hne : c.localRef ≠ []) (hw : WellNamed s) : WellNamed (tcfUpdateFileIntegrity c s).2 := by
  rcases tcfUpdate_cases hne with ⟨-, hstate⟩ | ⟨-, -, -, -, heq⟩
  · rwa [hstate]
  · rw [heq]
    exact wellNamed_update hw

theorem recorded_trans {k' : ℕ ×ₗ ℕ} (h : k ≤ k') (hk : Recorded k' s) : Recorded k s := by
  obtain ⟨v, a, hmem, hle⟩ := hk
  exact ⟨v, a, hmem, h.trans hle⟩

/-- What a set leaves of a record, when the records are kept. -/
theorem recorded_set (hp : Passes s c) (hkeep : KeepsRecords s c) (hset : c.action = 0) (hk : Recorded k s) :
    ((httcUtilRm c s).1 = true → Recorded k (writeRecord c .set (httcUtilRm c s).2).2) ∧
      (¬ (httcUtilRm c s).1 = true → Recorded k (httcUtilRm c s).2) := by
  obtain ⟨v, a, hmem, hle⟩ := hk
  rcases hkeep.kept hp hset with ⟨hrm, hopens⟩ | hleft
  · refine ⟨fun _ => ?_, fun hfails => absurd hrm hfails⟩
    exact recorded_trans (hle.trans (hp.notBelow v a hmem)) (recorded_writeRecord hopens)
  · have hrecorded := recorded_trans hle (hleft v a hmem)
    exact ⟨fun _ => recorded_mono (writeRecord_subset c .set _) hrecorded, fun _ => hrecorded⟩

/-- **An update that passes loses no record that counts,** when the records are kept. -/
theorem recorded_update (hp : Passes s c) (hkeep : KeepsRecords s c) (hk : Recorded k s) :
    Recorded k (updateFileIntegrityVersion c s).2 := by
  unfold updateFileIntegrityVersion
  dsimp only
  split_ifs with hnull hadd hdel hset hrm
  · exact hk
  · exact recorded_mono (writeRecord_subset c .add s) hk
  · exact recorded_mono (writeRecord_subset c .del s) hk
  · exact (recorded_set hp hkeep hset hk).1 hrm
  · exact (recorded_set hp hkeep hset hk).2 hrm
  · exact hk

/-- **An update that succeeds has left its record.** -/
theorem recorded_of_success (hp : Passes s c) (hkeep : KeepsRecords s c)
    (h : (updateFileIntegrityVersion c s).1 = none) :
    Recorded (versionKey c.version) (updateFileIntegrityVersion c s).2 := by
  have hwrite {a : RecordAction} {t : RecordDir} (hnone : (writeRecord c a t).1 = none) :
      Recorded (versionKey c.version) (writeRecord c a t).2 :=
    recorded_writeRecord (opens_of_writeRecord (hkeep.opens hp) hnone)
  unfold updateFileIntegrityVersion at h ⊢
  dsimp only at h ⊢
  split_ifs at h ⊢ with hnull hadd hdel hset hrm
  · exact hwrite h
  · exact hwrite h
  · exact hwrite h

theorem passes_of_cases (hw : WellNamed s) (hkeep : KeepsRecords s c) (hsem : c.sem = none)
    (hcheck : checkFileIntegrityVersion c s = none) (hstored : c.stored = none) (hnull : c.localNull = false) :
    Passes s c := by
  obtain ⟨hpath, hopen, hbelow⟩ := notBelow_of_check hw hkeep.listed hcheck
  exact ⟨hsem, hpath, hopen, hbelow, hstored, hnull⟩

/-- **One call:** it loses no record that counts, and when it succeeds it is not below a record
and has left its own. -/
theorem tcfUpdate_spec (hne : c.localRef ≠ []) (hw : WellNamed s) (hkeep : KeepsRecords s c) :
    (∀ k, Recorded k s → Recorded k (tcfUpdateFileIntegrity c s).2) ∧
      ((tcfUpdateFileIntegrity c s).1 = none →
        NotBelow s c.version ∧ Recorded (versionKey c.version) (tcfUpdateFileIntegrity c s).2) := by
  rcases tcfUpdate_cases hne with ⟨hfails, hstate⟩ | ⟨hsem, hcheck, hstored, hnull, heq⟩
  · rw [hstate]
    exact ⟨fun _ hk => hk, fun hnone => absurd hnone hfails⟩
  · have hp := passes_of_cases hw hkeep hsem hcheck hstored hnull
    rw [heq]
    exact ⟨fun _ hk => recorded_update hp hkeep hk,
      fun hnone => ⟨hp.notBelow, recorded_of_success hp hkeep hnone⟩⟩

end Call

/-! ### Sequences of calls -/

section Sequence

variable {s : RecordDir} {cs : List IntegrityCall} {k : ℕ ×ₗ ℕ}

/-- After a version has been recorded, no older one succeeds. -/
theorem successVersions_ge (hne : ∀ c ∈ cs, c.localRef ≠ []) (hw : WellNamed s)
    (hkeep : Run.Meets integrityStep KeepsRecords s cs) (hk : Recorded k s) :
    ∀ v ∈ successVersions s cs, k ≤ versionKey v := by
  induction cs generalizing s with
  | nil => nofun
  | cons c cs ih =>
      obtain ⟨hc, hcs⟩ := List.forall_mem_cons.mp hne
      obtain ⟨hkeepc, hkeeprest⟩ := hkeep
      obtain ⟨hkeeps, hsuccess⟩ := tcfUpdate_spec hc hw hkeepc
      have hnext := ih hcs (wellNamed_call hc hw) (hkeeprest _ rfl) (hkeeps k hk)
      rw [successVersions]
      cases hrun : tcfUpdateFileIntegrity c s with
      | mk r s' =>
          rw [hrun] at hnext hsuccess
          cases r with
          | some e => exact hnext
          | none =>
              refine List.forall_mem_cons.mpr ⟨?_, hnext⟩
              obtain ⟨v, a, hmem, hle⟩ := hk
              exact hle.trans ((hsuccess rfl).1 v a hmem)

/-- **The versions of the successful updates do not decrease.** -/
theorem versions_nondecreasing (hne : ∀ c ∈ cs, c.localRef ≠ []) (hw : WellNamed s)
    (hkeep : Run.Meets integrityStep KeepsRecords s cs) :
    (successVersions s cs).Pairwise fun v w => versionKey v ≤ versionKey w := by
  induction cs generalizing s with
  | nil => exact List.Pairwise.nil
  | cons c cs ih =>
      obtain ⟨hc, hcs⟩ := List.forall_mem_cons.mp hne
      obtain ⟨hkeepc, hkeeprest⟩ := hkeep
      obtain ⟨-, hsuccess⟩ := tcfUpdate_spec hc hw hkeepc
      have hw' := wellNamed_call hc hw
      have hnext := ih hcs hw' (hkeeprest _ rfl)
      have hrest := hkeeprest _ rfl
      rw [successVersions]
      cases hrun : tcfUpdateFileIntegrity c s with
      | mk r s' =>
          rw [hrun] at hnext hsuccess hw' hrest
          cases r with
          | some e => exact hnext
          | none => exact List.Pairwise.cons (successVersions_ge hcs hw' hrest (hsuccess rfl).2) hnext

theorem wellNamed_run {s' : RecordDir} (hne : ∀ c ∈ cs, c.localRef ≠ []) (hw : WellNamed s)
    (hrun : Run.run integrityStep s cs = some s') : WellNamed s' := by
  have hok : Run.Meets integrityStep (fun _ c => c.localRef ≠ []) s cs :=
    Run.meets_of_forall fun c hc _ => hne c hc
  refine Run.run_invariant (fun s c s' hw hc hstep => ?_) hw hok hrun
  obtain rfl := Option.some.inj hstep
  exact wellNamed_call hc hw

end Sequence

/-- **The versions of the successful updates do not decrease** in any sequence of calls, from any
directory of records and for any order in which it is read, whose calls keep the records; **an
update that is not below a record is never refused for its version,** after any sequence of calls
at all, unless the store itself refuses it; **and a name gives its version back.** -/
theorem integrity_versions_never_decrease (s : RecordDir) (cs : List IntegrityCall) (hw : WellNamed s)
    (hne : ∀ c ∈ cs, c.localRef ≠ []) :
    (Run.Meets integrityStep KeepsRecords s cs →
      (successVersions s cs).Pairwise fun v w => versionKey v ≤ versionKey w) ∧
    (∀ (s' : RecordDir) (c : IntegrityCall), Run.run integrityStep s cs = some s' → NotBelow s' c.version →
      checkFileIntegrityVersion c s' ≠ some .version ∧
        ((tcfUpdateFileIntegrity c s').1 = some .version → c.sem = some .version ∨ c.stored = some .version)) ∧
    ∀ v a, parseName (recordName v a) = some (((getMajorVersion v).toNat : ℤ), getSubVersion v) := by
  refine ⟨versions_nondecreasing hne hw, fun s' c hrun hbelow => ?_, parseName_recordName⟩
  have hcheck := check_of_notBelow (wellNamed_run hne hw hrun) hbelow
  refine ⟨hcheck, fun hversion => ?_⟩
  rcases tcfUpdate_version hversion with hsem | hfail | hstored
  · exact .inl hsem
  · exact absurd hfail hcheck
  · exact .inr hstored

/-- The directory in its own order. -/
def plainListing : Listing where
  entries s := ⟨[46], false⟩ :: ⟨[46, 46], false⟩ :: s.map fun n => ⟨n, true⟩
  perm s := by
    rw [List.map_cons, List.map_cons, List.map_map]
    exact (List.Perm.of_eq (List.map_id s)).cons _ |>.cons _

/-- A call with a record of one byte that meets no trouble, but perhaps with the record. -/
def plainCall (version : UInt64) (action : UInt32) (opens : Bool) : IntegrityCall where
  version := version
  action := action
  number := 1
  localNull := false
  localRef := [0]
  localRef_lt := by decide
  sem := none
  path := true
  opendir := true
  listing := plainListing
  stored := none
  rmOpens := true
  rmListing := plainListing
  removable _ := true
  write := ⟨opens, 1, 0⟩

/-- A call whose record is opened keeps the records. -/
theorem plainCall_keeps {version : UInt64} {action : UInt32} {s : RecordDir} (hdot : [46] ∉ s ∧ [46, 46] ∉ s)
    (hrm : (httcUtilRm (plainCall version action true) s).1 = true) :
    KeepsRecords s (plainCall version action true) := by
  refine ⟨?_, fun _ => .inl rfl, fun _ _ => .inl ⟨hrm, rfl⟩⟩
  refine List.forall_mem_cons.mpr ⟨fun h => absurd h hdot.1,
    List.forall_mem_cons.mpr ⟨fun h => absurd h hdot.2, ?_⟩⟩
  intro e he _
  obtain ⟨n, -, rfl⟩ := List.mem_map.mp he
  rfl

theorem integrity_versions_five_six :
    successVersions [] [plainCall 5 1 true, plainCall 6 0 true] = [5, 6] ∧
      ([(5 : UInt64), 6].Pairwise fun v w => versionKey v ≤ versionKey w) ∧
      Run.run integrityStep [] [plainCall 5 1 true] = some [recordName 5 .add] ∧
      checkFileIntegrityVersion (plainCall 5 2 true) [recordName 5 .add] ≠ some .version := by
  have hsuccess : successVersions [] [plainCall 5 1 true, plainCall 6 0 true] = [5, 6] := by decide +kernel
  have hkeep : Run.Meets integrityStep KeepsRecords [] [plainCall 5 1 true, plainCall 6 0 true] := by
    refine ⟨plainCall_keeps (by decide) (by decide +kernel), ?_⟩
    intro s' hs'
    obtain rfl := Option.some.inj hs'
    refine ⟨plainCall_keeps (by decide +kernel) (by decide +kernel), fun _ _ => trivial⟩
  have hpair := (integrity_versions_never_decrease [] [plainCall 5 1 true, plainCall 6 0 true] nofun
    (by simp [plainCall])).1 hkeep
  have hrun : Run.run integrityStep [] [plainCall 5 1 true] = some [recordName 5 .add] := by decide +kernel
  have hbelow : NotBelow [recordName 5 .add] (plainCall 5 2 true).version := by
    intro v a hmem
    exact (versionKey_of_name_eq (List.mem_singleton.mp hmem)).le
  have hcheck := (integrity_versions_never_decrease [] [plainCall 5 1 true] nofun (by simp [plainCall])).2.1 _
    (plainCall 5 2 true) hrun hbelow
  rw [hsuccess] at hpair
  exact ⟨hsuccess, hpair, hrun, hcheck.1⟩

/-- **A set whose record cannot be opened erases the history:** after version 5 and a failed
version 6, version 1 succeeds. -/
theorem failed_set_erases_history :
    (tcfUpdateFileIntegrity (plainCall 6 0 false) (tcfUpdateFileIntegrity (plainCall 5 1 true) []).2).1 = some .file ∧
      successVersions [] [plainCall 5 1 true, plainCall 6 0 false, plainCall 1 1 true] = [5, 1] ∧
      ¬ ([(5 : UInt64), 1].Pairwise fun v w => versionKey v ≤ versionKey w) := by
  refine ⟨by decide +kernel, by decide +kernel, ?_⟩
  simp only [List.pairwise_cons, List.mem_singleton, forall_eq, versionKey_le]
  decide

end FileIntegrity
end TsbAgent
