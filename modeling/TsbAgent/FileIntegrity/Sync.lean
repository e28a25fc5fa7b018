/-
# Synchronising the reference list

`tcf_get_synchronized_file_integrity` gives back the updates that
`tcf_update_file_integrity` has recorded: it counts the records in the directory, makes room
for so many entries, and reads the directory once more.  A name is copied into `char str[20]`
without its last seven bytes, `.record`, and cut there into the major version, the sub version
and the action.

`str` takes 19 bytes and a zero.  What is copied has five bytes besides the digits of the two
versions, so the digits may be 14 at most; a major version has up to 19 digits and a sub
version up to two.  With 15 digits `strtok_r` finds no end, with more `memcpy` writes behind
`str`.  `tcfGetSynchronized_iff` says that there is nothing else as long as the records can be
read: the directory opens, the type of a record is told and its file holds 100 MiB at most.
-/

import TsbAgent.FileIntegrity.Version
import Mathlib.Data.List.Perm.Basic
import Mathlib.Data.List.Nodup
import Mathlib.Logic.Function.Basic

namespace TsbAgent
namespace FileIntegrity

open Libc Word Text File Httcutils Tcf

/-! ### The records with what they hold -/

/-- The directory of the records: the names, and what the file of a name holds. -/
structure RecordStore where
  names : RecordDir
  content : Bytes → Bytes

/-- The file of a name. -/
def RecordStore.file (st : RecordStore) (n : Bytes) : Option Bytes :=
  if n ∈ st.names then some (st.content n) else none

/-- Writing the record, with what gets into its file. -/
def writeRecordFile (c : IntegrityCall) (action : RecordAction) (st : RecordStore) : Option TcfErr × RecordStore :=
  let r := writeRecord c action st.names
  let file := (httcUtilFileWrite c.write (st.file (recordName c.version action)) c.localRef).2
  (r.1, ⟨r.2, Function.update st.content (recordName c.version action) (file.getD [])⟩)

/-- `update_file_integrity_version`, with the files. -/
def updateVersionFiles (c : IntegrityCall) (st : RecordStore) : Option TcfErr × RecordStore :=
  if c.localNull then (some .parameter, st)
  else if c.action = 1 then writeRecordFile c .add st
  else if c.action = 2 then writeRecordFile c .del st
  else if c.action = 0 then
    let r := httcUtilRm c st.names
    if ¬ r.1 then (some .file, ⟨r.2, st.content⟩) else writeRecordFile c .set ⟨r.2, st.content⟩
  else (some .parameter, st)

/-- `tcf_update_file_integrity`, with the files. -/
def tcfUpdateFiles (c : IntegrityCall) (st : RecordStore) : Option TcfErr × RecordStore :=
  match c.sem with
  | some e => (some e, st)
  | none =>
      match checkFileIntegrityVersion c st.names with
      | some e => (some e, st)
      | none =>
          if ¬ (c.action = 0 ∨ c.action = 1 ∨ c.action = 2 ∧ c.number ≠ 0) then (some .parameter, st)
          else
            match c.stored with
            | some e => (some e, st)
            | none => if c.localRef = [] then (none, st) else updateVersionFiles c st

/-- A successful call of `tcf_update_file_integrity`. -/
def successStep (st : RecordStore) (c : IntegrityCall) : Option RecordStore :=
  match tcfUpdateFiles c st with
  | (none, st') => some st'
  | (some _, _) => none

/-! ### Reading them back -/

/-- Any order in which the names of a directory may be read. -/
structure NameOrder where
  names : RecordDir → List Bytes
  perm : ∀ s, (names s).Perm ([46] :: [46, 46] :: s)

/-- A call of `tcf_get_synchronized_file_integrity` and what it meets. -/
structure SyncCall where
  smajor : UInt64
  emajor : UInt64
  /-- What `tcf_util_sem_get` returns. -/
  sem : Option TcfErr
  /-- `opendir` and the order of the names, when the records are counted and when they are read. -/
  countOpens : Bool
  countOrder : NameOrder
  readOpens : Bool
  readOrder : NameOrder
  /-- Whether `d_type` says that a record is a regular file. -/
  told : Bytes → Bool
  malloc : Bool
  read : Bytes → ReadIo

/-- What `readdir` gives. -/
def SyncCall.entries (c : SyncCall) (order : NameOrder) (s : RecordDir) : List DirEntry :=
  (order.names s).map fun n => ⟨n, c.told n⟩

/-- `struct file_integrity_sync`. -/
structure FileIntegritySync where
  smajor : UInt64
  sminor : UInt32
  length : UInt32
  action : UInt32
  data : Option Bytes
deriving DecidableEq

/-- What must not happen: a write behind `str`, a `str` without its end, a write behind the
entries, or a count that is not an `int`. -/
inductive SyncFault
  | write
  | unterminated
  | room
  | count
deriving DecidableEq

/-- The loop of `get_file_integrity_number`. -/
def countRecords : List DirEntry → ℕ
  | [] => 0
  | e :: es =>
      if strncmp 1 e.name [46] = 0 then countRecords es
      else if e.regular ∧ strncmp 6 (e.name.drop (e.name.length - 6)) recordText = 0 then countRecords es + 1
      else countRecords es

/-- `get_file_integrity_number`: a directory that cannot be opened has no records. -/
def getFileIntegrityNumber (c : SyncCall) (s : RecordDir) : Except SyncFault ℕ :=
  if ¬ c.countOpens then .ok 0
  else
    let num := countRecords (c.entries c.countOrder s)
    if num < 2 ^ 31 then .ok num else .error .count

/-- What a name says. -/
structure RecordFields where
  majorVer : UInt64
  subVer : ℤ
  action : UInt32

/-- The action of a token; any other text leaves the last one. -/
def tokenAction (action : UInt32) (token : Bytes) : UInt32 :=
  if token = RecordAction.text .add then 1
  else if token = RecordAction.text .del then 2
  else if token = RecordAction.text .set then 0
  else action

/-- Cutting a name in `str`: none where a token is missing. -/
def parseRecord (action : UInt32) (name : Bytes) : Except SyncFault (Option RecordFields) :=
  if name.length < 7 ∨ 20 < name.length - 7 then .error .write
  else if name.length - 7 = 20 then .error .unterminated
  else
    .ok <| (strtok 45 (name.take (name.length - 7))).bind fun major => (strtok 45 major.2).bind fun sub =>
      (strtok 45 sub.2).map fun token => ⟨UInt64.ofInt (atol major.1), atoi sub.1, tokenAction action token.1⟩

/-- The entry of a record: one that cannot be read has no data. -/
def syncEntry (c : SyncCall) (st : RecordStore) (name : Bytes) (p : RecordFields) : FileIntegritySync :=
  match httcUtilFileReadFull (c.read name) (st.file name) with
  | none => ⟨p.majorVer, UInt32.ofInt p.subVer, 0, p.action, none⟩
  | some data => ⟨p.majorVer, UInt32.ofInt p.subVer, UInt32.ofNat data.length, p.action, some data⟩

/-- The loop of `tcf_get_synchronized_file_integrity`, with the action and the entries so far. -/
def readRecords (c : SyncCall) (st : RecordStore) (number : ℕ) :
    UInt32 → List FileIntegritySync → List DirEntry → Except SyncFault (List FileIntegritySync)
  | _, file, [] => .ok file
  | action, file, e :: es =>
      if strncmp 1 e.name [46] = 0 then readRecords c st number action file es
      else if e.regular ∧ strncmp 6 (e.name.drop (e.name.length - 6)) recordText = 0 then
        match parseRecord action e.name with
        | .error f => .error f
        | .ok none => readRecords c st number action file es
        | .ok (some p) =>
            if p.majorVer ≥ c.smajor ∧ p.majorVer ≤ c.emajor then
              if file.length < number then
                readRecords c st number p.action (file ++ [syncEntry c st e.name p]) es
              else .error .room
            else readRecords c st number p.action file es
      else readRecords c st number action file es

/-- `tcf_get_synchronized_file_integrity`. -/
def tcfGetSynchronized (c : SyncCall) (st : RecordStore) :
    Except SyncFault (Except TcfErr (List FileIntegritySync)) :=
  match c.sem with
  | some e => .ok (.error e)
  | none =>
      match getFileIntegrityNumber c st.names with
      | .error f => .error f
      | .ok number =>
          if number = 0 then .ok (.ok [])
          else if ¬ c.malloc then .ok (.error .nomem)
          else if ¬ c.readOpens then .ok (.error .parameter)
          else (readRecords c st number 0 [] (c.entries c.readOrder st.names)).map .ok

/-! ### What is claimed -/

/-- A record of an update. -/
structure IntegrityRecord where
  version : UInt64
  action : RecordAction
  data : Bytes

/-- The name of the file that holds it. -/
def IntegrityRecord.name (r : IntegrityRecord) : Bytes := recordName r.version r.action

/-- `POLICY_ACTION_SET`, `POLICY_ACTION_ADD` and `POLICY_ACTION_DELETE`. -/
def RecordAction.code : RecordAction → UInt32
  | set => 0
  | add => 1
  | del => 2

/-- The action of a call. -/
def callAction (action : UInt32) : RecordAction := if action = 1 then .add else if action = 2 then .del else .set

/-- What a successful call records. -/
def recordOf (c : IntegrityCall) : IntegrityRecord := ⟨c.version, callAction c.action, c.localRef⟩

/-- The records after a successful call: a set forgets the others, and a second record of one
version and action takes the place of the first. -/
def record (h : List IntegrityRecord) (c : IntegrityCall) : List IntegrityRecord :=
  if c.action = 0 then [recordOf c]
  else recordOf c :: h.filter fun r => ¬ (r.version = c.version ∧ r.action = callAction c.action)

/-- The records that a sequence of successful calls leaves. -/
def history (h : List IntegrityRecord) (cs : List IntegrityCall) : List IntegrityRecord := cs.foldl record h

/-- The entry that a record should come back as. -/
def IntegrityRecord.entry (r : IntegrityRecord) : FileIntegritySync :=
  ⟨getMajorVersion r.version, (r.version >>> 60).toUInt32, UInt32.ofNat r.data.length, r.action.code, some r.data⟩

/-- The major version lies in the range of the call. -/
def SyncCall.InRange (c : SyncCall) (r : IntegrityRecord) : Prop :=
  c.smajor ≤ getMajorVersion r.version ∧ getMajorVersion r.version ≤ c.emajor

instance (c : SyncCall) (r : IntegrityRecord) : Decidable (c.InRange r) := inferInstanceAs (Decidable (_ ∧ _))

/-- One entry for each record in the range, as it was recorded. -/
def Answers (c : SyncCall) (h : List IntegrityRecord) (es : List FileIntegritySync) : Prop :=
  es.Perm ((h.filter fun r => c.InRange r).map IntegrityRecord.entry)

/-- The directory holds the records of a history. -/
structure Holds (st : RecordStore) (h : List IntegrityRecord) : Prop where
  names : st.names.Perm (h.map IntegrityRecord.name)
  nodup : (h.map IntegrityRecord.name).Nodup
  content : ∀ r ∈ h, st.content r.name = r.data
  nonempty : ∀ r ∈ h, r.data ≠ []

/-- A successful call leaves its record: the file is opened and closed without loss (a record of
4294967295 bytes counts as written also when it is not opened), and a set is told the types of
the records that it removes. -/
structure Leaves (st : RecordStore) (c : IntegrityCall) : Prop where
  opens : c.write.opens = true ∨ c.localRef.length ≠ 2 ^ 32 - 1
  lost : c.write.lost = 0
  told : c.action = 0 → ∀ e ∈ c.rmListing.entries st.names, e.name ∈ st.names → e.regular = true

/-- The digits of the two versions of a record fit into `str`. -/
def DigitsFit (r : IntegrityRecord) : Prop :=
  (decimal (r.version.toNat % 2 ^ 60)).length + (decimal (r.version.toNat / 2 ^ 60)).length ≤ 14

/-- **The condition:** the directory can be opened or has nothing to tell, it holds fewer than
2147483648 records, their digits fit, and those in the range can be read. -/
structure SyncsBack (c : SyncCall) (h : List IntegrityRecord) : Prop where
  opens : c.countOpens = true ∨ ∀ r ∈ h, ¬ c.InRange r
  few : c.countOpens = true → (h.filter fun r => c.told r.name).length < 2 ^ 31
  fits : c.countOpens = true → ∀ r ∈ h, c.told r.name = true → DigitsFit r
  reads : ∀ r ∈ h, c.InRange r →
    c.told r.name = true ∧ (c.read r.name).Granted ∧ r.data.length ≤ maxFileSize

/-- The call is given the semaphore, its memory and the directory. -/
structure SyncCall.Granted (c : SyncCall) : Prop where
  sem : c.sem = none
  malloc : c.malloc = true
  readOpens : c.readOpens = true

/-! ### Names -/

section Names

variable {v w : UInt64} {a b : RecordAction}

theorem version_of_versionKey_eq (h : versionKey v = versionKey w) : v = w := by
  obtain ⟨hlow, hhigh⟩ := Prod.mk.inj (toLex.injective h)
  refine UInt64.toNat_inj.mp ?_
  omega

/-- A name tells the version and the action. -/
theorem recordName_inj (h : recordName v a = recordName w b) : v = w ∧ a = b := by
  obtain rfl := version_of_versionKey_eq (versionKey_of_name_eq h)
  refine ⟨rfl, ?_⟩
  have htail := List.append_cancel_left h
  have hsub := List.append_cancel_left (List.cons.inj htail).2
  have htext := (List.cons.inj hsub).2
  cases a <;> cases b <;> first | rfl | exact absurd (List.cons.inj htext).1 (by decide)

theorem toNat_subVersion (v : UInt64) : (v >>> 60).toUInt32.toNat = v.toNat / 2 ^ 60 := by
  have hlt := v.toNat_lt
  have hshift : (v >>> 60).toNat = v.toNat / 2 ^ 60 := by
    rw [UInt64.toNat_shiftRight]
    exact Nat.shiftRight_eq_div_pow _ 60
  rw [UInt64.toNat_toUInt32, hshift]
  omega

theorem ofInt_getSubVersion (v : UInt64) : UInt32.ofInt (getSubVersion v) = (v >>> 60).toUInt32 := by
  refine UInt32.toNat_inj.mp ?_
  rw [getSubVersion_eq, toNat_subVersion, UInt32.ofInt, UInt32.toNat_ofNat']
  have hlt := v.toNat_lt
  omega

/-- What is cut: the name without `.record`. -/
def recordStem (v : UInt64) (a : RecordAction) : Bytes :=
  printInt (v.toNat % 2 ^ 60 : ℕ) ++ 45 :: (printInt (v.toNat / 2 ^ 60 : ℕ) ++ 45 :: a.text)

theorem recordName_stem (v : UInt64) (a : RecordAction) : recordName v a = recordStem v a ++ 46 :: recordText := by
  rw [recordName, toNat_getMajorVersion, getSubVersion_eq, recordStem, List.append_assoc, List.cons_append,
    List.append_assoc, List.cons_append]

theorem printInt_natCast (n : ℕ) : printInt n = decimal n := by
  rw [printInt, if_neg (by omega), Int.toNat_natCast]

theorem length_recordStem (v : UInt64) (a : RecordAction) : (recordStem v a).length =
    (decimal (v.toNat % 2 ^ 60)).length + (decimal (v.toNat / 2 ^ 60)).length + 5 := by
  have htext : a.text.length = 3 := by cases a <;> rfl
  rw [recordStem, printInt_natCast, printInt_natCast, List.length_append, List.length_cons, List.length_append,
    List.length_cons, htext]
  omega

theorem length_recordName (v : UInt64) (a : RecordAction) :
    (recordName v a).length = (recordStem v a).length + 7 := by
  rw [recordName_stem, List.length_append]
  rfl

theorem strtok_text (a : RecordAction) : strtok 45 a.text = some (a.text, []) := by cases a <;> rfl

theorem tokenAction_text (action : UInt32) (a : RecordAction) : tokenAction action a.text = a.code := by
  cases a <;> rfl

theorem code_inj (h : a.code = b.code) : b = a := by
  cases a <;> cases b <;> first | rfl | exact absurd h (by decide)

/-- **A name is cut exactly when its digits fit,** and then gives back the version and the
action; else `str` is left. -/
theorem parseRecord_recordName (action : UInt32) (r : IntegrityRecord) :
    (DigitsFit r → parseRecord action r.name =
      .ok (some ⟨getMajorVersion r.version, getSubVersion r.version, r.action.code⟩)) ∧
    (¬ DigitsFit r → ∃ f, parseRecord action r.name = .error f) := by
  have hlen := length_recordStem r.version r.action
  have hname := length_recordName r.version r.action
  have hcut : r.name.take (r.name.length - 7) = recordStem r.version r.action := by
    rw [IntegrityRecord.name, hname, Nat.add_sub_cancel, recordName_stem, List.take_left]
  rw [← IntegrityRecord.name] at hname
  constructor
  · intro hfits
    rw [DigitsFit] at hfits
    obtain ⟨hmajor, hmajorFree⟩ := printInt_token (r.version.toNat % 2 ^ 60)
    obtain ⟨hsub, hsubFree⟩ := printInt_token (r.version.toNat / 2 ^ 60)
    have hofInt : UInt64.ofInt (r.version.toNat % 2 ^ 60 : ℕ) = getMajorVersion r.version := by
      refine UInt64.toNat_inj.mp ?_
      rw [toNat_getMajorVersion, UInt64.ofInt, UInt64.toNat_ofNat']
      omega
    rw [parseRecord, if_neg (by omega), if_neg (by omega), hcut, recordStem, strtok_append hmajor hmajorFree,
      Option.bind_some, strtok_append hsub hsubFree, Option.bind_some, strtok_text, Option.map_some, atol_major,
      atoi_sub, tokenAction_text, hofInt, getSubVersion_eq]
  · intro hlong
    rw [DigitsFit] at hlong
    rw [parseRecord]
    split_ifs
    · exact ⟨.write, rfl⟩
    · exact ⟨.unterminated, rfl⟩
    · omega

end Names

/-! ### The two loops -/

section Loops

variable {c : SyncCall} {st : RecordStore} {number : ℕ} {action : UInt32} {file : List FileIntegritySync}
  {ns : List Bytes} {h : List IntegrityRecord} {r : IntegrityRecord} {order : NameOrder}

/-- A name that is taken for a record. -/
def counted (told : Bytes → Bool) (n : Bytes) : Bool :=
  decide (strncmp 1 n [46] ≠ 0 ∧ told n = true ∧ strncmp 6 (n.drop (n.length - 6)) recordText = 0)

theorem name_not_dot (r : IntegrityRecord) : strncmp 1 r.name [46] ≠ 0 := recordName_not_dot r.version r.action

theorem name_record (r : IntegrityRecord) : strncmp 6 (r.name.drop (r.name.length - 6)) recordText = 0 :=
  recordName_record r.version r.action

theorem counted_record (told : Bytes → Bool) (r : IntegrityRecord) : counted told r.name = told r.name := by
  rw [counted, Bool.eq_iff_iff, decide_eq_true_iff]
  exact ⟨fun hcounted => hcounted.2.1, fun htold => ⟨name_not_dot r, htold, name_record r⟩⟩

theorem counted_dot (told : Bytes → Bool) (n : Bytes) : counted told (46 :: n) = false := by
  rw [counted, decide_eq_false_iff_not]
  exact fun hcounted => hcounted.1 (strncmp_dot n)

theorem countRecords_eq (told : Bytes → Bool) (ns : List Bytes) :
    countRecords (ns.map fun n => ⟨n, told n⟩) = ns.countP (counted told) := by
  induction ns with
  | nil => rfl
  | cons n ns ih =>
      rw [List.map_cons, countRecords, List.countP_cons, ih]
      dsimp only
      cases hcounted : counted told n with
      | true =>
          obtain ⟨hdot, hrecord⟩ := of_decide_eq_true hcounted
          rw [if_neg hdot, if_pos hrecord, if_pos rfl]
      | false =>
          have hnot := of_decide_eq_false hcounted
          rw [if_neg Bool.false_ne_true]
          split_ifs with hdot hrecord
          · rfl
          · exact absurd ⟨hdot, hrecord⟩ hnot
          · rfl

/-- **The count is that of the records whose type is told.** -/
theorem countRecords_entries (hst : Holds st h) :
    countRecords (c.entries order st.names) = (h.filter fun r => c.told r.name).length := by
  have hrecords : (h.map IntegrityRecord.name).countP (counted c.told) = h.countP fun r => c.told r.name := by
    rw [List.countP_map]
    exact List.countP_congr fun r _ => by rw [Function.comp_apply, counted_record]
  rw [SyncCall.entries, countRecords_eq, (order.perm st.names).countP_eq,
    List.countP_cons_of_neg (by rw [counted_dot]; decide),
    List.countP_cons_of_neg (by rw [counted_dot]; decide), hst.names.countP_eq, hrecords, List.countP_eq_length_filter]

/-- The entry of a record that is cut. -/
def recordEntry (c : SyncCall) (st : RecordStore) (r : IntegrityRecord) : FileIntegritySync :=
  syncEntry c st r.name ⟨getMajorVersion r.version, getSubVersion r.version, r.action.code⟩

/-- What a name adds to the entries. -/
def added (c : SyncCall) (st : RecordStore) (n : Bytes) : Option FileIntegritySync :=
  if counted c.told n then
    match parseRecord 0 n with
    | .ok (some p) => if p.majorVer ≥ c.smajor ∧ p.majorVer ≤ c.emajor then some (syncEntry c st n p) else none
    | _ => none
  else none

theorem added_dot (n : Bytes) : added c st (46 :: n) = none := by
  rw [added, if_neg (by rw [counted_dot]; decide)]

theorem added_record (hfits : c.told r.name = true → DigitsFit r) :
    added c st r.name = if c.told r.name ∧ c.InRange r then some (recordEntry c st r) else none := by
  rw [added, counted_record]
  cases htold : c.told r.name with
  | false => rw [if_neg Bool.false_ne_true, if_neg fun hboth => absurd hboth.1 Bool.false_ne_true]
  | true =>
      rw [if_pos rfl, (parseRecord_recordName 0 r).1 (hfits htold)]
      dsimp only
      split_ifs with hrange hboth hboth
      · rfl
      · exact absurd ⟨rfl, hrange⟩ hboth
      · exact absurd hboth.2 hrange
      · rfl

/-- **The loop, when the digits fit:** one entry for each record in the range. -/
theorem readRecords_eq (hns : ∀ n ∈ ns, EntryName n)
    (hfits : ∀ r : IntegrityRecord, r.name ∈ ns → c.told r.name = true → DigitsFit r)
    (hroom : file.length + ns.countP (counted c.told) ≤ number) :
    readRecords c st number action file (ns.map fun n => ⟨n, c.told n⟩) = .ok (file ++ ns.filterMap (added c st)) := by
  induction ns generalizing action file with
  | nil => rw [List.filterMap_nil, List.append_nil, List.map_nil, readRecords]
  | cons n ns ih =>
      obtain ⟨hn, hrest⟩ := List.forall_mem_cons.mp hns
      have hfitsRest (r : IntegrityRecord) (hr : r.name ∈ ns) := hfits r (List.mem_cons_of_mem _ hr)
      have hdotted (m : Bytes) (hm : n = 46 :: m) :
          readRecords c st number action file ((n :: ns).map fun n => ⟨n, c.told n⟩) =
            .ok (file ++ (n :: ns).filterMap (added c st)) := by
        subst hm
        rw [List.countP_cons_of_neg (by rw [counted_dot]; decide)] at hroom
        rw [List.map_cons, readRecords, if_pos (strncmp_dot m), ih hrest hfitsRest hroom,
          List.filterMap_cons_none (added_dot m)]
      rcases hn with hn | hn | ⟨v, a, hn⟩
      · exact hdotted [] hn
      · exact hdotted [46] hn
      · obtain ⟨r, rfl⟩ : ∃ r : IntegrityRecord, n = r.name := ⟨⟨v, a, []⟩, hn⟩
        have hadded : added c st r.name = _ := added_record (hfits r List.mem_cons_self)
        rw [List.map_cons, readRecords, if_neg (name_not_dot r)]
        dsimp only
        cases htold : c.told r.name with
        | false =>
            rw [htold, if_neg fun hboth => absurd hboth.1 Bool.false_ne_true] at hadded
            rw [List.countP_cons_of_neg (by rw [counted_record, htold]; decide)] at hroom
            rw [if_neg fun hboth => absurd hboth.1 Bool.false_ne_true, ih hrest hfitsRest hroom,
              List.filterMap_cons_none hadded]
        | true =>
            rw [List.countP_cons_of_pos (by rw [counted_record, htold])] at hroom
            rw [if_pos ⟨rfl, name_record r⟩,
              (parseRecord_recordName action r).1 (hfits r List.mem_cons_self htold)]
            dsimp only
            rcases Decidable.em (c.InRange r) with hrange | hrange
            · rw [if_pos ⟨htold, hrange⟩] at hadded
              have hroom' : (file ++ [recordEntry c st r]).length + ns.countP (counted c.told) ≤ number := by
                rw [List.length_append, List.length_singleton]
                omega
              have hmajor : getMajorVersion r.version ≥ c.smajor ∧ getMajorVersion r.version ≤ c.emajor := hrange
              rw [if_pos hmajor, if_pos (by omega), ← recordEntry, ih hrest hfitsRest hroom',
                List.filterMap_cons_some hadded, List.append_assoc, List.singleton_append]
            · rw [if_neg fun hboth => hrange hboth.2] at hadded
              have hmajor : ¬ (getMajorVersion r.version ≥ c.smajor ∧ getMajorVersion r.version ≤ c.emajor) :=
                hrange
              rw [if_neg hmajor, ih hrest hfitsRest (by omega), List.filterMap_cons_none hadded]

/-- **The loop, when digits do not fit,** leaves `str`, if it gets so far. -/
theorem readRecords_error (hmem : r.name ∈ ns) (htold : c.told r.name = true) (hlong : ¬ DigitsFit r) :
    ∃ f, readRecords c st number action file (ns.map fun n => ⟨n, c.told n⟩) = .error f := by
  induction ns generalizing action file with
  | nil => exact absurd hmem List.not_mem_nil
  | cons n ns ih =>
      rw [List.map_cons, readRecords]
      dsimp only
      rcases List.mem_cons.mp hmem with rfl | hrest
      · obtain ⟨f, hf⟩ := (parseRecord_recordName action r).2 hlong
        rw [if_neg (name_not_dot r), if_pos ⟨htold, name_record r⟩, hf]
        exact ⟨f, rfl⟩
      · split
        · exact ih hrest
        split
        · cases parseRecord action n with
          | error f => exact ⟨f, rfl⟩
          | ok parsed =>
              cases parsed with
              | none => exact ih hrest
              | some p =>
                  dsimp only
                  split_ifs
                  · exact ih hrest
                  · exact ⟨.room, rfl⟩
                  · exact ih hrest
        · exact ih hrest

end Loops

/-! ### One call -/

section Call

variable {c : SyncCall} {st : RecordStore} {h : List IntegrityRecord} {r : IntegrityRecord} {order : NameOrder}

theorem entryName_order (hst : Holds st h) : ∀ n ∈ order.names st.names, EntryName n := by
  intro n hn
  rcases List.mem_cons.mp ((order.perm st.names).mem_iff.mp hn) with hdot | hmem
  · exact .inl hdot
  rcases List.mem_cons.mp hmem with hdots | hmem
  · exact .inr (.inl hdots)
  · obtain ⟨r, -, rfl⟩ := List.mem_map.mp (hst.names.mem_iff.mp hmem)
    exact .inr (.inr ⟨r.version, r.action, rfl⟩)

variable (order) in
/-- The records of the history are the names that are read. -/
theorem name_mem_order (hst : Holds st h) : r.name ∈ order.names st.names ↔ ∃ q ∈ h, q.name = r.name := by
  rw [(order.perm st.names).mem_iff, ← List.mem_map, ← hst.names.mem_iff]
  constructor
  · intro hmem
    exact List.mem_of_ne_of_mem (dot_ne_recordName _ r.version r.action).symm
      (List.mem_of_ne_of_mem (dot_ne_recordName _ r.version r.action).symm hmem)
  · exact fun hmem => List.mem_cons_of_mem _ (List.mem_cons_of_mem _ hmem)

theorem digitsFit_of_name {q : IntegrityRecord} (heq : q.name = r.name) (hfits : DigitsFit q) : DigitsFit r := by
  rw [DigitsFit] at hfits ⊢
  rwa [← (recordName_inj heq).1]

/-- What the records of the history add, in the order in which they are read. -/
theorem filterMap_order (hst : Holds st h) (hfits : ∀ r ∈ h, c.told r.name = true → DigitsFit r) :
    ((order.names st.names).filterMap (added c st)).Perm
      ((h.filter fun r => c.told r.name ∧ c.InRange r).map (recordEntry c st)) := by
  have hrecords : (h.map IntegrityRecord.name).filterMap (added c st) =
      (h.filter fun r => c.told r.name ∧ c.InRange r).map (recordEntry c st) := by
    rw [List.filterMap_map, ← List.filterMap_eq_map, List.filterMap_filter]
    refine List.filterMap_congr fun r hr => ?_
    rw [Function.comp_apply, added_record (hfits r hr)]
    simp only [decide_eq_true_eq, Function.comp_apply]
  have hdots := (order.perm st.names).filterMap (added c st)
  rw [List.filterMap_cons_none (added_dot []), List.filterMap_cons_none (added_dot [46])] at hdots
  exact hdots.trans ((hst.names.filterMap (added c st)).trans (.of_eq hrecords))

variable (order) in
/-- **The reading:** when the digits fit the entries are those of the told records in the range. -/
theorem readRecords_entries (hst : Holds st h) (hfits : ∀ r ∈ h, c.told r.name = true → DigitsFit r) {number : ℕ}
    (hnumber : (h.filter fun r => c.told r.name).length ≤ number) :
    ∃ es, readRecords c st number 0 [] (c.entries order st.names) = .ok es ∧
      es.Perm ((h.filter fun r => c.told r.name ∧ c.InRange r).map (recordEntry c st)) := by
  have hcount : countRecords (c.entries order st.names) = _ := countRecords_entries hst
  rw [SyncCall.entries, countRecords_eq] at hcount
  refine ⟨_, readRecords_eq (entryName_order hst) (fun r hr htold => ?_) ?_, filterMap_order hst hfits⟩
  · obtain ⟨q, hq, heq⟩ := (name_mem_order order hst).mp hr
    exact digitsFit_of_name heq (hfits q hq (heq ▸ htold))
  · rw [hcount, List.length_nil, Nat.zero_add]
    exact hnumber

/-- A record in the range comes back as it was recorded exactly when its file can be read. -/
theorem recordEntry_eq_entry (hst : Holds st h) (hr : r ∈ h) :
    recordEntry c st r = r.entry ↔ (c.read r.name).Granted ∧ r.data.length ≤ maxFileSize := by
  have hfile : st.file r.name = some r.data := by
    rw [RecordStore.file, if_pos (hst.names.mem_iff.mpr (List.mem_map_of_mem hr)), hst.content r hr]
  have hread := @httcUtilFileReadFull_eq_some (c.read r.name) r.data r.data
  rw [recordEntry, syncEntry, hfile]
  constructor
  · intro heq
    cases hdata : httcUtilFileReadFull (c.read r.name) (some r.data) with
    | none =>
        rw [hdata] at heq
        exact absurd (congrArg FileIntegritySync.data heq) (Option.some_ne_none _).symm
    | some d =>
        rw [hdata] at heq
        obtain rfl := Option.some.inj (congrArg FileIntegritySync.data heq)
        obtain ⟨hgranted, hlen, -, -⟩ := hread.mp hdata
        exact ⟨hgranted, hlen⟩
  · rintro ⟨hgranted, hlen⟩
    rw [hread.mpr ⟨hgranted, hlen, hst.nonempty r hr, rfl⟩]
    dsimp only
    rw [ofInt_getSubVersion, IntegrityRecord.entry]

theorem syncEntry_fields (n : Bytes) (p : RecordFields) : (syncEntry c st n p).smajor = p.majorVer ∧
    (syncEntry c st n p).sminor = UInt32.ofInt p.subVer ∧ (syncEntry c st n p).action = p.action := by
  rw [syncEntry]
  split
  · exact ⟨rfl, rfl, rfl⟩
  · exact ⟨rfl, rfl, rfl⟩

/-- An entry tells which record it is of. -/
theorem name_of_entry {q r : IntegrityRecord} (heq : recordEntry c st q = r.entry) : q.name = r.name := by
  obtain ⟨hmajor, hsub, haction⟩ := @syncEntry_fields c st q.name
    ⟨getMajorVersion q.version, getSubVersion q.version, q.action.code⟩
  rw [← recordEntry, heq] at hmajor hsub haction
  have hlow : (getMajorVersion r.version).toNat = (getMajorVersion q.version).toNat := congrArg UInt64.toNat hmajor
  dsimp only at hsub
  rw [ofInt_getSubVersion] at hsub
  have hsubs : (r.version >>> 60).toUInt32 = (q.version >>> 60).toUInt32 := hsub
  have hhigh : r.version.toNat / 2 ^ 60 = q.version.toNat / 2 ^ 60 :=
    (toNat_subVersion r.version).symm.trans ((congrArg UInt32.toNat hsubs).trans (toNat_subVersion q.version))
  rw [toNat_getMajorVersion, toNat_getMajorVersion] at hlow
  have hversion : q.version = r.version := by
    refine UInt64.toNat_inj.mp ?_
    omega
  rw [IntegrityRecord.name, IntegrityRecord.name, hversion, code_inj haction]

/-- Nothing in the range: the empty answer is right. -/
theorem answers_nil : Answers c h [] ↔ ∀ r ∈ h, ¬ c.InRange r := by
  rw [Answers, List.nil_perm, List.map_eq_nil_iff, List.filter_eq_nil_iff]
  simp only [decide_eq_true_eq]

theorem getFileIntegrityNumber_eq (hst : Holds st h) (hopens : c.countOpens = true) :
    getFileIntegrityNumber c st.names =
      if (h.filter fun r => c.told r.name).length < 2 ^ 31 then .ok (h.filter fun r => c.told r.name).length
      else .error .count := by
  rw [getFileIntegrityNumber, if_neg (not_not.mpr hopens)]
  dsimp only
  rw [countRecords_entries hst]

/-- When the records in the range can be read, what is read of them is what was recorded. -/
theorem recordEntries_eq (hst : Holds st h) (hsync : SyncsBack c h) :
    (h.filter fun r => c.told r.name ∧ c.InRange r).map (recordEntry c st) =
      (h.filter fun r => c.InRange r).map IntegrityRecord.entry := by
  have hfilter : (h.filter fun r => c.told r.name ∧ c.InRange r) = h.filter fun r => c.InRange r :=
    List.filter_congr fun r hr => decide_eq_decide.mpr (and_iff_right_of_imp fun hrange => (hsync.reads r hr hrange).1)
  rw [hfilter]
  refine List.map_congr_left fun r hr => ?_
  obtain ⟨hmem, hrange⟩ := List.mem_filter.mp hr
  exact (recordEntry_eq_entry hst hmem).mpr (hsync.reads r hmem (of_decide_eq_true hrange)).2

/-- **Under the condition** nothing is written or read out of bounds, and a call that succeeds, as
one does that is granted what it asks for, gives the right answer. -/
theorem answers_of_syncsBack (hst : Holds st h) (hsync : SyncsBack c h) :
    ∃ res, tcfGetSynchronized c st = .ok res ∧ (∀ es, res = .ok es → Answers c h es) ∧
      (c.Granted → ∃ es, res = .ok es) := by
  have hempty (hnone : ∀ r ∈ h, ¬ c.InRange r) (es : List FileIntegritySync)
      (hes : (.ok [] : Except TcfErr (List FileIntegritySync)) = .ok es) : Answers c h es := by
    obtain rfl := Except.ok.inj hes
    exact answers_nil.mpr hnone
  have hfails (e : TcfErr) (hrefused : ¬ c.Granted) :
      ∃ res, (.ok (.error e) : Except SyncFault (Except TcfErr (List FileIntegritySync))) = .ok res ∧
        (∀ es, res = .ok es → Answers c h es) ∧ (c.Granted → ∃ es, res = .ok es) :=
    ⟨.error e, rfl, (fun _ hes => by cases hes), fun hgranted => absurd hgranted hrefused⟩
  rw [tcfGetSynchronized]
  cases hsem : c.sem with
  | some e => exact hfails e fun hgranted => Option.some_ne_none e (hsem.symm.trans hgranted.sem)
  | none =>
      cases hopens : c.countOpens with
      | false =>
          have hnumber : getFileIntegrityNumber c st.names = .ok 0 := by
            rw [getFileIntegrityNumber, if_pos (by rw [hopens]; decide)]
          have hnone := hsync.opens.resolve_left (by rw [hopens]; decide)
          rw [hnumber]
          exact ⟨.ok [], rfl, hempty hnone, fun _ => ⟨[], rfl⟩⟩
      | true =>
          rw [getFileIntegrityNumber_eq hst hopens, if_pos (hsync.few hopens)]
          dsimp only
          split_ifs with hzero hmalloc hreads
          · have hnone (r : IntegrityRecord) (hr : r ∈ h) (hrange : c.InRange r) : False :=
              List.filter_eq_nil_iff.mp (List.length_eq_zero_iff.mp hzero) r hr (hsync.reads r hr hrange).1
            exact ⟨.ok [], rfl, hempty hnone, fun _ => ⟨[], rfl⟩⟩
          · obtain ⟨es, hes, hperm⟩ := readRecords_entries c.readOrder hst (hsync.fits hopens) le_rfl
            rw [recordEntries_eq hst hsync] at hperm
            rw [hes]
            refine ⟨.ok es, rfl, fun es' hes' => ?_, fun _ => ⟨es, rfl⟩⟩
            obtain rfl := Except.ok.inj hes'
            exact hperm
          · exact hfails .parameter fun hgranted => hreads hgranted.readOpens
          · exact hfails .nomem fun hgranted => hmalloc hgranted.malloc

/-- **An answer needs the condition.** -/
theorem syncsBack_of_answers (hst : Holds st h) (hgranted : c.Granted) {es : List FileIntegritySync}
    (hcall : tcfGetSynchronized c st = .ok (.ok es)) (hright : Answers c h es) : SyncsBack c h := by
  have hempty (hes : es = []) : ∀ r ∈ h, ¬ c.InRange r := answers_nil.mp (hes ▸ hright)
  rw [tcfGetSynchronized, hgranted.sem] at hcall
  dsimp only at hcall
  cases hopens : c.countOpens with
  | false =>
      rw [getFileIntegrityNumber, if_pos (by rw [hopens]; decide)] at hcall
      have hnone := hempty (Except.ok.inj (Except.ok.inj hcall)).symm
      have hclosed : c.countOpens ≠ true := by rw [hopens]; decide
      exact ⟨.inr hnone, fun h => absurd h hclosed, fun h => absurd h hclosed,
        fun r hr hrange => absurd hrange (hnone r hr)⟩
  | true =>
      rw [getFileIntegrityNumber_eq hst hopens] at hcall
      rcases Nat.lt_or_ge (h.filter fun r => c.told r.name).length (2 ^ 31) with hfew | hmany
      · rw [if_pos hfew] at hcall
        dsimp only at hcall
        rw [if_neg (not_not.mpr hgranted.malloc), if_neg (not_not.mpr hgranted.readOpens)] at hcall
        split_ifs at hcall with hzero
        · have hnone := hempty (Except.ok.inj (Except.ok.inj hcall)).symm
          have huntold := List.filter_eq_nil_iff.mp (List.length_eq_zero_iff.mp hzero)
          exact ⟨.inl hopens, fun _ => hfew, fun _ r hr htold => absurd htold (huntold r hr),
            fun r hr hrange => absurd hrange (hnone r hr)⟩
        · have hfits (r : IntegrityRecord) (hr : r ∈ h) (htold : c.told r.name = true) : DigitsFit r := by
            by_contra hlong
            obtain ⟨f, hf⟩ : ∃ f, readRecords c st (h.filter fun r => c.told r.name).length 0 []
                ((c.readOrder.names st.names).map fun n => ⟨n, c.told n⟩) = .error f :=
              readRecords_error ((name_mem_order c.readOrder hst).mpr ⟨r, hr, rfl⟩) htold hlong
            rw [SyncCall.entries, hf] at hcall
            cases hcall
          obtain ⟨es', hes, hperm⟩ := readRecords_entries c.readOrder hst hfits le_rfl
          rw [hes] at hcall
          obtain rfl := Except.ok.inj (Except.ok.inj hcall)
          refine ⟨.inl hopens, fun _ => hfew, fun _ => hfits, fun r hr hrange => ?_⟩
          have hentry : r.entry ∈ es' :=
            hright.mem_iff.mpr (List.mem_map_of_mem (List.mem_filter.mpr ⟨hr, decide_eq_true hrange⟩))
          obtain ⟨q, hq, hqr⟩ := List.mem_map.mp (hperm.mem_iff.mp hentry)
          obtain ⟨hqmem, hqtold⟩ := List.mem_filter.mp hq
          obtain rfl := List.inj_on_of_nodup_map hst.nodup hqmem hr (name_of_entry hqr)
          exact ⟨(of_decide_eq_true hqtold).1, (recordEntry_eq_entry hst hr).mp hqr⟩
      · rw [if_neg (not_lt.mpr hmany)] at hcall
        cases hcall

end Call

/-! ### The updates -/

section Updates

variable {c : IntegrityCall} {st st' : RecordStore} {h : List IntegrityRecord} {a : RecordAction}

/-- **The directory with its files refines the directory of names.** -/
theorem names_tcfUpdateFiles (c : IntegrityCall) (st : RecordStore) :
    (tcfUpdateFiles c st).1 = (tcfUpdateFileIntegrity c st.names).1 ∧
      (tcfUpdateFiles c st).2.names = (tcfUpdateFileIntegrity c st.names).2 := by
  have hupdate : (updateVersionFiles c st).1 = (updateFileIntegrityVersion c st.names).1 ∧
      (updateVersionFiles c st).2.names = (updateFileIntegrityVersion c st.names).2 := by
    unfold updateVersionFiles updateFileIntegrityVersion
    dsimp only
    split_ifs <;> exact ⟨rfl, rfl⟩
  unfold tcfUpdateFiles tcfUpdateFileIntegrity
  cases c.sem with
  | some e => exact ⟨rfl, rfl⟩
  | none =>
      cases checkFileIntegrityVersion c st.names with
      | some e => exact ⟨rfl, rfl⟩
      | none =>
          dsimp only
          split_ifs
          · cases c.stored with
            | some e => exact ⟨rfl, rfl⟩
            | none => exact ⟨rfl, rfl⟩
          · cases c.stored with
            | some e => exact ⟨rfl, rfl⟩
            | none => exact hupdate
          · exact ⟨rfl, rfl⟩

/-- A call that succeeds with a reference gets to its record. -/
theorem updateVersionFiles_of_success (hne : c.localRef ≠ []) (hcall : tcfUpdateFiles c st = (none, st')) :
    updateVersionFiles c st = (none, st') := by
  unfold tcfUpdateFiles at hcall
  split at hcall
  · cases hcall
  split at hcall
  · cases hcall
  split_ifs at hcall with haction
  · split at hcall
    · cases hcall
    · exact hcall
  · cases hcall

/-- **What a written record leaves:** its name and all its bytes. -/
theorem writeRecordFile_eq (hopens : c.write.opens = true ∨ c.localRef.length ≠ 2 ^ 32 - 1)
    (hlost : c.write.lost = 0) (hcall : writeRecordFile c a st = (none, st')) :
    st' = ⟨st.names.insert (recordName c.version a), Function.update st.content (recordName c.version a) c.localRef⟩ := by
  obtain ⟨hnone, rfl⟩ := Prod.mk.inj hcall
  have hopen := opens_of_writeRecord hopens hnone
  have hlen := c.localRef_lt
  have hfull : c.localRef.take c.write.room = c.localRef := by
    unfold writeRecord at hnone
    dsimp only at hnone
    split_ifs at hnone with hret
    rw [httcUtilFileWrite, if_neg (not_not.mpr hopen), List.length_take] at hret
    refine List.take_of_length_le ?_
    omega
  have hfile (f : Option Bytes) : (httcUtilFileWrite c.write f c.localRef).2 = some c.localRef := by
    rw [httcUtilFileWrite, if_neg (not_not.mpr hopen), hfull, Stream.kept, hlost, Nat.sub_zero, List.take_length]
  rw [hfile, Option.getD_some, writeRecord]
  dsimp only
  rw [if_pos hopen]

/-- **A record comes to the directory** in the place of the one that had its name. -/
theorem holds_insert (hst : Holds st h) (r : IntegrityRecord) (hdata : r.data ≠ []) :
    Holds ⟨st.names.insert r.name, Function.update st.content r.name r.data⟩
      (r :: h.filter fun q => ¬ (q.version = r.version ∧ q.action = r.action)) := by
  have hother {q : IntegrityRecord} (hq : q ∈ h.filter fun q => ¬ (q.version = r.version ∧ q.action = r.action)) :
      q ∈ h ∧ q.name ≠ r.name := by
    obtain ⟨hmem, hkey⟩ := List.mem_filter.mp hq
    exact ⟨hmem, fun hname => of_decide_eq_true hkey (recordName_inj hname)⟩
  have hfresh : r.name ∉ (h.filter fun q => ¬ (q.version = r.version ∧ q.action = r.action)).map IntegrityRecord.name := by
    intro hmem
    obtain ⟨q, hq, hname⟩ := List.mem_map.mp hmem
    exact (hother hq).2 hname
  have hnodup : ((r :: h.filter fun q => ¬ (q.version = r.version ∧ q.action = r.action)).map IntegrityRecord.name).Nodup :=
    List.nodup_cons.mpr ⟨hfresh, hst.nodup.sublist (List.filter_sublist.map _)⟩
  refine ⟨(List.perm_ext_iff_of_nodup (hst.names.nodup_iff.mpr hst.nodup).insert hnodup).mpr fun n => ?_,
    hnodup, ?_, ?_⟩
  · rw [List.mem_insert_iff, List.map_cons, List.mem_cons, hst.names.mem_iff]
    refine or_congr_right' fun hne => ⟨fun hmem => ?_, fun hmem => ?_⟩
    · obtain ⟨q, hq, rfl⟩ := List.mem_map.mp hmem
      refine List.mem_map_of_mem (List.mem_filter.mpr ⟨hq, decide_eq_true fun hkey => hne ?_⟩)
      rw [IntegrityRecord.name, IntegrityRecord.name, hkey.1, hkey.2]
    · obtain ⟨q, hq, rfl⟩ := List.mem_map.mp hmem
      exact List.mem_map_of_mem (hother hq).1
  · refine List.forall_mem_cons.mpr ⟨Function.update_self _ _ _, fun q hq => ?_⟩
    obtain ⟨hmem, hne⟩ := hother hq
    exact (Function.update_of_ne hne _ _).trans (hst.content q hmem)
  · exact List.forall_mem_cons.mpr ⟨hdata, fun q hq => hst.nonempty q (hother hq).1⟩

theorem holds_nil (content : Bytes → Bytes) : Holds ⟨[], content⟩ [] :=
  ⟨.nil, List.nodup_nil, fun _ hr => absurd hr List.not_mem_nil, fun _ hr => absurd hr List.not_mem_nil⟩

/-- A removal that gets to its end leaves no file whose type it was told. -/
theorem removeDir_leaves (removable : Bytes → Bool) (es : List DirEntry) {s : RecordDir} (hs : s.Nodup)
    (hend : (removeDir removable es s).1 = true) :
    ∀ e ∈ es, strncmp 1 e.name [46] ≠ 0 → e.regular = true → e.name ∉ (removeDir removable es s).2 := by
  induction es generalizing s with
  | nil => exact fun e he => absurd he List.not_mem_nil
  | cons e es ih =>
      rw [removeDir] at hend ⊢
      refine List.forall_mem_cons.mpr ⟨fun hdot hregular => ?_, ?_⟩
      · rw [if_neg hdot, if_pos hregular] at hend ⊢
        split_ifs at hend ⊢
        exact fun hmem => hs.not_mem_erase (removeDir_subset removable es _ hmem)
      · split_ifs at hend ⊢
        · exact ih hs hend
        · exact ih (hs.erase _) hend
        · exact ih hs hend

/-- **A set that is told the types of the records removes them all.** -/
theorem httcUtilRm_eq_nil (hst : Holds st h) (hend : (httcUtilRm c st.names).1 = true)
    (htold : ∀ e ∈ c.rmListing.entries st.names, e.name ∈ st.names → e.regular = true) :
    (httcUtilRm c st.names).2 = [] := by
  refine List.eq_nil_iff_forall_not_mem.mpr fun n hn => ?_
  have hmem := httcUtilRm_subset c st.names hn
  obtain ⟨r, -, rfl⟩ := List.mem_map.mp (hst.names.mem_iff.mp hmem)
  obtain ⟨e, he, hname⟩ := exists_entry c.rmListing hmem
  have hregular := htold e he (hname ▸ hmem)
  have hdot : strncmp 1 e.name [46] ≠ 0 := by
    rw [hname]
    exact name_not_dot r
  rw [httcUtilRm] at hend hn
  split_ifs at hend hn
  refine removeDir_leaves _ _ (hst.names.nodup_iff.mpr hst.nodup) hend e he hdot hregular ?_
  rwa [hname]

/-- **One update:** the directory holds what the calls have recorded. -/
theorem holds_step (hst : Holds st h) (hne : c.localRef ≠ []) (hleaves : Leaves st c)
    (hcall : tcfUpdateFiles c st = (none, st')) : Holds st' (record h c) := by
  have hwrite {a : RecordAction} {st₀ : RecordStore} {h₀ : List IntegrityRecord} (h₀st : Holds st₀ h₀)
      (hwritten : writeRecordFile c a st₀ = (none, st')) :
      Holds st' (⟨c.version, a, c.localRef⟩ :: h₀.filter fun q => ¬ (q.version = c.version ∧ q.action = a)) := by
    rw [writeRecordFile_eq hleaves.opens hleaves.lost hwritten]
    exact holds_insert h₀st ⟨c.version, a, c.localRef⟩ hne
  have hupdate := updateVersionFiles_of_success hne hcall
  rw [updateVersionFiles] at hupdate
  split at hupdate
  · cases hupdate
  split at hupdate
  · rename_i hadd
    have hset : c.action ≠ 0 := by rw [hadd]; decide
    rw [record, if_neg hset, recordOf, callAction, if_pos hadd]
    exact hwrite hst hupdate
  split at hupdate
  · rename_i hadd hdel
    have hset : c.action ≠ 0 := by rw [hdel]; decide
    rw [record, if_neg hset, recordOf, callAction, if_neg hadd, if_pos hdel]
    exact hwrite hst hupdate
  split at hupdate
  · rename_i hadd hdel hset
    dsimp only at hupdate
    split_ifs at hupdate with hrm
    · rw [httcUtilRm_eq_nil hst hrm (hleaves.told hset)] at hupdate
      rw [record, if_pos hset, recordOf, callAction, if_neg hadd, if_neg hdel]
      exact hwrite (holds_nil st.content) hupdate
    · cases hupdate
  · cases hupdate

/-- **After every sequence of successful updates** the directory holds the history. -/
theorem holds_run {cs : List IntegrityCall} (hst : Holds st h) (hne : ∀ c ∈ cs, c.localRef ≠ [])
    (hok : Run.Meets successStep Leaves st cs) (hrun : Run.run successStep st cs = some st') :
    Holds st' (history h cs) := by
  induction cs generalizing st h with
  | nil =>
      obtain rfl := Option.some.inj hrun
      exact hst
  | cons c cs ih =>
      obtain ⟨hc, hcs⟩ := List.forall_mem_cons.mp hne
      obtain ⟨hleaves, hrest⟩ := hok
      rw [Run.run_cons] at hrun
      obtain ⟨st₁, hstep, hafter⟩ := Option.bind_eq_some_iff.mp hrun
      have hcall : tcfUpdateFiles c st = (none, st₁) := by
        rw [successStep] at hstep
        split at hstep
        · rename_i heq
          rw [heq, Option.some.inj hstep]
        · cases hstep
      exact ih (holds_step hst hc hleaves hcall) hcs (hrest st₁ hstep) hafter

end Updates

/-- **Synchronising gives the history back:** after any sequence of successful updates, each of
which leaves its record, and under the condition, nothing is read or written out of bounds and a
call that succeeds gives one entry for each record in the range; and a call that is granted what
it asks for gives them **exactly when** the condition holds. -/
theorem tcfGetSynchronized_iff {st st' : RecordStore} {h : List IntegrityRecord} {cs : List IntegrityCall}
    (hst : Holds st h) (hne : ∀ c ∈ cs, c.localRef ≠ []) (hok : Run.Meets successStep Leaves st cs)
    (hrun : Run.run successStep st cs = some st') (c : SyncCall) :
    (SyncsBack c (history h cs) →
      ∃ res, tcfGetSynchronized c st' = .ok res ∧ ∀ es, res = .ok es → Answers c (history h cs) es) ∧
    (c.Granted →
      ((∃ es, tcfGetSynchronized c st' = .ok (.ok es) ∧ Answers c (history h cs) es) ↔
        SyncsBack c (history h cs))) := by
  have hafter := holds_run hst hne hok hrun
  refine ⟨fun hsync => ?_, fun hgranted => ⟨?_, fun hsync => ?_⟩⟩
  · obtain ⟨res, hcall, hright, -⟩ := answers_of_syncsBack hafter hsync
    exact ⟨res, hcall, hright⟩
  · rintro ⟨es, hcall, hright⟩
    exact syncsBack_of_answers hafter hgranted hcall hright
  · obtain ⟨res, hcall, hright, hsuccess⟩ := answers_of_syncsBack hafter hsync
    obtain ⟨es, rfl⟩ := hsuccess hgranted
    exact ⟨es, hcall, hright es rfl⟩

/-- The directory in its own order. -/
def plainOrder : NameOrder := ⟨fun s => [46] :: [46, 46] :: s, fun _ => .refl _⟩

/-- A call for all the versions that meets no trouble. -/
def plainSync : SyncCall where
  smajor := 0
  emajor := 0x0FFFFFFFFFFFFFFF
  sem := none
  countOpens := true
  countOrder := plainOrder
  readOpens := true
  readOrder := plainOrder
  told _ := true
  malloc := true
  read _ := ⟨true, true, true⟩

/-- Successful updates of version 5, then of version 6. -/
theorem sync_five_six :
    ∃ st, Run.run successStep ⟨[], fun _ => []⟩ [plainCall 5 1 true, plainCall 6 2 true] = some st ∧
    ∃ es, tcfGetSynchronized plainSync st = .ok (.ok es) ∧
      Answers plainSync [⟨6, .del, [0]⟩, ⟨5, .add, [0]⟩] es := by
  have hsome : (Run.run successStep ⟨[], fun _ => []⟩ [plainCall 5 1 true, plainCall 6 2 true]).isSome = true := by
    decide +kernel
  obtain ⟨st, hst⟩ := Option.isSome_iff_exists.mp hsome
  have hleaves (version : UInt64) (action : UInt32) (hset : action ≠ 0) (st : RecordStore) :
      Leaves st (plainCall version action true) := ⟨.inl rfl, rfl, fun h => absurd h hset⟩
  have hok : Run.Meets successStep Leaves ⟨[], fun _ => []⟩ [plainCall 5 1 true, plainCall 6 2 true] :=
    ⟨hleaves 5 1 (by decide) _, fun _ _ => ⟨hleaves 6 2 (by decide) _, fun _ _ => trivial⟩⟩
  have hsync : SyncsBack plainSync (history [] [plainCall 5 1 true, plainCall 6 2 true]) := by
    have hfits : ∀ r ∈ history [] [plainCall 5 1 true, plainCall 6 2 true], DigitsFit r ∧ r.data.length ≤ maxFileSize := by
      refine List.forall_mem_cons.mpr ⟨⟨?_, by decide⟩, List.forall_mem_cons.mpr ⟨⟨?_, by decide⟩, ?_⟩⟩
      · show _ ≤ 14
        decide +kernel
      · show _ ≤ 14
        decide +kernel
      · exact fun _ hr => absurd hr List.not_mem_nil
    exact ⟨.inl rfl, fun _ => by decide, fun _ r hr _ => (hfits r hr).1,
      fun r hr _ => ⟨rfl, ⟨rfl, rfl, rfl⟩, (hfits r hr).2⟩⟩
  have hmain := tcfGetSynchronized_iff (holds_nil fun _ => []) (by decide) hok hst plainSync
  exact ⟨st, hst, (hmain.2 ⟨rfl, rfl, rfl⟩).mpr hsync⟩

/-- **Fifteen digits of the major version are too many:** `100000000000000-0-add` has 21 bytes. -/
theorem long_version_leaves_str :
    (Run.run successStep ⟨[], fun _ => []⟩ [plainCall 100000000000000 1 true]).map (tcfGetSynchronized plainSync) =
      some (.error .write) := by
  decide +kernel

end FileIntegrity
end TsbAgent
