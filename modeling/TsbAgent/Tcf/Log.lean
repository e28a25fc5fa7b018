/-
# Reading the audit log

`tss-main/tcf/src/tcf_log_notice.c`.  The kernel writes `tsb.log` and rotates it to files
`tsb.log_*`.  A reader moves one of them at a time to `tsblog.bak`, reads records from it and
removes them by storing a cursor in `tsblog.lseek`, or by removing the file with its last record.

| | `do_read_logs` |
| --- | --- |
| 1 | a backup that is there is read from the cursor on |
| 2 | else the first rotated file that `readdir` gives becomes the backup |
| 3 | else `tsb.log` becomes the backup, and the kernel opens a new one |
| 4 | a backup that cannot be read **is removed**, and all starts over |

A record starts with a `struct log` of 80 bytes: the magic at 0, `total_len` at 36.  From
well-formed records `log_read` gives as many as are asked for (`logRead_records`); malformed bytes
that it refuses set the number that is asked for to zero (`logRead_refused`).
-/

import TsbAgent.Httcutils.File
import TsbAgent.Tcf.Basic

namespace TsbAgent
namespace Tcf

open Libc Word File Httcutils Tcs

/-- `LOG_MAGIC`. -/
def logMagic : ℕ := 0xCCA1B2DD

/-- `sizeof (struct log)`. -/
def sizeofLog : ℕ := 80

/-- `sizeof (struct log_info)`. -/
def sizeofLogInfo : ℕ := 96

/-- `struct log_info`: the record and where it ends in the file. -/
structure LogInfo where
  item : Bytes
  endOff : ℕ
deriving DecidableEq

/-! ### Records -/

/-- How the reading of a buffer ends. -/
inductive ParseRet
  | success
  | badData
  /-- An access outside the buffer, or a copy of a negative length. -/
  | fault
deriving DecidableEq

/-- `rlog->magic` and `rlog->total_len` of the record at `ops`. -/
def magicAt (buffer : Bytes) (ops : ℕ) : ℕ := hostAt buffer ops 4

@[inherit_doc magicAt] def totalLenAt (buffer : Bytes) (ops : ℕ) : ℤ := int32 (hostAt buffer (ops + 36) 4)

/-- What happens at a record with a negative length: the check of the next record looks back, and
there is no memory or a copy of a negative length. -/
def negativeLength (buffer : Bytes) (ops : ℕ) (t : ℤ) : ParseRet :=
  if 0 ≤ ops + t then
    if magicAt buffer (ops + t).toNat ≠ logMagic then .badData
    else if sizeofLogInfo + t < 0 then .badData else .fault
  else if 0 ≤ ops + t + sizeofLog then .fault
  else if sizeofLogInfo + t < 0 then .badData else .fault

/-- The loop of `log_util_buffer_to_info`, for `num` records more. -/
def logUtilBufferToInfo (malloc : ℕ → Bool) (off : ℕ) (buffer : Bytes) : ℕ → ℕ → ParseRet × List LogInfo
  | 0, _ => (.success, [])
  | num + 1, ops =>
      if buffer.length ≤ ops then (.success, [])
      else if ops + sizeofLog > buffer.length then (.badData, [])
      else if magicAt buffer ops ≠ logMagic then (.badData, [])
      else
        let t := totalLenAt buffer ops
        if t < 0 then (negativeLength buffer ops t, [])
        else if ops + t + sizeofLog ≤ buffer.length ∧ magicAt buffer (ops + t.toNat) ≠ logMagic then (.badData, [])
        else if t > buffer.length - ops ∨ t > 4096 then (.badData, [])
        else if ¬ malloc ops then (.badData, [])
        else
          let r := logUtilBufferToInfo malloc off buffer num (ops + t.toNat)
          (r.1, ⟨fieldAt buffer ops t.toNat, (int32 (int32 off + ops + t) % 2 ^ 64).toNat⟩ :: r.2)

/-- What `log_read` returns, with `num_inout` where it fails. -/
inductive LogRead
  | success (logs : List LogInfo)
  | failed (num : ℕ)
  | fault

/-- `log_read`: records before the malformed bytes are a success. -/
def logRead (io : ReadIo) (malloc : ℕ → Bool) (bak : Option Bytes) (offset num : ℕ) : LogRead :=
  match httcUtilFileReadOffset io bak offset with
  | none => .failed num
  | some data =>
      match logUtilBufferToInfo malloc offset data num 0 with
      | (.success, logs) => .success logs
      | (.badData, logs) => if logs ≠ [] then .success logs else .failed 0
      | (.fault, _) => .fault

/-! ### Files -/

/-- The files in the log directory; a rotated file is its contents. -/
structure LogFiles where
  bak : Option Bytes
  lseek : Option Bytes
  current : Option Bytes
  rotated : List Bytes
deriving DecidableEq

/-- A rotated file as `dir_lookup` meets it: whether `readdir` tells that it is a regular file, and
whether it can be opened and removed. -/
structure DirEntry where
  file : Bytes
  regular : Bool
  opens : Bool
  removes : Bool

/-- Any order in which `readdir` gives the rotated files. -/
structure RotatedOrder where
  entries : List Bytes → List DirEntry
  perm : ∀ s, ((entries s).map DirEntry.file).Perm s

/-- What a reading call meets. -/
structure LogEnv where
  calloc : Bool
  sem : Option TcfErr
  /-- `fopen` in `httc_util_file_size` of the three files. -/
  statBak : Bool
  statLseek : Bool
  statCurrent : Bool
  readLseek : ReadIo
  readBak : ReadIo
  /-- The memory for the record at an offset. -/
  malloc : ℕ → Bool
  rmBak : Bool
  rmLseek : Bool
  rename : Bool
  /-- `tsb_rotate_log_file`. -/
  rotate : Bool
  opendir : Bool
  order : RotatedOrder
  /-- `select_log` sees `tsb.log` modified. -/
  select : Bool

/-- `httc_util_rm` of the cursor: what is not there counts as removed. -/
def rmLseek (ok : Bool) (s : LogFiles) : Bool × LogFiles :=
  if s.lseek = none then (true, s) else if ok then (true, { s with lseek := none }) else (false, s)

/-- `httc_util_rm` of the backup. -/
def rmBak (ok : Bool) (s : LogFiles) : Bool × LogFiles :=
  if s.bak = none then (true, s) else if ok then (true, { s with bak := none }) else (false, s)

/-- What `httc_util_file_size` finds, zero when it cannot open the file. -/
def sizeSeen (stat : Bool) (file : Option Bytes) : ℕ := if stat then size file else 0

/-- `dir_lookup`: the first rotated file with something in it; empty ones are removed on the
way. -/
def dirLookup : List DirEntry → List Bytes → Option Bytes × List Bytes
  | [], rotated => (none, rotated)
  | d :: es, rotated =>
      if ¬ d.regular then dirLookup es rotated
      else if d.opens ∧ d.file = [] then dirLookup es (if d.removes then rotated.erase d.file else rotated)
      else (some d.file, rotated)

/-- How the first half of the loop body of `do_read_logs` ends. -/
inductive Opened
  /-- A backup to be read from an offset, and whether it is what was `tsb.log`. -/
  | ready (lseek : ℕ) (rotated : Bool) (s : LogFiles)
  | nothing (s : LogFiles)
  | failed (err : TcfErr) (s : LogFiles)

/-- The first half of the loop body of `do_read_logs`. -/
def openBak (e : LogEnv) (s : LogFiles) : Opened :=
  if sizeSeen e.statBak s.bak ≠ 0 then
    if sizeSeen e.statLseek s.lseek ≠ 0 then
      match (if size s.lseek = 8 then httcUtilFileReadFull e.readLseek s.lseek else none) with
      | some data => .ready (ofHost data) false s
      | none =>
          let r := rmLseek e.rmLseek s
          if ¬ r.1 then .failed .file r.2 else .ready 0 false r.2
    else .ready 0 false s
  else
    let r := rmLseek e.rmLseek s
    if ¬ r.1 then .failed .file r.2
    else
      match (if e.opendir then dirLookup (e.order.entries s.rotated) s.rotated else (none, s.rotated)) with
      | (some f, rotated) =>
          if ¬ e.rename then .failed .file { r.2 with rotated := rotated }
          else .ready 0 false { r.2 with bak := some f, rotated := rotated.erase f }
      | (none, rotated) =>
          let s := { r.2 with rotated := rotated }
          if sizeSeen e.statCurrent s.current = 0 then .nothing s
          else if ¬ e.rename then .failed .file s
          else if ¬ e.rotate then .failed .tsb { s with bak := s.current, current := none }
          else .ready 0 true { s with bak := s.current, current := some [] }

/-- What a reading call returns and leaves. -/
structure ReadResult where
  ret : Option TcfErr
  fault : Bool
  logs : List LogInfo
  files : LogFiles
deriving DecidableEq

/-- The loop of `do_read_logs`: `num` is `num_inout_local`, which a failed `log_read` may set. -/
def readLoop (e : LogEnv) : ℕ → Bool → ℕ → LogFiles → ReadResult
  | 0, _, _, s => ⟨none, true, [], s⟩
  | fuel + 1, rotated, num, s =>
      match openBak e s with
      | .failed err s => ⟨some err, false, [], s⟩
      | .nothing s => ⟨none, false, [], s⟩
      | .ready lseek fromCurrent s =>
          match logRead e.readBak e.malloc s.bak lseek num with
          | .success logs => ⟨none, false, logs, s⟩
          | .fault => ⟨none, true, [], s⟩
          | .failed num =>
              let r := rmBak e.rmBak s
              if ¬ r.1 then ⟨some .file, false, [], r.2⟩
              else
                let r := rmLseek e.rmLseek r.2
                if ¬ r.1 then ⟨some .file, false, [], r.2⟩
                else if rotated || fromCurrent then ⟨some .file, false, [], r.2⟩
                else readLoop e fuel (rotated || fromCurrent) num r.2

/-- `do_read_logs`: every round but the last uses a file up. -/
def doReadLogs (e : LogEnv) (num : ℕ) (s : LogFiles) : ReadResult :=
  readLoop e (s.rotated.length + 3) false num s

/-- `tcf_read_logs_noblock`. -/
def tcfReadLogsNoblock (e : LogEnv) (num : ℕ) (s : LogFiles) : ReadResult :=
  if ¬ e.calloc then ⟨some .nomem, false, [], s⟩
  else
    match e.sem with
    | some err => ⟨some err, false, [], s⟩
    | none => doReadLogs e num s

/-- `tcf_read_logs`: the second attempt asks for the number that the first has returned. -/
def tcfReadLogs (e : LogEnv) (num : ℕ) (s : LogFiles) : ReadResult :=
  if ¬ e.calloc then ⟨some .nomem, false, [], s⟩
  else
    match e.sem with
    | some err => ⟨some err, false, [], s⟩
    | none =>
        let r := doReadLogs e num s
        if r.ret ≠ none ∨ r.fault ∨ r.logs ≠ [] ∨ ¬ e.select then r
        else
          let r' := doReadLogs e r.logs.length r.files
          { r' with ret := none }

/-- What `tcf_remove_logs` meets. -/
structure RemoveEnv where
  sem : Option TcfErr
  statBak : Bool
  write : Stream
  rmBak : Bool
  rmLseek : Bool

/-- `tcf_remove_logs`. -/
def tcfRemoveLogs (e : RemoveEnv) (log : LogInfo) (s : LogFiles) : Option TcfErr × LogFiles :=
  match e.sem with
  | some err => (some err, s)
  | none =>
      if sizeSeen e.statBak s.bak = 0 then
        let r := rmLseek e.rmLseek s
        (if r.1 then none else some .file, r.2)
      else if log.endOff < size s.bak then
        let r := httcUtilFileWrite e.write s.lseek (hostBytes 8 log.endOff)
        (if r.1 = 8 then none else some .file, { s with lseek := r.2 })
      else
        let r := rmLseek e.rmLseek s
        if ¬ r.1 then (some .file, r.2)
        else
          let r := rmBak e.rmBak r.2
          (if r.1 then none else some .file, r.2)

/-! ### Well-formed records -/

/-- A well-formed record: a header with the magic and with the length of the record, which is not
longer than a page. -/
structure LogRecord where
  bytes : Bytes
  header : sizeofLog ≤ bytes.length
  page : bytes.length ≤ 4096
  magic : magicAt bytes 0 = logMagic
  totalLen : hostAt bytes 36 4 = bytes.length

/-- A file of records. -/
def encode (recs : List LogRecord) : Bytes := recs.flatMap LogRecord.bytes

/-- A length that is refused: the record would not end in the file, or what follows is not one. -/
def BadLength (d : Bytes) (t : ℤ) : Prop :=
  sizeofLogInfo + t < 0 ∨ 4096 < t ∨ d.length < t ∨
    (0 ≤ t ∧ t + sizeofLog ≤ d.length ∧ magicAt d t.toNat ≠ logMagic)

/-- Malformed bytes that are refused. -/
def Refused (d : Bytes) : Prop :=
  d ≠ [] ∧ (d.length < sizeofLog ∨ magicAt d 0 ≠ logMagic ∨ BadLength d (totalLenAt d 0))

section Parse

variable {buffer pre : Bytes} {off ops num : ℕ} {malloc : ℕ → Bool} {recs : List LogRecord} {r : LogRecord}

/-- The records with where each of them ends. -/
def infos : ℕ → List LogRecord → List LogInfo
  | _, [] => []
  | pos, r :: recs => ⟨r.bytes, pos + r.bytes.length⟩ :: infos (pos + r.bytes.length) recs

theorem map_item_infos (pos : ℕ) (recs : List LogRecord) :
    (infos pos recs).map LogInfo.item = recs.map LogRecord.bytes := by
  induction recs generalizing pos with
  | nil => rfl
  | cons r recs ih => rw [infos, List.map_cons, ih, List.map_cons]

theorem encode_cons (r : LogRecord) (recs : List LogRecord) : encode (r :: recs) = r.bytes ++ encode recs := rfl

theorem getLast?_infos (pos : ℕ) (h : recs ≠ []) :
    ∃ log, (infos pos recs).getLast? = some log ∧ log.endOff = pos + (encode recs).length := by
  induction recs generalizing pos with
  | nil => exact absurd rfl h
  | cons r recs ih =>
      cases recs with
      | nil => exact ⟨⟨r.bytes, pos + r.bytes.length⟩, rfl, by simp [encode]⟩
      | cons r' recs =>
          obtain ⟨log, hlast, hend⟩ := ih (pos + r.bytes.length) (List.cons_ne_nil _ _)
          refine ⟨log, ?_, ?_⟩
          · rw [infos, List.getLast?_cons, hlast]
            rfl
          · rw [hend, encode_cons r, List.length_append, Nat.add_assoc]

theorem encode_append (a b : List LogRecord) : encode (a ++ b) = encode a ++ encode b := List.flatMap_append

theorem encode_eq_nil : encode recs = [] ↔ recs = [] := by
  cases recs with
  | nil => exact ⟨fun _ => rfl, fun _ => rfl⟩
  | cons r recs =>
      have hlen := congrArg List.length (encode_cons r recs)
      have hheader : 80 ≤ r.bytes.length := r.header
      rw [List.length_append] at hlen
      constructor
      · intro h
        rw [h, List.length_nil] at hlen
        omega
      · intro h
        exact absurd h (List.cons_ne_nil _ _)

theorem hostAt_left {a b : Bytes} {i w : ℕ} (h : i + w ≤ a.length) : hostAt (a ++ b) i w = hostAt a i w := by
  rw [hostAt, hostAt, fieldAt, fieldAt, List.drop_append_of_le_length (by omega),
    List.take_append_of_le_length (by rw [List.length_drop]; omega)]

theorem hostAt_right {a b : Bytes} {i w : ℕ} : hostAt (a ++ b) (a.length + i) w = hostAt b i w := by
  rw [hostAt, hostAt, Nat.add_comm, fieldAt_skip rfl]

theorem magicAt_record : magicAt (pre ++ (r.bytes ++ buffer)) pre.length = logMagic := by
  have hheader : 80 ≤ r.bytes.length := r.header
  have hright := @hostAt_right pre (r.bytes ++ buffer) 0 4
  rw [Nat.add_zero] at hright
  rw [magicAt, hright, hostAt_left (by omega)]
  exact r.magic

theorem totalLenAt_record : totalLenAt (pre ++ (r.bytes ++ buffer)) pre.length = r.bytes.length := by
  have hheader : 80 ≤ r.bytes.length := r.header
  have hpage := r.page
  rw [totalLenAt, hostAt_right, hostAt_left (by omega), r.totalLen]
  exact int32_eq (by omega) (by omega)

theorem endOff_eq {off ops n : ℕ} (h : off + ops + n ≤ maxFileSize) :
    (int32 (int32 off + ops + (n : ℤ)) % 2 ^ 64).toNat = off + ops + n := by
  have hmax : off + ops + n ≤ 104857600 := h
  have hoff : int32 (off : ℤ) = off := int32_eq (by omega) (by omega)
  have hsum : int32 ((off : ℤ) + ops + n) = off + ops + n := int32_eq (by omega) (by omega)
  rw [hoff, hsum, Int.emod_eq_of_lt (by omega) (by omega)]
  omega

/-- **A record that is accepted.** -/
theorem logUtilBufferToInfo_accepted {n : ℕ} (hmalloc : ∀ ops, malloc ops = true)
    (hheader : ops + sizeofLog ≤ buffer.length)
    (hmagic : magicAt buffer ops = logMagic) (htotal : totalLenAt buffer ops = n) (hpage : n ≤ 4096)
    (hfits : ops + n ≤ buffer.length) (hnext : ops + n + sizeofLog ≤ buffer.length → magicAt buffer (ops + n) = logMagic)
    (hmax : off + buffer.length ≤ maxFileSize) :
    logUtilBufferToInfo malloc off buffer (num + 1) ops =
      ((logUtilBufferToInfo malloc off buffer num (ops + n)).1,
        ⟨fieldAt buffer ops n, off + ops + n⟩ :: (logUtilBufferToInfo malloc off buffer num (ops + n)).2) := by
  have hsize : sizeofLog = 80 := rfl
  have hnot : ¬ ((ops : ℤ) + n + sizeofLog ≤ buffer.length ∧ magicAt buffer (ops + (n : ℤ).toNat) ≠ logMagic) := by
    rintro ⟨hle, hne⟩
    exact hne (by rw [Int.toNat_natCast]; exact hnext (by omega))
  rw [logUtilBufferToInfo, if_neg (by omega), if_neg (by omega), if_neg (not_not_intro hmagic)]
  simp only [htotal]
  rw [if_neg (by omega), if_neg hnot, if_neg (by omega), if_neg (not_not_intro (hmalloc ops)),
    endOff_eq (by omega),
    Int.toNat_natCast]

/-- **A file of records:** the first `num` of them, each with where it ends. -/
theorem logUtilBufferToInfo_encode (hmalloc : ∀ ops, malloc ops = true) (hbuffer : buffer = pre ++ encode recs)
    (hmax : off + buffer.length ≤ maxFileSize) :
    logUtilBufferToInfo malloc off buffer num pre.length = (.success, infos (off + pre.length) (recs.take num)) := by
  induction num generalizing pre recs with
  | zero => rw [logUtilBufferToInfo, List.take_zero, infos]
  | succ num ih =>
      cases recs with
      | nil =>
          have hend : buffer.length ≤ pre.length := by rw [hbuffer, encode, List.flatMap_nil, List.append_nil]
          rw [logUtilBufferToInfo, if_pos hend, List.take_nil, infos]
      | cons r recs =>
          have hlen : buffer.length = pre.length + (r.bytes.length + (encode recs).length) := by
            rw [hbuffer, encode_cons, List.length_append, List.length_append]
          have hsize : sizeofLog ≤ r.bytes.length := r.header
          have hpre : (pre ++ r.bytes).length = pre.length + r.bytes.length := List.length_append
          have hmagic : magicAt buffer pre.length = logMagic := by rw [hbuffer, encode_cons, magicAt_record]
          have htotal : totalLenAt buffer pre.length = r.bytes.length := by
            rw [hbuffer, encode_cons, totalLenAt_record]
          have hbuffer' : buffer = (pre ++ r.bytes) ++ encode recs := by
            rw [hbuffer, encode_cons, List.append_assoc]
          have hnext : pre.length + r.bytes.length + sizeofLog ≤ buffer.length →
              magicAt buffer (pre.length + r.bytes.length) = logMagic := by
            intro hle
            cases recs with
            | nil =>
                have hnil : (encode []).length = 0 := rfl
                have hpos : 0 < sizeofLog := by decide
                omega
            | cons r' recs => rw [hbuffer', ← hpre, encode_cons, magicAt_record]
          have ih := ih hbuffer'
          rw [hpre] at ih
          have hfield : fieldAt buffer pre.length r.bytes.length = r.bytes := by
            rw [hbuffer, encode_cons, fieldAt_append rfl rfl]
          have hends : pre.length + r.bytes.length ≤ buffer.length := by
            rw [hlen, ← Nat.add_assoc]
            exact Nat.le_add_right _ _
          rw [logUtilBufferToInfo_accepted hmalloc ((Nat.add_le_add_left hsize _).trans hends) hmagic htotal r.page hends
            hnext hmax, ih, hfield, List.take_succ_cons, infos, Nat.add_assoc]

/-- **Malformed bytes that are refused.** -/
theorem logUtilBufferToInfo_refused (h : Refused buffer) :
    logUtilBufferToInfo malloc off buffer (num + 1) 0 = (.badData, []) := by
  obtain ⟨hne, hbad⟩ := h
  have hpos := List.length_pos_iff.mpr hne
  have hsize : sizeofLog = 80 := rfl
  have hinfo : sizeofLogInfo = 96 := rfl
  rw [logUtilBufferToInfo, if_neg (by omega)]
  by_cases hheader : 0 + sizeofLog > buffer.length
  · rw [if_pos hheader]
  by_cases hmagic : magicAt buffer 0 = logMagic
  · have hlength : BadLength buffer (totalLenAt buffer 0) := by
      rcases hbad with h | h | h
      · omega
      · exact absurd hmagic h
      · exact h
    rw [if_neg hheader, if_neg (not_not_intro hmagic)]
    simp only []
    generalize totalLenAt buffer 0 = t at hlength
    rcases hlength with h | h | h | ⟨h0, hle, hnext⟩
    · rw [if_pos (by omega), negativeLength, if_neg (by omega), if_neg (by omega), if_pos h]
    · rw [if_neg (by omega)]
      split_ifs <;> first | rfl | omega
    · rw [if_neg (by omega)]
      split_ifs <;> first | rfl | omega
    · rw [if_neg (by omega), if_pos ⟨by omega, by rw [Nat.zero_add]; exact hnext⟩]
  · rw [if_neg hheader, if_pos hmagic]

end Parse

section Backup

variable {c n : ℕ} {recs : List LogRecord} {io : ReadIo} {malloc : ℕ → Bool} {f : Bytes}

theorem httcUtilFileReadOffset_eq (hio : io.Granted) (hc : c ≤ f.length) (hne : f.drop c ≠ [])
    (hmax : f.length ≤ maxFileSize) : httcUtilFileReadOffset io (some f) c = some (f.drop c) := by
  have hlen : (f.drop c).length ≤ maxFileSize := by
    rw [List.length_drop]
    exact (Nat.sub_le _ _).trans hmax
  rw [httcUtilFileReadOffset, if_neg (Nat.not_lt.mpr hc)]
  exact httcUtilFileReadFull_eq_some.mpr ⟨hio, hlen, hne, rfl⟩

theorem logRead_eq (hio : io.Granted) (hc : c ≤ f.length) (hne : f.drop c ≠ []) (hmax : f.length ≤ maxFileSize)
    {ret : ParseRet} {logs : List LogInfo} (hparse : logUtilBufferToInfo malloc c (f.drop c) n 0 = (ret, logs)) :
    logRead io malloc (some f) c n = match ret with
      | .success => .success logs
      | .badData => if logs ≠ [] then .success logs else .failed 0
      | .fault => .fault := by
  rw [logRead, httcUtilFileReadOffset_eq hio hc hne hmax]
  simp only [hparse]
  cases ret <;> rfl

/-- **Well-formed records:** the first `n` from the cursor on. -/
theorem logRead_records (hio : io.Granted) (hmalloc : ∀ ops, malloc ops = true) (hc : c ≤ f.length)
    (hmax : f.length ≤ maxFileSize) (hfile : f.drop c = encode recs) (hrecs : recs ≠ []) :
    logRead io malloc (some f) c n = .success (infos c (recs.take n)) := by
  have hne : f.drop c ≠ [] := by
    rw [hfile]
    exact fun hnil => hrecs (encode_eq_nil.mp hnil)
  have hlen : c + (f.drop c).length ≤ maxFileSize := by
    rw [List.length_drop, Nat.add_sub_cancel' hc]
    exact hmax
  have hparse := @logUtilBufferToInfo_encode (f.drop c) [] c n malloc recs hmalloc hfile hlen
  exact logRead_eq hio hc hne hmax hparse

/-- **Malformed bytes take the count with them.** -/
theorem logRead_refused (hio : io.Granted) (hc : c ≤ f.length) (hmax : f.length ≤ maxFileSize)
    (hrefused : Refused (f.drop c)) : logRead io malloc (some f) c (n + 1) = .failed 0 := by
  rw [logRead_eq hio hc hrefused.1 hmax (logUtilBufferToInfo_refused hrefused)]
  exact if_neg (not_not_intro rfl)

/-- A request for nothing gets nothing, whatever the file holds. -/
theorem logRead_zero (hio : io.Granted) (hc : c ≤ f.length) (hmax : f.length ≤ maxFileSize)
    (hne : f.drop c ≠ []) : logRead io malloc (some f) c 0 = .success [] :=
  logRead_eq hio hc hne hmax rfl

end Backup

end Tcf
end TsbAgent
