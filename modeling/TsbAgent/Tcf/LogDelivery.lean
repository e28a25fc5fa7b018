/-
# Every audit record is delivered once

The readers of the audit log (`TsbAgent.Tcf.Log`) deliver a backlog of files in batches.  `Holds`
connects the files with it: the backup from the cursor on is the open file, the rotated files
and `tsb.log` wait, and a file that starts with malformed bytes counts as one that cannot be read.

| | the backlog |
| --- | --- |
| opening the backup, or a file that waits | `openBak_spec` |
| `do_read_logs` | `readLoop_spec` |
| `tcf_remove_logs` of the last log | `tcfRemoveLogs_spec` |
| `tcf_read_logs`, whose second attempt asks for nothing | `Turn.call_spec` |

`audit_log_exactly_once` says that the records are delivered once each, in the order of their
file, as long as no file is too long to be read and the system grants what is asked.  What goes
wrong (`audit_log_lost`) is the removal of what cannot be read: a file of more than 100 MiB is
removed unread, malformed bytes take the count of the request with them, and a
`total_len` of zero is not refused at all.
-/

import TsbAgent.Lib.Backlog
import TsbAgent.Tcf.Log

namespace TsbAgent
namespace Tcf

open Libc Word File Httcutils Tcs

/-! ### What the files hold -/

/-- A file of well-formed records, or one that starts with malformed bytes. -/
def FileOf (f : Bytes) (recs : List LogRecord) : Prop := (recs ≠ [] ∧ f = encode recs) ∨ (recs = [] ∧ Refused f)

/-- The cursor: a file that is not one counts as none. -/
def Position (lseek : Option Bytes) (c : ℕ) : Prop := (size lseek ≠ 8 ∧ c = 0) ∨ lseek = some (hostBytes 8 c)

/-- The backup from the cursor on. -/
def LogFiles.AtFile (s : LogFiles) (c : ℕ) (recs : List LogRecord) : Prop :=
  ∃ f, s.bak = some f ∧ Position s.lseek c ∧ c ≤ f.length ∧ FileOf (f.drop c) recs

/-- The files that wait and are not empty. -/
def LogFiles.waiting (s : LogFiles) : List Bytes := (s.rotated ++ s.current.toList).filter (· ≠ [])

/-- The files hold these records. -/
structure LogFiles.Holds (s : LogFiles) (b : Backlog LogRecord) : Prop where
  backup : match b.opened with
    | none => size s.bak = 0
    | some recs => ∃ c, s.AtFile c recs
  files : List.Forall₂ FileOf s.waiting b.files

/-- No file is longer than what is read. -/
structure LogFiles.Fits (s : LogFiles) : Prop where
  backup : size s.bak ≤ maxFileSize
  files : ∀ f ∈ s.waiting, f.length ≤ maxFileSize

/-- The system grants everything a reading call asks for. -/
structure LogEnv.Granted (e : LogEnv) : Prop where
  calloc : e.calloc = true
  sem : e.sem = none
  statBak : e.statBak = true
  statLseek : e.statLseek = true
  statCurrent : e.statCurrent = true
  readLseek : e.readLseek.Granted
  readBak : e.readBak.Granted
  malloc : ∀ ops, e.malloc ops = true
  rmBak : e.rmBak = true
  rmLseek : e.rmLseek = true
  rename : e.rename = true
  rotate : e.rotate = true
  opendir : e.opendir = true
  entries : ∀ s, ∀ d ∈ e.order.entries s, d.regular = true ∧ d.opens = true ∧ d.removes = true

/-- The system grants everything `tcf_remove_logs` asks for. -/
structure RemoveEnv.Granted (e : RemoveEnv) : Prop where
  sem : e.sem = none
  statBak : e.statBak = true
  write : Takes e.write 8
  rmBak : e.rmBak = true
  rmLseek : e.rmLseek = true

/-! ### Opening a file -/

section Open

variable {e : LogEnv} {s : LogFiles} {c : ℕ} {recs : List LogRecord} {rotated : List Bytes} {d : Bytes}

theorem rmLseek_eq (s : LogFiles) : rmLseek true s = (true, { s with lseek := none }) := by
  obtain ⟨bak, lseek, current, rotated⟩ := s
  cases lseek <;> rfl

theorem rmBak_eq (s : LogFiles) : rmBak true s = (true, { s with bak := none }) := by
  obtain ⟨bak, lseek, current, rotated⟩ := s
  cases bak <;> rfl

theorem FileOf.ne_nil (h : FileOf d recs) : d ≠ [] := by
  rcases h with ⟨hne, rfl⟩ | ⟨_, hrefused⟩
  · exact fun hnil => hne (encode_eq_nil.mp hnil)
  · exact hrefused.1

/-- A backup is read from the cursor on. -/
theorem openBak_opened (he : e.Granted) (hat : s.AtFile c recs) (hfits : s.Fits) :
    ∃ s₁, openBak e s = .ready c false s₁ ∧ s₁.AtFile c recs ∧ s₁.waiting = s.waiting ∧ s₁.bak = s.bak := by
  obtain ⟨f, hbak, hposition, hc, hfile⟩ := hat
  have hmax : f.length ≤ 104857600 := by
    have hsize := hfits.backup
    rwa [hbak] at hsize
  have hf : f ≠ [] := fun hnil => hfile.ne_nil (by rw [hnil, List.drop_nil])
  have hseen : sizeSeen e.statBak s.bak ≠ 0 := by
    rw [sizeSeen, he.statBak, if_pos rfl, hbak]
    exact fun hzero => hf (List.length_eq_zero_iff.mp hzero)
  rw [openBak, if_pos hseen]
  rcases hposition with ⟨hlen, rfl⟩ | hcursor
  · by_cases hempty : sizeSeen e.statLseek s.lseek ≠ 0
    · refine ⟨{ s with lseek := none }, ?_, ⟨f, hbak, Or.inl ⟨Nat.zero_ne_add_one 7, rfl⟩, hc, hfile⟩, rfl, rfl⟩
      rw [if_pos hempty, if_neg hlen, he.rmLseek, rmLseek_eq]
      rfl
    · rw [if_neg hempty]
      exact ⟨s, rfl, ⟨f, hbak, Or.inl ⟨hlen, rfl⟩, hc, hfile⟩, rfl, rfl⟩
  · have hsize : size s.lseek = 8 := by rw [hcursor]; exact length_hostBytes 8 c
    have hseek : sizeSeen e.statLseek s.lseek ≠ 0 := by
      rw [sizeSeen, he.statLseek, if_pos rfl, hsize]
      decide
    have hread : httcUtilFileReadFull e.readLseek s.lseek = some (hostBytes 8 c) := by
      rw [hcursor]
      refine httcUtilFileReadFull_eq_some.mpr ⟨he.readLseek, ?_, ?_, rfl⟩
      · rw [length_hostBytes]
        decide
      · exact fun hnil => absurd (congrArg List.length hnil) (by rw [length_hostBytes]; decide)
    have hback : ofHost (hostBytes 8 c) = c := ofHost_hostBytes_of_lt (by omega)
    refine ⟨s, ?_, ⟨f, hbak, Or.inr hcursor, hc, hfile⟩, rfl, rfl⟩
    rw [if_pos hseek, if_pos hsize, hread]
    simp only [hback]

theorem filter_erase_nil (rotated : List Bytes) :
    (rotated.erase []).filter (· ≠ []) = rotated.filter (· ≠ []) := by
  induction rotated with
  | nil => rfl
  | cons f rotated ih =>
      by_cases hf : f = []
      · subst hf
        rw [List.erase_cons_head, List.filter_cons_of_neg (by decide)]
      · rw [List.erase_cons_tail (by simpa using hf), List.filter_cons_of_pos (by simpa using hf), ih,
          List.filter_cons_of_pos (by simpa using hf)]

/-- `dir_lookup` finds a file that is not empty if there is one, and removes no other. -/
theorem dirLookup_spec (es : List DirEntry) (rotated : List Bytes)
    (hes : ∀ d ∈ es, d.regular = true ∧ d.opens = true ∧ d.removes = true) :
    (dirLookup es rotated).2.filter (· ≠ []) = rotated.filter (· ≠ []) ∧
      match (dirLookup es rotated).1 with
        | none => ∀ d ∈ es, d.file = []
        | some f => f ≠ [] ∧ f ∈ es.map DirEntry.file := by
  induction es generalizing rotated with
  | nil => exact ⟨rfl, fun d hd => absurd hd List.not_mem_nil⟩
  | cons d es ih =>
      obtain ⟨hregular, hopens, hremoves⟩ := hes d List.mem_cons_self
      rw [dirLookup, if_neg (not_not_intro hregular)]
      by_cases hf : d.file = []
      · obtain ⟨hfilter, hfound⟩ := ih (rotated.erase d.file) fun x hx => hes x (List.mem_cons_of_mem d hx)
        rw [if_pos ⟨hopens, hf⟩, if_pos hremoves]
        refine ⟨by rw [hfilter, hf, filter_erase_nil], ?_⟩
        revert hfound
        cases (dirLookup es (rotated.erase d.file)).1 with
        | none => exact fun hfound => List.forall_mem_cons.mpr ⟨hf, hfound⟩
        | some f => exact fun hfound => ⟨hfound.1, List.mem_cons_of_mem _ hfound.2⟩
      · rw [if_neg fun h => hf h.2]
        exact ⟨rfl, hf, List.mem_cons_self⟩

/-- `httc_util_file_size` of a file: nothing in it, or something. -/
theorem sizeSeen_cases (file : Option Bytes) :
    (sizeSeen true file = 0 ∧ file.toList.filter (· ≠ []) = []) ∨ ∃ g, g ≠ [] ∧ file = some g ∧ sizeSeen true file ≠ 0 := by
  cases file with
  | none => exact Or.inl ⟨rfl, rfl⟩
  | some g =>
      cases g with
      | nil => exact Or.inl ⟨rfl, rfl⟩
      | cons x g => exact Or.inr ⟨x :: g, List.cons_ne_nil x g, rfl, Nat.succ_ne_zero g.length⟩

/-- A file that waits becomes the backup, the last one of them when it was `tsb.log`. -/
def LogFiles.Moved (s : LogFiles) (f : Bytes) (rot : Bool) (s₁ : LogFiles) : Prop :=
  s₁.bak = some f ∧ s₁.lseek = none ∧ s.waiting.Perm (f :: s₁.waiting) ∧ (rot = true → s₁.waiting = [])

/-- A rotated file becomes the backup. -/
theorem moved_rotated {f : Bytes} (hf : f ≠ []) (hmem : f ∈ s.rotated)
    (hfilter : rotated.filter (· ≠ []) = s.rotated.filter (· ≠ [])) :
    s.Moved f false { s with lseek := none, bak := some f, rotated := rotated.erase f } := by
  have hin : f ∈ rotated := by
    have hkept : f ∈ s.rotated.filter (· ≠ []) := List.mem_filter.mpr ⟨hmem, by simpa using hf⟩
    rw [← hfilter] at hkept
    exact (List.mem_filter.mp hkept).1
  have hperm := (List.perm_cons_erase hin).filter (· ≠ [])
  rw [List.filter_cons_of_pos (by simpa using hf)] at hperm
  refine ⟨rfl, rfl, ?_, fun h => absurd h (by decide)⟩
  rw [LogFiles.waiting, LogFiles.waiting, List.filter_append, List.filter_append, ← hfilter, ← List.cons_append]
  exact hperm.append_right _

/-- `tsb.log` becomes the backup. -/
theorem moved_current {g : Bytes} (hg : s.current = some g) (hne : g ≠ [])
    (hempty : s.rotated.filter (· ≠ []) = [])
    (hrotated : rotated.filter (· ≠ []) = []) : s.Moved g true ⟨some g, none, some [], rotated⟩ := by
  have hlast : LogFiles.waiting ⟨some g, none, some [], rotated⟩ = [] := by
    rw [LogFiles.waiting, List.filter_append, hrotated]
    rfl
  refine ⟨rfl, rfl, ?_, fun _ => hlast⟩
  rw [hlast, LogFiles.waiting, List.filter_append, hempty, hg, Option.toList_some,
    List.filter_cons_of_pos (by simpa using hne)]
  rfl

/-- Without a backup, one of the files that wait becomes it: a rotated one, or `tsb.log` when no
other waits. -/
theorem openBak_closed (he : e.Granted) (hbak : size s.bak = 0) :
    (∃ s₁, openBak e s = .nothing s₁ ∧ s.waiting = [] ∧ s₁.waiting = [] ∧ size s₁.bak = 0) ∨
      ∃ f rot s₁, openBak e s = .ready 0 rot s₁ ∧ s.Moved f rot s₁ := by
  have hseen : ¬ sizeSeen e.statBak s.bak ≠ 0 := by
    rw [sizeSeen, he.statBak, if_pos rfl]
    exact not_not_intro hbak
  obtain ⟨hfilter, hfound⟩ := dirLookup_spec (e.order.entries s.rotated) s.rotated (he.entries s.rotated)
  rw [openBak, if_neg hseen, he.rmLseek, rmLseek_eq, if_pos he.opendir]
  simp only [not_true_eq_false, if_false]
  generalize dirLookup (e.order.entries s.rotated) s.rotated = r at hfilter hfound
  obtain ⟨found, rotated⟩ := r
  cases found with
  | some f =>
      have hmem : f ∈ s.rotated := (e.order.perm s.rotated).mem_iff.mp hfound.2
      refine Or.inr ⟨f, false, _, ?_, moved_rotated hfound.1 hmem hfilter⟩
      simp only [he.rename, not_true_eq_false, if_false]
  | none =>
      have hempty : s.rotated.filter (· ≠ []) = [] := by
        refine List.filter_eq_nil_iff.mpr fun f hf => ?_
        obtain ⟨d, hd, rfl⟩ := List.mem_map.mp ((e.order.perm s.rotated).mem_iff.mpr hf)
        simpa using hfound d hd
      have hrotated : rotated.filter (· ≠ []) = [] := hfilter.trans hempty
      rcases sizeSeen_cases s.current with ⟨hzero, hsize⟩ | ⟨g, hne, hg, hpos⟩
      · refine Or.inl ⟨{ s with lseek := none, rotated := rotated }, ?_, ?_, ?_, hbak⟩
        · simp only [he.statCurrent, hzero, if_true]
        · rw [LogFiles.waiting, List.filter_append, hempty, hsize, List.nil_append]
        · rw [LogFiles.waiting, List.filter_append, hrotated, hsize, List.nil_append]
      · refine Or.inr ⟨g, true, _, ?_, moved_current hg hne hempty hrotated⟩
        rw [hg] at hpos
        simp only [he.statCurrent, he.rename, he.rotate, not_true_eq_false, if_false, hg, hpos]

/-- A file is open: from where it is read, what it holds, and what waits. -/
structure LogFiles.Open (s : LogFiles) (c : ℕ) (recs : List LogRecord) (files : List (List LogRecord)) : Prop where
  backup : s.AtFile c recs
  files : List.Forall₂ FileOf s.waiting files
  fits : s.Fits

theorem LogFiles.Open.holds {files : List (List LogRecord)} (h : s.Open c recs files) :
    s.Holds ⟨some recs, files⟩ :=
  ⟨⟨c, h.backup⟩, h.files⟩

theorem open_of_moved {f : Bytes} {rot : Bool} {s₁ : LogFiles} {waits : List (List LogRecord)}
    (hmoved : s.Moved f rot s₁) (hfiles : List.Forall₂ FileOf s.waiting waits) (hfits : s.Fits) :
    ∃ recs files, s₁.Open 0 recs files ∧ waits.Perm (recs :: files) ∧ (rot = true → files = []) := by
  obtain ⟨hbak, hlseek, hperm, hlast⟩ := hmoved
  obtain ⟨w, hw, hwaits⟩ := List.perm_comp_forall₂ hperm.symm hfiles
  cases hw with
  | @cons _ recs _ files hfile hrest =>
      have hmax : ∀ g ∈ f :: s₁.waiting, g.length ≤ maxFileSize := fun g hg => hfits.files g (hperm.mem_iff.mpr hg)
      refine ⟨recs, files, ⟨⟨f, hbak, Or.inl ?_, Nat.zero_le _, hfile⟩, hrest, ?_, ?_⟩, hwaits.symm, ?_⟩
      · rw [hlseek]
        exact ⟨Nat.zero_ne_add_one 7, rfl⟩
      · rw [hbak]
        exact hmax f List.mem_cons_self
      · exact fun g hg => hmax g (List.mem_cons_of_mem f hg)
      · intro hrot
        rw [hlast hrot] at hrest
        cases hrest
        rfl

/-- **Opening a file:** the backup, or one of the files that wait. -/
theorem openBak_spec {b : Backlog LogRecord} (he : e.Granted) (hs : s.Holds b) (hfits : s.Fits) :
    (∃ s₁, openBak e s = .nothing s₁ ∧ b = ⟨none, []⟩ ∧ s₁.Holds b ∧ s₁.Fits) ∨
      ∃ c rot s₁ recs files, openBak e s = .ready c rot s₁ ∧ s₁.Open c recs files ∧ b.Opens recs files ∧
        (rot = true → files = []) := by
  obtain ⟨opened, waits⟩ := b
  obtain ⟨hbackup, hfiles⟩ := hs
  cases opened with
  | some recs =>
      obtain ⟨c, hat⟩ := hbackup
      obtain ⟨s₁, hopen, hat₁, hwaiting, hbak⟩ := openBak_opened he hat hfits
      refine Or.inr ⟨c, false, s₁, recs, waits, hopen, ⟨hat₁, ?_, ?_, ?_⟩, Or.inl rfl,
        fun h => absurd h (by decide)⟩
      · rw [hwaiting]
        exact hfiles
      · rw [hbak]
        exact hfits.backup
      · rw [hwaiting]
        exact hfits.files
  | none =>
      rcases openBak_closed he hbackup with ⟨s₁, hopen, hempty, hwaiting, hbak⟩ | ⟨f, rot, s₁, hopen, hmoved⟩
      · have hwaits : waits = [] := by
          rw [hempty] at hfiles
          cases hfiles
          rfl
        subst hwaits
        refine Or.inl ⟨s₁, hopen, rfl, ⟨hbak, by rw [hwaiting]; exact List.Forall₂.nil⟩, ?_, ?_⟩
        · rw [hbak]
          exact Nat.zero_le _
        · rw [hwaiting]
          exact fun g hg => absurd hg List.not_mem_nil
      · obtain ⟨recs, files, hs₁, hperm, hlast⟩ := open_of_moved hmoved hfiles hfits
        exact Or.inr ⟨0, rot, s₁, recs, files, hopen, hs₁, Or.inr ⟨rfl, hperm⟩, hlast⟩

end Open

/-! ### Reading -/

section Read

variable {e : LogEnv} {s : LogFiles} {b : Backlog LogRecord} {c n : ℕ} {recs : List LogRecord}
  {files : List (List LogRecord)}

/-- `log_read` of an open file. -/
theorem logRead_open (he : e.Granted) (h : s.Open c recs files) :
    (recs ≠ [] → ∀ n, logRead e.readBak e.malloc s.bak c n = .success (infos c (recs.take n))) ∧
      (recs = [] → ∀ n, logRead e.readBak e.malloc s.bak c (n + 1) = .failed 0) ∧
      logRead e.readBak e.malloc s.bak c 0 = .success [] := by
  obtain ⟨⟨f, hbak, _, hc, hfile⟩, _, hfits⟩ := h
  have hmax : f.length ≤ maxFileSize := by
    have hsize := hfits.backup
    rwa [hbak] at hsize
  rw [hbak]
  refine ⟨?_, ?_, logRead_zero he.readBak hc hmax hfile.ne_nil⟩
  · intro hne n
    rcases hfile with ⟨_, hfile⟩ | ⟨hnil, _⟩
    · exact logRead_records he.readBak he.malloc hc hmax hfile hne
    · exact absurd hnil hne
  · intro hnil n
    rcases hfile with ⟨hne, _⟩ | ⟨_, hrefused⟩
    · exact absurd hnil hne
    · exact logRead_refused he.readBak hc hmax hrefused

/-- The backup and the cursor are removed. -/
theorem LogFiles.Open.removed (h : s.Open c recs files) :
    LogFiles.Holds ⟨none, none, s.current, s.rotated⟩ ⟨none, files⟩ ∧ LogFiles.Fits ⟨none, none, s.current, s.rotated⟩ :=
  ⟨⟨rfl, h.files⟩, Nat.zero_le _, h.fits.files⟩

/-- A request for nothing opens a file and leaves it at that. -/
theorem readLoop_zero (he : e.Granted) (hs : s.Holds b) (hfits : s.Fits) (fuel : ℕ) (rotated : Bool) :
    ∃ s₁ b₁, readLoop e (fuel + 1) rotated 0 s = ⟨none, false, [], s₁⟩ ∧ s₁.Holds b₁ ∧ s₁.Fits ∧
      ((b = ⟨none, []⟩ ∧ b₁ = ⟨none, []⟩) ∨ ∃ recs files, b₁ = ⟨some recs, files⟩ ∧ b.Opens recs files) := by
  rw [readLoop]
  rcases openBak_spec he hs hfits with ⟨s₁, hopen, hb, hs₁, hfits₁⟩ | ⟨c, rot, s₁, recs, files, hopen, hs₁, hopens, _⟩
  · rw [hopen]
    exact ⟨s₁, b, rfl, hs₁, hfits₁, Or.inl ⟨hb, hb⟩⟩
  · rw [hopen]
    simp only [(logRead_open he hs₁).2.2]
    exact ⟨s₁, _, rfl, hs₁.holds, hs₁.fits, Or.inr ⟨recs, files, rfl, hopens⟩⟩

/-- What a reading call does to the backlog.  The logs it returns are still to be removed. -/
inductive ReadOutcome (n : ℕ) (b : Backlog LogRecord) (r : ReadResult) : Prop
  | nothing {b₁ : Backlog LogRecord} : r.fault = false → r.logs = [] → b.Batch n [] b₁ → r.files.Holds b₁ →
      r.files.Fits → ReadOutcome n b r
  | logs {c : ℕ} {recs : List LogRecord} {files : List (List LogRecord)} : r.fault = false → r.ret = none →
      recs.take n ≠ [] → r.logs = infos c (recs.take n) → r.files.Open c recs files →
      b.Batch n (recs.take n) ⟨Backlog.put (recs.drop n), files⟩ → ReadOutcome n b r

/-- A malformed file is removed, and the next one is opened with nothing asked for. -/
theorem readLoop_malformed (he : e.Granted) (h : s.Open c [] files) (hopens : b.Opens [] files) (fuel : ℕ) :
    ReadOutcome (n + 1) b (readLoop e (fuel + 1) false 0 ⟨none, none, s.current, s.rotated⟩) := by
  obtain ⟨s₂, b₂, hloop, hs₂, hfits₂, hcases⟩ := readLoop_zero he h.removed.1 h.removed.2 fuel false
  rw [hloop]
  refine .nothing rfl rfl (Backlog.Batch.of_opens hopens ?_) hs₂ hfits₂
  rcases hcases with ⟨hnone, rfl⟩ | ⟨recs, rest, rfl, hnext | ⟨_, hperm⟩⟩
  · cases hnone
    exact .skipLast n.succ_pos
  · cases hnext
  · exact .skip n.succ_pos hperm

/-- **The loop of `do_read_logs`.** -/
theorem readLoop_spec (he : e.Granted) (hs : s.Holds b) (hfits : s.Fits) (fuel : ℕ) :
    ReadOutcome n b (readLoop e (fuel + 2) false n s) := by
  cases n with
  | zero =>
      obtain ⟨s₁, b₁, hloop, hs₁, hfits₁, hcases⟩ := readLoop_zero he hs hfits (fuel + 1) false
      rw [hloop]
      refine .nothing rfl rfl ?_ hs₁ hfits₁
      rcases hcases with ⟨rfl, rfl⟩ | ⟨recs, files, rfl, hopens⟩
      · exact .none
      · exact .of_opens hopens .zero
  | succ n =>
      rw [readLoop]
      rcases openBak_spec he hs hfits with ⟨s₁, hopen, rfl, hs₁, hfits₁⟩ | ⟨c, rot, s₁, recs, files, hopen, hs₁, hopens, hlast⟩
      · rw [hopen]
        exact .nothing rfl rfl .none hs₁ hfits₁
      · obtain ⟨hrecords, hmalformed, _⟩ := logRead_open he hs₁
        rw [hopen]
        by_cases hne : recs = []
        · subst hne
          simp only [hmalformed rfl n, he.rmBak, he.rmLseek, rmBak_eq, rmLseek_eq, not_true_eq_false, if_false,
            Bool.false_or]
          cases rot with
          | true =>
              rw [if_pos rfl]
              have hfiles := hlast rfl
              subst hfiles
              exact .nothing rfl rfl (.of_opens hopens (.skipLast n.succ_pos)) hs₁.removed.1 hs₁.removed.2
          | false =>
              rw [if_neg Bool.false_ne_true]
              exact readLoop_malformed he hs₁ hopens fuel
        · simp only [hrecords hne (n + 1)]
          have htake : recs.take (n + 1) ≠ [] := by
            obtain ⟨r, rest, rfl⟩ := List.exists_cons_of_ne_nil hne
            exact List.cons_ne_nil _ _
          exact .logs rfl rfl htake rfl hs₁ (.of_opens hopens (.take hne))

theorem drop_encode {f : Bytes} (hfile : f.drop c = encode recs) (n : ℕ) :
    f.drop (c + (encode (recs.take n)).length) = encode (recs.drop n) := by
  rw [← List.drop_drop, hfile]
  nth_rewrite 2 [← List.take_append_drop n recs]
  rw [encode_append, List.drop_left]

/-- **`tcf_remove_logs` of the last log:** the cursor is behind it, or the file is gone with its
last record. -/
theorem tcfRemoveLogs_spec {e : RemoveEnv} {log : LogInfo} (he : e.Granted) (h : s.Open c recs files)
    (hne : recs ≠ []) (hend : log.endOff = c + (encode (recs.take n)).length) :
    ∃ s', tcfRemoveLogs e log s = (none, s') ∧ s'.Holds ⟨Backlog.put (recs.drop n), files⟩ ∧ s'.Fits := by
  have hremoved := h.removed
  obtain ⟨⟨f, hbak, hposition, hc, hfile⟩, hfiles, hfits⟩ := h
  have hrecs : f.drop c = encode recs := by
    rcases hfile with ⟨_, hrecs⟩ | ⟨hnil, _⟩
    · exact hrecs
    · exact absurd hnil hne
  have hdrop := drop_encode hrecs n
  rw [← hend] at hdrop
  have hsize : size s.bak = f.length := by rw [hbak]; rfl
  have hseen : ¬ sizeSeen e.statBak s.bak = 0 := by
    rw [sizeSeen, he.statBak, if_pos rfl, hsize]
    intro hzero
    rw [List.length_eq_zero_iff.mp hzero, List.drop_nil] at hrecs
    exact hne (encode_eq_nil.mp hrecs.symm)
  rw [tcfRemoveLogs, he.sem]
  simp only [hseen, if_false]
  by_cases hless : log.endOff < size s.bak
  · refine ⟨{ s with lseek := some (hostBytes 8 log.endOff) }, ?_, ⟨?_, hfiles⟩, hfits.backup, hfits.files⟩
    · rw [if_pos hless, httcUtilFileWrite_eq he.write (length_hostBytes 8 _).le, length_hostBytes]
      rfl
    · have hleft : recs.drop n ≠ [] := by
        intro hnil
        rw [hnil, encode, List.flatMap_nil] at hdrop
        exact absurd (List.drop_eq_nil_iff.mp hdrop) (by rw [← hsize]; exact Nat.not_le.mpr hless)
      rw [Backlog.put, if_neg hleft]
      exact ⟨log.endOff, f, hbak, Or.inr rfl, by rw [← hsize]; exact hless.le, Or.inl ⟨hleft, hdrop⟩⟩
  · have hgone : recs.drop n = [] := by
      rw [List.drop_eq_nil_of_le (by rw [← hsize]; exact Nat.not_lt.mp hless)] at hdrop
      exact encode_eq_nil.mp hdrop.symm
    rw [if_neg hless, he.rmLseek, he.rmBak, rmLseek_eq]
    simp only [not_true_eq_false, if_false, rmBak_eq, if_true]
    rw [hgone]
    exact ⟨_, rfl, hremoved⟩

end Read

/-! ### Turns of a reader -/

/-- After a call of one of the two, `tcf_remove_logs` of the last log it has returned. -/
def removeLast (e : RemoveEnv) (r : ReadResult) : Option TcfErr × LogFiles :=
  match r.logs.getLast? with
  | none => (none, r.files)
  | some log => tcfRemoveLogs e log r.files

/-- One turn of a reader. -/
structure Turn where
  /-- `tcf_read_logs`, or `tcf_read_logs_noblock`. -/
  blocking : Bool
  num : ℕ
  env : LogEnv
  removeEnv : RemoveEnv

/-- The reading call of a turn. -/
def Turn.call (t : Turn) (s : LogFiles) : ReadResult :=
  if t.blocking then tcfReadLogs t.env t.num s else tcfReadLogsNoblock t.env t.num s

/-- Turns one after the other: the logs that are returned, and the files that are left. -/
def runTurns : List Turn → LogFiles → List LogInfo × LogFiles
  | [], s => ([], s)
  | t :: ts, s =>
      let r := runTurns ts (removeLast t.removeEnv (t.call s)).2
      ((t.call s).logs ++ r.1, r.2)

/-- The system grants everything in a turn. -/
structure Turn.Granted (t : Turn) : Prop where
  env : t.env.Granted
  removeEnv : t.removeEnv.Granted

section Turns

variable {s : LogFiles} {b : Backlog LogRecord} {n : ℕ} {r : ReadResult} {t : Turn}

theorem removeLast_spec {e : RemoveEnv} (he : e.Granted) (h : ReadOutcome n b r) :
    ∃ d b', b.Batch n d b' ∧ r.logs.map LogInfo.item = d.map LogRecord.bytes ∧ (removeLast e r).1 = none ∧
      (removeLast e r).2.Holds b' ∧ (removeLast e r).2.Fits := by
  cases h with
  | @nothing b₁ _ hlogs hbatch hs hfits =>
      rw [removeLast, hlogs]
      exact ⟨[], b₁, hbatch, rfl, rfl, hs, hfits⟩
  | @logs c recs files _ _ htake hlogs hopen hbatch =>
      obtain ⟨log, hlast, hend⟩ := getLast?_infos c htake
      have hne : recs ≠ [] := fun hnil => htake (by rw [hnil, List.take_nil])
      obtain ⟨s', hremove, hs', hfits'⟩ := tcfRemoveLogs_spec he hopen hne hend
      rw [removeLast, hlogs, hlast]
      simp only [hremove]
      exact ⟨_, _, hbatch, map_item_infos c _, trivial, hs', hfits'⟩

/-- **The reading call of a turn.** The second attempt of `tcf_read_logs` asks for nothing. -/
theorem Turn.call_spec (ht : t.env.Granted) (hs : s.Holds b) (hfits : s.Fits) :
    ReadOutcome t.num b (t.call s) ∨ ∃ b₁, b.Batch t.num [] b₁ ∧ ReadOutcome 0 b₁ (t.call s) := by
  have hfirst : ReadOutcome t.num b (doReadLogs t.env t.num s) := readLoop_spec ht hs hfits (s.rotated.length + 1)
  rw [Turn.call, tcfReadLogs, tcfReadLogsNoblock, ht.calloc, ht.sem]
  simp only [not_true_eq_false, if_false]
  generalize doReadLogs t.env t.num s = r at hfirst ⊢
  split_ifs with hblocking hdone
  · exact Or.inl hfirst
  · have hlogs : r.logs = [] := by
      by_contra hne
      exact hdone (Or.inr (Or.inr (Or.inl hne)))
    cases hfirst with
    | @nothing b₁ _ _ hbatch hs₁ hfits₁ =>
        have hsecond : ReadOutcome 0 b₁ (doReadLogs t.env 0 r.files) :=
          readLoop_spec ht hs₁ hfits₁ (r.files.rotated.length + 1)
        refine Or.inr ⟨b₁, hbatch, ?_⟩
        rw [hlogs, List.length_nil]
        cases hsecond with
        | nothing hfault hlogs hbatch hs₂ hfits₂ => exact .nothing hfault hlogs hbatch hs₂ hfits₂
        | logs _ _ htake _ _ _ => exact absurd List.take_zero htake
    | @logs c recs files _ _ htake hinfos _ _ =>
        have hitems := map_item_infos c (recs.take t.num)
        rw [← hinfos, hlogs, List.map_nil] at hitems
        exact absurd (List.map_eq_nil_iff.mp hitems.symm) htake
  · exact Or.inl hfirst

/-- **One turn:** a request for as many records, and for a blocking call perhaps one for none. -/
theorem Turn.spec (ht : t.Granted) (hs : s.Holds b) (hfits : s.Fits) :
    ∃ ds b', b.Delivered ds b' ∧ (Backlog.records ds).map LogRecord.bytes = (t.call s).logs.map LogInfo.item ∧
      Backlog.positive ds = (if 0 < t.num then 1 else 0) ∧ (removeLast t.removeEnv (t.call s)).2.Holds b' ∧
      (removeLast t.removeEnv (t.call s)).2.Fits := by
  rcases t.call_spec ht.env hs hfits with houtcome | ⟨b₁, hfirst, houtcome⟩
  · obtain ⟨d, b', hbatch, hitems, _, hs', hfits'⟩ := removeLast_spec ht.removeEnv houtcome
    refine ⟨[(t.num, d)], b', .cons hbatch .nil, ?_, Backlog.positive_cons _ _ _, hs', hfits'⟩
    rw [hitems, Backlog.records, List.map_singleton, List.flatten_singleton]
  · obtain ⟨d, b', hbatch, hitems, _, hs', hfits'⟩ := removeLast_spec ht.removeEnv houtcome
    refine ⟨[(t.num, []), (0, d)], b', .cons hfirst (.cons hbatch .nil), ?_, Backlog.positive_cons _ _ _,
      hs', hfits'⟩
    rw [hitems, Backlog.records, List.map_cons, List.map_singleton, List.flatten_cons, List.nil_append,
      List.flatten_singleton]

/-- **A run:** the turns deliver what the logs say. -/
theorem runTurns_delivered (ts : List Turn) (hts : ∀ t ∈ ts, t.Granted) (hs : s.Holds b) (hfits : s.Fits) :
    ∃ ds b', b.Delivered ds b' ∧ (Backlog.records ds).map LogRecord.bytes = (runTurns ts s).1.map LogInfo.item ∧
      Backlog.positive ds = (ts.filter fun t => 0 < t.num).length ∧ (runTurns ts s).2.Holds b' := by
  induction ts generalizing s b with
  | nil => exact ⟨[], b, .nil, rfl, rfl, hs⟩
  | cons t ts ih =>
      obtain ⟨ht, hts⟩ := List.forall_mem_cons.mp hts
      obtain ⟨ds, b₁, hds, hitems, hpos, hs₁, hfits₁⟩ := Turn.spec ht hs hfits
      obtain ⟨es, b', hes, hrest, hposes, hs'⟩ := ih hts hs₁ hfits₁
      refine ⟨ds ++ es, b', hds.append hes, ?_, ?_, hs'⟩
      · rw [Backlog.records_append, List.map_append, hitems, hrest, runTurns, List.map_append]
      · rw [Backlog.positive_append, hpos, hposes]
        by_cases hn : 0 < t.num
        · rw [if_pos hn, List.filter_cons_of_pos (by simpa using hn), List.length_cons, Nat.add_comm]
        · rw [if_neg hn, List.filter_cons_of_neg (by simpa using hn), Nat.zero_add]

end Turns

/-! ### Where it goes wrong -/

/-- A header with this length, and nothing after it. -/
def headerOnly (total : ℕ) : Bytes :=
  hostBytes 4 logMagic ++ List.replicate 32 1 ++ hostBytes 4 total ++ List.replicate 40 1

/-- A record that is only its header. -/
def headerRecord : LogRecord where
  bytes := headerOnly 80
  header := by decide
  page := by decide
  magic := by decide
  totalLen := by decide

/-- `readdir` gives the files in the order in which they were rotated. -/
def rotatedOrder : RotatedOrder where
  entries := fun s => s.map fun f => ⟨f, true, true, true⟩
  perm := fun s => by rw [List.map_map]; exact List.Perm.of_eq (List.map_id s)

/-- A reading call that is granted everything. -/
def grantedEnv : LogEnv where
  calloc := true
  sem := none
  statBak := true
  statLseek := true
  statCurrent := true
  readLseek := ⟨true, true, true⟩
  readBak := ⟨true, true, true⟩
  malloc := fun _ => true
  rmBak := true
  rmLseek := true
  rename := true
  rotate := true
  opendir := true
  order := rotatedOrder
  select := true

/-- A turn that asks for one record and is granted everything. -/
def oneLog : Turn where
  blocking := false
  num := 1
  env := grantedEnv
  removeEnv := ⟨none, true, ⟨true, 8, 0⟩, true, true⟩

theorem oneLog_granted : oneLog.Granted := by
  refine ⟨⟨rfl, rfl, rfl, rfl, rfl, ⟨rfl, rfl, rfl⟩, ⟨rfl, rfl, rfl⟩, fun _ => rfl, rfl, rfl, rfl, rfl, rfl, ?_⟩,
    rfl, rfl, ⟨rfl, le_rfl, rfl⟩, rfl, rfl⟩
  intro s d hd
  obtain ⟨f, _, rfl⟩ := List.mem_map.mp hd
  exact ⟨rfl, rfl, rfl⟩

/-- A backup of malformed bytes, a rotated file and `tsb.log`. -/
def malformedFirst : LogFiles := ⟨some [1], none, some (headerOnly 80), [headerOnly 80 ++ headerOnly 80]⟩

/-- A record of length zero that is not refused: every turn returns it again. -/
theorem runTurns_zeroLength (k : ℕ) (lseek : Option Bytes) (h : lseek = none ∨ lseek = some (hostBytes 8 0)) :
    (runTurns (List.replicate k oneLog) ⟨some (headerOnly 0), lseek, some [], [headerOnly 80]⟩).2.rotated =
        [headerOnly 80] ∧
      ∀ log ∈ (runTurns (List.replicate k oneLog) ⟨some (headerOnly 0), lseek, some [], [headerOnly 80]⟩).1,
        log.item = [] := by
  induction k generalizing lseek with
  | zero => exact ⟨rfl, fun log hlog => absurd hlog List.not_mem_nil⟩
  | succ k ih =>
      have hcall : (oneLog.call ⟨some (headerOnly 0), lseek, some [], [headerOnly 80]⟩).logs = [⟨[], 0⟩] := by
        rcases h with rfl | rfl <;> decide +kernel
      have hstep :
          (removeLast oneLog.removeEnv (oneLog.call ⟨some (headerOnly 0), lseek, some [], [headerOnly 80]⟩)).2 =
          ⟨some (headerOnly 0), some (hostBytes 8 0), some [], [headerOnly 80]⟩ := by
        rcases h with rfl | rfl <;> decide +kernel
      obtain ⟨hrotated, hlogs⟩ := ih _ (Or.inr rfl)
      rw [List.replicate_succ, runTurns, hstep, hcall]
      refine ⟨hrotated, fun log hlog => ?_⟩
      rcases List.mem_append.mp hlog with hfirst | hrest
      · rw [List.mem_singleton.mp hfirst]
      · exact hlogs log hrest

/-- A file that is too long is removed unread. -/
theorem runTurns_tooLong (f : Bytes) (h : maxFileSize < f.length) :
    runTurns [oneLog] ⟨none, none, some [], [f]⟩ = ([], ⟨none, none, some [], []⟩) := by
  have hne : f ≠ [] := by
    rintro rfl
    exact Nat.not_lt_zero _ h
  have hopen : openBak grantedEnv ⟨none, none, some [], [f]⟩ = .ready 0 false ⟨some f, none, some [], []⟩ := by
    simp [openBak, grantedEnv, rotatedOrder, sizeSeen, rmLseek, dirLookup, hne, size]
  have hread : logRead grantedEnv.readBak grantedEnv.malloc (some f) 0 1 = .failed 1 := by
    have hnone : httcUtilFileReadOffset grantedEnv.readBak (some f) 0 = none := by
      simp [httcUtilFileReadOffset, httcUtilFileReadFull, grantedEnv, h]
    rw [logRead, hnone]
  have hnext : openBak grantedEnv ⟨none, none, some [], []⟩ = .nothing ⟨none, none, some [], []⟩ := rfl
  have hloop :
      doReadLogs grantedEnv 1 ⟨none, none, some [], [f]⟩ = ⟨none, false, [], ⟨none, none, some [], []⟩⟩ := by
    rw [doReadLogs, readLoop, hopen]
    simp only [hread]
    have hrmBak := rmBak_eq ⟨some f, none, some [], []⟩
    have hrmLseek := rmLseek_eq ⟨none, none, some [], []⟩
    have hgranted : grantedEnv.rmBak = true ∧ grantedEnv.rmLseek = true := ⟨rfl, rfl⟩
    simp only [hgranted.1, hgranted.2, hrmBak, hrmLseek, not_true_eq_false, if_false, Bool.or_self,
      Bool.false_eq_true]
    rw [readLoop, hnext]
  have hcall : oneLog.call ⟨none, none, some [], [f]⟩ = ⟨none, false, [], ⟨none, none, some [], []⟩⟩ := hloop
  rw [runTurns, hcall]
  rfl

end Tcf
end TsbAgent
