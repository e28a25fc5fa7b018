/-
# The versions of four policies

`tss-main/tcf/src/tcf_dev_version.c` keeps the version of the last update of a policy in a
file of 8 bytes, and the update functions of `tcf_file_protect.c`, `tcf_network_control.c`,
`tcf_udisk_protect.c` and `tcf_dev_protect.c` call it **in the middle of their checks**:

| | check | on failure |
| --- | --- | --- |
| 1 | `be_size` | `TCF_ERR_NOMEM` |
| 2 | the version is newer than the stored one, **and is stored** | `TCF_ERR_VERSION` |
| 3 | the TPCM id can be read and is that of the update | `TCF_ERR_BAD_DATA` |
| 4 | the length of the data | `TCF_ERR_BAD_DATA` |
| 5 | the TCS takes the update | its error |

So an update that fails in 3, 4 or 5 has used its version up: `keepsVersion_iff` says exactly
when a failed update leaves the version file alone.  The versions of the successful updates
do increase, as long as the files are read and their writes do not come to nothing
(`versions_increase`): a version file that is empty, or that cannot be read, counts as none.
-/

import TsbAgent.Httcutils.File
import TsbAgent.Tcf.NetworkControl

namespace TsbAgent
namespace Tcf

open Libc Word File Httcutils Tcs

/-- The four policies. -/
inductive DevPolicy
  | fileProtect
  | network
  | udisk
  | cdrom
deriving DecidableEq

/-- The version files: `TCF_FILE_VERSION_PATH`, `TCF_NETWORK_VERSION_PATH`,
`TCF_UDISK_VERSION_PATH` and `TCF_CDROM_VERSION_PATH`. -/
abbrev VersionFiles := DevPolicy → Option Bytes

/-- What the system grants a call of `tcf_set_*_version`. -/
structure VersionIo where
  /-- `httc_util_create_path_of_fullpath`. -/
  path : Bool
  /-- What `tcf_util_sem_get` returns. -/
  sem : Option TcfErr
  read : ReadIo
  write : Stream

/-! ### Setting a version -/

/-- The common body of the four functions, for the file of one policy. -/
def setVersion (io : VersionIo) (file : Option Bytes) (version : UInt64) : Option TcfErr × Option Bytes :=
  if ¬ io.path then (some .file, file)
  else
    match io.sem with
    | some e => (some e, file)
    | none =>
        let store : Option TcfErr × Option Bytes :=
          let r := httcUtilFileWrite io.write file (hostBytes 8 version.toNat)
          (if r.1 ≠ 8 then some .file else none, r.2)
        match httcUtilFileReadFull io.read file with
        | none => store
        | some old =>
            if old.length ≠ 8 then (some .file, file)
            else if ofHost old ≥ version.toNat then (some .version, file)
            else store

/-- The policy's own file. -/
def setVersionOf (p : DevPolicy) (io : VersionIo) (s : VersionFiles) (version : UInt64) :
    Option TcfErr × VersionFiles :=
  ((setVersion io (s p) version).1, Function.update s p (setVersion io (s p) version).2)

/-- `tcf_set_file_protect_version`. -/
def tcfSetFileProtectVersion := setVersionOf .fileProtect

/-- `tcf_set_network_version`. -/
def tcfSetNetworkVersion := setVersionOf .network

/-- `tcf_set_udisk_version`. -/
def tcfSetUdiskVersion := setVersionOf .udisk

/-- `tcf_set_cdrom_version`. -/
def tcfSetCdromVersion := setVersionOf .cdrom

/-! ### The updates -/

/-- What a call of an update function meets: the system, the TPCM id (none when it cannot be
read), and what the TCS returns. -/
structure UpdateEnv where
  io : VersionIo
  tcsGetTpcmId : Option Mem
  tcs : Option TcfErr

/-- `memcmp(update->tpcm_id, id, MAX_TPCM_ID_SIZE) == 0`, for an id that can be read. -/
def tpcmIdRight (e : UpdateEnv) (update : Mem) : Bool :=
  match e.tcsGetTpcmId with
  | none => false
  | some id => memcmp 32 (update.bytes 24 32) (id.bytes 0 32) = 0

/-- The common body of the four checks, which differ in the version they set and in the length
they compute from the data and the number of items. -/
def checkDevUpdate (setVersion : VersionIo → VersionFiles → UInt64 → Option TcfErr × VersionFiles)
    (dateLen : Mem → ℕ → UInt32 → UInt32) (e : UpdateEnv) (s : VersionFiles) (update : Mem) :
    Option TcfErr × VersionFiles :=
  if update.ntohl 0 ≠ 56 then (some .nomem, s)
  else
    let r := setVersion e.io s (update.ntohll 8)
    if r.1 ≠ none then (some .version, r.2)
    else if ¬ tpcmIdRight e update then (some .badData, r.2)
    else if dateLen update 56 (update.ntohl 16) ≠ update.ntohl 20 then (some .badData, r.2)
    else (none, r.2)

/-- `tcf_util_check_file_protect_update`. -/
def tcfUtilCheckFileProtectUpdate := checkDevUpdate tcfSetFileProtectVersion getFileProtectDateLen

/-- `tcf_util_check_network_control_update`. -/
def tcfUtilCheckNetworkControlUpdate := checkDevUpdate tcfSetNetworkVersion getNetworkControlDateLen

/-- `tcf_util_check_udisk_protect_update`; `sizeof (struct udisk_conf_item)` is 52. -/
def tcfUtilCheckUdiskProtectUpdate := checkDevUpdate tcfSetUdiskVersion fun _ _ number => 52 * number

/-- `tcf_util_check_dev_protect_update`; `sizeof (struct cdrom_protect_item)` is 4. -/
def tcfUtilCheckDevProtectUpdate := checkDevUpdate tcfSetCdromVersion fun _ _ number => 4 * number

/-- The check of a policy. -/
def DevPolicy.check : DevPolicy → UpdateEnv → VersionFiles → Mem → Option TcfErr × VersionFiles
  | fileProtect => tcfUtilCheckFileProtectUpdate
  | network => tcfUtilCheckNetworkControlUpdate
  | udisk => tcfUtilCheckUdiskProtectUpdate
  | cdrom => tcfUtilCheckDevProtectUpdate

/-- `tcf_update_file_protect_policy`, `tcf_update_network_control_policy`,
`tcf_update_udisk_protect_policy` and `tcf_update_cdrom_protect_policy`: none is success. -/
def tcfUpdatePolicy (p : DevPolicy) (e : UpdateEnv) (s : VersionFiles) (update : Mem) :
    Option TcfErr × VersionFiles :=
  match p.check e s update with
  | (some err, s') => (some err, s')
  | (none, s') => (e.tcs, s')

/-- A call. -/
structure UpdateCall where
  policy : DevPolicy
  env : UpdateEnv
  update : Mem

/-- `be_replay_counter`. -/
def UpdateCall.version (c : UpdateCall) : UInt64 := c.update.ntohll 8

/-- The length that the check computes. -/
def UpdateCall.dateLen (c : UpdateCall) : UInt32 :=
  match c.policy with
  | .fileProtect => getFileProtectDateLen c.update 56 (c.update.ntohl 16)
  | .network => getNetworkControlDateLen c.update 56 (c.update.ntohl 16)
  | .udisk => 52 * c.update.ntohl 16
  | .cdrom => 4 * c.update.ntohl 16

/-- The result of the call. -/
def UpdateCall.run (c : UpdateCall) (s : VersionFiles) : Option TcfErr × VersionFiles :=
  tcfUpdatePolicy c.policy c.env s c.update

/-! ### What is claimed -/

/-- **A failed update does not consume its version.** -/
def KeepsVersion (s : VersionFiles) (c : UpdateCall) : Prop := (c.run s).1 ≠ none → (c.run s).2 = s

/-- The version is written: the size is right, the stored version (if there is one and it can be
read) is older, and the file is opened. -/
structure Records (s : VersionFiles) (c : UpdateCall) : Prop where
  size : c.update.ntohl 0 = 56
  path : c.env.io.path = true
  sem : c.env.io.sem = none
  older : ∀ old, httcUtilFileReadFull c.env.io.read (s c.policy) = some old →
    old.length = 8 ∧ ofHost old < c.version.toNat
  opens : c.env.io.write.opens = true

/-- What comes after the version is right: all its bytes are taken, the TPCM id and the length
are right, and the TCS takes the update. -/
structure RestRight (c : UpdateCall) : Prop where
  room : 8 ≤ c.env.io.write.room
  tpcmId : tpcmIdRight c.env c.update = true
  dateLen : c.dateLen = c.update.ntohl 20
  tcs : c.env.tcs = none

/-- What the version file holds after the write. -/
def UpdateCall.written (c : UpdateCall) : Bytes :=
  c.env.io.write.kept ((hostBytes 8 c.version.toNat).take c.env.io.write.room)

/-- The successful calls of a sequence: policy and version. -/
def successes : VersionFiles → List UpdateCall → List (DevPolicy × UInt64)
  | _, [] => []
  | s, c :: cs =>
      match c.run s with
      | (none, s') => (c.policy, c.version) :: successes s' cs
      | (some _, s') => successes s' cs

/-- The stored version is read, and a write does not come to nothing. -/
structure UpdateCall.IoRight (c : UpdateCall) : Prop where
  read : c.env.io.read.Granted
  write : c.env.io.write.opens = true → 0 < min 8 c.env.io.write.room - c.env.io.write.lost

section Call

variable {c : UpdateCall} {s : VersionFiles} {io : VersionIo} {file : Option Bytes} {version : UInt64}

/-- The four updates are one: only the file and the length differ. -/
theorem run_eq (c : UpdateCall) (s : VersionFiles) :
    c.run s =
      if c.update.ntohl 0 ≠ 56 then (some .nomem, s)
      else if (setVersionOf c.policy c.env.io s c.version).1 ≠ none then
        (some .version, (setVersionOf c.policy c.env.io s c.version).2)
      else if ¬ tpcmIdRight c.env c.update ∨ c.dateLen ≠ c.update.ntohl 20 then
        (some .badData, (setVersionOf c.policy c.env.io s c.version).2)
      else (c.env.tcs, (setVersionOf c.policy c.env.io s c.version).2) := by
  obtain ⟨p, e, u⟩ := c
  have hcheck (dateLen : Mem → ℕ → UInt32 → UInt32) :
      (match checkDevUpdate (setVersionOf p) dateLen e s u with
        | (some err, s') => (some err, s')
        | (none, s') => (e.tcs, s')) =
      if u.ntohl 0 ≠ 56 then (some .nomem, s)
      else if (setVersionOf p e.io s (u.ntohll 8)).1 ≠ none then
        (some .version, (setVersionOf p e.io s (u.ntohll 8)).2)
      else if ¬ tpcmIdRight e u ∨ dateLen u 56 (u.ntohl 16) ≠ u.ntohl 20 then
        (some .badData, (setVersionOf p e.io s (u.ntohll 8)).2)
      else (e.tcs, (setVersionOf p e.io s (u.ntohll 8)).2) := by
    unfold checkDevUpdate
    dsimp only
    split_ifs with h1 h2 h3 h4 h5 h6 h7 <;> first | rfl | simp_all
  cases p with
  | fileProtect => exact hcheck getFileProtectDateLen
  | network => exact hcheck getNetworkControlDateLen
  | udisk => exact hcheck fun _ _ number => 52 * number
  | cdrom => exact hcheck fun _ _ number => 4 * number

theorem update_self_file (p : DevPolicy) : Function.update s p (s p) = s := Function.update_eq_self p s

/-- A version that is not written leaves the file, and is refused. -/
theorem setVersion_refused
    (h : ¬ (io.path = true ∧ io.sem = none ∧ io.write.opens = true ∧
      ∀ old, httcUtilFileReadFull io.read file = some old → old.length = 8 ∧ ofHost old < version.toNat)) :
    (setVersion io file version).1 ≠ none ∧ (setVersion io file version).2 = file := by
  unfold setVersion
  by_cases hpath : io.path = true
  · rw [if_neg (by simp [hpath])]
    cases hsem : io.sem with
    | some e => exact ⟨by simp, rfl⟩
    | none =>
        have hclosed : io.write.opens ≠ true →
            httcUtilFileWrite io.write file (hostBytes 8 version.toNat) = (-1, file) := by
          intro hopens
          rw [httcUtilFileWrite, if_pos hopens]
        cases hread : httcUtilFileReadFull io.read file with
        | none =>
            have hopens : io.write.opens ≠ true := fun hopens =>
              h ⟨hpath, hsem, hopens, fun old hold => absurd (hread.symm.trans hold) (Option.some_ne_none old).symm⟩
            dsimp only
            rw [hclosed hopens]
            exact ⟨by simp, rfl⟩
        | some old =>
            dsimp only
            by_cases hlen : old.length = 8
            · rw [if_neg (not_not.mpr hlen)]
              by_cases hold : ofHost old ≥ version.toNat
              · rw [if_pos hold]
                exact ⟨by simp, rfl⟩
              · have hopens : io.write.opens ≠ true := by
                  intro hopens
                  refine h ⟨hpath, hsem, hopens, fun old' hold' => ?_⟩
                  rw [hread] at hold'
                  obtain rfl := Option.some.inj hold'
                  exact ⟨hlen, by omega⟩
                rw [if_neg hold, hclosed hopens]
                exact ⟨by simp, rfl⟩
            · rw [if_pos hlen]
              exact ⟨by simp, rfl⟩
  · rw [if_pos hpath]
    exact ⟨by simp, rfl⟩

/-- A version that is written. -/
theorem setVersion_stored (hpath : io.path = true) (hsem : io.sem = none) (hopens : io.write.opens = true)
    (holder : ∀ old, httcUtilFileReadFull io.read file = some old → old.length = 8 ∧ ofHost old < version.toNat) :
    ((setVersion io file version).1 = none ↔ 8 ≤ io.write.room) ∧
      (setVersion io file version).2 = some (io.write.kept ((hostBytes 8 version.toNat).take io.write.room)) := by
  have hstore : httcUtilFileWrite io.write file (hostBytes 8 version.toNat) =
      ((((hostBytes 8 version.toNat).take io.write.room).length : ℤ),
        some (io.write.kept ((hostBytes 8 version.toNat).take io.write.room))) := by
    rw [httcUtilFileWrite, if_neg (by simp [hopens])]
  have hroom : ((((hostBytes 8 version.toNat).take io.write.room).length : ℤ) ≠ 8) ↔ ¬ 8 ≤ io.write.room := by
    rw [List.length_take, length_hostBytes]
    omega
  unfold setVersion
  rw [if_neg (by simp [hpath]), hsem]
  dsimp only
  rw [hstore]
  cases hread : httcUtilFileReadFull io.read file with
  | none =>
      dsimp only
      refine ⟨?_, rfl⟩
      split_ifs with h8
      · simp [hroom.mp h8]
      · simp [not_not.mp (mt hroom.mpr h8)]
  | some old =>
      obtain ⟨hlen, hlt⟩ := holder old hread
      dsimp only
      rw [if_neg (by simp [hlen]), if_neg (by omega)]
      refine ⟨?_, rfl⟩
      split_ifs with h8
      · simp [hroom.mp h8]
      · simp [not_not.mp (mt hroom.mpr h8)]

/-- A call that writes no version fails and leaves everything. -/
theorem run_of_not_records (h : ¬ Records s c) : (c.run s).1 ≠ none ∧ (c.run s).2 = s := by
  rw [run_eq]
  split_ifs with hsize hset hrest
  · exact ⟨by simp, rfl⟩
  all_goals
    have hsize : c.update.ntohl 0 = 56 := not_not.mp hsize
    obtain ⟨hfail, hfile⟩ := @setVersion_refused c.env.io (s c.policy) c.version fun hall =>
      h ⟨hsize, hall.1, hall.2.1, hall.2.2.2, hall.2.2.1⟩
    rw [setVersionOf] at *
  · refine ⟨by simp, ?_⟩
    dsimp only
    rw [hfile, update_self_file]
  · exact absurd hfail hset
  · exact absurd hfail hset

/-- A call that writes its version: it succeeds exactly when the rest is right. -/
theorem run_of_records (h : Records s c) :
    ((c.run s).1 = none ↔ RestRight c) ∧ (c.run s).2 = Function.update s c.policy (some c.written) := by
  obtain ⟨hroom, hfile⟩ := setVersion_stored h.path h.sem h.opens h.older
  have hstate : (setVersionOf c.policy c.env.io s c.version).2 = Function.update s c.policy (some c.written) := by
    rw [setVersionOf, hfile]
    rfl
  have hset : (setVersionOf c.policy c.env.io s c.version).1 = none ↔ 8 ≤ c.env.io.write.room := hroom
  rw [run_eq, if_neg (not_not.mpr h.size)]
  split_ifs with hfail hrest
  · refine ⟨iff_of_false (by simp) fun hr => hfail (hset.mpr hr.room), hstate⟩
  · refine ⟨iff_of_false (by simp) fun hr => ?_, hstate⟩
    rcases hrest with hid | hlen
    · exact hid hr.tpcmId
    · exact hlen hr.dateLen
  · refine ⟨⟨fun htcs => ?_, fun hr => hr.tcs⟩, hstate⟩
    rw [not_or, not_not, not_not] at hrest
    exact ⟨hset.mp (not_not.mp hfail), hrest.1, hrest.2, htcs⟩

/-- **When a failed update keeps its version:** its version is not written at all, or the update
does not fail, or what is written stood in the file before. -/
theorem keepsVersion_iff :
    KeepsVersion s c ↔ (Records s c → RestRight c ∨ s c.policy = some c.written) := by
  by_cases h : Records s c
  · obtain ⟨hrest, hstate⟩ := run_of_records h
    unfold KeepsVersion
    rw [hstate, ne_eq, hrest, Function.update_eq_self_iff]
    constructor
    · intro hkeep _
      by_cases hr : RestRight c
      · exact Or.inl hr
      · exact Or.inr (hkeep hr).symm
    · intro hcond hr
      exact ((hcond h).resolve_left hr).symm
  · exact iff_of_true (fun _ => (run_of_not_records h).2) (fun hr => absurd hr h)

end Call

/-! ### Sequences of calls -/

/-- The file holds a version from `v` on, or bytes that no version passes. -/
def AtLeast (v : ℕ) (file : Option Bytes) : Prop :=
  ∃ b, file = some b ∧ b ≠ [] ∧ b.length ≤ 8 ∧ (b.length = 8 → v ≤ ofHost b)

section Sequence

variable {c : UpdateCall} {cs : List UpdateCall} {s : VersionFiles} {p : DevPolicy} {v : ℕ}

theorem atLeast_written (hio : c.IoRight) (hopens : c.env.io.write.opens = true) :
    AtLeast c.version.toNat (some c.written) := by
  have hpos := hio.write hopens
  have hlt : c.version.toNat < 256 ^ 8 := c.version.toNat_lt
  have hlength : c.written.length = min 8 c.env.io.write.room - c.env.io.write.lost := by
    rw [UpdateCall.written, Stream.length_kept, List.length_take, length_hostBytes, Nat.min_comm]
  refine ⟨c.written, rfl, fun hnil => ?_, by omega, fun h8 => ?_⟩
  · rw [hnil, List.length_nil] at hlength
    omega
  · have hall : c.written = hostBytes 8 c.version.toNat := by
      refine List.IsPrefix.eq_of_length ?_ (by rw [h8, length_hostBytes])
      exact (List.take_prefix _ _).trans (List.take_prefix _ _)
    rw [hall, ofHost_hostBytes_of_lt hlt]

/-- A call leaves the files of the other policies. -/
theorem run_other (h : c.policy ≠ p) : (c.run s).2 p = s p := by
  by_cases hr : Records s c
  · rw [(run_of_records hr).2, Function.update_of_ne (Ne.symm h)]
  · rw [(run_of_not_records hr).2]

theorem records_of_success (h : (c.run s).1 = none) : Records s c := by
  by_contra hr
  exact (run_of_not_records hr).1 h

/-- A version that is written is above the stored one. -/
theorem lt_of_records (hio : c.IoRight) (hr : Records s c) (h : AtLeast v (s c.policy)) :
    v < c.version.toNat := by
  obtain ⟨b, hb, hne, hlen, hv⟩ := h
  have hread : httcUtilFileReadFull c.env.io.read (s c.policy) = some b := by
    have hmax : (8 : ℕ) ≤ maxFileSize := by decide
    rw [hb]
    exact httcUtilFileReadFull_eq_some.mpr ⟨hio.read, hlen.trans hmax, hne, rfl⟩
  obtain ⟨h8, hlt⟩ := hr.older b hread
  exact lt_of_le_of_lt (hv h8) hlt

/-- **What one call does to the stored version.** -/
theorem atLeast_run (hio : c.IoRight) (h : AtLeast v (s p)) : AtLeast v ((c.run s).2 p) := by
  by_cases hp : c.policy = p
  · subst hp
    by_cases hr : Records s c
    · have hlt := lt_of_records hio hr h
      obtain ⟨b, hb, hne, hlen, hv⟩ := atLeast_written hio hr.opens
      rw [(run_of_records hr).2, Function.update_self]
      exact ⟨b, hb, hne, hlen, fun h8 => hlt.le.trans (hv h8)⟩
    · rwa [(run_of_not_records hr).2]
  · rwa [run_other hp]

/-- After a version has been stored, only newer ones succeed. -/
theorem successes_gt (hio : ∀ c ∈ cs, c.IoRight) (h : AtLeast v (s p)) :
    ∀ x ∈ successes s cs, x.1 = p → v < x.2.toNat := by
  induction cs generalizing s with
  | nil => nofun
  | cons c cs ih =>
      obtain ⟨hc, hcs⟩ := List.forall_mem_cons.mp hio
      have hnext := ih hcs (atLeast_run hc h)
      rw [successes]
      cases hrun : c.run s with
      | mk r s' =>
          rw [hrun] at hnext
          cases r with
          | some e => exact hnext
          | none =>
              refine List.forall_mem_cons.mpr ⟨fun hp => ?_, hnext⟩
              have hp : c.policy = p := hp
              subst hp
              exact lt_of_records hc (records_of_success (by rw [hrun])) h

/-- **The versions of the successful updates of a policy strictly increase.** -/
theorem versions_increase (hio : ∀ c ∈ cs, c.IoRight) :
    (successes s cs).Pairwise fun a b => a.1 = b.1 → a.2 < b.2 := by
  induction cs generalizing s with
  | nil => exact List.Pairwise.nil
  | cons c cs ih =>
      obtain ⟨hc, hcs⟩ := List.forall_mem_cons.mp hio
      rw [successes]
      cases hrun : c.run s with
      | mk r s' =>
          cases r with
          | some e => exact ih hcs
          | none =>
              have hr : Records s c := records_of_success (by rw [hrun])
              have hstate : s' = Function.update s c.policy (some c.written) := by
                rw [← (run_of_records hr).2, hrun]
              have hstored : AtLeast c.version.toNat (s' c.policy) := by
                rw [hstate, Function.update_self]
                exact atLeast_written hc hr.opens
              refine List.Pairwise.cons (fun b hb hp => ?_) (ih hcs)
              exact UInt64.lt_iff_toNat_lt.mpr (successes_gt hcs hstored b hb hp.symm)

end Sequence

/-- **A failed update keeps its version exactly when** its version is not written (a wrong size, a
version that is not newer, no file to write to), or was there already; **and the versions of the
successful updates of each policy strictly increase,** over any sequence of calls whose version
files are read and whose writes do not come to nothing. -/
theorem failed_update_keeps_version_iff (s : VersionFiles) :
    (∀ c, KeepsVersion s c ↔ (Records s c → RestRight c ∨ s c.policy = some c.written)) ∧
      ∀ cs : List UpdateCall, (∀ c ∈ cs, c.IoRight) →
        (successes s cs).Pairwise fun a b => a.1 = b.1 → a.2 < b.2 :=
  ⟨fun _ => keepsVersion_iff, fun _ => versions_increase⟩

/-- A CD-ROM update without items, with a version and an id of 32 equal bytes. -/
def cdromUpdate (version id : UInt8) : Mem := fun p =>
  ([0, 0, 0, 56, 0, 0, 0, 0, 0, 0, 0, 0, 0, 0, 0, version, 0, 0, 0, 0, 0, 0, 0, 0] ++
    List.replicate 32 id).getD p 0

/-- A call of it where everything is granted, on a machine with id 1. -/
def cdromCall (version id : UInt8) : UpdateCall where
  policy := .cdrom
  env := ⟨⟨true, none, ⟨true, true, true⟩, ⟨true, 100, 0⟩⟩, some fun _ => 1, none⟩
  update := cdromUpdate version id

theorem cdromCall_ioRight (version id : UInt8) : (cdromCall version id).IoRight :=
  ⟨⟨rfl, rfl, rfl⟩, fun _ => Nat.succ_pos 7⟩

theorem versions_five_six :
    successes (fun _ => none) [cdromCall 5 1, cdromCall 6 1] = [(.cdrom, 5), (.cdrom, 6)] ∧
      [(DevPolicy.cdrom, (5 : UInt64)), (.cdrom, 6)].Pairwise fun a b => a.1 = b.1 → a.2 < b.2 := by
  have hsuccesses : successes (fun _ => none) [cdromCall 5 1, cdromCall 6 1] = [(.cdrom, 5), (.cdrom, 6)] := by
    decide +kernel
  have hincrease := (failed_update_keeps_version_iff fun _ => none).2 [cdromCall 5 1, cdromCall 6 1]
    (List.forall_mem_cons.mpr ⟨cdromCall_ioRight 5 1, List.forall_mem_singleton.mpr (cdromCall_ioRight 6 1)⟩)
  rw [hsuccesses] at hincrease
  exact ⟨hsuccesses, hincrease⟩

/-- **An update with a wrong id uses its version up:** the corrected one is refused. -/
theorem wrong_id_consumes_version :
    ((cdromCall 5 2).run fun _ => none).1 = some .badData ∧
      ¬ KeepsVersion (fun _ => none) (cdromCall 5 2) ∧
      ((cdromCall 5 1).run fun _ => none).1 = none ∧
      ((cdromCall 5 1).run ((cdromCall 5 2).run fun _ => none).2).1 = some .version := by
  have hfail : ((cdromCall 5 2).run fun _ => none).1 = some .badData := by decide +kernel
  have hfile : ((cdromCall 5 2).run fun _ => none).2 .cdrom = some [5, 0, 0, 0, 0, 0, 0, 0] := by decide +kernel
  refine ⟨hfail, fun hkeep => ?_, by decide +kernel, by decide +kernel⟩
  have hsame := hkeep (by rw [hfail]; simp)
  rw [hsame] at hfile
  exact nomatch hfile

end Tcf
end TsbAgent
