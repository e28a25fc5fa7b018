/-
# The audit log in memory

`tsb/kernel/platform/log/log.c` with `LOG_MEM`: `write_log_to_memory` appends the records to
`g_list_log_memory` and keeps the last 10000 of them, `log_sum` counts them, and two ioctls read
them into a buffer of the user:

| ioctl | when the list is empty |
| --- | --- |
| `ioctl_tsb_read_inmem_log` | waits for a record |
| `ioctl_tsb_read_inmem_log_nonblock` | returns the length 0 |

A read copies the records one after the other and takes each from the list when it is copied.  It
stops before the first record that does not fit and at the first that cannot be copied, so in both
cases the records it has taken are whole in the buffer and the others are still in the list
(`readLoop_spec`).  After a failed copy the call returns `-1` and does not write the length.

Records have at most 4096 bytes (`log_out_buffer`), so the lengths add up within an `int`.
-/

import TsbAgent.Lib.File
import TsbAgent.Lib.Run
import TsbAgent.Lib.Word

namespace TsbAgent
namespace AuditLog

open Libc Run Word File

def erestartsys : ℤ := 512

/-- The bound on the records that `write_log_to_memory` keeps. -/
def maxMemoryLogs : ℕ := 10000

/-- `struct log_memory`: the `len` bytes of a record. -/
abbrev LogMemory := { data : Bytes // data.length ≤ 4096 }

/-- `g_list_log_memory` and `log_sum`. -/
structure MemLog where
  list : List LogMemory
  logSum : ℤ

def MemLog.init : MemLog := ⟨[], 0⟩

/-- `write_log_to_memory`. -/
def writeLogToMemory (s : MemLog) (stopped kzalloc : Bool) (m : LogMemory) : MemLog :=
  if stopped then s
  else if !kzalloc then s
  else if s.logSum + 1 > maxMemoryLogs then ⟨s.list.tail ++ [m], s.logSum + 1 - 1⟩
  else ⟨s.list ++ [m], s.logSum + 1⟩

/-- `clear_mem_log`. -/
def clearMemLog (s : MemLog) : MemLog := ⟨[], s.logSum - s.list.length⟩

/-- The user's side of a read: whether a signal comes while it waits, what `copy_from_user` gets
of the parameter and of the buffer length, the memory at `parameter.data`, how many bytes of each
record `copy_to_user` leaves uncopied, and whether the two results can be written. -/
structure Request where
  interrupted : Bool
  parameter : Bool
  userBufLen : Option ℤ
  data : Bytes
  uncopied : ℕ → ℕ
  writesLength : Bool
  writesHasmore : Bool

/-- What the user gets: the result, the memory at `parameter.data`, and what was written to
`*length` and `*hasmore`. -/
structure Reply where
  ret : ℤ
  data : Bytes
  length : Option ℤ
  hasmore : Option ℤ

/-- The state after the loop. -/
structure Loop where
  list : List LogMemory
  logSum : ℤ
  dataLen : ℤ
  hasmore : ℤ
  data : Bytes
  failed : Bool

/-- The loop over the list; `k` numbers the copies. -/
def readLoop (userBufLen : ℤ) (uncopied : ℕ → ℕ) : ℕ → List LogMemory → ℤ → ℤ → Bytes → Loop
  | _, [], logSum, dataLen, data => ⟨[], logSum, dataLen, 0, data, false⟩
  | k, m :: rest, logSum, dataLen, data =>
      if userBufLen < int32 (dataLen + m.1.length) then ⟨m :: rest, logSum, dataLen, 1, data, false⟩
      else if min (uncopied k) m.1.length ≠ 0 then
        ⟨m :: rest, logSum, dataLen, 0,
          patch data dataLen.toNat (m.1.take (m.1.length - uncopied k)), true⟩
      else
        readLoop userBufLen uncopied (k + 1) rest (logSum - 1) (int32 (dataLen + m.1.length))
          (patch data dataLen.toNat m.1)

/-- The two results after the loop. -/
def writeResults (req : Request) (data : Bytes) (dataLen hasmore : ℤ) : Reply :=
  if !req.writesLength then ⟨-1, data, none, none⟩
  else if !req.writesHasmore then ⟨-1, data, some dataLen, none⟩
  else ⟨0, data, some dataLen, some hasmore⟩

/-- A read from `mutex_lock` on. -/
def readLocked (s : MemLog) (req : Request) (userBufLen : ℤ) : MemLog × Reply :=
  let r := readLoop userBufLen req.uncopied 0 s.list s.logSum 0 req.data
  (⟨r.list, r.logSum⟩,
    if r.failed then ⟨-1, r.data, none, none⟩ else writeResults req r.data r.dataLen r.hasmore)

/-- The two `copy_from_user` calls before a read. -/
def readParameter (s : MemLog) (req : Request) (read : ℤ → MemLog × Reply) : MemLog × Reply :=
  if !req.parameter then (s, ⟨-1, req.data, none, none⟩)
  else
    match req.userBufLen with
    | none => (s, ⟨-1, req.data, none, none⟩)
    | some userBufLen => read userBufLen

/-- `ioctl_tsb_read_inmem_log`, `none` while it waits. -/
def ioctlTsbReadInmemLog (s : MemLog) (req : Request) : Option (MemLog × Reply) :=
  if s.logSum > 0 then some (readParameter s req (readLocked s req))
  else if req.interrupted then some (s, ⟨-erestartsys, req.data, none, none⟩)
  else none

/-- `ioctl_tsb_read_inmem_log_nonblock`. -/
def ioctlTsbReadInmemLogNonblock (s : MemLog) (req : Request) : MemLog × Reply :=
  readParameter s req fun userBufLen =>
    if s.logSum ≤ 0 then (s, writeResults req req.data 0 0) else readLocked s req userBufLen

/-- What happens to the list. -/
inductive Act
  | write (stopped kzalloc : Bool) (m : LogMemory)
  | clear
  | read (req : Request)
  | readNonblock (req : Request)

def step (s : MemLog) : Act → Option MemLog
  | .write stopped kzalloc m => some (writeLogToMemory s stopped kzalloc m)
  | .clear => some (clearMemLog s)
  | .read req => (ioctlTsbReadInmemLog s req).map Prod.fst
  | .readNonblock req => some (ioctlTsbReadInmemLogNonblock s req).1

/-! ### The loop -/

/-- The bytes of records, one after the other. -/
def bytes (l : List LogMemory) : Bytes := (l.map Subtype.val).flatten

/-- The first `k` records are the most that fit a buffer. -/
structure Longest (userBufLen : ℤ) (l : List LogMemory) (k : ℕ) : Prop where
  fits : k = 0 ∨ ((bytes (l.take k)).length : ℤ) ≤ userBufLen
  longest : ∀ j, j ≤ l.length → ((bytes (l.take j)).length : ℤ) ≤ userBufLen → j ≤ k

section Reading

variable {l done : List LogMemory} {m : LogMemory} {userBufLen logSum : ℤ} {uncopied : ℕ → ℕ} {data : Bytes}

theorem bytes_append (a b : List LogMemory) : bytes (a ++ b) = bytes a ++ bytes b := by
  rw [bytes, List.map_append, List.flatten_append]
  rfl

theorem bytes_snoc (a : List LogMemory) (m : LogMemory) : bytes (a ++ [m]) = bytes a ++ m.1 := by
  rw [bytes_append]
  simp [bytes]

theorem length_bytes_le (l : List LogMemory) : (bytes l).length ≤ 4096 * l.length := by
  induction l with
  | nil => exact Nat.le_refl 0
  | cons m l ih =>
      have hm := m.2
      have hcons : (bytes (m :: l)).length = m.1.length + (bytes l).length := by simp [bytes]
      rw [hcons, List.length_cons]
      omega

/-- Where the loop stops before a record that does not fit, nothing longer fits. -/
theorem longest_of_stop {k : ℕ} (hfits : k = 0 ∨ ((bytes (l.take k)).length : ℤ) ≤ userBufLen)
    (hstop : l.length ≤ k ∨ userBufLen < (bytes (l.take (k + 1))).length) : Longest userBufLen l k := by
  refine ⟨hfits, fun j hj hle => ?_⟩
  rcases hstop with hend | hnext
  · exact hj.trans hend
  · by_contra hlt
    have hpre : l.take (k + 1) <+: l.take j := List.take_prefix_take_left (by omega)
    obtain ⟨t, ht⟩ := hpre
    have hlen : (bytes (l.take (k + 1))).length ≤ (bytes (l.take j)).length := by
      rw [← ht, bytes_append, List.length_append]
      exact Nat.le_add_right _ _
    omega

/-- A copy behind what has been delivered. -/
theorem patch_delivered (h : bytes done <+: data) (b : Bytes) :
    bytes done ++ b <+: patch data (bytes done).length b := by
  obtain ⟨rest, rfl⟩ := h
  have hpatch := patch_append_left (bytes done) rest b 0
  rw [Nat.add_zero, patch_zero] at hpatch
  rw [hpatch, ← List.append_assoc]
  exact List.prefix_append ..

/-- **The loop** takes records from the list as it delivers them: whole, in order, and up to the first
that does not fit or cannot be copied. -/
theorem readLoop_spec {k : ℕ} (hdata : bytes done <+: data)
    (hbound : (bytes (done ++ l)).length < 2 ^ 31)
    (hfits : done = [] ∨ ((bytes done).length : ℤ) ≤ userBufLen) :
    ∃ r, readLoop userBufLen uncopied k l logSum (bytes done).length data = r ∧ ∃ j, j ≤ l.length ∧
      r.list = l.drop j ∧ r.logSum = logSum - j ∧ bytes (done ++ l.take j) <+: r.data ∧
      (r.failed = false → r.dataLen = (bytes (done ++ l.take j)).length ∧
        (done ++ l.take j = [] ∨ ((bytes (done ++ l.take j)).length : ℤ) ≤ userBufLen) ∧
        (l.length ≤ j ∨ userBufLen < (bytes (done ++ l.take (j + 1))).length)) ∧
      ((∀ i, uncopied i = 0) → r.failed = false) := by
  induction l generalizing k done logSum data with
  | nil =>
      refine ⟨_, rfl, 0, Nat.le_refl 0, rfl, (sub_zero _).symm, ?_, fun _ => ⟨?_, ?_, .inl (Nat.le_refl 0)⟩,
        fun _ => rfl⟩
      · rwa [List.take_nil, List.append_nil]
      · rw [List.take_nil, List.append_nil]
        rfl
      · rwa [List.take_nil, List.append_nil]
  | cons m rest ih =>
      have hsplit : done ++ m :: rest = (done ++ [m]) ++ rest := by rw [List.append_assoc]; rfl
      have hlen : (bytes (done ++ [m])).length = (bytes done).length + m.1.length := by
        rw [bytes_snoc, List.length_append]
      have hint : int32 ((bytes done).length + m.1.length) = (bytes (done ++ [m])).length := by
        rw [hsplit, bytes_append, List.length_append] at hbound
        rw [hlen, Nat.cast_add]
        exact int32_eq (by omega) (by omega)
      have htake : done ++ (m :: rest).take 0 = done := List.append_nil done
      rw [readLoop, hint]
      split
      · rename_i hover
        refine ⟨_, rfl, 0, Nat.zero_le _, rfl, (sub_zero _).symm, by rwa [htake], fun _ => ⟨by rw [htake],
          by rwa [htake], .inr hover⟩, fun _ => rfl⟩
      · rename_i hroom
        split
        · rename_i hfault
          refine ⟨_, rfl, 0, Nat.zero_le _, rfl, (sub_zero _).symm, ?_, fun h => absurd h (by simp),
            fun hcopies => absurd ?_ hfault⟩
          · rw [htake, Int.toNat_natCast]
            exact (List.prefix_append _ _).trans (patch_delivered hdata _)
          · rw [hcopies, Nat.zero_min]
        · have hnext : bytes (done ++ [m]) <+: patch data (bytes done).length m.1 := by
            rw [bytes_snoc]
            exact patch_delivered hdata m.1
          obtain ⟨r, hr, j, hj, hlist, hsum, hdeliv, hdone, hcopies⟩ :=
            @ih (done ++ [m]) (logSum - 1) _ (k + 1) hnext (by rwa [← hsplit]) (.inr (not_lt.mp hroom))
          have hcons : ∀ i, done ++ (m :: rest).take (i + 1) = (done ++ [m]) ++ rest.take i := by
            intro i
            rw [List.take_succ_cons, List.append_assoc]
            rfl
          refine ⟨r, by rwa [Int.toNat_natCast], j + 1, Nat.succ_le_succ hj, hlist, ?_, ?_, fun hok => ?_,
            hcopies⟩
          · rw [hsum, Nat.cast_succ]
            omega
          · rwa [hcons]
          · obtain ⟨hdataLen, hfit, hstop⟩ := hdone hok
            rw [hcons, hcons]
            exact ⟨hdataLen, hfit, hstop.imp_left Nat.succ_le_succ⟩

end Reading

/-! ### The list over runs -/

/-- `log_sum` counts the list, which has at most 10000 records. -/
structure Wf (s : MemLog) : Prop where
  sum : s.logSum = s.list.length
  bounded : s.list.length ≤ maxMemoryLogs

/-- Every copy between the kernel and the user succeeds. -/
structure NoFault (req : Request) : Prop where
  interrupted : req.interrupted = false
  parameter : req.parameter = true
  userBufLen : req.userBufLen.isSome = true
  copies : ∀ k, req.uncopied k = 0
  results : req.writesLength = true ∧ req.writesHasmore = true

/-- What a read does: the first `k` records are whole and in order in the user's buffer, and exactly
they are taken from the list; where the read returns `0`, they are the most that fit, and their length
is returned. -/
structure Reads (s s' : MemLog) (req : Request) (r : Reply) (k : ℕ) : Prop where
  removed : s'.list = s.list.drop k
  delivered : bytes (s.list.take k) <+: r.data
  sum : s'.logSum = s'.list.length
  returned : r.ret = 0 → r.length = some ((bytes (s.list.take k)).length : ℤ) ∧
    ∃ userBufLen, req.userBufLen = some userBufLen ∧ Longest userBufLen s.list k
  succeeds : NoFault req → r.ret = 0

section Runs

variable {s s' : MemLog} {req : Request} {r : Reply} {userBufLen : ℤ} {k : ℕ}

theorem Wf.removed (h : Wf s) (hk : k ≤ s.list.length) (hlist : s'.list = s.list.drop k)
    (hsum : s'.logSum = s.logSum - k) : Wf s' := by
  have hlen : s'.list.length = s.list.length - k := by rw [hlist, List.length_drop]
  have h₁ := h.sum
  have h₂ := h.bounded
  exact ⟨by omega, by omega⟩

theorem Wf.write (h : Wf s) (stopped kzalloc : Bool) (m : LogMemory) :
    Wf (writeLogToMemory s stopped kzalloc m) := by
  have h₁ := h.sum
  have h₂ := h.bounded
  simp only [maxMemoryLogs] at h₂
  rw [writeLogToMemory]
  split
  · exact h
  · split
    · exact h
    · split
      · rename_i hfull
        simp only [maxMemoryLogs] at hfull
        constructor <;> simp [maxMemoryLogs] <;> omega
      · rename_i hfull
        simp only [maxMemoryLogs] at hfull
        constructor <;> simp [maxMemoryLogs] <;> omega

theorem Wf.clear (h : Wf s) : Wf (clearMemLog s) := by
  constructor
  · simp [clearMemLog, h.sum]
  · exact Nat.zero_le _

/-- A call that does not come to its loop. -/
theorem Wf.reads_nothing (h : Wf s) (hret : r.ret = 0 → r.length = some 0 ∧
      ∃ userBufLen, req.userBufLen = some userBufLen ∧ Longest userBufLen s.list 0)
    (hok : NoFault req → r.ret = 0) : Reads s s req r 0 where
  removed := rfl
  delivered := List.nil_prefix
  sum := h.sum
  returned := hret
  succeeds := hok

theorem writeResults_ret (data : Bytes) (dataLen hasmore : ℤ) :
    (writeResults req data dataLen hasmore).data = data ∧
      ((writeResults req data dataLen hasmore).ret = 0 →
        (writeResults req data dataLen hasmore).length = some dataLen) ∧
      (NoFault req → (writeResults req data dataLen hasmore).ret = 0) := by
  refine ⟨?_, ?_, fun h => ?_⟩
  · rw [writeResults]
    split
    · rfl
    · split <;> rfl
  · rw [writeResults]
    split
    · exact fun h => absurd h (show (-1 : ℤ) ≠ 0 by decide)
    · split
      · exact fun h => absurd h (show (-1 : ℤ) ≠ 0 by decide)
      · exact fun _ => rfl
  · rw [writeResults, h.results.1, h.results.2]
    rfl

/-- **A read under the lock.** -/
theorem Wf.readLocked (h : Wf s) (hn : req.userBufLen = some userBufLen) :
    ∃ k, k ≤ s.list.length ∧ (AuditLog.readLocked s req userBufLen).1.logSum = s.logSum - k ∧
      Reads s (AuditLog.readLocked s req userBufLen).1 req (AuditLog.readLocked s req userBufLen).2 k := by
  have hbound : (bytes ([] ++ s.list)).length < 2 ^ 31 := by
    have hlen := length_bytes_le s.list
    have hmax := h.bounded
    simp only [maxMemoryLogs] at hmax
    rw [List.nil_append]
    omega
  obtain ⟨r, hr, k, hk, hlist, hsum, hdeliv, hdone, hcopies⟩ :=
    @readLoop_spec s.list [] userBufLen s.logSum req.uncopied req.data 0 List.nil_prefix hbound (.inl rfl)
  have hloop : AuditLog.readLocked s req userBufLen = (⟨r.list, r.logSum⟩,
      if r.failed then ⟨-1, r.data, none, none⟩ else writeResults req r.data r.dataLen r.hasmore) := by
    rw [← hr]
    rfl
  obtain ⟨hdata, hlength, hok⟩ := @writeResults_ret req r.data r.dataLen r.hasmore
  rw [hloop]
  refine ⟨k, hk, hsum, hlist, ?_, (h.removed hk hlist hsum).sum, fun hret => ?_, fun hfree => ?_⟩
  · cases hfailed : r.failed with
    | true => exact hdeliv
    | false =>
        change bytes (s.list.take k) <+: (writeResults req r.data r.dataLen r.hasmore).data
        rw [hdata]
        exact hdeliv
  · cases hfailed : r.failed with
    | true =>
        rw [hfailed] at hret
        exact absurd hret (show (-1 : ℤ) ≠ 0 by decide)
    | false =>
        rw [hfailed] at hret
        obtain ⟨hdataLen, hfits, hstop⟩ := hdone hfailed
        refine ⟨(hlength hret).trans (congrArg some hdataLen), userBufLen, hn, longest_of_stop ?_ hstop⟩
        refine hfits.imp_left fun hnil => ?_
        rw [List.nil_append, List.take_eq_nil_iff] at hnil
        rcases hnil with hzero | hempty
        · exact hzero
        · rw [hempty] at hk
          exact Nat.le_zero.mp hk
  · rw [hcopies hfree.copies]
    exact hok hfree

/-- **A read before the lock:** the copies of the parameter. -/
theorem Wf.readParameter (h : Wf s) {read : ℤ → MemLog × Reply}
    (hread : ∀ userBufLen, req.userBufLen = some userBufLen → ∃ k, k ≤ s.list.length ∧
      (read userBufLen).1.logSum = s.logSum - k ∧ Reads s (read userBufLen).1 req (read userBufLen).2 k) :
    ∃ k, k ≤ s.list.length ∧ (AuditLog.readParameter s req read).1.logSum = s.logSum - k ∧
      Reads s (AuditLog.readParameter s req read).1 req (AuditLog.readParameter s req read).2 k := by
  have hfail : ¬ NoFault req → ∃ k, k ≤ s.list.length ∧ s.logSum = s.logSum - (k : ℕ) ∧
      Reads s s req ⟨-1, req.data, none, none⟩ k := fun hfault =>
    ⟨0, Nat.zero_le _, (sub_zero _).symm,
      h.reads_nothing (fun hret => absurd hret (show (-1 : ℤ) ≠ 0 by decide)) fun hfree => absurd hfree hfault⟩
  rw [AuditLog.readParameter]
  split
  · rename_i hparam
    refine hfail fun hfree => ?_
    rw [hfree.parameter] at hparam
    exact absurd hparam (by decide)
  · split
    · rename_i hlen
      refine hfail fun hfree => ?_
      have hsome := hfree.userBufLen
      rw [hlen] at hsome
      exact absurd hsome (by decide)
    · rename_i n hlen
      exact hread n hlen

theorem Wf.ioctlTsbReadInmemLog (h : Wf s) (hcall : AuditLog.ioctlTsbReadInmemLog s req = some (s', r)) :
    ∃ k, k ≤ s.list.length ∧ s'.logSum = s.logSum - k ∧ Reads s s' req r k := by
  rw [AuditLog.ioctlTsbReadInmemLog] at hcall
  split at hcall
  · have hread := @Wf.readParameter s req h (AuditLog.readLocked s req) fun _ hn => h.readLocked hn
    rwa [Option.some.inj hcall] at hread
  · split at hcall
    · rename_i hsignal
      cases hcall
      have hret : -erestartsys ≠ 0 := by decide
      refine ⟨0, Nat.zero_le _, (sub_zero _).symm, h.reads_nothing (fun h => absurd h hret) ?_⟩
      intro hfree
      rw [hfree.interrupted] at hsignal
      exact absurd hsignal (by decide)
    · cases hcall

theorem Wf.ioctlTsbReadInmemLogNonblock (h : Wf s) :
    ∃ k, k ≤ s.list.length ∧ (AuditLog.ioctlTsbReadInmemLogNonblock s req).1.logSum = s.logSum - k ∧
      Reads s (AuditLog.ioctlTsbReadInmemLogNonblock s req).1 req
        (AuditLog.ioctlTsbReadInmemLogNonblock s req).2 k := by
  refine h.readParameter fun userBufLen hn => ?_
  by_cases hsum : s.logSum ≤ 0
  · rw [if_pos hsum]
    have hempty : s.list = [] := by
      have hcount := h.sum
      rw [← List.length_eq_zero_iff]
      omega
    obtain ⟨-, hlength, hok⟩ := @writeResults_ret req req.data 0 0
    refine ⟨0, Nat.zero_le _, (sub_zero _).symm,
      h.reads_nothing (fun hret => ⟨hlength hret, userBufLen, hn, ?_⟩) hok⟩
    rw [hempty]
    exact ⟨.inl rfl, fun j hj _ => hj⟩
  · rw [if_neg hsum]
    exact h.readLocked hn

theorem Wf.step (h : Wf s) {a : Act} (hs : step s a = some s') : Wf s' := by
  cases a with
  | write stopped kzalloc m =>
      cases hs
      exact h.write stopped kzalloc m
  | clear =>
      cases hs
      exact h.clear
  | read req =>
      obtain ⟨⟨s₁, r⟩, hcall, rfl⟩ := Option.map_eq_some_iff.mp hs
      obtain ⟨k, hk, hsum, hread⟩ := h.ioctlTsbReadInmemLog hcall
      exact h.removed hk hread.removed hsum
  | readNonblock req =>
      cases hs
      obtain ⟨k, hk, hsum, hread⟩ := @Wf.ioctlTsbReadInmemLogNonblock s req h
      exact h.removed hk hread.removed hsum

theorem Wf.run {as : List Act} (hrun : Run.run AuditLog.step MemLog.init as = some s) : Wf s :=
  run_preserves (fun _ _ _ h hs => h.step hs) ⟨rfl, Nat.zero_le _⟩ hrun

/-- **Reading the log loses nothing:** in every state of the list, a read by either ioctl takes from it
exactly the records that are whole in the user's buffer, whether or not a copy fails; it returns the most
that fit, and `log_sum` is the length of the list. -/
theorem read_inmem_log_exact {as : List Act} (hrun : Run.run AuditLog.step MemLog.init as = some s)
    (hcall : AuditLog.ioctlTsbReadInmemLog s req = some (s', r) ∨
      AuditLog.ioctlTsbReadInmemLogNonblock s req = (s', r)) : ∃ k, k ≤ s.list.length ∧ Reads s s' req r k := by
  have h := Wf.run hrun
  rcases hcall with hcall | hcall
  · obtain ⟨k, hk, -, hread⟩ := h.ioctlTsbReadInmemLog hcall
    exact ⟨k, hk, hread⟩
  · obtain ⟨k, hk, -, hread⟩ := @Wf.ioctlTsbReadInmemLogNonblock s req h
    rw [hcall] at hread
    exact ⟨k, hk, hread⟩

end Runs

/-- Two records of two bytes; the second cannot be copied. -/
def faultRequest : Request := ⟨false, true, some 4, [0, 0, 0, 0], fun k => k, true, true⟩

/-- The first record is in the buffer and the second still in the list. -/
theorem read_inmem_log_fault : ∃ s s' r k,
    run step MemLog.init [.write false true ⟨[1, 2], by decide⟩, .write false true ⟨[3, 4], by decide⟩] =
        some s ∧
      ioctlTsbReadInmemLog s faultRequest = some (s', r) ∧ r.ret = -1 ∧ s'.logSum = 1 ∧
      r.data = [1, 2, 3, 0] ∧ Reads s s' faultRequest r k := by
  obtain ⟨k, -, hreads⟩ := @read_inmem_log_exact _ _ faultRequest _
    [.write false true ⟨[1, 2], by decide⟩, .write false true ⟨[3, 4], by decide⟩] rfl (.inl rfl)
  exact ⟨_, _, _, k, rfl, rfl, rfl, rfl, rfl, hreads⟩

end AuditLog
end TsbAgent
