/-
# Policy files

A policy file is the size, the number of items and the policy, the two numbers as `int`
in host order.  User space (`tcsu/tcs_util_policy_update.c`) and the kernel
(`tcsk/tcs_policy_mgmt.c`) each have a `tcs_util_write_policy` and a
`tcs_util_read_policy` for it:

| | writing | reading |
| --- | --- | --- |
| user space | a new file, renamed over the old one | nothing above 100 MiB |
| kernel | over the old file, **without `O_TRUNC`** | no policy of size 0 (`vmalloc(0)`) |

Both readers take the size of the file for the size of the policy, so a kernel write over
a longer file leaves a file that nobody can read (`policy_reads_back_iff`).
-/

import TsbAgent.Lib.Run
import TsbAgent.Lib.Word
import TsbAgent.Tcs.Basic
import TsbAgent.Httcutils.File

namespace TsbAgent
namespace Tcs

open Libc Word File Httcutils

/-- A policy as it is given to `tcs_util_write_policy`: its size is an `int`. -/
structure Policy where
  bytes : Bytes
  num : UInt32
  small : bytes.length < 2 ^ 31

/-- The file that holds a policy. -/
def Policy.encoded (p : Policy) : Bytes :=
  hostBytes 4 p.bytes.length ++ hostBytes 4 p.num.toNat ++ p.bytes

/-- What the readers return. -/
structure ReadPolicy where
  policy : Bytes
  size : ℕ
  num : ℕ
deriving DecidableEq

/-- The policy as a reader returns it. -/
def Policy.read (p : Policy) : ReadPolicy := ⟨p.bytes, p.bytes.length, p.num.toNat⟩

/-! ### Writing -/

/-- What the system grants a writer in user space. -/
structure UserWrite where
  malloc : Bool
  tmp : Stream
  sem : Option TssErr
  rename : Bool

/-- What the system grants a writer in the kernel. -/
structure KernelWrite where
  opens : Bool
  room : ℕ

/-- `tcs_util_write_policy` in user space, with the file of the path before and after. -/
def tcsUtilWritePolicyUser (io : UserWrite) (file : Option Bytes) (p : Policy) :
    Except TssErr Unit × Option Bytes :=
  if ¬ io.malloc then (.error .nomem, file)
  else if ¬ io.tmp.opens then (.error .file, file)
  else if io.tmp.room < 4 then (.error .write, file)
  else if io.tmp.room < 4 + 4 then (.error .write, file)
  else if p.bytes.length ≠ 0 ∧ io.tmp.room < 4 + 4 + p.bytes.length then (.error .write, file)
  else
    match io.sem with
    | some e => (.error e, file)
    | none => if ¬ io.rename then (.error .file, file) else (.ok (), some (io.tmp.kept p.encoded))

/-- `tcs_util_write_policy` in the kernel: the old bytes beyond the new ones stay. -/
def tcsUtilWritePolicyKernel (io : KernelWrite) (file : Option Bytes) (p : Policy) :
    Except TssErr Unit × Option Bytes :=
  if ¬ io.opens then (.error .file, file)
  else
    let old := file.getD []
    if io.room < p.encoded.length then (.error .write, some (patch old 0 (p.encoded.take io.room)))
    else (.ok (), some (patch old 0 p.encoded))

/-! ### Reading -/

/-- An `int` in 64 bits. -/
def signExtend (n : ℕ) : ℕ := if n < 2 ^ 31 then n else n + (2 ^ 64 - 2 ^ 32)

/-- What both readers do with the bytes: `heap` follows them in memory, and `alloc` says
whether there is room for a policy of a size. -/
def policyOf (data heap : Bytes) (alloc : ℕ → Bool) : Except TssErr ReadPolicy :=
  let size := ofHost ((data ++ heap).take 4)
  let num := ofHost (((data ++ heap).drop 4).take 4)
  if signExtend size ≠ (data.length + (2 ^ 64 - 8)) % 2 ^ 64 then .error .badData
  else if ¬ alloc size then .error .nomem
  else .ok ⟨data.drop 8, size, num⟩

/-- What the system grants a reader in user space. -/
structure UserRead where
  sem : Option TssErr
  file : ReadIo
  malloc : Bool
  heap : Bytes

/-- What the system grants a reader in the kernel. -/
structure KernelRead where
  opens : Bool
  kmalloc : Bool
  reads : Bool
  vmalloc : Bool
  heap : Bytes

/-- `tcs_util_read_policy` in user space.  No size that is negative as an `int` can be
allocated. -/
def tcsUtilReadPolicyUser (io : UserRead) (file : Option Bytes) : Except TssErr ReadPolicy :=
  match io.sem with
  | some e => .error e
  | none =>
      if file = none then .ok ⟨[], 0, 0⟩
      else
        match httcUtilFileReadFull io.file file with
        | none => .error .read
        | some data => policyOf data io.heap fun n => n < 2 ^ 31 && io.malloc

/-- `tcs_util_read_policy` in the kernel: the size of the file is an `unsigned int`, and
`vmalloc` gives nothing for no bytes. -/
def tcsUtilReadPolicyKernel (io : KernelRead) (file : Option Bytes) : Except TssErr ReadPolicy :=
  match file with
  | none => .ok ⟨[], 0, 0⟩
  | some f =>
      let fsize := f.length % 2 ^ 32
      if ¬ io.opens then .error .file
      else if fsize = 0 then .ok ⟨[], 0, 0⟩
      else if ¬ io.kmalloc then .error .nomem
      else if ¬ io.reads then .error .read
      else policyOf (f.take fsize) io.heap fun n => n < 2 ^ 31 && n ≠ 0 && io.vmalloc

/-! ### Histories -/

/-- One call of either writer. -/
inductive Write
  | user (io : UserWrite) (p : Policy)
  | kernel (io : KernelWrite) (p : Policy)

/-- The policy that was written. -/
def Write.policy : Write → Policy
  | user _ p => p
  | kernel _ p => p

def Write.apply (file : Option Bytes) : Write → Except TssErr Unit × Option Bytes
  | user io p => tcsUtilWritePolicyUser io file p
  | kernel io p => tcsUtilWritePolicyKernel io file p

/-- A call that returns success. -/
def writeStep (file : Option Bytes) (w : Write) : Option (Option Bytes) :=
  match w.apply file with
  | (.ok (), file') => some file'
  | (.error _, _) => none

/-- A call of either reader. -/
inductive Reader
  | user (io : UserRead)
  | kernel (io : KernelRead)

def Reader.apply (file : Option Bytes) : Reader → Except TssErr ReadPolicy
  | user io => tcsUtilReadPolicyUser io file
  | kernel io => tcsUtilReadPolicyKernel io file

/-- The length of the file after a history of writes that all succeed: a user's write
makes a new file, a kernel's write never makes a file shorter. -/
def lengthAfter : ℕ → List Write → ℕ
  | n, [] => n
  | _, .user io p :: ws => lengthAfter (8 + p.bytes.length - io.tmp.lost) ws
  | n, .kernel _ p :: ws => lengthAfter (max n (8 + p.bytes.length)) ws

/-- **A file of `n` bytes that starts with the policy is read back.**  The length must be
that of the policy.  User space reads at most 100 MiB; the kernel counts the length in 32
bits and has no policy without bytes, except for the one without bytes and items when the
length counts as zero. -/
def ReadsBack (p : Policy) (n : ℕ) : Reader → Prop
  | .user io => n = 8 + p.bytes.length ∧ n ≤ maxFileSize ∧
      io.sem = none ∧ io.file.Granted ∧ io.malloc = true
  | .kernel io => io.opens = true ∧
      ((n % 2 ^ 32 = 8 + p.bytes.length ∧ p.bytes.length ≠ 0 ∧
          io.kmalloc = true ∧ io.reads = true ∧ io.vmalloc = true) ∨
        (n % 2 ^ 32 = 0 ∧ p.bytes.length = 0 ∧ p.num = 0))

section Format

variable {p : Policy} {d tail heap : Bytes} {alloc : ℕ → Bool}

@[simp] theorem Policy.length_encoded (p : Policy) :
    p.encoded.length = 8 + p.bytes.length := by
  rw [Policy.encoded, List.length_append, List.length_append, length_hostBytes, length_hostBytes]

/-- The fields of a policy that is there as a whole. -/
theorem policyOf_encoded : policyOf p.encoded heap alloc =
    if alloc p.bytes.length then .ok p.read else .error .nomem := by
  have hsize : (p.encoded ++ heap).take 4 = hostBytes 4 p.bytes.length := by
    simp [Policy.encoded]
  have hnum : ((p.encoded ++ heap).drop 4).take 4 = hostBytes 4 p.num.toNat := by
    simp [Policy.encoded]
  have hdata : p.encoded.drop 8 = p.bytes := List.drop_left' (by simp)
  have hlt : p.bytes.length < 256 ^ 4 := lt_trans p.small (by decide)
  have hnlt : p.num.toNat < 256 ^ 4 := p.num.toNat_lt
  have hlen : signExtend p.bytes.length = (p.encoded.length + (2 ^ 64 - 8)) % 2 ^ 64 := by
    have hs := p.small
    rw [Policy.length_encoded, signExtend, if_pos hs]
    omega
  unfold policyOf
  simp only [hsize, hnum, hdata, ofHost_hostBytes_of_lt hlt, ofHost_hostBytes_of_lt hnlt, hlen,
    ne_eq, not_true_eq_false, if_false]
  cases alloc p.bytes.length with
  | true => rw [if_neg (by simp), if_pos rfl]; rfl
  | false => rfl

/-- A reader takes the length of its data for the size of the policy. -/
theorem length_of_policyOf {q : ReadPolicy} (halloc : ∀ n, alloc n = true → n < 2 ^ 31)
    (hd : d.length < 2 ^ 63) (h : policyOf d heap alloc = .ok q) :
    d.length = 8 + q.size ∧ alloc q.size = true := by
  unfold policyOf at h
  simp only at h
  split_ifs at h with hbad hnomem
  obtain rfl := Except.ok.inj h
  have hsmall := halloc _ hnomem
  rw [signExtend, if_pos hsmall] at hbad
  refine ⟨?_, hnomem⟩
  change d.length = 8 + ofHost ((d ++ heap).take 4)
  omega

/-- The data that starts a policy file gives the policy exactly when it is all of it. -/
theorem policyOf_take_eq_iff {n : ℕ} (halloc : ∀ n, alloc n = true → n < 2 ^ 31)
    (hd : ((p.encoded ++ tail).take n).length = n) (hn : n < 2 ^ 63) :
    policyOf ((p.encoded ++ tail).take n) heap alloc = .ok p.read ↔
      n = 8 + p.bytes.length ∧ alloc p.bytes.length = true := by
  constructor
  · intro h
    have hlen := length_of_policyOf halloc (by rwa [hd]) h
    rwa [hd] at hlen
  · rintro ⟨rfl, ha⟩
    rw [← Policy.length_encoded, List.take_left, policyOf_encoded, if_pos ha]

end Format

section Histories

variable {file file' : Option Bytes} {w : Write} {ws : List Write}

theorem writeStep_eq_some : writeStep file w = some file' ↔ w.apply file = (.ok (), file') := by
  unfold writeStep
  rcases w.apply file with ⟨_ | _, f⟩ <;> simp

/-- What a user's write leaves, all checks passed. -/
theorem writeStep_user {io : UserWrite} {p : Policy}
    (h : writeStep file (.user io p) = some file') : file' = some (io.tmp.kept p.encoded) := by
  rw [writeStep_eq_some] at h
  simp only [Write.apply, tcsUtilWritePolicyUser] at h
  cases hsem : io.sem with
  | some e => split_ifs at h <;> simp [hsem] at h
  | none =>
      split_ifs at h <;> simp only [hsem, Prod.mk.injEq, reduceCtorEq, false_and] at h
      exact h.2.symm

theorem writeStep_kernel {io : KernelWrite} {p : Policy}
    (h : writeStep file (.kernel io p) = some file') :
    file' = some (patch (file.getD []) 0 p.encoded) := by
  rw [writeStep_eq_some] at h
  simp only [Write.apply, tcsUtilWritePolicyKernel] at h
  split_ifs at h <;> simp only [Prod.mk.injEq, reduceCtorEq, false_and] at h
  exact h.2.symm

theorem size_writeStep (h : writeStep file w = some file') :
    File.size file' = lengthAfter (File.size file) [w] := by
  cases w with
  | user io p =>
      rw [writeStep_user h, File.size, Option.getD_some, Stream.length_kept, Policy.length_encoded]
      rfl
  | kernel io p =>
      rw [writeStep_kernel h, File.size, Option.getD_some, length_patch, Policy.length_encoded,
        Nat.zero_add]
      rfl

theorem lengthAfter_append {n : ℕ} {vs : List Write} :
    lengthAfter n (vs ++ ws) = lengthAfter (lengthAfter n vs) ws := by
  induction vs generalizing n with
  | nil => rfl
  | cons v vs ih => cases v <;> exact ih

/-- **The length of the file along a history.** -/
theorem size_run (h : Run.run writeStep file ws = some file') :
    File.size file' = lengthAfter (File.size file) ws := by
  induction ws generalizing file with
  | nil =>
      obtain rfl := Option.some.inj h
      rfl
  | cons w ws ih =>
      obtain ⟨file₁, h₁, h₂⟩ := Option.bind_eq_some_iff.mp h
      rw [ih h₂, size_writeStep h₁, ← lengthAfter_append]
      rfl

/-- After a write the file starts with its policy, as far as the file goes. -/
theorem starts_writeStep (h : writeStep file w = some file') :
    ∃ f tail, file' = some f ∧ f = (w.policy.encoded ++ tail).take f.length := by
  cases w with
  | user io p =>
      refine ⟨_, [], writeStep_user h, ?_⟩
      rw [List.append_nil, Stream.length_kept]
      rfl
  | kernel io p =>
      refine ⟨_, (file.getD []).drop p.encoded.length, writeStep_kernel h, ?_⟩
      rw [patch_zero]
      exact List.take_length.symm

end Histories

section Readers

variable {p : Policy} {f tail : Bytes} {n : ℕ}

theorem tcsUtilReadPolicyUser_eq_iff {io : UserRead} (hf : f = (p.encoded ++ tail).take n)
    (hn : f.length = n) : tcsUtilReadPolicyUser io (some f) = .ok p.read ↔
      ReadsBack p n (.user io) := by
  simp only [tcsUtilReadPolicyUser, ReadsBack]
  cases hsem : io.sem with
  | some e => simp
  | none =>
      simp only [reduceCtorEq, if_false, true_and]
      cases hfull : httcUtilFileReadFull io.file (some f) with
      | none =>
          refine iff_of_false nofun ?_
          rintro ⟨hlen, hmax, hg, -⟩
          have hne : f ≠ [] := by
            rintro rfl
            rw [List.length_nil] at hn
            omega
          rw [httcUtilFileReadFull_eq_some.mpr ⟨hg, by rwa [hn], hne, rfl⟩] at hfull
          exact Option.some_ne_none _ hfull
      | some data =>
          obtain ⟨hg, hmax, -, rfl⟩ := httcUtilFileReadFull_eq_some.mp hfull
          rw [hn] at hmax
          have hlt : n < 2 ^ 63 := lt_of_le_of_lt hmax (by decide)
          have hsmall : decide (p.bytes.length < 2 ^ 31) = true := decide_eq_true p.small
          rw [hf] at hn
          rw [hf, policyOf_take_eq_iff (by simp +contextual) hn hlt, hsmall, Bool.true_and]
          simp only [hmax, hg, true_and]

theorem tcsUtilReadPolicyKernel_eq_iff {io : KernelRead} (hf : f = (p.encoded ++ tail).take n)
    (hn : f.length = n) : tcsUtilReadPolicyKernel io (some f) = .ok p.read ↔
      ReadsBack p n (.kernel io) := by
  simp only [tcsUtilReadPolicyKernel, ReadsBack, hn]
  cases io.opens with
  | false => simp
  | true =>
      have hlt : n % 2 ^ 32 < 2 ^ 63 := by omega
      have hsmall : decide (p.bytes.length < 2 ^ 31) = true := decide_eq_true p.small
      have htake : f.take (n % 2 ^ 32) = (p.encoded ++ tail).take (n % 2 ^ 32) := by
        rw [hf, List.take_take, Nat.min_eq_left (Nat.mod_le _ _)]
      have hlen : ((p.encoded ++ tail).take (n % 2 ^ 32)).length = n % 2 ^ 32 := by
        rw [← htake, List.length_take, hn, Nat.min_eq_left (Nat.mod_le _ _)]
      have hnum : p.num.toNat = 0 ↔ p.num = 0 := by rw [← UInt32.toNat_inj]; rfl
      rw [if_neg (by simp), htake, and_iff_right rfl]
      by_cases h0 : n % 2 ^ 32 = 0
      · rw [if_pos h0, h0]
        simp only [Policy.read, Except.ok.injEq, ReadPolicy.mk.injEq]
        simp only [List.nil_eq, ← List.length_eq_zero_iff, eq_comm (a := 0), hnum]
        exact ⟨fun h => .inr ⟨trivial, h.2⟩, fun h => h.elim (fun h => by omega) fun h => ⟨h.2.1, h.2⟩⟩
      · rw [if_neg h0, or_iff_left (fun h => h0 h.1)]
        cases io.kmalloc with
        | false => simp
        | true =>
            cases io.reads with
            | false => simp
            | true =>
                rw [if_neg (by simp), if_neg (by simp),
                  policyOf_take_eq_iff (by simp +contextual) hlen hlt, hsmall]
                simp

end Readers

/-- **A policy file gives back the last policy written exactly when its length is that of
the policy** and the reader can take it. -/
theorem policy_reads_back_iff {init file : Option Bytes} {ws : List Write} {w : Write}
    (h : Run.run writeStep init (ws ++ [w]) = some file) (r : Reader) :
    r.apply file = .ok w.policy.read ↔
      ReadsBack w.policy (lengthAfter (File.size init) (ws ++ [w])) r := by
  have hsize := size_run h
  rw [Run.run_append] at h
  obtain ⟨file₁, -, h₂⟩ := Option.bind_eq_some_iff.mp h
  rw [Run.run_cons] at h₂
  obtain ⟨file₂, hstep, hnil⟩ := Option.bind_eq_some_iff.mp h₂
  obtain rfl := Option.some.inj hnil
  obtain ⟨f, tail, rfl, hf⟩ := starts_writeStep hstep
  rw [← hsize]
  cases r with
  | user io => exact tcsUtilReadPolicyUser_eq_iff hf rfl
  | kernel io => exact tcsUtilReadPolicyKernel_eq_iff hf rfl

/-- A policy of `n` bytes and one item. -/
def onesPolicy (n : ℕ) (h : n < 2 ^ 31) : Policy where
  bytes := List.replicate n 1
  num := 1
  small := by rwa [List.length_replicate]

/-- A kernel write that gets all it asks for. -/
def Write.byKernel (p : Policy) : Write := .kernel ⟨true, 2 ^ 32⟩ p

/-- A reader in user space that gets all it asks for. -/
def Reader.userGranted : Reader := .user ⟨none, ⟨true, true, true⟩, true, []⟩

/-- A reader in the kernel that gets all it asks for. -/
def Reader.kernelGranted : Reader := .kernel ⟨true, true, true, true, []⟩

/-- The longer policy after the shorter one is read back. -/
theorem policy_longer_reads_back :
    ∃ file, Run.run writeStep none
        ([Write.byKernel (onesPolicy 2 (by decide))] ++ [Write.byKernel (onesPolicy 3 (by decide))]) =
        some file ∧
      Reader.userGranted.apply file = .ok (onesPolicy 3 (by decide)).read :=
  ⟨_, rfl, (@policy_reads_back_iff none _ [Write.byKernel (onesPolicy 2 (by decide))]
    (Write.byKernel (onesPolicy 3 (by decide))) rfl _).mpr
      ⟨rfl, by decide, rfl, ⟨rfl, rfl, rfl⟩, rfl⟩⟩

/-- **The shorter policy after the longer one is not:** the last byte of the longer one is
still there, and both readers refuse the file. -/
theorem policy_shorter_does_not_read_back :
    ∃ file, Run.run writeStep none
        ([Write.byKernel (onesPolicy 3 (by decide))] ++ [Write.byKernel (onesPolicy 2 (by decide))]) =
        some file ∧
      Reader.userGranted.apply file = .error .badData ∧
      Reader.kernelGranted.apply file = .error .badData ∧
      ¬ ∀ r : Reader, r.apply file = .ok (onesPolicy 2 (by decide)).read :=
  ⟨_, rfl, by decide, by decide, fun h => absurd (h Reader.userGranted) (by decide)⟩

end Tcs
end TsbAgent
