/-
# The versions of the policies

`tcs_util_write_policy_version` of `tss-main/tcs/tcsapi/tcsu/tcs_util_policy_update.c` changes the
versions of one policy in the file of all versions.  It takes the semaphore twice:

| step | semaphore | what happens |
| --- | --- | --- |
| `read` | held | `tcs_util_read_policy` reads the whole table |
| `tmp` | free | the entries of the policy are changed, `tcs_util_write_policy` writes the table to `path.usec` |
| `rename` | held | the new file is renamed over the table |

A table that another process renames between the two sections is overwritten with what was read
before it, so that process loses its update, and both calls return `0`
(`interleaved_versions_lost`).  The file `path.usec` is named after the time in microseconds, and
a second call of the same microsecond writes over it.

`versions_kept` says what holds of the other runs, for any number of processes and calls: when no
other call renames its table between the two sections of a call, and no two calls use one name, the
file has the newest version of every policy that a successful call wrote, and nothing else has
changed.
-/

import TsbAgent.Tcs.PolicyFile
import Mathlib.Logic.Function.Basic

namespace TsbAgent
namespace Tcs

open Libc Word File Httcutils Run

/-- `struct policy_version`, 12 bytes. -/
structure VersionEntry where
  policy : UInt32
  version : UInt64
deriving DecidableEq

/-- `be_policy`, then `be_version`. -/
def VersionEntry.encoded (e : VersionEntry) : Bytes :=
  netBytes 4 e.policy.toNat ++ netBytes 8 e.version.toNat

/-! ### The loop over the entries -/

/-- The table after the loop over `n` entries. -/
def setVersions (id : UInt32) (version : UInt64) : ℕ → Bytes → Bytes
  | 0, b => b
  | n + 1, b =>
      (if netAt b 0 4 = id.toNat then b.take 4 ++ netBytes 8 version.toNat else b.take 12) ++
        setVersions id version n (b.drop 12)

/-- `flag` after the loop. -/
def findsPolicy (id : UInt32) : ℕ → Bytes → Bool
  | 0, _ => false
  | n + 1, b => decide (netAt b 0 4 = id.toNat) || findsPolicy id n (b.drop 12)

/-- How often the loop runs: `policy_num` is an `int`. -/
def ReadPolicy.loops (q : ReadPolicy) : ℕ := if q.num < 2 ^ 31 then q.num else 0

/-- What is written to the new file. -/
def ReadPolicy.image (q : ReadPolicy) (id : UInt32) (version : UInt64) : Bytes :=
  hostBytes 4 q.size ++ hostBytes 4 q.num ++ (setVersions id version q.loops q.policy).take q.size

/-! ### Calls of several processes -/

/-- Where a process is in its call.  `seen` counts the renames that the table it read had come
from. -/
inductive VersionPhase
  | idle
  | read (id : UInt32) (version : UInt64) (table : ReadPolicy) (seen : ℕ)
  | written (id : UInt32) (version : UInt64) (usec seen : ℕ)
  | returned (r : Option TssErr)

/-- The version file, the files `path.usec`, and the processes.  `renames` and `done` are not in the
source: how often the file was replaced, and what the calls that returned `0` have written. -/
structure Versions (P : Type*) where
  file : Option Bytes
  tmp : ℕ → Option Bytes
  phase : P → VersionPhase
  renames : ℕ
  done : List VersionEntry

/-- The steps of a process, each with what the system grants. -/
inductive VersionStep (P : Type*)
  | read (p : P) (io : UserRead) (id : UInt32) (version : UInt64)
  | tmp (p : P) (malloc : Bool) (usec : ℕ) (stream : Stream)
  | rename (p : P) (sem : Option TssErr) (ok : Bool)

variable {P : Type*} [DecidableEq P]

namespace Versions

/-- The process goes to another phase. -/
def goto (s : Versions P) (p : P) (phase : VersionPhase) : Versions P :=
  { s with phase := Function.update s.phase p phase }

/-- A new call: the first section. -/
def readTable (s : Versions P) (p : P) (io : UserRead) (id : UInt32) (version : UInt64) : Versions P :=
  match tcsUtilReadPolicyUser io s.file with
  | .error e => s.goto p (.returned (some e))
  | .ok q => s.goto p (.read id version q s.renames)

/-- Between the sections: the loop over the entries, and the new file. -/
def writeTmp (s : Versions P) (p : P) (id : UInt32) (version : UInt64) (q : ReadPolicy) (seen : ℕ)
    (malloc : Bool) (usec : ℕ) (stream : Stream) : Versions P :=
  if ¬ findsPolicy id q.loops q.policy then s.goto p (.returned (some .invalidPolicy))
  else if ¬ malloc then s.goto p (.returned (some .nomem))
  else if ¬ stream.opens then s.goto p (.returned (some .file))
  else
    let content := stream.kept ((q.image id version).take stream.room)
    let s' := { s with tmp := Function.update s.tmp usec (some content) }
    if stream.room < (q.image id version).length then s'.goto p (.returned (some .write))
    else s'.goto p (.written id version usec seen)

/-- The second section.  `rename` fails when there is no such file. -/
def renameTmp (s : Versions P) (p : P) (id : UInt32) (version : UInt64) (usec : ℕ)
    (sem : Option TssErr) (ok : Bool) : Versions P :=
  match sem with
  | some e => s.goto p (.returned (some e))
  | none =>
      match s.tmp usec, ok with
      | some b, true =>
          ({ s with
            file := some b
            tmp := Function.update s.tmp usec none
            renames := s.renames + 1
            done := s.done ++ [⟨id, version⟩] } : Versions P).goto p (.returned none)
      | _, _ => s.goto p (.returned (some .file))

/-- A step of a process, `none` when it is not the next one of its call. -/
def step (s : Versions P) : VersionStep P → Option (Versions P)
  | .read p io id version =>
      match s.phase p with
      | .idle => some (s.readTable p io id version)
      | .returned _ => some (s.readTable p io id version)
      | _ => none
  | .tmp p malloc usec stream =>
      match s.phase p with
      | .read id version q seen => some (s.writeTmp p id version q seen malloc usec stream)
      | _ => none
  | .rename p sem ok =>
      match s.phase p with
      | .written id version usec _ => some (s.renameTmp p id version usec sem ok)
      | _ => none

end Versions

/-! ### Tables -/

/-- A version file: the entries that its number counts, and what follows them. -/
structure VersionTable where
  entries : List VersionEntry
  rest : Bytes
  small : 12 * entries.length + rest.length < 2 ^ 31

/-- The bytes of entries. -/
def versionBytes (entries : List VersionEntry) (rest : Bytes) : Bytes :=
  entries.flatMap VersionEntry.encoded ++ rest

@[simp] theorem VersionEntry.length_encoded (e : VersionEntry) : e.encoded.length = 12 := by
  rw [VersionEntry.encoded, List.length_append, length_netBytes, length_netBytes]

theorem length_versionBytes (entries : List VersionEntry) (rest : Bytes) :
    (versionBytes entries rest).length = 12 * entries.length + rest.length := by
  induction entries with
  | nil => simp [versionBytes]
  | cons e entries ih =>
      rw [versionBytes, List.flatMap_cons, List.append_assoc, List.length_append, e.length_encoded]
      change 12 + (versionBytes entries rest).length = _
      rw [ih, List.length_cons]
      omega

namespace VersionTable

/-- The table as a policy. -/
def toPolicy (t : VersionTable) : Policy where
  bytes := versionBytes t.entries t.rest
  num := UInt32.ofNat t.entries.length
  small := by rw [length_versionBytes]; exact t.small

/-- The version of a policy is set in all its entries. -/
def set (t : VersionTable) (c : VersionEntry) : VersionTable where
  entries := t.entries.map fun e => if e.policy = c.policy then c else e
  rest := t.rest
  small := by rw [List.length_map]; exact t.small

/-- The version of a policy that was written last. -/
def newest (done : List VersionEntry) (policy : UInt32) : Option UInt64 :=
  (done.reverse.find? fun c => c.policy = policy).map VersionEntry.version

/-- The table with everything that was written: the entries are those of `t`, in their order, and
each has the newest version of its policy, or its old one. -/
def after (t : VersionTable) (done : List VersionEntry) : VersionTable where
  entries := t.entries.map fun e => ⟨e.policy, (newest done e.policy).getD e.version⟩
  rest := t.rest
  small := by rw [List.length_map]; exact t.small

variable {t : VersionTable} {done : List VersionEntry} {c : VersionEntry}

theorem toNat_num (t : VersionTable) : t.toPolicy.num.toNat = t.entries.length := by
  have hsmall := t.small
  exact UInt32.toNat_ofNat_of_lt' (by rw [UInt32.size]; omega)

theorem loops_read (t : VersionTable) : t.toPolicy.read.loops = t.entries.length := by
  have hsmall := t.small
  have hnum : t.toPolicy.read.num = t.entries.length := t.toNat_num
  rw [ReadPolicy.loops, hnum, if_pos (by omega)]

theorem after_nil (t : VersionTable) : t.after [] = t := by
  cases t with
  | mk entries rest small => simp [after, newest]

theorem newest_append (done : List VersionEntry) (c : VersionEntry) (policy : UInt32) :
    newest (done ++ [c]) policy = if c.policy = policy then some c.version else newest done policy := by
  rw [newest, newest, List.reverse_append, List.reverse_singleton, List.singleton_append, List.find?_cons]
  split_ifs with h
  · simp [h]
  · simp [h]

theorem set_after (t : VersionTable) (done : List VersionEntry) (c : VersionEntry) :
    (t.after done).set c = t.after (done ++ [c]) := by
  have hentry (e : VersionEntry) :
      (if e.policy = c.policy then c else ⟨e.policy, (newest done e.policy).getD e.version⟩) =
        (⟨e.policy, (newest (done ++ [c]) e.policy).getD e.version⟩ : VersionEntry) := by
    rw [newest_append]
    rcases eq_or_ne e.policy c.policy with h | h
    · rw [if_pos h, if_pos h.symm, h]
      rfl
    · rw [if_neg h, if_neg h.symm]
  simp only [set, after, List.map_map, mk.injEq, and_true]
  exact List.map_congr_left fun e _ => hentry e

end VersionTable

section Loop

variable {id : UInt32} {version : UInt64} {rest : Bytes}

theorem netAt_encoded (e : VersionEntry) (b : Bytes) : netAt (e.encoded ++ b) 0 4 = e.policy.toNat := by
  rw [VersionEntry.encoded, List.append_assoc, netAt_head]
  exact Nat.mod_eq_of_lt e.policy.toNat_lt

/-- **The loop sets the versions of the policy,** and nothing else. -/
theorem setVersions_versionBytes (entries : List VersionEntry) :
    setVersions id version entries.length (versionBytes entries rest) =
      versionBytes (entries.map fun e => if e.policy = id then ⟨id, version⟩ else e) rest := by
  induction entries with
  | nil => rfl
  | cons e entries ih =>
      have hcons : versionBytes (e :: entries) rest = e.encoded ++ versionBytes entries rest := by
        rw [versionBytes, List.flatMap_cons, List.append_assoc]
        rfl
      have hpolicy : (e.encoded ++ versionBytes entries rest).take 4 = netBytes 4 e.policy.toNat := by
        rw [VersionEntry.encoded, List.append_assoc, List.take_left' (length_netBytes 4 _)]
      rw [List.length_cons, hcons, setVersions, netAt_encoded, List.drop_left' e.length_encoded, ih,
        hpolicy, List.take_left' e.length_encoded, List.map_cons, versionBytes, versionBytes,
        List.flatMap_cons, List.append_assoc]
      rcases eq_or_ne e.policy id with h | h
      · rw [if_pos (by rw [h]), if_pos h, h]
        rfl
      · rw [if_neg fun hn => h (UInt32.toNat_inj.mp hn), if_neg h]

/-- What is written to the new file is the table with the version set. -/
theorem image_read (t : VersionTable) : t.toPolicy.read.image id version =
    (t.set ⟨id, version⟩).toPolicy.encoded := by
  have hset : setVersions id version t.entries.length t.toPolicy.bytes =
      (t.set ⟨id, version⟩).toPolicy.bytes := setVersions_versionBytes t.entries
  have hlen : (t.set ⟨id, version⟩).toPolicy.bytes.length = t.toPolicy.bytes.length := by
    change (versionBytes _ _).length = (versionBytes _ _).length
    rw [length_versionBytes, length_versionBytes, VersionTable.set, List.length_map]
  have hnum : (t.set ⟨id, version⟩).toPolicy.num = t.toPolicy.num := by
    change UInt32.ofNat (List.length (List.map _ _)) = UInt32.ofNat _
    rw [List.length_map]
  rw [ReadPolicy.image, t.loops_read]
  change hostBytes 4 t.toPolicy.bytes.length ++ hostBytes 4 t.toPolicy.num.toNat ++
    (setVersions id version t.entries.length t.toPolicy.bytes).take t.toPolicy.bytes.length = _
  rw [hset, ← hlen, List.take_length, ← hnum, Policy.encoded]

/-- A table that is read is the table. -/
theorem read_of_ok {io : UserRead} {p : Policy} {q : ReadPolicy}
    (h : tcsUtilReadPolicyUser io (some p.encoded) = .ok q) : q = p.read := by
  unfold tcsUtilReadPolicyUser at h
  cases hsem : io.sem with
  | some e => simp [hsem] at h
  | none =>
      simp only [hsem, reduceCtorEq, if_false] at h
      cases hfull : httcUtilFileReadFull io.file (some p.encoded) with
      | none => simp [hfull] at h
      | some d =>
          obtain ⟨-, -, -, rfl⟩ := httcUtilFileReadFull_eq_some.mp hfull
          simp only [hfull, policyOf_encoded] at h
          split_ifs at h
          exact (Except.ok.inj h).symm

end Loop

/-! ### Runs -/

/-- Nobody is in a call, and the file is the table. -/
def Versions.start (t : VersionTable) : Versions P where
  file := some t.toPolicy.encoded
  tmp := fun _ => none
  phase := fun _ => .idle
  renames := 0
  done := []

/-- The step is not disturbed by another call: the name of the new file is not in use and the file is
kept as a whole, and no table was renamed since the one that is changed was read. -/
def Undisturbed (s : Versions P) : VersionStep P → Prop
  | .read .. => True
  | .tmp _ _ usec stream => s.tmp usec = none ∧ stream.lost = 0
  | .rename p _ _ => ∀ id version usec seen,
      s.phase p = .written id version usec seen → seen = s.renames

/-- The file has the newest versions that were written, and is otherwise the table `t`. -/
def HoldsVersions (t : VersionTable) (done : List VersionEntry) (file : Option Bytes) : Prop :=
  file = some (t.after done).toPolicy.encoded

/-- The file that a process will rename. -/
def VersionPhase.tmpName : VersionPhase → Option ℕ
  | .written _ _ usec _ => some usec
  | _ => none

/-- What a process inside a call has, if no table was renamed since it read. -/
def PhaseOk (t : VersionTable) (s : Versions P) : VersionPhase → Prop
  | .read _ _ q seen => seen ≤ s.renames ∧ (seen = s.renames → q = (t.after s.done).toPolicy.read)
  | .written id version usec seen => seen ≤ s.renames ∧ ∃ b, s.tmp usec = some b ∧
      (seen = s.renames → b = (t.after (s.done ++ [⟨id, version⟩])).toPolicy.encoded)
  | _ => True

/-- What holds between the steps of an undisturbed run. -/
structure VersionsInv (t : VersionTable) (s : Versions P) : Prop where
  file : HoldsVersions t s.done s.file
  phases : ∀ p, PhaseOk t s (s.phase p)
  apart : ∀ p p' usec, (s.phase p).tmpName = some usec → (s.phase p').tmpName = some usec → p = p'

section Runs

variable {t : VersionTable} {s s' : Versions P} {p : P} {ph : VersionPhase}

omit [DecidableEq P] in
theorem VersionsInv.start (t : VersionTable) : VersionsInv t (Versions.start t : Versions P) where
  file := by rw [HoldsVersions, Versions.start, VersionTable.after_nil]
  phases := fun _ => trivial
  apart := fun _ _ _ h => by cases h

/-- A process goes to a phase in order, with a name that no other process has. -/
theorem VersionsInv.goto (h : VersionsInv t s) (hok : PhaseOk t s ph)
    (hname : ∀ p' usec, ph.tmpName = some usec → (s.phase p').tmpName ≠ some usec) :
    VersionsInv t (s.goto p ph) := by
  refine ⟨h.file, fun p' => ?_, fun p₁ p₂ usec h₁ h₂ => ?_⟩
  · change PhaseOk t s (Function.update s.phase p ph p')
    rcases eq_or_ne p' p with rfl | hne
    · rwa [Function.update_self]
    · rw [Function.update_of_ne hne]
      exact h.phases p'
  · change (Function.update s.phase p ph p₁).tmpName = some usec at h₁
    change (Function.update s.phase p ph p₂).tmpName = some usec at h₂
    rcases eq_or_ne p₁ p with rfl | hne₁
    · rcases eq_or_ne p₂ p₁ with rfl | hne₂
      · rfl
      · rw [Function.update_self] at h₁
        rw [Function.update_of_ne hne₂] at h₂
        exact absurd h₂ (hname p₂ usec h₁)
    · rw [Function.update_of_ne hne₁] at h₁
      rcases eq_or_ne p₂ p with rfl | hne₂
      · rw [Function.update_self] at h₂
        exact absurd h₁ (hname p₁ usec h₂)
      · rw [Function.update_of_ne hne₂] at h₂
        exact h.apart p₁ p₂ usec h₁ h₂

theorem VersionsInv.goto_returned (h : VersionsInv t s) (r : Option TssErr) :
    VersionsInv t (s.goto p (.returned r)) :=
  h.goto trivial fun _ _ hn => by cases hn

/-- **The first section:** the process has read the table. -/
theorem VersionsInv.readTable {io : UserRead} {id : UInt32} {version : UInt64} (h : VersionsInv t s) :
    VersionsInv t (s.readTable p io id version) := by
  unfold Versions.readTable
  cases hq : tcsUtilReadPolicyUser io s.file with
  | error e => exact h.goto_returned _
  | ok q =>
      rw [h.file] at hq
      exact h.goto ⟨le_rfl, fun _ => read_of_ok hq⟩ fun _ _ hn => by cases hn

omit [DecidableEq P] in
/-- A new file under a name that is not in use changes nothing for the processes. -/
theorem VersionsInv.newFile {usec : ℕ} (h : VersionsInv t s) (hfree : s.tmp usec = none) (b : Bytes) :
    VersionsInv t { s with tmp := Function.update s.tmp usec (some b) } := by
  refine ⟨h.file, fun p => ?_, h.apart⟩
  have hp := h.phases p
  change PhaseOk t _ (s.phase p)
  cases hph : s.phase p with
  | written id version usec' seen =>
      rw [hph] at hp
      obtain ⟨hseen, b', hb', hcontent⟩ := hp
      have hne : usec' ≠ usec := by
        rintro rfl
        rw [hfree] at hb'
        cases hb'
      refine ⟨hseen, b', ?_, hcontent⟩
      change Function.update s.tmp usec (some b) usec' = some b'
      rw [Function.update_of_ne hne, hb']
  | read id version q seen =>
      rw [hph] at hp
      exact hp
  | _ => trivial

/-- **Between the sections:** the new file is the table with the version set. -/
theorem VersionsInv.writeTmp {id : UInt32} {version : UInt64} {q : ReadPolicy} {seen usec : ℕ}
    {malloc : Bool} {stream : Stream} (h : VersionsInv t s) (hp : s.phase p = .read id version q seen)
    (hfree : s.tmp usec = none) (hlost : stream.lost = 0) :
    VersionsInv t (s.writeTmp p id version q seen malloc usec stream) := by
  have hread : PhaseOk t s (.read id version q seen) := hp ▸ h.phases p
  unfold Versions.writeTmp
  split_ifs with _ _ _ hroom
  · exact (h.newFile hfree _).goto_returned _
  · dsimp only
    refine (h.newFile hfree _).goto ?_ ?_
    · refine ⟨hread.1, _, Function.update_self .., fun hseen => ?_⟩
      rw [List.take_of_length_le (Nat.le_of_not_lt hroom), Stream.kept, hlost, Nat.sub_zero,
        List.take_length, hread.2 hseen, image_read, VersionTable.set_after]
    · intro p' usec' husec hname
      obtain rfl := Option.some.inj husec
      change (s.phase p').tmpName = some usec at hname
      have hp' := h.phases p'
      cases hph : s.phase p' with
      | written id' version' usec' seen' =>
          rw [hph] at hp' hname
          obtain rfl := Option.some.inj hname
          obtain ⟨-, b, hb, -⟩ := hp'
          rw [hfree] at hb
          cases hb
      | _ => rw [hph] at hname; cases hname
  · exact h.goto_returned _
  · exact h.goto_returned _
  · exact h.goto_returned _

/-- **The second section:** the new file is the table with one more version, and whoever is inside a
call has read an older one. -/
theorem VersionsInv.renameTmp {id : UInt32} {version : UInt64} {usec : ℕ} {sem : Option TssErr} {ok : Bool}
    (h : VersionsInv t s) (hp : s.phase p = .written id version usec s.renames) :
    VersionsInv t (s.renameTmp p id version usec sem ok) := by
  have hwritten : PhaseOk t s (.written id version usec s.renames) := hp ▸ h.phases p
  obtain ⟨-, b, hb, hcontent⟩ := hwritten
  unfold Versions.renameTmp
  cases sem with
  | some e => exact h.goto_returned _
  | none =>
      cases ok with
      | false => rw [hb]; exact h.goto_returned _
      | true =>
          rw [hb]
          refine ⟨?_, fun p' => ?_, fun p₁ p₂ usec' h₁ h₂ => ?_⟩
          · exact congrArg some (hcontent rfl)
          · change PhaseOk t _ (Function.update s.phase p (.returned none) p')
            rcases eq_or_ne p' p with rfl | hne
            · rw [Function.update_self]
              trivial
            · rw [Function.update_of_ne hne]
              have hp' := h.phases p'
              cases hph : s.phase p' with
              | read id' version' q' seen' =>
                  rw [hph] at hp'
                  have hold : seen' ≤ s.renames := hp'.1
                  exact ⟨hold.trans (Nat.le_succ _), fun hseen => by
                    change seen' = s.renames + 1 at hseen
                    omega⟩
              | written id' version' usec' seen' =>
                  rw [hph] at hp'
                  obtain ⟨hold, b', hb', -⟩ := hp'
                  have husec : usec' ≠ usec := by
                    rintro rfl
                    exact hne (h.apart p' p usec' (by rw [hph]; rfl) (by rw [hp]; rfl))
                  refine ⟨hold.trans (Nat.le_succ _), b', ?_, fun hseen => ?_⟩
                  · change Function.update s.tmp usec none usec' = some b'
                    rw [Function.update_of_ne husec, hb']
                  · change seen' = s.renames + 1 at hseen
                    omega
              | _ => trivial
          · have hback {p' : P} (hp' : (Function.update s.phase p (.returned none) p').tmpName = some usec') :
                (s.phase p').tmpName = some usec' := by
              rcases eq_or_ne p' p with rfl | hne
              · rw [Function.update_self] at hp'
                cases hp'
              · rwa [Function.update_of_ne hne] at hp'
            exact h.apart p₁ p₂ usec' (hback h₁) (hback h₂)

theorem VersionsInv.step {a : VersionStep P} (h : VersionsInv t s) (hok : Undisturbed s a)
    (hs : s.step a = some s') : VersionsInv t s' := by
  cases a with
  | read p io id version =>
      simp only [Versions.step] at hs
      split at hs
      · obtain rfl := Option.some.inj hs
        exact h.readTable
      · obtain rfl := Option.some.inj hs
        exact h.readTable
      · cases hs
  | tmp p malloc usec stream =>
      simp only [Versions.step] at hs
      split at hs
      · rename_i id version q seen hp
        obtain rfl := Option.some.inj hs
        exact h.writeTmp hp hok.1 hok.2
      · cases hs
  | rename p sem ok =>
      simp only [Versions.step] at hs
      split at hs
      · rename_i id version usec seen hp
        obtain rfl := Option.some.inj hs
        obtain rfl : seen = s.renames := hok id version usec seen hp
        exact h.renameTmp hp
      · cases hs

end Runs

/-- **Versions are kept where no call disturbs another.**  In every run of calls by any number of
processes, from any table, in which every step is undisturbed: the file has the newest version of every
policy that a call which returned `0` has written; the entries are those of the table in their number and
order, and those of other policies and what follows the entries are as they were. -/
theorem versions_kept (t : VersionTable) (as : List (VersionStep P)) (s : Versions P)
    (hok : Meets Versions.step Undisturbed (Versions.start t) as)
    (hrun : run Versions.step (Versions.start t) as = some s) : HoldsVersions t s.done s.file :=
  (run_invariant (fun _ _ _ h ha hs => VersionsInv.step h ha hs) (VersionsInv.start t) hok hrun).file

/-- Two policies of version 0. -/
def twoPolicies : VersionTable := ⟨[⟨1, 0⟩, ⟨2, 0⟩], [], by decide⟩

/-- The steps of a call that is granted everything. -/
def VersionStep.granted (p : Bool) (id : UInt32) (version : UInt64) (usec : ℕ) : List (VersionStep Bool) :=
  [.read p ⟨none, ⟨true, true, true⟩, true, []⟩ id version, .tmp p true usec ⟨true, 1024, 0⟩,
    .rename p none true]

/-- Two calls one after the other: both versions are in the file. -/
theorem versions_kept_one_by_one :
    ∃ s, run Versions.step (Versions.start twoPolicies)
        (VersionStep.granted false 1 7 100 ++ VersionStep.granted true 2 8 200) = some s ∧
      s.done = [⟨1, 7⟩, ⟨2, 8⟩] ∧ HoldsVersions twoPolicies s.done s.file := by
  refine ⟨_, rfl, rfl, versions_kept twoPolicies
    (VersionStep.granted false 1 7 100 ++ VersionStep.granted true 2 8 200) _ ?_ rfl⟩
  refine meets_cons_of_step trivial rfl (meets_cons_of_step ⟨rfl, rfl⟩ rfl (meets_cons_of_step ?_ rfl
    (meets_cons_of_step trivial rfl (meets_cons_of_step ⟨rfl, rfl⟩ rfl (meets_cons_of_step ?_ rfl trivial)))))
  · intro id version usec seen h
    cases h
    rfl
  · intro id version usec seen h
    cases h
    rfl

/-- **An interleaving loses a version.**  Both processes read the table before either renames its own,
both calls return `0`, and the version of the first is gone. -/
theorem interleaved_versions_lost :
    ∃ s, run Versions.step (Versions.start twoPolicies)
        [.read false ⟨none, ⟨true, true, true⟩, true, []⟩ 1 7, .read true ⟨none, ⟨true, true, true⟩, true, []⟩ 2 8,
          .tmp false true 100 ⟨true, 1024, 0⟩, .tmp true true 200 ⟨true, 1024, 0⟩,
          .rename false none true, .rename true none true] = some s ∧
      s.phase false = .returned none ∧ s.phase true = .returned none ∧
      s.done = [⟨1, 7⟩, ⟨2, 8⟩] ∧ s.file = some (twoPolicies.set ⟨2, 8⟩).toPolicy.encoded ∧
      ¬ HoldsVersions twoPolicies s.done s.file := by
  refine ⟨_, rfl, rfl, rfl, rfl, rfl, ?_⟩
  unfold HoldsVersions
  decide

end Tcs
end TsbAgent
