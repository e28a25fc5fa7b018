/-
# The replay counter

`tcs_util_read_replay_counter` and `tcs_util_write_replay_counter` of
`tss-main/tcs/tcsapi/tcsu/tcs_util_policy_update.c`, and `tcs_get_replay_counter` of
`tcs_attest.c`.  Every policy update carries a counter, and all of them share one stored
value: that of the TPCM or that of the local file `replay.data`, whichever is larger.  An
update is admitted when its counter, without the top bit, is larger still, and the file
then takes its counter.

| `replay.data` | counts as |
| --- | --- |
| absent, or not readable | `0` |
| empty | `TSS_ERR_READ` |
| 16 bytes: `size`, `num`, counter | its counter |
| any other length | `TSS_ERR_BAD_DATA` |

`ReplayIo` says what the rest of the system does during a call: the TPCM, the semaphore,
and how far the accesses to the file get.
-/

import TsbAgent.Tcs.Basic

namespace TsbAgent
namespace Tcs

/-- `replay.data`, in the machine's byte order. -/
inductive ReplayFile
  | whole (size num : UInt32) (counter : UInt64)
  | odd (len : ℕ) (hlen : len ≠ 16)

/-- How far writing a file gets. -/
inductive ReplayWrite
  | noOpen
  /-- `fwrite` fails for the field of this number. -/
  | broken (field : Fin 3)
  | done

/-- What the rest of the system does during `tcs_util_write_replay_counter`. -/
structure ReplayIo where
  tcsGetReplayCounterFromTpcm : Except TssErr UInt64
  /-- `tcs_util_sem_get`, in the function that reads and in the one that writes. -/
  semRead : Option TssErr
  semWrite : Option TssErr
  /-- `access (TCS_POLICY_REPLAY_PATH, R_OK)` succeeds for a file that exists. -/
  readable : Bool
  /-- `httc_util_file_read_full` gets the memory and the bytes, the first and second time. -/
  readFull₁ : Bool
  readFull₂ : Bool
  write : ReplayWrite

/-- `MAX(x, y)`. -/
def maxCounter (x y : UInt64) : UInt64 := if x > y then x else y

/-- The local counter, as both functions read it. -/
def localReplay (readable readFull : Bool) : Option ReplayFile → Except TssErr UInt64
  | none => .ok 0
  | some f =>
      if readable = false then .ok 0
      else
        match f with
        | .odd len _ => if len = 0 ∨ readFull = false then .error .read else .error .badData
        | .whole _ _ counter => if readFull = false then .error .read else .ok counter

/-- `tcs_util_read_replay_counter`. -/
def tcsUtilReadReplayCounter (io : ReplayIo) (f : Option ReplayFile) : Except TssErr UInt64 :=
  match io.semRead with
  | some e => .error e
  | none => localReplay io.readable io.readFull₁ f

/-- `tcs_get_replay_counter`. -/
def tcsGetReplayCounter (io : ReplayIo) (f : Option ReplayFile) : Except TssErr UInt64 :=
  match io.tcsGetReplayCounterFromTpcm with
  | .error e => .error e
  | .ok tpcmReplay =>
      match tcsUtilReadReplayCounter io f with
      | .error e => .error e
      | .ok localReplay => .ok (maxCounter tpcmReplay localReplay)

/-- `counter & 0x7FFFFFFFFFFFFFFF`. -/
def maskCounter (counter : UInt64) : UInt64 := counter &&& 0x7FFFFFFFFFFFFFFF

/-- The file after its first `field` fields of four bytes. -/
def brokenFile (field : Fin 3) : ReplayFile :=
  .odd (4 * field) (by omega)

/-- The file after a write. -/
def counterFile (counter : UInt64) : ReplayFile := .whole 8 1 counter

/-- `tcs_util_write_replay_counter`. -/
def tcsUtilWriteReplayCounter (io : ReplayIo) (counter : UInt64) (f : Option ReplayFile) :
    Option TssErr × Option ReplayFile :=
  match tcsGetReplayCounter io f with
  | .error e => (some e, f)
  | .ok tpcmReplay =>
      match io.semWrite with
      | some e => (some e, f)
      | none =>
          match localReplay io.readable io.readFull₂ f with
          | .error e => (some e, f)
          | .ok localReplay =>
              if maskCounter counter ≤ maxCounter tpcmReplay localReplay then (some .verifyReplay, f)
              else
                match io.write with
                | .noOpen => (some .file, f)
                | .broken field => (some .write, some (brokenFile field))
                | .done => (none, some (counterFile (maskCounter counter)))

/-- The counter that the file stores, none when the file is damaged. -/
def storedReplay (readable : Bool) : Option ReplayFile → Option UInt64
  | none => some 0
  | some f =>
      if readable = false then some 0
      else
        match f with
        | .odd _ _ => none
        | .whole _ _ counter => some counter

/-- The counter is newer than the one of the TPCM and the one of the file. -/
def Newer (io : ReplayIo) (f : Option ReplayFile) (counter : UInt64) : Prop :=
  ∃ tpcmReplay localReplay, io.tcsGetReplayCounterFromTpcm = .ok tpcmReplay ∧
    storedReplay io.readable f = some localReplay ∧ tpcmReplay < maskCounter counter ∧
      localReplay < maskCounter counter

section Write

variable {io : ReplayIo} {f : Option ReplayFile} {counter : UInt64}

theorem maxCounter_lt {x y z : UInt64} : maxCounter x y < z ↔ x < z ∧ y < z := by
  unfold maxCounter
  split_ifs with h
  · exact ⟨fun hx => ⟨hx, UInt64.lt_trans h hx⟩, fun hx => hx.1⟩
  · exact ⟨fun hy => ⟨UInt64.lt_of_le_of_lt (UInt64.not_lt.mp h) hy, hy⟩, fun hy => hy.2⟩

theorem storedReplay_of_localReplay {readable readFull : Bool} {l : UInt64}
    (h : localReplay readable readFull f = .ok l) : storedReplay readable f = some l := by
  cases f with
  | none => exact congrArg some (Except.ok.inj h)
  | some f =>
      simp only [localReplay] at h
      simp only [storedReplay]
      by_cases hr : readable = false
      · rw [if_pos hr] at h ⊢
        exact congrArg some (Except.ok.inj h)
      · rw [if_neg hr] at h ⊢
        cases f with
        | odd len hlen =>
            dsimp only at h
            split_ifs at h
        | whole size num c =>
            dsimp only at h
            split_ifs at h
            exact congrArg some (Except.ok.inj h)

/-- The answer of the TPCM is part of the counter that the call compares with. -/
theorem tcsGetReplayCounter_eq_ok {r : UInt64} (h : tcsGetReplayCounter io f = .ok r) :
    ∃ t l, io.tcsGetReplayCounterFromTpcm = .ok t ∧ r = maxCounter t l := by
  unfold tcsGetReplayCounter at h
  cases ht : io.tcsGetReplayCounterFromTpcm with
  | error e => simp [ht] at h
  | ok t =>
      cases hl : tcsUtilReadReplayCounter io f with
      | error e => simp [ht, hl] at h
      | ok l =>
          simp only [ht, hl, Except.ok.injEq] at h
          exact ⟨t, l, rfl, h.symm⟩

/-- **The three ways in which writing the counter ends:** refused with the file as it was,
broken off, or with a counter that is newer than both, and then stored. -/
theorem tcsUtilWriteReplayCounter_cases (io : ReplayIo) (counter : UInt64) (f : Option ReplayFile) :
    (∃ e, tcsUtilWriteReplayCounter io counter f = (some e, f)) ∨
      (∃ field, io.write = .broken field ∧
        tcsUtilWriteReplayCounter io counter f = (some .write, some (brokenFile field))) ∨
      (Newer io f counter ∧ tcsUtilWriteReplayCounter io counter f =
        (none, some (counterFile (maskCounter counter)))) := by
  unfold tcsUtilWriteReplayCounter
  cases hg : tcsGetReplayCounter io f with
  | error e => exact .inl ⟨e, rfl⟩
  | ok r =>
      cases hs : io.semWrite with
      | some e => exact .inl ⟨e, rfl⟩
      | none =>
          cases hl : localReplay io.readable io.readFull₂ f with
          | error e => exact .inl ⟨e, rfl⟩
          | ok l =>
              dsimp only
              by_cases hle : maskCounter counter ≤ maxCounter r l
              · exact .inl ⟨.verifyReplay, if_pos hle⟩
              · rw [if_neg hle]
                obtain ⟨hr, hlt⟩ := maxCounter_lt.mp (UInt64.not_le.mp hle)
                cases hw : io.write with
                | noOpen => exact .inl ⟨.file, rfl⟩
                | broken field => exact .inr (.inl ⟨field, rfl, rfl⟩)
                | done =>
                    obtain ⟨t, l', ht, rfl⟩ := tcsGetReplayCounter_eq_ok hg
                    have hstored := storedReplay_of_localReplay hl
                    exact .inr (.inr ⟨⟨t, l, ht, hstored, (maxCounter_lt.mp hr).1, hlt⟩, rfl⟩)

/-- A counter that was written is newer than both, and the file has it. -/
theorem tcsUtilWriteReplayCounter_of_none
    (h : (tcsUtilWriteReplayCounter io counter f).1 = none) : Newer io f counter ∧
      (tcsUtilWriteReplayCounter io counter f).2 = some (counterFile (maskCounter counter)) := by
  rcases tcsUtilWriteReplayCounter_cases io counter f with
    ⟨err, he⟩ | ⟨field, -, he⟩ | ⟨hnewer, he⟩
  · exact absurd (he ▸ h) (by simp)
  · exact absurd (he ▸ h) (by simp)
  · exact ⟨hnewer, congrArg Prod.snd he⟩

/-- A counter that was not written leaves the file as it was, unless the write broke off. -/
theorem tcsUtilWriteReplayCounter_of_ne_none
    (h : (tcsUtilWriteReplayCounter io counter f).1 ≠ none)
    (hio : ∀ field, io.write ≠ .broken field) :
    (tcsUtilWriteReplayCounter io counter f).2 = f := by
  rcases tcsUtilWriteReplayCounter_cases io counter f with
    ⟨err, he⟩ | ⟨field, hfield, -⟩ | ⟨-, he⟩
  · rw [he]
  · exact absurd hfield (hio field)
  · exact absurd (congrArg Prod.fst he) h

end Write

end Tcs
end TsbAgent
