/-
# Reloading the whitelist: all or nothing?

A reload should end in one of two ways: with `0` and the records of the whole file in the table,
or with an error and the table as it was.  The exits of `load_whitelist`
(`tsb/kernel/smeasure/policy/hash_whitelist.c`):

| exit | returns | table |
| --- | --- | --- |
| the digest of the file is wrong, or cannot be checked | an error | kept |
| `filp_open` fails | `ret`, which is `0` here | kept |
| no memory | `-ENOMEM` | kept |
| a read fails, or the file ends early | `0` | the records before that place |
| a record longer than the window, or without its end | `0` | the records before it |
| the end of the file | `0` | the records of the file |

The failing read is only reported to the log (`offset != i_size`), so the fourth and the fifth exit
swap in what has been read so far.  `reload_all_or_nothing_iff` says when a reload is all or nothing
all the same.
-/

import TsbAgent.Whitelist.Bounds

namespace TsbAgent
namespace Whitelist

open Libc FileIntegrity

/-- `load_whitelist` on a file of this content is all or nothing: it returns `0`, the file is made
of complete records and the table holds exactly those that are not deleted, or it returns an error
and the table and its count are as before. -/
def AllOrNothing (jhash : Jhash) (random : UInt32) (env : LoadEnv) (content : Bytes)
    (s : WhitelistState) : Prop :=
  ∃ s' ret, loadWhitelist jhash random env s = some (s', ret) ∧
    ((ret = 0 ∧ recordTail content = [] ∧
        s'.table.hashtable.contents = liveEntries (completeRecords content)) ∨
      (ret ≠ 0 ∧ s'.table = s.table))

section Content

variable {jhash : Jhash} {random : UInt32}

/-- The loader reads the complete records before the first that does not fit in the window. -/
theorem loadTable_eq_records (reads : ℕ → ℕ) (file : Bytes) :
    loadTable jhash random reads file =
      loadItems jhash random (windowRecords (completeRecords file)) whitelistInit := by
  rw [loadTable, loadLoop_eq, loadItems_eq]
  exact Window.loop_eq framed_loadItem (by decide) reads (records_windowRecords le_rfl)

/-- The records of the part that can be read are records of the file. -/
theorem cut_prefix {fuel fuel' : ℕ} {p q r : Bytes} (hpq : p <+: q) (hfuel : q.length ≤ fuel')
    (hr : r ∈ (cut fuel p).1) :
    ∃ r' ∈ (cut fuel' q).1, itemHash r' = itemHash r ∧ itemEntry r' = itemEntry r := by
  induction fuel generalizing fuel' p q with
  | zero => exact absurd hr List.not_mem_nil
  | succ fuel ih =>
      rw [cut] at hr
      by_cases hshort : p.length < paddedSize p
      · rw [if_pos hshort] at hr
        exact absurd hr List.not_mem_nil
      rw [if_neg hshort] at hr
      obtain ⟨t, rfl⟩ := hpq
      have h36 := paddedSize_ge p
      have hlen : (p ++ t).length = p.length + t.length := List.length_append
      obtain ⟨fuel', rfl⟩ : ∃ k, fuel' = k + 1 := ⟨fuel' - 1, by omega⟩
      have hpad : paddedSize (p ++ t) = paddedSize p := paddedSize_append (by omega) t
      rw [cut, hpad, if_neg (by omega)]
      rcases List.mem_cons.mp hr with rfl | hr
      · obtain ⟨hhash, hentry, -⟩ := fields_append (p := r) (by omega) t
        exact ⟨_, List.mem_cons_self, hhash, hentry⟩
      · have hdrop : (p ++ t).drop (paddedSize p) = p.drop (paddedSize p) ++ t :=
          List.drop_append_of_le_length (by omega)
        have hrest : p.drop (paddedSize p) <+: (p ++ t).drop (paddedSize p) := by
          rw [hdrop]
          exact List.prefix_append _ _
        have hfit : ((p ++ t).drop (paddedSize p)).length ≤ fuel' := by
          rw [List.length_drop]
          omega
        obtain ⟨r', hr', h⟩ := ih hrest hfit hr
        exact ⟨r', List.mem_cons_of_mem _ hr', h⟩

theorem liveEntries_prefix {file content : Bytes} (h : file <+: content) :
    liveEntries (windowRecords (completeRecords file)) ⊆ liveEntries (completeRecords content) := by
  rintro u ⟨r, hr, h0, rfl⟩
  have hmem : r ∈ completeRecords file := (List.takeWhile_sublist _).subset hr
  obtain ⟨r', hr', hhash, hentry⟩ := cut_prefix h le_rfl hmem
  exact ⟨r', hr', hhash ▸ h0, hentry.symm⟩

/-- A load that swaps the tables is all or nothing when what it has read is all there is. -/
theorem allOrNothing_of_ready {env : LoadEnv} (hready : env.Ready) {content : Bytes}
    (hpart : env.file <+: content) (s : WhitelistState) :
    AllOrNothing jhash random env content s ↔
      recordTail content = [] ∧
      (∀ r ∈ windowRecords (completeRecords env.file), itemHash r ≠ Digest.zero → pathLength r < 512) ∧
      liveEntries (completeRecords content) ⊆ liveEntries (windowRecords (completeRecords env.file)) ∧
      ∀ u ∈ liveEntries (windowRecords (completeRecords env.file)),
        ∀ v ∈ liveEntries (windowRecords (completeRecords env.file)), Same jhash random u v → u = v := by
  have hST := liveEntries_prefix hpart
  have hinit : Dedup jhash random ∅ whitelistInit := dedup_init
  obtain ⟨hfault, hload⟩ := loadItems_spec hinit (windowRecords (completeRecords env.file))
  rw [Set.empty_union] at hload
  rw [AllOrNothing, loadWhitelist_of_ready hready, loadTable_eq_records]
  by_cases hlen : ∀ r ∈ windowRecords (completeRecords env.file),
      itemHash r ≠ Digest.zero → pathLength r < 512
  · obtain ⟨w, hw, hd⟩ := hload hlen
    rw [hw, ← hd.contents_eq_iff hST]
    constructor
    · rintro ⟨s', ret, hs, h | h⟩
      · obtain ⟨rfl, -⟩ := Prod.ext_iff.mp (Option.some.inj hs)
        exact ⟨h.2.1, hlen, h.2.2⟩
      · obtain ⟨-, rfl⟩ := Prod.ext_iff.mp (Option.some.inj hs)
        exact absurd rfl h.1
    · rintro ⟨htail, -, hcont⟩
      exact ⟨{ s with table := w }, 0, rfl, Or.inl ⟨rfl, htail, hcont⟩⟩
  · refine iff_of_false ?_ fun h => hlen h.2.1
    push Not at hlen
    rw [hfault hlen]
    rintro ⟨s', ret, hs, -⟩
    exact absurd hs.symm (Option.some_ne_none _)

/-- A load that returns an error has not touched the table. -/
theorem allOrNothing_of_error {env : LoadEnv} {content : Bytes} {s s' : WhitelistState} {ret : ℤ}
    (h : loadWhitelist jhash random env s = some (s', ret)) (hret : ret ≠ 0) (hs : s'.table = s.table) :
    AllOrNothing jhash random env content s :=
  ⟨s', ret, h, Or.inr ⟨hret, hs⟩⟩

theorem allOrNothing_of_check {env : LoadEnv} (h : fileIntegrityCheck env ≠ 0) (content : Bytes)
    (s : WhitelistState) : AllOrNothing jhash random env content s := by
  by_cases h1 : fileIntegrityCheck env = 1
  · have hload : loadWhitelist jhash random env s = some (s, -1) := by
      rw [loadWhitelist, if_pos h1]
    exact allOrNothing_of_error hload (by decide) rfl
  · have hload : loadWhitelist jhash random env s =
        some ({ s with fileIntegrityValid := false }, fileIntegrityCheck env) := by
      rw [loadWhitelist, if_neg h1, if_pos h]
    exact allOrNothing_of_error hload h rfl

/-- A file that cannot be opened is reported as a success. -/
theorem allOrNothing_of_not_opened {env : LoadEnv} (hcheck : fileIntegrityCheck env = 0)
    (hopen : env.reopened = false) (content : Bytes) (s : WhitelistState) :
    AllOrNothing jhash random env content s ↔
      recordTail content = [] ∧ s.table.hashtable.contents = liveEntries (completeRecords content) := by
  have hload : loadWhitelist jhash random env s = some (s, 0) := by
    simp [loadWhitelist, hcheck, hopen]
  constructor
  · rintro ⟨s', ret, hs, h | h⟩
    · obtain ⟨rfl, -⟩ := Prod.ext_iff.mp (Option.some.inj (hload.symm.trans hs))
      exact h.2
    · obtain ⟨-, rfl⟩ := Prod.ext_iff.mp (Option.some.inj (hload.symm.trans hs))
      exact absurd rfl h.1
  · intro h
    exact ⟨s, 0, hload, Or.inl ⟨rfl, h⟩⟩

theorem allOrNothing_of_no_memory {env : LoadEnv} (hcheck : fileIntegrityCheck env = 0)
    (hopen : env.reopened = true) (hmem : env.vmallocBuff = false ∨ env.vmallocTable = false)
    (content : Bytes) (s : WhitelistState) : AllOrNothing jhash random env content s := by
  have hload : loadWhitelist jhash random env s = some (s, -enomem) := by
    rcases hmem with h | h
    · simp [loadWhitelist, hcheck, hopen, h]
    · simp [loadWhitelist, hcheck, hopen, h]
  exact allOrNothing_of_error hload (by decide) rfl

end Content

end Whitelist
end TsbAgent
