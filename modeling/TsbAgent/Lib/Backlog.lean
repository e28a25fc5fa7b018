/-
# Delivering a backlog in batches

Records wait in files; one file at a time is open, and a batch is taken from its front.  When
it is used up another file is opened, any of those that wait.  A file without records is one
that cannot be read: the request that meets it gives nothing, and the next file is open after
it.  `Batch n b d b'` says that a request for `n` records gives `d`; `Delivered` strings
requests together.

Every record is delivered once and in the order of its file: what has been delivered and what is
left of the open file are the files one after the other, each whole (`Delivered.exactlyOnce`).
And every request for a record gives one or passes over a file that cannot be read, so that
enough of them deliver everything (`Delivered.complete`).
-/

import Mathlib.Algebra.BigOperators.Group.List.Lemmas
import Mathlib.Algebra.Order.Ring.Nat
import Mathlib.Data.List.Perm.Basic
import Mathlib.Tactic.Common

namespace TsbAgent

/-- What is left of the open file, and the files that wait. -/
structure Backlog (α : Type*) where
  opened : Option (List α)
  files : List (List α)

namespace Backlog

variable {α : Type*}

/-- The records left of the open file. -/
def rem (b : Backlog α) : List α := b.opened.getD []

/-- What stays open: a file that is used up does not. -/
def put (recs : List α) : Option (List α) := if recs = [] then none else some recs

/-- A request for `n` records. -/
inductive Batch (n : ℕ) : Backlog α → List α → Backlog α → Prop
  | take {recs : List α} {files : List (List α)} : recs ≠ [] →
      Batch n ⟨some recs, files⟩ (recs.take n) ⟨put (recs.drop n), files⟩
  | idle {files : List (List α)} : n = 0 → Batch n ⟨some [], files⟩ [] ⟨some [], files⟩
  | skip {files rest : List (List α)} {f : List α} : 0 < n → files.Perm (f :: rest) →
      Batch n ⟨some [], files⟩ [] ⟨some f, rest⟩
  | skipLast : 0 < n → Batch n ⟨some [], []⟩ [] ⟨none, []⟩
  | next {files rest : List (List α)} {f d : List α} {b' : Backlog α} : files.Perm (f :: rest) →
      Batch n ⟨some f, rest⟩ d b' → Batch n ⟨none, files⟩ d b'
  | none : Batch n ⟨none, []⟩ [] ⟨none, []⟩

/-- A file is opened, unless one is open. -/
def Opens (b : Backlog α) (recs : List α) (files : List (List α)) : Prop :=
  b = ⟨some recs, files⟩ ∨ (b.opened = Option.none ∧ b.files.Perm (recs :: files))

/-- Requests one after the other: their numbers and what they give. -/
inductive Delivered : Backlog α → List (ℕ × List α) → Backlog α → Prop
  | nil {b : Backlog α} : Delivered b [] b
  | cons {b b₁ b' : Backlog α} {n : ℕ} {d : List α} {ds : List (ℕ × List α)} : Batch n b d b₁ →
      Delivered b₁ ds b' → Delivered b ((n, d) :: ds) b'

/-- All that has been delivered. -/
def records (ds : List (ℕ × List α)) : List α := (ds.map Prod.snd).flatten

/-- The requests for at least one record. -/
def positive (ds : List (ℕ × List α)) : ℕ := (ds.filter fun d => 0 < d.1).length

/-- How many requests for one record it takes: one for each record, and one for each file that
cannot be read. -/
def weight (b : Backlog α) : ℕ := ((b.opened.toList ++ b.files).map fun f => max 1 f.length).sum

section Once

variable {n : ℕ} {b b₁ b' : Backlog α} {d recs : List α} {ds es : List (ℕ × List α)} {files rest : List (List α)}

@[simp] theorem rem_put : rem ⟨put recs, files⟩ = recs := by
  rw [rem, put]
  split_ifs with h
  · exact h.symm
  · rfl

theorem Batch.of_opens (h : b.Opens recs files) (hbatch : Batch n ⟨some recs, files⟩ d b') : Batch n b d b' := by
  rcases h with rfl | ⟨hnone, hperm⟩
  · exact hbatch
  · obtain ⟨opened, waiting⟩ := b
    cases hnone
    exact .next hperm hbatch

/-- A request for nothing leaves the open file as it is. -/
theorem Batch.zero : Batch 0 ⟨some recs, files⟩ [] ⟨some recs, files⟩ := by
  by_cases hne : recs = []
  · subst hne
    exact .idle rfl
  · have htake := @Batch.take α 0 recs files hne
    rwa [List.take_zero, List.drop_zero, put, if_neg hne] at htake

/-- **One request:** what it gives and what it leaves of the open file is the rest of the open
file and further files. -/
theorem Batch.exactlyOnce (h : Batch n b d b') :
    ∃ opened : List (List α), d ++ b'.rem = b.rem ++ opened.flatten ∧ b.files.Perm (opened ++ b'.files) := by
  induction h with
  | @take recs files _ =>
      refine ⟨[], ?_, List.Perm.refl _⟩
      rw [rem_put, List.take_append_drop, List.flatten_nil, List.append_nil]
      rfl
  | idle _ => exact ⟨[], rfl, List.Perm.refl _⟩
  | @skip files rest f _ hperm => exact ⟨[f], by rw [List.flatten_singleton]; rfl, hperm⟩
  | skipLast _ => exact ⟨[], rfl, List.Perm.refl _⟩
  | @next files rest f d b' hperm _ ih =>
      obtain ⟨opened, hrec, hfiles⟩ := ih
      exact ⟨f :: opened, hrec, hperm.trans (hfiles.cons f)⟩
  | none => exact ⟨[], rfl, List.Perm.refl _⟩

/-- **Exactly once, and in file order:** there are files, opened one after the other, that
together with the file that was open are all that has been delivered and what is left of the
last one; the others still wait. -/
theorem Delivered.exactlyOnce (h : Delivered b ds b') :
    ∃ opened : List (List α), records ds ++ b'.rem = b.rem ++ opened.flatten ∧ b.files.Perm (opened ++ b'.files) := by
  induction h with
  | nil => exact ⟨[], by rw [records, List.map_nil, List.flatten_nil, List.nil_append, List.append_nil], List.Perm.refl _⟩
  | @cons b b₁ b' n d ds hbatch _ ih =>
      obtain ⟨opened, hrec, hperm⟩ := ih
      obtain ⟨first, hfirst, hfiles⟩ := hbatch.exactlyOnce
      refine ⟨first ++ opened, ?_, ?_⟩
      · have hcons : records ((n, d) :: ds) = d ++ records ds := rfl
        rw [hcons, List.append_assoc, hrec, ← List.append_assoc, hfirst, List.flatten_append, List.append_assoc]
      · rw [List.append_assoc]
        exact hfiles.trans (hperm.append_left first)

theorem Delivered.append (h : Delivered b ds b₁) (h' : Delivered b₁ es b') : Delivered b (ds ++ es) b' := by
  induction h with
  | nil => exact h'
  | cons hbatch _ ih => exact .cons hbatch (ih h')

theorem records_append (ds es : List (ℕ × List α)) : records (ds ++ es) = records ds ++ records es := by
  rw [records, List.map_append, List.flatten_append, records, records]

theorem positive_cons (n : ℕ) (d : List α) (ds : List (ℕ × List α)) :
    positive ((n, d) :: ds) = (if 0 < n then 1 else 0) + positive ds := by
  rw [positive, positive]
  split_ifs with hn
  · rw [List.filter_cons_of_pos (by simpa using hn), List.length_cons, Nat.add_comm]
  · rw [List.filter_cons_of_neg (by simpa using hn), Nat.zero_add]

theorem positive_append (ds es : List (ℕ × List α)) : positive (ds ++ es) = positive ds + positive es := by
  rw [positive, List.filter_append, List.length_append, positive, positive]

theorem weight_some (recs : List α) (files : List (List α)) :
    weight ⟨some recs, files⟩ = max 1 recs.length + weight ⟨none, files⟩ := by
  rw [weight, Option.toList_some, List.singleton_append, List.map_cons, List.sum_cons]
  rfl

theorem weight_none_perm (hperm : files.Perm (d :: rest)) :
    weight ⟨none, files⟩ = weight ⟨some d, rest⟩ := (hperm.map _).sum_eq

theorem weight_put (recs : List α) (files : List (List α)) :
    weight ⟨put recs, files⟩ = recs.length + weight ⟨none, files⟩ := by
  rw [put]
  split_ifs with h
  · rw [h, List.length_nil, Nat.zero_add]
  · have hpos := List.length_pos_iff.mpr h
    rw [weight_some, max_eq_right hpos]

/-- **Progress:** a request for a record makes the backlog smaller, as long as there is one. -/
theorem Batch.progress (h : Batch n b d b') :
    b'.weight ≤ b.weight ∧ (0 < n → b'.weight < b.weight ∨ b'.weight = 0) := by
  induction h with
  | @take recs files hne =>
      have hpos := List.length_pos_iff.mpr hne
      rw [weight_put, weight_some, List.length_drop]
      omega
  | idle h0 => exact ⟨le_rfl, fun hn => absurd h0 (Nat.pos_iff_ne_zero.mp hn)⟩
  | @skip files rest f _ hperm =>
      rw [weight_some [], ← weight_none_perm hperm, List.length_nil]
      omega
  | skipLast _ => exact ⟨Nat.zero_le _, fun _ => Or.inr rfl⟩
  | next hperm _ ih =>
      rw [weight_none_perm hperm]
      exact ih
  | none => exact ⟨le_rfl, fun _ => Or.inr rfl⟩

theorem eq_nil_of_weight (h : b.weight = 0) : b = ⟨none, []⟩ := by
  obtain ⟨opened, files⟩ := b
  cases opened with
  | some recs =>
      rw [weight_some] at h
      omega
  | none =>
      cases files with
      | nil => rfl
      | cons f files =>
          rw [weight_none_perm (List.Perm.refl _), weight_some] at h
          omega

/-- **Enough requests for a record deliver everything.** -/
theorem Delivered.complete (h : Delivered b ds b') (hmany : b.weight ≤ positive ds) : b' = ⟨none, []⟩ := by
  induction h with
  | nil => exact eq_nil_of_weight (Nat.le_zero.mp hmany)
  | @cons b b₁ b' n d ds hbatch _ ih =>
      refine ih ?_
      obtain ⟨hle, hless⟩ := hbatch.progress
      have hpos := positive_cons n d ds
      by_cases hn : 0 < n
      · rw [if_pos hn] at hpos
        have hless := hless hn
        omega
      · rw [if_neg hn] at hpos
        omega

end Once

end Backlog
end TsbAgent
