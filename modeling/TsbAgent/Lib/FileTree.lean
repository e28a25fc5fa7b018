/-
# Trees of files

A tree is the list of its paths with what lies there, a directory or a file; the first entry for a path
counts.  `remove` is `rm -r`, `below` lists what an archive of a directory holds, and `extract` unpacks it.
What an operation does is said by `lookup` alone: what is under a path that is removed is gone, and what is
unpacked where nothing was is what had been packed (`lookup_extract`, `lookup_below`).

`components` cuts the name of a file at its slashes; repeated slashes and one at the end do not count.
-/

import TsbAgent.Lib.Libc
import Mathlib.Data.List.Infix
import Mathlib.Algebra.Order.Ring.Nat

namespace TsbAgent
namespace FileTree

open Libc

/-! ### Names -/

/-- The pieces between slashes; `piece` is what has been read of the first. -/
def cutSlashes (piece : Bytes) : Bytes → List Bytes
  | [] => [piece]
  | c :: s => if c = 47 then piece :: cutSlashes [] s else cutSlashes (piece ++ [c]) s

/-- The directories on the way and the last name. -/
def components (s : Bytes) : List Bytes := (cutSlashes [] s).filter (· ≠ [])

theorem cutSlashes_append (piece a b : Bytes) :
    cutSlashes piece (a ++ 47 :: b) = cutSlashes piece a ++ cutSlashes [] b := by
  induction a generalizing piece with
  | nil => rfl
  | cons c a ih =>
      rw [List.cons_append, cutSlashes, cutSlashes]
      by_cases hc : c = 47
      · rw [if_pos hc, if_pos hc, ih, List.cons_append]
      · rw [if_neg hc, if_neg hc, ih]

theorem cutSlashes_of_notMem {piece s : Bytes} (h : (47 : UInt8) ∉ s) : cutSlashes piece s = [piece ++ s] := by
  induction s generalizing piece with
  | nil => rw [cutSlashes, List.append_nil]
  | cons c s ih =>
      rw [List.mem_cons, not_or] at h
      rw [cutSlashes, if_neg fun hc => h.1 hc.symm, ih h.2, List.append_assoc, List.singleton_append]

/-- Names after one another, the first with a slash at its end. -/
theorem components_append (a b : Bytes) : components (a ++ 47 :: b) = components a ++ components b := by
  rw [components, cutSlashes_append, List.filter_append]
  rfl

theorem components_of_notMem {s : Bytes} (h : (47 : UInt8) ∉ s) (hne : s ≠ []) : components s = [s] := by
  rw [components, cutSlashes_of_notMem h, List.nil_append]
  exact List.filter_cons_of_pos (decide_eq_true hne)

/-- The same with the slash in the first. -/
theorem components_slash {a b : Bytes} (h : ∃ s, a = s ++ [47]) :
    components (a ++ b) = components a ++ components b := by
  obtain ⟨s, rfl⟩ := h
  have hs : components (s ++ [47]) = components s := by
    rw [components_append]
    exact List.append_nil _
  rw [hs, List.append_assoc, List.singleton_append, components_append]

theorem filter_cutSlashes_ne_nil {piece : Bytes} (h : piece ≠ []) (s : Bytes) :
    (cutSlashes piece s).filter (· ≠ []) ≠ [] := by
  induction s generalizing piece with
  | nil => exact List.ne_nil_of_mem (List.mem_filter.mpr ⟨List.mem_cons_self, decide_eq_true h⟩)
  | cons c s ih =>
      rw [cutSlashes]
      by_cases hc : c = 47
      · rw [if_pos hc]
        exact List.ne_nil_of_mem (List.mem_filter.mpr ⟨List.mem_cons_self, decide_eq_true h⟩)
      · rw [if_neg hc]
        exact ih (List.append_ne_nil_of_right_ne_nil _ (List.cons_ne_nil _ _))

/-- A name that does not start with a slash has a component. -/
theorem components_ne_nil {c : UInt8} (h : c ≠ 47) (s : Bytes) : components (c :: s) ≠ [] := by
  rw [components, cutSlashes, if_neg h]
  exact filter_cutSlashes_ne_nil (List.cons_ne_nil _ _) s

theorem components_cons_slash (s : Bytes) : components (47 :: s) = components s := components_append [] s

/-- A name that is not all slashes has a component. -/
theorem components_ne_nil_of_mem {s : Bytes} {c : UInt8} (hc : c ∈ s) (h : c ≠ 47) : components s ≠ [] := by
  induction s with
  | nil => exact absurd hc List.not_mem_nil
  | cons x s ih =>
      by_cases hx : x = 47
      · rw [hx, components_cons_slash]
        exact ih ((List.mem_cons.mp hc).resolve_left fun heq => h (heq.trans hx))
      · exact components_ne_nil hx s

/-- A name with something before it that starts a component. -/
theorem not_components_prefix {c : UInt8} {s name : Bytes} (hc : c ≠ 47) (hname : name ≠ [])
    (hslash : (47 : UInt8) ∉ name) : ¬ components (c :: s ++ name) <+: [name] := by
  intro hpre
  have hlen := hpre.length_le
  by_cases hs : (47 : UInt8) ∈ s
  · obtain ⟨s₁, s₂, rfl, -⟩ := List.eq_append_cons_of_mem hs
    obtain ⟨x, name, rfl⟩ := List.exists_cons_of_ne_nil hname
    have hx : x ≠ 47 := fun heq => hslash (heq ▸ List.mem_cons_self)
    have h1 := List.length_pos_iff.mpr (components_ne_nil hc s₁)
    have h2 := List.length_pos_iff.mpr (components_ne_nil_of_mem (s := s₂ ++ x :: name) (by simp) hx)
    rw [show c :: (s₁ ++ 47 :: s₂) ++ x :: name = (c :: s₁) ++ 47 :: (s₂ ++ x :: name) by simp,
      components_append, List.length_append] at hlen
    simp only [List.length_singleton] at hlen
    omega
  · have hall : (47 : UInt8) ∉ c :: s ++ name := by
      rw [List.mem_append, List.mem_cons]
      rintro ((h | h) | h)
      · exact hc h.symm
      · exact hs h
      · exact hslash h
    rw [components_of_notMem hall (List.cons_ne_nil _ _)] at hpre
    have heq := (List.cons_prefix_cons.mp hpre).1
    have hlen' := congrArg List.length heq
    rw [List.length_append, List.length_cons] at hlen'
    omega

theorem mem_of_mem_cutSlashes {piece s x : Bytes} (hx : x ∈ cutSlashes piece s) {c : UInt8} (hc : c ∈ x) :
    c ∈ piece ∨ c ∈ s := by
  induction s generalizing piece with
  | nil =>
      rw [cutSlashes, List.mem_singleton] at hx
      exact Or.inl (hx ▸ hc)
  | cons y s ih =>
      rw [cutSlashes] at hx
      by_cases hy : y = 47
      · rw [if_pos hy, List.mem_cons] at hx
        rcases hx with rfl | hx
        · exact Or.inl hc
        · exact Or.inr (List.mem_cons_of_mem _ ((ih hx).resolve_left List.not_mem_nil))
      · rw [if_neg hy] at hx
        rcases ih hx with h | h
        · rcases List.mem_append.mp h with h | h
          · exact Or.inl h
          · exact Or.inr (List.mem_cons.mpr (Or.inl (List.mem_singleton.mp h)))
        · exact Or.inr (List.mem_cons_of_mem _ h)

/-- The bytes of the components are bytes of the name. -/
theorem mem_of_mem_components {s x : Bytes} (hx : x ∈ components s) {c : UInt8} (hc : c ∈ x) : c ∈ s :=
  (mem_of_mem_cutSlashes (List.mem_filter.mp hx).1 hc).resolve_left List.not_mem_nil

/-! ### Trees -/

abbrev Path := List Bytes

inductive Node
  | dir
  | file (content : Bytes)
deriving DecidableEq

abbrev Tree := List (Path × Node)

/-- What lies at a path. -/
def lookup (t : Tree) (p : Path) : Option Node := (t.find? fun e => e.1 = p).map (·.2)

/-- `rm -r`. -/
def remove (t : Tree) (p : Path) : Tree := t.filter fun e => ¬ p <+: e.1

/-- A file or a directory is put at a path. -/
def put (t : Tree) (p : Path) (n : Node) : Tree := (p, n) :: t

/-- What lies under `d`, as far as `keep` says so, with the paths from there. -/
def below (t : Tree) (d : Path) (keep : Path → Bool) : Tree :=
  (t.filter fun e => d <+: e.1 ∧ keep (e.1.drop d.length) = true).map fun e => (e.1.drop d.length, e.2)

/-- The entries of an archive are unpacked in `d`. -/
def extract (t : Tree) (d : Path) (l : Tree) : Tree := (l.map fun e => (d ++ e.1, e.2)) ++ t

/-- `mkdir -p`: the directories on the way to `p`, and `p`, where nothing lies there yet. -/
def makeDirs (t : Tree) (p : Path) : Tree :=
  p.inits.tail.foldl (fun t q => if lookup t q = none then put t q .dir else t) t

section Lookup

variable {t l : Tree} {p q d : Path} {n : Node}

theorem lookup_cons (e : Path × Node) :
    lookup (e :: t) q = if e.1 = q then some e.2 else lookup t q := by
  rw [lookup, List.find?_cons]
  by_cases h : e.1 = q
  · rw [if_pos h, decide_eq_true h]
    rfl
  · rw [if_neg h, decide_eq_false h]
    rfl

theorem lookup_put : lookup (put t p n) q = if p = q then some n else lookup t q := lookup_cons (p, n)

/-- What is under a path that is removed is gone. -/
theorem lookup_remove_of_removed (h : p <+: q) : lookup (remove t p) q = none := by
  rw [lookup, Option.map_eq_none_iff, List.find?_eq_none]
  intro e he heq
  have hno := of_decide_eq_true (List.mem_filter.mp he).2
  exact hno (of_decide_eq_true heq ▸ h)

/-- The rest stays. -/
theorem lookup_remove_of_kept (h : ¬ p <+: q) : lookup (remove t p) q = lookup t q := by
  induction t with
  | nil => rfl
  | cons e t ih =>
      rw [remove, List.filter_cons]
      by_cases he : p <+: e.1
      · have hne : ¬ e.1 = q := fun heq => h (heq ▸ he)
        rw [if_neg (by simpa using he), lookup_cons, if_neg hne]
        exact ih
      · rw [if_pos (by simpa using he), lookup_cons, lookup_cons]
        exact congrArg _ ih

/-- What is there goes exactly when it lies under the path that is removed. -/
theorem lookup_remove_eq_none (hq : lookup t q ≠ none) : lookup (remove t p) q = none ↔ p <+: q := by
  constructor
  · intro hnone
    by_contra hno
    exact hq (lookup_remove_of_kept hno ▸ hnone)
  · exact lookup_remove_of_removed

theorem lookup_below (keep : Path → Bool) :
    lookup (below t d keep) q = if keep q = true then lookup t (d ++ q) else none := by
  induction t with
  | nil => simp [below, lookup]
  | cons e t ih =>
      rw [below, List.filter_cons, lookup_cons]
      by_cases he : d <+: e.1 ∧ keep (e.1.drop d.length) = true
      · obtain ⟨⟨r, hr⟩, hkeep⟩ := he
        have hdrop : e.1.drop d.length = r := by rw [← hr, List.drop_left]
        rw [if_pos (decide_eq_true ⟨⟨r, hr⟩, hkeep⟩), List.map_cons, lookup_cons, hdrop]
        have hiff : r = q ↔ e.1 = d ++ q := by rw [← hr, List.append_cancel_left_eq]
        by_cases hq : r = q
        · rw [if_pos hq, if_pos (hiff.mp hq), ← hq, ← hdrop, if_pos hkeep]
        · rw [if_neg hq, if_neg fun h => hq (hiff.mpr h)]
          exact ih
      · rw [if_neg (by simpa using he)]
        have hrest : lookup (below t d keep) q = if keep q = true then lookup t (d ++ q) else none := ih
        rw [below] at hrest
        rw [hrest]
        by_cases hkeep : keep q = true
        · have hne : ¬ e.1 = d ++ q := by
            intro heq
            refine he ⟨⟨q, heq.symm⟩, ?_⟩
            rw [heq, List.drop_left, hkeep]
          rw [if_pos hkeep, if_pos hkeep, if_neg hne]
        · rw [if_neg hkeep, if_neg hkeep]

/-- What is unpacked comes before what was there. -/
theorem lookup_extract : lookup (extract t d l) (d ++ q) = (lookup l q).or (lookup t (d ++ q)) := by
  induction l with
  | nil => rfl
  | cons e l ih =>
      rw [extract, List.map_cons, List.cons_append, lookup_cons, lookup_cons]
      by_cases he : e.1 = q
      · rw [if_pos he, if_pos (congrArg (d ++ ·) he)]
        rfl
      · rw [if_neg he, if_neg fun h => he (List.append_cancel_left h)]
        exact ih

theorem lookup_foldl_mkdir (ps : List Path) :
    lookup (ps.foldl (fun t q => if lookup t q = none then put t q .dir else t) t) q =
      if q ∈ ps ∧ lookup t q = none then some .dir else lookup t q := by
  induction ps generalizing t with
  | nil => rw [List.foldl_nil, if_neg fun h => absurd h.1 List.not_mem_nil]
  | cons p ps ih =>
      rw [List.foldl_cons, ih]
      by_cases hp : lookup t p = none
      · rw [if_pos hp, lookup_put]
        by_cases hpq : p = q
        · subst hpq
          rw [if_pos rfl, if_neg fun h => absurd h.2 (Option.some_ne_none _), if_pos ⟨List.mem_cons_self, hp⟩]
        · rw [if_neg hpq]
          simp only [List.mem_cons, Ne.symm hpq, false_or]
      · rw [if_neg hp]
        by_cases hpq : p = q
        · subst hpq
          rw [if_neg fun h => hp h.2, if_neg fun h => hp h.2]
        · simp only [List.mem_cons, Ne.symm hpq, false_or]

/-- Off the way nothing changes. -/
theorem lookup_makeDirs_of_not_prefix (h : ¬ q <+: p) : lookup (makeDirs t p) q = lookup t q := by
  rw [makeDirs, lookup_foldl_mkdir, if_neg]
  rintro ⟨hmem, -⟩
  exact h ((List.mem_inits _ _).mp (List.mem_of_mem_tail hmem))

theorem lookup_makeDirs_of_ne_none (h : lookup t q ≠ none) : lookup (makeDirs t p) q = lookup t q := by
  rw [makeDirs, lookup_foldl_mkdir, if_neg fun hq => h hq.2]

theorem lookup_makeDirs_self (hne : p ≠ []) (h : lookup t p = none) : lookup (makeDirs t p) p = some .dir := by
  rw [makeDirs, lookup_foldl_mkdir, if_pos]
  refine ⟨?_, h⟩
  cases p with
  | nil => exact absurd rfl hne
  | cons x p =>
      have hmem := (List.mem_inits (x :: p) (x :: p)).mpr (List.prefix_refl _)
      rw [List.inits_cons, List.mem_cons] at hmem
      exact hmem.resolve_left (List.cons_ne_nil x p)

end Lookup

end FileTree
end TsbAgent
