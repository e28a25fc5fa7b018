/-
# Lines

A text over any alphabet, cut behind every separator.  `rawLines` are its lines with their separators;
only the last one may be without (`IsLine`).  `readLine` takes a line for a buffer of `n` places, which
is the line or its first `n` letters (`readLine_append`); what is left of it is the next line
(`IsLine.drop`).
-/

import Mathlib.Data.List.TakeWhile
import Mathlib.Tactic.Common

namespace TsbAgent
namespace Lines

variable {α : Type*} [DecidableEq α] (nl : α)

/-- The lines of a text, each with its separator. -/
def rawLines : List α → List (List α)
  | [] => []
  | b :: bs =>
      if b = nl then [b] :: rawLines bs
      else
        match rawLines bs with
        | [] => [[b]]
        | u :: us => (b :: u) :: us

/-- A line without its separator. -/
def lineOf (u : List α) : List α := u.takeWhile (· ≠ nl)

/-- The lines of a text. -/
def lines (text : List α) : List (List α) := (rawLines nl text).map (lineOf nl)

/-- What goes into `n` places, up to a separator, and what is left. -/
def readLine : ℕ → List α → List α × List α
  | 0, text => ([], text)
  | _ + 1, [] => ([], [])
  | n + 1, b :: text =>
      if b = nl then ([b], text)
      else
        let r := readLine n text
        (b :: r.1, r.2)

/-- A line at the head of a text: its separator ends it, or the text does. -/
inductive IsLine : List α → List α → Prop
  | ended {l tail : List α} : nl ∉ l → IsLine (l ++ [nl]) tail
  | last {l : List α} : nl ∉ l → l ≠ [] → IsLine l []

variable {nl} {u tail text l : List α} {n : ℕ}

omit [DecidableEq α] in
theorem IsLine.ne_nil (h : IsLine nl u tail) : u ≠ [] := by
  cases h with
  | ended _ => exact List.append_ne_nil_of_right_ne_nil _ (List.cons_ne_nil _ _)
  | last _ hne => exact hne

theorem rawLines_ended (h : nl ∉ l) : rawLines nl (l ++ nl :: tail) = (l ++ [nl]) :: rawLines nl tail := by
  induction l with
  | nil => rw [List.nil_append, rawLines, if_pos rfl, List.nil_append]
  | cons b l ih =>
      obtain ⟨hb, hl⟩ := not_or.mp fun hor => h (List.mem_cons.mpr hor)
      rw [List.cons_append, rawLines, if_neg (Ne.symm hb), ih hl]
      rfl

theorem rawLines_last (h : nl ∉ l) (hne : l ≠ []) : rawLines nl l = [l] := by
  induction l with
  | nil => exact absurd rfl hne
  | cons b l ih =>
      obtain ⟨hb, hl⟩ := not_or.mp fun hor => h (List.mem_cons.mpr hor)
      rw [rawLines, if_neg (Ne.symm hb)]
      cases l with
      | nil => rfl
      | cons c l => rw [ih hl (List.cons_ne_nil _ _)]

/-- **The first line.** -/
theorem rawLines_append (h : IsLine nl u tail) : rawLines nl (u ++ tail) = u :: rawLines nl tail := by
  cases h with
  | ended hl => rw [List.append_assoc, List.singleton_append, rawLines_ended hl]
  | last hl hne => rw [List.append_nil, rawLines_last hl hne, rawLines]

omit [DecidableEq α] in
/-- A text that is not empty has one. -/
theorem exists_isLine (nl : α) {text : List α} (h : text ≠ []) :
    ∃ u tail, text = u ++ tail ∧ IsLine nl u tail := by
  induction text with
  | nil => exact absurd rfl h
  | cons b text ih =>
      rcases eq_or_ne b nl with rfl | hb
      · exact ⟨[] ++ [b], text, rfl, .ended List.not_mem_nil⟩
      rcases eq_or_ne text [] with rfl | hne
      · exact ⟨[b], [], rfl, .last (fun hmem => hb (List.mem_singleton.mp hmem).symm) (List.cons_ne_nil _ _)⟩
      obtain ⟨u, tail, rfl, hu⟩ := ih hne
      refine ⟨b :: u, tail, rfl, ?_⟩
      cases hu with
      | @ended l _ hl => exact .ended (l := b :: l) (List.not_mem_cons_of_ne_of_not_mem (Ne.symm hb) hl)
      | last hl _ => exact .last (List.not_mem_cons_of_ne_of_not_mem (Ne.symm hb) hl) (List.cons_ne_nil _ _)

omit [DecidableEq α] in
/-- Induction on the lines of a text. -/
theorem text_induction (nl : α) {P : List α → Prop} (nil : P [])
    (line : ∀ u tail, IsLine nl u tail → P tail → P (u ++ tail)) (text : List α) : P text := by
  induction hlen : text.length using Nat.strongRecOn generalizing text with
  | ind k ih =>
      rcases eq_or_ne text [] with rfl | hne
      · exact nil
      obtain ⟨u, tail, rfl, hu⟩ := exists_isLine nl hne
      have hpos := List.length_pos_iff.mpr hu.ne_nil
      rw [List.length_append] at hlen
      exact line u tail hu (ih tail.length (by omega) tail rfl)

theorem lineOf_ended (h : nl ∉ l) : lineOf nl (l ++ [nl]) = l := by
  have hall : ∀ b ∈ l, decide (b ≠ nl) = true := fun b hb => decide_eq_true fun heq => h (heq ▸ hb)
  rw [lineOf, List.takeWhile_append_of_pos hall, List.takeWhile_cons_of_neg (by simp), List.append_nil]

theorem lineOf_last (h : nl ∉ u) : lineOf nl u = u :=
  List.takeWhile_eq_self_iff.mpr fun _ hb => decide_eq_true fun heq => h (heq ▸ hb)

/-- A line has its separator behind it, or none at all. -/
theorem eq_of_mem_rawLines (h : u ∈ rawLines nl text) :
    u = lineOf nl u ++ [nl] ∨ (u = lineOf nl u ∧ nl ∉ u ∧ u ≠ []) := by
  induction text using text_induction nl with
  | nil => exact absurd h List.not_mem_nil
  | line v tail hv ih =>
      rw [rawLines_append hv, List.mem_cons] at h
      rcases h with rfl | h
      · cases hv with
        | ended hl => exact .inl (by rw [lineOf_ended hl])
        | last hl hne => exact .inr ⟨(lineOf_last hl).symm, hl, hne⟩
      · exact ih h

/-- The lines have the letters of the text. -/
theorem mem_of_mem_rawLines {b : α} (h : u ∈ rawLines nl text) (hb : b ∈ u) : b ∈ text := by
  induction text using text_induction nl with
  | nil => exact absurd h List.not_mem_nil
  | line v tail hv ih =>
      rw [rawLines_append hv, List.mem_cons] at h
      rcases h with rfl | h
      · exact List.mem_append_left _ hb
      · exact List.mem_append_right _ (ih h)

/-- One line at most has no separator. -/
theorem eq_of_separator_notMem {v : List α} (hu : u ∈ rawLines nl text) (hv : v ∈ rawLines nl text)
    (hnu : nl ∉ u) (hnv : nl ∉ v) : u = v := by
  induction text using text_induction nl with
  | nil => exact absurd hu List.not_mem_nil
  | line t tail ht ih =>
      rw [rawLines_append ht, List.mem_cons] at hu hv
      cases ht with
      | @ended l _ _ =>
          have hmem : nl ∈ l ++ [nl] := List.mem_append_right _ List.mem_cons_self
          exact ih (hu.resolve_left fun h => hnu (h ▸ hmem)) (hv.resolve_left fun h => hnv (h ▸ hmem))
      | last _ _ => exact (hu.resolve_right List.not_mem_nil).trans (hv.resolve_right List.not_mem_nil).symm

/-- **Reading for a buffer** takes of the first line what goes in. -/
theorem readLine_append (h : IsLine nl u tail) : readLine nl n (u ++ tail) = (u.take n, u.drop n ++ tail) := by
  cases h with
  | @ended l _ hl =>
      induction l generalizing n with
      | nil =>
          cases n with
          | zero => rfl
          | succ n =>
              rw [List.nil_append, List.singleton_append, readLine, if_pos rfl, List.take_succ_cons,
                List.take_nil, List.drop_succ_cons, List.drop_nil, List.nil_append]
      | cons b l ih =>
          obtain ⟨hb, hl'⟩ := not_or.mp fun hor => hl (List.mem_cons.mpr hor)
          cases n with
          | zero => rfl
          | succ n =>
              rw [List.cons_append, List.cons_append, readLine, if_neg (Ne.symm hb), ih hl']
              rfl
  | last hl hne =>
      clear hne
      rw [List.append_nil, List.append_nil]
      induction u generalizing n with
      | nil => cases n <;> rfl
      | cons b l ih =>
          obtain ⟨hb, hl'⟩ := not_or.mp fun hor => hl (List.mem_cons.mpr hor)
          cases n with
          | zero => rfl
          | succ n =>
              rw [readLine, if_neg (Ne.symm hb), ih hl']
              rfl

omit [DecidableEq α] in
/-- What is left of a line is a line. -/
theorem IsLine.drop (h : IsLine nl u tail) (hn : n < u.length) : IsLine nl (u.drop n) tail := by
  cases h with
  | @ended l _ hl =>
      rw [List.length_append, List.length_singleton] at hn
      rw [List.drop_append_of_le_length (by omega)]
      exact .ended fun hmem => hl (List.mem_of_mem_drop hmem)
  | last hl _ =>
      refine .last (fun hmem => hl (List.mem_of_mem_drop hmem)) fun hnil => ?_
      have hle := List.drop_eq_nil_iff.mp hnil
      omega

end Lines
end TsbAgent
