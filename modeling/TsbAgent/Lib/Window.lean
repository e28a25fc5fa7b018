/-
# Reading records through a window

A file of records is read in pieces into a window of `n` bytes.  After every piece the
complete records at the start of the window are worked off, one by one, and what is left is
moved to the front:

```
while (offset < size) {
        got = read (file, buff + remain, n - remain);
        if (got <= 0) break;
        remain += got;
        while (remain > header && record complete)  work it off;
        move the rest to the front;
}
```

The size of a record is in its first `header` bytes.  However the file is cut into pieces, the
records that are worked off are the same (`loop_eq`): those before the first one that is not
complete in the file or longer than the window (`Records`).
-/

import TsbAgent.Lib.Libc
import Mathlib.Algebra.Order.Ring.Nat

namespace TsbAgent
namespace Window

open Libc

section Definitions

variable {τ : Type*} (header n : ℕ) (size : Bytes → ℕ) (item : Bytes → τ → Option τ)

/-- The inner loop: the complete records at the start of the window. -/
def workOff : ℕ → Bytes → τ → Option (Bytes × τ)
  | 0, buff, w => some (buff, w)
  | fuel + 1, buff, w =>
      if buff.length ≤ header then some (buff, w)
      else if buff.length < size buff then some (buff, w)
      else (item buff w).bind fun w => workOff fuel (buff.drop (size buff)) w

/-- A read of at most `count` bytes; a short read still gets one. -/
def readSome (short count : ℕ) (file : Bytes) : Bytes := file.take (min count (max 1 short))

/-- The outer loop, until the end of the file or a read of nothing. -/
def loop (reads : ℕ → ℕ) : ℕ → Bytes → Bytes → τ → Option τ
  | 0, _, _, w => some w
  | fuel + 1, buff, file, w =>
      if file = [] then some w
      else
        let got := readSome (reads fuel) (n - buff.length) file
        if got = [] then some w
        else
          (workOff header size item (buff ++ got).length (buff ++ got) w).bind fun r =>
            loop reads fuel r.1 (file.drop got.length) r.2

/-- The outer loop without a bound on its passes: `Exits reads buff file w w'` when the loop, with
the reads `reads 0`, `reads 1`, …, comes to its end and leaves `w'`. -/
inductive Exits : (ℕ → ℕ) → Bytes → Bytes → τ → τ → Prop
  | eof {reads : ℕ → ℕ} {buff : Bytes} {w : τ} : Exits reads buff [] w w
  | nothing {reads : ℕ → ℕ} {buff file : Bytes} {w : τ} : file ≠ [] →
      readSome (reads 0) (n - buff.length) file = [] → Exits reads buff file w w
  | pass {reads : ℕ → ℕ} {buff file : Bytes} {w w' : τ} {r : Bytes × τ} : file ≠ [] →
      readSome (reads 0) (n - buff.length) file ≠ [] →
      workOff header size item (buff ++ readSome (reads 0) (n - buff.length) file).length
        (buff ++ readSome (reads 0) (n - buff.length) file) w = some r →
      Exits (fun k => reads (k + 1)) r.1
        (file.drop (readSome (reads 0) (n - buff.length) file).length) r.2 w' →
      Exits reads buff file w w'

/-- The records one after the other, as if the whole file were in the window. -/
def workAll : List Bytes → τ → Option τ
  | [], w => some w
  | p :: ps, w => (item p w).bind fun w => workAll ps w

/-- There is no record at `s` that is complete and fits in the window. -/
def Ends (s : Bytes) : Prop := s.length ≤ header ∨ s.length < size s ∨ n < size s

/-- The records of a file up to the first that is not complete or does not fit, each with what
follows it. -/
inductive Records : Bytes → List Bytes → Prop
  | nil {s : Bytes} : Ends header n size s → Records s []
  | cons {s : Bytes} {ps : List Bytes} : ¬ Ends header n size s → Records (s.drop (size s)) ps → Records s (s :: ps)

/-- What the loop relies on: a record is longer than its header, its size is in the header, and
it is worked off without a look at what follows. -/
structure Framed : Prop where
  header_lt : ∀ p, header < size p
  size_append : ∀ p r, header ≤ p.length → size (p ++ r) = size p
  item_append : ∀ p r w, size p ≤ p.length → item (p ++ r) w = item p w

end Definitions

variable {τ : Type*} {header n fuel : ℕ} {size : Bytes → ℕ} {item : Bytes → τ → Option τ}
  {buff file s : Bytes} {ps : List Bytes} {w : τ}

theorem Records.of_not_ends (h : Records header n size s ps) (hne : ¬ Ends header n size s) :
    ∃ ps', ps = s :: ps' ∧ Records header n size (s.drop (size s)) ps' := by
  cases h with
  | nil hend => exact absurd hend hne
  | cons _ hrest => exact ⟨_, rfl, hrest⟩

theorem Records.of_ends (h : Records header n size s ps) (hend : Ends header n size s) : ps = [] := by
  cases h with
  | nil _ => rfl
  | cons hne _ => exact absurd hend hne

/-- The window holds no complete record. -/
def Stuck (header : ℕ) (size : Bytes → ℕ) (buff : Bytes) : Prop :=
  buff.length ≤ header ∨ buff.length < size buff

/-- **The inner loop works off complete records of the file.** -/
theorem workOff_spec (hf : Framed header size item) (hrec : Records header n size (buff ++ file) ps)
    (hfuel : buff.length ≤ fuel) (hn : buff.length ≤ n) :
    (workOff header size item fuel buff w = none → workAll item ps w = none) ∧
      ∀ r, workOff header size item fuel buff w = some r →
        ∃ ps', Records header n size (r.1 ++ file) ps' ∧ workAll item ps w = workAll item ps' r.2 ∧
          r.1.length ≤ buff.length ∧ Stuck header size r.1 := by
  induction fuel generalizing w buff ps with
  | zero =>
      refine ⟨fun h => absurd h (Option.some_ne_none _), fun r hr => ?_⟩
      obtain rfl := Option.some.inj hr
      exact ⟨ps, hrec, rfl, le_rfl, Or.inl (show buff.length ≤ header by omega)⟩
  | succ fuel ih =>
      by_cases hst : Stuck header size buff
      · have hstop : workOff header size item (fuel + 1) buff w = some (buff, w) := by
          rcases hst with hle | hlt
          · rw [workOff, if_pos hle]
          · rw [workOff, if_pos hlt, ite_self]
        rw [hstop]
        refine ⟨fun h => absurd h (Option.some_ne_none _), fun r hr => ?_⟩
        obtain rfl := Option.some.inj hr
        exact ⟨ps, hrec, rfl, le_rfl, hst⟩
      · obtain ⟨hle, hge⟩ := not_or.mp hst
        have hsize : size (buff ++ file) = size buff := hf.size_append buff file (by omega)
        have hpos := hf.header_lt buff
        have hne : ¬ Ends header n size (buff ++ file) := by
          rw [Ends, hsize, List.length_append]
          omega
        obtain ⟨ps', rfl, hrest⟩ := hrec.of_not_ends hne
        rw [hsize, List.drop_append_of_le_length (by omega)] at hrest
        have hdrop : (buff.drop (size buff)).length = buff.length - size buff := List.length_drop
        rw [workAll, hf.item_append buff file w (by omega), workOff, if_neg hle, if_neg hge]
        cases item buff w with
        | none => exact ⟨fun _ => rfl, fun r hr => absurd hr.symm (Option.some_ne_none _)⟩
        | some w₁ =>
            rw [Option.bind_some, Option.bind_some]
            obtain ⟨hnone, hsome⟩ := @ih (buff.drop (size buff)) ps' w₁ hrest (by omega) (by omega)
            refine ⟨hnone, fun r hr => ?_⟩
            obtain ⟨ps₁, h₁, h₂, h₃, h₄⟩ := hsome r hr
            exact ⟨ps₁, h₁, h₂, by omega, h₄⟩

/-- With the file at its end or the window full, nothing more can be read. -/
theorem records_of_stuck (hf : Framed header size item) (hrec : Records header n size (buff ++ file) ps)
    (hst : Stuck header size buff) (hend : file = [] ∨ n ≤ buff.length) (hheader : header ≤ n) : ps = [] := by
  refine hrec.of_ends ?_
  rcases hend with rfl | hfull
  · rw [List.append_nil]
    rcases hst with hle | hlt
    · exact .inl hle
    · exact .inr (.inl hlt)
  · have hsize : size (buff ++ file) = size buff := hf.size_append buff file (by omega)
    have hpos := hf.header_lt buff
    rw [Ends, hsize]
    rcases hst with hle | hlt
    · exact .inr (.inr (by omega))
    · exact .inr (.inr (by omega))

theorem loop_spec (hf : Framed header size item) (hheader : header ≤ n) (reads : ℕ → ℕ)
    (hrec : Records header n size (buff ++ file) ps) (hfuel : file.length ≤ fuel) (hn : buff.length ≤ n)
    (hst : Stuck header size buff) :
    loop header n size item reads fuel buff file w = workAll item ps w := by
  induction fuel generalizing buff file w ps with
  | zero =>
      have hnil : file = [] := List.length_eq_zero_iff.mp (Nat.le_zero.mp hfuel)
      rw [records_of_stuck hf hrec hst (Or.inl hnil) hheader]
      rfl
  | succ fuel ih =>
      rw [loop]
      by_cases hnil : file = []
      · rw [if_pos hnil, records_of_stuck hf hrec hst (Or.inl hnil) hheader]
        rfl
      rw [if_neg hnil]
      have hpos : 0 < file.length := List.length_pos_iff.mpr hnil
      have hgot : (readSome (reads fuel) (n - buff.length) file).length =
          min (min (n - buff.length) (max 1 (reads fuel))) file.length := List.length_take
      have htake : readSome (reads fuel) (n - buff.length) file <+: file := List.take_prefix _ _
      by_cases hzero : readSome (reads fuel) (n - buff.length) file = []
      · rw [hzero, List.length_nil] at hgot
        have hfull : n ≤ buff.length := by omega
        simp only [hzero, if_true]
        rw [records_of_stuck hf hrec hst (Or.inr hfull) hheader]
        rfl
      · have hgpos := List.length_pos_iff.mpr hzero
        simp only [hzero, if_false]
        generalize readSome (reads fuel) (n - buff.length) file = got at hgot hgpos htake ⊢
        obtain ⟨rest, hrest⟩ := htake
        have hdrop : file.drop got.length = rest := by
          rw [← hrest, List.drop_left]
        have hlen : got.length + rest.length = file.length := by
          rw [← hrest, List.length_append]
        have hwin : (buff ++ got).length = buff.length + got.length := List.length_append
        rw [← hrest, ← List.append_assoc] at hrec
        rw [hdrop]
        obtain ⟨hnone, hsome⟩ := @workOff_spec τ header n _ size item (buff ++ got) rest ps w hf hrec le_rfl (by omega)
        cases hw : workOff header size item (buff ++ got).length (buff ++ got) w with
        | none =>
            rw [hnone hw]
            rfl
        | some r =>
            obtain ⟨ps', hrec', heq, hle, hst'⟩ := hsome r hw
            rw [heq]
            exact ih hrec' (by omega) (by omega) hst'

/-- **The records are worked off one after the other,** for every pattern of short reads. -/
theorem loop_eq (hf : Framed header size item) (hheader : header ≤ n) (reads : ℕ → ℕ)
    (hrec : Records header n size file ps) :
    loop header n size item reads file.length [] file w = workAll item ps w :=
  loop_spec hf hheader reads hrec le_rfl (Nat.zero_le _) (Or.inl (Nat.zero_le _))

/-! ### The loop comes to its end -/

/-- A pass reads at least one byte, so that the bound `file.length` on the passes is not met: what
`loop` gives, the loop without a bound gives. -/
theorem exits_of_loop {stream reads : ℕ → ℕ} {w' : τ} (hfuel : file.length ≤ fuel)
    (hreads : ∀ j < fuel, reads j = stream (fuel - 1 - j))
    (hw : loop header n size item reads fuel buff file w = some w') :
    Exits header n size item stream buff file w w' := by
  induction fuel generalizing stream buff file w with
  | zero =>
      obtain rfl := List.length_eq_zero_iff.mp (Nat.le_zero.mp hfuel)
      obtain rfl := Option.some.inj hw
      exact .eof
  | succ fuel ih =>
      have hnow : reads fuel = stream 0 := by
        rw [hreads fuel (Nat.lt_succ_self _)]
        congr 1
        omega
      rw [loop, hnow] at hw
      by_cases hnil : file = []
      · rw [if_pos hnil] at hw
        obtain rfl := Option.some.inj hw
        exact hnil ▸ .eof
      rw [if_neg hnil] at hw
      by_cases hzero : readSome (stream 0) (n - buff.length) file = []
      · rw [if_pos hzero] at hw
        obtain rfl := Option.some.inj hw
        exact .nothing hnil hzero
      · rw [if_neg hzero] at hw
        obtain ⟨r, hr, hrest⟩ := Option.bind_eq_some_iff.mp hw
        refine .pass hnil hzero hr (ih ?_ (fun j hj => ?_) hrest)
        · have hpos := List.length_pos_iff.mpr hzero
          rw [List.length_drop]
          omega
        · rw [hreads j (by omega)]
          congr 1
          omega

/-- The loop ends in one way only. -/
theorem Exits.unique {reads : ℕ → ℕ} {w₁ w₂ : τ} (h₁ : Exits header n size item reads buff file w w₁)
    (h₂ : Exits header n size item reads buff file w w₂) : w₁ = w₂ := by
  induction h₁ with
  | eof =>
      cases h₂ with
      | eof => rfl
      | nothing hne _ => exact absurd rfl hne
      | pass hne _ _ _ => exact absurd rfl hne
  | nothing hne hzero =>
      cases h₂ with
      | eof => exact absurd rfl hne
      | nothing _ _ => rfl
      | pass _ hgot _ _ => exact absurd hzero hgot
  | pass hne hgot hr _ ih =>
      cases h₂ with
      | eof => exact absurd rfl hne
      | nothing _ hzero => exact absurd hzero hgot
      | pass _ _ hr' hrest =>
          obtain rfl := Option.some.inj (hr.symm.trans hr')
          exact ih hrest

/-- A file of complete records that fit in the window, one after the other. -/
theorem records_flatten (hf : Framed header size item) {rs : List Bytes}
    (hrs : ∀ r ∈ rs, r.length = size r ∧ size r ≤ n) :
    ∃ ps, Records header n size rs.flatten ps ∧ ∀ w, workAll item ps w = workAll item rs w := by
  induction rs with
  | nil => exact ⟨[], .nil (.inl (Nat.zero_le _)), fun _ => rfl⟩
  | cons r rs ih =>
      obtain ⟨hlen, hn⟩ := hrs r List.mem_cons_self
      obtain ⟨ps, hrec, hall⟩ := ih fun q hq => hrs q (List.mem_cons_of_mem _ hq)
      have hlt := hf.header_lt r
      have hsize : size (r ++ rs.flatten) = size r := hf.size_append _ _ (by omega)
      rw [List.flatten_cons]
      refine ⟨(r ++ rs.flatten) :: ps, .cons ?_ ?_, fun w => ?_⟩
      · rw [Ends, hsize, List.length_append]
        omega
      · rwa [hsize, ← hlen, List.drop_left]
      · rw [workAll, workAll, hf.item_append _ _ _ hlen.ge]
        simp only [hall]

/-- **The loop ends with all the records worked off,** for every pattern of short reads. -/
theorem exits_flatten (hf : Framed header size item) (hheader : header ≤ n) (reads : ℕ → ℕ)
    {rs : List Bytes} (hrs : ∀ r ∈ rs, r.length = size r ∧ size r ≤ n) {w' : τ}
    (hw : workAll item rs w = some w') : Exits header n size item reads [] rs.flatten w w' := by
  obtain ⟨ps, hrec, hall⟩ := records_flatten hf hrs
  have hloop : loop header n size item (fun j => reads (rs.flatten.length - 1 - j)) rs.flatten.length []
      rs.flatten w = some w' := (loop_eq hf hheader _ hrec).trans ((hall w).trans hw)
  exact exits_of_loop le_rfl (fun _ _ => rfl) hloop

end Window
end TsbAgent
