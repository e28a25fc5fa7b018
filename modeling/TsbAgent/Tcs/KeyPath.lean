/-
# Splitting a key path into names

`tcs_utils_analysis_keypath` of `tss-main/tcs/tcsapi/tcsu/tcs_key.c` with the areas that it fills, and what
`tcs_utils_tree_key_create_tcmlocked` and `tcs_utils_tree_key_achieve_tcmlocked` make of the names.  A key
path is `s://` or `p://` and names with slashes between them; what it returns in `TsbAgent.Tcs.KeyTree` is
what it returns here (`splitLoop_analysis`).

The scan looks at the last character and at a slash in one place.  Seen from the names (`splitParts`):

| the name | what happens | `*number` |
| --- | --- | --- |
| has a punctuation mark or a space | rejected | **not written** |
| is last, or a slash and more follow | stored, unless it is empty or has more than 128 characters | written |
| is before a slash at the end | **stored with the slash**, unless it is empty or has more than 127 | written |

`keypath_exact_iff` says for which paths nothing goes wrong; it also needs that the names fit in the array of
the caller, and that the directory under `HOME` fits in 128 bytes.
-/

import TsbAgent.Tcs.KeyTree

namespace TsbAgent
namespace KeyPath

open Libc Word KeyTree

/-! ### The scan -/

/-- `MAX_KEY_NAME_SIZE`. -/
def maxKeyNameSize : ℕ := 128

/-- The names that were stored, what was written to `*number`, and what is returned. -/
structure Split where
  names : List Bytes
  number : Option ℕ
  ret : ℤ
deriving DecidableEq

/-- A special symbol or a space. -/
def Forbidden (c : UInt8) : Prop := (isPunct c = true ∧ c ≠ 47) ∨ c = 32

instance (c : UInt8) : Decidable (Forbidden c) := inferInstanceAs (Decidable (_ ∨ _))

/-- The loop of `tcs_utils_analysis_keypath`, where `name` is the path from `j` to before `i`. -/
def splitLoop : Bytes → List Bytes → Bytes → Split
  | _, names, [] => ⟨names, some names.length, 0⟩
  | name, names, c :: rest =>
      if Forbidden c then ⟨names, none, tssErrParameter⟩
      else if c = 47 ∨ rest = [] then
        if rest = [] then
          if maxKeyNameSize < (name ++ [c]).length ∨ (name ++ [c]).head? = some 47 then
            ⟨names, some names.length, tssErrParameter⟩
          else splitLoop [] (names ++ [name ++ [c]]) rest
        else if name = [] ∨ maxKeyNameSize < name.length then ⟨names, some names.length, tssErrParameter⟩
        else splitLoop [] (names ++ [name]) rest
      else splitLoop (name ++ [c]) names rest

/-! ### The scan, name by name -/

/-- A name has no forbidden character. -/
def Clean (name : Bytes) : Prop := ∀ c ∈ name, ¬ Forbidden c

instance (name : Bytes) : Decidable (Clean name) := inferInstanceAs (Decidable (∀ c ∈ name, ¬ Forbidden c))

/-- What the loop does with the parts of the path. -/
def splitParts : List Bytes → List Bytes → Split
  | names, [] => ⟨names, some names.length, 0⟩
  | names, c :: rest =>
      if ¬ Clean c then ⟨names, none, tssErrParameter⟩
      else if rest = [[]] then
        if c = [] ∨ maxKeyNameSize ≤ c.length then ⟨names, some names.length, tssErrParameter⟩
        else ⟨names ++ [c ++ [47]], some (names.length + 1), 0⟩
      else if c = [] ∨ maxKeyNameSize < c.length then ⟨names, some names.length, tssErrParameter⟩
      else splitParts (names ++ [c]) rest

/-- Before the first slash a path is its first part. -/
theorem splitOn_append {p : Bytes} (hp : (47 : UInt8) ∉ p) (l : Bytes) :
    ∃ s t, (p ++ l).splitOn 47 = (p ++ s) :: t := by
  rcases em ((47 : UInt8) ∈ l) with hl | hl
  · obtain ⟨xs, as, rfl, hxs⟩ := List.eq_append_cons_of_mem hl
    refine ⟨xs, as.splitOn 47, ?_⟩
    rw [← List.append_assoc]
    exact List.splitOn_append_cons_self_of_not_mem (by simp [hp, hxs]) as
  · exact ⟨l, [], List.splitOn_eq_singleton (by simp [hp, hl])⟩

/-- Only the empty path has one part that is empty. -/
theorem splitOn_eq_nil {l : Bytes} (h : l.splitOn 47 = [[]]) : l = [] := by
  have hjoin : [47].intercalate (l.splitOn 47) = l := List.intercalate_splitOn 47
  rw [h] at hjoin
  exact hjoin.symm

/-- A slash at the end goes to the name before it. -/
theorem splitLoop_slash {name : Bytes} {names : List Bytes} (hslash : (47 : UInt8) ∉ name) (hclean : Clean name) :
    splitLoop name names [47] = splitParts names [name, []] := by
  have hlast : maxKeyNameSize < (name ++ [(47 : UInt8)]).length ∨ (name ++ [(47 : UInt8)]).head? = some 47 ↔
      name = [] ∨ maxKeyNameSize ≤ name.length := by
    rw [List.length_append, List.length_singleton, Nat.lt_add_one_iff, or_comm]
    refine or_congr_left ?_
    cases name with
    | nil => simp
    | cons x name => simpa using fun h : x = 47 => hslash (by simp [h])
  rw [splitLoop, if_neg (by decide), if_pos (.inl rfl), if_pos rfl, splitParts, if_neg (not_not.mpr hclean),
    if_pos rfl]
  rcases em (name = [] ∨ maxKeyNameSize ≤ name.length) with h | h
  · rw [if_pos h, if_pos (hlast.mpr h)]
  · rw [if_neg h, if_neg fun hl => h (hlast.mp hl), splitLoop, List.length_append, List.length_singleton]

/-- The last character of a path that ends in a name. -/
theorem splitLoop_last {name : Bytes} {names : List Bytes} {c : UInt8} (hslash : (47 : UInt8) ∉ name ++ [c])
    (hclean : Clean (name ++ [c])) : splitLoop name names [c] = splitParts names [name ++ [c]] := by
  have hc : ¬ Forbidden c := hclean c (by simp)
  have hhead : ¬ (name ++ [c]).head? = some 47 := fun h => hslash (List.mem_of_mem_head? h)
  have hne : ¬ name ++ [c] = [] := List.append_ne_nil_of_right_ne_nil _ (List.cons_ne_nil _ _)
  rw [splitLoop, if_neg hc, if_pos (.inr rfl), if_pos rfl, splitParts, if_neg (not_not.mpr hclean),
    if_neg (show ¬ ([] : List Bytes) = [[]] by simp)]
  rcases em (maxKeyNameSize < (name ++ [c]).length) with hlen | hlen
  · rw [if_pos (.inl hlen), if_pos (.inr hlen)]
  · rw [if_neg (not_or.mpr ⟨hlen, hhead⟩), if_neg (not_or.mpr ⟨hne, hlen⟩), splitLoop, splitParts]

/-- **The scan goes by the parts of the path.** -/
theorem splitLoop_eq {name rest : Bytes} {names : List Bytes} (hslash : (47 : UInt8) ∉ name) (hclean : Clean name)
    (hrest : rest ≠ []) : splitLoop name names rest = splitParts names ((name ++ rest).splitOn 47) := by
  induction rest generalizing name names with
  | nil => exact absurd rfl hrest
  | cons c rest ih =>
      have hone : name ++ c :: rest = name ++ [c] ++ rest := by rw [List.append_assoc, List.singleton_append]
      rcases em (Forbidden c) with hf | hf
      · -- the part that `c` is in is rejected
        have hc : c ≠ 47 := by
          rintro rfl
          exact absurd hf (by decide)
        obtain ⟨s, t, hst⟩ := splitOn_append (show (47 : UInt8) ∉ name ++ [c] by simp [hslash, Ne.symm hc]) rest
        rw [splitLoop, if_pos hf, hone, hst, splitParts, if_pos]
        exact fun h => h c (by simp) hf
      rcases eq_or_ne c 47 with rfl | hc
      · rw [List.splitOn_append_cons_self_of_not_mem hslash]
        rcases eq_or_ne rest [] with rfl | hne
        · exact splitLoop_slash hslash hclean
        rw [splitLoop, if_neg hf, if_pos (.inl rfl), if_neg hne, splitParts, if_neg (not_not.mpr hclean),
          if_neg fun h => hne (splitOn_eq_nil h)]
        rcases em (name = [] ∨ maxKeyNameSize < name.length) with h | h
        · rw [if_pos h, if_pos h]
        · rw [if_neg h, if_neg h]
          exact ih List.not_mem_nil (fun _ hx => absurd hx List.not_mem_nil) hne
      · have hslash' : (47 : UInt8) ∉ name ++ [c] := by simp [hslash, Ne.symm hc]
        have hclean' : Clean (name ++ [c]) := by
          intro x hx
          rcases List.mem_append.mp hx with hx | hx
          · exact hclean x hx
          · rw [List.mem_singleton.mp hx]
            exact hf
        rcases eq_or_ne rest [] with rfl | hne
        · rw [List.splitOn_eq_singleton hslash']
          exact splitLoop_last hslash' hclean'
        · rw [splitLoop, if_neg hf, if_neg (by simp [hc, hne]), hone]
          exact ih hslash' hclean' hne

/-! ### Names and paths -/

/-- A name: not empty, not too long, no punctuation and no space. -/
def IsName (c : Bytes) : Prop := c ≠ [] ∧ c.length ≤ maxKeyNameSize ∧ ∀ x ∈ c, isPunct x = false ∧ x ≠ 32

instance (c : Bytes) : Decidable (IsName c) := inferInstanceAs (Decidable (_ ∧ _ ∧ ∀ x ∈ c, _))

/-- Between slashes nothing but the forbidden characters is punctuation. -/
theorem isName_iff {c : Bytes} (h : (47 : UInt8) ∉ c) :
    IsName c ↔ c ≠ [] ∧ c.length ≤ maxKeyNameSize ∧ Clean c := by
  refine and_congr_right fun _ => and_congr_right fun _ => forall₂_congr fun x hx => ?_
  have hx : x ≠ 47 := fun h47 => h (h47 ▸ hx)
  rw [Forbidden, not_or, not_and_not_right, Bool.eq_false_iff]
  exact and_congr_left fun _ => ⟨fun hp hq => absurd hq hp, fun hp hq => hx (hp hq)⟩

theorem IsName.slash {c : Bytes} (h : IsName c) : (47 : UInt8) ∉ c :=
  fun h47 => absurd (h.2.2 47 h47).1 (by decide)

/-- The parts of a path have no slash. -/
theorem slash_notMem_of_mem_splitOn {l c : Bytes} (h : c ∈ l.splitOn 47) : (47 : UInt8) ∉ c := by
  induction l generalizing c with
  | nil =>
      rw [List.splitOn_nil, List.mem_singleton] at h
      exact h ▸ List.not_mem_nil
  | cons x l ih =>
      rw [List.splitOn_cons_eq_if_modifyHead] at h
      obtain ⟨d, t, hdt⟩ := List.exists_cons_of_ne_nil (List.splitOn_ne_nil (47 : UInt8) l)
      rcases eq_or_ne x 47 with rfl | hx
      · rw [if_pos (beq_self_eq_true _)] at h
        rcases List.mem_cons.mp h with rfl | h
        · exact List.not_mem_nil
        · exact ih h
      · rw [if_neg (by simpa using hx), hdt, List.modifyHead_cons] at h
        rcases List.mem_cons.mp h with rfl | h
        · have hd : (47 : UInt8) ∉ d := ih (hdt ▸ List.mem_cons_self)
          simp [hd, Ne.symm hx]
        · exact ih (hdt ▸ List.mem_cons_of_mem _ h)

/-- **Names with slashes between them, and nothing else, are parts that are names.** -/
theorem intercalate_names {tail : Bytes} {names : List Bytes} :
    ((∀ c ∈ names, IsName c) ∧ tail = [47].intercalate names) ↔
      tail = [] ∧ names = [] ∨ tail.splitOn 47 = names ∧ ∀ c ∈ names, IsName c := by
  constructor
  · rintro ⟨h, rfl⟩
    rcases eq_or_ne names [] with rfl | hne
    · exact .inl ⟨rfl, rfl⟩
    · exact .inr ⟨List.splitOn_intercalate 47 (fun c hc => (h c hc).slash) hne, h⟩
  · rintro (⟨rfl, rfl⟩ | ⟨hs, h⟩)
    · exact ⟨fun _ hc => absurd hc List.not_mem_nil, rfl⟩
    · exact ⟨h, by rw [← hs, List.intercalate_splitOn]⟩

/-- Behind names the loop goes on with the names stored. -/
theorem splitParts_names {lead next names : List Bytes} (hlead : ∀ c ∈ lead, IsName c) (hnext : next ≠ [[]]) :
    splitParts names (lead ++ next) = splitParts (names ++ lead) next := by
  induction lead generalizing names with
  | nil => rw [List.nil_append, List.append_nil]
  | cons c lead ih =>
      have hc : IsName c := hlead c List.mem_cons_self
      have hlead' : ∀ d ∈ lead, IsName d := fun d hd => hlead d (List.mem_cons_of_mem _ hd)
      have hclean : Clean c := ((isName_iff hc.slash).mp hc).2.2
      have hrest : lead ++ next ≠ [[]] := by
        cases lead with
        | nil => exact hnext
        | cons d lead =>
            intro h
            exact (hlead' d List.mem_cons_self).1 (List.cons.inj h).1
      rw [List.cons_append, splitParts, if_neg (not_not.mpr hclean), if_neg hrest,
        if_neg (not_or.mpr ⟨hc.1, Nat.not_lt.mpr hc.2.1⟩), ih hlead', List.append_assoc, List.singleton_append]

/-- A slash at the end, behind names. -/
theorem splitParts_slash {lead : List Bytes} {c : Bytes} (hlead : ∀ d ∈ lead ++ [c], IsName d) :
    splitParts [] (lead ++ [c] ++ [[]]) =
      if c.length = maxKeyNameSize then ⟨lead, some lead.length, tssErrParameter⟩
      else ⟨lead ++ [c ++ [47]], some (lead.length + 1), 0⟩ := by
  have hc : IsName c := hlead c (by simp)
  have hclean : Clean c := ((isName_iff hc.slash).mp hc).2.2
  have hlen : (c = [] ∨ maxKeyNameSize ≤ c.length) ↔ c.length = maxKeyNameSize :=
    ⟨fun h => le_antisymm hc.2.1 (h.resolve_left hc.1), fun h => .inr (le_of_eq h.symm)⟩
  rw [List.append_assoc, List.singleton_append,
    splitParts_names (fun d hd => hlead d (List.mem_append_left _ hd)) (by simp), splitParts,
    if_neg (not_not.mpr hclean), if_pos rfl, List.nil_append]
  exact if_congr hlen rfl rfl

/-- What is not a name ends the scan. -/
theorem splitParts_stop {lead rest : List Bytes} {d : Bytes} (hlead : ∀ c ∈ lead, IsName c)
    (hslash : (47 : UInt8) ∉ d) (hd : ¬ IsName d) (hne : d :: rest ≠ [[]]) :
    splitParts [] (lead ++ d :: rest) =
      ⟨lead, if Clean d then some lead.length else none, tssErrParameter⟩ := by
  rw [splitParts_names hlead hne, splitParts, List.nil_append]
  rcases em (Clean d) with hclean | hclean
  · have hlen : d = [] ∨ maxKeyNameSize < d.length := by
      rcases eq_or_ne d [] with h | h
      · exact .inl h
      · exact .inr (Nat.lt_of_not_le fun hle => hd ((isName_iff hslash).mpr ⟨h, hle, hclean⟩))
    rw [if_neg (not_not.mpr hclean), if_pos hclean, if_pos hlen, if_pos (hlen.imp_right le_of_lt), ite_self]
  · rw [if_pos hclean, if_neg hclean]

/-! ### What is promised of the scan -/

/-- `r` is what a path with `tail` behind its prefix is to be split into. -/
structure Split.Exact (room : ℕ) (tail : Bytes) (r : Split) : Prop where
  /-- Names with slashes between them are accepted, and nothing else. -/
  accepts : r.ret = 0 ↔ ∃ names, (∀ c ∈ names, IsName c) ∧ tail = [47].intercalate names
  /-- The names are those of the path. -/
  names : r.ret = 0 → (∀ c ∈ r.names, IsName c) ∧ tail = [47].intercalate r.names
  number : r.ret = 0 → r.number = some r.names.length
  /-- A caller starts with no names, and frees as many as it is told. -/
  counted : r.ret ≠ 0 → r.number.getD 0 = r.names.length
  fits : r.names.length ≤ room

/-- The parts of a path with which nothing goes wrong: the names in front fit in the array, a slash at the end
is not behind a name that leaves room for it, and a forbidden character is in the first part. -/
def NamesFit (room : ℕ) (parts : List Bytes) : Prop :=
  if parts.dropWhile (IsName ·) = [[]] then
    (parts.takeWhile (IsName ·)).length ≤ room + 1 ∧
      ∀ c ∈ (parts.takeWhile (IsName ·)).getLast?, c.length = maxKeyNameSize
  else
    (parts.takeWhile (IsName ·)).length ≤ room ∧
      (parts.takeWhile (IsName ·) ≠ [] → ∀ d ∈ (parts.dropWhile (IsName ·)).head?, Clean d)

instance (room : ℕ) (parts : List Bytes) : Decidable (NamesFit room parts) :=
  inferInstanceAs (Decidable (ite _ _ _))

/-- The parts of an accepted path are names. -/
theorem names_iff {tail : Bytes} (hne : tail ≠ []) :
    (∃ names, (∀ c ∈ names, IsName c) ∧ tail = [47].intercalate names) ↔ ∀ c ∈ tail.splitOn 47, IsName c := by
  constructor
  · rintro ⟨names, h⟩
    obtain ⟨rfl, -⟩ | ⟨hs, hnames⟩ := intercalate_names.mp h
    · exact absurd rfl hne
    · exact hs ▸ hnames
  · exact fun h => ⟨_, intercalate_names.mpr (.inr ⟨rfl, h⟩)⟩

/-- A rejection is as promised if it counts the names. -/
theorem rejected_exact_iff {room : ℕ} {tail : Bytes} {r : Split} (hret : r.ret ≠ 0)
    (hno : ¬ ∃ names, (∀ c ∈ names, IsName c) ∧ tail = [47].intercalate names) :
    r.Exact room tail ↔ r.names.length ≤ room ∧ r.number.getD 0 = r.names.length :=
  ⟨fun h => ⟨h.fits, h.counted hret⟩, fun h =>
    ⟨iff_of_false hret hno, fun h0 => absurd h0 hret, fun h0 => absurd h0 hret, fun _ => h.2, h.1⟩⟩

/-- The scan of names `lead` and of parts `next` of which the first is not a name. -/
theorem splitParts_exact_iff {room : ℕ} {tail : Bytes} {lead next : List Bytes} (hlead : ∀ c ∈ lead, IsName c)
    (hhead : ∀ d ∈ next.head?, (47 : UInt8) ∉ d ∧ ¬ IsName d) (hne : tail ≠ [])
    (htail : tail.splitOn 47 = lead ++ next) :
    (splitParts [] (lead ++ next)).Exact room tail ↔
      if next = [[]] then lead.length ≤ room + 1 ∧ ∀ c ∈ lead.getLast?, c.length = maxKeyNameSize
      else lead.length ≤ room ∧ (lead ≠ [] → ∀ d ∈ next.head?, Clean d) := by
  have hnames := names_iff hne
  rw [htail] at hnames
  cases next with
  | nil =>
      -- the path has names only
      rw [splitParts_names hlead (by simp), List.nil_append, if_neg (by simp)]
      rw [List.append_nil] at hnames htail
      have hjoin : tail = [47].intercalate lead := by rw [← htail, List.intercalate_splitOn]
      constructor
      · intro h
        exact ⟨h.fits, fun _ _ hd => by cases hd⟩
      · rintro ⟨hroom, -⟩
        exact ⟨iff_of_true rfl (hnames.mpr hlead), fun _ => ⟨hlead, hjoin⟩, fun _ => rfl, fun h => absurd rfl h,
          hroom⟩
  | cons d rest =>
      obtain ⟨hslash, hd⟩ := hhead d rfl
      have hno : ¬ ∃ names, (∀ c ∈ names, IsName c) ∧ tail = [47].intercalate names := fun h =>
        hd (hnames.mp h d (by simp))
      have hret : tssErrParameter ≠ 0 := by decide
      rcases eq_or_ne (d :: rest) [[]] with hend | hnext
      · -- a slash at the end: it is stored, or the name before it has been rejected
        rw [hend, if_pos rfl]
        rcases List.eq_nil_or_concat lead with rfl | ⟨init, c, rfl⟩
        · rw [hend, List.nil_append] at htail
          exact absurd (splitOn_eq_nil htail) hne
        rw [List.concat_eq_append] at hlead ⊢
        rw [splitParts_slash hlead, List.getLast?_concat, List.length_append, List.length_singleton,
          Nat.add_le_add_iff_right]
        rcases eq_or_ne c.length maxKeyNameSize with hc | hc
        · rw [if_pos hc, rejected_exact_iff hret hno]
          exact ⟨fun h => ⟨h.1, fun _ h' => Option.some.inj h' ▸ hc⟩, fun h => ⟨h.1, rfl⟩⟩
        · rw [if_neg hc]
          exact iff_of_false (fun h => hno (h.accepts.mp rfl)) fun h => hc (h.2 c rfl)
      · rw [splitParts_stop hlead hslash hd hnext, if_neg hnext, rejected_exact_iff hret hno]
        refine and_congr_right fun _ => ?_
        rcases em (Clean d) with hc | hc
        · rw [if_pos hc]
          exact iff_of_true rfl fun _ _ h' => Option.some.inj h' ▸ hc
        · rw [if_neg hc]
          constructor
          · exact fun h hl => absurd (List.length_eq_zero_iff.mp h.symm) hl
          · intro h
            rcases eq_or_ne lead [] with rfl | hl
            · rfl
            · exact absurd (h hl d rfl) hc

/-- **Where the scan does what is promised.** -/
theorem splitLoop_exact_iff (room : ℕ) (tail : Bytes) :
    (splitLoop [] [] tail).Exact room tail ↔ (tail ≠ [] → NamesFit room (tail.splitOn 47)) := by
  rcases eq_or_ne tail [] with rfl | hne
  · refine iff_of_true ⟨?_, ?_, ?_, ?_, Nat.zero_le _⟩ (absurd rfl)
    · exact iff_of_true rfl ⟨[], fun _ h => absurd h List.not_mem_nil, rfl⟩
    · exact fun _ => ⟨fun _ h => absurd h List.not_mem_nil, rfl⟩
    · exact fun _ => rfl
    · exact fun h => absurd rfl h
  have hparts :
      (tail.splitOn 47).takeWhile (IsName ·) ++ (tail.splitOn 47).dropWhile (IsName ·) = tail.splitOn 47 :=
    List.takeWhile_append_dropWhile
  have hlead : ∀ c ∈ (tail.splitOn 47).takeWhile (IsName ·), IsName c := fun c hc => by
    simpa using List.mem_takeWhile_imp hc
  have hhead : ∀ d ∈ ((tail.splitOn 47).dropWhile (IsName ·)).head?, (47 : UInt8) ∉ d ∧ ¬ IsName d := by
    intro d hd
    refine ⟨slash_notMem_of_mem_splitOn ((List.dropWhile_suffix _).mem (List.mem_of_mem_head? hd)), ?_⟩
    have hnot := List.head?_dropWhile_not (IsName ·) (tail.splitOn 47)
    rw [Option.mem_def.mp hd] at hnot
    simpa using hnot
  rw [splitLoop_eq List.not_mem_nil (fun _ h => absurd h List.not_mem_nil) hne, List.nil_append,
    forall_prop_of_true hne, NamesFit, ← splitParts_exact_iff hlead hhead hne hparts.symm, hparts]

/-! ### The whole function -/

/-- `"s://"`. -/
def sharePrefix : Bytes := [115, 58, 47, 47]

/-- `"p://"`. -/
def privatePrefix : Bytes := [112, 58, 47, 47]

/-- What is printed to `prv_key_path`. -/
def privateRoot (home : Option CStr) : Bytes := (home.map CStr.bytes).getD nullName ++ privatePath

/-- The path is longer than `CMD_DEFAULT_ALLOC_SIZE` leaves room for behind `root`; 160 is
`PATH_EXPAND_LENGTH`. -/
def TooLong (root : Bytes) (keyPath : CStr) : Prop :=
  sizeT (cmdDefaultAllocSize - int32 root.length - 160) < keyPath.strlen

instance (root : Bytes) (keyPath : CStr) : Decidable (TooLong root keyPath) := inferInstanceAs (Decidable (_ < _))

/-- What the scan leaves, what was copied to `cur_key_path` before, and the accesses to areas of a fixed size. -/
structure KeyRun where
  split : Split
  root : Bytes
  accesses : List Access

/-- `tcs_utils_analysis_keypath` for the keys under `root`: `before` and `copies` are the accesses before and
behind the check of the length, and the names go to an array with `room` pointers. -/
def analysisUnder (room : ℕ) (root : Bytes) (before copies : List Access) (keyPath : CStr) : KeyRun :=
  if TooLong root keyPath then ⟨⟨[], none, tssErrInputExceed⟩, root, before⟩
  else
    let r := splitLoop [] [] (keyPath.bytes.drop 4)
    ⟨r, root, before ++ copies ++ [⟨0, r.names.length, room⟩]⟩

/-- `tcs_utils_analysis_keypath`, when directories can be made and memory is there.  `str` and `prv_key_path`
have `MAX_KEY_NAME_SIZE` bytes. -/
def analysisKeypath (room : ℕ) (home : Option CStr) (keyPath : CStr) : KeyRun :=
  if keyPath.bytes.take 4 = sharePrefix then
    analysisUnder room sharepath []
      [⟨0, sharepath.length + 1, cmdDefaultAllocSize⟩, ⟨0, maxKeyNameSize - 1, maxKeyNameSize⟩] keyPath
  else if keyPath.bytes.take 4 = privatePrefix then
    let root := privateRoot home
    analysisUnder room root [⟨0, root.length + 1, maxKeyNameSize⟩]
      [⟨0, root.length, cmdDefaultAllocSize⟩, ⟨0, root.length, maxKeyNameSize⟩] keyPath
  else ⟨⟨[], none, tssErrParameter⟩, [], []⟩

/-- The accesses of `tcs_utils_tree_key_create_tcmlocked` and `tcs_utils_tree_key_achieve_tcmlocked`: each name
and a slash go to the end of `cur_key_path`, and the names of the key's files, the longest with `.info`, to an
area of the same size. -/
def treeAccesses : Bytes → List Bytes → List Access
  | _, [] => []
  | cur, name :: rest =>
      ⟨0, (cur ++ name ++ [47]).length + 1, cmdDefaultAllocSize⟩ ::
        ⟨0, (cur ++ name ++ [47]).length + name.length + 6, cmdDefaultAllocSize⟩ ::
          treeAccesses (cur ++ name ++ [47]) rest

/-! ### What is promised -/

/-- A key path with these names. -/
def IsKeyPath (keyPath : Bytes) (names : List Bytes) : Prop :=
  (∀ c ∈ names, IsName c) ∧
    (keyPath = sharePrefix ++ [47].intercalate names ∨ keyPath = privatePrefix ++ [47].intercalate names)

/-- A key path is split exactly, and no area is overrun. -/
structure Exact (room : ℕ) (home : Option CStr) (keyPath : CStr) : Prop where
  accepts : (analysisKeypath room home keyPath).split.ret = 0 ↔ ∃ names, IsKeyPath keyPath.bytes names
  names : (analysisKeypath room home keyPath).split.ret = 0 →
    IsKeyPath keyPath.bytes (analysisKeypath room home keyPath).split.names
  number : (analysisKeypath room home keyPath).split.ret = 0 →
    (analysisKeypath room home keyPath).split.number = some (analysisKeypath room home keyPath).split.names.length
  counted : (analysisKeypath room home keyPath).split.ret ≠ 0 →
    (analysisKeypath room home keyPath).split.number.getD 0 =
      (analysisKeypath room home keyPath).split.names.length
  safe : Safe (analysisKeypath room home keyPath).accesses
  tree : (analysisKeypath room home keyPath).split.ret = 0 →
    Safe (treeAccesses (analysisKeypath room home keyPath).root (analysisKeypath room home keyPath).split.names)

/-- The path is within the checked limit. -/
def WithinLimit (home : Option CStr) (keyPath : CStr) : Prop :=
  (keyPath.bytes.take 4 = sharePrefix → ¬ TooLong sharepath keyPath) ∧
    (keyPath.bytes.take 4 = privatePrefix → ¬ TooLong (privateRoot home) keyPath)

instance (home : Option CStr) (keyPath : CStr) : Decidable (WithinLimit home keyPath) :=
  inferInstanceAs (Decidable ((_ → ¬ _) ∧ (_ → ¬ _)))

/-- Nothing goes wrong with the path: its names fit, and for a private key the root fits in `prv_key_path`. -/
def Fits (room : ℕ) (home : Option CStr) (keyPath : CStr) : Prop :=
  (keyPath.bytes.take 4 = privatePrefix → (privateRoot home).length + 1 ≤ maxKeyNameSize) ∧
    (keyPath.bytes.take 4 = sharePrefix ∨ keyPath.bytes.take 4 = privatePrefix →
      keyPath.bytes.drop 4 ≠ [] → NamesFit room ((keyPath.bytes.drop 4).splitOn 47))

instance (room : ℕ) (home : Option CStr) (keyPath : CStr) : Decidable (Fits room home keyPath) :=
  inferInstanceAs (Decidable ((_ → _ ≤ _) ∧ (_ ∨ _ → _ → _)))

theorem not_tooLong {root : Bytes} {keyPath : CStr} (hroot : root.length < maxKeyNameSize)
    (h : ¬ TooLong root keyPath) : root.length + keyPath.strlen + 160 ≤ cmdDefaultAllocSize := by
  unfold maxKeyNameSize at hroot
  rw [TooLong, int32_eq (by omega) (by omega), sizeT, cmdDefaultAllocSize] at h
  rw [cmdDefaultAllocSize]
  omega

/-- A path with a prefix is that prefix and the rest. -/
theorem eq_append_iff {keyPath start t : Bytes} (hlen : start.length = 4) (h : keyPath.take 4 = start) :
    keyPath = start ++ t ↔ keyPath.drop 4 = t := by
  constructor
  · intro hk
    rw [hk, List.drop_left' hlen]
  · intro ht
    rw [← h, ← ht, List.take_append_drop]

theorem take_of_append {keyPath start t : Bytes} (hlen : start.length = 4) (h : keyPath = start ++ t) :
    keyPath.take 4 = start := by
  rw [h, List.take_left' hlen]

theorem isKeyPath_share {keyPath : Bytes} {names : List Bytes} (h : keyPath.take 4 = sharePrefix) :
    IsKeyPath keyPath names ↔ (∀ c ∈ names, IsName c) ∧ keyPath.drop 4 = [47].intercalate names := by
  refine and_congr_right fun _ => ?_
  rw [eq_append_iff rfl h, or_iff_left]
  intro hp
  rw [take_of_append rfl hp] at h
  exact absurd h (by decide)

theorem isKeyPath_private {keyPath : Bytes} {names : List Bytes} (h : keyPath.take 4 = privatePrefix) :
    IsKeyPath keyPath names ↔ (∀ c ∈ names, IsName c) ∧ keyPath.drop 4 = [47].intercalate names := by
  refine and_congr_right fun _ => ?_
  rw [@eq_append_iff _ privatePrefix _ rfl h, or_iff_right]
  intro hs
  rw [take_of_append rfl hs] at h
  exact absurd h (by decide)

/-- The names, each with its slash, are not much longer than the path that they are from. -/
theorem length_flatMap_slash (names : List Bytes) :
    (names.flatMap (· ++ [47])).length ≤ ([47].intercalate names).length + 1 := by
  induction names with
  | nil => exact Nat.zero_le _
  | cons c names ih =>
      rcases eq_or_ne names [] with rfl | hne
      · simp
      · rw [List.flatMap_cons, List.intercalate_cons_of_ne_nil hne]
        simp only [List.length_append]
        omega

/-- **`PATH_EXPAND_LENGTH` is enough for the names of the files.** -/
theorem treeAccesses_safe {cur : Bytes} {names : List Bytes} (hnames : ∀ c ∈ names, IsName c)
    (h : cur.length + (names.flatMap (· ++ [47])).length + maxKeyNameSize + 6 ≤ cmdDefaultAllocSize) :
    Safe (treeAccesses cur names) := by
  induction names generalizing cur with
  | nil => exact safe_nil
  | cons name rest ih =>
      have hname : name.length ≤ maxKeyNameSize := (hnames name List.mem_cons_self).2.1
      rw [List.flatMap_cons, List.length_append, List.length_append, List.length_singleton] at h
      have hlen : (cur ++ name ++ [47]).length = cur.length + name.length + 1 := by
        rw [List.length_append, List.length_append, List.length_singleton]
      rw [treeAccesses, safe_cons, safe_cons, hlen]
      refine ⟨?_, ?_, ih (fun c hc => hnames c (List.mem_cons_of_mem _ hc)) ?_⟩
      · show 0 + (cur.length + name.length + 1 + 1) ≤ cmdDefaultAllocSize
        omega
      · show 0 + (cur.length + name.length + 1 + name.length + 6) ≤ cmdDefaultAllocSize
        omega
      · rw [hlen]
        omega

/-- Below the limit a run under `root` is as promised where its scan is, and where the accesses before it are
safe. -/
theorem exact_under_iff {room : ℕ} {home : Option CStr} {keyPath : CStr} {root : Bytes}
    {before copies : List Access}
    (hrun : analysisKeypath room home keyPath = analysisUnder room root before copies keyPath)
    (hlimit : ¬ TooLong root keyPath)
    (hpath : ∀ names, IsKeyPath keyPath.bytes names ↔
      (∀ c ∈ names, IsName c) ∧ keyPath.bytes.drop 4 = [47].intercalate names)
    (hroot : Safe (before ++ copies) → root.length < maxKeyNameSize) :
    Exact room home keyPath ↔
      Safe (before ++ copies) ∧ (splitLoop [] [] (keyPath.bytes.drop 4)).Exact room (keyPath.bytes.drop 4) := by
  rw [analysisUnder, if_neg hlimit] at hrun
  have hex := exists_congr hpath
  constructor
  · rintro ⟨haccepts, hnames, hnumber, hcounted, hsafe, -⟩
    rw [hrun] at haccepts hnames hnumber hcounted hsafe
    rw [safe_append, safe_cons, Nat.zero_add] at hsafe
    exact ⟨hsafe.1, haccepts.trans hex, fun h => (hpath _).mp (hnames h), hnumber, hcounted, hsafe.2.1⟩
  · rintro ⟨hsafe, haccepts, hnames, hnumber, hcounted, hfits⟩
    constructor <;> rw [hrun]
    · exact haccepts.trans hex.symm
    · exact fun h => (hpath _).mpr (hnames h)
    · exact hnumber
    · exact hcounted
    · rw [safe_append, safe_cons, Nat.zero_add]
      exact ⟨hsafe, hfits, safe_nil⟩
    · intro h
      obtain ⟨hn, htail⟩ := hnames h
      refine treeAccesses_safe hn ?_
      have hlen := not_tooLong (hroot hsafe) hlimit
      have hflat := length_flatMap_slash (splitLoop [] [] (keyPath.bytes.drop 4)).names
      rw [← htail, List.length_drop] at hflat
      rw [CStr.strlen] at hlen
      refine le_trans ?_ hlen
      show root.length + ((splitLoop [] [] (keyPath.bytes.drop 4)).names.flatMap (· ++ [47])).length + 128 + 6 ≤ _
      omega

/-- A path without a prefix is rejected, and nothing is touched. -/
theorem exact_rejected {room : ℕ} {home : Option CStr} {keyPath : CStr} (hs : keyPath.bytes.take 4 ≠ sharePrefix)
    (hp : keyPath.bytes.take 4 ≠ privatePrefix) : Exact room home keyPath := by
  have hrun : analysisKeypath room home keyPath = ⟨⟨[], none, tssErrParameter⟩, [], []⟩ := by
    rw [analysisKeypath, if_neg hs, if_neg hp]
  have hret : tssErrParameter ≠ 0 := by decide
  constructor <;> rw [hrun]
  · refine iff_of_false hret ?_
    rintro ⟨names, -, h | h⟩
    · exact hs (take_of_append rfl h)
    · exact hp (take_of_append rfl h)
  · exact fun h => absurd h hret
  · exact fun h => absurd h hret
  · exact fun _ => rfl
  · exact safe_nil
  · exact fun _ => safe_nil

/-- **Where key paths within the limit are split exactly.** -/
theorem keypath_exact_iff (room : ℕ) (home : Option CStr) (keyPath : CStr) (h : WithinLimit home keyPath) :
    Exact room home keyPath ↔ Fits room home keyPath := by
  rcases em (keyPath.bytes.take 4 = sharePrefix) with hs | hs
  · have hne : keyPath.bytes.take 4 ≠ privatePrefix := by
      rw [hs]
      decide
    have hstart : keyPath.bytes.take 4 = sharePrefix ∨ keyPath.bytes.take 4 = privatePrefix := .inl hs
    rw [exact_under_iff (if_pos hs) (h.1 hs) (fun _ => isKeyPath_share hs) fun _ => by decide, splitLoop_exact_iff,
      Fits, and_iff_right (by decide), and_iff_right fun hp => absurd hp hne, forall_prop_of_true hstart]
  rcases em (keyPath.bytes.take 4 = privatePrefix) with hp | hp
  · have hsafe : Safe ([⟨0, (privateRoot home).length + 1, maxKeyNameSize⟩] ++
        [⟨0, (privateRoot home).length, cmdDefaultAllocSize⟩, ⟨0, (privateRoot home).length, maxKeyNameSize⟩]) ↔
        (privateRoot home).length + 1 ≤ maxKeyNameSize := by
      simp only [List.cons_append, List.nil_append, safe_cons, safe_nil, Nat.zero_add, and_true]
      refine and_iff_left_of_imp fun hlen => ?_
      have hroot : (privateRoot home).length ≤ maxKeyNameSize := Nat.le_of_succ_le hlen
      exact ⟨hroot.trans (by decide), hroot⟩
    have hstart : keyPath.bytes.take 4 = sharePrefix ∨ keyPath.bytes.take 4 = privatePrefix := .inr hp
    rw [exact_under_iff ((if_neg hs).trans (if_pos hp)) (h.2 hp) (fun _ => isKeyPath_private hp) hsafe.mp, hsafe,
      splitLoop_exact_iff, Fits, forall_prop_of_true hp, forall_prop_of_true hstart]
  · refine iff_of_true (exact_rejected hs hp) ⟨fun h' => absurd h' hp, fun h' => absurd h' (not_or.mpr ⟨hs, hp⟩)⟩

/-- `"s://a/b"`. -/
def sharedAB : CStr := ⟨[115, 58, 47, 47, 97, 47, 98], by decide⟩

theorem keypath_exact_ab : Exact 256 none sharedAB :=
  (keypath_exact_iff 256 none sharedAB (by decide +kernel)).mpr (by decide +kernel)

/-- `"s://a/"`. -/
def sharedSlash : CStr := ⟨[115, 58, 47, 47, 97, 47], by decide⟩

/-- `"s://a/!"`. -/
def sharedMark : CStr := ⟨[115, 58, 47, 47, 97, 47, 33], by decide⟩

/-- `"p://a"`. -/
def privateA : CStr := ⟨[112, 58, 47, 47, 97], by decide⟩

/-- A `HOME` of 108 characters. -/
def longHome : CStr := ⟨List.replicate 108 97, by decide +kernel⟩

/-- `"s://a/"` is accepted with the name `"a/"`; the name of `"s://a/!"` is not counted; and a long `HOME`
overruns `prv_key_path`. -/
theorem keypath_inexact :
    WithinLimit none sharedSlash ∧ (analysisKeypath 256 none sharedSlash).split = ⟨[[97, 47]], some 1, 0⟩ ∧
      ¬ Exact 256 none sharedSlash ∧
      WithinLimit none sharedMark ∧ (analysisKeypath 256 none sharedMark).split = ⟨[[97]], none, tssErrParameter⟩ ∧
      ¬ Exact 256 none sharedMark ∧
      WithinLimit (some longHome) privateA ∧ ¬ Safe (analysisKeypath 256 (some longHome) privateA).accesses := by
  refine ⟨by decide +kernel, by decide +kernel, ?_, by decide +kernel, by decide +kernel, ?_, by decide +kernel,
    by decide +kernel⟩
  · intro h
    exact absurd ((h.names (by decide +kernel)).1 [97, 47] (by decide +kernel)) (by decide +kernel)
  · intro h
    exact absurd (h.counted (by decide +kernel)) (by decide +kernel)

/-! ### The names in an export and an import of the key tree -/

end KeyPath
end TsbAgent
