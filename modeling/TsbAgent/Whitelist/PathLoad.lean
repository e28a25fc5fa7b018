/-
# Loading the path whitelist

`load_whitelist_path` of `tsb/kernel/accessctl/policy/hash_whitelist_path.c`, with `klib_fgets` of
`tsb/kernel/platform/utils/klib_fileio.c`: a text, one path a line, is read into a buffer of 1024 bytes
line by line, and a new table takes the place of the old one.

| the line | what becomes of it |
| --- | --- |
| a path and its newline | the newline goes, the path is added |
| a path from 512 bytes on | its first 511 bytes are added |
| longer than the buffer | every 1023 bytes of it are taken for a line |
| nothing but its newline | the empty path is added |
| the last one, without a newline | its last byte goes |

A line of the file is never looked at as a whole, and the byte in front of the terminator goes whatever
it is.  `load_whitelist_path_lines_iff` says for which texts the table is that of the lines.
-/

import TsbAgent.Lib.Lines
import TsbAgent.Whitelist.PathIoctl

namespace TsbAgent
namespace Whitelist

open Libc Chained Counted Lines

/-! ### The load -/

/-- `klib_fgets`: the line, and what is left of the file; none at its end. -/
def klibFgets (size : ℕ) (file : Bytes) : Option (Bytes × Bytes) :=
  let r := readLine 10 (size - 1) file
  if r.1.length = 0 then none else some r

/-- The line as the loop makes a path of it, from `buff[strlen(buff)-1] = '\0'` on.  None: it writes
before the buffer. -/
def linePath (buff : Bytes) : Option CStr :=
  let s := CStr.ofBytes buff
  if s.strlen = 0 then none
  else
    let line := s.take (s.strlen - 1)
    some (if line.strlen + 1 > whitelistPathLen then line.take (whitelistPathLen - 1) else line)

/-- The paths that the loop of `load_whitelist_path` adds. -/
def readPaths : ℕ → Bytes → Option (List CStr)
  | 0, _ => some []
  | fuel + 1, file =>
      match klibFgets 1024 file with
      | none => some []
      | some (buff, rest) => (linePath buff).bind fun path => (readPaths fuel rest).map (path :: ·)

/-- What the load meets: whether the file opens, its two calls of `vmalloc`, and the `kzalloc` of the
entries in their order. -/
structure PathLoadEnv where
  opens : Bool
  vmallocBuff : Bool
  vmallocTable : Bool
  kzalloc : ℕ → Bool

section Functions

variable (jhash : Jhash) (random : UInt32)

/-- `whitelist_path_tmp_add`. -/
def whitelistPathTmpAdd (w : PathTable) (path : CStr) (kzalloc : Bool) : PathTable × ℤ :=
  let o := whitelistPathOps jhash random
  if kzalloc = false then (w, -enomem)
  else if o.found w.hashtable (tmpPathArg path) then (w, -eexist)
  else (⟨w.hashtable.push (o.key (tmpPathArg path)) (o.entry (tmpPathArg path)), w.objCount + 1⟩, 0)

/-- The additions of the loop. -/
def addPaths (kzalloc : ℕ → Bool) : ℕ → List CStr → PathTable → PathTable
  | _, [], w => w
  | n, path :: paths, w =>
      addPaths kzalloc (n + 1) paths (whitelistPathTmpAdd jhash random w path (kzalloc n)).1

/-- `load_whitelist_path`.  Every round takes a byte at least, so that the rounds suffice. -/
def loadWhitelistPath (env : PathLoadEnv) (content : Bytes) (w : PathTable) : Option (PathTable × ℤ) :=
  if env.opens = false then some (w, -1)
  else if env.vmallocBuff = false then some (w, -enomem)
  else if env.vmallocTable = false then some (w, -enomem)
  else
    (readPaths (content.length + 1) content).map fun paths =>
      (addPaths jhash random env.kzalloc 0 paths pathInit, 0)

end Functions

/-! ### What becomes of a line -/

/-- The path that is made of the `k`-th piece of a line. -/
def pieceOf (u : Bytes) (k : ℕ) : Bytes := (((u.drop (1023 * k)).take 1023).dropLast).take 511

/-- The lines of the text are all shorter than a path may be. -/
def LinesShort (content : Bytes) : Prop := ∀ l ∈ lines 10 content, l.length < whitelistPathLen

/-- The paths of the lines that are not empty. -/
def linePaths (content : Bytes) : Set CStr := {s | s.bytes ∈ lines 10 content ∧ s.bytes ≠ []}

/-- **The table is that of the lines**: all of them, when they are short, and nothing but lines in any
case. -/
def LoadsLines (jhash : Jhash) (random : UInt32) (env : PathLoadEnv) (content : Bytes) (w : PathTable) : Prop :=
  ∃ w', loadWhitelistPath jhash random env content w = some (w', 0) ∧
    (LinesShort content → TracksPaths jhash random w' (linePaths content)) ∧
    ∀ s ∈ w'.hashtable.contents, s.bytes ∈ lines 10 content

/-- What is made of a long line, or of one without a newline, is a line too; and where all lines are short,
none is empty, and one without a newline is also there with it, and not a single byte. -/
structure LinesKept (content : Bytes) : Prop where
  pieces : ∀ u ∈ rawLines 10 content, u.length > whitelistPathLen ∨ 10 ∉ u →
    ∀ k, 1023 * k < u.length → pieceOf u k ∈ lines 10 content
  short : LinesShort content → [10] ∉ rawLines 10 content ∧
    ∀ u ∈ rawLines 10 content, 10 ∉ u → 1 < u.length ∧ u ++ [10] ∈ rawLines 10 content

section Read

variable {buff content u : Bytes} {fuel k : ℕ}

/-- A piece of a text loses its last byte, and what does not go into a path. -/
theorem linePath_text (h0 : (0 : UInt8) ∉ buff) (hne : buff ≠ []) :
    ∃ s, linePath buff = some s ∧ s.bytes = buff.dropLast.take 511 := by
  have hs : CStr.ofBytes buff = ⟨buff, h0⟩ := CStr.ext (cstr_of_nulFree h0)
  have hpos : ¬ buff.length = 0 := fun h => hne (List.length_eq_zero_iff.mp h)
  have hline : buff.dropLast = buff.take (buff.length - 1) := List.dropLast_eq_take
  rw [linePath, hs, hline]
  refine ⟨_, if_neg hpos, ?_⟩
  rcases Nat.lt_or_ge whitelistPathLen ((buff.take (buff.length - 1)).length + 1) with hlong | hle
  · exact congrArg CStr.bytes (if_pos hlong)
  · rw [List.take_of_length_le (Nat.le_of_succ_le_succ hle)]
    exact congrArg CStr.bytes (if_neg (Nat.not_lt_of_le hle))

theorem pieceOf_succ : pieceOf u (k + 1) = pieceOf (u.drop 1023) k := by
  rw [pieceOf, pieceOf, List.drop_drop, Nat.mul_add, Nat.mul_one, Nat.add_comm]

theorem length_pieceOf_lt (u : Bytes) (k : ℕ) : (pieceOf u k).length < whitelistPathLen :=
  Nat.lt_succ_of_le (List.length_take_le _ _)

/-- The first piece of a line, and those of what is left of it. -/
theorem exists_piece_iff (hne : u ≠ []) {b : Bytes} :
    (∃ k, 1023 * k < u.length ∧ b = pieceOf u k) ↔
      b = pieceOf u 0 ∨ ∃ k, 1023 * k < (u.drop 1023).length ∧ b = pieceOf (u.drop 1023) k := by
  have hpos := List.length_pos_iff.mpr hne
  rw [List.length_drop]
  constructor
  · rintro ⟨k, hk, rfl⟩
    cases k with
    | zero => exact .inl rfl
    | succ k => exact .inr ⟨k, by omega, pieceOf_succ⟩
  · rintro (rfl | ⟨k, hk, rfl⟩)
    · exact ⟨0, by omega, rfl⟩
    · exact ⟨k + 1, by omega, pieceOf_succ.symm⟩

/-- The pieces of what is left of the file when the first piece of its first line is read. -/
theorem exists_piece_rest {u tail : Bytes} (h : IsLine 10 u tail) {b : Bytes} :
    (∃ v ∈ rawLines 10 (u.drop 1023 ++ tail), ∃ k, 1023 * k < v.length ∧ b = pieceOf v k) ↔
      (∃ k, 1023 * k < (u.drop 1023).length ∧ b = pieceOf (u.drop 1023) k) ∨
        ∃ v ∈ rawLines 10 tail, ∃ k, 1023 * k < v.length ∧ b = pieceOf v k := by
  rcases Nat.lt_or_ge 1023 u.length with hlong | hle
  · rw [rawLines_append (h.drop hlong), List.exists_mem_cons_iff]
  · rw [List.drop_eq_nil_of_le hle, List.nil_append]
    exact (or_iff_right fun ⟨k, hk, _⟩ => absurd hk (Nat.not_lt_zero _)).symm

/-- **The loop adds the pieces of the lines.** -/
theorem readPaths_text (h0 : (0 : UInt8) ∉ content) (hfuel : content.length < fuel) :
    ∃ paths, readPaths fuel content = some paths ∧ ∀ b, (∃ s ∈ paths, s.bytes = b) ↔
      ∃ u ∈ rawLines 10 content, ∃ k, 1023 * k < u.length ∧ b = pieceOf u k := by
  induction fuel generalizing content with
  | zero => exact absurd hfuel (Nat.not_lt_zero _)
  | succ fuel ih =>
      rcases eq_or_ne content [] with rfl | hnil
      · exact ⟨[], rfl, fun b => iff_of_false (fun ⟨s, hs, _⟩ => absurd hs List.not_mem_nil)
          fun ⟨u, hu, _⟩ => absurd hu List.not_mem_nil⟩
      obtain ⟨u, tail, rfl, hu⟩ := exists_isLine 10 hnil
      have hpos := List.length_pos_iff.mpr hu.ne_nil
      have hchunk : (u.take 1023).length ≠ 0 := by
        rw [List.length_take]
        omega
      have hfgets : klibFgets 1024 (u ++ tail) = some (u.take 1023, u.drop 1023 ++ tail) := by
        rw [klibFgets, readLine_append hu]
        exact if_neg hchunk
      -- the piece in the buffer
      have hchunk0 : (0 : UInt8) ∉ u.take 1023 := fun h =>
        h0 (List.mem_append_left _ (List.mem_of_mem_take h))
      obtain ⟨s, hs, hbytes⟩ := linePath_text hchunk0 fun h => hchunk (h ▸ List.length_nil)
      -- what is left of the file
      have hrest0 : (0 : UInt8) ∉ u.drop 1023 ++ tail := fun h => h0 <| by
        rcases List.mem_append.mp h with h | h
        · exact List.mem_append_left _ (List.mem_of_mem_drop h)
        · exact List.mem_append_right _ h
      have hlen : (u.drop 1023 ++ tail).length < fuel := by
        rw [List.length_append, List.length_drop]
        rw [List.length_append] at hfuel
        omega
      obtain ⟨paths, hpaths, hiff⟩ := ih hrest0 hlen
      refine ⟨s :: paths, ?_, fun b => ?_⟩
      · rw [readPaths, hfgets]
        dsimp only
        rw [hs, hpaths]
        rfl
      · have hfirst : s.bytes = b ↔ b = pieceOf u 0 := by
          rw [hbytes, eq_comm]
          rfl
        rw [rawLines_append hu, List.exists_mem_cons_iff, List.exists_mem_cons_iff, hiff, hfirst,
          exists_piece_rest hu, exists_piece_iff hu.ne_nil, or_assoc]

end Read

section Add

variable {jhash : Jhash} {random : UInt32} {w : PathTable} {S : Set CStr} {path : CStr} {paths : List CStr}
  {kzalloc : ℕ → Bool} {n : ℕ}

/-- A path that is short enough is hashed and stored whole. -/
theorem tmpPathArg_short (hlt : path.strlen < whitelistPathLen) : tmpPathArg path = ⟨path.bytes, path.strlen⟩ := by
  rw [tmpPathArg, if_neg (Nat.not_lt_of_le hlt)]

/-- A path that is short enough is added to the set. -/
theorem TracksPaths.tmpAdd (h : TracksPaths jhash random w S) (hlt : path.strlen < whitelistPathLen) :
    TracksPaths jhash random (whitelistPathTmpAdd jhash random w path true).1 (insert path S) := by
  obtain ⟨hplaced, hstored, -⟩ := tracksPaths_iff.mp h
  have hkey : (whitelistPathOps jhash random).key (tmpPathArg path) = pathKey jhash random path := by
    rw [tmpPathArg_short hlt]
    change stringHashKey jhash random (path.bytes.take path.bytes.length) = _
    rw [List.take_length]
    rfl
  have hentry : (whitelistPathOps jhash random).entry (tmpPathArg path) = path := by
    rw [tmpPathArg_short hlt]
    apply CStr.ext
    exact (congrArg cstr List.take_length).trans (cstr_of_nulFree path.nulFree)
  have hhit (x : CStr) : (whitelistPathOps jhash random).hit x (tmpPathArg path) = true ↔ x = path :=
    decide_eq_true_iff.trans strcmp_eq_zero
  have hfound : (whitelistPathOps jhash random).found w.hashtable (tmpPathArg path) = true ↔ path ∈ S := by
    rw [Ops.found, hkey, hplaced.lookup_iff, hstored]
    constructor
    · rintro ⟨y, hy, -, heq⟩
      exact (hhit y).mp heq ▸ hy
    · exact fun hmem => ⟨path, hmem, rfl, (hhit path).mpr rfl⟩
  rw [whitelistPathTmpAdd, if_neg Bool.noConfusion]
  by_cases hmem : path ∈ S
  · rw [if_pos (hfound.mpr hmem), Set.insert_eq_of_mem hmem]
    exact h
  · rw [if_neg fun hf => hmem (hfound.mp hf), hkey, hentry]
    exact h.push hmem hlt

/-- **The additions of the loop**, when the entries get their memory. -/
theorem TracksPaths.addPaths (h : TracksPaths jhash random w S) (hmem : ∀ n, kzalloc n = true)
    (hlt : ∀ s ∈ paths, s.strlen < whitelistPathLen) :
    TracksPaths jhash random (addPaths jhash random kzalloc n paths w) (S ∪ {s | s ∈ paths}) := by
  induction paths generalizing n w S with
  | nil =>
      have hempty : S ∪ {s | s ∈ ([] : List CStr)} = S := by
        ext s
        simp
      rw [hempty]
      exact h
  | cons path paths ih =>
      obtain ⟨hpath, hpaths⟩ := List.forall_mem_cons.mp hlt
      have hset : S ∪ {s | s ∈ path :: paths} = insert path S ∪ {s | s ∈ paths} := by
        ext s
        simp only [Set.mem_union, Set.mem_insert_iff, Set.mem_ofPred_eq, List.mem_cons]
        tauto
      rw [Whitelist.addPaths, hmem, hset]
      exact ih (h.tmpAdd hpath) hpaths

end Add

section Kept

variable {content u : Bytes} {paths : List CStr}

/-- A line that is short, with its newline, is one piece. -/
theorem pieceOf_zero (h : u.length ≤ whitelistPathLen) : pieceOf u 0 = u.dropLast := by
  have hlen : u.length ≤ 512 := h
  have hlast : u.dropLast.length ≤ 511 := by
    rw [List.length_dropLast]
    omega
  have hle : u.length ≤ 1023 := by omega
  rw [pieceOf, Nat.mul_zero, List.drop_zero, List.take_of_length_le hle, List.take_of_length_le hlast]

theorem LinesShort.length_le (h : LinesShort content) (hu : u ∈ rawLines 10 content) :
    u.length ≤ whitelistPathLen := by
  have hline : (lineOf 10 u).length < whitelistPathLen := h _ (List.mem_map.mpr ⟨u, hu, rfl⟩)
  rcases eq_of_mem_rawLines hu with heq | ⟨heq, -⟩
  · rw [heq, List.length_append]
    exact hline
  · rw [heq]
    exact hline.le

/-- The pieces of short lines. -/
theorem LinesShort.exists_piece_iff (h : LinesShort content) {b : Bytes} :
    (∃ u ∈ rawLines 10 content, ∃ k, 1023 * k < u.length ∧ b = pieceOf u k) ↔
      ∃ u ∈ rawLines 10 content, b = u.dropLast := by
  constructor
  · rintro ⟨u, hu, k, hk, rfl⟩
    have hle : u.length ≤ 512 := h.length_le hu
    obtain rfl : k = 0 := by omega
    exact ⟨u, hu, pieceOf_zero hle⟩
  · rintro ⟨u, hu, rfl⟩
    have hpos : 0 < u.length := by
      rcases eq_of_mem_rawLines hu with heq | ⟨-, -, hne⟩
      · rw [heq, List.length_append]
        exact Nat.succ_pos _
      · exact List.length_pos_iff.mpr hne
    exact ⟨u, hu, 0, by omega, (pieceOf_zero (h.length_le hu)).symm⟩

/-- **The pieces are the lines that are not empty**, for a text of short lines. -/
theorem linesKept_short_iff (h0 : (0 : UInt8) ∉ content)
    (hpaths : ∀ b, (∃ s ∈ paths, s.bytes = b) ↔ ∃ u ∈ rawLines 10 content, b = u.dropLast)
    (hlines : ∀ s ∈ paths, s.bytes ∈ lines 10 content) :
    {s | s ∈ paths} = linePaths content ↔ [10] ∉ rawLines 10 content ∧
      ∀ u ∈ rawLines 10 content, 10 ∉ u → 1 < u.length ∧ u ++ [10] ∈ rawLines 10 content := by
  constructor
  · intro hset
    have hkept {u : Bytes} (hu : u ∈ rawLines 10 content) : u.dropLast ≠ [] := by
      obtain ⟨s, hs, hbytes⟩ := (hpaths u.dropLast).mpr ⟨u, hu, rfl⟩
      have hmem : s ∈ linePaths content := hset ▸ hs
      exact hbytes ▸ hmem.2
    refine ⟨fun hempty => hkept hempty rfl, fun u hu hnu => ⟨?_, ?_⟩⟩
    · have hpos := List.length_pos_iff.mpr (hkept hu)
      rw [List.length_dropLast] at hpos
      omega
    · -- the line itself is read from another one
      have hline : u ∈ lines 10 content := List.mem_map.mpr ⟨u, hu, lineOf_last hnu⟩
      have hne : u ≠ [] := by
        rintro rfl
        exact hkept hu rfl
      have hmem : (⟨u, fun h => h0 (mem_of_mem_rawLines hu h)⟩ : CStr) ∈ linePaths content := ⟨hline, hne⟩
      rw [← hset] at hmem
      obtain ⟨v, hv, heq⟩ := (hpaths u).mp ⟨_, hmem, rfl⟩
      rcases eq_of_mem_rawLines hv with hv' | ⟨-, hnv, -⟩
      · rw [hv', List.dropLast_concat] at heq
        rw [heq, ← hv']
        exact hv
      · obtain rfl := eq_of_separator_notMem hu hv hnu hnv
        have hlen := congrArg List.length heq
        rw [List.length_dropLast] at hlen
        have hpos := List.length_pos_iff.mpr hne
        omega
  · rintro ⟨hempty, hlast⟩
    ext s
    constructor
    · intro hs
      obtain ⟨u, hu, heq⟩ := (hpaths s.bytes).mp ⟨s, hs, rfl⟩
      refine ⟨hlines s hs, fun hnil => ?_⟩
      rw [hnil] at heq
      rcases eq_of_mem_rawLines hu with hu' | ⟨-, hnu, -⟩
      · rw [hu', List.dropLast_concat] at heq
        rw [← heq, List.nil_append] at hu'
        exact hempty (hu' ▸ hu)
      · have hlen := congrArg List.length heq
        have hlong := (hlast u hu hnu).1
        rw [List.length_dropLast, List.length_nil] at hlen
        omega
    · rintro ⟨hline, hne⟩
      obtain ⟨u, hu, heq⟩ := List.mem_map.mp hline
      have hread : ∃ v ∈ rawLines 10 content, s.bytes = v.dropLast := by
        rcases eq_of_mem_rawLines hu with hu' | ⟨hu', hnu, -⟩
        · refine ⟨u, hu, ?_⟩
          rw [hu', List.dropLast_concat]
          exact heq.symm
        · refine ⟨u ++ [10], (hlast u hu hnu).2, ?_⟩
          rw [List.dropLast_concat, hu']
          exact heq.symm
      obtain ⟨t, ht, hbytes⟩ := (hpaths s.bytes).mpr hread
      exact CStr.ext hbytes ▸ ht

/-- What is made of a line with its newline that is short enough is the line. -/
theorem pieceOf_mem_lines {k : ℕ} (hu : u ∈ rawLines 10 content) (hk : 1023 * k < u.length)
    (hle : u.length ≤ whitelistPathLen) (hnl : 10 ∈ u) : pieceOf u k ∈ lines 10 content := by
  have hlen : u.length ≤ 512 := hle
  obtain rfl : k = 0 := by omega
  have hu' := (eq_of_mem_rawLines hu).resolve_right fun h => h.2.1 hnl
  have hlast : u.dropLast = lineOf 10 u := by
    conv_lhs => rw [hu', List.dropLast_concat]
  rw [pieceOf_zero hle, hlast]
  exact List.mem_map.mpr ⟨u, hu, rfl⟩

/-- **The pieces are the lines**, for any text. -/
theorem linesKept_iff (h0 : (0 : UInt8) ∉ content)
    (hpieces : ∀ b, (∃ s ∈ paths, s.bytes = b) ↔
      ∃ u ∈ rawLines 10 content, ∃ k, 1023 * k < u.length ∧ b = pieceOf u k) :
    (LinesShort content → {s | s ∈ paths} = linePaths content) ∧ (∀ s ∈ paths, s.bytes ∈ lines 10 content) ↔
      LinesKept content := by
  constructor
  · rintro ⟨hset, hlines⟩
    refine ⟨fun u hu _ k hk => ?_, fun hshort => ?_⟩
    · obtain ⟨s, hs, hbytes⟩ := (hpieces (pieceOf u k)).mpr ⟨u, hu, k, hk, rfl⟩
      exact hbytes ▸ hlines s hs
    · exact (linesKept_short_iff h0 (fun b => (hpieces b).trans hshort.exists_piece_iff) hlines).mp (hset hshort)
  · rintro ⟨hlong, hshort⟩
    have hlines : ∀ s ∈ paths, s.bytes ∈ lines 10 content := by
      intro s hs
      obtain ⟨u, hu, k, hk, heq⟩ := (hpieces s.bytes).mp ⟨s, hs, rfl⟩
      rw [heq]
      by_cases hcut : u.length > whitelistPathLen ∨ 10 ∉ u
      · exact hlong u hu hcut k hk
      · obtain ⟨hle, hnl⟩ := not_or.mp hcut
        exact pieceOf_mem_lines hu hk (Nat.le_of_not_lt hle) (not_not.mp hnl)
    exact ⟨fun h => (linesKept_short_iff h0 (fun b => (hpieces b).trans h.exists_piece_iff) hlines).mpr
      (hshort h), hlines⟩

end Kept

section Load

variable {jhash : Jhash} {random : UInt32} {env : PathLoadEnv} {content : Bytes} {w : PathTable}
  {paths : List CStr}

/-- The load builds a table when the file opens and its two buffers are there. -/
theorem ready_of_load {w' : PathTable} (h : loadWhitelistPath jhash random env content w = some (w', 0)) :
    env.opens = true ∧ env.vmallocBuff = true ∧ env.vmallocTable = true := by
  have hret : (-1 : ℤ) ≠ 0 ∧ -enomem ≠ 0 := by decide
  rw [loadWhitelistPath] at h
  split_ifs at h with hopens hbuff htable
  · exact absurd (Prod.mk.inj (Option.some.inj h)).2 hret.1
  · exact absurd (Prod.mk.inj (Option.some.inj h)).2 hret.2
  · exact absurd (Prod.mk.inj (Option.some.inj h)).2 hret.2
  · exact ⟨Bool.eq_true_of_not_eq_false hopens, Bool.eq_true_of_not_eq_false hbuff,
      Bool.eq_true_of_not_eq_false htable⟩

/-- A load that builds the set of these paths. -/
theorem loadsLines_iff_of_tracks {w' : PathTable}
    (hload : loadWhitelistPath jhash random env content w = some (w', 0))
    (htracks : TracksPaths jhash random w' {s | s ∈ paths}) :
    LoadsLines jhash random env content w ↔
      (LinesShort content → {s | s ∈ paths} = linePaths content) ∧ ∀ s ∈ paths, s.bytes ∈ lines 10 content := by
  rw [LoadsLines, hload]
  constructor
  · rintro ⟨w'', heq, hset, hlines⟩
    obtain ⟨rfl, -⟩ := Prod.mk.inj (Option.some.inj heq)
    rw [htracks.stored] at hlines
    exact ⟨fun h => htracks.same_iff.mp (hset h), hlines⟩
  · rintro ⟨hset, hlines⟩
    refine ⟨w', rfl, fun h => htracks.same_iff.mpr (hset h), ?_⟩
    rw [htracks.stored]
    exact hlines

end Load

/-- **Which texts make the table of their lines.**  For every text, when the entries get their memory. -/
theorem load_whitelist_path_lines_iff (jhash : Jhash) (random : UInt32) (env : PathLoadEnv) (content : Bytes)
    (w : PathTable) (hmem : ∀ n, env.kzalloc n = true) (h0 : (0 : UInt8) ∉ content) :
    LoadsLines jhash random env content w ↔
      (env.opens = true ∧ env.vmallocBuff = true ∧ env.vmallocTable = true) ∧ LinesKept content := by
  by_cases henv : env.opens = true ∧ env.vmallocBuff = true ∧ env.vmallocTable = true
  · obtain ⟨paths, hpaths, hpieces⟩ := readPaths_text h0 (Nat.lt_succ_self _)
    have hload : loadWhitelistPath jhash random env content w =
        some (addPaths jhash random env.kzalloc 0 paths pathInit, 0) := by
      rw [loadWhitelistPath, henv.1, henv.2.1, henv.2.2, hpaths]
      rfl
    have hshort : ∀ s ∈ paths, s.strlen < whitelistPathLen := by
      intro s hs
      obtain ⟨u, -, k, -, heq⟩ := (hpieces s.bytes).mp ⟨s, hs, rfl⟩
      rw [CStr.strlen, heq]
      exact length_pieceOf_lt u k
    have htracks := (tracksPaths_init jhash random).addPaths (n := 0) hmem hshort
    rw [Set.empty_union] at htracks
    rw [loadsLines_iff_of_tracks hload htracks, and_iff_right henv, linesKept_iff h0 hpieces]
  · exact iff_of_false (fun ⟨_, hload, _⟩ => henv (ready_of_load hload)) fun h => henv h.1

/-- A file that opens, with all the memory. -/
def pathLoadEnv : PathLoadEnv := ⟨true, true, true, fun _ => true⟩

/-- Two lines with their newlines. -/
theorem load_whitelist_path_lines_two :
    LoadsLines (fun _ _ => 0) 0 pathLoadEnv [47, 97, 10, 47, 98, 10] pathInit := by
  refine (load_whitelist_path_lines_iff (fun _ _ => 0) 0 pathLoadEnv [47, 97, 10, 47, 98, 10] pathInit
    (fun _ => rfl) (by decide)).mpr ⟨⟨rfl, rfl, rfl⟩, ?_, fun _ => by decide⟩
  intro u hu hcut
  have hraw : ∀ u ∈ rawLines (10 : UInt8) [47, 97, 10, 47, 98, 10],
      ¬ (u.length > whitelistPathLen ∨ 10 ∉ u) := by decide
  exact absurd hcut (hraw u hu)

/-- The last line has no newline, and loses its last byte. -/
theorem last_line_loses_byte : ¬ LoadsLines (fun _ _ => 0) 0 pathLoadEnv [47, 97] pathInit := by
  rintro ⟨w', hload, -, hlines⟩
  have hentry : (w'.hashtable 0).map CStr.bytes = [[47]] := by
    obtain ⟨rfl, -⟩ := Prod.mk.inj (Option.some.inj hload)
    decide
  obtain ⟨s, hs, hbytes⟩ := List.mem_map.mp (hentry ▸ List.mem_cons_self : [47] ∈ (w'.hashtable 0).map CStr.bytes)
  have hline := hlines s ⟨0, hs⟩
  rw [hbytes] at hline
  exact absurd hline (by decide)

end Whitelist
end TsbAgent
