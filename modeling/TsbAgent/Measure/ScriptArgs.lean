/-
# The script in the arguments of an interpreter

`valid_args_name_from_bprm` of `tsb/kernel/smeasure/engine/smeasure_engine.c` looks at the arguments of a new
program, which lie one after the other, each with its zero byte, from `bprm->p` on, for the name of the
script, `argv[1]`.  It goes over the pages, and in a page over the bytes, with four counters:

| | start of a page | a byte | a zero byte |
| --- | --- | --- | --- |
| `offset`, in the page | `pos` in its page | `+ 1` | `+ 1` |
| `pos`, in the block | | `+ 1` | `+ 2` |
| `i`, in the copy | `0` | `+ 1` | `0` |
| `count`, of the zero bytes | | | `+ 1` |

After the zero byte of `argv[0]` therefore `pos` is one too large.  That does no harm while the page lasts, but
on the next page the first byte is left out, and what is copied there goes over the copy of what was on the
page before.  `argv[0]` may lie on as many pages as it likes.  `script_args_iff` puts this together: `argv[1]` is
read as it is when its zero byte and that of `argv[0]` are on one page.
-/

import TsbAgent.Lib.Libc
import Mathlib.Algebra.Order.Ring.Nat

namespace TsbAgent
namespace ScriptArgs

open Libc

/-- What the function sees of `struct linux_binprm`: `httc_get_arg_page` may find no page. -/
structure Bprm where
  p : ℕ
  argc : ℕ
  byteAt : ℕ → UInt8
  getArgPage : ℕ → Bool

/-- `is_valid_character`, with the `isalnum` of the kernel. -/
def isValidCharacter (c : UInt8) : Bool :=
  c == 46 || c == 47 || c == 95 || (48 ≤ c && c ≤ 57) || (65 ≤ c && c ≤ 90) || (97 ≤ c && c ≤ 122) ||
    (192 ≤ c && c != 215 && c != 247)

/-- `is_valid_args_name`: the return value, and the name it writes.  The name is not cut at a blank: the
second `strncpy` writes over the zero byte that was put there. -/
def isValidArgsName (args : Bytes) : ℤ × Option Bytes :=
  if deref args = 45 then (0, none)
  else
    let copyBase := if isValidCharacter (deref args) then 0 else 1
    (1, some ((args.take 896).drop copyBase))

/-- The variables of the loops, and the positions that have been read. -/
structure ArgScan where
  offset : ℕ
  pos : ℕ
  i : ℕ
  count : ℕ
  argv : Bytes
  reads : List ℕ

/-- What the function returns and has read, and the string that `is_valid_args_name` gets. -/
structure Outcome where
  ret : ℤ
  name : Option Bytes
  handed : Option Bytes
  reads : List ℕ

section Loops

variable (b : Bprm) (pageSize : ℕ)

/-- A byte that is copied. -/
def ArgScan.char (s : ArgScan) (base : ℕ) : ArgScan :=
  { s with
    offset := s.offset + 1
    pos := s.pos + 1
    i := s.i + 1
    argv := s.argv.set s.i (b.byteAt (base + s.offset))
    reads := s.reads ++ [base + s.offset] }

/-- The first zero byte, with the increments of the `for`. -/
def ArgScan.reset (s : ArgScan) (base : ℕ) : ArgScan :=
  { offset := s.offset + 1
    pos := s.pos + 2
    i := 0
    count := s.count + 1
    argv := List.replicate pageSize 0
    reads := s.reads ++ [base + s.offset] }

/-- The `for` over a page at `base`; with the string that is handed on, when there is one. -/
def forLoop (base : ℕ) : ℕ → ArgScan → ArgScan × Option Bytes
  | 0, s => (s, none)
  | fuel + 1, s =>
      if s.offset < pageSize ∧ s.count < b.argc ∧ s.i < pageSize then
        if b.byteAt (base + s.offset) = 0 then
          if 1 < s.count + 1 then
            ({ s with pos := s.pos + 1, count := s.count + 1, reads := s.reads ++ [base + s.offset] },
              some (cstr s.argv))
          else forLoop base fuel (s.reset pageSize base)
        else forLoop base fuel (s.char b base)
      else (s, none)

/-- The `do` over the pages; `none` when `fuel` pages do not end it.  After a string has been handed on
`offset` is less than `PAGE_SIZE`, so that this ends the loop whatever the answer was. -/
def doLoop : ℕ → ArgScan → Option Outcome
  | 0, _ => none
  | fuel + 1, s =>
      if b.getArgPage (s.pos / pageSize) = false then some ⟨-1, none, none, s.reads⟩
      else
        let r := forLoop b pageSize (s.pos / pageSize * pageSize) (pageSize + 1)
          { s with offset := s.pos % pageSize, i := 0 }
        match r.2 with
        | some arg => some ⟨(isValidArgsName arg).1, (isValidArgsName arg).2, some arg, r.1.reads⟩
        | none => if r.1.offset = pageSize then doLoop fuel r.1 else some ⟨0, none, none, r.1.reads⟩

/-- `valid_args_name_from_bprm`. -/
def validArgsNameFromBprm (kmalloc : Bool) (fuel : ℕ) : Option Outcome :=
  if kmalloc = false then some ⟨-1, none, none, []⟩
  else doLoop b pageSize fuel ⟨0, b.p, 0, 0, List.replicate pageSize 0, []⟩

end Loops

/-! ### The arguments in memory -/

/-- The strings one after the other, each with its zero byte. -/
def block (args : List CStr) : Bytes := args.flatMap fun a => a.bytes ++ [0]

/-- The arguments lie at `bprm->p`, in pages that are there. -/
structure LaidOut (b : Bprm) (pageSize : ℕ) (args : List CStr) : Prop where
  argc : b.argc = args.length
  bytes : ∀ k (h : k < (block args).length), b.byteAt (b.p + k) = (block args)[k]
  pages : ∀ k, k < (block args).length → b.getArgPage ((b.p + k) / pageSize) = true

/-- `argv[1]` is handed on, and what is read is every byte of `argv[0]` and of `argv[1]`, zero bytes included,
each at its own place. -/
def Extracts (b : Bprm) (pageSize : ℕ) (argv0 argv1 : CStr) : Prop :=
  ∃ fuel r, validArgsNameFromBprm b pageSize true fuel = some r ∧ r.handed = some argv1.bytes ∧
    r.reads = List.range' b.p (argv0.strlen + 1 + (argv1.strlen + 1))

section Steps

variable {b : Bprm} {pageSize base fuel m : ℕ} {s : ArgScan}

theorem forLoop_end (h : s.offset = pageSize) : forLoop b pageSize base fuel s = (s, none) := by
  cases fuel with
  | zero => rfl
  | succ fuel =>
      rw [forLoop, if_neg]
      rintro ⟨hlt, -⟩
      omega

theorem forLoop_char (hoff : s.offset < pageSize) (hcount : s.count < b.argc) (hi : s.i < pageSize)
    (hbyte : b.byteAt (base + s.offset) ≠ 0) :
    forLoop b pageSize base (fuel + 1) s = forLoop b pageSize base fuel (s.char b base) := by
  rw [forLoop, if_pos ⟨hoff, hcount, hi⟩, if_neg hbyte]

theorem forLoop_first (hoff : s.offset < pageSize) (hcount : s.count < b.argc) (hi : s.i < pageSize)
    (hbyte : b.byteAt (base + s.offset) = 0) (hzero : s.count = 0) :
    forLoop b pageSize base (fuel + 1) s = forLoop b pageSize base fuel (s.reset pageSize base) := by
  rw [forLoop, if_pos ⟨hoff, hcount, hi⟩, if_pos hbyte, if_neg (by omega)]

theorem forLoop_second (hoff : s.offset < pageSize) (hcount : s.count < b.argc) (hi : s.i < pageSize)
    (hbyte : b.byteAt (base + s.offset) = 0) (hone : 0 < s.count) :
    forLoop b pageSize base (fuel + 1) s =
      ({ s with pos := s.pos + 1, count := s.count + 1, reads := s.reads ++ [base + s.offset] },
        some (cstr s.argv)) := by
  rw [forLoop, if_pos ⟨hoff, hcount, hi⟩, if_pos hbyte, if_pos (by omega)]

/-- `bs` copied into `argv` from `i` on. -/
def copied (argv : Bytes) (i : ℕ) : Bytes → Bytes
  | [] => argv
  | c :: bs => copied (argv.set i c) (i + 1) bs

/-- After `m` bytes that are copied. -/
def ArgScan.skip (s : ArgScan) (b : Bprm) (base m : ℕ) : ArgScan :=
  { s with
    offset := s.offset + m
    pos := s.pos + m
    i := s.i + m
    argv := copied s.argv s.i ((List.range' (base + s.offset) m).map b.byteAt)
    reads := s.reads ++ List.range' (base + s.offset) m }

theorem skip_char : (s.char b base).skip b base m = s.skip b base (m + 1) := by
  simp only [ArgScan.skip, ArgScan.char, List.range'_succ, List.map_cons, copied, List.append_assoc,
    List.singleton_append, Nat.add_assoc, Nat.add_comm 1 m]

/-- **A run of bytes that are not zero** is copied. -/
theorem forLoop_skip (hoff : s.offset + m ≤ pageSize) (hcount : s.count < b.argc) (hi : s.i + m ≤ pageSize)
    (hbytes : ∀ k < m, b.byteAt (base + s.offset + k) ≠ 0) :
    forLoop b pageSize base (m + fuel) s = forLoop b pageSize base fuel (s.skip b base m) := by
  induction m generalizing s with
  | zero =>
      rw [Nat.zero_add]
      simp [ArgScan.skip, copied]
  | succ m ih =>
      rw [show m + 1 + fuel = m + fuel + 1 by omega,
        forLoop_char (by omega) hcount (by omega) (by simpa using hbytes 0 (by omega)), ih, skip_char]
      · show s.offset + 1 + m ≤ pageSize
        omega
      · exact hcount
      · show s.i + 1 + m ≤ pageSize
        omega
      · intro k hk
        have h := hbytes (k + 1) (by omega)
        rwa [show base + s.offset + (k + 1) = base + (s.offset + 1) + k by omega] at h

/-- The state in which the `for` starts. -/
def ArgScan.turn (s : ArgScan) (pageSize : ℕ) : ArgScan := { s with offset := s.pos % pageSize, i := 0 }

theorem doLoop_page {r : ArgScan} (hpage : b.getArgPage (s.pos / pageSize) = true)
    (h : forLoop b pageSize (s.pos / pageSize * pageSize) (pageSize + 1) (s.turn pageSize) = (r, none))
    (hend : r.offset = pageSize) : doLoop b pageSize (fuel + 1) s = doLoop b pageSize fuel r := by
  rw [doLoop, if_neg (by rw [hpage]; decide)]
  rw [ArgScan.turn] at h
  simp only [h, if_pos hend]

theorem doLoop_handed {r : ArgScan} {arg : Bytes} (hpage : b.getArgPage (s.pos / pageSize) = true)
    (h : forLoop b pageSize (s.pos / pageSize * pageSize) (pageSize + 1) (s.turn pageSize) = (r, some arg)) :
    doLoop b pageSize (fuel + 1) s =
      some ⟨(isValidArgsName arg).1, (isValidArgsName arg).2, some arg, r.reads⟩ := by
  rw [doLoop, if_neg (by rw [hpage]; decide)]
  rw [ArgScan.turn] at h
  simp only [h]

theorem doLoop_succ {r : Outcome} (h : doLoop b pageSize fuel s = some r) :
    doLoop b pageSize (fuel + 1) s = some r := by
  induction fuel generalizing s with
  | zero => exact absurd h.symm (Option.some_ne_none _)
  | succ fuel ih =>
      rw [doLoop] at h ⊢
      split_ifs at h ⊢ with hpage
      · exact h
      · dsimp only at h ⊢
        split at h
        · exact h
        · split_ifs at h ⊢
          · exact ih h
          · exact h

theorem doLoop_mono {r : Outcome} (h : doLoop b pageSize fuel s = some r) (k : ℕ) :
    doLoop b pageSize (k + fuel) s = some r := by
  induction k with
  | zero => rwa [Nat.zero_add]
  | succ k ih =>
      rw [show k + 1 + fuel = k + fuel + 1 by omega]
      exact doLoop_succ ih

/-! ### What a state behind a position reads -/

/-- The `for` reads at its place and after it. -/
theorem forLoop_reads {x : ℕ} (h : x ∈ (forLoop b pageSize base fuel s).1.reads) :
    x ∈ s.reads ∨ base + s.offset ≤ x := by
  induction fuel generalizing s with
  | zero => exact Or.inl h
  | succ fuel ih =>
      rw [forLoop] at h
      have hone : ∀ l : List ℕ, x ∈ l ++ [base + s.offset] → x ∈ l ∨ base + s.offset ≤ x := by
        intro l hx
        rcases List.mem_append.mp hx with hx | hx
        · exact Or.inl hx
        · exact Or.inr (List.mem_singleton.mp hx).ge
      split_ifs at h
      · exact hone _ h
      · rcases ih h with hx | hx
        · exact hone _ hx
        · have hnext : base + (s.offset + 1) ≤ x := hx
          exact Or.inr (by omega)
      · rcases ih h with hx | hx
        · exact hone _ hx
        · have hnext : base + (s.offset + 1) ≤ x := hx
          exact Or.inr (by omega)
      · exact Or.inl h

theorem forLoop_pos : s.pos ≤ (forLoop b pageSize base fuel s).1.pos := by
  induction fuel generalizing s with
  | zero => exact le_rfl
  | succ fuel ih =>
      rw [forLoop]
      split_ifs
      · exact Nat.le_succ s.pos
      · have hnext : s.pos + 2 ≤ _ := ih (s := s.reset pageSize base)
        omega
      · have hnext : s.pos + 1 ≤ _ := ih (s := s.char b base)
        omega
      · exact le_rfl

/-- **A position that has been passed is not read any more.** -/
theorem doLoop_reads {x : ℕ} {r : Outcome} (h : doLoop b pageSize fuel s = some r) (hx : x ∈ r.reads) :
    x ∈ s.reads ∨ s.pos ≤ x := by
  induction fuel generalizing s with
  | zero => exact absurd h.symm (Option.some_ne_none _)
  | succ fuel ih =>
      have hplace : s.pos / pageSize * pageSize + (s.turn pageSize).offset = s.pos :=
        Nat.div_add_mod' s.pos pageSize
      have hfor : ∀ y ∈ (forLoop b pageSize (s.pos / pageSize * pageSize) (pageSize + 1)
          (s.turn pageSize)).1.reads, y ∈ s.reads ∨ s.pos ≤ y := by
        intro y hy
        have hy := forLoop_reads hy
        rwa [hplace] at hy
      rw [doLoop] at h
      split_ifs at h with hpage
      · obtain rfl := Option.some.inj h
        exact Or.inl hx
      · dsimp only at h
        split at h
        · obtain rfl := Option.some.inj h
          exact hfor x hx
        · split_ifs at h
          · rcases ih h with hx | hx
            · exact hfor x hx
            · exact Or.inr (le_trans (forLoop_pos (s := s.turn pageSize)) hx)
          · obtain rfl := Option.some.inj h
            exact hfor x hx

end Steps

/-! ### The two arguments -/

section Arguments

variable {b : Bprm} {pageSize : ℕ} {argv0 argv1 : CStr} {rest : List CStr}

theorem block_cons (a : CStr) (args : List CStr) : block (a :: args) = a.bytes ++ 0 :: block args := by
  rw [block, List.flatMap_cons, List.append_assoc]
  rfl

theorem length_block_cons (a : CStr) (args : List CStr) :
    (block (a :: args)).length = a.strlen + 1 + (block args).length := by
  rw [block_cons, List.length_append, List.length_cons, CStr.strlen]
  omega

/-- Where the first two strings lie. -/
theorem LaidOut.places (h : LaidOut b pageSize (argv0 :: argv1 :: rest)) :
    (∀ k < argv0.strlen, b.byteAt (b.p + k) ≠ 0) ∧ b.byteAt (b.p + argv0.strlen) = 0 ∧
      (List.range' (b.p + argv0.strlen + 1) argv1.strlen).map b.byteAt = argv1.bytes ∧
        b.byteAt (b.p + argv0.strlen + 1 + argv1.strlen) = 0 := by
  have hlen := length_block_cons argv0 (argv1 :: rest)
  have hlen' := length_block_cons argv1 rest
  have hget : ∀ k, k < (block (argv0 :: argv1 :: rest)).length →
      some (b.byteAt (b.p + k)) = (argv0.bytes ++ 0 :: (argv1.bytes ++ 0 :: block rest))[k]? := by
    intro k hk
    rw [h.bytes k hk, ← block_cons, ← block_cons, List.getElem?_eq_getElem hk]
  refine ⟨fun k hk hzero => ?_, ?_, ?_, ?_⟩
  · have heq := hget k (by omega)
    rw [List.getElem?_append_left hk, hzero] at heq
    exact argv0.nulFree (List.mem_of_getElem? heq.symm)
  · have heq := hget argv0.strlen (by omega)
    rw [CStr.strlen, List.getElem?_append_right le_rfl, Nat.sub_self] at heq
    exact Option.some.inj heq
  · refine List.ext_getElem? fun k => ?_
    by_cases hk : k < argv1.strlen
    · have heq := hget (argv0.strlen + (k + 1)) (by omega)
      rw [CStr.strlen, List.getElem?_append_right (by omega), Nat.add_sub_cancel_left, List.getElem?_cons_succ,
        List.getElem?_append_left hk] at heq
      rw [← heq, List.getElem?_map, List.getElem?_range' hk]
      simp only [Option.map_some, Nat.one_mul, CStr.strlen, Nat.add_assoc, Nat.add_comm 1 k]
    · have hge : argv1.bytes.length ≤ k := not_lt.mp hk
      rw [List.getElem?_eq_none hge, List.getElem?_eq_none]
      rwa [List.length_map, List.length_range']
  · have heq := hget (argv0.strlen + (argv1.strlen + 1)) (by omega)
    rw [CStr.strlen, CStr.strlen, List.getElem?_append_right (by omega), Nat.add_sub_cancel_left,
      List.getElem?_cons_succ, List.getElem?_append_right le_rfl, Nat.sub_self] at heq
    rw [show b.p + argv0.strlen + 1 + argv1.strlen = b.p + (argv0.bytes.length + (argv1.bytes.length + 1)) by
      rw [CStr.strlen, CStr.strlen]; omega]
    exact Option.some.inj heq

theorem LaidOut.one_lt_argc (h : LaidOut b pageSize (argv0 :: argv1 :: rest)) : 1 < b.argc := by
  rw [h.argc]
  exact Nat.succ_lt_succ (Nat.succ_pos _)

/-- The bytes of `argv[0]` are not zero. -/
theorem LaidOut.first_ne_zero (h : LaidOut b pageSize (argv0 :: argv1 :: rest)) {x : ℕ} (hx : b.p ≤ x)
    (hlt : x < b.p + argv0.strlen) : b.byteAt x ≠ 0 := by
  obtain ⟨k, rfl⟩ := Nat.exists_eq_add_of_le hx
  exact h.places.1 k (by omega)

/-- The pages of `argv[0]` are there. -/
theorem LaidOut.first_page (h : LaidOut b pageSize (argv0 :: argv1 :: rest)) {x : ℕ} (hx : b.p ≤ x)
    (hle : x ≤ b.p + argv0.strlen) : b.getArgPage (x / pageSize) = true := by
  have hlen := length_block_cons argv0 (argv1 :: rest)
  obtain ⟨k, rfl⟩ := Nat.exists_eq_add_of_le hx
  exact h.pages k (by omega)

/-- The loop over the pages is at `pos`, in `argv[0]`, whose zero byte is at `n`, and has read what lies
before. -/
structure ArgScan.InFirst (s : ArgScan) (b : Bprm) (n : ℕ) : Prop where
  le_pos : b.p ≤ s.pos
  pos_le : s.pos ≤ n
  count : s.count = 0
  reads : s.reads = List.range' b.p (s.pos - b.p)

variable {s : ArgScan} {n : ℕ}

/-- The positions before `pos`, and `m` more. -/
theorem ArgScan.InFirst.range' (h : s.InFirst b n) (m : ℕ) :
    List.range' b.p (s.pos - b.p) ++ List.range' s.pos m = List.range' b.p (s.pos - b.p + m) := by
  have hpos : b.p + (s.pos - b.p) = s.pos := Nat.add_sub_cancel' h.le_pos
  have happ := List.range'_append_1 (s := b.p) (m := s.pos - b.p) (n := m)
  rwa [hpos] at happ

/-- **A page of `argv[0]`**, before the last. -/
theorem doLoop_first_page (hargc : 0 < b.argc) (hbytes : ∀ x, b.p ≤ x → x < n → b.byteAt x ≠ 0)
    (hsize : 0 < pageSize) (h : s.InFirst b n) (hpage : b.getArgPage (s.pos / pageSize) = true)
    (hlt : s.pos / pageSize < n / pageSize) :
    ∃ r : ArgScan, r.InFirst b n ∧ r.pos / pageSize = s.pos / pageSize + 1 ∧
      ∀ fuel, doLoop b pageSize (fuel + 1) s = doLoop b pageSize fuel r := by
  have hplace : s.pos / pageSize * pageSize + s.pos % pageSize = s.pos := Nat.div_add_mod' s.pos pageSize
  have hmod : s.pos % pageSize < pageSize := Nat.mod_lt _ hsize
  have hnext : s.pos / pageSize * pageSize + pageSize ≤ n := by
    rw [← Nat.succ_mul]
    exact (Nat.le_div_iff_mul_le hsize).mp hlt
  have hdiv : (s.pos / pageSize * pageSize + pageSize) / pageSize = s.pos / pageSize + 1 := by
    rw [← Nat.succ_mul, Nat.mul_div_cancel _ hsize]
  have hle := h.le_pos
  generalize hbase : s.pos / pageSize * pageSize = base at hplace hnext hdiv
  generalize hoff : s.pos % pageSize = off at hplace hmod
  have hpos : s.pos + (pageSize - off) = base + pageSize := by omega
  refine ⟨(s.turn pageSize).skip b base (pageSize - off), ⟨?_, ?_, h.count, ?_⟩, ?_, fun fuel => ?_⟩
  · show b.p ≤ s.pos + (pageSize - off)
    omega
  · show s.pos + (pageSize - off) ≤ n
    omega
  · show s.reads ++ List.range' (base + s.pos % pageSize) (pageSize - off) =
      List.range' b.p (s.pos + (pageSize - off) - b.p)
    rw [hoff, hplace, h.reads, h.range',
      show s.pos - b.p + (pageSize - off) = s.pos + (pageSize - off) - b.p by omega]
  · show (s.pos + (pageSize - off)) / pageSize = _
    rw [hpos, hdiv]
  · have hend : ((s.turn pageSize).skip b base (pageSize - off)).offset = pageSize := by
      show s.pos % pageSize + (pageSize - off) = pageSize
      omega
    refine doLoop_page hpage ?_ hend
    rw [hbase, show pageSize + 1 = (pageSize - off) + (off + 1) by omega, forLoop_skip, forLoop_end hend]
    · exact hend.le
    · show s.count < b.argc
      rw [h.count]
      exact hargc
    · show 0 + (pageSize - off) ≤ pageSize
      omega
    · intro k hk
      show b.byteAt (base + s.pos % pageSize + k) ≠ 0
      rw [hoff, hplace]
      exact hbytes _ (by omega) (by omega)

/-- The pages of `argv[0]` before the last. -/
theorem doLoop_first_pages (hargc : 0 < b.argc) (hbytes : ∀ x, b.p ≤ x → x < n → b.byteAt x ≠ 0)
    (hsize : 0 < pageSize) (hpages : ∀ x, b.p ≤ x → x ≤ n → b.getArgPage (x / pageSize) = true)
    (h : s.InFirst b n) (d : ℕ) (hd : n / pageSize = s.pos / pageSize + d) :
    ∃ r : ArgScan, r.InFirst b n ∧ r.pos / pageSize = n / pageSize ∧
      ∀ fuel, doLoop b pageSize (d + fuel) s = doLoop b pageSize fuel r := by
  induction d generalizing s with
  | zero =>
      refine ⟨s, h, hd.symm, fun fuel => ?_⟩
      rw [Nat.zero_add]
  | succ d ih =>
      obtain ⟨r, hr, hnext, hrun⟩ := doLoop_first_page hargc hbytes hsize h
        (hpages _ h.le_pos h.pos_le) (by omega)
      obtain ⟨t, ht, hlast, hrun'⟩ := ih hr (by omega)
      refine ⟨t, ht, hlast, fun fuel => ?_⟩
      rw [show d + 1 + fuel = d + fuel + 1 by omega, hrun, hrun']

/-- The state after the zero byte of `argv[0]`, at `n`. -/
def ArgScan.second (b : Bprm) (pageSize n : ℕ) : ArgScan :=
  ⟨n % pageSize + 1, n + 2, 0, 1, List.replicate pageSize 0, List.range' b.p (n + 1 - b.p)⟩

/-- The last page of `argv[0]`, up to its zero byte. -/
theorem forLoop_last_page (hargc : 0 < b.argc) (hbytes : ∀ x, b.p ≤ x → x < n → b.byteAt x ≠ 0)
    (hzero : b.byteAt n = 0) (hsize : 0 < pageSize) (h : s.InFirst b n)
    (hlast : s.pos / pageSize = n / pageSize) :
    ∃ fuel, pageSize ≤ fuel + n % pageSize ∧
      forLoop b pageSize (s.pos / pageSize * pageSize) (pageSize + 1) (s.turn pageSize) =
        forLoop b pageSize (s.pos / pageSize * pageSize) fuel (ArgScan.second b pageSize n) := by
  have hplace : s.pos / pageSize * pageSize + s.pos % pageSize = s.pos := Nat.div_add_mod' s.pos pageSize
  have hplace' : s.pos / pageSize * pageSize + n % pageSize = n := by
    rw [hlast]
    exact Nat.div_add_mod' n pageSize
  have hmod : n % pageSize < pageSize := Nat.mod_lt _ hsize
  have hle := h.le_pos
  have hle' := h.pos_le
  generalize hbase : s.pos / pageSize * pageSize = base at hplace hplace'
  obtain ⟨m, hm⟩ : ∃ m, s.pos + m = n := ⟨n - s.pos, by omega⟩
  have hoff : s.pos % pageSize + m = n % pageSize := by omega
  have hreset : ((s.turn pageSize).skip b base m).reset pageSize base = ArgScan.second b pageSize n := by
    simp only [ArgScan.turn, ArgScan.skip, ArgScan.reset, ArgScan.second, hoff, hm, h.count, h.reads, hplace]
    rw [h.range', hplace', show [n] = List.range' (b.p + (s.pos - b.p + m)) 1 by
      rw [show b.p + (s.pos - b.p + m) = n by omega]; rfl, List.range'_append_1,
      show s.pos - b.p + m + 1 = n + 1 - b.p by omega]
  refine ⟨pageSize - m, by omega, ?_⟩
  rw [show pageSize + 1 = m + (pageSize - m + 1) by omega, forLoop_skip, forLoop_first, hreset]
  · show s.pos % pageSize + m < pageSize
    omega
  · show s.count < b.argc
    rw [h.count]
    exact hargc
  · show 0 + m < pageSize
    omega
  · show b.byteAt (base + (s.pos % pageSize + m)) = 0
    rw [hoff, hplace', hzero]
  · exact h.count
  · show s.pos % pageSize + m ≤ pageSize
    omega
  · show s.count < b.argc
    rw [h.count]
    exact hargc
  · show 0 + m ≤ pageSize
    omega
  · intro k hk
    show b.byteAt (base + s.pos % pageSize + k) ≠ 0
    rw [hplace]
    exact hbytes _ (by omega) (by omega)

theorem copied_replicate (l bs : Bytes) (k : ℕ) (h : bs.length ≤ k) :
    copied (l ++ List.replicate k 0) l.length bs = l ++ (bs ++ List.replicate (k - bs.length) 0) := by
  induction bs generalizing l k with
  | nil => rfl
  | cons c bs ih =>
      obtain ⟨k, rfl⟩ : ∃ j, k = j + 1 := ⟨k - 1, by rw [List.length_cons] at h; omega⟩
      have hset : (l ++ List.replicate (k + 1) 0).set l.length c = (l ++ [c]) ++ List.replicate k 0 := by
        rw [List.set_append_right _ _ le_rfl, Nat.sub_self, List.replicate_succ, List.set_cons_zero,
          List.append_assoc]
        rfl
      have hlen : l.length + 1 = (l ++ [c]).length := by rw [List.length_append]; rfl
      rw [copied, hset, hlen, ih (l ++ [c]) k (by simpa using h)]
      simp

theorem cstr_replicate_zero (k : ℕ) : cstr (List.replicate k 0) = [] := by
  cases k with
  | zero => rfl
  | succ k => rfl

theorem byteAt_ne_zero {x : ℕ} (hbytes : (List.range' x argv1.strlen).map b.byteAt = argv1.bytes) :
    ∀ j < argv1.strlen, b.byteAt (x + j) ≠ 0 := by
  intro j hj hnul
  refine argv1.nulFree ?_
  rw [← hbytes, ← hnul]
  exact List.mem_map_of_mem (List.mem_range'_1.mpr ⟨by omega, by omega⟩)

/-- **`argv[1]` on the page of the zero byte before it** is handed on as it is. -/
theorem forLoop_second_arg {base fuel : ℕ} (hargc : 1 < b.argc) (hplace : base + n % pageSize = n)
    (hbytes : (List.range' (n + 1) argv1.strlen).map b.byteAt = argv1.bytes)
    (hzero : b.byteAt (n + 1 + argv1.strlen) = 0) (hfuel : pageSize ≤ fuel + n % pageSize)
    (hfits : n % pageSize + 1 + argv1.strlen < pageSize) (hle : b.p ≤ n) :
    ∃ r : ArgScan, r.reads = List.range' b.p (n + 1 - b.p + (argv1.strlen + 1)) ∧
      forLoop b pageSize base fuel (ArgScan.second b pageSize n) = (r, some argv1.bytes) := by
  obtain ⟨k, rfl⟩ : ∃ k, fuel = argv1.strlen + (k + 1) := ⟨fuel - argv1.strlen - 1, by omega⟩
  have hnext : base + (n % pageSize + 1) = n + 1 := by omega
  have hargv : cstr ((ArgScan.second b pageSize n).skip b base argv1.strlen).argv = argv1.bytes := by
    simp only [ArgScan.second, ArgScan.skip, hnext, hbytes]
    have hcopy := copied_replicate [] argv1.bytes pageSize (by rw [← CStr.strlen]; omega)
    rw [List.nil_append, List.length_nil, List.nil_append] at hcopy
    rw [hcopy, cstr_append_of_notMem argv1.nulFree, cstr_replicate_zero, List.append_nil]
  have hchars := byteAt_ne_zero hbytes
  have hrun : forLoop b pageSize base (argv1.strlen + (k + 1)) (ArgScan.second b pageSize n) =
      forLoop b pageSize base (k + 1) ((ArgScan.second b pageSize n).skip b base argv1.strlen) := by
    refine forLoop_skip hfits.le hargc (show 0 + argv1.strlen ≤ pageSize by omega) fun j hj => ?_
    show b.byteAt (base + (n % pageSize + 1) + j) ≠ 0
    rw [hnext]
    exact hchars j hj
  rw [forLoop_second hfits hargc (show 0 + argv1.strlen < pageSize by omega)
    (show b.byteAt (base + (n % pageSize + 1 + argv1.strlen)) = 0 by rw [← Nat.add_assoc, hnext, hzero])
    Nat.one_pos, hargv] at hrun
  refine ⟨_, ?_, hrun⟩
  show List.range' b.p (n + 1 - b.p) ++ List.range' (base + (n % pageSize + 1)) argv1.strlen ++
    [base + (n % pageSize + 1 + argv1.strlen)] = _
  rw [hnext, show base + (n % pageSize + 1 + argv1.strlen) = n + 1 + argv1.strlen by omega, List.append_assoc,
    ← List.range'_1_concat]
  have happ := List.range'_append_1 (s := b.p) (m := n + 1 - b.p) (n := argv1.strlen + 1)
  rwa [show b.p + (n + 1 - b.p) = n + 1 by omega] at happ

/-- **`argv[1]` that goes on on the next page**: the loop gets there with `pos` at its second byte. -/
theorem forLoop_second_page {base fuel : ℕ} (hargc : 1 < b.argc) (hplace : base + n % pageSize = n)
    (hmod : n % pageSize < pageSize) (hbytes : (List.range' (n + 1) argv1.strlen).map b.byteAt = argv1.bytes)
    (hfuel : pageSize ≤ fuel + n % pageSize) (hover : pageSize ≤ n % pageSize + 1 + argv1.strlen) :
    ∃ r : ArgScan, r.offset = pageSize ∧ r.pos = base + pageSize + 1 ∧ base + pageSize ∉ r.reads ∧
      forLoop b pageSize base fuel (ArgScan.second b pageSize n) = (r, none) := by
  obtain ⟨m, hm⟩ : ∃ m, n % pageSize + 1 + m = pageSize := ⟨pageSize - (n % pageSize + 1), by omega⟩
  obtain ⟨k, rfl⟩ : ∃ k, fuel = m + k := ⟨fuel - m, by omega⟩
  have hnext : base + (n % pageSize + 1) = n + 1 := by omega
  have hchars := byteAt_ne_zero hbytes
  have hend : ((ArgScan.second b pageSize n).skip b base m).offset = pageSize := hm
  have hrun : forLoop b pageSize base (m + k) (ArgScan.second b pageSize n) =
      forLoop b pageSize base k ((ArgScan.second b pageSize n).skip b base m) := by
    refine forLoop_skip hm.le hargc (show 0 + m ≤ pageSize by omega) fun j hj => ?_
    show b.byteAt (base + (n % pageSize + 1) + j) ≠ 0
    rw [hnext]
    exact hchars j (by omega)
  refine ⟨_, hend, ?_, ?_, hrun.trans (forLoop_end hend)⟩
  · show n + 2 + m = base + pageSize + 1
    omega
  · show base + pageSize ∉ List.range' b.p (n + 1 - b.p) ++ List.range' (base + (n % pageSize + 1)) m
    rw [List.mem_append, List.mem_range'_1, List.mem_range'_1]
    omega

/-- The two zero bytes are on one page exactly when `argv[1]` ends before the page does. -/
theorem same_page_iff (hsize : 0 < pageSize) (m : ℕ) :
    n / pageSize = (n + 1 + m) / pageSize ↔ n % pageSize + 1 + m < pageSize := by
  have hplace : n / pageSize * pageSize + n % pageSize = n := Nat.div_add_mod' n pageSize
  have hle : n / pageSize ≤ (n + 1 + m) / pageSize := Nat.div_le_div_right (by omega)
  have hlt : (n + 1 + m) / pageSize < n / pageSize + 1 ↔ n + 1 + m < n / pageSize * pageSize + pageSize := by
    rw [Nat.div_lt_iff_lt_mul hsize, Nat.succ_mul]
  omega

/-- **The way to the zero byte of `argv[0]`**: the loop over the pages gets to its page in a state `s`, and the `for`
there to this byte. -/
theorem LaidOut.to_second (h : LaidOut b pageSize (argv0 :: argv1 :: rest)) (hsize : 0 < pageSize) :
    ∃ (d fuel : ℕ) (s : ArgScan), b.getArgPage (s.pos / pageSize) = true ∧
      s.pos / pageSize * pageSize + (b.p + argv0.strlen) % pageSize = b.p + argv0.strlen ∧
      pageSize ≤ fuel + (b.p + argv0.strlen) % pageSize ∧
      forLoop b pageSize (s.pos / pageSize * pageSize) (pageSize + 1) (s.turn pageSize) =
        forLoop b pageSize (s.pos / pageSize * pageSize) fuel
          (ArgScan.second b pageSize (b.p + argv0.strlen)) ∧
      ∀ pages, validArgsNameFromBprm b pageSize true (d + pages) = doLoop b pageSize pages s := by
  obtain ⟨-, hzero, -, -⟩ := h.places
  have hargc : 0 < b.argc := Nat.zero_lt_of_lt h.one_lt_argc
  have hstart : ArgScan.InFirst ⟨0, b.p, 0, 0, List.replicate pageSize 0, []⟩ b (b.p + argv0.strlen) := by
    refine ⟨le_rfl, Nat.le_add_right _ _, rfl, ?_⟩
    show [] = List.range' b.p (b.p - b.p)
    rw [Nat.sub_self]
    rfl
  obtain ⟨d, hd⟩ := Nat.exists_eq_add_of_le (Nat.div_le_div_right (c := pageSize) hstart.pos_le)
  obtain ⟨s, hs, hlast, hrun⟩ := doLoop_first_pages hargc (fun x => h.first_ne_zero) hsize
    (fun x => h.first_page) hstart d hd
  obtain ⟨fuel, hfuel, hfor⟩ := forLoop_last_page hargc (fun x => h.first_ne_zero) hzero hsize hs hlast
  refine ⟨d, fuel, s, h.first_page hs.le_pos hs.pos_le, ?_, hfuel, hfor, hrun⟩
  rw [hlast]
  exact Nat.div_add_mod' _ pageSize

theorem extracts_of_same_page (h : LaidOut b pageSize (argv0 :: argv1 :: rest)) (hsize : 0 < pageSize)
    (hfits : (b.p + argv0.strlen) % pageSize + 1 + argv1.strlen < pageSize) :
    Extracts b pageSize argv0 argv1 := by
  obtain ⟨-, -, hbytes, hzero⟩ := h.places
  obtain ⟨d, fuel, s, hpage, hplace, hfuel, hfor, hrun⟩ := h.to_second hsize
  obtain ⟨r, hreads, hhand⟩ :=
    forLoop_second_arg h.one_lt_argc hplace hbytes hzero hfuel hfits (Nat.le_add_right _ _)
  refine ⟨d + (0 + 1), _, (hrun _).trans (doLoop_handed hpage (hfor.trans hhand)), rfl, ?_⟩
  show r.reads = _
  rw [hreads, show b.p + argv0.strlen + 1 - b.p = argv0.strlen + 1 by omega]

theorem not_extracts_of_next_page (h : LaidOut b pageSize (argv0 :: argv1 :: rest)) (hsize : 0 < pageSize)
    (hover : pageSize ≤ (b.p + argv0.strlen) % pageSize + 1 + argv1.strlen) :
    ¬ Extracts b pageSize argv0 argv1 := by
  rintro ⟨pages, r, hr, -, hreads⟩
  obtain ⟨-, -, hbytes, -⟩ := h.places
  obtain ⟨d, fuel, s, hpage, hplace, hfuel, hfor, hrun⟩ := h.to_second hsize
  obtain ⟨t, hend, hpos, hnot, hpass⟩ :=
    forLoop_second_page h.one_lt_argc hplace (Nat.mod_lt _ hsize) hbytes hfuel hover
  -- the run goes on from `t`, behind the first byte of the page
  have hrest : doLoop b pageSize pages t = some r := by
    rw [← doLoop_page hpage (hfor.trans hpass) hend, ← hrun]
    have hmono := doLoop_mono (show doLoop b pageSize pages _ = some r from hr) (d + 1)
    rwa [show d + 1 + pages = d + (pages + 1) by omega] at hmono
  have hmem : s.pos / pageSize * pageSize + pageSize ∈ r.reads := by
    rw [hreads, List.mem_range'_1]
    have hmod := Nat.mod_lt (b.p + argv0.strlen) hsize
    omega
  rcases doLoop_reads hrest hmem with hx | hx
  · exact hnot hx
  · omega

end Arguments

/-- **When the script is extracted whole:** for every block of at least two arguments, at every place and with
every length, exactly when the zero bytes of `argv[0]` and of `argv[1]` are on one page. -/
theorem script_args_iff {b : Bprm} {pageSize : ℕ} {argv0 argv1 : CStr} {rest : List CStr}
    (h : LaidOut b pageSize (argv0 :: argv1 :: rest)) (hsize : 0 < pageSize) :
    Extracts b pageSize argv0 argv1 ↔
      (b.p + argv0.strlen) / pageSize = (b.p + argv0.strlen + 1 + argv1.strlen) / pageSize := by
  rw [same_page_iff hsize]
  constructor
  · intro hex
    by_contra hover
    exact not_extracts_of_next_page h hsize (not_lt.mp hover) hex
  · exact extracts_of_same_page h hsize

/-- `sh x`, from `p` on. -/
def shX (p : ℕ) : Bprm := ⟨p, 2, fun x => [115, 104, 0, 120, 0].getD (x - p) 0, fun _ => true⟩

theorem shX_laidOut (p : ℕ) : LaidOut (shX p) 4096 [CStr.ofBytes [115, 104], CStr.ofBytes [120]] where
  argc := rfl
  bytes := by
    intro k hk
    show [115, 104, 0, 120, 0].getD (p + k - p) 0 = _
    rw [Nat.add_sub_cancel_left]
    rw [List.getD_eq_getElem?_getD]
    exact congrArg (fun o : Option UInt8 => o.getD 0) (List.getElem?_eq_getElem hk)
  pages := fun _ _ => rfl

/-- `sh x` at the start of a page. -/
theorem script_args_one_page : Extracts (shX 0) 4096 (CStr.ofBytes [115, 104]) (CStr.ofBytes [120]) :=
  (script_args_iff (shX_laidOut 0) (by decide)).mpr (by decide)

/-- **The first byte of a page is left out.**  `sh x` with the zero byte of `sh` at the end of a page. -/
theorem script_args_next_page :
    ¬ ∀ (b : Bprm) (argv0 argv1 : CStr) (rest : List CStr), LaidOut b 4096 (argv0 :: argv1 :: rest) →
      Extracts b 4096 argv0 argv1 := by
  intro h
  exact not_extracts_of_next_page (shX_laidOut 4093) (by decide) (by decide) (h _ _ _ _ (shX_laidOut 4093))

end ScriptArgs
end TsbAgent
