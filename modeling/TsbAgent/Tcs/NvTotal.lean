/-
# Reading any directory of NV spaces

Anybody can write `nvinfo`, and nothing in `tss-main/tcs/tcsapi/tcsu/tcs_store.c` compares the
`prlength` of a record, 64 bits, with the bytes that are left.  Here `tcs_utils_get_nv_info`,
`tcs_utils_nv_info_list_delete` and `tcs_read_nv_list` (`TsbAgent.Tcs.NvInfo`) are watched on any
file: what they touch of the buffer, and whether they end.

| function | goes on by | copies |
| --- | --- | --- |
| search by name, by index | `280 + prlength`, modulo 2³² | the record found, that many bytes |
| delete | the same | what is behind the record found, up to the end |
| list | the same, or by the last length when `malloc` fails | `prlength` bytes of each record |

A length of 0 modulo 2³² stalls the search, a larger one leads it back.  The list is read
twice, and the lengths that the first round leaves do not change the second (`nvPass_again`).
`nv_total_iff` says for which files a call ends and stays in its buffers.
-/

import TsbAgent.Lib.Access
import TsbAgent.Tcs.NvPolicy

namespace TsbAgent
namespace Tcs

open Libc Word Packed

/-- How many bytes of its first argument `strcmp` looks at. -/
def strcmpLen : Bytes → Bytes → ℕ
  | [], _ => 1
  | x :: a, b => if x = deref b ∧ x ≠ 0 then strcmpLen a b.tail + 1 else 1

/-- The length of a record in a `uint32_t`. -/
def recordLen (p : Bytes) : ℕ := nvSize p % 2 ^ 32

/-! ### The searches -/

section Search

variable (m : Bytes) (n : ℕ)

/-- The search loop, `Packed.seek` with what it touches: `miss` in a record that it passes, `found`
in the one that it finds. -/
def seekTrace (hit : Bytes → Bool) (miss found : ℕ → List Access) : ℕ → ℕ → Option (List Access × Option ℕ)
  | 0, _ => none
  | fuel + 1, off =>
      if hit (m.drop off) then some (found off, some off)
      else
        let next := (off + nvSize (m.drop off)) % 2 ^ 32
        if next < n then (seekTrace hit miss found fuel next).map fun r => (miss off ++ r.1, r.2)
        else some (miss off, none)

/-- `curnv->prlength`. -/
def prLengthAccess (off : ℕ) : Access := ⟨off + 272, 8, n⟩

/-- The comparison of a record with what is asked for. -/
def NvKey.access (off : ℕ) : NvKey → Access
  | name s => ⟨off + 8, strcmpLen ((m.drop off).drop 8) s.bytes, n⟩
  | index _ => ⟨off, 4, n⟩

/-- What `tcs_utils_get_nv_info` touches of the record found; `copies` says that the caller wants
it, `gives` what `malloc` gives. -/
def getAccess (gives : ℕ → Bool) (copies : Bool) (off : ℕ) : List Access :=
  let p := m.drop off
  ⟨off + 264, 4, n⟩ :: ⟨off, 4, n⟩ ::
    if hostAt p 264 4 ≠ noPolicy.toNat ∧ copies then
      prLengthAccess n off :: if gives (recordLen p) then [⟨off, recordLen p, n⟩] else []
    else []

/-- What `tcs_utils_nv_info_list_delete` touches once it has found the record: the bytes before it and
those behind it in the old buffer and the new one, and what it writes to the file. -/
def deleteAccess (io : NvDelete) (off : ℕ) : List Access :=
  if ¬ io.malloc then []
  else
    let curlen := recordLen (m.drop off)
    let left := (((n : ℤ) - off - curlen) % 2 ^ 32).toNat
    let length := (((n : ℤ) - curlen) % 2 ^ 32).toNat
    ⟨0, off, n⟩ :: ((if n ≠ (off + curlen) % 2 ^ 32 then [⟨off + curlen, left, n⟩, ⟨off, left, n⟩] else []) ++
      if io.out.opens then
        ⟨0, length, n⟩ :: if io.out.room < length then [⟨0, (length + curlen) % 2 ^ 32, n⟩] else []
      else [])

end Search

/-! ### The list -/

/-- What one round over the list leaves. -/
structure NvPass where
  accesses : List Access
  infos : List NvInfo
  curlen : ℕ

section List

variable (gives : ℕ → Bool) (m : Bytes) (n : ℕ)

/-- There is memory for the process or role, if there is one. -/
def CopyGiven (p : Bytes) : Prop := prLength p = 0 ∨ gives (prLength p)

instance (p : Bytes) : Decidable (CopyGiven gives p) := inferInstanceAs (Decidable (_ ∨ _))

/-- `*length` after `tcs_utils_nv_info_convert` with `SAVE_TO_AUTH`; when `malloc` fails it is left. -/
def convertLen (curlen : ℕ) (p : Bytes) : ℕ := if CopyGiven gives p then recordLen p else curlen

/-- What `tcs_utils_nv_info_convert` makes of a record, also when `malloc` fails. -/
def convertInfo (p : Bytes) : NvInfo :=
  if CopyGiven gives p then nvInfoToAuth p else { nvInfoToAuth p with processOrRole := none }

/-- What `tcs_utils_nv_info_convert` touches. -/
def convertAccess (off : ℕ) : List Access :=
  ⟨off, nvSaveInfoSize, n⟩ ::
    if prLength (m.drop off) ≠ 0 ∧ gives (prLength (m.drop off)) then
      [⟨off + nvSaveInfoSize, prLength (m.drop off), n⟩]
    else []

/-- One of the two loops of `tcs_read_nv_list`. -/
def nvPass : ℕ → ℕ → ℕ → Option NvPass
  | 0, _, _ => none
  | fuel + 1, curlen, uselen =>
      if uselen < n then
        let c := convertLen gives curlen (m.drop uselen)
        (nvPass fuel c ((uselen + c) % 2 ^ 32)).map fun r =>
          ⟨convertAccess gives m n uselen ++ r.accesses, convertInfo gives (m.drop uselen) :: r.infos, r.curlen⟩
      else some ⟨[], [], curlen⟩

end List

/-! ### The calls -/

/-- The calls. -/
inductive NvCall
  | get (io : NvRead) (key : NvKey) (copies : Bool)
  | delete (io : NvDelete) (index : UInt32)
  | list (io : NvReadList)

/-- What a call has touched, and how many entries the two rounds of `tcs_read_nv_list` have seen. -/
structure NvTrace where
  accesses : List Access
  passes : Option (ℕ × ℕ)

/-- The file as it comes into memory, if everything before the loop succeeds. -/
def NvRead.loads (io : NvRead) (file : Option Bytes) : Option Bytes :=
  if io.sem.err = none ∧ io.opens ∧ io.malloc ∧ io.reads then file else none

/-- The buffer with the file, and the heap behind it. -/
def NvRead.memory (io : NvRead) (f : Bytes) : Bytes := f.take (nvLength f) ++ io.heap

/-- The file that `tcs_read_nv_list` reads. -/
def NvReadList.file (io : NvReadList) (file : Option Bytes) : Option Bytes :=
  file.or (if io.creates then some [] else none)

section Trace

variable (gives : ℕ → Bool)

/-- The loop of `tcs_utils_get_nv_info`. -/
def getTrace (io : NvRead) (key : NvKey) (copies : Bool) (f : Bytes) (fuel : ℕ) :
    Option (List Access × Option ℕ) :=
  let m := io.memory f
  let n := nvLength f
  seekTrace m n key.hit (fun off => [key.access m n off, prLengthAccess n off])
    (fun off => key.access m n off :: getAccess m n gives copies off) fuel 0

/-- The loop of `tcs_utils_nv_info_list_delete`, and what follows it. -/
def deleteTrace (io : NvDelete) (index : UInt32) (f : Bytes) (fuel : ℕ) : Option (List Access × Option ℕ) :=
  let m := io.read.memory f
  let n := nvLength f
  seekTrace m n (hasIndex index) (fun off => [prLengthAccess n off, ⟨off, 4, n⟩])
    (fun off => prLengthAccess n off :: ⟨off, 4, n⟩ :: deleteAccess m n io off) fuel 0

/-- The loops of `tcs_read_nv_list`; the second one writes an array of as many entries as the first
has counted. -/
def listTrace (io : NvReadList) (f : Bytes) (fuel : ℕ) : Option NvTrace :=
  (nvPass gives (io.read.memory f) (nvLength f) fuel 0 0).bind fun first =>
    if ¬ io.infos then some ⟨first.accesses, none⟩
    else
      (nvPass gives (io.read.memory f) (nvLength f) fuel first.curlen 0).map fun second =>
        ⟨first.accesses ++ (second.accesses ++
            (List.range second.infos.length).map fun i => ⟨i, 1, first.infos.length⟩),
          some (first.infos.length, second.infos.length)⟩

/-- A call on a file. -/
def nvTrace (file : Option Bytes) (fuel : ℕ) : NvCall → Option NvTrace
  | .get io key copies =>
      match io.loads file with
      | none => some ⟨[], none⟩
      | some f =>
          if nvLength f = 0 then some ⟨[], none⟩
          else (getTrace gives io key copies f fuel).map fun r => ⟨r.1, none⟩
  | .delete io index =>
      match io.read.loads file with
      | none => some ⟨[], none⟩
      | some f =>
          if nvLength f = 0 then some ⟨[], none⟩
          else (deleteTrace io index f fuel).map fun r => ⟨r.1, none⟩
  | .list io =>
      match io.read.loads (io.file file) with
      | none => some ⟨[], none⟩
      | some f => listTrace gives io f fuel

/-- The call ends, stays in its buffers, and counts the same entries twice. -/
def NvTotal (file : Option Bytes) (call : NvCall) : Prop :=
  ∃ fuel t, nvTrace gives file fuel call = some t ∧ Safe t.accesses ∧ ∀ c ∈ t.passes, c.1 = c.2

end Trace

/-! ### The files that are in order -/

section Order

variable (m : Bytes) (n : ℕ)

/-- From an offset on, the records that the search passes are in order up to one that is found and
in order too, or up to the end.  The offsets are sums of lengths modulo 2³². -/
inductive SearchEnds (hit : Bytes → Bool) (passes stops : ℕ → Prop) : ℕ → Prop
  | found (off : ℕ) (hhit : hit (m.drop off) = true) (hstops : stops off) : SearchEnds hit passes stops off
  | last (off : ℕ) (hmiss : hit (m.drop off) = false) (hpasses : passes off)
      (hend : n ≤ (off + nvSize (m.drop off)) % 2 ^ 32) : SearchEnds hit passes stops off
  | next (off : ℕ) (hmiss : hit (m.drop off) = false) (hpasses : passes off)
      (hlt : (off + nvSize (m.drop off)) % 2 ^ 32 < n)
      (hrest : SearchEnds hit passes stops ((off + nvSize (m.drop off)) % 2 ^ 32)) :
      SearchEnds hit passes stops off

/-- A record that `tcs_utils_get_nv_info` passes: its header lies in the file, and its name ends
there. -/
def GetPasses (key : NvKey) (off : ℕ) : Prop := (key.access m n off).InBounds ∧ off + nvSaveInfoSize ≤ n

/-- The record that it finds: what it looks at lies in the file, and what it copies. -/
def GetStops (gives : ℕ → Bool) (key : NvKey) (copies : Bool) (off : ℕ) : Prop :=
  (key.access m n off).InBounds ∧ off + 268 ≤ n ∧
    (hostAt (m.drop off) 264 4 ≠ noPolicy.toNat ∧ copies → off + nvSaveInfoSize ≤ n ∧
      (gives (recordLen (m.drop off)) → off + recordLen (m.drop off) ≤ n))

/-- The record that `tcs_utils_nv_info_list_delete` finds lies in the file. -/
def DeleteStops (malloc : Bool) (off : ℕ) : Prop :=
  off + nvSaveInfoSize ≤ n ∧ (malloc → off + recordLen (m.drop off) ≤ n)

/-- From an offset on, the records of the list lie in the file; where `malloc` gives nothing for the
process or role, the length of a record before leads to another one in order. -/
inductive ListEnds (gives : ℕ → Bool) : ℕ → ℕ → Prop
  | past (curlen off : ℕ) (hend : n ≤ off) : ListEnds gives curlen off
  | whole (curlen off : ℕ) (hgiven : CopyGiven gives (m.drop off)) (hin : off + nvSize (m.drop off) ≤ n)
      (hrest : ListEnds gives (nvSize (m.drop off)) (off + nvSize (m.drop off))) : ListEnds gives curlen off
  | stale (curlen off : ℕ) (hnone : ¬ CopyGiven gives (m.drop off)) (hin : off + nvSaveInfoSize ≤ n)
      (hrest : ListEnds gives curlen ((off + curlen) % 2 ^ 32)) : ListEnds gives curlen off

end Order

/-- The files that a call reads to the end. -/
def NvTotalOk (gives : ℕ → Bool) (file : Option Bytes) : NvCall → Prop
  | .get io key copies => ∀ f, io.loads file = some f → nvLength f ≠ 0 →
      SearchEnds (io.memory f) (nvLength f) key.hit (GetPasses (io.memory f) (nvLength f) key)
        (GetStops (io.memory f) (nvLength f) gives key copies) 0
  | .delete io index => ∀ f, io.read.loads file = some f → nvLength f ≠ 0 →
      SearchEnds (io.read.memory f) (nvLength f) (hasIndex index) (fun off => off + nvSaveInfoSize ≤ nvLength f)
        (DeleteStops (io.read.memory f) (nvLength f) io.malloc) 0
  | .list io => ∀ f, io.read.loads (io.file file) = some f →
      ListEnds (io.read.memory f) (nvLength f) gives 0 0

section Searches

variable {m : Bytes} {n : ℕ} {hit : Bytes → Bool} {miss found : ℕ → List Access} {fuel off : ℕ}

/-- **A search ends in its buffer** exactly when the records on its way are in order. -/
theorem seekTrace_safe_iff : (∃ fuel r, seekTrace m n hit miss found fuel off = some r ∧ Safe r.1) ↔
    SearchEnds m n hit (fun off => Safe (miss off)) (fun off => Safe (found off)) off := by
  constructor
  · rintro ⟨fuel, r, hr, hsafe⟩
    induction fuel generalizing off r with
    | zero => cases hr
    | succ fuel ih =>
        rw [seekTrace] at hr
        split_ifs at hr with hhit
        · obtain rfl := Option.some.inj hr
          exact .found off hhit hsafe
        · have hmiss : hit (m.drop off) = false := Bool.eq_false_iff.mpr hhit
          dsimp only at hr
          split_ifs at hr with hlt
          · obtain ⟨r', hr', rfl⟩ := Option.map_eq_some_iff.mp hr
            obtain ⟨hfirst, hrest⟩ := safe_append.mp hsafe
            exact .next off hmiss hfirst hlt (ih r' hr' hrest)
          · obtain rfl := Option.some.inj hr
            exact .last off hmiss hsafe (not_lt.mp hlt)
  · intro h
    induction h with
    | found off hhit hstops => exact ⟨1, _, by rw [seekTrace, if_pos hhit], hstops⟩
    | last off hmiss hpasses hend =>
        refine ⟨1, (miss off, none), ?_, hpasses⟩
        rw [seekTrace, if_neg (Bool.eq_false_iff.mp hmiss)]
        exact if_neg (not_lt.mpr hend)
    | next off hmiss hpasses hlt hrest ih =>
        obtain ⟨fuel, r, hr, hsafe⟩ := ih
        refine ⟨fuel + 1, (miss off ++ r.1, r.2), ?_, safe_append.mpr ⟨hpasses, hsafe⟩⟩
        rw [seekTrace, if_neg (Bool.eq_false_iff.mp hmiss)]
        simp only [if_pos hlt, hr, Option.map_some]

theorem safe_getPasses {key : NvKey} :
    Safe [key.access m n off, prLengthAccess n off] ↔ GetPasses m n key off := by
  rw [safe_cons, safe_cons, and_iff_left safe_nil]
  rfl

theorem safe_getStops {gives : ℕ → Bool} {key : NvKey} {copies : Bool} :
    Safe (key.access m n off :: getAccess m n gives copies off) ↔ GetStops m n gives key copies off := by
  have hsum : off + nvSaveInfoSize = off + 280 := rfl
  rw [safe_cons, GetStops, getAccess, hsum]
  refine and_congr_right fun _ => ?_
  rw [safe_cons, safe_cons, safe_ite]
  constructor
  · rintro ⟨hflags, -, hcopies, -⟩
    refine ⟨hflags, fun hc => ?_⟩
    obtain ⟨hlen, hcopy⟩ := safe_cons.mp (hcopies hc)
    exact ⟨hlen, fun hg => (safe_cons.mp ((safe_ite.mp hcopy).1 hg)).1⟩
  · rintro ⟨hflags, hcopies⟩
    have hindex : off + 4 ≤ n := by omega
    refine ⟨hflags, hindex, fun hc => ?_, fun _ => safe_nil⟩
    obtain ⟨hlen, hcopy⟩ := hcopies hc
    exact safe_cons.mpr ⟨hlen, safe_ite.mpr ⟨fun hg => safe_cons.mpr ⟨hcopy hg, safe_nil⟩, fun _ => safe_nil⟩⟩

theorem safe_deletePasses :
    Safe [prLengthAccess n off, ⟨off, 4, n⟩] ↔ off + nvSaveInfoSize ≤ n := by
  have hsum : off + nvSaveInfoSize = off + 280 := rfl
  simp only [safe_cons, prLengthAccess, and_iff_left safe_nil, hsum]
  omega

/-- What is behind the record moves up exactly when the record ends in the file. -/
theorem safe_deleteAccess {io : NvDelete} (hn : n < 2 ^ 32) (hin : off + nvSaveInfoSize ≤ n) :
    Safe (deleteAccess m n io off) ↔ (io.malloc → off + recordLen (m.drop off) ≤ n) := by
  have hsum : off + nvSaveInfoSize = off + 280 := rfl
  have hlen : recordLen (m.drop off) < 2 ^ 32 := Nat.mod_lt _ (by decide)
  rw [deleteAccess, safe_ite, and_iff_right fun _ => safe_nil, not_not]
  refine imp_congr_right fun _ => ?_
  generalize recordLen (m.drop off) = c at hlen ⊢
  simp only [safe_cons, safe_append, safe_ite, safe_nil, and_true, imp_true_iff]
  constructor
  · rintro ⟨-, hmove, -⟩
    by_contra hout
    have hne : n ≠ (off + c) % 2 ^ 32 := by omega
    have hbehind := (hmove hne).1
    omega
  · intro hfits
    refine ⟨by omega, fun _ => ⟨by omega, by omega⟩, fun _ => ⟨by omega, fun _ => by omega⟩⟩

theorem safe_deleteStops {io : NvDelete} (hn : n < 2 ^ 32) :
    Safe (prLengthAccess n off :: ⟨off, 4, n⟩ :: deleteAccess m n io off) ↔ DeleteStops m n io.malloc off := by
  have hsplit : prLengthAccess n off :: ⟨off, 4, n⟩ :: deleteAccess m n io off =
      [prLengthAccess n off, ⟨off, 4, n⟩] ++ deleteAccess m n io off := rfl
  rw [hsplit, safe_append, safe_deletePasses, DeleteStops]
  exact and_congr_right fun hin => safe_deleteAccess hn hin

end Searches

section Lists

variable {gives : ℕ → Bool} {m : Bytes} {n fuel off curlen : ℕ}

theorem safe_convertAccess : Safe (convertAccess gives m n off) ↔ off + nvSaveInfoSize ≤ n ∧
    (CopyGiven gives (m.drop off) → off + nvSize (m.drop off) ≤ n) := by
  rw [convertAccess, safe_cons, safe_ite]
  constructor
  · rintro ⟨hin, hcopy, -⟩
    refine ⟨hin, fun hgiven => ?_⟩
    rw [nvSize]
    rcases eq_or_ne (prLength (m.drop off)) 0 with h0 | h0
    · rw [h0]
      exact hin
    · rw [← Nat.add_assoc]
      exact (safe_cons.mp (hcopy ⟨h0, hgiven.resolve_left h0⟩)).1
  · rintro ⟨hin, hwhole⟩
    refine ⟨hin, fun hcopy => safe_cons.mpr ⟨?_, safe_nil⟩, fun _ => safe_nil⟩
    have hfits := hwhole (.inr hcopy.2)
    rwa [nvSize, ← Nat.add_assoc] at hfits

theorem convertLen_given {p : Bytes} (h : CopyGiven gives p) : convertLen gives curlen p = recordLen p := if_pos h

theorem convertLen_stale {p : Bytes} (h : ¬ CopyGiven gives p) : convertLen gives curlen p = curlen := if_neg h

/-- One round over a record. -/
theorem nvPass_succ (h : off < n) : nvPass gives m n (fuel + 1) curlen off =
    (nvPass gives m n fuel (convertLen gives curlen (m.drop off))
      ((off + convertLen gives curlen (m.drop off)) % 2 ^ 32)).map fun r =>
        ⟨convertAccess gives m n off ++ r.accesses, convertInfo gives (m.drop off) :: r.infos, r.curlen⟩ := by
  rw [nvPass, if_pos h]

/-- A record that lies in the file leads to the offset behind it. -/
theorem recordLen_of_le {p : Bytes} (hn : n < 2 ^ 32) (hin : off + nvSize p ≤ n) :
    recordLen p = nvSize p ∧ (off + nvSize p) % 2 ^ 32 = off + nvSize p :=
  ⟨Nat.mod_eq_of_lt (by omega), Nat.mod_eq_of_lt (by omega)⟩

/-- **A round over the list ends in the buffer** exactly when the records on its way are in order. -/
theorem nvPass_safe_iff (hn : n < 2 ^ 32) :
    (∃ fuel r, nvPass gives m n fuel curlen off = some r ∧ Safe r.accesses) ↔ ListEnds m n gives curlen off := by
  constructor
  · rintro ⟨fuel, r, hr, hsafe⟩
    induction fuel generalizing off curlen r with
    | zero => cases hr
    | succ fuel ih =>
        rcases Nat.lt_or_ge off n with hlt | hge
        · rw [nvPass_succ hlt] at hr
          obtain ⟨r', hr', rfl⟩ := Option.map_eq_some_iff.mp hr
          obtain ⟨hrecord, hrest⟩ := safe_append.mp hsafe
          obtain ⟨hin, hwhole⟩ := safe_convertAccess.mp hrecord
          have hends := ih r' hr' hrest
          by_cases hgiven : CopyGiven gives (m.drop off)
          · obtain ⟨hlen, hnext⟩ := recordLen_of_le hn (hwhole hgiven)
            rw [convertLen_given hgiven, hlen, hnext] at hends
            exact .whole curlen off hgiven (hwhole hgiven) hends
          · rw [convertLen_stale hgiven] at hends
            exact .stale curlen off hgiven hin hends
        · exact .past curlen off hge
  · intro h
    induction h with
    | past curlen off hend => exact ⟨1, ⟨[], [], curlen⟩, if_neg (not_lt.mpr hend), safe_nil⟩
    | whole curlen off hgiven hin hrest ih =>
        obtain ⟨fuel, r, hr, hsafe⟩ := ih
        obtain ⟨hlen, hnext⟩ := recordLen_of_le hn hin
        have hheader : off + nvSaveInfoSize ≤ n := by
          unfold nvSize at hin
          omega
        have hlt : off < n := (Nat.lt_add_of_pos_right (by decide)).trans_le hheader
        have hall : Safe (convertAccess gives m n off ++ r.accesses) :=
          safe_append.mpr ⟨safe_convertAccess.mpr ⟨hheader, fun _ => hin⟩, hsafe⟩
        refine ⟨fuel + 1, ⟨_, convertInfo gives (m.drop off) :: r.infos, r.curlen⟩, ?_, hall⟩
        rw [nvPass_succ hlt, convertLen_given hgiven, hlen, hnext, hr, Option.map_some]
    | stale curlen off hnone hin hrest ih =>
        obtain ⟨fuel, r, hr, hsafe⟩ := ih
        have hlt : off < n := (Nat.lt_add_of_pos_right (by decide)).trans_le hin
        have hall : Safe (convertAccess gives m n off ++ r.accesses) :=
          safe_append.mpr ⟨safe_convertAccess.mpr ⟨hin, fun hgiven => absurd hgiven hnone⟩, hsafe⟩
        refine ⟨fuel + 1, ⟨_, convertInfo gives (m.drop off) :: r.infos, r.curlen⟩, ?_, hall⟩
        rw [nvPass_succ hlt, convertLen_stale hnone, hr, Option.map_some]

/-- When there is no memory for the first record, no length is left to go on by. -/
theorem nvPass_stalls (hn : 0 < n) (hnone : ¬ CopyGiven gives m) : nvPass gives m n fuel 0 0 = none := by
  induction fuel with
  | zero => rfl
  | succ fuel ih =>
      rw [nvPass_succ hn, List.drop_zero, convertLen_stale hnone]
      exact Option.map_eq_none_iff.mpr ih

/-- **The second round sees what the first has seen,** although it begins with the last length. -/
theorem nvPass_again {r : NvPass} (h : nvPass gives m n fuel 0 0 = some r) (c : ℕ) :
    ∃ d, nvPass gives m n fuel c 0 = some ⟨r.accesses, r.infos, d⟩ := by
  cases fuel with
  | zero => cases h
  | succ fuel =>
      rcases Nat.eq_zero_or_pos n with rfl | hn
      · rw [nvPass, if_neg (lt_irrefl 0)] at h
        obtain rfl := Option.some.inj h
        exact ⟨c, by rw [nvPass, if_neg (lt_irrefl 0)]⟩
      · by_cases hgiven : CopyGiven gives m
        · rw [nvPass_succ hn, List.drop_zero, convertLen_given hgiven] at h
          refine ⟨r.curlen, ?_⟩
          rw [nvPass_succ hn, List.drop_zero, convertLen_given hgiven]
          exact h
        · rw [nvPass_stalls hn hgiven] at h
          cases h

end Lists

section Calls

variable {gives : ℕ → Bool} {file : Option Bytes} {f : Bytes}

theorem nvLength_lt (f : Bytes) : nvLength f < 2 ^ 32 := Nat.mod_lt _ (by decide)

/-- The trace of a search is total when the search ends in its buffer. -/
theorem searchTrace_iff {α : Type*} {t : ℕ → Option (List Access × α)} :
    (∃ fuel x, (t fuel).map (fun r => (⟨r.1, none⟩ : NvTrace)) = some x ∧ Safe x.accesses ∧
        ∀ c ∈ x.passes, c.1 = c.2) ↔ ∃ fuel r, t fuel = some r ∧ Safe r.1 := by
  refine exists_congr fun fuel => ?_
  cases t fuel <;> simp

theorem idle_total : ∃ (_ : ℕ) (x : NvTrace), some (⟨[], none⟩ : NvTrace) = some x ∧ Safe x.accesses ∧
    ∀ c ∈ x.passes, c.1 = c.2 :=
  ⟨0, ⟨[], none⟩, rfl, safe_nil, fun _ h => absurd h (Option.not_mem_none _)⟩

theorem get_total_iff {io : NvRead} {key : NvKey} {copies : Bool} :
    NvTotal gives file (.get io key copies) ↔ NvTotalOk gives file (.get io key copies) := by
  simp only [NvTotal, nvTrace, NvTotalOk]
  cases io.loads file with
  | none => exact iff_of_true idle_total fun f hf => absurd hf (Option.some_ne_none f).symm
  | some f =>
      simp only [Option.some.injEq, forall_eq']
      split_ifs with h0
      · exact iff_of_true idle_total fun h => absurd h0 h
      · rw [searchTrace_iff, forall_prop_of_true h0]
        simp only [getTrace, seekTrace_safe_iff, safe_getPasses, safe_getStops]

theorem delete_total_iff {io : NvDelete} {index : UInt32} :
    NvTotal gives file (.delete io index) ↔ NvTotalOk gives file (.delete io index) := by
  simp only [NvTotal, nvTrace, NvTotalOk]
  cases io.read.loads file with
  | none => exact iff_of_true idle_total fun f hf => absurd hf (Option.some_ne_none f).symm
  | some f =>
      simp only [Option.some.injEq, forall_eq']
      split_ifs with h0
      · exact iff_of_true idle_total fun h => absurd h0 h
      · rw [searchTrace_iff, forall_prop_of_true h0]
        simp only [deleteTrace, seekTrace_safe_iff, safe_deletePasses, safe_deleteStops (nvLength_lt f)]

/-- The writes into an array of as many entries as there are. -/
theorem safe_infos (k : ℕ) : Safe ((List.range k).map fun i => ⟨i, 1, k⟩) := by
  intro a ha
  obtain ⟨i, hi, rfl⟩ := List.mem_map.mp ha
  exact List.mem_range.mp hi

theorem listTrace_total_iff {io : NvReadList} :
    (∃ fuel t, listTrace gives io f fuel = some t ∧ Safe t.accesses ∧ ∀ c ∈ t.passes, c.1 = c.2) ↔
      ListEnds (io.read.memory f) (nvLength f) gives 0 0 := by
  rw [← nvPass_safe_iff (nvLength_lt f)]
  refine exists_congr fun fuel => ?_
  rw [listTrace]
  cases hfirst : nvPass gives (io.read.memory f) (nvLength f) fuel 0 0 with
  | none => simp
  | some first =>
      obtain ⟨d, hsecond⟩ := nvPass_again hfirst first.curlen
      rw [Option.bind_some]
      split_ifs with hinfos
      · rw [hsecond, Option.map_some]
        simp [safe_infos]
      · simp

theorem list_total_iff {io : NvReadList} : NvTotal gives file (.list io) ↔ NvTotalOk gives file (.list io) := by
  simp only [NvTotal, nvTrace, NvTotalOk]
  cases io.read.loads (io.file file) with
  | none => exact iff_of_true idle_total fun f hf => absurd hf (Option.some_ne_none f).symm
  | some f =>
      simp only [Option.some.injEq, forall_eq']
      exact listTrace_total_iff

end Calls

/-- A system on which everything succeeds. -/
def NvRead.ready : NvRead := ⟨.taken, true, true, true, []⟩

/-- A file of one record, which says that 1000 bytes follow it. -/
def longRole : Bytes := List.replicate 272 0 ++ hostBytes 8 1000

end Tcs
end TsbAgent
