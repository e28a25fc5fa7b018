/-
# The bytes that policy parsing touches

The two loops over policy records (`TsbAgent.Whitelist.Parse`) with every byte they touch.
A record is looked at in this order:

| access | bytes | guarded by |
| --- | --- | --- |
| `be_path_length`, converted in place | 2 and 3 of the record | that a byte is left, or more than a header |
| `extend_size` | 1 of the record | the same |
| the digest, compared with zeros and then copied | 32 | the record is complete |
| the path | `be_path_length` | the record is complete |
| `path[512]`, written | `be_path_length` | nothing |

The command only asks that a byte is left before it reads a header, and neither loop looks at the
length of a path before it copies it.  `policy_parsing_bounds` says which inputs that leaves
safe.  What happens after an overrun is not defined; the loops here go on as if nothing had
happened.
-/

import TsbAgent.Lib.Access
import TsbAgent.Whitelist.Parse

namespace TsbAgent
namespace Whitelist

open Libc FileIntegrity

/-! ### The loops with their accesses -/

/-- The header at `off` of an area of `size` bytes. -/
def headerAccesses (size off : ℕ) : List Access := [⟨off + 2, 2, size⟩, ⟨off + 1, 1, size⟩]

/-- A complete record `p` at `off`: its digest, and for one that is not deleted its digest again,
its path, and `path[512]`. -/
def recordAccesses (size off : ℕ) (p : Bytes) : List Access :=
  ⟨off + 4, lenHash, size⟩ ::
    if memcmp lenHash (itemHash p).1 Digest.zero.1 = 0 then []
    else [⟨off + 4, lenHash, size⟩, ⟨off + 4 + lenHash + extendSize p, pathLength p, size⟩,
      ⟨0, pathLength p, 512⟩]

/-- The loop of `whitelist_add_del_policy` at `off`, where the bytes `p` are left.  With less than a
header left, what is read for `be_path_length` and `extend_size` does not matter: no record takes
less than 36 bytes. -/
def policyAccesses (size : ℕ) : ℕ → ℕ → Bytes → List Access
  | 0, _, _ => []
  | fuel + 1, off, p =>
      if p = [] then []
      else
        headerAccesses size off ++
          if p.length < paddedSize p then []
          else recordAccesses size off p ++
            policyAccesses size fuel (off + paddedSize p) (p.drop (paddedSize p))

/-- The inner loop of `load_whitelist`, and the `memcpy` that moves the rest to the front. -/
def windowAccesses (size : ℕ) : ℕ → ℕ → Bytes → List Access
  | 0, off, p => [⟨off, p.length, size⟩]
  | fuel + 1, off, p =>
      if p.length ≤ 4 then [⟨off, p.length, size⟩]
      else
        headerAccesses size off ++
          if p.length < paddedSize p then [⟨off, p.length, size⟩]
          else recordAccesses size off p ++
            windowAccesses size fuel (off + paddedSize p) (p.drop (paddedSize p))

/-- What the inner loop leaves in the window. -/
def windowRest : ℕ → Bytes → Bytes
  | 0, p => p
  | fuel + 1, p =>
      if p.length ≤ 4 then p
      else if p.length < paddedSize p then p
      else windowRest fuel (p.drop (paddedSize p))

/-- The outer loop of `load_whitelist`. -/
def loadAccesses (reads : ℕ → ℕ) : ℕ → Bytes → Bytes → List Access
  | 0, _, _ => []
  | fuel + 1, buff, file =>
      if file = [] then []
      else
        let got := kernelRead (reads fuel) (1024 - buff.length) file
        if got = [] then []
        else
          windowAccesses (buff ++ got).length (buff ++ got).length 0 (buff ++ got) ++
            loadAccesses reads fuel (windowRest (buff ++ got).length (buff ++ got)) (file.drop got.length)

/-! ### The records of an input -/

/-- The complete records of a buffer, each with what follows it, and the bytes after them. -/
def cut : ℕ → Bytes → List Bytes × Bytes
  | 0, p => ([], p)
  | fuel + 1, p =>
      if p.length < paddedSize p then ([], p)
      else
        let r := cut fuel (p.drop (paddedSize p))
        (p :: r.1, r.2)

/-- The complete records of a buffer. -/
def completeRecords (data : Bytes) : List Bytes := (cut data.length data).1

/-- The bytes after the complete records. -/
def recordTail (data : Bytes) : Bytes := (cut data.length data).2

/-- The records up to the first that is longer than the window. -/
def windowRecords (rs : List Bytes) : List Bytes := rs.takeWhile fun r => paddedSize r ≤ 1024

theorem windowRecords_cons_of_le {r : Bytes} (h : paddedSize r ≤ 1024) (rs : List Bytes) :
    windowRecords (r :: rs) = r :: windowRecords rs :=
  List.takeWhile_cons_of_pos (decide_eq_true h)

theorem windowRecords_cons_of_lt {r : Bytes} (h : 1024 < paddedSize r) (rs : List Bytes) :
    windowRecords (r :: rs) = [] :=
  List.takeWhile_cons_of_neg (by simpa using h)

/-- The path of a record that is not deleted fits in `path[512]`. -/
def CopyFits (r : Bytes) : Prop := itemHash r ≠ Digest.zero → pathLength r ≤ 512

instance (r : Bytes) : Decidable (CopyFits r) := inferInstanceAs (Decidable (_ → _))

theorem length_drop_padded {p : Bytes} (h : ¬ p.length < paddedSize p) :
    (p.drop (paddedSize p)).length + paddedSize p = p.length := by
  rw [List.length_drop]
  omega

/-- A complete record is read inside the buffer; its path fits in `path[512]` or does not. -/
theorem safe_recordAccesses {size off : ℕ} {p : Bytes} (hsize : off + p.length = size)
    (h : ¬ p.length < paddedSize p) : Safe (recordAccesses size off p) ↔ CopyFits p := by
  have hle := le_align4 (lenHash + extendSize p + pathLength p)
  have hpad : paddedSize p = 4 + align4 (lenHash + extendSize p + pathLength p) := rfl
  have hdigest : off + 4 + lenHash ≤ size := by omega
  have hpath : off + 4 + lenHash + extendSize p + pathLength p ≤ size := by omega
  rw [recordAccesses, safe_cons, safe_ite]
  simp only [safe_nil, safe_cons, hdigest, hpath, implies_true, true_and, and_true, Nat.zero_add,
    Digest.memcmp_eq_zero]
  exact Iff.rfl

theorem safe_headerAccesses {size off : ℕ} : Safe (headerAccesses size off) ↔ off + 4 ≤ size := by
  rw [headerAccesses]
  simp only [safe_nil, safe_cons, and_true]
  omega

/-! ### The command -/

theorem policyAccesses_safe_iff {size fuel off : ℕ} {p : Bytes} (hsize : off + p.length = size)
    (hfuel : p.length ≤ fuel) :
    Safe (policyAccesses size fuel off p) ↔
      ((cut fuel p).2 = [] ∨ 4 ≤ (cut fuel p).2.length) ∧ ∀ r ∈ (cut fuel p).1, CopyFits r := by
  induction fuel generalizing off p with
  | zero =>
      obtain rfl := List.length_eq_zero_iff.mp (Nat.le_zero.mp hfuel)
      simp [policyAccesses, cut]
  | succ fuel ih =>
      have h36 := paddedSize_ge p
      rw [policyAccesses, cut]
      by_cases hnil : p = []
      · subst hnil
        have hzero : ([] : Bytes).length < paddedSize [] := by decide
        rw [if_pos rfl, if_pos hzero]
        simp
      rw [if_neg hnil, safe_append, safe_headerAccesses]
      by_cases hshort : p.length < paddedSize p
      · rw [if_pos hshort, if_pos hshort]
        simp only [safe_nil, hnil, false_or, and_true, List.not_mem_nil, false_imp_iff, implies_true]
        omega
      · rw [if_neg hshort, if_neg hshort, safe_append, safe_recordAccesses hsize hshort]
        have hdrop := length_drop_padded hshort
        rw [ih (by omega) (by omega), List.forall_mem_cons]
        constructor
        · rintro ⟨-, hfit, htail, hrest⟩
          exact ⟨htail, hfit, hrest⟩
        · rintro ⟨htail, hfit, hrest⟩
          exact ⟨by omega, hfit, htail, hrest⟩

/-! ### The loader -/

/-- A record passes when its path fits in `path[512]`. -/
def checkItem (p : Bytes) (u : Unit) : Option Unit := if CopyFits p then some u else none

theorem framed_checkItem : Window.Framed 4 paddedSize checkItem where
  header_lt p := by
    have h36 := paddedSize_ge p
    omega
  size_append p r h := paddedSize_append h r
  item_append p r u h := by
    obtain ⟨hhash, -, hlen⟩ := fields_append h r
    have hfit : CopyFits (p ++ r) ↔ CopyFits p := by
      unfold CopyFits
      rw [hhash, hlen]
    simp only [checkItem, hfit]

/-- A pass over the window is safe when every complete record in it passes. -/
theorem windowAccesses_safe_iff {size fuel off : ℕ} {p : Bytes} (hsize : off + p.length = size)
    (u : Unit) :
    (Safe (windowAccesses size fuel off p) → Window.workOff 4 paddedSize checkItem fuel p u =
      some (windowRest fuel p, u)) ∧
    (¬ Safe (windowAccesses size fuel off p) → Window.workOff 4 paddedSize checkItem fuel p u = none) := by
  induction fuel generalizing off p with
  | zero =>
      rw [windowAccesses, safe_cons, Window.workOff, windowRest]
      exact ⟨fun _ => rfl, fun h => absurd ⟨hsize.le, safe_nil⟩ h⟩
  | succ fuel ih =>
      have hmove : Safe [⟨off, p.length, size⟩] := safe_cons.mpr ⟨hsize.le, safe_nil⟩
      rw [windowAccesses, Window.workOff, windowRest]
      by_cases h4 : p.length ≤ 4
      · rw [if_pos h4, if_pos h4, if_pos h4]
        exact ⟨fun _ => rfl, fun h => absurd hmove h⟩
      rw [if_neg h4, if_neg h4, if_neg h4, safe_append, safe_headerAccesses]
      have hheader : off + 4 ≤ size := by omega
      by_cases hshort : p.length < paddedSize p
      · rw [if_pos hshort, if_pos hshort, if_pos hshort]
        exact ⟨fun _ => rfl, fun h => absurd ⟨hheader, hmove⟩ h⟩
      rw [if_neg hshort, if_neg hshort, if_neg hshort, safe_append, safe_recordAccesses hsize hshort,
        checkItem]
      have hdrop := length_drop_padded hshort
      obtain ⟨hsafe, hnot⟩ := @ih (off + paddedSize p) (p.drop (paddedSize p)) (by omega)
      by_cases hfit : CopyFits p
      · rw [if_pos hfit, Option.bind_some]
        constructor
        · rintro ⟨-, -, hrest⟩
          exact hsafe hrest
        · intro h
          exact hnot fun hrest => h ⟨hheader, hfit, hrest⟩
      · rw [if_neg hfit]
        constructor
        · rintro ⟨-, h, -⟩
          exact absurd h hfit
        · exact fun _ => rfl

theorem loadAccesses_safe_iff (reads : ℕ → ℕ) (fuel : ℕ) (buff file : Bytes) :
    Safe (loadAccesses reads fuel buff file) ↔
      Window.loop 4 1024 paddedSize checkItem reads fuel buff file () = some () := by
  induction fuel generalizing buff file with
  | zero => exact iff_of_true safe_nil rfl
  | succ fuel ih =>
      rw [loadAccesses, Window.loop]
      by_cases hnil : file = []
      · rw [if_pos hnil, if_pos hnil]
        exact iff_of_true safe_nil rfl
      rw [if_neg hnil, if_neg hnil]
      change Safe (if kernelRead (reads fuel) (1024 - buff.length) file = [] then _ else _) ↔
        (if kernelRead (reads fuel) (1024 - buff.length) file = [] then _ else _) = _
      by_cases hgot : kernelRead (reads fuel) (1024 - buff.length) file = []
      · rw [if_pos hgot, if_pos hgot]
        exact iff_of_true safe_nil rfl
      rw [if_neg hgot, if_neg hgot, safe_append, ih]
      change _ ↔ (Window.workOff 4 paddedSize checkItem
        (buff ++ kernelRead (reads fuel) (1024 - buff.length) file).length
        (buff ++ kernelRead (reads fuel) (1024 - buff.length) file) ()).bind _ = _
      generalize buff ++ kernelRead (reads fuel) (1024 - buff.length) file = window
      obtain ⟨hsafe, hnot⟩ := @windowAccesses_safe_iff window.length window.length 0 window
        (Nat.zero_add _) ()
      by_cases hwin : Safe (windowAccesses window.length window.length 0 window)
      · rw [hsafe hwin, Option.bind_some]
        exact and_iff_right hwin
      · rw [hnot hwin]
        exact iff_of_false (fun h => hwin h.1) (fun h => absurd h.symm (Option.some_ne_none _))

/-- The complete records up to the first that is longer than the window. -/
theorem records_windowRecords {fuel : ℕ} {file : Bytes} (hfuel : file.length ≤ fuel) :
    Window.Records 4 1024 paddedSize file (windowRecords (cut fuel file).1) := by
  induction fuel generalizing file with
  | zero => exact .nil (.inl (by omega))
  | succ fuel ih =>
      have h36 := paddedSize_ge file
      rw [cut]
      by_cases hshort : file.length < paddedSize file
      · rw [if_pos hshort]
        exact .nil (.inr (.inl hshort))
      rw [if_neg hshort]
      have hdrop := length_drop_padded hshort
      dsimp only
      by_cases hfit : paddedSize file ≤ 1024
      · rw [windowRecords_cons_of_le hfit]
        refine .cons ?_ (ih (by omega))
        rw [Window.Ends]
        omega
      · rw [windowRecords_cons_of_lt (not_le.mp hfit)]
        exact .nil (.inr (.inr (by omega)))

theorem workAll_checkItem (l : List Bytes) :
    Window.workAll checkItem l () = some () ↔ ∀ r ∈ l, CopyFits r := by
  induction l with
  | nil => simp [Window.workAll]
  | cons r rs ih =>
      rw [Window.workAll, checkItem, List.forall_mem_cons]
      by_cases hfit : CopyFits r
      · rw [if_pos hfit, Option.bind_some, ih]
        exact (and_iff_right hfit).symm
      · rw [if_neg hfit]
        exact iff_of_false (fun h => absurd h.symm (Option.some_ne_none _)) fun h => hfit h.1

theorem load_safe_iff (reads : ℕ → ℕ) (file : Bytes) :
    Safe (loadAccesses reads file.length [] file) ↔
      ∀ r ∈ windowRecords (completeRecords file), CopyFits r := by
  rw [loadAccesses_safe_iff, Window.loop_eq framed_checkItem (by decide) reads (records_windowRecords le_rfl),
    workAll_checkItem, completeRecords]

end Whitelist
end TsbAgent
