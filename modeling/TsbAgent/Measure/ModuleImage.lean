/-
# Looking up a section in a module image

`get_module_struct` and `find_sec` of `tsb/kernel/smeasure/engine/smeasure_engine.c` look in the image of
a kernel module, `len` bytes at `hdr` that a user gives, for the section that holds the `struct module`:

| from the image | used for | checked |
| --- | --- | --- |
| `e_shoff` | the table `sechdrs` | no |
| `e_shstrndx` | `sechdrs[e_shstrndx].sh_offset`, the strings | no |
| `e_shnum` | the sections `1`, …, `e_shnum - 1` | no |
| `sh_offset + sh_size` | the content | against `len`, modulo `2 ^ 64`, but for `SHT_NOBITS` |
| `sh_name` | a string to compare with | no |

The table is also written: `sh_addr` of every section, and `sh_flags` of the `.exit` sections in a kernel
without `CONFIG_MODULE_UNLOAD`.  An image may have its header, its table and its strings in one place, so the
memory is a state here, `marked i` when the section `i` is due, and every byte that is touched is an access
at its distance from `hdr` modulo `2 ^ 64`.  `module_lookup_iff` says on which images all accesses stay inside
the image and a malformed one yields `NULL`.  The layouts are those of 64 bits.
-/

import TsbAgent.Lib.Scan
import TsbAgent.Lib.Word

namespace TsbAgent
namespace ModuleImage

open Libc Word Scan

/-- Memory, by the distance from `hdr` modulo `2 ^ 64`. -/
abbrev Memory := ℕ → UInt8

/-- A distance, or an address, of 64 bits. -/
def wrap (a : ℕ) : ℕ := a % 2 ^ 64

/-- `width` bytes from `a` on, as a number. -/
def load (m : Memory) (a width : ℕ) : ℕ := ofHost ((List.range width).map fun k => m (wrap (a + k)))

/-- `x` written to `width` bytes from `a` on. -/
def store (m : Memory) (a width x : ℕ) : Memory := fun b =>
  let k := wrap (b + (2 ^ 64 - wrap a))
  if k < width then UInt8.ofNat (x / 256 ^ k) else m b

/-- A field of `Elf64_Shdr`. -/
structure Field where
  offset : ℕ
  width : ℕ

def shName : Field := ⟨0, 4⟩
def shType : Field := ⟨4, 4⟩
def shFlags : Field := ⟨8, 8⟩
def shAddr : Field := ⟨16, 8⟩
def shOffset : Field := ⟨24, 8⟩
def shSize : Field := ⟨32, 8⟩

def shtNobits : ℕ := 8

/-- `hdr->e_shnum`. -/
def eShnum (m : Memory) : ℕ := load m 60 2

/-- An image of `len` bytes at `hdr`, with the memory around it. -/
structure Image where
  hdr : ℕ
  len : ℕ
  mem : Memory

def Image.eShoff (img : Image) : ℕ := load img.mem 40 8
def Image.eShstrndx (img : Image) : ℕ := load img.mem 62 2

/-- The variables of `get_module_struct`, `sechdrs` and `secstrings` as distances from `hdr`, and whether the
kernel has `CONFIG_MODULE_UNLOAD`. -/
structure Vars where
  hdr : ℕ
  len : ℕ
  sechdrs : ℕ
  secstrings : ℕ
  moduleUnload : Bool

section Lookup

variable (v : Vars)

/-- A field of `sechdrs[i]`. -/
def Vars.field (m : Memory) (i : ℕ) (f : Field) : ℕ := load m (v.sechdrs + 64 * i + f.offset) f.width

/-- An access to a field of `sechdrs[i]`. -/
def Vars.access (i : ℕ) (f : Field) : Access := ⟨wrap (v.sechdrs + 64 * i + f.offset), f.width, v.len⟩

def Vars.setField (m : Memory) (i : ℕ) (f : Field) (x : ℕ) : Memory :=
  store m (v.sechdrs + 64 * i + f.offset) f.width x

/-- The comparison of the bytes at `p` with a text, up to the first that differs. -/
def compare (len : ℕ) (m : Memory) : ℕ → Bytes → List Access × Bool
  | _, [] => ([], true)
  | p, c :: text =>
      if m (wrap p) = c then
        let r := compare len m (p + 1) text
        (⟨wrap p, 1, len⟩ :: r.1, r.2)
      else ([⟨wrap p, 1, len⟩], false)

/-- `secstrings + sechdrs[i].sh_name`, compared. -/
def Vars.compareName (m : Memory) (i : ℕ) (text : Bytes) : List Access × Bool :=
  compare v.len m (v.secstrings + v.field m i shName) text

/-- `".exit"`. -/
def dotExit : Bytes := [46, 101, 120, 105, 116]

/-- `".gnu.linkonce.this_module"`, with its zero byte. -/
def thisModule : Bytes :=
  [46, 103, 110, 117, 46, 108, 105, 110, 107, 111, 110, 99, 101, 46, 116, 104, 105, 115, 95, 109, 111, 100, 117,
    108, 101, 0]

/-- `sechdrs[i].sh_flags & SHF_ALLOC`. -/
def Vars.alloc (m : Memory) (i : ℕ) : Bool := (v.field m i shFlags).testBit 1

/-- The section `i` has a content that ends after `len`, modulo `2 ^ 64`. -/
def Vars.Rejected (m : Memory) (i : ℕ) : Prop :=
  v.field m i shType ≠ shtNobits ∧ v.len < wrap (v.field m i shOffset + v.field m i shSize)

instance (m : Memory) (i : ℕ) : Decidable (v.Rejected m i) := inferInstanceAs (Decidable (_ ∧ _))

/-- `sechdrs[i].sh_addr = (size_t)hdr + sechdrs[i].sh_offset`. -/
def Vars.setAddr (m : Memory) (i : ℕ) : Memory :=
  v.setField m i shAddr (wrap (v.hdr + v.field m i shOffset))

/-- The body of the loop over the sections, for one that is not rejected. -/
def Vars.markSection (m : Memory) (i : ℕ) : Memory :=
  let m := v.setAddr m i
  if v.moduleUnload = false ∧ (v.compareName m i dotExit).2 = true ∧ v.alloc m i = true then
    v.setField m i shFlags (v.field m i shFlags - 2)
  else m

/-- What the body touches. -/
def Vars.markAccesses (m : Memory) (i : ℕ) : List Access :=
  v.access i shType ::
    ((if v.field m i shType ≠ shtNobits then [v.access i shOffset, v.access i shSize] else []) ++
      if v.Rejected m i then []
      else v.access i shOffset :: v.access i shAddr ::
        if v.moduleUnload then []
        else v.access i shName :: ((v.compareName (v.setAddr m i) i dotExit).1 ++
          if (v.compareName (v.setAddr m i) i dotExit).2 then [v.access i shFlags] else []))

/-- The loop over the sections; `none` when it returns `NULL`. -/
def Vars.markSections : ℕ → ℕ → Memory → List Access × Option Memory
  | 0, _, m => ([⟨60, 2, v.len⟩], some m)
  | fuel + 1, i, m =>
      if i < eShnum m then
        if v.Rejected m i then (⟨60, 2, v.len⟩ :: v.markAccesses m i, none)
        else
          let r := Vars.markSections fuel (i + 1) (v.markSection m i)
          (⟨60, 2, v.len⟩ :: (v.markAccesses m i ++ r.1), r.2)
      else ([⟨60, 2, v.len⟩], some m)

/-- The test in the loop of `find_sec`. -/
def Vars.Found (m : Memory) (i : ℕ) : Prop := v.alloc m i = true ∧ (v.compareName m i thisModule).2 = true

instance (m : Memory) (i : ℕ) : Decidable (v.Found m i) := inferInstanceAs (Decidable (_ ∧ _))

def Vars.findAccesses (m : Memory) (i : ℕ) : List Access :=
  v.access i shFlags ::
    if v.alloc m i = true then v.access i shName :: (v.compareName m i thisModule).1 else []

/-- `find_sec`. -/
def Vars.findSec (m : Memory) : ℕ → ℕ → List Access × ℕ
  | 0, _ => ([⟨60, 2, v.len⟩], 0)
  | fuel + 1, i =>
      if i < eShnum m then
        if v.Found m i then (⟨60, 2, v.len⟩ :: v.findAccesses m i, i)
        else
          let r := Vars.findSec m fuel (i + 1)
          (⟨60, 2, v.len⟩ :: (v.findAccesses m i ++ r.1), r.2)
      else ([⟨60, 2, v.len⟩], 0)

end Lookup

/-- The variables, when the loop starts. -/
def Image.vars (img : Image) (moduleUnload : Bool) : Vars :=
  { hdr := img.hdr
    len := img.len
    sechdrs := img.eShoff
    secstrings := load img.mem (img.eShoff + 64 * img.eShstrndx + shOffset.offset) shOffset.width
    moduleUnload := moduleUnload }

/-- What is touched before the loop. -/
def Image.startAccesses (img : Image) (moduleUnload : Bool) : List Access :=
  [⟨40, 8, img.len⟩, ⟨62, 2, img.len⟩, (img.vars moduleUnload).access img.eShstrndx shOffset,
    (img.vars moduleUnload).access 0 shAddr]

/-- `get_module_struct`: its accesses, and the pointer it returns, `0` for `NULL`. -/
def getModuleStruct (moduleUnload : Bool) (img : Image) : List Access × ℕ :=
  let v := img.vars moduleUnload
  let start := img.startAccesses moduleUnload
  match v.markSections (2 ^ 16) 1 (v.setField img.mem 0 shAddr 0) with
  | (marks, none) => (start ++ marks, 0)
  | (marks, some m) =>
      let r := v.findSec m (2 ^ 16) 1
      if r.2 = 0 then (start ++ marks ++ r.1, 0)
      else (start ++ marks ++ r.1 ++ [v.access r.2 shAddr], v.field m r.2 shAddr)

/-! ### The sections that are visited -/

section Visits

variable (img : Image) (moduleUnload : Bool)

/-- The memory when the section `i` is due in the first loop. -/
def Image.marked : ℕ → Memory
  | 0 => img.mem
  | i + 1 =>
      let v := img.vars moduleUnload
      if i = 0 then v.setField img.mem 0 shAddr 0 else v.markSection (Image.marked i) i

/-- The condition of the first loop. -/
def Image.More (i : ℕ) : Prop := i < eShnum (img.marked moduleUnload i)

/-- The section `i` makes the first loop return. -/
def Image.RejectedAt (i : ℕ) : Prop := (img.vars moduleUnload).Rejected (img.marked moduleUnload i) i

instance (i : ℕ) : Decidable (img.More moduleUnload i) := inferInstanceAs (Decidable (_ < _))

instance (i : ℕ) : Decidable (img.RejectedAt moduleUnload i) := inferInstanceAs (Decidable (_ ∧ _))

/-- The first loop gets to the section `i`. -/
def Image.Visited (i : ℕ) : Prop := Reaches (img.More moduleUnload) (img.RejectedAt moduleUnload) 1 i

/-- The first loop ends at `n`, without a return. -/
def Image.AllVisited (n : ℕ) : Prop := Passes (img.More moduleUnload) (img.RejectedAt moduleUnload) 1 n

/-- `find_sec` gets to the section `i`, in the memory `m`. -/
def Vars.Compared (v : Vars) (m : Memory) (i : ℕ) : Prop := Reaches (· < eShnum m) (v.Found m) 1 i

end Visits

/-! ### What the images are to be -/

/-- A well-formed image: the header, the table of the sections, the index of the section with the strings, the
contents, the names, and the section that holds the `struct module`, each inside the image. -/
structure Image.WellFormed (img : Image) (v : Vars) : Prop where
  header : 64 ≤ img.len
  table : img.eShoff + 64 * eShnum img.mem ≤ img.len
  strings : img.eShstrndx < eShnum img.mem
  contents : ∀ i, 1 ≤ i → i < eShnum img.mem → v.field img.mem i shType ≠ shtNobits →
    v.field img.mem i shOffset + v.field img.mem i shSize ≤ img.len
  names : ∀ i, 1 ≤ i → i < eShnum img.mem → v.alloc img.mem i = true →
    ∃ k, v.secstrings + v.field img.mem i shName ≤ k ∧ k < img.len ∧ img.mem k = 0
  module : ∀ i, 1 ≤ i → i < eShnum img.mem → v.Found img.mem i →
    v.field img.mem i shOffset + v.field img.mem i shSize ≤ img.len

/-- All accesses of the lookup stay inside the image, and it returns `NULL` for a malformed one. -/
def LookupInBounds (moduleUnload : Bool) (img : Image) : Prop :=
  Safe (getModuleStruct moduleUnload img).1 ∧
    (¬ img.WellFormed (img.vars moduleUnload) → (getModuleStruct moduleUnload img).2 = 0)

/-- The images on which the lookup is right although it checks next to nothing. -/
structure Image.Harmless (img : Image) (moduleUnload : Bool) : Prop where
  header : 64 ≤ img.len
  strings : ((img.vars moduleUnload).access img.eShstrndx shOffset).InBounds
  first : ((img.vars moduleUnload).access 0 shAddr).InBounds
  sections : ∀ i, img.Visited moduleUnload i →
    Safe ((img.vars moduleUnload).markAccesses (img.marked moduleUnload i) i)
  names : ∀ n, img.AllVisited moduleUnload n →
    ∀ i, (img.vars moduleUnload).Compared (img.marked moduleUnload n) i →
      Safe ((img.vars moduleUnload).findAccesses (img.marked moduleUnload n) i) ∧
        ((img.vars moduleUnload).Found (img.marked moduleUnload n) i →
          ((img.vars moduleUnload).access i shAddr).InBounds ∧
            (img.WellFormed (img.vars moduleUnload) ∨
              (img.vars moduleUnload).field (img.marked moduleUnload n) i shAddr = 0))

section Proofs

variable {img : Image} {moduleUnload : Bool}

theorem eShnum_lt (m : Memory) : eShnum m < 2 ^ 16 := by
  have h := ofHost_lt ((List.range 2).map fun k => m (wrap (60 + k)))
  rw [List.length_map, List.length_range] at h
  exact h

/-- The first loop is a scan over the memories `marked`. -/
theorem markSections_eq {fuel i : ℕ} (hi : 1 ≤ i) :
    (img.vars moduleUnload).markSections fuel i (img.marked moduleUnload i) =
      let r := scan (img.More moduleUnload) (img.RejectedAt moduleUnload) ⟨60, 2, img.len⟩
        (fun i => (img.vars moduleUnload).markAccesses (img.marked moduleUnload i) i) fuel i
      (r.1, r.2.elim (fun _ => none) fun n => some (img.marked moduleUnload n)) := by
  induction fuel generalizing i with
  | zero => rfl
  | succ fuel ih =>
      have hnext : (img.vars moduleUnload).markSection (img.marked moduleUnload i) i =
          img.marked moduleUnload (i + 1) := by
        rw [Image.marked, if_neg (by omega)]
      rw [Vars.markSections, scan, hnext, ih (by omega)]
      by_cases hmore : img.More moduleUnload i
      · have hlt : i < eShnum (img.marked moduleUnload i) := hmore
        simp only [if_pos hmore]
        rw [if_pos hlt]
        by_cases hrej : img.RejectedAt moduleUnload i
        · have hrej' : (img.vars moduleUnload).Rejected (img.marked moduleUnload i) i := hrej
          simp only [if_pos hrej]
          rw [if_pos hrej']
          rfl
        · have hrej' : ¬ (img.vars moduleUnload).Rejected (img.marked moduleUnload i) i := hrej
          simp only [if_neg hrej]
          rw [if_neg hrej']
          rfl
      · have hlt : ¬ i < eShnum (img.marked moduleUnload i) := hmore
        simp only [if_neg hmore]
        rw [if_neg hlt]
        rfl

/-- `find_sec` is a scan. -/
theorem findSec_eq (v : Vars) (m : Memory) (fuel i : ℕ) :
    v.findSec m fuel i =
      let r := scan (· < eShnum m) (v.Found m) ⟨60, 2, v.len⟩ (v.findAccesses m) fuel i
      (r.1, r.2.elim id fun _ => 0) := by
  induction fuel generalizing i with
  | zero => rfl
  | succ fuel ih =>
      rw [Vars.findSec, scan, ih]
      dsimp only
      split_ifs <;> rfl

variable (img moduleUnload)

/-- The first loop as a scan. -/
def Image.markScan : List Access × (ℕ ⊕ ℕ) :=
  scan (img.More moduleUnload) (img.RejectedAt moduleUnload) ⟨60, 2, img.len⟩
    (fun i => (img.vars moduleUnload).markAccesses (img.marked moduleUnload i) i) (2 ^ 16) 1

/-- `find_sec` as a scan, where the first loop ends at `n`. -/
def Image.findScan (n : ℕ) : List Access × (ℕ ⊕ ℕ) :=
  scan (· < eShnum (img.marked moduleUnload n)) ((img.vars moduleUnload).Found (img.marked moduleUnload n))
    ⟨60, 2, img.len⟩ ((img.vars moduleUnload).findAccesses (img.marked moduleUnload n)) (2 ^ 16) 1

variable {img moduleUnload}

theorem marked_one : img.marked moduleUnload 1 = (img.vars moduleUnload).setField img.mem 0 shAddr 0 := by
  rw [Image.marked, if_pos rfl]

theorem markSections_start :
    (img.vars moduleUnload).markSections (2 ^ 16) 1 ((img.vars moduleUnload).setField img.mem 0 shAddr 0) =
      ((img.markScan moduleUnload).1,
        (img.markScan moduleUnload).2.elim (fun _ => none) fun n => some (img.marked moduleUnload n)) := by
  rw [← marked_one, markSections_eq le_rfl, Image.markScan]

theorem findSec_start (n : ℕ) :
    (img.vars moduleUnload).findSec (img.marked moduleUnload n) (2 ^ 16) 1 =
      ((img.findScan moduleUnload n).1, (img.findScan moduleUnload n).2.elim id fun _ => 0) := by
  rw [findSec_eq, Image.findScan]
  rfl

theorem getModuleStruct_of_rejected {j : ℕ} (h : (img.markScan moduleUnload).2 = .inl j) :
    getModuleStruct moduleUnload img =
      (img.startAccesses moduleUnload ++ (img.markScan moduleUnload).1, 0) := by
  rw [getModuleStruct, markSections_start, h]
  rfl

theorem getModuleStruct_of_passed {n j : ℕ} (h : (img.markScan moduleUnload).2 = .inr n)
    (hj : (img.findScan moduleUnload n).2 = .inr j) :
    getModuleStruct moduleUnload img =
      (img.startAccesses moduleUnload ++ (img.markScan moduleUnload).1 ++ (img.findScan moduleUnload n).1,
        0) := by
  rw [getModuleStruct, markSections_start, h]
  dsimp only [Sum.elim_inr]
  rw [findSec_start, hj]
  exact if_pos rfl

theorem getModuleStruct_of_found {n j : ℕ} (h : (img.markScan moduleUnload).2 = .inr n)
    (hj : (img.findScan moduleUnload n).2 = .inl j) (hpos : 1 ≤ j) :
    getModuleStruct moduleUnload img =
      (img.startAccesses moduleUnload ++ (img.markScan moduleUnload).1 ++ (img.findScan moduleUnload n).1 ++
          [(img.vars moduleUnload).access j shAddr],
        (img.vars moduleUnload).field (img.marked moduleUnload n) j shAddr) := by
  rw [getModuleStruct, markSections_start, h]
  dsimp only [Sum.elim_inr]
  rw [findSec_start, hj]
  exact if_neg (show j ≠ 0 by omega)

theorem safe_startAccesses :
    Safe (img.startAccesses moduleUnload) ↔ 64 ≤ img.len ∧
      ((img.vars moduleUnload).access img.eShstrndx shOffset).InBounds ∧
      ((img.vars moduleUnload).access 0 shAddr).InBounds := by
  rw [Image.startAccesses, safe_cons, safe_cons, safe_cons, safe_cons]
  constructor
  · rintro ⟨-, h, hstr, hfirst, -⟩
    exact ⟨h, hstr, hfirst⟩
  · rintro ⟨h, hstr, hfirst⟩
    exact ⟨show 40 + 8 ≤ img.len by omega, h, hstr, hfirst, safe_nil⟩

theorem safe_markScan (hlen : 64 ≤ img.len) :
    Safe (img.markScan moduleUnload).1 ↔ ∀ i, img.Visited moduleUnload i →
      Safe ((img.vars moduleUnload).markAccesses (img.marked moduleUnload i) i) := by
  refine safe_scan_iff (show 60 + 2 ≤ img.len by omega) fun k hk hmore => ?_
  have hlt := hmore.trans (eShnum_lt _)
  omega

theorem safe_findScan (hlen : 64 ≤ img.len) (n : ℕ) :
    Safe (img.findScan moduleUnload n).1 ↔
      ∀ i, (img.vars moduleUnload).Compared (img.marked moduleUnload n) i →
        Safe ((img.vars moduleUnload).findAccesses (img.marked moduleUnload n) i) := by
  refine safe_scan_iff (show 60 + 2 ≤ img.len by omega) fun k hk hmore => ?_
  have hlt := hmore.trans (eShnum_lt _)
  omega

theorem markScan_spec :
    (∃ j, (img.markScan moduleUnload).2 = .inl j ∧ img.Visited moduleUnload j ∧ img.RejectedAt moduleUnload j) ∨
      ∃ n, (img.markScan moduleUnload).2 = .inr n ∧ img.AllVisited moduleUnload n := by
  refine scan_spec fun k hk hmore => ?_
  have hlt := hmore.trans (eShnum_lt _)
  omega

theorem findScan_spec (n : ℕ) :
    (∃ j, (img.findScan moduleUnload n).2 = .inl j ∧
        (img.vars moduleUnload).Compared (img.marked moduleUnload n) j ∧
          (img.vars moduleUnload).Found (img.marked moduleUnload n) j) ∨
      ∃ j, (img.findScan moduleUnload n).2 = .inr j ∧
        Passes (· < eShnum (img.marked moduleUnload n)) ((img.vars moduleUnload).Found (img.marked moduleUnload n))
          1 j := by
  refine scan_spec fun k hk hmore => ?_
  have hlt := hmore.trans (eShnum_lt _)
  omega

end Proofs

/-- An image of zeros, but for `e_shoff` and `e_shnum`. -/
def zeroImage (len : ℕ) (eShoff eShnum : UInt8) : Image :=
  ⟨2 ^ 20, len, fun a => if a = 40 then eShoff else if a = 60 then eShnum else 0⟩

end ModuleImage
end TsbAgent
