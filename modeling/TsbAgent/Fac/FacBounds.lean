/-
# The bytes that loading the file protection policy reads

`load_fac_policy` of `tsb/kernel/accessctl/policy/list_fac.c` with every byte it reads of the
buffer.  An item is looked at in this order:

| read | bytes | guarded by |
| --- | --- | --- |
| the path, by `strcmp` with the paths loaded so far | up to the first that differs | nothing |
| `be_privileged_process_num` of an item whose path is there | 2 | nothing |
| the fields and the path of a new item | 260 | nothing |
| its privileged processes | 292 each | nothing |

The loop only asks that the pointer is not behind the end, so whether a read stays in the buffer is
up to the content, and no content is rejected.  `load_fac_policy_bounds` says which contents are read
as they should be: those whose items fill the buffer (`facCut`), where the one path that the end of
the buffer cuts off, if there is one, is told from the others before it ends (`PathsEnd`).
-/

import TsbAgent.Fac.LoadFac
import TsbAgent.Lib.Access

namespace TsbAgent
namespace Fac

open Libc Word

/-! ### The load with its reads -/

/-- The bytes of `b` that `strcmp(a, b)` reads. -/
def strcmpReads : Bytes → Bytes → ℕ
  | [], _ => 1
  | _ :: _, [] => 1
  | x :: a, y :: b => if x = y then strcmpReads a b + 1 else 1

/-- The path of an item as `strcmp` reads it: up to a zero byte, wherever that is. -/
def pathOf (p : Bytes) : CStr := CStr.ofBytes (p.drop 4)

/-- `is_exist_mac_policy` for the item `p` at `off` of a buffer of `size` bytes. -/
def existAccesses (size off : ℕ) (p : Bytes) : List MacPolicy → List Access
  | [] => []
  | m :: list =>
      ⟨off + 4, strcmpReads m.objName.bytes (p.drop 4), size⟩ ::
        if strcmp m.objName.bytes (pathOf p).bytes = 0 then [] else existAccesses size off p list

/-- The inner loop. -/
def dacAccesses (size : ℕ) : ℕ → ℕ → List Access
  | _, 0 => []
  | off, n + 1 => ⟨off, 292, size⟩ :: dacAccesses size (off + 292) n

/-- The walk of `load_fac_policy` at `off`, where the bytes `p` are left. -/
def facAccesses (size : ℕ) : ℕ → ℕ → List MacPolicy → Bytes → List Access
  | 0, _, _, _ => []
  | fuel + 1, off, list, p =>
      if p.length = 0 then []
      else
        existAccesses size off p list ++
          if isExistMacPolicy list (pathOf p) then
            ⟨off + 2, 2, size⟩ :: facAccesses size fuel (off + macStride p) list (p.drop (macStride p))
          else
            [⟨off, 4, size⟩, ⟨off + 4, 256, size⟩] ++ dacAccesses size (off + 260) (netAt p 2 2) ++
              facAccesses size fuel (off + macStride p) (list ++ [loadMac p]) (p.drop (macStride p))

/-- What the load finds: whether the file opens, whether `vmalloc` succeeds, and what `kernel_read`
returns. -/
structure FacEnv where
  opens : Bool
  vmalloc : Bool
  readLen : ℤ

/-- `load_fac_policy` up to its loop: the bytes read, or its result without them.  The size of the file
is an `int`. -/
def facBuffer (env : FacEnv) (content : Bytes) : Except ℤ Bytes :=
  if !env.opens then .error (-1)
  else
    let iSize := int32 content.length
    -- `vmalloc` gives nothing for no bytes or a negative size
    if env.vmalloc = false ∨ iSize ≤ 0 then .error (-enomem)
    else if env.readLen ≠ iSize then .error (-enomem)
    else .ok (content.take iSize.toNat)

/-- The reads of `load_fac_policy` for an empty list, where every `kzalloc` succeeds. -/
def loadFacAccesses (env : FacEnv) (content : Bytes) : List Access :=
  match facBuffer env content with
  | .error _ => []
  | .ok buf => facAccesses buf.length buf.length 8 [] (buf.drop 8)

/-- What `load_fac_policy` returns when it comes to its end. -/
def loadFacRet (env : FacEnv) (content : Bytes) : ℤ :=
  match facBuffer env content with
  | .error ret => ret
  | .ok _ => 0

/-! ### The items of a buffer -/

/-- The complete items, each with what follows it, and the bytes after them. -/
def facCut : ℕ → Bytes → List Bytes × Bytes
  | 0, p => ([], p)
  | fuel + 1, p =>
      if p.length < macStride p then ([], p)
      else
        let r := facCut fuel (p.drop (macStride p))
        (p :: r.1, r.2)

/-- The complete items of a file, behind its header. -/
def facItems (buf : Bytes) : List Bytes := (facCut buf.length (buf.drop 8)).1

/-- The bytes after the complete items. -/
def facTail (buf : Bytes) : Bytes := (facCut buf.length (buf.drop 8)).2

/-- The path of an item as it is loaded. -/
def nameOf (p : Bytes) : CStr := (loadMac p).objName

/-- Every path has its zero byte in the buffer, or differs before the buffer ends from the names
before it. -/
def PathsEnd : List CStr → List Bytes → Prop
  | _, [] => True
  | names, p :: items =>
      (0 ∈ p.drop 4 ∨ ∀ s ∈ names, ¬ p.drop 4 <+: s.bytes) ∧ PathsEnd (names ++ [nameOf p]) items

section Reads

variable {a b p : Bytes} {list : List MacPolicy} {size off : ℕ} {names names' : List CStr}

/-- `strcmp` reads beyond the second string just when that ends within the first. -/
theorem strcmpReads_le_iff : strcmpReads a b ≤ b.length ↔ ¬ b <+: a := by
  induction a generalizing b with
  | nil =>
      cases b with
      | nil => simp [strcmpReads]
      | cons y b => simp [strcmpReads]
  | cons x a ih =>
      cases b with
      | nil => simp [strcmpReads]
      | cons y b =>
          rw [strcmpReads, List.cons_prefix_cons]
          rcases eq_or_ne x y with hxy | hxy
          · rw [if_pos hxy, List.length_cons, Nat.add_le_add_iff_right, ih]
            simp [hxy]
          · rw [if_neg hxy]
            simp [Ne.symm hxy]

/-- A C string does not go on where another one ends. -/
theorem not_prefix_of_zero_mem (s : CStr) (h : (0 : UInt8) ∈ b) : ¬ b <+: s.bytes := fun hpre =>
  s.nulFree (hpre.subset h)

theorem safe_strcmp {m : MacPolicy} (hsize : off + p.length = size) :
    off + 4 + strcmpReads m.objName.bytes (p.drop 4) ≤ size ↔ ¬ p.drop 4 <+: m.objName.bytes := by
  rw [← strcmpReads_le_iff, List.length_drop]
  have hpos : 0 < strcmpReads m.objName.bytes (p.drop 4) := by
    cases m.objName.bytes <;> cases p.drop 4 <;> simp only [strcmpReads] <;> (try split) <;> omega
  omega

theorem isExist_iff_mem {s : CStr} : isExistMacPolicy list s = true ↔ s ∈ list.map MacPolicy.objName := by
  rw [isExistMacPolicy_iff, List.mem_map]

/-- A path with its zero byte in the buffer is compared inside it. -/
theorem safe_existAccesses_of_zero_mem (hsize : off + p.length = size) (h : (0 : UInt8) ∈ p.drop 4) :
    Safe (existAccesses size off p list) := by
  induction list with
  | nil => exact safe_nil
  | cons m list ih =>
      rw [existAccesses, safe_cons, safe_strcmp hsize]
      refine ⟨not_prefix_of_zero_mem _ h, ?_⟩
      split
      · exact safe_nil
      · exact ih

/-- A path without one is compared inside the buffer when it differs from every name, and then it is
not there. -/
theorem safe_existAccesses_of_zero_notMem (hsize : off + p.length = size) (h : (0 : UInt8) ∉ p.drop 4) :
    Safe (existAccesses size off p list) ↔ ∀ s ∈ list.map MacPolicy.objName, ¬ p.drop 4 <+: s.bytes := by
  induction list with
  | nil => exact iff_of_true safe_nil fun s hs => absurd hs List.not_mem_nil
  | cons m list ih =>
      rw [existAccesses, safe_cons, safe_strcmp hsize, List.map_cons, List.forall_mem_cons]
      refine and_congr_right fun hne => ?_
      have hdiff : ¬ strcmp m.objName.bytes (pathOf p).bytes = 0 := by
        intro heq
        rw [strcmp_eq_zero] at heq
        apply hne
        rw [heq]
        exact (cstr_of_nulFree h).symm ▸ List.prefix_rfl
      rw [if_neg hdiff, ih]

theorem notMem_names_of_zero_notMem (h : (0 : UInt8) ∉ p.drop 4)
    (hne : ∀ s ∈ names, ¬ p.drop 4 <+: s.bytes) : pathOf p ∉ names := by
  intro hmem
  apply hne _ hmem
  exact (cstr_of_nulFree h).symm ▸ List.prefix_rfl

/-- **When the look for a path stays in the buffer.** -/
theorem safe_existAccesses (hsize : off + p.length = size) : Safe (existAccesses size off p list) ↔
    (0 : UInt8) ∈ p.drop 4 ∨ ∀ s ∈ list.map MacPolicy.objName, ¬ p.drop 4 <+: s.bytes := by
  by_cases h : (0 : UInt8) ∈ p.drop 4
  · exact iff_of_true (safe_existAccesses_of_zero_mem hsize h) (.inl h)
  · rw [safe_existAccesses_of_zero_notMem hsize h]
    exact ⟨.inr, fun hor => hor.resolve_left h⟩

theorem safe_dacAccesses (n : ℕ) : Safe (dacAccesses size off n) ↔ n = 0 ∨ off + 292 * n ≤ size := by
  induction n generalizing off with
  | zero => exact iff_of_true safe_nil (.inl rfl)
  | succ n ih =>
      rw [dacAccesses, safe_cons, ih]
      show off + 292 ≤ size ∧ _ ↔ _
      omega

/-- A path that is in the list is loaded as it is read: no name has more than 256 bytes. -/
theorem nameOf_eq_pathOf (h : (pathOf p).strlen ≤ 256) : nameOf p = pathOf p := by
  apply CStr.ext
  have hcut : cstr ((p.drop 4).take 256) = (cstr (p.drop 4)).take 256 := cstr_take _ _
  exact hcut.trans (List.take_of_length_le h)

theorem nameOf_mem (hnames : ∀ m ∈ list, m.objName.strlen ≤ 256)
    (h : pathOf p ∈ list.map MacPolicy.objName) : nameOf p ∈ list.map MacPolicy.objName := by
  obtain ⟨m, hm, heq⟩ := List.mem_map.mp h
  rw [nameOf_eq_pathOf (heq ▸ hnames m hm)]
  exact h

theorem strlen_nameOf_le (p : Bytes) : (nameOf p).strlen ≤ 256 := by
  have hcut : (nameOf p).bytes = (cstr (p.drop 4)).take 256 := cstr_take _ _
  rw [CStr.strlen, hcut]
  exact List.length_take_le _ _

theorem strlen_append_loadMac (hnames : ∀ m ∈ list, m.objName.strlen ≤ 256) :
    ∀ m ∈ list ++ [loadMac p], m.objName.strlen ≤ 256 := by
  intro m hm
  rcases List.mem_append.mp hm with h | h
  · exact hnames m h
  · rw [List.mem_singleton.mp h]
    exact strlen_nameOf_le p

theorem pathsEnd_congr {items : List Bytes} (h : ∀ s, s ∈ names ↔ s ∈ names') :
    PathsEnd names items ↔ PathsEnd names' items := by
  induction items generalizing names names' with
  | nil => exact Iff.rfl
  | cons p items ih =>
      have hnext : ∀ s, s ∈ names ++ [nameOf p] ↔ s ∈ names' ++ [nameOf p] := by
        intro s
        rw [List.mem_append, List.mem_append, h]
      rw [PathsEnd, PathsEnd, ih hnext]
      simp only [h]

theorem mem_insert_name {s t : CStr} (ht : t ∈ names) : s ∈ names ++ [t] ↔ s ∈ names := by
  rw [List.mem_append, List.mem_singleton]
  exact or_iff_left_of_imp fun h => h ▸ ht

theorem mem_insert_name' {s t : CStr} {rest : List CStr} (ht : t ∈ names) :
    s ∈ names ++ t :: rest ↔ s ∈ names ++ rest := by
  rw [List.append_cons, List.mem_append, mem_insert_name ht, ← List.mem_append]

theorem facCut_nil (fuel : ℕ) : facCut fuel [] = ([], []) := by
  cases fuel with
  | zero => rfl
  | succ fuel =>
      have h : ([] : Bytes).length < macStride [] := by
        rw [macStride, List.length_nil]
        omega
      rw [facCut, if_pos h]

theorem facAccesses_nil (fuel : ℕ) : facAccesses size fuel off list [] = [] := by
  cases fuel with
  | zero => rfl
  | succ fuel => rw [facAccesses, if_pos List.length_nil]

theorem safe_newItem : Safe ([⟨off, 4, size⟩, ⟨off + 4, 256, size⟩] ++
    dacAccesses size (off + 260) (netAt p 2 2)) ↔ off + macStride p ≤ size := by
  rw [safe_append, safe_cons, safe_cons, safe_dacAccesses, macStride]
  simp only [safe_nil, and_true]
  omega

/-- An item that does not fit is read in the buffer only when it is taken for one that is there. -/
theorem safe_facAccesses_short {fuel : ℕ} (hsize : off + p.length = size) (hpos : p.length ≠ 0)
    (hshort : p.length < macStride p) :
    Safe (facAccesses size (fuel + 1) off list p) ↔
      (0 : UInt8) ∈ p.drop 4 ∧ pathOf p ∈ list.map MacPolicy.objName := by
  have hnext : p.drop (macStride p) = [] := List.drop_eq_nil_of_le (by omega)
  rw [facAccesses, if_neg hpos, safe_append, safe_existAccesses hsize, hnext, facAccesses_nil,
    facAccesses_nil]
  by_cases hexist : isExistMacPolicy list (pathOf p) = true
  · have hmem := isExist_iff_mem.mp hexist
    rw [if_pos hexist, safe_cons]
    constructor
    · rintro ⟨hor, -⟩
      refine ⟨by_contra fun h0 => ?_, hmem⟩
      exact notMem_names_of_zero_notMem h0 (hor.resolve_left h0) hmem
    · rintro ⟨h0, -⟩
      have hlen : 0 < (p.drop 4).length := List.length_pos_of_mem h0
      rw [List.length_drop] at hlen
      have hread : off + 2 + 2 ≤ size := by omega
      exact ⟨.inl h0, hread, safe_nil⟩
  · rw [if_neg hexist, List.append_nil, safe_newItem]
    refine iff_of_false (fun h => ?_) fun h => hexist (isExist_iff_mem.mpr h.2)
    omega

/-- **The walk stays in the buffer when its paths end, and nothing but an item that is there is short.** -/
theorem safe_facAccesses {fuel : ℕ} (hsize : off + p.length = size) (hfuel : p.length ≤ fuel)
    (hnames : ∀ m ∈ list, m.objName.strlen ≤ 256) :
    Safe (facAccesses size fuel off list p) ↔
      PathsEnd (list.map MacPolicy.objName) (facCut fuel p).1 ∧
        ((facCut fuel p).2 = [] ∨ ((0 : UInt8) ∈ (facCut fuel p).2.drop 4 ∧
          pathOf (facCut fuel p).2 ∈ list.map MacPolicy.objName ++ (facCut fuel p).1.map nameOf)) := by
  induction fuel generalizing off list p with
  | zero =>
      obtain rfl : p = [] := List.length_eq_zero_iff.mp (by omega)
      exact iff_of_true safe_nil ⟨trivial, .inl rfl⟩
  | succ fuel ih =>
      by_cases hnil : p.length = 0
      · obtain rfl : p = [] := List.length_eq_zero_iff.mp hnil
        rw [facAccesses_nil, facCut_nil]
        exact iff_of_true safe_nil ⟨trivial, .inl rfl⟩
      by_cases hshort : p.length < macStride p
      · have hne : p ≠ [] := fun h => hnil (by rw [h, List.length_nil])
        rw [safe_facAccesses_short hsize hnil hshort, facCut, if_pos hshort]
        simp only [PathsEnd, hne, false_or, true_and, List.map_nil, List.append_nil]
      -- a complete item
      have hstride : 260 ≤ macStride p := Nat.le_add_right _ _
      have hdrop : (p.drop (macStride p)).length = p.length - macStride p := List.length_drop
      have hsize' : off + macStride p + (p.drop (macStride p)).length = size := by omega
      have hfuel' : (p.drop (macStride p)).length ≤ fuel := by omega
      rw [facAccesses, if_neg hnil, facCut, if_neg hshort, safe_append, safe_existAccesses hsize]
      simp only [PathsEnd, and_assoc]
      refine and_congr_right fun hend => ?_
      by_cases hexist : isExistMacPolicy list (pathOf p) = true
      · have hmem := isExist_iff_mem.mp hexist
        have hname := nameOf_mem hnames hmem
        have hread : off + 2 + 2 ≤ size := by omega
        rw [if_pos hexist, safe_cons, ih hsize' hfuel' hnames, and_iff_right hread, List.map_cons,
          pathsEnd_congr fun s => mem_insert_name hname, mem_insert_name' hname]
      · have hread : off + macStride p ≤ size := by omega
        have hnames' := strlen_append_loadMac (p := p) hnames
        rw [if_neg hexist, safe_append, safe_newItem, and_iff_right hread, ih hsize' hfuel' hnames',
          List.map_append, List.append_assoc]
        rfl

/-- The same for a whole buffer. -/
theorem safe_facAccesses_buffer (buf : Bytes) :
    Safe (facAccesses buf.length buf.length 8 [] (buf.drop 8)) ↔
      PathsEnd [] (facItems buf) ∧ (facTail buf = [] ∨
        ((0 : UInt8) ∈ (facTail buf).drop 4 ∧ pathOf (facTail buf) ∈ (facItems buf).map nameOf)) := by
  rcases Nat.lt_or_ge buf.length 8 with hlen | hlen
  swap
  · have hsize : 8 + (buf.drop 8).length = buf.length := by
      rw [List.length_drop]
      omega
    have hfuel : (buf.drop 8).length ≤ buf.length := by omega
    exact safe_facAccesses hsize hfuel fun m hm => absurd hm List.not_mem_nil
  · have hnil : buf.drop 8 = [] := List.drop_eq_nil_of_le (by omega)
    rw [facItems, facTail, hnil, facAccesses_nil, facCut_nil]
    exact iff_of_true safe_nil ⟨trivial, .inl rfl⟩

end Reads

/-- **The reads of the loading of the policy.**  For every content of the file, `load_fac_policy` reads
only what was read from the file, and rejects a content whose items do not fit, just when the items
fill the bytes read and the path of each, if the end of the buffer cuts it off, differs from the
earlier names before that.  No content is rejected. -/
theorem load_fac_policy_bounds (env : FacEnv) (content : Bytes) :
    (Safe (loadFacAccesses env content) ∧
        ∀ buf, facBuffer env content = .ok buf → facTail buf ≠ [] → loadFacRet env content ≠ 0) ↔
      ∀ buf, facBuffer env content = .ok buf → facTail buf = [] ∧ PathsEnd [] (facItems buf) := by
  cases hbuf : facBuffer env content with
  | error ret =>
      rw [loadFacAccesses, hbuf]
      exact iff_of_true ⟨safe_nil, fun _ h => by cases h⟩ fun _ h => by cases h
  | ok buf =>
      have hret : loadFacRet env content = 0 := by rw [loadFacRet, hbuf]
      have hall {P : Bytes → Prop} : (∀ b, Except.ok buf = (.ok b : Except ℤ Bytes) → P b) ↔ P buf :=
        ⟨fun h => h buf rfl, fun h b hb => Except.ok.inj hb ▸ h⟩
      rw [hall, hall, hret, loadFacAccesses, hbuf]
      constructor
      · rintro ⟨hsafe, htail⟩
        exact ⟨by_contra fun h => htail h rfl, ((safe_facAccesses_buffer buf).mp hsafe).1⟩
      · rintro ⟨hfit, hends⟩
        exact ⟨(safe_facAccesses_buffer buf).mpr ⟨hends, .inl hfit⟩, fun h => absurd hfit h⟩

/-- An item of four bytes behind the header. -/
def shortFac : Bytes := [0, 0, 0, 1, 0, 0, 0, 4, 1, 2, 0, 0]

/-- It is read beyond the end of the buffer, and loaded. -/
theorem short_item_is_loaded :
    let env : FacEnv := ⟨true, true, 12⟩
    ¬ Safe (loadFacAccesses env shortFac) ∧ facBuffer env shortFac = .ok shortFac ∧
      facTail shortFac ≠ [] ∧ loadFacRet env shortFac = 0 := by
  decide

end Fac
end TsbAgent
