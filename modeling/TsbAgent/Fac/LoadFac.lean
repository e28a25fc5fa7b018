/-
# Loading the file protection policy

`load_fac_policy` of `tsb/kernel/accessctl/policy/list_fac.c`: the kernel walks the items of
`file_protect.data` behind a header of 8 bytes and appends one `mac_policy` for each, unless
its list has the path already.

```
 0      1     2          4         260
| flags | type | number  | path    | 292 bytes for each privileged process ...
```

A file that holds the encodings of a list of policies gives the list that `install` makes of
them (`facWalk_encodings`), which is the list itself when no path comes twice
(`installAll_of_nodup`).
-/

import TsbAgent.Fac.ListFac
import TsbAgent.Lib.Word

namespace TsbAgent
namespace Fac

open Libc Word

/-- 32 bytes from `off`. -/
def digestAt (b : Bytes) (off : ℕ) : Digest :=
  ⟨(fieldAt b off lenHash ++ List.replicate lenHash 0).take lenHash, by simp⟩

/-- The copy of a `struct file_protect_privileged_process`. -/
def loadDac (p : Bytes) : DacPolicy where
  priviType := UInt32.ofNat (netAt p 0 4)
  processHash := digestAt p 260
  subName := CStr.ofBytes (fieldAt p 4 256)

/-- The inner loop. -/
def loadDacs : ℕ → Bytes → List DacPolicy
  | 0, _ => []
  | n + 1, p => loadDac p :: loadDacs n (p.drop 292)

/-- The copy of a `struct file_protect_item` and its privileged processes. -/
def loadMac (p : Bytes) : MacPolicy where
  measureFlags := p.getD 0 0
  type := p.getD 1 0
  privilegedProcessNum := UInt16.ofNat (netAt p 2 2)
  objName := CStr.ofBytes (fieldAt p 4 256)
  listDac := loadDacs (netAt p 2 2) (p.drop 260)

/-- What an item takes. -/
def macStride (p : Bytes) : ℕ := 260 + netAt p 2 2 * 292

/-- `is_exist_mac_policy`. -/
def isExistMacPolicy (list : List MacPolicy) (objName : CStr) : Bool :=
  list.any fun m => strcmp m.objName.bytes objName.bytes = 0

/-- The walk of `load_fac_policy`, for at most so many rounds, where `p` is what is left of the
buffer.  None: it has read beyond the buffer. -/
def facWalk : ℕ → List MacPolicy → Bytes → Option (List MacPolicy)
  | 0, list, _ => some list
  | n + 1, list, p =>
      if p.length = 0 then some list
      else if p.length < 260 then none
      else if isExistMacPolicy list (CStr.ofBytes (p.drop 4)) then facWalk n list (p.drop (macStride p))
      else if p.length < macStride p then none
      else facWalk n (list ++ [loadMac p]) (p.drop (macStride p))

/-- `load_fac_policy`, for the content of the file and an empty list: every round takes a byte at
least, so that the rounds suffice. -/
def loadFacPolicy (file : Bytes) : Option (List MacPolicy) := facWalk file.length [] (file.drop 8)

/-! ### The list of the kernel -/

/-- A policy joins the list, unless its path is there. -/
def install (list : List MacPolicy) (m : MacPolicy) : List MacPolicy :=
  if isExistMacPolicy list m.objName then list else list ++ [m]

/-- The policies one after the other. -/
def installAll (list ms : List MacPolicy) : List MacPolicy := ms.foldl install list

section Walk

variable {list ms : List MacPolicy} {m : MacPolicy} {n : ℕ} {b tail : Bytes}

theorem isExistMacPolicy_iff {objName : CStr} :
    isExistMacPolicy list objName = true ↔ ∃ m ∈ list, m.objName = objName := by
  simp [isExistMacPolicy, strcmp_eq_zero]

/-- Policies with different paths, none of them in the list, are all appended. -/
theorem installAll_of_nodup (hnodup : (ms.map MacPolicy.objName).Nodup)
    (hnew : ∀ m ∈ ms, ∀ m' ∈ list, m'.objName ≠ m.objName) : installAll list ms = list ++ ms := by
  induction ms generalizing list with
  | nil => simp [installAll]
  | cons m ms ih =>
      rw [List.map_cons, List.nodup_cons] at hnodup
      have hm : ¬ isExistMacPolicy list m.objName = true := by
        rw [isExistMacPolicy_iff]
        rintro ⟨m', hm', heq⟩
        exact hnew m List.mem_cons_self m' hm' heq
      have hrest : ∀ k ∈ ms, ∀ m' ∈ list ++ [m], m'.objName ≠ k.objName := by
        intro k hk m' hm' heq
        rcases List.mem_append.mp hm' with hl | hl
        · exact hnew k (List.mem_cons_of_mem _ hk) m' hl heq
        · obtain rfl := List.mem_singleton.mp hl
          exact hnodup.1 (List.mem_map.mpr ⟨k, hk, heq.symm⟩)
      have hstep := ih hnodup.2 hrest
      rw [installAll, List.foldl_cons, install, if_neg hm, ← installAll, hstep, List.append_assoc,
        List.singleton_append]

/-- These bytes are read as this policy, whatever follows them. -/
structure Encodes (b : Bytes) (m : MacPolicy) : Prop where
  length : 260 ≤ b.length
  stride : ∀ tail, macStride (b ++ tail) = b.length
  path : ∀ tail, CStr.ofBytes ((b ++ tail).drop 4) = m.objName
  mac : ∀ tail, loadMac (b ++ tail) = m

/-- One round. -/
theorem facWalk_encodes (h : Encodes b m) :
    facWalk (n + 1) list (b ++ tail) = facWalk n (install list m) tail := by
  have hlen : (b ++ tail).length = b.length + tail.length := List.length_append
  have hle := h.length
  have hdrop : (b ++ tail).drop b.length = tail := List.drop_left' rfl
  rw [facWalk, if_neg (by omega), if_neg (by omega), h.stride, h.path, h.mac, hdrop, install]
  split_ifs with hexist hlong
  · rfl
  · omega
  · rfl

/-- **The walk over the encodings of a list installs the list.** -/
theorem facWalk_encodings {α : Type*} {enc : α → Bytes} {mac : α → MacPolicy} {xs : List α}
    (h : ∀ x ∈ xs, Encodes (enc x) (mac x)) (hn : xs.length < n) :
    facWalk n list (xs.flatMap enc) = some (installAll list (xs.map mac)) := by
  induction xs generalizing list n with
  | nil =>
      obtain ⟨k, rfl⟩ := Nat.exists_eq_add_of_lt hn
      rw [facWalk, if_pos (by rfl)]
      rfl
  | cons x xs ih =>
      obtain ⟨hx, hxs⟩ := List.forall_mem_cons.mp h
      rw [List.length_cons] at hn
      obtain ⟨k, rfl⟩ : ∃ k, n = k + 1 := ⟨n - 1, by omega⟩
      rw [List.flatMap_cons, facWalk_encodes hx, ih hxs (by omega), List.map_cons]
      rfl

end Walk

end Fac
end TsbAgent
