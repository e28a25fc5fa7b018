/-
# The size walks of the validators

Six walks of `tss-main/tcs/tcsapi/tcsu/tcs_util_policy_update.c` add up the sizes that the items
of an update state for themselves and compare the sum with a length that the update states:

| walk | items | header | size of an item | compared with |
| --- | ---: | ---: | --- | --- |
| `get_boot_ref_size` | 0 | 12 | a product of two 16 bit numbers, two more | `be_data_length` |
| `get_actual_size_file` | 0 | 4 | an 8 bit and a 16 bit number, a digest | `be_data_length` |
| `get_file_protect_date_len` | 0 | 260 | a 16 bit number of programs of 292 bytes | `be_data_length` |
| identities | 0 | 6 | a product of two 16 bit numbers, an 8 bit one | `be_data_length` |
| roles | 0 | 12 | two 32 bit numbers | `be_data_length` |
| names of `ptrace` | 16 | 4 | a 32 bit number | `be_total_length` |

`items` is where the items start in the data bytes.  The sums have 32 bits and nothing is
compared on the way, so the equality at the end also holds for items that reach a multiple of
`2 ^ 32` further than they should, and the walk has then read headers that are not in the data.
The names of `ptrace` are counted by two numbers whose sum has 32 bits, and the length that they
are compared with is inside the data and is never compared with `be_data_length`.

`Tiles` says that the items lie back to back in the data bytes, and `size_walk_tiles_iff` that an
accepted update tiles its data exactly when the sizes add up to less than `2 ^ 32` and the
declared length is one that the data bytes have room for.
-/

import TsbAgent.FileIntegrity.Format
import TsbAgent.Lib.Word
import TsbAgent.Tcs.Validators

namespace TsbAgent
namespace Tcs

open Libc Records FileIntegrity

/-- The walks that add the sizes of the items of an update up. -/
inductive SizeWalk
  | bootRef
  | actualFile
  | fileProtect
  | identity
  | role
  | ptrace
deriving DecidableEq

namespace SizeWalk

/-- The size of an item as the walk computes it. -/
def size : SizeWalk → Mem → ℕ → UInt32
  | bootRef => getBootRefItemSize
  | actualFile => getActualItemSize
  | fileProtect => fileProtectItemSize
  | identity => processIdentitySize
  | role => processRoleSize
  | ptrace => processNameSize

/-- The `sizeof` of the structure in front of an item. -/
def header : SizeWalk → ℕ
  | bootRef => 12
  | actualFile => 4
  | fileProtect => 260
  | identity => 6
  | role => 12
  | ptrace => 4

/-- Where the data bytes of the update start. -/
def dataAt : SizeWalk → ℕ
  | ptrace => 52
  | _ => 56

/-- Where the items start in the data bytes: behind a `struct ptrace_protect`, or at once. -/
def before : SizeWalk → ℕ
  | ptrace => 16
  | _ => 0

/-- `ntohl(update->be_data_length)`. -/
def dataLength (w : SizeWalk) (u : Mem) : UInt32 :=
  match w with
  | ptrace => u.ntohl 16
  | _ => u.ntohl 20

/-- The length that the computed size is compared with. -/
def declared (w : SizeWalk) (u : Mem) : UInt32 :=
  match w with
  | ptrace => u.ntohl 52
  | _ => u.ntohl 20

/-- The bound of the loop. -/
def number (w : SizeWalk) (u : Mem) : UInt32 :=
  match w with
  | ptrace => u.ntohl 60 + u.ntohl 64
  | _ => u.ntohl 16

/-- `offset`, `item_len`, `date_len` or `be_ptracer_item_len` in front of item `i`. -/
def offset (w : SizeWalk) (u : Mem) (i : ℕ) : UInt32 :=
  walk (fun offset => w.size u (w.dataAt + w.before + offset.toNat)) i 0

/-- The computed size is the declared one; the loop over the identities may break off before. -/
def Accepted (w : SizeWalk) (u : Mem) : Prop :=
  match w with
  | identity => (identityLoop u 56 (u.ntohl 16)).1 = true ∧
      (identityLoop u 56 (u.ntohl 16)).2 = u.ntohl 20
  | _ => itemsSize w.size u (w.dataAt + w.before) (w.number u) = w.declared u

/-- The validator that makes the walk; `tcs_util_check_critical_file_integrity_update` makes
the one of the digests too. -/
def validator : SizeWalk → Validator
  | bootRef => .bootReferences
  | actualFile => .fileIntegrity
  | fileProtect => .fileProtect
  | identity => .processIdentity
  | role => .processRole
  | ptrace => .ptraceProtect

/-! ### The true layout -/

/-- The bytes that an item takes by the numbers in its header. -/
def itemBytes (w : SizeWalk) (m : Mem) (p : ℕ) : ℕ :=
  match w with
  | bootRef => align4 (12 + (m.ntohs (p + 6)).toNat * (m.ntohs p).toNat +
      ((m.ntohs (p + 4)).toNat + (m.ntohs (p + 10)).toNat))
  | actualFile => align4 (4 + (m (p + 1)).toNat + (m.ntohs (p + 2)).toNat + 32)
  | fileProtect => 260 + (m.ntohs (p + 2)).toNat * 292
  | identity => align4 (6 + (m.ntohs (p + 2)).toNat * (1 + (m.ntohs (p + 4)).toNat) + (m p).toNat)
  | role => align4 (12 + (m.ntohl p).toNat + (m.ntohl (p + 4)).toNat)
  | ptrace => 4 + align4 (m.ntohl p).toNat

/-- How many items the update says it has. -/
def items (w : SizeWalk) (u : Mem) : ℕ :=
  match w with
  | ptrace => (u.ntohl 60).toNat + (u.ntohl 64).toNat
  | _ => (u.ntohl 16).toNat

/-- Where item `i` starts when the items are laid out one after the other. -/
def place (w : SizeWalk) (u : Mem) (i : ℕ) : ℕ :=
  walk (fun q => w.itemBytes u (w.dataAt + w.before + q)) i 0

/-- The items tile their data: the loop goes over all of them and its offset is where they are,
they end inside the data bytes, and so does every header that was read. -/
structure Tiles (w : SizeWalk) (u : Mem) : Prop where
  count : (w.number u).toNat = w.items u
  offsets : ∀ i ≤ w.items u, (w.offset u i).toNat = w.place u i
  inside : w.before + w.place u (w.items u) ≤ (w.dataLength u).toNat
  headers : ∀ i < (w.number u).toNat,
    w.before + (w.offset u i).toNat + w.header ≤ (w.dataLength u).toNat

section Walk

variable {w : SizeWalk} {u : Mem}

theorem alignSize_ofNat (n : ℕ) : alignSize (UInt32.ofNat n) = UInt32.ofNat (align4 n) := by
  have hmod : UInt32.ofNat n % 4 = 0 ↔ n % 4 = 0 := by
    rw [← UInt32.toNat_inj, UInt32.toNat_mod, UInt32.toNat_ofNat']
    show n % 2 ^ 32 % 4 = 0 ↔ n % 4 = 0
    omega
  rw [alignSize, align4]
  split_ifs with h₁ h₂ h₂
  · rfl
  · exact absurd (hmod.mp h₁) h₂
  · exact absurd (hmod.mpr h₂) h₁
  · rw [← UInt32.toNat_inj]
    simp only [UInt32.toNat_sub, UInt32.toNat_add, UInt32.toNat_mod, UInt32.toNat_ofNat']
    show (2 ^ 32 - n % 2 ^ 32 % 4 + (n % 2 ^ 32 + 4) % 2 ^ 32) % 2 ^ 32 = (n + 4 - n % 4) % 2 ^ 32
    omega

/-- The size in 32 bits is that of the item, up to a multiple of `2 ^ 32`. -/
theorem size_eq (w : SizeWalk) (m : Mem) (p : ℕ) : w.size m p = UInt32.ofNat (w.itemBytes m p) := by
  cases w with
  | bootRef =>
      simp only [size, itemBytes, getBootRefItemSize, ← alignSize_ofNat, UInt32.ofNat_add,
        UInt32.ofNat_mul, UInt32.ofNat_toNat]
      rfl
  | actualFile =>
      simp only [size, itemBytes, getActualItemSize, ← alignSize_ofNat, UInt32.ofNat_add,
        UInt32.ofNat_toNat, UInt32.ofNat_uInt8ToNat]
      rfl
  | fileProtect =>
      simp only [size, itemBytes, fileProtectItemSize, UInt32.ofNat_add, UInt32.ofNat_mul,
        UInt32.ofNat_toNat]
      rfl
  | identity =>
      simp only [size, itemBytes, processIdentitySize, ← alignSize_ofNat, UInt32.ofNat_add,
        UInt32.ofNat_mul, UInt32.ofNat_toNat, UInt32.ofNat_uInt8ToNat]
      rfl
  | role =>
      simp only [size, itemBytes, processRoleSize, ← alignSize_ofNat, UInt32.ofNat_add,
        UInt32.ofNat_toNat]
      rfl
  | ptrace =>
      rw [itemBytes, UInt32.ofNat_add, ← alignSize_ofNat, UInt32.ofNat_toNat]
      rfl

theorem header_le_itemBytes (w : SizeWalk) (m : Mem) (p : ℕ) : w.header ≤ w.itemBytes m p := by
  cases w with
  | fileProtect => exact Nat.le_add_right _ _
  | ptrace => exact Nat.le_add_right _ _
  | bootRef => exact le_trans (by simp only [header]; omega) (le_align4 _)
  | actualFile => exact le_trans (by simp only [header]; omega) (le_align4 _)
  | identity => exact le_trans (by simp only [header]; omega) (le_align4 _)
  | role => exact le_trans (by simp only [header]; omega) (le_align4 _)

/-- The offset is where the item is, as long as the items before it start below `2 ^ 32`. -/
theorem offset_eq {n : ℕ} (h : ∀ i < n, w.place u i < 2 ^ 32) :
    w.offset u n = UInt32.ofNat (w.place u n) := by
  refine walk_cast UInt32.ofNat_add (fun q hq => ?_) h
  rw [UInt32.toNat_ofNat_of_lt' hq, size_eq]

theorem toNat_offset {n : ℕ} (h : w.place u n < 2 ^ 32) :
    ∀ i ≤ n, (w.offset u i).toNat = w.place u i := by
  intro i hi
  have hlt : ∀ j ≤ n, w.place u j < 2 ^ 32 := fun j hj => (walk_mono hj 0).trans_lt h
  rw [offset_eq fun j hj => hlt j (by omega), UInt32.toNat_ofNat_of_lt' (hlt i hi)]

theorem number_eq (w : SizeWalk) (u : Mem) : w.number u = UInt32.ofNat (w.items u) := by
  cases w with
  | ptrace => rw [items, UInt32.ofNat_add, UInt32.ofNat_toNat, UInt32.ofNat_toNat]; rfl
  | _ => exact UInt32.ofNat_toNat.symm

/-- Items of less than `2 ^ 32` bytes are not too many to be counted. -/
theorem toNat_number (h : w.place u (w.items u) < 2 ^ 32) : (w.number u).toNat = w.items u := by
  have hone : 1 ≤ w.header := by cases w <;> decide
  have hitems : w.items u * 1 ≤ w.place u (w.items u) :=
    mul_header_le_walk (fun q => hone.trans (header_le_itemBytes w u _)) _ 0
  rw [Nat.mul_one] at hitems
  rw [number_eq, UInt32.toNat_ofNat_of_lt' (hitems.trans_lt h)]

theorem offset_number_of_accepted (h : w.Accepted u) : w.offset u (w.number u).toNat = w.declared u := by
  cases w with
  | identity =>
      obtain ⟨hloop, hlength⟩ := h
      exact (walkUntil_eq hloop).symm.trans hlength
  | _ => exact h

/-- An accepted update whose items take less than `2 ^ 32` bytes ends them where it declares. -/
theorem place_of_accepted (h : w.Accepted u) (hlt : w.place u (w.items u) < 2 ^ 32) :
    w.place u (w.items u) = (w.declared u).toNat := by
  rw [← offset_number_of_accepted h, toNat_number hlt, toNat_offset hlt _ le_rfl]

end Walk

end SizeWalk

/-- **When accepted items tile their data.**  For every walk and every update that it accepts: the
items lie back to back in the data bytes, without wrapping around, and the walk has read no
header outside of them, exactly when their sizes add up to less than `2 ^ 32` and the declared
length is one that the data bytes have room for. -/
theorem size_walk_tiles_iff (w : SizeWalk) (u : Mem) (h : w.Accepted u) :
    w.Tiles u ↔ w.place u (w.items u) < 2 ^ 32 ∧
      w.before + (w.declared u).toNat ≤ (w.dataLength u).toNat := by
  constructor
  · intro ht
    have hlt : w.place u (w.items u) < 2 ^ 32 := by
      have hinside := ht.inside
      have hlength : (w.dataLength u).toNat < 2 ^ 32 := (w.dataLength u).toNat_lt
      omega
    rw [← SizeWalk.place_of_accepted h hlt]
    exact ⟨hlt, ht.inside⟩
  · rintro ⟨hlt, hroom⟩
    have hend := SizeWalk.place_of_accepted h hlt
    have hcount := SizeWalk.toNat_number hlt
    refine ⟨hcount, SizeWalk.toNat_offset hlt, by omega, fun i hi => ?_⟩
    rw [hcount] at hi
    have hheader := walk_header_le (fun q => SizeWalk.header_le_itemBytes w u (w.dataAt + w.before + q)) hi 0
    change w.place u i + w.header ≤ w.place u (w.items u) at hheader
    rw [SizeWalk.toNat_offset hlt i hi.le]
    omega

/-- An update with one role, whose name and members have these lengths. -/
def roleUpdate (dataLength nameLength membersLength : ℕ) : Mem := fun p =>
  (Word.netBytes 4 56 ++ Word.netBytes 4 0 ++ Word.netBytes 8 1 ++ Word.netBytes 4 1 ++
    Word.netBytes 4 dataLength ++ List.replicate 32 0 ++ Word.netBytes 4 nameLength ++
    Word.netBytes 4 membersLength).getD p 0

/-- A role with a name of four bytes, in 16 bytes of data. -/
theorem role_of_four_bytes_tiles :
    SizeWalk.role.Accepted (roleUpdate 16 4 0) ∧ SizeWalk.role.Tiles (roleUpdate 16 4 0) := by
  have haccepted : SizeWalk.role.Accepted (roleUpdate 16 4 0) := by
    show itemsSize processRoleSize (roleUpdate 16 4 0) 56 _ = _
    decide
  exact ⟨haccepted, (size_walk_tiles_iff .role _ haccepted).mpr ⟨by decide, by decide⟩⟩

/-- **Eight bytes of data are accepted for a role that takes `2 ^ 32 + 8`:** its name has
`2 ^ 32 - 8` bytes and its members four, and not even the header is in the data. -/
theorem wrapped_role_accepted :
    SizeWalk.role.Accepted (roleUpdate 8 0xFFFFFFF8 4) ∧
      ¬ SizeWalk.role.Tiles (roleUpdate 8 0xFFFFFFF8 4) := by
  refine ⟨?_, fun ht => ?_⟩
  · show itemsSize processRoleSize (roleUpdate 8 0xFFFFFFF8 4) 56 _ = _
    decide
  · exact absurd ht.inside (by decide)

end Tcs
end TsbAgent
