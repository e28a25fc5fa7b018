/-
# What the policies of the TCF share

The errors of `tss-main/tcf/include/tcfapi/tcf_error.h`, and the way the validators of the
TCS, which read an update through a pointer, see the records that the TCF packed into it: a
loop that adds the sizes of the records up comes to the size of the packed list
(`itemsSize_pack`).
-/

import TsbAgent.FileIntegrity.Update
import TsbAgent.Lib.Codec
import TsbAgent.Lib.Word
import TsbAgent.Tcs.Validators

namespace TsbAgent
namespace Tcf

open Libc Word Codec Records Tcs FileIntegrity

/-- The `TCF_ERR_` numbers that the policies use.  `tss` is a number that the TCS gave. -/
inductive TcfErr
  | parameter
  | file
  | nomem
  | badData
  | inputExceed
  | outputExceed
  | tsb
  | sem
  | version
  | tss (e : TssErr)
deriving DecidableEq

/-- What a function of the TCF returns instead of a result: its error, or nothing because it
has left its buffer. -/
abbrev Fail := Failure TcfErr

/-- `HTTC_ALIGN_SIZE (len, 4)` of an `int`. -/
def alignInt (len : ℤ) : ℤ := int32 (if len.tmod 4 = 0 then len else len + 4 - len.tmod 4)

theorem sizeT_eq {n : ℕ} (h : n < 2 ^ 64) : sizeT n = n := by
  rw [sizeT]
  omega

theorem int32_lt (z : ℤ) : int32 z < 2 ^ 31 := by
  rw [int32, Int.bmod_def]
  omega

theorem dvd_align4 (n : ℕ) : 4 ∣ align4 n := by
  unfold align4
  split_ifs <;> omega

/-- What is aligned holds an aligned length. -/
theorem align4_le_of_dvd {n k : ℕ} (hk : 4 ∣ k) (h : n ≤ k) : align4 n ≤ k := by
  unfold align4
  split_ifs <;> omega

theorem alignInt_eq {n : ℕ} (h : align4 n < 2 ^ 31) : alignInt n = align4 n := by
  have hmod : (n : ℤ).tmod 4 = (n % 4 : ℕ) := by
    rw [Int.tmod_eq_emod_of_nonneg (by omega)]
    rfl
  unfold alignInt
  rw [hmod]
  unfold align4 at h ⊢
  by_cases hz : n % 4 = 0
  · rw [if_pos hz] at h
    rw [if_pos (by omega), if_pos hz, int32_eq (by omega) (by omega)]
  · rw [if_neg hz] at h
    rw [if_neg (by omega), if_neg hz, int32_eq (by omega) (by omega)]
    omega

/-- What is aligned already stays what it is. -/
theorem alignInt_of_dvd {z : ℤ} (h : 4 ∣ z) : alignInt z = int32 z := by
  rw [alignInt, if_pos (Int.tmod_eq_zero_of_dvd h)]

/-- The writers compare the end of a record, an `int`, with a `size_t`: an end that is too large
for an `int` is negative, and huge as a `size_t`. -/
theorem end_lt {opt size bound : ℕ} (hbound : bound < 2 ^ 63) (hopt : opt < 2 ^ 31) (hsize : size < 2 ^ 31)
    (h : ¬ sizeT (int32 (opt + size : ℕ)) > bound) : opt + size < 2 ^ 31 := by
  by_contra hlarge
  apply h
  have hneg : int32 (opt + size : ℕ) = ((opt + size : ℕ) : ℤ) - 2 ^ 32 := by
    rw [int32, Int.bmod_def]
    omega
  rw [hneg, sizeT]
  omega

/-- The memory holds these bytes from `q` on. -/
def Holds (m : Mem) (q : ℕ) (b : Bytes) : Prop := m.bytes q b.length = b

section Holds

variable {m : Mem} {q off n : ℕ} {a b : Bytes}

theorem bytes_add (m : Mem) (q n k : ℕ) : m.bytes q (n + k) = m.bytes q n ++ m.bytes (q + n) k := by
  simp only [Mem.bytes, List.range_add, List.map_append, List.map_map, Function.comp_def, Nat.add_assoc]

theorem Holds.left (h : Holds m q (a ++ b)) : Holds m q a := by
  rw [Holds, List.length_append, bytes_add] at h
  exact (List.append_inj h (by simp)).1

theorem Holds.right (h : Holds m q (a ++ b)) : Holds m (q + a.length) b := by
  rw [Holds, List.length_append, bytes_add] at h
  exact (List.append_inj h (by simp)).2

/-- `ntohs` reads the field of two bytes. -/
theorem Holds.ntohs (h : Holds m q b) (hoff : off + 2 ≤ b.length) :
    (m.ntohs (q + off)).toNat = netAt b off 2 := by
  have hfield : fieldAt b off 2 = [m (q + off), m (q + off + 1)] := by
    have hsplit : b.length = off + (2 + (b.length - off - 2)) := by omega
    rw [fieldAt, ← h, hsplit, bytes_add, List.drop_left' (by simp), bytes_add, List.take_left' (by simp)]
    simp [Mem.bytes, List.range_succ]
  have h0 : (m (q + off)).toNat < 256 := (m (q + off)).toNat_lt
  have h1 : (m (q + off + 1)).toNat < 256 := (m (q + off + 1)).toNat_lt
  rw [netAt, hfield, Mem.ntohs, UInt32.toNat_or, UInt32.toNat_shiftLeft]
  simp only [ofNet, List.reverse_cons, List.reverse_nil, List.nil_append, List.cons_append, ofHost,
    UInt8.toNat_toUInt32]
  have hshift : (8 : UInt32).toNat % 32 = 8 := rfl
  have hbound : (m (q + off)).toNat <<< 8 < 2 ^ 32 := by
    rw [Nat.shiftLeft_eq]
    omega
  rw [hshift, Nat.mod_eq_of_lt hbound, ← Nat.shiftLeft_add_eq_or_of_lt h1, Nat.shiftLeft_eq]
  omega

theorem ofHost_append (a b : Bytes) : ofHost (a ++ b) = ofHost a + 256 ^ a.length * ofHost b := by
  induction a with
  | nil => simp [ofHost]
  | cons x a ih =>
      rw [List.cons_append, ofHost, ofHost, ih, List.length_cons, pow_succ']
      ring

/-- A field of four bytes is two of two bytes. -/
theorem netAt_four (hoff : off + 4 ≤ b.length) : netAt b off 4 = 65536 * netAt b off 2 + netAt b (off + 2) 2 := by
  have hsplit : fieldAt b off 4 = fieldAt b off 2 ++ fieldAt b (off + 2) 2 := by
    rw [fieldAt, fieldAt, fieldAt, ← List.drop_drop, ← List.take_add]
  have hlen : (fieldAt b (off + 2) 2).length = 2 := by
    rw [fieldAt, List.length_take, List.length_drop]
    omega
  rw [netAt, netAt, netAt, hsplit, ofNet, ofNet, ofNet, List.reverse_append, ofHost_append, List.length_reverse,
    hlen]
  omega

/-- `ntohl` reads the field of four bytes. -/
theorem Holds.ntohl (h : Holds m q b) (hoff : off + 4 ≤ b.length) :
    (m.ntohl (q + off)).toNat = netAt b off 4 := by
  have hhigh : (m.ntohs (q + off)).toNat = netAt b off 2 := h.ntohs (by omega)
  have hlow : (m.ntohs (q + (off + 2))).toNat = netAt b (off + 2) 2 := h.ntohs (by omega)
  have h0 : netAt b off 2 < 65536 := netAt_lt b off 2
  have h1 : netAt b (off + 2) 2 < 2 ^ 16 := netAt_lt b (off + 2) 2
  have hshift : (16 : UInt32).toNat % 32 = 16 := rfl
  have hbound : netAt b off 2 <<< 16 < 2 ^ 32 := by
    rw [Nat.shiftLeft_eq]
    omega
  rw [Mem.ntohl, UInt32.toNat_or, UInt32.toNat_shiftLeft, Nat.add_assoc, hhigh, hlow, hshift,
    Nat.mod_eq_of_lt hbound, ← Nat.shiftLeft_add_eq_or_of_lt h1, Nat.shiftLeft_eq, netAt_four hoff]
  omega

theorem toNat_alignSize {len : UInt32} (h : len.toNat + 4 < 2 ^ 32) :
    (alignSize len).toNat = align4 len.toNat := by
  have hmod : (len % 4).toNat = len.toNat % 4 := by
    rw [UInt32.toNat_mod]
    rfl
  have hzero : len % 4 = 0 ↔ len.toNat % 4 = 0 := by
    rw [← UInt32.toNat_inj, hmod]
    rfl
  unfold alignSize align4
  by_cases hz : len.toNat % 4 = 0
  · rw [if_pos (hzero.mpr hz), if_pos hz]
  · rw [if_neg (fun hc => hz (hzero.mp hc)), if_neg hz]
    rw [UInt32.toNat_sub, UInt32.toNat_add, hmod]
    have h4 : (4 : UInt32).toNat = 4 := rfl
    rw [h4]
    omega

end Holds

/-- **The sizes of the packed records add up** to the size of the list. -/
theorem itemsSize_pack {α : Type*} {fill : ℕ → UInt8} {enc : α → Bytes} {size : α → ℕ} {pos p : ℕ}
    {xs : List α} {m : Mem} {itemSize : Mem → ℕ → UInt32} (henc : ∀ x ∈ xs, (enc x).length ≤ size x)
    (hsize : ∀ x ∈ xs, ∀ q, Holds m q (enc x) → (itemSize m q).toNat = size x)
    (hm : Holds m p (pack fill enc size pos xs)) (hsum : (xs.map size).sum < 2 ^ 32)
    (hnum : xs.length < 2 ^ 32) :
    (itemsSize itemSize m p (UInt32.ofNat xs.length)).toNat = (xs.map size).sum := by
  have hwalk (offset : UInt32) (xs : List α) (pos : ℕ) (henc : ∀ x ∈ xs, (enc x).length ≤ size x)
      (hsize : ∀ x ∈ xs, ∀ q, Holds m q (enc x) → (itemSize m q).toNat = size x)
      (hm : Holds m (p + offset.toNat) (pack fill enc size pos xs))
      (hsum : offset.toNat + (xs.map size).sum < 2 ^ 32) :
      (walk (fun offset : UInt32 => itemSize m (p + offset.toNat)) xs.length offset).toNat =
        offset.toNat + (xs.map size).sum := by
    induction xs generalizing offset pos with
    | nil => simp [walk]
    | cons x xs ih =>
        obtain ⟨hencx, hencxs⟩ := List.forall_mem_cons.mp henc
        obtain ⟨hsizex, hsizexs⟩ := List.forall_mem_cons.mp hsize
        rw [List.map_cons, List.sum_cons] at hsum ⊢
        have hx := hsizex _ hm.left
        have hnext : (offset + itemSize m (p + offset.toNat)).toNat = offset.toNat + size x := by
          rw [UInt32.toNat_add, hx]
          exact Nat.mod_eq_of_lt (by omega)
        have hrest : Holds m (p + (offset + itemSize m (p + offset.toNat)).toNat)
            (pack fill enc size (pos + size x) xs) := by
          have hr := hm.right.right
          rw [length_rest] at hr
          have hpos : p + offset.toNat + (enc x).length + (size x - (enc x).length) =
              p + (offset.toNat + size x) := by omega
          rwa [hpos, ← hnext] at hr
        rw [List.length_cons, walk, ih _ _ hencxs hsizexs hrest (by omega), hnext, Nat.add_assoc]
  have hlen : (UInt32.ofNat xs.length).toNat = xs.length := UInt32.toNat_ofNat_of_lt' hnum
  have htotal := hwalk 0 xs pos henc hsize hm (by simpa using hsum)
  rw [itemsSize, hlen, htotal]
  simp

end Tcf
end TsbAgent
