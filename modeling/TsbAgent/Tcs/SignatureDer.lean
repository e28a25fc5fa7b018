/-
# The encoding of a signature

`encodeDER_4signout` of `tss-main/tcs/tcsapi/tcsu/uutils.c` turns the 64 bytes of a signature, two
numbers of 32 bytes, into their distinguished encoding (`TsbAgent.Lib.Der`).  A number with the
top bit set gets a zero in front; every other number is written in all its 32 bytes, the
leading zeros too.  So one that begins with nine zero bits is written in more octets than it takes,
and a strict reader refuses the signature (`signature_der_iff`, `leading_zeros_refused`).
-/

import TsbAgent.Lib.Der
import TsbAgent.Tcs.Basic

namespace TsbAgent
namespace Tcs

open Libc Word Der

/-- `memcpy(b + p, src, n)`, where `src` has `n` bytes. -/
def memcpyAt (b : Bytes) (p : ℕ) (src : Bytes) : Bytes := b.take p ++ src ++ b.drop (p + src.length)

/-- The stores of one number from `p` on, and where they end.  The source writes them out twice. -/
def putInteger (b : Bytes) (p : ℕ) (x : Bytes) : Bytes × ℕ :=
  if deref x &&& 0x80 ≠ 0 then
    (memcpyAt (((b.set p 0x02).set (p + 1) 0x21).set (p + 2) 0x00) (p + 3) x, p + 3 + 0x20)
  else (memcpyAt ((b.set p 0x02).set (p + 1) 0x20) (p + 2) x, p + 2 + 0x20)

/-- `encodeDER_4signout`: what it returns, and what it writes to `outbuf`. -/
def encodeDer4signout (srcsignbuf : Mem) : UInt8 × Bytes :=
  let sigoutbuf := ((List.replicate 80 0).set 0 0x30).set 1 0x00
  let r := putInteger sigoutbuf 2 (srcsignbuf.bytes 0 0x20)
  let s := putInteger r.1 r.2 (srcsignbuf.bytes 0x20 0x20)
  let sigoutbuflen := UInt8.ofNat s.2
  (sigoutbuflen, (s.1.set 1 (sigoutbuflen - 2)).take sigoutbuflen.toNat)

/-- The contents that are written for a number. -/
def padded (x : Bytes) : Bytes := if deref x &&& 0x80 ≠ 0 then 0 :: x else x

/-- A number of 32 bytes without nine leading zero bits. -/
def NoLeadingZeros (x : Bytes) : Prop := deref x ≠ 0 ∨ 0x80 ≤ deref x.tail

/-- What `encodeDER_4signout` should do: its result is the length of what it writes, at most 72
bytes, and a strict reader finds the two numbers of the signature in them. -/
structure EncodesSignature (src : Mem) (out : UInt8 × Bytes) : Prop where
  ret : out.1.toNat = out.2.length
  short : out.2.length ≤ 72
  reads : readPair out.2 = some (ofNet (src.bytes 0 0x20), ofNet (src.bytes 0x20 0x20))

section Stores

variable {w x : Bytes} {n : ℕ}

theorem set_end (w : Bytes) (n : ℕ) (v : UInt8) :
    (w ++ List.replicate (n + 1) 0).set w.length v = w ++ [v] ++ List.replicate n 0 := by
  simp [List.replicate_succ]

theorem memcpyAt_end (w x : Bytes) (n : ℕ) : memcpyAt (w ++ List.replicate n 0) w.length x =
    w ++ x ++ List.replicate (n - x.length) 0 := by
  rw [memcpyAt, List.take_left, List.drop_append, List.drop_of_length_le (by omega)]
  simp

theorem length_padded (hx : x.length = 0x20) : (padded x).length = 0x20 ∨ (padded x).length = 0x21 := by
  unfold padded
  split_ifs
  · exact .inr (by rw [List.length_cons, hx])
  · exact .inl hx

/-- **The stores of a number are an item** behind what is written, in a buffer of zeros. -/
theorem putInteger_end {p : ℕ} (hw : w.length = p) (hx : x.length = 0x20) (hn : 0x23 ≤ n) :
    putInteger (w ++ List.replicate n 0) p x =
      (w ++ item tagInteger (padded x) ++ List.replicate (n - (padded x).length - 2) 0,
        p + (padded x).length + 2) := by
  subst hw
  obtain ⟨k, rfl⟩ := Nat.exists_eq_add_of_le' hn
  have h1 (v : UInt8) : (w ++ [v]).length = w.length + 1 := List.length_append
  have h2 (v u : UInt8) : (w ++ [v] ++ [u]).length = w.length + 2 := by simp
  have h3 (v u t : UInt8) : (w ++ [v] ++ [u] ++ [t]).length = w.length + 3 := by simp
  rw [putInteger, padded, item]
  split_ifs with htop
  · rw [set_end, ← h1 0x02, set_end, ← h2 0x02 0x21, set_end, ← h3 0x02 0x21 0x00, memcpyAt_end, h3]
    simp [hx]
    rfl
  · rw [set_end, ← h1 0x02, set_end, ← h2 0x02 0x20, memcpyAt_end, h2]
    simp [hx]
    rfl

theorem deref_and_top (v : UInt8) : v &&& 0x80 ≠ 0 ↔ ¬ v < 0x80 := by
  obtain ⟨⟨v⟩⟩ := v
  revert v
  decide +kernel

/-- **The contents are in the fewest octets** unless the number begins with nine zero bits. -/
theorem fewestOctets_padded (hx : x.length = 0x20) : FewestOctets (padded x) ↔ NoLeadingZeros x := by
  match x, hx with
  | v :: u :: t, _ =>
    rw [padded, NoLeadingZeros, deref_cons, List.tail_cons, deref_cons]
    split_ifs with htop
    · rw [deref_and_top] at htop
      have hv : v ≠ 0 := fun h0 => htop (by rw [h0]; decide)
      exact iff_of_true ⟨by decide, fun _ => UInt8.not_lt.mp htop⟩ (.inl hv)
    · have hlow : v < 0x80 := not_not.mp (mt (deref_and_top v).mpr htop)
      exact (and_iff_right hlow).trans imp_iff_not_or

theorem ofNet_padded (x : Bytes) : ofNet (padded x) = ofNet x := by
  unfold padded
  split_ifs
  · exact ofNet_zero_cons x
  · rfl

end Stores

section Encoding

variable (src : Mem)

/-- **What is written:** a SEQUENCE of the two numbers, each with its contents padded. -/
theorem encodeDer4signout_eq :
    encodeDer4signout src =
      (UInt8.ofNat ((padded (src.bytes 0 0x20)).length + (padded (src.bytes 0x20 0x20)).length + 6),
        item tagSequence (item tagInteger (padded (src.bytes 0 0x20)) ++
          item tagInteger (padded (src.bytes 0x20 0x20)))) := by
  have hr : (src.bytes 0 0x20).length = 0x20 := Mem.length_bytes ..
  have hs : (src.bytes 0x20 0x20).length = 0x20 := Mem.length_bytes ..
  have hstart : ((List.replicate 80 0).set 0 0x30).set 1 0x00 = ([0x30, 0x00] : Bytes) ++ List.replicate 78 0 :=
    rfl
  have hfirst := @putInteger_end [0x30, 0x00] (src.bytes 0 0x20) 78 2 rfl hr (by decide)
  have ha := length_padded hr
  have hc := length_padded hs
  generalize padded (src.bytes 0 0x20) = a at hfirst ha ⊢
  have hw : ([0x30, 0x00] ++ item tagInteger a).length = 2 + a.length + 2 := by
    rw [List.length_append, length_item, List.length_cons, List.length_cons, List.length_nil]
    omega
  have hsecond := @putInteger_end _ (src.bytes 0x20 0x20) (78 - a.length - 2) _ hw hs (by omega)
  generalize padded (src.bytes 0x20 0x20) = c at hsecond hc ⊢
  have hend : 2 + a.length + 2 + c.length + 2 = a.length + c.length + 6 := by omega
  have hret : (UInt8.ofNat (a.length + c.length + 6)).toNat = a.length + c.length + 6 :=
    UInt8.toNat_ofNat_of_lt' (by rw [UInt8.size]; omega)
  have hinner : UInt8.ofNat (a.length + c.length + 6) - 2 =
      UInt8.ofNat (item tagInteger a ++ item tagInteger c).length := by
    have htwo : (2 : UInt8).toNat = 2 := rfl
    rw [← UInt8.toNat_inj, UInt8.toNat_sub, hret, UInt8.toNat_ofNat', List.length_append, length_item,
      length_item]
    omega
  simp only [encodeDer4signout, hstart]
  rw [hfirst, hsecond, hend, hret, hinner]
  have hout : (item tagSequence (item tagInteger a ++ item tagInteger c)).length = a.length + c.length + 6 := by
    simp only [length_item, List.length_append]
    omega
  simp only [List.cons_append, List.nil_append, List.set_cons_succ, List.set_cons_zero]
  rw [← hout, item]
  exact congrArg _ (List.take_left' rfl)

/-- **The encoding of a signature is strict exactly when neither of its numbers begins with nine
zero bits.** -/
theorem signature_der_iff : EncodesSignature src (encodeDer4signout src) ↔
    NoLeadingZeros (src.bytes 0 0x20) ∧ NoLeadingZeros (src.bytes 0x20 0x20) := by
  have hr : (src.bytes 0 0x20).length = 0x20 := Mem.length_bytes ..
  have hs : (src.bytes 0x20 0x20).length = 0x20 := Mem.length_bytes ..
  have ha := length_padded hr
  have hc := length_padded hs
  have hread := @readPair_item (padded (src.bytes 0 0x20)) (padded (src.bytes 0x20 0x20)) (by omega)
  rw [ofNet_padded, ofNet_padded] at hread
  rw [encodeDer4signout_eq, ← fewestOctets_padded hr, ← fewestOctets_padded hs]
  constructor
  · intro h
    by_contra hmin
    rw [if_neg hmin] at hread
    exact Option.some_ne_none _ (h.reads.symm.trans hread)
  · intro hmin
    rw [if_pos hmin] at hread
    refine ⟨?_, ?_, hread⟩ <;> simp only [length_item, List.length_append]
    · rw [UInt8.toNat_ofNat']
      omega
    · omega

end Encoding

/-- A signature whose first number is 1. -/
def smallSignature : Mem := fun p => if p = 31 ∨ p = 32 then 1 else 0

/-- **Leading zeros are written out:** the strict reader refuses the encoding of a signature whose
first number is 1. -/
theorem leading_zeros_refused : ¬ EncodesSignature smallSignature (encodeDer4signout smallSignature) := by
  intro h
  have hnone : readPair (encodeDer4signout smallSignature).2 = none := by decide +kernel
  exact Option.some_ne_none _ (h.reads.symm.trans hnone)


end Tcs
end TsbAgent
