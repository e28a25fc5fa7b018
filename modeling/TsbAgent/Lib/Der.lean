/-
# Numbers in the distinguished encoding

Of the distinguished encoding rules of ASN.1, what a pair of numbers takes.  An item is a tag,
the length of its contents and the contents; a length below 128 is one octet.

| item | tag | contents |
| --- | --- | --- |
| INTEGER | 0x02 | two's complement, most significant octet first, in the fewest octets |
| SEQUENCE | 0x30 | items, one after the other |

A value has one encoding.  The reader is strict: it refuses a length or a number in more octets
than it takes, a negative number, and anything left over.
-/

import TsbAgent.Lib.Word

namespace TsbAgent
namespace Der

open Libc Word

def tagInteger : UInt8 := 0x02
def tagSequence : UInt8 := 0x30

/-- The length of the contents, and what follows it. -/
def readLength : Bytes → Option (ℕ × Bytes)
  | [] => none
  | x :: b =>
      if x.toNat < 0x80 then some (x.toNat, b)
      else
        let k := x.toNat - 0x80
        let n := ofNet (b.take k)
        -- The long form is for what the short form cannot say, and has no leading zeros.
        if k = 0 ∨ b.length < k ∨ n < 0x80 ∨ n < 256 ^ (k - 1) then none
        else some (n, b.drop k)

/-- The contents of an item, and what follows it. -/
def readItem (tag : UInt8) : Bytes → Option (Bytes × Bytes)
  | [] => none
  | t :: b =>
      if t ≠ tag then none
      else
        match readLength b with
        | none => none
        | some (n, c) => if c.length < n then none else some (c.take n, c.drop n)

/-- The contents of an INTEGER that is not negative, in the fewest octets. -/
def FewestOctets : Bytes → Prop
  | [] => False
  | [x] => x < 0x80
  | x :: y :: _ => x < 0x80 ∧ (x = 0 → 0x80 ≤ y)

instance : DecidablePred FewestOctets
  | [] => inferInstanceAs (Decidable False)
  | [x] => inferInstanceAs (Decidable (x < 0x80))
  | x :: y :: _ => inferInstanceAs (Decidable (x < 0x80 ∧ (x = 0 → 0x80 ≤ y)))

/-- An INTEGER that is not negative, and what follows it. -/
def readNat (b : Bytes) : Option (ℕ × Bytes) :=
  match readItem tagInteger b with
  | none => none
  | some (c, rest) => if FewestOctets c then some (ofNet c, rest) else none

/-- A SEQUENCE of two INTEGERs that are not negative, and nothing else. -/
def readPair (b : Bytes) : Option (ℕ × ℕ) :=
  match readItem tagSequence b with
  | some (c, []) =>
      match readNat c with
      | none => none
      | some (r, c) =>
          match readNat c with
          | some (s, []) => some (r, s)
          | _ => none
  | _ => none

/-- An item of less than 128 octets. -/
def item (tag : UInt8) (contents : Bytes) : Bytes := tag :: UInt8.ofNat contents.length :: contents

section Items

variable {tag : UInt8} {a b rest : Bytes}

@[simp] theorem length_item (tag : UInt8) (a : Bytes) : (item tag a).length = a.length + 2 := rfl

theorem readItem_item (ha : a.length < 128) : readItem tag (item tag a ++ rest) = some (a, rest) := by
  have hlen : (UInt8.ofNat a.length).toNat = a.length := UInt8.toNat_ofNat_of_lt' (ha.trans (by decide))
  have hfits : ¬ (a ++ rest).length < a.length := by simp
  rw [item, List.cons_append, List.cons_append, readItem, if_neg (not_not.mpr rfl), readLength, hlen, if_pos ha]
  simp only [if_neg hfits, List.take_left, List.drop_left]

theorem readNat_item (ha : a.length < 128) : readNat (item tagInteger a ++ rest) =
    if FewestOctets a then some (ofNet a, rest) else none := by
  rw [readNat, readItem_item ha]

/-- A zero in front does not change a number. -/
theorem ofNet_zero_cons (a : Bytes) : ofNet (0 :: a) = ofNet a := by
  have hhost (b : Bytes) : ofHost (b ++ [0]) = ofHost b := by
    induction b with
    | nil => rfl
    | cons x b ih => rw [List.cons_append, ofHost, ih, ofHost]
  rw [ofNet, List.reverse_cons, hhost, ofNet]

/-- **A pair of numbers is read exactly when both are in the fewest octets.** -/
theorem readPair_item (h : a.length + b.length + 4 < 128) :
    readPair (item tagSequence (item tagInteger a ++ item tagInteger b)) =
      if FewestOctets a ∧ FewestOctets b then some (ofNet a, ofNet b) else none := by
  have hall := @readItem_item tagSequence (item tagInteger a ++ item tagInteger b) [] (by simp; omega)
  have hfirst := @readNat_item a (item tagInteger b) (by omega)
  have hsecond := @readNat_item b [] (by omega)
  rw [List.append_nil] at hall hsecond
  rw [readPair, hall]
  simp only [hfirst]
  split_ifs with ha hab hab
  · simp only [hsecond, if_pos hab.2]
  · simp only [hsecond, if_neg fun hb => hab ⟨ha, hb⟩]
  · exact absurd hab.1 ha
  · rfl

end Items

end Der
end TsbAgent
