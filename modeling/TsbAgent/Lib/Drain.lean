/-
# Reading records while bytes are left

A reader that is given a length and no number of records: `while (length > 0)` it takes a record
and subtracts what the record takes.  Nothing holds it inside the buffer, so the length that is left
may become negative; a reader that is satisfied has come to exactly 0.

`drain_pack` says what such a reader makes of packed records (`TsbAgent.Lib.Codec`) for a length that
is theirs or less: it reads a part of them from the front, and ends where the length is used up.  In
the other direction, a length bounds what was read (`drain_consumes`).
-/

import TsbAgent.Lib.Codec

namespace TsbAgent
namespace Drain

open Libc Codec

variable {α β : Type*}

/-- The records of at most `fuel` turns of the loop, and the length that is left; `none` when a record
cannot be read or the turns do not suffice. -/
def drain (read : Bytes → Option (β × ℕ)) : ℕ → Bytes → ℤ → Option (List β × ℤ)
  | 0, _, length => if length > 0 then none else some ([], length)
  | fuel + 1, m, length =>
      if length > 0 then
        (read m).bind fun r => (drain read fuel (m.drop r.2) (length - r.2)).map fun o => (r.1 :: o.1, o.2)
      else some ([], length)

variable {read : Bytes → Option (β × ℕ)} {fuel : ℕ} {m : Bytes} {length : ℤ}

theorem drain_of_nonpos (h : length ≤ 0) : drain read fuel m length = some ([], length) := by
  cases fuel with
  | zero => exact if_neg (by omega)
  | succ fuel => exact if_neg (by omega)

/-- **A length bounds what was read,** when no record takes less than its stride. -/
theorem drain_consumes {stride : β → ℕ} {ys : List β} {r : ℤ}
    (hread : ∀ m y n, read m = some (y, n) → stride y ≤ n)
    (h : drain read fuel m length = some (ys, r)) : r + (ys.map stride).sum ≤ length := by
  induction fuel generalizing m length ys with
  | zero =>
      rw [drain] at h
      split_ifs at h
      obtain ⟨rfl, rfl⟩ := Prod.mk.inj (Option.some.inj h)
      simp
  | succ fuel ih =>
      rw [drain] at h
      split_ifs at h
      · obtain ⟨⟨y, n⟩, hy, h⟩ := Option.bind_eq_some_iff.mp h
        obtain ⟨⟨zs, r'⟩, hzs, h⟩ := Option.map_eq_some_iff.mp h
        obtain ⟨rfl, rfl⟩ := Prod.mk.inj h
        have hrest := ih hzs
        have hstride := hread m y n hy
        rw [List.map_cons, List.sum_cons]
        dsimp only at hrest ⊢
        omega
      · obtain ⟨rfl, rfl⟩ := Prod.mk.inj (Option.some.inj h)
        simp

/-- Whatever every read gives holds of all that was read. -/
theorem drain_forall {q : β → Prop} {ys : List β} {r : ℤ} (hread : ∀ m y n, read m = some (y, n) → q y)
    (h : drain read fuel m length = some (ys, r)) : ∀ y ∈ ys, q y := by
  induction fuel generalizing m length ys with
  | zero =>
      rw [drain] at h
      split_ifs at h
      obtain ⟨rfl, -⟩ := Prod.mk.inj (Option.some.inj h)
      simp
  | succ fuel ih =>
      rw [drain] at h
      split_ifs at h
      · obtain ⟨⟨y, n⟩, hy, h⟩ := Option.bind_eq_some_iff.mp h
        obtain ⟨⟨zs, r'⟩, hzs, h⟩ := Option.map_eq_some_iff.mp h
        obtain ⟨rfl, rfl⟩ := Prod.mk.inj h
        exact List.forall_mem_cons.mpr ⟨hread m y n hy, ih hzs⟩
      · obtain ⟨rfl, -⟩ := Prod.mk.inj (Option.some.inj h)
        simp

section Pack

variable {fill : ℕ → UInt8} {enc : α → Bytes} {size : α → ℕ} {pos : ℕ} {xs : List α} {tail : Bytes} {view : α → β}

/-- The record is read from its slot, whatever follows. -/
def ReadsSlot (read : Bytes → Option (β × ℕ)) (enc : α → Bytes) (size : α → ℕ) (view : α → β) (x : α) : Prop :=
  ∀ pad tail : Bytes, pad.length = size x - (enc x).length → read (enc x ++ (pad ++ tail)) = some (view x, size x)

/-- **Packed records are read from the front** until the length is used up. -/
theorem drain_pack (hpos : ∀ x ∈ xs, 0 < size x) (henc : ∀ x ∈ xs, (enc x).length ≤ size x)
    (hread : ∀ x ∈ xs, ReadsSlot read enc size view x) (hfuel : length.toNat ≤ fuel)
    (hlen : length ≤ (xs.map size).sum) :
    ∃ ys zs, xs = ys ++ zs ∧ (zs = [] ∨ length ≤ (ys.map size).sum) ∧
      drain read fuel (pack fill enc size pos xs ++ tail) length =
        some (ys.map view, length - (ys.map size).sum) := by
  induction xs generalizing fuel pos length with
  | nil =>
      refine ⟨[], [], rfl, .inl rfl, ?_⟩
      rw [drain_of_nonpos (by simpa using hlen)]
      simp
  | cons x xs ih =>
      by_cases hle : length ≤ 0
      · refine ⟨[], x :: xs, rfl, .inr (by simpa using hle), ?_⟩
        rw [drain_of_nonpos hle]
        simp
      · obtain ⟨hx, hxs⟩ := List.forall_mem_cons.mp henc
        obtain ⟨hreadx, hreadxs⟩ := List.forall_mem_cons.mp hread
        obtain ⟨hposx, hposxs⟩ := List.forall_mem_cons.mp hpos
        obtain ⟨fuel, rfl⟩ : ∃ k, fuel = k + 1 := ⟨fuel - 1, by omega⟩
        rw [List.map_cons, List.sum_cons] at hlen
        have hslot : (enc x ++ rest fill (pos + (enc x).length) (size x - (enc x).length)).length = size x := by
          rw [List.length_append, length_rest]
          omega
        have hdrop : (enc x ++ (rest fill (pos + (enc x).length) (size x - (enc x).length) ++
            (pack fill enc size (pos + size x) xs ++ tail))).drop (size x) =
              pack fill enc size (pos + size x) xs ++ tail := by
          rw [← List.append_assoc]
          exact List.drop_left' hslot
        obtain ⟨ys, zs, rfl, hend, hdrain⟩ := @ih fuel (length - size x) (pos + size x) hposxs hxs hreadxs
          (by omega) (by omega)
        refine ⟨x :: ys, zs, rfl, ?_, ?_⟩
        · rw [List.map_cons, List.sum_cons]
          rw [Int.natCast_add]
          exact hend.imp_right fun h => by omega
        · rw [pack, List.append_assoc, List.append_assoc, drain, if_pos (by omega),
            hreadx _ _ (length_rest _ _ _), Option.bind_some, hdrop, hdrain, Option.map_some, List.map_cons,
            List.map_cons, List.sum_cons]
          rw [Int.natCast_add]
          rw [sub_sub]

/-- With their own length, all are read. -/
theorem drain_pack_all (hpos : ∀ x ∈ xs, 0 < size x) (henc : ∀ x ∈ xs, (enc x).length ≤ size x)
    (hread : ∀ x ∈ xs, ReadsSlot read enc size view x) (hfuel : (xs.map size).sum ≤ fuel) :
    drain read fuel (pack fill enc size pos xs ++ tail) (xs.map size).sum = some (xs.map view, 0) := by
  obtain ⟨ys, zs, rfl, hend, hdrain⟩ := @drain_pack α β read fuel ((xs.map size).sum) fill enc size pos xs tail view
    hpos henc hread (by omega) le_rfl
  have hzs : zs = [] := by
    rcases hend with h | h
    · exact h
    · rw [List.map_append, List.sum_append] at h
      cases zs with
      | nil => rfl
      | cons z zs =>
          have hz := hpos z (by simp)
          rw [List.map_cons, List.sum_cons] at h
          omega
  subst hzs
  rw [hdrain, List.append_nil, sub_self]

end Pack

end Drain
end TsbAgent
