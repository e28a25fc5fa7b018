/-
# Block ciphers

Two arguments that every block cipher of this shape needs, over arbitrary words, keys and blocks.  A shift register of
four words, of which a turn replaces the oldest by itself combined with a function of the other three: turned with the
same keys the other way round, the reversed register goes back to where it came from (`foldl_turn_reverse`).  A mode of
operation is a step on a block with a value that is chained: where one step undoes the other, the blocks do
(`through_through`).
-/

import Mathlib.Data.List.Basic
import Mathlib.Algebra.Order.Ring.Nat

namespace TsbAgent
namespace BlockCipher

/-! ### The shift register -/

/-- Four words. -/
structure Register (α : Type*) where
  x₀ : α
  x₁ : α
  x₂ : α
  x₃ : α
deriving DecidableEq

namespace Register

variable {α κ : Type*}

/-- The other way round. -/
def reverse (s : Register α) : Register α := ⟨s.x₃, s.x₂, s.x₁, s.x₀⟩

/-- The oldest word goes, combined with a function of the others and of a key it comes back as the newest. -/
def turn (op : α → α → α) (f : α → α → α → κ → α) (s : Register α) (k : κ) : Register α :=
  ⟨s.x₁, s.x₂, s.x₃, op s.x₀ (f s.x₁ s.x₂ s.x₃ k)⟩

variable {op : α → α → α} {f : α → α → α → κ → α}

theorem turn_reverse (hop : ∀ a b, op (op a b) b = a) (hf : ∀ a b c k, f a b c k = f c b a k) (s : Register α)
    (k : κ) : turn op f (turn op f s k).reverse k = s.reverse := by
  have hnew : op (op s.x₀ (f s.x₁ s.x₂ s.x₃ k)) (f s.x₃ s.x₂ s.x₁ k) = s.x₀ := by
    rw [hf s.x₃, hop]
  simp only [turn, reverse, hnew]

/-- **Turned back** with the keys from the last to the first. -/
theorem foldl_turn_reverse (hop : ∀ a b, op (op a b) b = a) (hf : ∀ a b c k, f a b c k = f c b a k) (ks : List κ)
    (s : Register α) : ks.reverse.foldl (turn op f) (ks.foldl (turn op f) s).reverse = s.reverse := by
  induction ks generalizing s with
  | nil => rfl
  | cons k ks ih =>
      have hlast : ks.reverse.foldl (turn op f) ((k :: ks).foldl (turn op f) s).reverse = (turn op f s k).reverse :=
        ih (turn op f s k)
      rw [List.reverse_cons, List.foldl_append, hlast]
      exact turn_reverse hop hf s k

/-- The words at `i`, `i + 1`, `i + 2`, `i + 3`. -/
def window (d : α) (u : List α) (i : ℕ) : Register α :=
  ⟨u.getD i d, u.getD (i + 1) d, u.getD (i + 2) d, u.getD (i + 3) d⟩

/-- The word that a turn puts behind the window at `i`. -/
def next (op : α → α → α) (f : α → α → α → κ → α) (d : α) (u : List α) (i : ℕ) (k : κ) : α :=
  op (u.getD i d) (f (u.getD (i + 1) d) (u.getD (i + 2) d) (u.getD (i + 3) d) k)

theorem window_append {d : α} {u : List α} {i : ℕ} (h : u.length = i + 4) (k : κ) :
    window d (u ++ [next op f d u i k]) (i + 1) = turn op f (window d u i) k := by
  have hold {j : ℕ} (hj : j < i + 4) (x : α) : (u ++ [x]).getD j d = u.getD j d := by
    simp only [List.getD_eq_getElem?_getD, List.getElem?_append_left (h ▸ hj)]
  have hnew (x : α) : (u ++ [x]).getD (i + 4) d = x := by
    simp only [List.getD_eq_getElem?_getD, ← h, List.getElem?_concat_length, Option.getD_some]
  simp only [window, turn, Register.mk.injEq]
  exact ⟨hold (by omega) _, hold (by omega) _, hold (by omega) _, hnew _⟩

/-- A list that grows by one word a turn. -/
def grow (op : α → α → α) (f : α → α → α → κ → α) (d : α) (e : κ) (ks : List κ) (n : ℕ) (u : List α) : List α :=
  (List.range n).foldl (fun u i => u ++ [next op f d u i (ks.getD i e)]) u

theorem length_grow (d : α) (e : κ) (ks : List κ) (n : ℕ) (u : List α) :
    (grow op f d e ks n u).length = n + u.length := by
  induction n with
  | zero => exact (Nat.zero_add _).symm
  | succ n ih =>
      rw [grow, List.range_succ, List.foldl_append, List.foldl_cons, List.foldl_nil, List.length_append, ← grow, ih,
        List.length_singleton]
      omega

/-- **Grown by one word a turn**, it ends with the register. -/
theorem window_grow (d : α) (e : κ) {u : List α} (hu : u.length = 4) (ks : List κ) {n : ℕ} (hn : n ≤ ks.length) :
    window d (grow op f d e ks n u) n = (ks.take n).foldl (turn op f) (window d u 0) := by
  induction n with
  | zero => rfl
  | succ n ih =>
      have hkey : ks[n]? = some (ks.getD n e) := by
        rw [List.getD_eq_getElem?_getD, List.getElem?_eq_getElem (by omega), Option.getD_some]
      rw [grow, List.range_succ, List.foldl_append, List.foldl_cons, List.foldl_nil, ← grow,
        window_append (by rw [length_grow, hu]), ih (by omega), List.take_add_one, hkey, Option.toList_some,
        List.foldl_append, List.foldl_cons, List.foldl_nil]

end Register

/-! ### Ends for ends -/

/-- Two places of a list, each for the other. -/
def swap {α : Type*} (d : α) (s : List α) (i j : ℕ) : List α := (s.set i (s.getD j d)).set j (s.getD i d)

theorem length_swap {α : Type*} (d : α) (s : List α) (i j : ℕ) : (swap d s i j).length = s.length := by
  rw [swap, List.length_set, List.length_set]

theorem getD_swap {α : Type*} (d : α) {s : List α} {i j t : ℕ} (hi : i < s.length) (hj : j < s.length) :
    (swap d s i j).getD t d = if t = j then s.getD i d else if t = i then s.getD j d else s.getD t d := by
  simp only [swap, List.getD_eq_getElem?_getD, List.getElem?_set, List.length_set]
  grind

theorem getD_foldl_swap {α : Type*} (d : α) {s : List α} {n : ℕ} (hs : s.length = 2 * n) {k : ℕ} (hk : k ≤ n)
    (t : ℕ) (ht : t < 2 * n) :
    ((List.range k).foldl (fun s i => swap d s i (2 * n - 1 - i)) s).length = 2 * n ∧
      ((List.range k).foldl (fun s i => swap d s i (2 * n - 1 - i)) s).getD t d =
        if t < k ∨ 2 * n - k ≤ t then s.getD (2 * n - 1 - t) d else s.getD t d := by
  induction k generalizing t with
  | zero => exact ⟨hs, by rw [if_neg (by omega)]; rfl⟩
  | succ k ih =>
      have hlen := (ih (by omega) t ht).1
      have hget {j : ℕ} (hj : j < 2 * n) := (ih (by omega) j hj).2
      rw [List.range_succ, List.foldl_append, List.foldl_cons, List.foldl_nil, length_swap]
      refine ⟨hlen, ?_⟩
      rw [getD_swap d (by omega) (by omega), hget ht, hget (j := k) (by omega),
        hget (j := 2 * n - 1 - k) (by omega)]
      grind

/-- **Every place of the first half for its counterpart** is the list the other way round. -/
theorem foldl_swap {α : Type*} (d : α) {s : List α} {n : ℕ} (hs : s.length = 2 * n) :
    (List.range n).foldl (fun s i => swap d s i (2 * n - 1 - i)) s = s.reverse := by
  rcases n with _ | n
  · rw [List.length_eq_zero_iff.mp hs]
    rfl
  · have hlen := (getD_foldl_swap d hs (Nat.le_refl _) 0 (by omega)).1
    refine List.ext_getElem (by rw [hlen, List.length_reverse, hs]) fun t ht _ => ?_
    have ht' : t < 2 * (n + 1) := hlen ▸ ht
    have hget := (getD_foldl_swap d hs (Nat.le_refl _) t ht').2
    rw [if_pos (by omega), List.getD_eq_getElem?_getD, List.getElem?_eq_getElem ht, Option.getD_some,
      List.getD_eq_getElem?_getD, List.getElem?_eq_getElem (by omega), Option.getD_some] at hget
    rw [hget, List.getElem_reverse]
    congr 1
    omega

/-! ### Modes of operation -/

/-- What is combined twice with the same is as it was. -/
theorem zipWith_zipWith {α : Type*} {op : α → α → α} (hop : ∀ a b, op (op a b) b = a) {a b : List α}
    (h : a.length = b.length) : List.zipWith op (List.zipWith op a b) b = a := by
  induction a generalizing b with
  | nil => rw [List.zipWith_nil_left, List.zipWith_nil_left]
  | cons x a ih =>
      cases b with
      | nil => exact absurd h (by simp)
      | cons y b =>
          rw [List.length_cons, List.length_cons, Nat.add_right_cancel_iff] at h
          rw [List.zipWith_cons_cons, List.zipWith_cons_cons, hop, ih h]

variable {σ β γ : Type*}

/-- Blocks through a step, with the value that is chained. -/
def through (step : σ → β → σ × γ) : σ → List β → List γ
  | _, [] => []
  | s, b :: bs => (step s b).2 :: through step (step s b).1 bs

/-- The chained value after the blocks. -/
def chained (step : σ → β → σ × γ) : σ → List β → σ
  | s, [] => s
  | s, b :: bs => chained step (step s b).1 bs

theorem through_append (step : σ → β → σ × γ) (s : σ) (bs cs : List β) :
    through step s (bs ++ cs) = through step s bs ++ through step (chained step s bs) cs := by
  induction bs generalizing s with
  | nil => rfl
  | cons b bs ih => rw [List.cons_append, through, ih, through, chained, List.cons_append]

theorem length_through (step : σ → β → σ × γ) (s : σ) (bs : List β) : (through step s bs).length = bs.length := by
  induction bs generalizing s with
  | nil => rfl
  | cons b bs ih => rw [through, List.length_cons, ih, List.length_cons]

/-- **A mode undone** block by block. -/
theorem through_through {step : σ → β → σ × γ} {back : σ → γ → σ × β}
    (h : ∀ s b, back s (step s b).2 = ((step s b).1, b)) (s : σ) (bs : List β) :
    through back s (through step s bs) = bs := by
  induction bs generalizing s with
  | nil => rfl
  | cons b bs ih => rw [through, through, h, ih]

end BlockCipher
end TsbAgent
