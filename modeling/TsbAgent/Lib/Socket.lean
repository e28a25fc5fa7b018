/-
# Reading from a connection

What the peer sends arrives in segments.  `recv` is one `read`: it gives the next segment, or
as much of it as was asked for; after the last segment every `read` returns `ending`, 0 when
the peer has closed and negative after an error.  `recvAll` is the usual loop

```
len = total = read (fd, buf, n);
while (total < n && len > 0) { len = read (fd, buf + total, n - total); total += len; }
```

However the bytes are cut into segments, it ends with `n` bytes exactly when the peer has sent
so many, and then with the first `n` of them (`recvAll_eq`).
-/

import TsbAgent.Lib.Libc
import Mathlib.Algebra.Order.Ring.Int
import Mathlib.Algebra.Order.Ring.Nat

namespace TsbAgent
namespace Socket

open Libc

/-- One `read` of at most `n` bytes: what it returns, the bytes, and what is left. -/
def recv (ending : ℤ) (n : ℕ) : List Bytes → ℤ × Bytes × List Bytes
  | [] => (ending, [], [])
  | s :: ss => if s.length ≤ n then (s.length, s, ss) else (n, s.take n, s.drop n :: ss)

/-- The `while` loop, for at most so many rounds: `got` is the total so far, `len` what the last
`read` returned, `buf` the bytes so far. -/
def recvLoop (ending : ℤ) (n : ℕ) : ℕ → ℤ → ℤ → Bytes → List Bytes → ℤ × Bytes
  | 0, got, _, buf, _ => (got, buf)
  | fuel + 1, got, len, buf, segments =>
      if got < n ∧ len > 0 then
        let r := recv ending (n - got).toNat segments
        recvLoop ending n fuel (got + r.1) r.1 (buf ++ r.2.1) r.2.2
      else (got, buf)

/-- The first `read` and the loop.  Every round but the last uses a segment up. -/
def recvAll (ending : ℤ) (n : ℕ) (segments : List Bytes) : ℤ × Bytes :=
  let r := recv ending n segments
  recvLoop ending n (segments.length + 1) r.1 r.1 r.2.1 r.2.2

section Loop

variable {ending : ℤ} {n fuel : ℕ} {len : ℤ} {buf s : Bytes} {segments ss : List Bytes}

/-- A loop that has all its bytes, or whose last `read` gave nothing, is over. -/
theorem recvLoop_done {got : ℤ} (h : ¬ (got < n ∧ len > 0)) :
    recvLoop ending n fuel got len buf segments = (got, buf) := by
  cases fuel with
  | zero => rfl
  | succ fuel => rw [recvLoop, if_neg h]

theorem recvLoop_eq (hend : ending ≤ 0) (hne : ∀ s ∈ segments, s ≠ []) (hlen : len > 0) (hbuf : buf.length ≤ n)
    (hfuel : segments.length < fuel) :
    recvLoop ending n fuel buf.length len buf segments =
      if n ≤ buf.length + segments.flatten.length then ((n : ℤ), (buf ++ segments.flatten).take n)
      else ((buf.length + segments.flatten.length : ℤ) + ending, buf ++ segments.flatten) := by
  induction segments generalizing fuel len buf with
  | nil =>
      simp only [List.flatten_nil, List.length_nil, Nat.add_zero, List.append_nil]
      by_cases hfull : n ≤ buf.length
      · obtain rfl : n = buf.length := le_antisymm hfull hbuf
        rw [recvLoop_done (by omega), if_pos le_rfl, List.take_length]
      · obtain ⟨fuel, rfl⟩ : ∃ k, fuel = k + 1 := ⟨fuel - 1, by omega⟩
        rw [recvLoop, if_pos ⟨by omega, hlen⟩, if_neg hfull]
        simp only [recv, List.append_nil]
        rw [recvLoop_done (by omega)]
        simp
  | cons s ss ih =>
      obtain ⟨hs, hss⟩ := List.forall_mem_cons.mp hne
      have hpos : 0 < s.length := List.length_pos_iff.mpr hs
      rw [List.length_cons] at hfuel
      rw [List.flatten_cons, List.length_append, ← List.append_assoc]
      by_cases hfull : n ≤ buf.length
      · obtain rfl : n = buf.length := le_antisymm hfull hbuf
        rw [recvLoop_done (by omega), if_pos (by omega), List.append_assoc, List.take_left' rfl]
      · obtain ⟨fuel, rfl⟩ : ∃ k, fuel = k + 1 := ⟨fuel - 1, by omega⟩
        have hwant : ((n : ℤ) - buf.length).toNat = n - buf.length := by omega
        rw [recvLoop, if_pos ⟨by omega, hlen⟩]
        dsimp only
        rw [hwant, recv]
        by_cases hfits : s.length ≤ n - buf.length
        · rw [if_pos hfits]
          dsimp only
          have hgot : ((buf.length : ℤ) + s.length) = ((buf ++ s).length : ℕ) := by
            rw [List.length_append]
            omega
          have hle : (buf ++ s).length ≤ n := by
            rw [List.length_append]
            omega
          rw [hgot, ih hss (by omega) hle (by omega), List.length_append, Nat.add_assoc]
          push_cast
          rw [add_assoc (buf.length : ℤ)]
        · rw [if_neg hfits]
          dsimp only
          have htake : (buf ++ s ++ ss.flatten).take n = buf ++ s.take (n - buf.length) := by
            rw [List.append_assoc, List.take_append, List.take_of_length_le hbuf,
              List.take_append_of_le_length (by omega)]
          rw [recvLoop_done (by omega), if_pos (by omega), htake]
          congr 1
          omega

/-- **The loop ends with all the bytes exactly when the peer has sent them.** -/
theorem recvAll_eq (hend : ending ≤ 0) (hne : ∀ s ∈ segments, s ≠ []) (hn : 0 < n) :
    recvAll ending n segments =
      if n ≤ segments.flatten.length then ((n : ℤ), segments.flatten.take n)
      else ((segments.flatten.length : ℤ) + ending, segments.flatten) := by
  have hloop := @recvLoop_eq ending n (segments.length + 1 + 1) 1 [] segments hend hne (by decide)
    (Nat.zero_le _) (by omega)
  rw [recvLoop, if_pos ⟨by simpa using hn, by decide⟩] at hloop
  simp only [List.length_nil, List.nil_append, Int.natCast_zero, zero_add, sub_zero,
    Int.toNat_natCast] at hloop
  exact hloop

/-- A loop that reports `n` bytes has them. -/
theorem recvAll_whole (hend : ending ≤ 0) (hne : ∀ s ∈ segments, s ≠ []) (hn : 0 < n)
    (h : (recvAll ending n segments).1 = n) :
    n ≤ segments.flatten.length ∧ (recvAll ending n segments).2 = segments.flatten.take n := by
  rw [recvAll_eq hend hne hn] at h ⊢
  by_cases hle : n ≤ segments.flatten.length
  · rw [if_pos hle]
    exact ⟨hle, rfl⟩
  · rw [if_neg hle] at h
    dsimp only at h
    omega

/-- What is left after a first `read` that was given all it asked for. -/
theorem recv_head (h : n ≤ s.length) :
    (recv ending n (s :: ss)).1 = n ∧ (recv ending n (s :: ss)).2.1 = (s ++ ss.flatten).take n ∧
      (recv ending n (s :: ss)).2.2.flatten = (s ++ ss.flatten).drop n := by
  rw [recv, List.take_append_of_le_length h, List.drop_append_of_le_length h]
  by_cases hle : s.length ≤ n
  · obtain rfl : n = s.length := le_antisymm h hle
    rw [if_pos le_rfl, List.take_length, List.drop_length]
    exact ⟨rfl, rfl, rfl⟩
  · rw [if_neg hle]
    exact ⟨rfl, rfl, rfl⟩

theorem recv_nonempty (hne : ∀ s ∈ segments, s ≠ []) : ∀ s ∈ (recv ending n segments).2.2, s ≠ [] := by
  cases segments with
  | nil => nofun
  | cons s ss =>
      obtain ⟨hs, hss⟩ := List.forall_mem_cons.mp hne
      rw [recv]
      split_ifs with hle
      · exact hss
      · refine List.forall_mem_cons.mpr ⟨fun hnil => ?_, hss⟩
        have hlen := congrArg List.length hnil
        rw [List.length_drop, List.length_nil] at hlen
        omega

end Loop

end Socket
end TsbAgent
