/-
# The SM3 digest

`tss-main/httcutils/src/sm/sm3.c`, of which `tsb/kernel/platform/sm/sm3.c` and `tcs/tcsapi/tcsk/smk/sm3.c` are copies:
a context takes a message in pieces, keeps what does not fill a block of 64 bytes in its buffer, and counts the bytes
in two words.  `ht_sm3_finish` pads by two more calls of `ht_sm3_update` on its own context.

`sm3` is the digest of a whole message: padded by one bit, zeros and its length in bits, and compressed block by
block.  A context that has taken a message in any pieces gives that digest (`Absorbed.finish`); a piece of no bytes is
refused with `-1` and leaves it as it was, which is the same as taking it.
-/

import TsbAgent.Lib.Blocks
import TsbAgent.Lib.Digits

namespace TsbAgent
namespace Httcutils

open Libc Word Blocks

/-! ### The compression -/

/-- `rol(x, n)`. -/
def rol (x n : UInt32) : UInt32 := (x <<< (n &&& 0x1F)) ||| (x >>> ((32 - n) &&& 0x1F))

/-- `P0(x)`. -/
def p0 (x : UInt32) : UInt32 := x ^^^ rol x 9 ^^^ rol x 17

/-- `P1(x)`. -/
def p1 (x : UInt32) : UInt32 := x ^^^ rol x 15 ^^^ rol x 23

/-- `CONCAT_4_BYTES`. -/
def concat4Bytes (w8 : Bytes) (i : ℕ) : UInt32 :=
  ((w8.getD i 0).toUInt32 <<< 24) ||| ((w8.getD (i + 1) 0).toUInt32 <<< 16) |||
    ((w8.getD (i + 2) 0).toUInt32 <<< 8) ||| (w8.getD (i + 3) 0).toUInt32

/-- `SPLIT_INTO_4_BYTES`, `PUT_ULONG_BE`. -/
def split4Bytes (w32 : UInt32) : Bytes :=
  [(w32 >>> 24).toUInt8, (w32 >>> 16).toUInt8, (w32 >>> 8).toUInt8, w32.toUInt8]

/-- `uint32_t vector[8]`, and the working variables of `SM3_CF`. -/
structure Sm3Vector where
  a : UInt32
  b : UInt32
  c : UInt32
  d : UInt32
  e : UInt32
  f : UInt32
  g : UInt32
  h : UInt32
deriving DecidableEq

/-- `W[j]` for `j >= 16`. -/
def nextW (w : List UInt32) (j : ℕ) : UInt32 :=
  let temp := w.getD (j - 16) 0 ^^^ w.getD (j - 9) 0 ^^^ rol (w.getD (j - 3) 0) 15
  p1 temp ^^^ rol (w.getD (j - 13) 0) 7 ^^^ w.getD (j - 6) 0

/-- `W[68]`. -/
def expandW (block : Bytes) : List UInt32 :=
  (List.range' 16 52).foldl (fun w j => w ++ [nextW w j]) ((List.range 16).map fun i => concat4Bytes block (4 * i))

/-- A turn of the loops of `SM3_CF`. -/
def cfRound (t : UInt32) (ff gg : UInt32 → UInt32 → UInt32 → UInt32) (w : List UInt32) (v : Sm3Vector) (j : ℕ) :
    Sm3Vector :=
  let ss1 := rol (rol v.a 12 + v.e + rol t (UInt32.ofNat j)) 7
  let ss2 := ss1 ^^^ rol v.a 12
  let tt1 := ff v.a v.b v.c + v.d + ss2 + (w.getD j 0 ^^^ w.getD (j + 4) 0)
  let tt2 := gg v.e v.f v.g + v.h + ss1 + w.getD j 0
  { a := tt1, b := v.a, c := rol v.b 9, d := v.c, e := p0 tt2, f := v.e, g := rol v.f 19, h := v.g }

/-- `SM3_CF`. -/
def sm3Cf (v : Sm3Vector) (block : Bytes) : Sm3Vector :=
  let w := expandW block
  let u := (List.range 16).foldl (cfRound 0x79cc4519 (fun x y z => x ^^^ y ^^^ z) (fun x y z => x ^^^ y ^^^ z) w) v
  let u := (List.range' 16 48).foldl (cfRound 0x7a879d8a (fun x y z => (x &&& y) ||| (x &&& z) ||| (y &&& z))
    (fun x y z => (x &&& y) ||| (~~~x &&& z)) w) u
  { a := v.a ^^^ u.a, b := v.b ^^^ u.b, c := v.c ^^^ u.c, d := v.d ^^^ u.d, e := v.e ^^^ u.e, f := v.f ^^^ u.f,
    g := v.g ^^^ u.g, h := v.h ^^^ u.h }

/-! ### The context -/

/-- `sm3_context`. -/
structure Sm3Context where
  totalBytesHigh : UInt32
  totalBytesLow : UInt32
  vector : Sm3Vector
  buffer : Digits 64

/-- The vector `ht_sm3_init` sets. -/
def sm3Iv : Sm3Vector where
  a := 0x7380166f
  b := 0x4914b2b9
  c := 0x172442d7
  d := 0xda8a0600
  e := 0xa96f30bc
  f := 0x163138aa
  g := 0xe38dee4d
  h := 0xb0fb0e4e

/-- `ht_sm3_init`: the buffer stays as it is. -/
def htSm3Init (ctx : Sm3Context) : Sm3Context :=
  { ctx with totalBytesHigh := 0, totalBytesLow := 0, vector := sm3Iv }

/-- `while (chunk_length >= 64)`: the vector, and what is left of the chunk. -/
def blockLoop : ℕ → Sm3Vector → Bytes → Sm3Vector × Bytes
  | 0, v, chunk => (v, chunk)
  | fuel + 1, v, chunk =>
      if chunk.length ≥ 64 then blockLoop fuel (sm3Cf v (chunk.take 64)) (chunk.drop 64) else (v, chunk)

/-- The buffer filled up and compressed, when the chunk is long enough: the vector, the buffer, `left` and what is left
of the chunk. -/
def fillBuffer (ctx : Sm3Context) (left : ℕ) (chunk : Bytes) : Option (Sm3Vector × Digits 64 × ℕ × Bytes) :=
  let fill := 64 - left
  if left > 0 ∧ chunk.length ≥ fill then
    (ctx.buffer.put left (chunk.take fill)).map fun buffer =>
      (sm3Cf ctx.vector buffer.bytes, buffer, 0, chunk.drop fill)
  else some (ctx.vector, ctx.buffer, left, chunk)

/-- `ht_sm3_update`, with all bytes of the chunk; `none` for a write behind the buffer. -/
def htSm3Update (ctx : Sm3Context) (chunk : Bytes) : Option (ℤ × Sm3Context) :=
  if chunk.length < 1 then some (-1, ctx)
  else
    let left := (ctx.totalBytesLow &&& 0x3F).toNat
    let low := (ctx.totalBytesLow + UInt32.ofNat chunk.length) &&& 0xFFFFFFFF
    let high := if low < UInt32.ofNat chunk.length then ctx.totalBytesHigh + 1 else ctx.totalBytesHigh
    (fillBuffer ctx left chunk).bind fun r =>
      let blocks := blockLoop chunk.length r.1 r.2.2.2
      if blocks.2.length > 0 then
        (r.2.1.put r.2.2.1 blocks.2).map fun buffer => (0, ⟨high, low, blocks.1, buffer⟩)
      else some (0, ⟨high, low, blocks.1, r.2.1⟩)

/-- `SM3_padding`. -/
def sm3Padding : Bytes := 0x80 :: List.replicate 63 0

/-- The eight bytes of `msglen`. -/
def msglen (ctx : Sm3Context) : Bytes :=
  split4Bytes ((ctx.totalBytesLow >>> 29) ||| (ctx.totalBytesHigh <<< 3)) ++ split4Bytes (ctx.totalBytesLow <<< 3)

/-- The vector written out. -/
def Sm3Vector.output (v : Sm3Vector) : Digits 32 :=
  ⟨split4Bytes v.a ++ split4Bytes v.b ++ split4Bytes v.c ++ split4Bytes v.d ++ split4Bytes v.e ++ split4Bytes v.f ++
    split4Bytes v.g ++ split4Bytes v.h, rfl⟩

/-- `ht_sm3_finish`: the answer, and the digest where it is written. -/
def htSm3Finish (ctx : Sm3Context) : Option (ℤ × Option (Digits 32)) :=
  let last := (ctx.totalBytesLow &&& 0x3F).toNat
  let padn := if last < 56 then 56 - last else 120 - last
  (htSm3Update ctx (sm3Padding.take padn)).bind fun r₁ =>
    if r₁.1 ≠ 0 then some (r₁.1, none)
    else
      (htSm3Update r₁.2 (msglen ctx)).bind fun r₂ =>
        if r₂.1 ≠ 0 then some (r₂.1, none) else some (0, some r₂.2.vector.output)

instance : Inhabited Sm3Context := ⟨⟨0, 0, sm3Iv, Digits.zero 64⟩⟩

/-- The pieces of a message one after another. -/
def htSm3Updates : Sm3Context → List Bytes → Option Sm3Context
  | ctx, [] => some ctx
  | ctx, chunk :: chunks => (htSm3Update ctx chunk).bind fun r => htSm3Updates r.2 chunks

/-! ### The digest of a message -/

/-- A message padded: one bit, zeros, and its length in bits in eight bytes. -/
def sm3Pad (m : Bytes) : Bytes :=
  m ++ 0x80 :: List.replicate ((119 - m.length % 64) % 64) 0 ++ netBytes 8 (8 * m.length % 2 ^ 64)

/-- The digest of a message. -/
def sm3 (m : Bytes) : Digits 32 := (chain sm3Cf 64 sm3Iv (sm3Pad m)).output

example : (sm3 [0x61, 0x62, 0x63]).bytes =
    [0x66, 0xc7, 0xf0, 0xf4, 0x62, 0xee, 0xed, 0xd9, 0xd1, 0xf2, 0xd4, 0x6b, 0xdc, 0x10, 0xe4, 0xe2,
      0x41, 0x67, 0xc4, 0x87, 0x5c, 0xf2, 0xf7, 0xa2, 0x29, 0x7d, 0xa0, 0x2b, 0x8f, 0x4b, 0xa8, 0xe0] := by
  decide +kernel

/-! ### The length in bits -/

theorem split4Bytes_eq (w : UInt32) : split4Bytes w = netBytes 4 w.toNat := by
  have hlt : w.toNat < 2 ^ 32 := w.toNat_lt
  simp only [split4Bytes, netBytes, hostBytes, List.reverse_cons, List.reverse_nil, List.nil_append,
    List.cons_append, List.cons.injEq, and_true]
  refine ⟨?_, ?_, ?_, ?_⟩
  all_goals
    rw [← UInt8.toNat_inj]
    simp only [UInt32.toNat_toUInt8, UInt32.toNat_shiftRight, UInt8.toNat_ofNat', Nat.shiftRight_eq_div_pow,
      show (24 : UInt32).toNat = 24 from rfl, show (16 : UInt32).toNat = 16 from rfl,
      show (8 : UInt32).toNat = 8 from rfl, Nat.reducePow, Nat.reduceMod]
  all_goals omega

/-- Two words are eight bytes. -/
theorem netBytes_two_words (n : ℕ) : netBytes 8 n = netBytes 4 (n / 2 ^ 32) ++ netBytes 4 n := by
  rw [netBytes, show 8 = 4 + 4 from rfl, Digits.hostBytes_add, List.reverse_append]
  rfl

theorem netBytes_mod (w n : ℕ) : netBytes w (n % 256 ^ w) = netBytes w n := by
  rw [netBytes, netBytes, List.reverse_inj]
  have hmod := ofHost_hostBytes w n
  rw [← hmod]
  have hback := hostBytes_ofHost (hostBytes w n)
  rwa [length_hostBytes] at hback

theorem msglen_eq {ctx : Sm3Context} {n : ℕ}
    (h : ctx.totalBytesLow.toNat + 2 ^ 32 * ctx.totalBytesHigh.toNat = n % 2 ^ 64) :
    msglen ctx = netBytes 8 (8 * n % 2 ^ 64) := by
  have hl : ctx.totalBytesLow.toNat < 2 ^ 32 := ctx.totalBytesLow.toNat_lt
  have hh : ctx.totalBytesHigh.toNat < 2 ^ 32 := ctx.totalBytesHigh.toNat_lt
  have hlow : (ctx.totalBytesLow <<< 3).toNat = 8 * n % 2 ^ 64 % 256 ^ 4 := by
    rw [UInt32.toNat_shiftLeft, show (3 : UInt32).toNat % 32 = 3 from rfl, Nat.shiftLeft_eq]
    omega
  have hhigh : ((ctx.totalBytesLow >>> 29) ||| (ctx.totalBytesHigh <<< 3)).toNat = 8 * n % 2 ^ 64 / 2 ^ 32 := by
    have hsmall : ctx.totalBytesLow.toNat / 2 ^ 29 < 2 ^ 3 := by omega
    have hor := Nat.two_pow_add_eq_or_of_lt hsmall (ctx.totalBytesHigh.toNat % 2 ^ 29)
    rw [UInt32.toNat_or, UInt32.toNat_shiftLeft, UInt32.toNat_shiftRight, show (3 : UInt32).toNat % 32 = 3 from rfl,
      show (29 : UInt32).toNat % 32 = 29 from rfl, Nat.shiftLeft_eq, Nat.shiftRight_eq_div_pow,
      show ctx.totalBytesHigh.toNat * 2 ^ 3 % 2 ^ 32 = 2 ^ 3 * (ctx.totalBytesHigh.toNat % 2 ^ 29) by omega, Nat.or_comm, ← hor]
    omega
  rw [msglen, split4Bytes_eq, split4Bytes_eq, hlow, hhigh, netBytes_mod, ← netBytes_two_words]

/-! ### A message in pieces -/

theorem blockLoop_eq {fuel : ℕ} {chunk : Bytes} (h : chunk.length ≤ fuel) (v : Sm3Vector) :
    blockLoop fuel v chunk = (chain sm3Cf 64 v chunk, rest 64 chunk) := by
  induction fuel generalizing v chunk with
  | zero =>
      have hnil : chunk.length < 64 := by omega
      rw [blockLoop, chain_of_lt v hnil, rest_eq_self hnil]
  | succ fuel ih =>
      rw [blockLoop]
      rcases Nat.lt_or_ge chunk.length 64 with hlt | hge
      · rw [if_neg (by omega), chain_of_lt v hlt, rest_eq_self hlt]
      · have hblock : (chunk.take 64).length = 64 := by
          rw [List.length_take]
          omega
        have hchain := chain_block (f := sm3Cf) (by decide) v hblock (chunk.drop 64)
        have hrest := rest_block (by decide) hblock (chunk.drop 64)
        rw [List.take_append_drop] at hchain hrest
        rw [if_pos hge, ih (by rw [List.length_drop]; omega), hchain, hrest]

/-- The context has taken the message. -/
structure Absorbed (ctx : Sm3Context) (m : Bytes) : Prop where
  total : ctx.totalBytesLow.toNat + 2 ^ 32 * ctx.totalBytesHigh.toNat = m.length % 2 ^ 64
  vector : ctx.vector = chain sm3Cf 64 sm3Iv m
  buffer : ctx.buffer.bytes.take (m.length % 64) = rest 64 m

theorem absorbed_htSm3Init (ctx : Sm3Context) : Absorbed (htSm3Init ctx) [] := ⟨rfl, rfl, rfl⟩

theorem Absorbed.left {ctx : Sm3Context} {m : Bytes} (h : Absorbed ctx m) :
    (ctx.totalBytesLow &&& 0x3F).toNat = m.length % 64 := by
  have htotal := h.total
  rw [UInt32.toNat_and, show (0x3F : UInt32).toNat = 2 ^ 6 - 1 from rfl, Nat.and_two_pow_sub_one_eq_mod]
  omega

/-- Bytes written behind `left` others. -/
theorem put_take {buffer : Digits 64} {left : ℕ} {b : Bytes} (h : left + b.length ≤ 64) :
    ∃ buffer', buffer.put left b = some buffer' ∧
      buffer'.bytes.take (left + b.length) = buffer.bytes.take left ++ b := by
  have hlen := buffer.length_eq
  refine ⟨_, dif_pos h, ?_⟩
  refine List.take_left' ?_
  rw [List.length_append, List.length_take]
  omega

/-- What the first step of `ht_sm3_update` leaves is the same message. -/
theorem fillBuffer_spec {ctx : Sm3Context} {left : ℕ} {pre chunk : Bytes} (hleft : left < 64)
    (hpre : ctx.buffer.bytes.take left = pre) :
    ∃ v buffer left' chunk', fillBuffer ctx left chunk = some (v, buffer, left', chunk') ∧
      chain sm3Cf 64 v (buffer.bytes.take left' ++ chunk') = chain sm3Cf 64 ctx.vector (pre ++ chunk) ∧
      rest 64 (buffer.bytes.take left' ++ chunk') = rest 64 (pre ++ chunk) ∧
      (left' = 0 ∨ left' + chunk'.length < 64) ∧ chunk'.length ≤ chunk.length := by
  have hlen := ctx.buffer.length_eq
  rcases em (left > 0 ∧ chunk.length ≥ 64 - left) with hfill | hno
  · have hd : (chunk.take (64 - left)).length = 64 - left := by
      rw [List.length_take]
      omega
    obtain ⟨buffer, hput, htake⟩ := @put_take ctx.buffer left (chunk.take (64 - left)) (by omega)
    have hall : buffer.bytes = pre ++ chunk.take (64 - left) := by
      rw [hd, Nat.add_sub_cancel' hleft.le, List.take_of_length_le buffer.length_eq.le, hpre] at htake
      exact htake
    have hblock : (pre ++ chunk.take (64 - left)).length = 64 := by rw [← hall, buffer.length_eq]
    refine ⟨sm3Cf ctx.vector buffer.bytes, buffer, 0, chunk.drop (64 - left), ?_, ?_, ?_, Or.inl rfl, ?_⟩
    · rw [fillBuffer, if_pos hfill, hput]
      rfl
    · have hchain := chain_block (f := sm3Cf) (by decide) ctx.vector hblock (chunk.drop (64 - left))
      rw [List.append_assoc, List.take_append_drop] at hchain
      rw [hchain, hall]
      rfl
    · have hrest := rest_block (by decide) hblock (chunk.drop (64 - left))
      rw [List.append_assoc, List.take_append_drop] at hrest
      rw [hrest]
      rfl
    · rw [List.length_drop]
      omega
  · refine ⟨ctx.vector, ctx.buffer, left, chunk, ?_, by rw [hpre], by rw [hpre], by omega, le_rfl⟩
    rw [fillBuffer, if_neg hno]

/-- The two words count the bytes. -/
theorem count_update {low high : UInt32} {n k : ℕ} (h : low.toNat + 2 ^ 32 * high.toNat = n % 2 ^ 64)
    (hk : k < 2 ^ 32) :
    ((low + UInt32.ofNat k) &&& 0xFFFFFFFF).toNat +
        2 ^ 32 * (if (low + UInt32.ofNat k) &&& 0xFFFFFFFF < UInt32.ofNat k then high + 1 else high).toNat =
      (n + k) % 2 ^ 64 := by
  have hl : low.toNat < 2 ^ 32 := low.toNat_lt
  have hh : high.toNat < 2 ^ 32 := high.toNat_lt
  have hofNat : (UInt32.ofNat k).toNat = k := UInt32.toNat_ofNat_of_lt' hk
  have hsum : ((low + UInt32.ofNat k) &&& 0xFFFFFFFF).toNat = (low.toNat + k) % 2 ^ 32 := by
    rw [UInt32.toNat_and, show (0xFFFFFFFF : UInt32).toNat = 2 ^ 32 - 1 from rfl, Nat.and_two_pow_sub_one_eq_mod,
      UInt32.toNat_add, hofNat, Nat.mod_mod]
  have hone : (high + 1).toNat = (high.toNat + 1) % 2 ^ 32 := by
    rw [UInt32.toNat_add]
    rfl
  have hiff : (low + UInt32.ofNat k) &&& 0xFFFFFFFF < UInt32.ofNat k ↔ 2 ^ 32 ≤ low.toNat + k := by
    rw [UInt32.lt_iff_toNat_lt, hsum, hofNat]
    omega
  rw [hsum]
  rcases Nat.lt_or_ge (low.toNat + k) (2 ^ 32) with hlt | hge
  · rw [if_neg (fun hc => by rw [hiff] at hc; omega)]
    omega
  · rw [if_pos (hiff.mpr hge), hone]
    omega

/-- **A piece of a message.** -/
theorem Absorbed.update {ctx : Sm3Context} {m : Bytes} (h : Absorbed ctx m) {chunk : Bytes}
    (hchunk : chunk.length < 2 ^ 31) :
    ∃ ctx', htSm3Update ctx chunk = some (if chunk = [] then -1 else 0, ctx') ∧ Absorbed ctx' (m ++ chunk) := by
  rcases eq_or_ne chunk [] with rfl | hne
  · refine ⟨ctx, ?_, by rwa [List.append_nil]⟩
    rw [htSm3Update, if_pos (by decide), if_pos rfl]
  · have hpos : ¬ chunk.length < 1 := by
      have hlen := List.length_pos_iff.mpr hne
      omega
    have hmod : m.length % 64 < 64 := Nat.mod_lt _ (by decide)
    have hcount := count_update h.total (show chunk.length < 2 ^ 32 by omega)
    obtain ⟨v, buffer, left', chunk', hfill, hchain, hrest, hleft, hle⟩ :=
      @fillBuffer_spec ctx (m.length % 64) _ chunk hmod h.buffer
    rw [h.vector, ← chain_append (by decide)] at hchain
    rw [← rest_append (by decide)] at hrest
    -- what the loop leaves is what the message leaves over, behind `left'` bytes
    have hloop := blockLoop_eq hle v
    have hend : chain sm3Cf 64 v chunk' = chain sm3Cf 64 sm3Iv (m ++ chunk) ∧
        buffer.bytes.take left' ++ rest 64 chunk' = rest 64 (m ++ chunk) ∧
        left' + (rest 64 chunk').length = (m ++ chunk).length % 64 := by
      have hlen := length_rest (n := 64) (m ++ chunk)
      rw [← hrest] at hlen
      rcases hleft with rfl | hshort
      · rw [List.take_zero, List.nil_append] at hchain hrest hlen
        exact ⟨hchain, by rw [List.take_zero, List.nil_append, hrest], by rw [Nat.zero_add, hlen]⟩
      · have hl : (buffer.bytes.take left' ++ chunk').length = left' + chunk'.length := by
          have hb := buffer.length_eq
          rw [List.length_append, List.length_take]
          omega
        rw [chain_of_lt v (by omega)] at hchain
        rw [rest_eq_self (by omega)] at hrest hlen
        rw [chain_of_lt v (by omega), rest_eq_self (show chunk'.length < 64 by omega)]
        exact ⟨hchain, hrest, by rw [← hlen, hl]⟩
    obtain ⟨hvector, htail, hlength⟩ := hend
    have hroom : left' + (rest 64 chunk').length ≤ 64 := by
      rw [hlength]
      exact (Nat.mod_lt _ (by decide)).le
    rw [htSm3Update, if_neg hpos, if_neg hne, h.left]
    dsimp only
    rw [hfill, Option.bind_some]
    dsimp only
    rw [hloop]
    dsimp only
    rcases Nat.eq_zero_or_pos (rest 64 chunk').length with hz | hp
    · rw [if_neg (by omega)]
      refine ⟨_, rfl, ⟨by rw [List.length_append]; exact hcount, hvector, ?_⟩⟩
      rw [← hlength, hz, Nat.add_zero, ← htail, List.length_eq_zero_iff.mp hz, List.append_nil]
    · obtain ⟨buffer', hput, htake⟩ := @put_take buffer left' (rest 64 chunk') hroom
      rw [if_pos hp, hput]
      refine ⟨_, rfl, ⟨by rw [List.length_append]; exact hcount, hvector, ?_⟩⟩
      rw [← hlength, ← htail]
      exact htake

/-- A message in any pieces. -/
theorem Absorbed.updates {ctx : Sm3Context} {m : Bytes} (h : Absorbed ctx m) {chunks : List Bytes}
    (hchunks : ∀ c ∈ chunks, c.length < 2 ^ 31) :
    ∃ ctx', htSm3Updates ctx chunks = some ctx' ∧ Absorbed ctx' (m ++ chunks.flatten) := by
  induction chunks generalizing ctx m with
  | nil => exact ⟨ctx, rfl, by rwa [List.flatten_nil, List.append_nil]⟩
  | cons c chunks ih =>
      obtain ⟨ctx₁, hupdate, h₁⟩ := h.update (hchunks c List.mem_cons_self)
      obtain ⟨ctx₂, hrest, h₂⟩ := ih h₁ fun d hd => hchunks d (List.mem_cons_of_mem c hd)
      refine ⟨ctx₂, ?_, ?_⟩
      · rw [htSm3Updates, hupdate, Option.bind_some]
        exact hrest
      · rwa [List.append_assoc, ← List.flatten_cons] at h₂

/-! ### The digest -/

/-- The padding `ht_sm3_finish` takes from `SM3_padding`. -/
theorem padding_eq {len : ℕ} :
    sm3Padding.take (if len % 64 < 56 then 56 - len % 64 else 120 - len % 64) =
      0x80 :: List.replicate ((119 - len % 64) % 64) 0 := by
  have hlt : len % 64 < 64 := Nat.mod_lt _ (by decide)
  obtain ⟨k, hk, hpad⟩ : ∃ k, (if len % 64 < 56 then 56 - len % 64 else 120 - len % 64) = k + 1 ∧
      k = (119 - len % 64) % 64 := by
    split_ifs
    · exact ⟨55 - len % 64, by omega, by omega⟩
    · exact ⟨119 - len % 64, by omega, by omega⟩
  rw [hk, sm3Padding, List.take_succ_cons, List.take_replicate, ← hpad, Nat.min_eq_left (by omega)]

/-- **The digest of a message taken in pieces** is that of the message. -/
theorem Absorbed.finish {ctx : Sm3Context} {m : Bytes} (h : Absorbed ctx m) : htSm3Finish ctx = some (0, some (sm3 m)) := by
  have hpadlen : (0x80 :: List.replicate ((119 - m.length % 64) % 64) (0 : UInt8)).length < 2 ^ 31 := by
    rw [List.length_cons, List.length_replicate]
    omega
  obtain ⟨ctx₁, h₁, habs₁⟩ := h.update hpadlen
  have hmsglen := msglen_eq h.total
  have hlen : (msglen ctx).length = 8 := by rw [hmsglen, length_netBytes]
  obtain ⟨ctx₂, h₂, habs₂⟩ := habs₁.update (show (msglen ctx).length < 2 ^ 31 by rw [hlen]; decide)
  have hne : msglen ctx ≠ [] := List.ne_nil_of_length_pos (by rw [hlen]; decide)
  rw [if_neg (List.cons_ne_nil _ _)] at h₁
  rw [if_neg hne] at h₂
  rw [htSm3Finish]
  rw [h.left, padding_eq, h₁, Option.bind_some]
  dsimp only
  rw [if_neg (not_not.mpr rfl), h₂, Option.bind_some]
  dsimp only
  rw [if_neg (not_not.mpr rfl), habs₂.vector, hmsglen]
  rfl

/-- What a context on the stack gives for the pieces of a message: what it held before does not matter. -/
def digestOf (chunks : List Bytes) : Option (Digits 32) :=
  ((htSm3Updates (htSm3Init default) chunks).bind htSm3Finish).bind Prod.snd

theorem digestOf_eq {chunks : List Bytes} (h : ∀ c ∈ chunks, c.length < 2 ^ 31) :
    digestOf chunks = some (sm3 chunks.flatten) := by
  obtain ⟨ctx', hupdates, habs⟩ := (absorbed_htSm3Init default).updates h
  rw [digestOf, hupdates, Option.bind_some, habs.finish]
  rfl

/-- **Any cut of a message** into pieces, empty ones among them, and whatever the context held: the two words count its
bytes and the digest is that of the whole message. -/
theorem htSm3Finish_pieces (ctx : Sm3Context) {chunks : List Bytes} (h : ∀ c ∈ chunks, c.length < 2 ^ 31) :
    ∃ ctx', htSm3Updates (htSm3Init ctx) chunks = some ctx' ∧
      ctx'.totalBytesLow.toNat + 2 ^ 32 * ctx'.totalBytesHigh.toNat = chunks.flatten.length % 2 ^ 64 ∧
      htSm3Finish ctx' = some (0, some (sm3 chunks.flatten)) := by
  obtain ⟨ctx', hupdates, habs⟩ := (absorbed_htSm3Init ctx).updates h
  exact ⟨ctx', hupdates, habs.total, habs.finish⟩

/-- Three pieces, the middle one empty. -/
theorem htSm3Finish_pieces_abc :
    ∃ ctx', htSm3Updates (htSm3Init default) [[0x61], [], [0x62, 0x63]] = some ctx' ∧
      ctx'.totalBytesLow.toNat + 2 ^ 32 * ctx'.totalBytesHigh.toNat =
        ([[0x61], [], [0x62, 0x63]] : List Bytes).flatten.length % 2 ^ 64 ∧
      htSm3Finish ctx' = some (0, some (sm3 ([[0x61], [], [0x62, 0x63]] : List Bytes).flatten)) :=
  @htSm3Finish_pieces default [[0x61], [], [0x62, 0x63]] (by decide)

end Httcutils
end TsbAgent
