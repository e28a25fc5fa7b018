/-
# The SM4 cipher

`tss-main/httcutils/src/sm/sm4.c`, of which `tsb/kernel/platform/sm/sm4.c` and `tcs/tcsapi/tcsk/smk/sm4.c` are copies:
32 turns of a register of four words, the same turns with the round keys from the last to the first for the way back,
and messages of any length in ECB or CBC mode, padded to full blocks by bytes that say how many they are.

A block comes back (`sm4OneRound_dec`), so blocks chained in either mode do, and so does a message
(`htSm4Decrypt_of_htSm4Encrypt`), as long as the length of the ciphertext fits the `int remain` that counts it down.
`ht_sm4_encrypt` and `ht_sm4_decrypt` call the function of the mode for one block at a time, with the last block of the
ciphertext as the next initial vector: that is one call of it for all blocks (`htSm4Encrypt_eq`, `htSm4Decrypt_eq`).
-/

import TsbAgent.Httcutils.Sm3
import TsbAgent.Lib.BlockCipher

namespace TsbAgent
namespace Httcutils

open BlockCipher Libc Word

/-! ### A block -/

/-- `SboxTable`. -/
def sboxTable : List Bytes :=
  [[0xd6,0x90,0xe9,0xfe,0xcc,0xe1,0x3d,0xb7,0x16,0xb6,0x14,0xc2,0x28,0xfb,0x2c,0x05],
   [0x2b,0x67,0x9a,0x76,0x2a,0xbe,0x04,0xc3,0xaa,0x44,0x13,0x26,0x49,0x86,0x06,0x99],
   [0x9c,0x42,0x50,0xf4,0x91,0xef,0x98,0x7a,0x33,0x54,0x0b,0x43,0xed,0xcf,0xac,0x62],
   [0xe4,0xb3,0x1c,0xa9,0xc9,0x08,0xe8,0x95,0x80,0xdf,0x94,0xfa,0x75,0x8f,0x3f,0xa6],
   [0x47,0x07,0xa7,0xfc,0xf3,0x73,0x17,0xba,0x83,0x59,0x3c,0x19,0xe6,0x85,0x4f,0xa8],
   [0x68,0x6b,0x81,0xb2,0x71,0x64,0xda,0x8b,0xf8,0xeb,0x0f,0x4b,0x70,0x56,0x9d,0x35],
   [0x1e,0x24,0x0e,0x5e,0x63,0x58,0xd1,0xa2,0x25,0x22,0x7c,0x3b,0x01,0x21,0x78,0x87],
   [0xd4,0x00,0x46,0x57,0x9f,0xd3,0x27,0x52,0x4c,0x36,0x02,0xe7,0xa0,0xc4,0xc8,0x9e],
   [0xea,0xbf,0x8a,0xd2,0x40,0xc7,0x38,0xb5,0xa3,0xf7,0xf2,0xce,0xf9,0x61,0x15,0xa1],
   [0xe0,0xae,0x5d,0xa4,0x9b,0x34,0x1a,0x55,0xad,0x93,0x32,0x30,0xf5,0x8c,0xb1,0xe3],
   [0x1d,0xf6,0xe2,0x2e,0x82,0x66,0xca,0x60,0xc0,0x29,0x23,0xab,0x0d,0x53,0x4e,0x6f],
   [0xd5,0xdb,0x37,0x45,0xde,0xfd,0x8e,0x2f,0x03,0xff,0x6a,0x72,0x6d,0x6c,0x5b,0x51],
   [0x8d,0x1b,0xaf,0x92,0xbb,0xdd,0xbc,0x7f,0x11,0xd9,0x5c,0x41,0x1f,0x10,0x5a,0xd8],
   [0x0a,0xc1,0x31,0x88,0xa5,0xcd,0x7b,0xbd,0x2d,0x74,0xd0,0x12,0xb8,0xe5,0xb4,0xb0],
   [0x89,0x69,0x97,0x4a,0x0c,0x96,0x77,0x7e,0x65,0xb9,0xf1,0x09,0xc5,0x6e,0xc6,0x84],
   [0x18,0xf0,0x7d,0xec,0x3a,0xdc,0x4d,0x20,0x79,0xee,0x5f,0x3e,0xd7,0xcb,0x39,0x48]]

/-- `FK`. -/
def sm4Fk : List UInt32 := [0xa3b1bac6, 0x56aa3350, 0x677d9197, 0xb27022dc]

/-- `CK`. -/
def sm4Ck : List UInt32 :=
  [0x00070e15, 0x1c232a31, 0x383f464d, 0x545b6269,
   0x70777e85, 0x8c939aa1, 0xa8afb6bd, 0xc4cbd2d9,
   0xe0e7eef5, 0xfc030a11, 0x181f262d, 0x343b4249,
   0x50575e65, 0x6c737a81, 0x888f969d, 0xa4abb2b9,
   0xc0c7ced5, 0xdce3eaf1, 0xf8ff060d, 0x141b2229,
   0x30373e45, 0x4c535a61, 0x686f767d, 0x848b9299,
   0xa0a7aeb5, 0xbcc3cad1, 0xd8dfe6ed, 0xf4fb0209,
   0x10171e25, 0x2c333a41, 0x484f565d, 0x646b7279]

/-- `ROTL(x, n)`. -/
def rotl (x n : UInt32) : UInt32 := ((x &&& 0xFFFFFFFF) <<< n) ||| (x >>> (32 - n))

/-- `sm4Sbox`: the table is read as 256 bytes in a row. -/
def sm4Sbox (inch : UInt8) : UInt8 := sboxTable.flatten.getD inch.toNat 0

/-- `sm4Lt`. -/
def sm4Lt (ka : UInt32) : UInt32 :=
  let bb := concat4Bytes ((split4Bytes ka).map sm4Sbox) 0
  bb ^^^ rotl bb 2 ^^^ rotl bb 10 ^^^ rotl bb 18 ^^^ rotl bb 24

/-- `sm4F`. -/
def sm4F (x0 x1 x2 x3 rk : UInt32) : UInt32 := x0 ^^^ sm4Lt (x1 ^^^ x2 ^^^ x3 ^^^ rk)

/-- `sm4CalciRK`. -/
def sm4CalciRK (ka : UInt32) : UInt32 :=
  let bb := concat4Bytes ((split4Bytes ka).map sm4Sbox) 0
  bb ^^^ rotl bb 13 ^^^ rotl bb 23

/-- `sm4_setkey`: the words behind the first four of `k[36]`. -/
def sm4Setkey (key : Digits 16) : List UInt32 :=
  let mk := (List.range 4).map fun i => concat4Bytes key.bytes (4 * i)
  let k := List.zipWith (· ^^^ ·) mk sm4Fk
  ((List.range 32).foldl (fun k i => k ++ [k.getD i 0 ^^^
    sm4CalciRK (k.getD (i + 1) 0 ^^^ k.getD (i + 2) 0 ^^^ k.getD (i + 3) 0 ^^^ sm4Ck.getD i 0)]) k).drop 4

/-- `ulbuf[36]` after its loop. -/
def ulbuf (sk : List UInt32) (input : Digits 16) : List UInt32 :=
  (List.range 32).foldl (fun u i => u ++
    [sm4F (u.getD i 0) (u.getD (i + 1) 0) (u.getD (i + 2) 0) (u.getD (i + 3) 0) (sk.getD i 0)])
    ((List.range 4).map fun i => concat4Bytes input.bytes (4 * i))

/-- The bytes of a register. -/
def registerBytes (s : Register UInt32) : Digits 16 :=
  ⟨split4Bytes s.x₀ ++ split4Bytes s.x₁ ++ split4Bytes s.x₂ ++ split4Bytes s.x₃, rfl⟩

/-- `sm4_one_round`: the output is the last four words, the last of them first. -/
def sm4OneRound (sk : List UInt32) (input : Digits 16) : Digits 16 :=
  let u := ulbuf sk input
  registerBytes ⟨u.getD 35 0, u.getD 34 0, u.getD 33 0, u.getD 32 0⟩

/-! ### The words of a block -/

theorem concat4Bytes_toNat (a b c d : UInt8) : (concat4Bytes [a, b, c, d] 0).toNat = ofNet [a, b, c, d] := by
  have ha := a.toNat_lt
  have hb := b.toNat_lt
  have hc := c.toNat_lt
  have hd := d.toNat_lt
  have h₁ := Nat.two_pow_add_eq_or_of_lt (show 2 ^ 16 * b.toNat < 2 ^ 24 by omega) a.toNat
  have h₂ := Nat.two_pow_add_eq_or_of_lt (show 2 ^ 8 * c.toNat < 2 ^ 16 by omega) (2 ^ 8 * a.toNat + b.toNat)
  have h₃ := Nat.two_pow_add_eq_or_of_lt hd (2 ^ 16 * a.toNat + 2 ^ 8 * b.toNat + c.toNat)
  have hshift {x : UInt8} {n : UInt32} {i : ℕ} (hn : n.toNat % 32 = i) (hi : i ≤ 24) :
      (x.toUInt32 <<< n).toNat = 2 ^ i * x.toNat := by
    have hx := x.toNat_lt
    have hpow : 2 ^ i ≤ 2 ^ 24 := Nat.pow_le_pow_right (by decide) hi
    have hlt : 2 ^ i * x.toNat < 2 ^ 32 := calc
      2 ^ i * x.toNat ≤ 2 ^ 24 * x.toNat := Nat.mul_le_mul_right _ hpow
      _ < 2 ^ 32 := by omega
    rw [UInt32.toNat_shiftLeft, hn, UInt8.toNat_toUInt32, Nat.shiftLeft_eq, Nat.mul_comm, Nat.mod_eq_of_lt hlt]
  have hvalue : (concat4Bytes [a, b, c, d] 0).toNat =
      2 ^ 24 * a.toNat ||| 2 ^ 16 * b.toNat ||| 2 ^ 8 * c.toNat ||| d.toNat := by
    simp only [concat4Bytes, List.getD_cons_zero, List.getD_cons_succ, UInt32.toNat_or,
      hshift (n := 24) (i := 24) rfl (by omega), hshift (n := 16) (i := 16) rfl (by omega),
      hshift (n := 8) (i := 8) rfl (by omega), UInt8.toNat_toUInt32]
  have hnet : ofNet [a, b, c, d] = d.toNat + 256 * (c.toNat + 256 * (b.toNat + 256 * (a.toNat + 256 * 0))) := rfl
  rw [hvalue, ← h₁, show 2 ^ 24 * a.toNat + 2 ^ 16 * b.toNat = 2 ^ 16 * (2 ^ 8 * a.toNat + b.toNat) by omega, ← h₂,
    show 2 ^ 16 * (2 ^ 8 * a.toNat + b.toNat) + 2 ^ 8 * c.toNat =
      2 ^ 8 * (2 ^ 16 * a.toNat + 2 ^ 8 * b.toNat + c.toNat) by omega, ← h₃, hnet]
  omega

/-- A word written out and read again. -/
theorem concat4Bytes_split4Bytes (w : UInt32) : concat4Bytes (split4Bytes w) 0 = w := by
  rw [← UInt32.toNat_inj, split4Bytes, concat4Bytes_toNat, ← split4Bytes, split4Bytes_eq,
    ofNet_netBytes_of_lt (by exact w.toNat_lt)]

/-- Four bytes read as a word and written out again. -/
theorem split4Bytes_concat4Bytes {b : Bytes} {i : ℕ} (h : i + 4 ≤ b.length) :
    split4Bytes (concat4Bytes b i) = fieldAt b i 4 := by
  have hfield : fieldAt b i 4 = [b.getD i 0, b.getD (i + 1) 0, b.getD (i + 2) 0, b.getD (i + 3) 0] := by
    rw [fieldAt, List.drop_eq_getElem_cons (show i < b.length by omega),
      List.drop_eq_getElem_cons (show i + 1 < b.length by omega),
      List.drop_eq_getElem_cons (show i + 1 + 1 < b.length by omega),
      List.drop_eq_getElem_cons (show i + 1 + 1 + 1 < b.length by omega)]
    simp only [List.take_succ_cons, List.take_zero, List.getD_eq_getElem?_getD,
      List.getElem?_eq_getElem (show i < b.length by omega),
      List.getElem?_eq_getElem (show i + 1 < b.length by omega),
      List.getElem?_eq_getElem (show i + 2 < b.length by omega),
      List.getElem?_eq_getElem (show i + 3 < b.length by omega), Option.getD_some]
  have hword : concat4Bytes b i =
      concat4Bytes [b.getD i 0, b.getD (i + 1) 0, b.getD (i + 2) 0, b.getD (i + 3) 0] 0 := rfl
  rw [hfield, hword, split4Bytes_eq, concat4Bytes_toNat, netBytes, ofNet]
  exact congrArg List.reverse (hostBytes_ofHost [b.getD (i + 3) 0, b.getD (i + 2) 0, b.getD (i + 1) 0, b.getD i 0])

/-- The words of a block. -/
def blockRegister (b : Digits 16) : Register UInt32 :=
  ⟨concat4Bytes b.bytes 0, concat4Bytes b.bytes 4, concat4Bytes b.bytes 8, concat4Bytes b.bytes 12⟩

theorem blockRegister_registerBytes (s : Register UInt32) : blockRegister (registerBytes s) = s := by
  have h₀ := concat4Bytes_split4Bytes s.x₀
  have h₁ := concat4Bytes_split4Bytes s.x₁
  have h₂ := concat4Bytes_split4Bytes s.x₂
  have h₃ := concat4Bytes_split4Bytes s.x₃
  cases s
  exact (Register.mk.injEq ..).mpr ⟨h₀, h₁, h₂, h₃⟩

theorem registerBytes_blockRegister (b : Digits 16) : registerBytes (blockRegister b) = b := by
  have hlen := b.length_eq
  have hsplit : fieldAt b.bytes 0 4 ++ fieldAt b.bytes 4 4 ++ fieldAt b.bytes 8 4 ++ fieldAt b.bytes 12 4 =
      b.bytes := by
    have hnext (i : ℕ) : fieldAt b.bytes i 4 ++ b.bytes.drop (i + 4) = b.bytes.drop i := by
      rw [fieldAt, ← List.drop_drop, List.take_append_drop]
    have hend : b.bytes.drop (12 + 4) = [] := List.drop_eq_nil_of_le hlen.le
    rw [← List.append_nil (fieldAt b.bytes 12 4), ← hend, List.append_assoc, List.append_assoc, hnext 12, hnext 8,
      hnext 4, hnext 0]
    rfl
  cases b with
  | mk bytes hbytes =>
      refine (Digits.mk.injEq ..).mpr ?_
      dsimp only [blockRegister] at hsplit hlen ⊢
      rw [split4Bytes_concat4Bytes (by omega), split4Bytes_concat4Bytes (by omega),
        split4Bytes_concat4Bytes (by omega), split4Bytes_concat4Bytes (by omega)]
      exact hsplit

/-! ### The way back -/

/-- What a turn adds to the oldest word. -/
def sm4T (x1 x2 x3 rk : UInt32) : UInt32 := sm4Lt (x1 ^^^ x2 ^^^ x3 ^^^ rk)

/-- A turn of `sm4_one_round`. -/
def sm4Turn (s : Register UInt32) (rk : UInt32) : Register UInt32 := s.turn (· ^^^ ·) sm4T rk

theorem xor_twice (a b : UInt32) : a ^^^ b ^^^ b = a := by rw [UInt32.xor_assoc, UInt32.xor_self, UInt32.xor_zero]

theorem sm4T_comm (x1 x2 x3 rk : UInt32) : sm4T x1 x2 x3 rk = sm4T x3 x2 x1 rk := by
  rw [sm4T, sm4T, UInt32.xor_comm (x1 ^^^ x2) x3, UInt32.xor_comm x1 x2, ← UInt32.xor_assoc]

/-- A turned register, turned back. -/
theorem foldl_sm4Turn_reverse (sk : List UInt32) (s : Register UInt32) :
    sk.reverse.foldl sm4Turn (sk.foldl sm4Turn s).reverse = s.reverse :=
  Register.foldl_turn_reverse xor_twice sm4T_comm sk s

theorem ulbuf_eq (sk : List UInt32) (input : Digits 16) :
    ulbuf sk input = Register.grow (· ^^^ ·) sm4T 0 0 sk 32
      ((List.range 4).map fun i => concat4Bytes input.bytes (4 * i)) := rfl

theorem window_ulbuf {sk : List UInt32} (hsk : sk.length = 32) (input : Digits 16) :
    Register.window 0 (ulbuf sk input) 32 = sk.foldl sm4Turn (blockRegister input) := by
  rw [ulbuf_eq, Register.window_grow _ _ rfl _ hsk.ge, List.take_of_length_le hsk.le]
  rfl

theorem sm4OneRound_eq {sk : List UInt32} (hsk : sk.length = 32) (input : Digits 16) :
    sm4OneRound sk input = registerBytes (sk.foldl sm4Turn (blockRegister input)).reverse := by
  rw [← window_ulbuf hsk, sm4OneRound, Register.window, Register.reverse]

/-- **A block comes back** with the round keys the other way round. -/
theorem sm4OneRound_reverse {sk : List UInt32} (hsk : sk.length = 32) (input : Digits 16) :
    sm4OneRound sk.reverse (sm4OneRound sk input) = input := by
  rw [sm4OneRound_eq (List.length_reverse.trans hsk), sm4OneRound_eq hsk, blockRegister_registerBytes,
    foldl_sm4Turn_reverse]
  exact registerBytes_blockRegister input

/-- The key of the standard's example, encrypted under itself. -/
example : (sm4OneRound (sm4Setkey ⟨[0x01,0x23,0x45,0x67,0x89,0xab,0xcd,0xef,0xfe,0xdc,0xba,0x98,0x76,0x54,0x32,0x10], rfl⟩)
    ⟨[0x01,0x23,0x45,0x67,0x89,0xab,0xcd,0xef,0xfe,0xdc,0xba,0x98,0x76,0x54,0x32,0x10], rfl⟩).bytes =
    [0x68,0x1e,0xdf,0x34,0xd2,0x06,0x96,0x5e,0x86,0xb3,0xe9,0x4f,0x53,0x6e,0x42,0x46] := by
  decide +kernel

/-! ### The context -/

theorem length_sm4Setkey (key : Digits 16) : (sm4Setkey key).length = 32 := by
  have hgrow : sm4Setkey key = (Register.grow (· ^^^ ·) (fun a b c k => sm4CalciRK (a ^^^ b ^^^ c ^^^ k)) 0 0 sm4Ck 32
    (List.zipWith (· ^^^ ·) ((List.range 4).map fun i => concat4Bytes key.bytes (4 * i)) sm4Fk)).drop 4 := rfl
  rw [hgrow, List.length_drop, Register.length_grow]
  rfl

/-- `sm4_ctx_impl`; its `iv` is not used. -/
structure Sm4Ctx where
  skEnc : List UInt32
  skDec : List UInt32
  encLength : skEnc.length = 32
  decLength : skDec.length = 32

instance : Inhabited Sm4Ctx := ⟨⟨List.replicate 32 0, List.replicate 32 0, rfl, rfl⟩⟩

/-- The loop of swaps. -/
def swapKeys (sk : List UInt32) : List UInt32 := (List.range 16).foldl (fun s i => swap 0 s i (31 - i)) sk

theorem swapKeys_eq {sk : List UInt32} (h : sk.length = 32) : swapKeys sk = sk.reverse :=
  foldl_swap (n := 16) 0 h

/-- `ht_sm4_setkey_enc`, `ht_sm4_setkey_dec`. -/
def htSm4SetkeyEnc (ctx : Sm4Ctx) (key : Bytes) : ℤ × Sm4Ctx :=
  if h : key.length ≠ 16 then (-1, ctx)
  else
    let sk := sm4Setkey ⟨key, not_not.mp h⟩
    (0, ⟨sk, swapKeys sk, length_sm4Setkey _, by
      rw [swapKeys_eq (length_sm4Setkey _), List.length_reverse, length_sm4Setkey]⟩)

/-- The context that `ht_sm4_encrypt` and `ht_sm4_decrypt` set up. -/
def ctxOf (key : Digits 16) : Sm4Ctx := (htSm4SetkeyEnc default key.bytes).2

theorem skDec_ctxOf (key : Digits 16) : (ctxOf key).skDec = (ctxOf key).skEnc.reverse := by
  rw [ctxOf, htSm4SetkeyEnc, dif_neg (not_not.mpr key.length_eq)]
  dsimp only
  rw [swapKeys_eq (length_sm4Setkey _)]

/-! ### The modes -/

/-- 16 bytes; `none` for a read behind the end. -/
def readBlock (b : Bytes) : Option (Digits 16) :=
  if h : (b.take 16).length = 16 then some ⟨b.take 16, h⟩ else none

/-- `while (len > 0)`: a step on each block, with what is chained. -/
def modeLoop {σ : Type} (step : σ → Digits 16 → σ × Digits 16) : ℕ → ℤ → σ → Bytes → Option Bytes
  | 0, _, _, _ => some []
  | fuel + 1, len, s, input =>
      if len > 0 then
        (readBlock input).bind fun b =>
          (modeLoop step fuel (len - 16) (step s b).1 (input.drop 16)).map ((step s b).2.bytes ++ ·)
      else some []

/-- Byte by byte. -/
def xorBlock (a b : Digits 16) : Digits 16 :=
  ⟨List.zipWith (· ^^^ ·) a.bytes b.bytes, by rw [List.length_zipWith, a.length_eq, b.length_eq, Nat.min_self]⟩

/-- A block in ECB mode. -/
def ecbStep (sk : List UInt32) (_ : Unit) (input : Digits 16) : Unit × Digits 16 := ((), sm4OneRound sk input)

/-- A block in CBC mode: the ciphertext is the next `temp`. -/
def cbcEncStep (sk : List UInt32) (temp input : Digits 16) : Digits 16 × Digits 16 :=
  let out := sm4OneRound sk (xorBlock input temp)
  (out, out)

/-- A block back from CBC mode. -/
def cbcDecStep (sk : List UInt32) (temp input : Digits 16) : Digits 16 × Digits 16 :=
  (input, xorBlock (sm4OneRound sk input) temp)

/-- `ht_sm4_ecb_encrypt`. -/
def htSm4EcbEncrypt (ctx : Sm4Ctx) (len : ℤ) (input : Bytes) : Option Bytes :=
  modeLoop (ecbStep ctx.skEnc) len.toNat len () input

/-- `ht_sm4_ecb_decrypt`. -/
def htSm4EcbDecrypt (ctx : Sm4Ctx) (len : ℤ) (input : Bytes) : Option Bytes :=
  modeLoop (ecbStep ctx.skDec) len.toNat len () input

/-- `ht_sm4_cbc_encrypt`. -/
def htSm4CbcEncrypt (ctx : Sm4Ctx) (len : ℤ) (iv : Digits 16) (input : Bytes) : Option Bytes :=
  modeLoop (cbcEncStep ctx.skEnc) len.toNat len iv input

/-- `ht_sm4_cbc_decrypt`. -/
def htSm4CbcDecrypt (ctx : Sm4Ctx) (len : ℤ) (iv : Digits 16) (input : Bytes) : Option Bytes :=
  modeLoop (cbcDecStep ctx.skDec) len.toNat len iv input

/-! ### Messages -/

/-- `FM_ALGMODE_ECB`. -/
def fmAlgmodeEcb : UInt32 := 0

/-- `FM_ALGMODE_CBC`. -/
def fmAlgmodeCbc : UInt32 := 1

/-- `while (ilen >= 16)`: the function of the mode on one block after another, with what the next one is given; also
what is left of the input. -/
def encryptLoop {σ : Type} (one : σ → Bytes → Option (σ × Bytes)) : ℕ → σ → Bytes → Option (σ × Bytes × Bytes)
  | 0, s, input => some (s, [], input)
  | fuel + 1, s, input =>
      if input.length ≥ 16 then
        (one s input).bind fun r =>
          (encryptLoop one fuel r.1 (input.drop 16)).map fun (t : σ × Bytes × Bytes) => (t.1, r.2 ++ t.2.1, t.2.2)
      else some (s, [], input)

/-- `padding[16]`. -/
def padding (input : Bytes) : Bytes :=
  if input.length = 0 then List.replicate 16 16
  else input ++ List.replicate (16 - input.length) (UInt8.ofNat (16 - input.length))

/-- One block in ECB mode, as the loop calls it. -/
def ecbEncOne (ctx : Sm4Ctx) (s : Unit) (input : Bytes) : Option (Unit × Bytes) :=
  (htSm4EcbEncrypt ctx 16 input).map fun output => (s, output)

/-- One block in CBC mode, and the output as the next `iv_tmp`. -/
def cbcEncOne (ctx : Sm4Ctx) (ivTmp : Digits 16) (input : Bytes) : Option (Digits 16 × Bytes) :=
  (htSm4CbcEncrypt ctx 16 ivTmp input).bind fun output => (readBlock output).map fun ivTmp => (ivTmp, output)

/-- `ht_sm4_encrypt`: the answer, what is written to `output`, and `*olen`. -/
def htSm4Encrypt (key : Digits 16) (inIv : Option (Digits 16)) (mode : UInt32) (input : Bytes) :
    Option (ℤ × Bytes × UInt32) :=
  let ctx := ctxOf key
  let olen := (UInt32.ofNat input.length / 16 + 1) * 16
  let iv := inIv.getD (Digits.zero 16)
  if fmAlgmodeEcb = mode then
    (encryptLoop (ecbEncOne ctx) input.length () input).bind fun r =>
      (htSm4EcbEncrypt ctx 16 (padding r.2.2)).map fun last => (0, r.2.1 ++ last, olen)
  else if fmAlgmodeCbc = mode then
    (encryptLoop (cbcEncOne ctx) input.length iv input).bind fun r =>
      (htSm4CbcEncrypt ctx 16 r.1 (padding r.2.2)).map fun last => (0, r.2.1 ++ last, olen)
  else some (0, [], olen)

/-- `while (remain > 0)`. -/
def decryptLoop {σ : Type} (one : σ → Bytes → Option (σ × Bytes)) : ℕ → ℤ → σ → Bytes → Option Bytes
  | 0, _, _, _ => some []
  | fuel + 1, remain, s, input =>
      if remain > 0 then
        (one s input).bind fun r => (decryptLoop one fuel (remain - 16) r.1 (input.drop 16)).map (r.2 ++ ·)
      else some []

/-- One block back from ECB mode. -/
def ecbDecOne (ctx : Sm4Ctx) (s : Unit) (input : Bytes) : Option (Unit × Bytes) :=
  (htSm4EcbDecrypt ctx 16 input).map fun output => (s, output)

/-- One block back from CBC mode, and the input as the next `iv_tmp`. -/
def cbcDecOne (ctx : Sm4Ctx) (ivTmp : Digits 16) (input : Bytes) : Option (Digits 16 × Bytes) :=
  (readBlock input).bind fun temp => (htSm4CbcDecrypt ctx 16 ivTmp input).map fun output => (temp, output)

/-- `ht_sm4_decrypt`: the answer, what is written to `output`, and `*olen`; `none` also where nothing is written and
the byte in front of the output is read. -/
def htSm4Decrypt (key : Digits 16) (inIv : Option (Digits 16)) (mode : UInt32) (input : Bytes) :
    Option (ℤ × Bytes × UInt32) :=
  let ctx := ctxOf key
  let remain := int32 input.length
  let iv := inIv.getD (Digits.zero 16)
  let output :=
    if fmAlgmodeEcb = mode then decryptLoop (ecbDecOne ctx) input.length remain () input
    else if fmAlgmodeCbc = mode then decryptLoop (cbcDecOne ctx) input.length remain iv input
    else some []
  output.bind fun output =>
    output.getLast?.map fun pad => (0, output, UInt32.ofNat input.length - pad.toUInt32)

/-! ### Blocks -/

/-- Blocks one behind the other. -/
def flat (bs : List (Digits 16)) : Bytes := bs.flatMap Digits.bytes

theorem flat_cons (b : Digits 16) (bs : List (Digits 16)) : flat (b :: bs) = b.bytes ++ flat bs := List.flatMap_cons

theorem flat_append (bs cs : List (Digits 16)) : flat (bs ++ cs) = flat bs ++ flat cs := List.flatMap_append

theorem length_flat (bs : List (Digits 16)) : (flat bs).length = 16 * bs.length := by
  induction bs with
  | nil => rfl
  | cons b bs ih => rw [flat_cons, List.length_append, b.length_eq, ih, List.length_cons]; omega

/-- Bytes that fill blocks are blocks. -/
theorem exists_flat {b : Bytes} {n : ℕ} (h : b.length = 16 * n) : ∃ bs, b = flat bs ∧ bs.length = n := by
  induction n generalizing b with
  | zero => exact ⟨[], List.length_eq_zero_iff.mp h, rfl⟩
  | succ n ih =>
      obtain ⟨bs, hbs, hlen⟩ := ih (b := b.drop 16) (by rw [List.length_drop]; omega)
      refine ⟨⟨b.take 16, by rw [List.length_take]; omega⟩ :: bs, ?_, by rw [List.length_cons, hlen]⟩
      rw [flat_cons, ← hbs]
      exact (List.take_append_drop 16 b).symm

@[simp] theorem readBlock_append (b : Digits 16) (c : Bytes) : readBlock (b.bytes ++ c) = some b := by
  have htake : (b.bytes ++ c).take 16 = b.bytes := List.take_left' b.length_eq
  rw [readBlock, dif_pos (by rw [htake]; exact b.length_eq)]
  cases b
  exact congrArg some ((Digits.mk.injEq ..).mpr htake)

@[simp] theorem drop_block (b : Digits 16) (c : Bytes) : (b.bytes ++ c).drop 16 = c := List.drop_left' b.length_eq

variable {σ : Type} {step : σ → Digits 16 → σ × Digits 16}

/-- **The loop of a mode** runs the blocks through its step. -/
theorem modeLoop_flat {fuel : ℕ} (s : σ) (bs : List (Digits 16)) (c : Bytes) (hfuel : bs.length ≤ fuel) :
    modeLoop step fuel (16 * bs.length : ℕ) s (flat bs ++ c) = some (flat (through step s bs)) := by
  induction bs generalizing s fuel with
  | nil =>
      cases fuel with
      | zero => rfl
      | succ fuel => rw [modeLoop, if_neg (by simp)]; rfl
  | cons b bs ih =>
      cases fuel with
      | zero => exact absurd hfuel (by simp)
      | succ fuel =>
          have hrest := ih (step s b).1 (show bs.length ≤ fuel by simpa using hfuel)
          rw [modeLoop, if_pos (by rw [List.length_cons]; omega), flat_cons, List.append_assoc, readBlock_append,
            Option.bind_some, drop_block,
            show ((16 * (b :: bs).length : ℕ) : ℤ) - 16 = (16 * bs.length : ℕ) by rw [List.length_cons]; omega, hrest,
            Option.map_some, through, flat_cons]

/-- The loop for one block. -/
theorem modeLoop_one (s : σ) (b : Digits 16) (c : Bytes) :
    modeLoop step 16 16 s (b.bytes ++ c) = some (step s b).2.bytes := by
  have hone : modeLoop step 16 (16 * [b].length : ℕ) s (flat [b] ++ c) = some (flat (through step s [b])) :=
    modeLoop_flat s [b] c (show 1 ≤ 16 by decide)
  rw [flat_cons, flat, List.flatMap_nil, List.append_nil] at hone
  rw [← List.append_nil (step s b).2.bytes]
  exact hone

/-- **The loop over full blocks** of `ht_sm4_encrypt`, which stops at what fills no block. -/
theorem encryptLoop_flat {one : σ → Bytes → Option (σ × Bytes)}
    (hone : ∀ s b c, one s (b.bytes ++ c) = some ((step s b).1, (step s b).2.bytes)) {fuel : ℕ} (s : σ)
    (bs : List (Digits 16)) {t : Bytes} (ht : t.length < 16) (hfuel : bs.length ≤ fuel) :
    encryptLoop one fuel s (flat bs ++ t) = some (chained step s bs, flat (through step s bs), t) := by
  induction bs generalizing s fuel with
  | nil =>
      cases fuel with
      | zero => rfl
      | succ fuel => rw [encryptLoop, if_neg (show ¬ (flat [] ++ t).length ≥ 16 from not_le.mpr ht)]; rfl
  | cons b bs ih =>
      cases fuel with
      | zero => exact absurd hfuel (by simp)
      | succ fuel =>
          have hrest := ih (step s b).1 (show bs.length ≤ fuel by simpa using hfuel)
          have hblock : (flat (b :: bs) ++ t).length ≥ 16 := by
            rw [List.length_append, length_flat, List.length_cons]
            omega
          rw [encryptLoop, if_pos hblock, flat_cons, List.append_assoc, hone, Option.bind_some, drop_block, hrest,
            Option.map_some, through, flat_cons, chained]

/-- **The loop of `ht_sm4_decrypt`.** -/
theorem decryptLoop_flat {one : σ → Bytes → Option (σ × Bytes)}
    (hone : ∀ s b c, one s (b.bytes ++ c) = some ((step s b).1, (step s b).2.bytes)) {fuel : ℕ} (s : σ)
    (bs : List (Digits 16)) (hfuel : bs.length ≤ fuel) :
    decryptLoop one fuel (16 * bs.length : ℕ) s (flat bs) = some (flat (through step s bs)) := by
  induction bs generalizing s fuel with
  | nil =>
      cases fuel with
      | zero => rfl
      | succ fuel => rw [decryptLoop, if_neg (by simp)]; rfl
  | cons b bs ih =>
      cases fuel with
      | zero => exact absurd hfuel (by simp)
      | succ fuel =>
          have hrest := ih (step s b).1 (show bs.length ≤ fuel by simpa using hfuel)
          rw [decryptLoop, if_pos (by rw [List.length_cons]; omega), flat_cons, hone, Option.bind_some, drop_block,
            show ((16 * (b :: bs).length : ℕ) : ℤ) - 16 = (16 * bs.length : ℕ) by rw [List.length_cons]; omega, hrest,
            Option.map_some, through, flat_cons]

/-! ### One call for all blocks -/

/-- What the padding adds. -/
def pads (m : Bytes) : Bytes := List.replicate (16 - m.length % 16) (UInt8.ofNat (16 - m.length % 16))

/-- A message is full blocks and less than a block, which its padding makes a block. -/
theorem exists_blocks (m : Bytes) : ∃ (bs : List (Digits 16)) (t : Bytes) (last : Digits 16), m = flat bs ++ t ∧
    t.length < 16 ∧ bs.length = m.length / 16 ∧ padding t = last.bytes ∧ last.bytes = t ++ pads m := by
  have hmod : m.length / 16 * 16 + m.length % 16 = m.length := Nat.div_add_mod' m.length 16
  have hlt : m.length % 16 < 16 := Nat.mod_lt _ (by decide)
  obtain ⟨bs, hbs, hlen⟩ := exists_flat (b := m.take (m.length / 16 * 16)) (n := m.length / 16)
    (by rw [List.length_take]; omega)
  have ht : (m.drop (m.length / 16 * 16)).length = m.length % 16 := by rw [List.length_drop]; omega
  have hpad : padding (m.drop (m.length / 16 * 16)) = m.drop (m.length / 16 * 16) ++ pads m := by
    rw [padding, pads, ht]
    rcases eq_or_ne (m.length % 16) 0 with h0 | hne
    · rw [if_pos h0, List.length_eq_zero_iff.mp (ht.trans h0), h0]
      rfl
    · rw [if_neg hne]
  have hfull : (padding (m.drop (m.length / 16 * 16))).length = 16 := by
    rw [hpad, List.length_append, ht, pads, List.length_replicate]
    omega
  refine ⟨bs, m.drop (m.length / 16 * 16), ⟨_, hfull⟩, ?_, by rw [ht]; exact hlt, hlen, rfl, hpad⟩
  rw [← hbs, List.take_append_drop]

theorem ecbEncOne_append (ctx : Sm4Ctx) (s : Unit) (b : Digits 16) (c : Bytes) :
    ecbEncOne ctx s (b.bytes ++ c) = some ((ecbStep ctx.skEnc s b).1, (ecbStep ctx.skEnc s b).2.bytes) := by
  rw [ecbEncOne, htSm4EcbEncrypt, show (16 : ℤ).toNat = 16 from rfl, modeLoop_one]
  rfl

theorem cbcEncOne_append (ctx : Sm4Ctx) (ivTmp b : Digits 16) (c : Bytes) :
    cbcEncOne ctx ivTmp (b.bytes ++ c) =
      some ((cbcEncStep ctx.skEnc ivTmp b).1, (cbcEncStep ctx.skEnc ivTmp b).2.bytes) := by
  have hread := readBlock_append (cbcEncStep ctx.skEnc ivTmp b).2 []
  rw [List.append_nil] at hread
  rw [cbcEncOne, htSm4CbcEncrypt, show (16 : ℤ).toNat = 16 from rfl, modeLoop_one, Option.bind_some, hread]
  rfl

theorem ecbDecOne_append (ctx : Sm4Ctx) (s : Unit) (b : Digits 16) (c : Bytes) :
    ecbDecOne ctx s (b.bytes ++ c) = some ((ecbStep ctx.skDec s b).1, (ecbStep ctx.skDec s b).2.bytes) := by
  rw [ecbDecOne, htSm4EcbDecrypt, show (16 : ℤ).toNat = 16 from rfl, modeLoop_one]
  rfl

theorem cbcDecOne_append (ctx : Sm4Ctx) (ivTmp b : Digits 16) (c : Bytes) :
    cbcDecOne ctx ivTmp (b.bytes ++ c) =
      some ((cbcDecStep ctx.skDec ivTmp b).1, (cbcDecStep ctx.skDec ivTmp b).2.bytes) := by
  rw [cbcDecOne, readBlock_append, Option.bind_some, htSm4CbcDecrypt, show (16 : ℤ).toNat = 16 from rfl, modeLoop_one]
  rfl

/-- The `*olen` of `ht_sm4_encrypt`. -/
def olenOf (m : Bytes) : UInt32 := (UInt32.ofNat m.length / 16 + 1) * 16

/-- **`ht_sm4_encrypt` runs the padded message through its mode.** -/
theorem htSm4Encrypt_flat (key : Digits 16) (inIv : Option (Digits 16)) (m : Bytes) :
    ∃ bs, flat bs = m ++ pads m ∧ bs.length = m.length / 16 + 1 ∧
      htSm4Encrypt key inIv fmAlgmodeEcb m = some (0, flat (through (ecbStep (ctxOf key).skEnc) () bs), olenOf m) ∧
      htSm4Encrypt key inIv fmAlgmodeCbc m =
        some (0, flat (through (cbcEncStep (ctxOf key).skEnc) (inIv.getD (Digits.zero 16)) bs), olenOf m) := by
  obtain ⟨bs, t, last, rfl, ht, hlen, hpad, hlast⟩ := exists_blocks m
  have hfuel : bs.length ≤ (flat bs ++ t).length := by rw [List.length_append, length_flat]; omega
  refine ⟨bs ++ [last], ?_, by rw [List.length_append, hlen]; rfl, ?_, ?_⟩
  · rw [flat_append, flat_cons, hlast, List.append_assoc, List.append_assoc]
    simp only [flat, List.flatMap_nil, List.append_nil]
  · have hblock := @modeLoop_one _ (ecbStep (ctxOf key).skEnc) () last []
    rw [List.append_nil] at hblock
    rw [htSm4Encrypt, if_pos rfl, encryptLoop_flat (ecbEncOne_append _) _ _ ht hfuel, Option.bind_some, hpad,
      htSm4EcbEncrypt, show (16 : ℤ).toNat = 16 from rfl, hblock, Option.map_some, through_append, flat_append,
      through, through, flat_cons]
    simp only [flat, List.flatMap_nil, List.append_nil]
    rfl
  · have hblock := @modeLoop_one _ (cbcEncStep (ctxOf key).skEnc)
      (chained (cbcEncStep (ctxOf key).skEnc) (inIv.getD (Digits.zero 16)) bs) last []
    rw [List.append_nil] at hblock
    rw [htSm4Encrypt, if_neg (by decide), if_pos rfl, encryptLoop_flat (cbcEncOne_append _) _ _ ht hfuel,
      Option.bind_some, hpad, htSm4CbcEncrypt, show (16 : ℤ).toNat = 16 from rfl, hblock, Option.map_some,
      through_append, flat_append, through, through, flat_cons]
    simp only [flat, List.flatMap_nil, List.append_nil]
    rfl

/-- **`ht_sm4_decrypt` runs the blocks through its mode** and takes the last byte for the length of the padding. -/
theorem htSm4Decrypt_flat (key : Digits 16) (inIv : Option (Digits 16)) {cs : List (Digits 16)}
    (hfit : 16 * cs.length < 2 ^ 31) :
    htSm4Decrypt key inIv fmAlgmodeEcb (flat cs) =
        (flat (through (ecbStep (ctxOf key).skDec) () cs)).getLast?.map (fun pad =>
          (0, flat (through (ecbStep (ctxOf key).skDec) () cs), UInt32.ofNat (flat cs).length - pad.toUInt32)) ∧
      htSm4Decrypt key inIv fmAlgmodeCbc (flat cs) =
        (flat (through (cbcDecStep (ctxOf key).skDec) (inIv.getD (Digits.zero 16)) cs)).getLast?.map (fun pad =>
          (0, flat (through (cbcDecStep (ctxOf key).skDec) (inIv.getD (Digits.zero 16)) cs),
            UInt32.ofNat (flat cs).length - pad.toUInt32)) := by
  have hremain : int32 (flat cs).length = (16 * cs.length : ℕ) := by
    rw [length_flat, int32_eq (by omega) (by omega)]
  have hfuel : cs.length ≤ (flat cs).length := by rw [length_flat]; omega
  constructor
  · rw [htSm4Decrypt, hremain, if_pos rfl, decryptLoop_flat (ecbDecOne_append _) _ _ hfuel, Option.bind_some]
  · rw [htSm4Decrypt, hremain, if_neg (by decide), if_pos rfl, decryptLoop_flat (cbcDecOne_append _) _ _ hfuel,
      Option.bind_some]

/-- **Block by block is all at once**: `ht_sm4_encrypt` answers what one call of the function of the mode writes for
the padded message. -/
theorem htSm4Encrypt_eq (key : Digits 16) (inIv : Option (Digits 16)) (m : Bytes) :
    htSm4Encrypt key inIv fmAlgmodeEcb m =
        (htSm4EcbEncrypt (ctxOf key) (m ++ pads m).length (m ++ pads m)).map (fun out => (0, out, olenOf m)) ∧
      htSm4Encrypt key inIv fmAlgmodeCbc m =
        (htSm4CbcEncrypt (ctxOf key) (m ++ pads m).length (inIv.getD (Digits.zero 16)) (m ++ pads m)).map
          (fun out => (0, out, olenOf m)) := by
  obtain ⟨bs, hbs, -, hecb, hcbc⟩ := htSm4Encrypt_flat key inIv m
  have hone {σ : Type} {step : σ → Digits 16 → σ × Digits 16} (s : σ) :
      modeLoop step (flat bs).length (flat bs).length s (flat bs) = some (flat (through step s bs)) := by
    have hloop := @modeLoop_flat _ step (16 * bs.length) s bs [] (by omega)
    rwa [List.append_nil, ← length_flat] at hloop
  rw [hecb, hcbc, ← hbs, htSm4EcbEncrypt, htSm4CbcEncrypt, Int.toNat_natCast, hone, hone]
  exact ⟨rfl, rfl⟩

/-- **And so it is back**, for blocks that `int remain` counts. -/
theorem htSm4Decrypt_eq (key : Digits 16) (inIv : Option (Digits 16)) {c : Bytes} (hblocks : 16 ∣ c.length)
    (hfit : c.length < 2 ^ 31) :
    htSm4Decrypt key inIv fmAlgmodeEcb c =
        (htSm4EcbDecrypt (ctxOf key) c.length c).bind (fun out =>
          out.getLast?.map fun pad => (0, out, UInt32.ofNat c.length - pad.toUInt32)) ∧
      htSm4Decrypt key inIv fmAlgmodeCbc c =
        (htSm4CbcDecrypt (ctxOf key) c.length (inIv.getD (Digits.zero 16)) c).bind (fun out =>
          out.getLast?.map fun pad => (0, out, UInt32.ofNat c.length - pad.toUInt32)) := by
  obtain ⟨n, hn⟩ := hblocks
  obtain ⟨cs, rfl, -⟩ := exists_flat hn
  have hremain : 16 * cs.length < 2 ^ 31 := by rwa [length_flat] at hfit
  obtain ⟨hecb, hcbc⟩ := htSm4Decrypt_flat key inIv hremain
  have hone {σ : Type} {step : σ → Digits 16 → σ × Digits 16} (s : σ) :
      modeLoop step (flat cs).length (flat cs).length s (flat cs) = some (flat (through step s cs)) := by
    have hloop := @modeLoop_flat _ step (16 * cs.length) s cs [] (by omega)
    rwa [List.append_nil, ← length_flat] at hloop
  rw [hecb, hcbc, htSm4EcbDecrypt, htSm4CbcDecrypt, Int.toNat_natCast, hone, hone]
  exact ⟨rfl, rfl⟩

/-- A block of zeros. -/
theorem htSm4Decrypt_eq_zeros :
    htSm4Decrypt (Digits.zero 16) none fmAlgmodeEcb (List.replicate 16 0) =
        (htSm4EcbDecrypt (ctxOf (Digits.zero 16)) (List.replicate 16 (0 : UInt8)).length (List.replicate 16 0)).bind
          (fun out => out.getLast?.map fun pad =>
            (0, out, UInt32.ofNat (List.replicate 16 (0 : UInt8)).length - pad.toUInt32)) ∧
      htSm4Decrypt (Digits.zero 16) none fmAlgmodeCbc (List.replicate 16 0) =
        (htSm4CbcDecrypt (ctxOf (Digits.zero 16)) (List.replicate 16 (0 : UInt8)).length (Digits.zero 16)
          (List.replicate 16 0)).bind
          (fun out => out.getLast?.map fun pad =>
            (0, out, UInt32.ofNat (List.replicate 16 (0 : UInt8)).length - pad.toUInt32)) :=
  htSm4Decrypt_eq (Digits.zero 16) none (c := List.replicate 16 0) ⟨1, rfl⟩ (by decide)

/-! ### The round trip -/

theorem ecbStep_back (key : Digits 16) (s : Unit) (b : Digits 16) :
    ecbStep (ctxOf key).skDec s (ecbStep (ctxOf key).skEnc s b).2 = ((ecbStep (ctxOf key).skEnc s b).1, b) := by
  rw [ecbStep, ecbStep, skDec_ctxOf, sm4OneRound_reverse (ctxOf key).encLength]

theorem xorBlock_xorBlock (b v : Digits 16) : xorBlock (xorBlock b v) v = b := by
  have hbytes := @zipWith_zipWith _ (· ^^^ ·)
    (fun a b => by rw [UInt8.xor_assoc, UInt8.xor_self, UInt8.xor_zero]) b.bytes v.bytes
    (b.length_eq.trans v.length_eq.symm)
  cases b
  exact (Digits.mk.injEq ..).mpr hbytes

theorem cbcStep_back (key : Digits 16) (v b : Digits 16) :
    cbcDecStep (ctxOf key).skDec v (cbcEncStep (ctxOf key).skEnc v b).2 = ((cbcEncStep (ctxOf key).skEnc v b).1, b) := by
  rw [cbcDecStep, cbcEncStep, skDec_ctxOf, sm4OneRound_reverse (ctxOf key).encLength, xorBlock_xorBlock]

/-- The last byte of a padded message is what the padding adds to its length. -/
theorem getLast?_pads (m : Bytes) : (m ++ pads m).getLast? = some (UInt8.ofNat (16 - m.length % 16)) := by
  have hlt : m.length % 16 < 16 := Nat.mod_lt _ (by decide)
  obtain ⟨k, hk⟩ : ∃ k, 16 - m.length % 16 = k + 1 := ⟨15 - m.length % 16, by omega⟩
  rw [pads, hk, List.replicate_succ', ← List.append_assoc, List.getLast?_concat]

theorem olen_pads (m : Bytes) :
    UInt32.ofNat (16 * (m.length / 16 + 1)) - (UInt8.ofNat (16 - m.length % 16)).toUInt32 =
      UInt32.ofNat m.length := by
  have hmod := Nat.div_add_mod m.length 16
  have hlt : m.length % 16 < 16 := Nat.mod_lt _ (by decide)
  rw [← UInt32.toNat_inj, UInt32.toNat_sub, UInt32.toNat_ofNat', UInt32.toNat_ofNat', UInt8.toNat_toUInt32,
    UInt8.toNat_ofNat']
  omega

/-- **What is encrypted is decrypted**: the bytes written begin with the message, and `*olen` is its length. -/
theorem htSm4Decrypt_of_htSm4Encrypt (key : Digits 16) (inIv : Option (Digits 16)) {mode : UInt32}
    (hmode : mode = fmAlgmodeEcb ∨ mode = fmAlgmodeCbc) (m : Bytes) (hfit : (m.length / 16 + 1) * 16 < 2 ^ 31) :
    ∃ c out, htSm4Encrypt key inIv mode m = some (0, c, UInt32.ofNat c.length) ∧
      c.length = (m.length / 16 + 1) * 16 ∧
      htSm4Decrypt key inIv mode c = some (0, out, UInt32.ofNat m.length) ∧ out.take m.length = m := by
  obtain ⟨bs, hbs, hlen, hecb, hcbc⟩ := htSm4Encrypt_flat key inIv m
  have holen : olenOf m = UInt32.ofNat (16 * bs.length) := by
    rw [hlen, olenOf, ← UInt32.toNat_inj]
    simp only [UInt32.toNat_mul, UInt32.toNat_add, UInt32.toNat_div, UInt32.toNat_ofNat',
      show (16 : UInt32).toNat = 16 from rfl, show (1 : UInt32).toNat = 1 from rfl]
    omega
  have htake : (flat bs).take m.length = m := by rw [hbs]; exact List.take_left
  have hlast : (flat bs).getLast? = some (UInt8.ofNat (16 - m.length % 16)) := by rw [hbs, getLast?_pads]
  rcases hmode with rfl | rfl
  · have hremain : 16 * (through (ecbStep (ctxOf key).skEnc) () bs).length < 2 ^ 31 := by
      rw [length_through, hlen]
      omega
    have hdec := (htSm4Decrypt_flat key inIv hremain).1
    rw [through_through (ecbStep_back key), hlast, length_flat, length_through, Option.map_some, hlen,
      olen_pads m] at hdec
    refine ⟨_, _, by rw [hecb, holen, length_flat, length_through], ?_, hdec, htake⟩
    rw [length_flat, length_through, hlen, Nat.mul_comm]
  · have hremain : 16 * (through (cbcEncStep (ctxOf key).skEnc) (inIv.getD (Digits.zero 16)) bs).length < 2 ^ 31 := by
      rw [length_through, hlen]
      omega
    have hdec := (htSm4Decrypt_flat key inIv hremain).2
    rw [through_through (cbcStep_back key), hlast, length_flat, length_through, Option.map_some, hlen,
      olen_pads m] at hdec
    refine ⟨_, _, by rw [hcbc, holen, length_flat, length_through], ?_, hdec, htake⟩
    rw [length_flat, length_through, hlen, Nat.mul_comm]

/-- An empty message under a key of zeros. -/
theorem htSm4Decrypt_of_htSm4Encrypt_nil :
    ∃ c out, htSm4Encrypt (Digits.zero 16) none fmAlgmodeCbc [] = some (0, c, UInt32.ofNat c.length) ∧
      c.length = (0 / 16 + 1) * 16 ∧
      htSm4Decrypt (Digits.zero 16) none fmAlgmodeCbc c = some (0, out, UInt32.ofNat 0) ∧ out.take 0 = [] :=
  htSm4Decrypt_of_htSm4Encrypt (Digits.zero 16) none (Or.inr rfl) [] (by decide)

end Httcutils
end TsbAgent
