/-
# The emulated flash

`proxy/src/flash.c` keeps the flash in the file `/opt/httc_flash`, in six zones.

| zone | from | bytes | writeable | overlaps |
| --- | --- | --- | --- | --- |
| `FLASH_REGIN_CPU_FIRMWARE` | `0x0` | `0x280000` | no | `UPDATE` |
| `FLASH_REGIN_TPCM_DATA` | `0x400000` | `0x2B00000` | yes | |
| `FLASH_REGIN_BOOT_CODE` | `0x280000` | `0x180000` | no | `TPCM`, `UPDATE` |
| `FLASH_REGIN_BOOT_CONFIG` | `0x3000000` | `0x100000` | yes | |
| `FLASH_REGIN_TPCM` | `0x280000` | `0x180000` | yes | `BOOT_CODE`, `UPDATE` |
| `FLASH_REGIN_UPDATE` | `0x0` | `0x400000` | yes | the other three |

A write can only clear bits, and an erase sets them all.  `behaves_iff` says that every call of a
run stays in its zone, and that what it reads is what was written since the last erase, exactly
where the range test is right: it reads the table before it looks at the zone number, and adds two
`int`s.
-/

import TsbAgent.Lib.Word
import Mathlib.Algebra.Order.Ring.Nat
import Mathlib.Data.List.GetD

namespace TsbAgent
namespace Proxy
namespace Flash

open Libc Word

/-- `struct flash_size`. -/
structure FlashSize where
  offset : ℕ
  length : ℕ
  writeable : Bool
deriving DecidableEq

/-- `flash_num`, in the order of the zone numbers. -/
def flashNum : List FlashSize :=
  [⟨0x0, 0x280000, false⟩, ⟨0x400000, 0x2B00000, true⟩, ⟨0x280000, 0x180000, false⟩,
    ⟨0x3000000, 0x100000, true⟩, ⟨0x280000, 0x180000, true⟩, ⟨0x0, 0x400000, true⟩]

/-- `FLASH_AREA`. -/
def flashArea : ℕ := 0x3100000

/-- The file: its size, and its bytes. -/
structure Image where
  size : ℕ
  byte : ℕ → UInt8

/-- The file as `flash_init` leaves it. -/
def fresh : Image := ⟨flashArea, fun _ => 0xFF⟩

/-- What a call is granted: memory, the file, and how many bytes are read and written at most. -/
structure Io where
  malloc : Bool
  opens : Bool
  read : ℕ
  write : ℕ

/-- A `read` or `write` of the file: where, and how many bytes it moved. -/
structure Access where
  pos : ℕ
  length : ℕ
deriving DecidableEq

/-- What a call leaves: whether it returned 0, the caller's buffer, the file, and how it was
accessed. -/
structure Effect where
  ok : Bool
  buffer : Bytes
  image : Image
  accesses : List Access

/-- `lseek` to a negative offset fails, and the position stays. -/
def lseek (pos : ℕ) (target : ℤ) : ℕ := if target < 0 then pos else target.toNat

/-- The bytes that `read` gives. -/
def Image.read (d : Image) (io : Io) (pos length : ℕ) : Bytes :=
  if io.opens then (List.range (min (min io.read length) (d.size - pos))).map fun i => d.byte (pos + i) else []

/-- How many of `length` bytes `write` takes. -/
def Io.taken (io : Io) (length : ℕ) : ℕ := if io.opens then min io.write length else 0

/-- The file with these bytes from `pos` on; what is left out behind its end is zero. -/
def Image.put (d : Image) (pos : ℕ) (bytes : Bytes) : Image :=
  if bytes = [] then d
  else {
    size := max d.size (pos + bytes.length)
    byte := fun i =>
      if pos ≤ i ∧ i < pos + bytes.length then bytes.getD (i - pos) 0
      else if d.size ≤ i ∧ i < pos then 0 else d.byte i }

/-- How the range test ends. -/
inductive Tested
  /-- The table is read outside. -/
  | fault
  | rejected
  | accepted (z : FlashSize)

/-- The entry of a zone. -/
def zoneOf (zone : ℤ) : Option FlashSize := if 0 ≤ zone then flashNum[zone.toNat]? else none

/-- The range test, which starts with the table. -/
def rangeTest (zone offset length : ℤ) : Tested :=
  match zoneOf zone with
  | none => .fault
  | some z =>
      if int32 (offset + length) > z.length ∨ zone < 0 ∨ zone > 5 ∨ offset < 0 ∨ length ≤ 0 then .rejected
      else .accepted z

/-- `tpcm_sys_flash_read`; no result is an access outside the table. -/
def tpcmSysFlashRead (io : Io) (d : Image) (zone : ℤ) (buffer : Bytes) (offset length : ℤ) : Option Effect :=
  match rangeTest zone offset length with
  | .fault => none
  | .rejected => some ⟨false, buffer, d, []⟩
  | .accepted z =>
      let pos := lseek 0 (int32 (z.offset + offset))
      let data := d.read io pos length.toNat
      some ⟨data.length = length.toNat, data ++ buffer.drop data.length, d, [⟨pos, data.length⟩]⟩

/-- `tpcm_sys_flash_write`: the caller's buffer is and-ed with what is there. -/
def tpcmSysFlashWrite (io : Io) (d : Image) (zone : ℤ) (buffer : Bytes) (offset length : ℤ) : Option Effect :=
  match rangeTest zone offset length with
  | .fault => none
  | .rejected => some ⟨false, buffer, d, []⟩
  | .accepted z =>
      if z.writeable = false then some ⟨false, buffer, d, []⟩
      else if io.malloc = false then some ⟨false, buffer, d, []⟩
      else
        let pos := lseek 0 (int32 (z.offset + offset))
        let old := d.read io pos length.toNat
        if old.length ≠ length.toNat then some ⟨false, buffer, d, [⟨pos, old.length⟩]⟩
        else
          let new := List.zipWith (· &&& ·) buffer old
          let pos' := lseek (pos + old.length) (int32 (z.offset + offset))
          let taken := io.taken length.toNat
          some ⟨taken = length.toNat, new, d.put pos' (new.take taken), [⟨pos, old.length⟩, ⟨pos', taken⟩]⟩

/-- `tpcm_sys_flash_erase`, of any zone. -/
def tpcmSysFlashErase (io : Io) (d : Image) (zone offset length : ℤ) : Option Effect :=
  match rangeTest zone offset length with
  | .fault => none
  | .rejected => some ⟨false, [], d, []⟩
  | .accepted z =>
      if io.malloc = false then some ⟨false, [], d, []⟩
      else
        let pos := lseek (lseek 0 0) (int32 (z.offset + offset))
        let taken := io.taken length.toNat
        some ⟨taken = length.toNat, [], d.put pos (List.replicate taken 0xFF), [⟨pos, taken⟩]⟩

/-- What is called, with the caller's buffer. -/
inductive Op
  | read (buffer : Bytes)
  | write (buffer : Bytes)
  | erase

/-- The caller's buffer. -/
def Op.buffer : Op → Bytes
  | read buffer => buffer
  | write buffer => buffer
  | erase => []

/-- A call; a buffer holds as many bytes as it says. -/
structure Call where
  op : Op
  zone : Int32
  offset : Int32
  length : Int32
  io : Io
  length_buffer : op ≠ .erase → op.buffer.length = length.toInt.toNat

def Call.run (c : Call) (d : Image) : Option Effect :=
  match c.op with
  | .read buffer => tpcmSysFlashRead c.io d c.zone.toInt buffer c.offset.toInt c.length.toInt
  | .write buffer => tpcmSysFlashWrite c.io d c.zone.toInt buffer c.offset.toInt c.length.toInt
  | .erase => tpcmSysFlashErase c.io d c.zone.toInt c.offset.toInt c.length.toInt

/-! ### What is claimed -/

/-- Whether it writes the caller's bytes. -/
def Op.writes : Op → Bool
  | read _ => false
  | write _ => true
  | erase => false

/-- A range that lies in the zone. -/
def Call.InZone (c : Call) (z : FlashSize) : Prop :=
  0 ≤ c.offset.toInt ∧ 0 < c.length.toInt ∧ c.offset.toInt + c.length.toInt ≤ z.length

instance (c : Call) (z : FlashSize) : Decidable (c.InZone z) := inferInstanceAs (Decidable (_ ∧ _))

/-- What should be accepted: such a range, of a zone which can be used this way. -/
def Call.FitsIn (c : Call) (z : FlashSize) : Prop := c.InZone z ∧ (c.op.writes = true → z.writeable = true)

instance (c : Call) (z : FlashSize) : Decidable (c.FitsIn z) := inferInstanceAs (Decidable (_ ∧ _))

/-- What happens to a byte. -/
inductive Touch
  | written (v : UInt8)
  | erased

/-- What was written since the last erase. -/
def sinceErase : List Touch → List UInt8 → List UInt8
  | [], vs => vs
  | .written v :: ts, vs => sinceErase ts (vs ++ [v])
  | .erased :: ts, _ => sinceErase ts []

/-- **The byte:** `0xFF` and-ed with all of it. -/
def held (ts : List Touch) : UInt8 := (sinceErase ts []).foldl (· &&& ·) 0xFF

/-- How many bytes a call that is accepted writes: a write has read them all before. -/
def Call.moved (c : Call) : ℕ :=
  match c.op with
  | .read _ => 0
  | .write _ =>
      if c.io.malloc ∧ c.io.opens ∧ c.length.toInt.toNat ≤ c.io.read then c.io.taken c.length.toInt.toNat else 0
  | .erase => if c.io.malloc then c.io.taken c.length.toInt.toNat else 0

/-- What a call does to the byte `i` of a zone. -/
def Call.touch (c : Call) (zone : ℤ) (i : ℕ) : List Touch :=
  match zoneOf zone with
  | none => []
  | some z =>
      if c.zone.toInt = zone ∧ c.FitsIn z ∧ c.offset.toInt ≤ i ∧ i < c.offset.toInt + c.moved then
        match c.op with
        | .read _ => []
        | .write buffer => [.written (buffer.getD (i - c.offset.toInt.toNat) 0)]
        | .erase => [.erased]
      else []

/-- A zone that overlaps no other. -/
def Alone (zone : ℤ) : Prop :=
  ∀ z, zoneOf zone = some z → ∀ other z', other ≠ zone → zoneOf other = some z' →
    z'.offset + z'.length ≤ z.offset ∨ z.offset + z.length ≤ z'.offset

/-- **The law:** a byte of a zone that overlaps no other is what the calls of the history have made
of it. -/
def Law (h : List Call) (d : Image) : Prop :=
  ∀ zone z, zoneOf zone = some z → Alone zone → ∀ i < z.length,
    d.byte (z.offset + i) = held (h.flatMap (·.touch zone i))

/-- What one call must do after this history. -/
structure Call.Right (c : Call) (h : List Call) (d : Image) (e : Effect) : Prop where
  /-- What should be rejected touches and reads nothing. -/
  rejected : (∀ z, zoneOf c.zone.toInt = some z → ¬ c.FitsIn z) → e = ⟨false, c.op.buffer, d, []⟩
  /-- What is accepted stays in the zone. -/
  inside : ∀ z, zoneOf c.zone.toInt = some z → c.FitsIn z →
    (∀ a ∈ e.accesses, z.offset ≤ a.pos ∧ a.pos + a.length ≤ z.offset + z.length) ∧
      ∀ x, x < z.offset ∨ z.offset + z.length ≤ x → e.image.byte x = d.byte x
  /-- A read gives what the law says. -/
  returned : ∀ buffer, c.op = .read buffer → e.ok = true → Alone c.zone.toInt → ∀ i < c.length.toInt.toNat,
    e.buffer.getD i 0 = held (h.flatMap (·.touch c.zone.toInt (c.offset.toInt.toNat + i)))
  /-- And what should be accepted succeeds when the system grants it. -/
  served : ∀ z, zoneOf c.zone.toInt = some z → c.FitsIn z → c.io.malloc = true → c.io.opens = true →
    c.length.toInt.toNat ≤ c.io.read → c.length.toInt.toNat ≤ c.io.write → e.ok = true

/-- **In every state that a run reaches** the law holds, and every call does what it must. -/
def Behaves : List Call → Image → List Call → Prop
  | h, d, [] => Law h d
  | h, d, c :: cs => Law h d ∧ ∃ e, c.run d = some e ∧ c.Right h d e ∧ Behaves (h ++ [c]) e.image cs

/-! ### The condition -/

/-- The sum of the range test is no `int`. -/
def Call.Overflows (c : Call) : Prop :=
  0 ≤ c.offset.toInt ∧ 0 < c.length.toInt ∧ 2 ^ 31 ≤ c.offset.toInt + c.length.toInt

/-- A call goes on to the file behind the range test. -/
def Call.GoesOn (c : Call) (z : FlashSize) : Prop :=
  match c.op with
  | .read _ => True
  | .write _ => z.writeable = true ∧ c.io.malloc = true
  | .erase => c.io.malloc = true

/-- **The condition:** the zone is in the table, and a sum that is no `int` is that of a call which
something else stops. -/
def Call.Sound (c : Call) : Prop := ∃ z, zoneOf c.zone.toInt = some z ∧ (c.Overflows → ¬ c.GoesOn z)

/-! ### Zones -/

section Zones

variable {zone offset length : ℤ} {z : FlashSize}

theorem zone_facts (hz : zoneOf zone = some z) :
    0 ≤ zone ∧ zone ≤ 5 ∧ z.offset + z.length ≤ flashArea ∧ 0 < z.length := by
  rw [zoneOf] at hz
  split_ifs at hz with hzone
  obtain ⟨hlt, -⟩ := List.getElem?_eq_some_iff.mp hz
  have hall : ∀ z ∈ flashNum, z.offset + z.length ≤ flashArea ∧ 0 < z.length := by decide
  have hlen : flashNum.length = 6 := rfl
  exact ⟨hzone, by omega, hall z (List.mem_of_getElem? hz)⟩

/-- **The range test** passes what lies in the zone, and every sum that is no `int`. -/
theorem Call.rangeTest_cases (c : Call) (hz : zoneOf c.zone.toInt = some z) :
    (c.InZone z ∨ c.Overflows) ∧ rangeTest c.zone.toInt c.offset.toInt c.length.toInt = .accepted z ∨
      ¬ (c.InZone z ∨ c.Overflows) ∧ rangeTest c.zone.toInt c.offset.toInt c.length.toInt = .rejected := by
  obtain ⟨hlow, hhigh, hend, -⟩ := zone_facts hz
  have harea : flashArea = 51380224 := rfl
  have ho := c.offset.toInt_lt
  have hl := c.length.toInt_lt
  rw [rangeTest, hz, Call.InZone, Call.Overflows]
  dsimp only
  generalize c.offset.toInt = offset at *
  generalize c.length.toInt = length at *
  have hsum (h₀ : 0 ≤ offset) (h₁ : 0 < length) :
      int32 (offset + length) > z.length ↔ ¬ (offset + length ≤ z.length ∨ 2 ^ 31 ≤ offset + length) := by
    rw [int32, Int.bmod_def]
    omega
  rcases lt_or_ge offset 0 with h₀ | h₀
  · exact .inr ⟨by omega, if_pos (.inr (.inr (.inr (.inl h₀))))⟩
  rcases lt_or_ge 0 length with h₁ | h₁
  · rcases em (offset + length ≤ z.length ∨ 2 ^ 31 ≤ offset + length) with hin | hout
    · refine .inl ⟨by omega, if_neg ?_⟩
      rw [hsum h₀ h₁]
      omega
    · exact .inr ⟨by omega, if_pos (.inl ((hsum h₀ h₁).mpr hout))⟩
  · exact .inr ⟨by omega, if_pos (.inr (.inr (.inr (.inr h₁))))⟩

/-- Outside the table nothing is tested. -/
theorem run_none {c : Call} {d : Image} (hz : zoneOf c.zone.toInt = none) : c.run d = none := by
  have htest (o l : ℤ) : rangeTest c.zone.toInt o l = .fault := by rw [rangeTest, hz]
  rw [Call.run]
  split
  · rw [tpcmSysFlashRead, htest]
  · rw [tpcmSysFlashWrite, htest]
  · rw [tpcmSysFlashErase, htest]

end Zones

/-! ### Bytes -/

section Bytes

variable {d : Image} {io : Io} {pos n i x : ℕ} {bytes : Bytes} {ts us : List Touch}

/-- One touch. -/
def Touch.apply (v : UInt8) : Touch → UInt8
  | written w => v &&& w
  | erased => 0xFF

/-- **What comes later** is applied to what is there. -/
theorem held_append (ts us : List Touch) : held (ts ++ us) = us.foldl Touch.apply (held ts) := by
  have hsince (vs : List UInt8) : (sinceErase (ts ++ us) vs).foldl (· &&& ·) 0xFF =
      us.foldl Touch.apply ((sinceErase ts vs).foldl (· &&& ·) 0xFF) := by
    induction ts generalizing vs with
    | nil =>
        rw [List.nil_append, sinceErase]
        induction us generalizing vs with
        | nil => rfl
        | cons t us ih =>
            cases t with
            | written v =>
                rw [sinceErase, ih, List.foldl_append, List.foldl_cons]
                rfl
            | erased => rw [sinceErase, ih, List.foldl_cons, List.foldl_nil, Touch.apply]
    | cons t ts ih =>
        cases t with
        | written v => exact ih _
        | erased => exact ih _
  exact hsince []

theorem length_read_le : (d.read io pos n).length ≤ n := by
  rw [Image.read]
  split_ifs
  · rw [List.length_map, List.length_range]
    omega
  · exact Nat.zero_le _

theorem getD_read (hi : i < (d.read io pos n).length) : (d.read io pos n).getD i 0 = d.byte (pos + i) := by
  rw [Image.read] at hi ⊢
  split_ifs at hi ⊢ with ho
  · rw [List.getD_eq_getElem _ _ hi, List.getElem_map, List.getElem_range]
  · exact absurd hi (Nat.not_lt_zero _)

theorem getD_take_zipWith {a b : Bytes} {k : ℕ} (hk : i < k) (ha : i < a.length) (hb : i < b.length) :
    ((List.zipWith (· &&& ·) a b).take k).getD i 0 = b.getD i 0 &&& a.getD i 0 := by
  have hlen : i < ((List.zipWith (· &&& ·) a b).take k).length := by
    rw [List.length_take, List.length_zipWith]
    omega
  rw [List.getD_eq_getElem _ _ hlen, List.getD_eq_getElem _ _ ha, List.getD_eq_getElem _ _ hb, List.getElem_take,
    List.getElem_zipWith, UInt8.and_comm]

/-- All of it is read when it is there and the system gives it. -/
theorem length_read_eq (hend : pos + n ≤ d.size) (hn : 0 < n) :
    (d.read io pos n).length = n ↔ io.opens = true ∧ n ≤ io.read := by
  rw [Image.read]
  split_ifs with ho
  · rw [List.length_map, List.length_range, and_iff_right ho]
    omega
  · exact iff_of_false hn.ne fun hboth => ho hboth.1

theorem byte_put (hpos : pos ≤ d.size) :
    (d.put pos bytes).byte x = if pos ≤ x ∧ x < pos + bytes.length then bytes.getD (x - pos) 0 else d.byte x := by
  have hnohole : ¬ (d.size ≤ x ∧ x < pos) := by omega
  rw [Image.put]
  rcases eq_or_ne bytes [] with rfl | hne
  · rw [if_pos rfl, if_neg]
    rw [List.length_nil]
    omega
  · rw [if_neg hne]
    dsimp only
    rw [if_neg hnohole]

theorem size_put (hend : pos + bytes.length ≤ d.size) : (d.put pos bytes).size = d.size := by
  rw [Image.put]
  split_ifs
  · rfl
  · exact max_eq_left hend

end Bytes

/-! ### One call -/

section Calls

variable {c : Call} {d : Image} {z : FlashSize} {e : Effect} {h cs : List Call}

theorem run_read {buffer : Bytes} (hop : c.op = .read buffer) :
    c.run d = tpcmSysFlashRead c.io d c.zone.toInt buffer c.offset.toInt c.length.toInt := by
  rw [Call.run, hop]

theorem run_write {buffer : Bytes} (hop : c.op = .write buffer) :
    c.run d = tpcmSysFlashWrite c.io d c.zone.toInt buffer c.offset.toInt c.length.toInt := by
  rw [Call.run, hop]

theorem run_erase (hop : c.op = .erase) :
    c.run d = tpcmSysFlashErase c.io d c.zone.toInt c.offset.toInt c.length.toInt := by
  rw [Call.run, hop]

/-- **What should be rejected is,** unless it overflows and goes on. -/
theorem run_rejected (hz : zoneOf c.zone.toInt = some z) (hnot : ¬ c.FitsIn z)
    (hstop : c.Overflows → ¬ c.GoesOn z) :
    c.run d = some ⟨false, c.op.buffer, d, []⟩ := by
  rw [Call.FitsIn] at hnot
  rw [Call.GoesOn] at hstop
  rcases c.rangeTest_cases hz with ⟨hrange, htest⟩ | ⟨-, htest⟩
  · cases hop : c.op with
    | read buffer =>
        rw [hop] at hnot hstop
        rcases hrange with hin | hover
        · exact absurd ⟨hin, fun hwrites => by cases hwrites⟩ hnot
        · exact absurd trivial (hstop hover)
    | write buffer =>
        rw [hop] at hnot hstop
        rw [run_write hop, tpcmSysFlashWrite, htest]
        dsimp only
        cases hwriteable : z.writeable with
        | false => exact if_pos rfl
        | true =>
            cases hmalloc : c.io.malloc with
            | false => rw [if_neg (by decide), if_pos rfl, Op.buffer]
            | true =>
                rcases hrange with hin | hover
                · exact absurd ⟨hin, fun _ => hwriteable⟩ hnot
                · exact absurd ⟨hwriteable, hmalloc⟩ (hstop hover)
    | erase =>
        rw [hop] at hnot hstop
        rw [run_erase hop, tpcmSysFlashErase, htest]
        dsimp only
        split_ifs with hmalloc
        · rfl
        · rw [Bool.not_eq_false] at hmalloc
          rcases hrange with hin | hover
          · exact absurd ⟨hin, fun hwrites => by cases hwrites⟩ hnot
          · exact absurd hmalloc (hstop hover)
  · cases hop : c.op with
    | read buffer => rw [run_read hop, tpcmSysFlashRead, htest, Op.buffer]
    | write buffer => rw [run_write hop, tpcmSysFlashWrite, htest, Op.buffer]
    | erase => rw [run_erase hop, tpcmSysFlashErase, htest, Op.buffer]

/-- **What overflows and goes on** reaches the file. -/
theorem run_overflows (hz : zoneOf c.zone.toInt = some z) (hover : c.Overflows) (hgoes : c.GoesOn z) :
    ∃ e, c.run d = some e ∧ e.accesses ≠ [] := by
  have htest : rangeTest c.zone.toInt c.offset.toInt c.length.toInt = .accepted z := by
    rcases c.rangeTest_cases hz with ⟨-, htest⟩ | ⟨hnot, -⟩
    · exact htest
    · exact absurd (.inr hover) hnot
  rw [Call.GoesOn] at hgoes
  cases hop : c.op with
  | read buffer =>
      rw [run_read hop, tpcmSysFlashRead, htest]
      exact ⟨_, rfl, List.cons_ne_nil _ _⟩
  | write buffer =>
      rw [hop] at hgoes
      rw [run_write hop, tpcmSysFlashWrite, htest]
      dsimp only
      rw [if_neg (by rw [hgoes.1]; exact Bool.noConfusion), if_neg (by rw [hgoes.2]; exact Bool.noConfusion)]
      split_ifs
      · exact ⟨_, rfl, List.cons_ne_nil _ _⟩
      · exact ⟨_, rfl, List.cons_ne_nil _ _⟩
  | erase =>
      rw [hop] at hgoes
      rw [run_erase hop, tpcmSysFlashErase, htest]
      dsimp only
      rw [if_neg (by rw [hgoes]; exact Bool.noConfusion)]
      exact ⟨_, rfl, List.cons_ne_nil _ _⟩

/-- What a call that fits leaves. -/
structure Call.Step (c : Call) (z : FlashSize) (d : Image) (e : Effect) : Prop where
  size : e.image.size = d.size
  accesses : ∀ a ∈ e.accesses, z.offset ≤ a.pos ∧ a.pos + a.length ≤ z.offset + z.length
  outside : ∀ x, x < z.offset ∨ z.offset + z.length ≤ x → e.image.byte x = d.byte x
  byte : ∀ i, e.image.byte (z.offset + i) = (c.touch c.zone.toInt i).foldl Touch.apply (d.byte (z.offset + i))
  returned : ∀ buffer, c.op = .read buffer → e.ok = true → ∀ i < c.length.toInt.toNat,
    e.buffer.getD i 0 = d.byte (z.offset + c.offset.toInt.toNat + i)
  served : c.io.malloc = true → c.io.opens = true → c.length.toInt.toNat ≤ c.io.read →
    c.length.toInt.toNat ≤ c.io.write → e.ok = true

/-- The numbers of a call that fits. -/
theorem fits_facts (hz : zoneOf c.zone.toInt = some z) (hin : c.InZone z) :
    c.offset.toInt = c.offset.toInt.toNat ∧ 0 < c.length.toInt.toNat ∧
      c.offset.toInt.toNat + c.length.toInt.toNat ≤ z.length ∧ z.offset + z.length ≤ flashArea ∧
      ∀ p, lseek p (int32 (z.offset + c.offset.toInt)) = z.offset + c.offset.toInt.toNat := by
  obtain ⟨h₀, h₁, hend⟩ := hin
  obtain ⟨-, -, harea, -⟩ := zone_facts hz
  have hflash : flashArea = 51380224 := rfl
  refine ⟨by omega, by omega, by omega, harea, fun p => ?_⟩
  rw [int32_eq (by omega) (by omega), lseek, if_neg (by omega)]
  omega

theorem touch_out {i : ℕ} (hz : zoneOf c.zone.toInt = some z) (hin : c.InZone z)
    (hout : ¬ (c.offset.toInt.toNat ≤ i ∧ i < c.offset.toInt.toNat + c.moved)) : c.touch c.zone.toInt i = [] := by
  obtain ⟨ho, -⟩ := fits_facts hz hin
  rw [Call.touch, hz]
  refine if_neg fun hall => hout ?_
  omega

theorem touch_in {i : ℕ} (hz : zoneOf c.zone.toInt = some z) (hfit : c.FitsIn z) (hlow : c.offset.toInt.toNat ≤ i)
    (hhigh : i < c.offset.toInt.toNat + c.moved) :
    c.touch c.zone.toInt i = match c.op with
      | .read _ => []
      | .write buffer => [.written (buffer.getD (i - c.offset.toInt.toNat) 0)]
      | .erase => [.erased] := by
  obtain ⟨ho, -⟩ := fits_facts hz hfit.1
  rw [Call.touch, hz]
  exact if_pos ⟨rfl, hfit, by omega, by omega⟩

theorem taken_le (io : Io) (n : ℕ) : io.taken n ≤ n := by
  rw [Io.taken]
  split_ifs
  · exact min_le_right _ _
  · exact Nat.zero_le _

theorem taken_eq {io : Io} {n : ℕ} (ho : io.opens = true) (hn : n ≤ io.write) : io.taken n = n := by
  rw [Io.taken, if_pos ho, min_eq_right hn]

theorem run_of_read {buffer : Bytes} (hop : c.op = .read buffer) (hz : zoneOf c.zone.toInt = some z)
    (hfit : c.FitsIn z) (hd : d.size = flashArea)
    (htest : rangeTest c.zone.toInt c.offset.toInt c.length.toInt = .accepted z) :
    ∃ e, c.run d = some e ∧ c.Step z d e := by
  obtain ⟨ho, hn, hend, harea, hseek⟩ := fits_facts hz hfit.1
  have hle := @length_read_le d c.io (z.offset + c.offset.toInt.toNat) c.length.toInt.toNat
  have hmoved : c.moved = 0 := by rw [Call.moved, hop]
  rw [run_read hop, tpcmSysFlashRead, htest]
  dsimp only
  rw [hseek]
  refine ⟨_, rfl, rfl, fun a ha => ?_, fun _ _ => rfl, fun i => ?_, fun _ _ hok i hi => ?_,
    fun _ hopens hread _ => ?_⟩
  · obtain rfl := List.mem_singleton.mp ha
    dsimp only
    omega
  · rw [touch_out hz hfit.1 (by omega), List.foldl_nil]
  · have hlen := of_decide_eq_true hok
    have hi' := hlen.symm ▸ hi
    rw [List.getD_append _ _ _ _ hi', getD_read hi']
  · exact decide_eq_true ((length_read_eq (by omega) hn).mpr ⟨hopens, hread⟩)

/-- A call that stops before it writes. -/
theorem step_stopped {buffer : Bytes} {accesses : List Access} (hz : zoneOf c.zone.toInt = some z)
    (hin : c.InZone z) (hmoved : c.moved = 0) (hop : ∀ buffer, c.op ≠ .read buffer)
    (hacc : ∀ a ∈ accesses, z.offset ≤ a.pos ∧ a.pos + a.length ≤ z.offset + z.length)
    (hstopped : ¬ (c.io.malloc = true ∧ c.io.opens = true ∧ c.length.toInt.toNat ≤ c.io.read)) :
    c.Step z d ⟨false, buffer, d, accesses⟩ where
  size := rfl
  accesses := hacc
  outside _ _ := rfl
  byte i := by rw [touch_out hz hin (by omega), List.foldl_nil]
  returned buffer h := absurd h (hop buffer)
  served hmalloc hopens hread _ := absurd ⟨hmalloc, hopens, hread⟩ hstopped

/-- A call that writes these bytes. -/
theorem step_put {buffer bytes : Bytes} {accesses : List Access} (hz : zoneOf c.zone.toInt = some z)
    (hfit : c.FitsIn z)
    (hd : d.size = flashArea) (hop : ∀ buffer, c.op ≠ .read buffer) (hlen : bytes.length = c.moved)
    (hmoved : c.moved = c.io.taken c.length.toInt.toNat)
    (hbytes : ∀ i, c.offset.toInt.toNat ≤ i → i < c.offset.toInt.toNat + c.moved →
      bytes.getD (i - c.offset.toInt.toNat) 0 = (c.touch c.zone.toInt i).foldl Touch.apply (d.byte (z.offset + i)))
    (hacc : ∀ a ∈ accesses, z.offset ≤ a.pos ∧ a.pos + a.length ≤ z.offset + z.length) :
    c.Step z d ⟨c.io.taken c.length.toInt.toNat = c.length.toInt.toNat, buffer,
      d.put (z.offset + c.offset.toInt.toNat) bytes, accesses⟩ := by
  obtain ⟨ho, hn, hend, harea, -⟩ := fits_facts hz hfit.1
  have htaken := taken_le c.io c.length.toInt.toNat
  have hbyte (x : ℕ) := @byte_put d (z.offset + c.offset.toInt.toNat) x bytes (by omega)
  rw [hlen] at hbyte
  refine ⟨size_put (by omega), hacc, fun x hx => ?_, fun i => ?_, fun buffer h => absurd h (hop buffer),
    fun _ hopens _ hwrite => decide_eq_true (taken_eq hopens hwrite)⟩
  · rw [hbyte, if_neg (by omega)]
  · rw [hbyte]
    split_ifs with hin
    · rw [Nat.add_sub_add_left]
      exact hbytes i (by omega) (by omega)
    · rw [touch_out hz hfit.1 (by omega), List.foldl_nil]

theorem run_of_erase (hop : c.op = .erase) (hz : zoneOf c.zone.toInt = some z) (hfit : c.FitsIn z)
    (hd : d.size = flashArea) (htest : rangeTest c.zone.toInt c.offset.toInt c.length.toInt = .accepted z) :
    ∃ e, c.run d = some e ∧ c.Step z d e := by
  obtain ⟨ho, hn, hend, harea, hseek⟩ := fits_facts hz hfit.1
  have htaken := taken_le c.io c.length.toInt.toNat
  have hmoved : c.moved = if c.io.malloc then c.io.taken c.length.toInt.toNat else 0 := by rw [Call.moved, hop]
  have hnoread (buffer : Bytes) : c.op ≠ .read buffer := by
    rw [hop]
    exact fun h => by cases h
  rw [run_erase hop, tpcmSysFlashErase, htest]
  dsimp only
  rw [hseek]
  cases hmalloc : c.io.malloc with
  | false =>
      rw [hmalloc] at hmoved
      refine ⟨_, rfl,
        step_stopped hz hfit.1 hmoved hnoread (fun a ha => absurd ha List.not_mem_nil) fun hall => ?_⟩
      exact absurd hall.1 (by rw [hmalloc]; exact Bool.false_ne_true)
  | true =>
      rw [hmalloc, if_pos rfl] at hmoved
      rw [if_neg (Bool.noConfusion)]
      refine ⟨_, rfl, step_put hz hfit hd hnoread (by rw [List.length_replicate, hmoved]) hmoved
        (fun i hlow hhigh => ?_) fun a ha => ?_⟩
      · rw [touch_in hz hfit hlow hhigh, hop, List.getD_replicate _ (by omega)]
        rfl
      · obtain rfl := List.mem_singleton.mp ha
        dsimp only
        omega

theorem run_of_write {buffer : Bytes} (hop : c.op = .write buffer) (hz : zoneOf c.zone.toInt = some z)
    (hfit : c.FitsIn z) (hd : d.size = flashArea)
    (htest : rangeTest c.zone.toInt c.offset.toInt c.length.toInt = .accepted z) :
    ∃ e, c.run d = some e ∧ c.Step z d e := by
  obtain ⟨ho, hn, hend, harea, hseek⟩ := fits_facts hz hfit.1
  have htaken := taken_le c.io c.length.toInt.toNat
  have hmoved : c.moved = if c.io.malloc ∧ c.io.opens ∧ c.length.toInt.toNat ≤ c.io.read then
      c.io.taken c.length.toInt.toNat else 0 := by rw [Call.moved, hop]
  have hnoread (buffer : Bytes) : c.op ≠ .read buffer := by
    rw [hop]
    exact fun h => by cases h
  have hbuffer : buffer.length = c.length.toInt.toNat := by
    have hlength := c.length_buffer
    rw [hop] at hlength
    exact hlength fun h => by cases h
  have hwriteable : z.writeable = true := hfit.2 (by rw [hop, Op.writes])
  have hread := @length_read_eq d c.io (z.offset + c.offset.toInt.toNat) c.length.toInt.toNat (by omega) hn
  have hle := @length_read_le d c.io (z.offset + c.offset.toInt.toNat) c.length.toInt.toNat
  rw [run_write hop, tpcmSysFlashWrite, htest]
  dsimp only
  rw [if_neg (by rw [hwriteable]; exact Bool.noConfusion), hseek, hseek]
  cases hmalloc : c.io.malloc with
  | false =>
      have hstopped : ¬ (c.io.malloc = true ∧ c.io.opens = true ∧ c.length.toInt.toNat ≤ c.io.read) :=
        fun hall => absurd hall.1 (by rw [hmalloc]; exact Bool.false_ne_true)
      rw [if_neg hstopped] at hmoved
      exact ⟨_, rfl, step_stopped hz hfit.1 hmoved hnoread (fun a ha => absurd ha List.not_mem_nil) hstopped⟩
  | true =>
      rw [if_neg Bool.noConfusion]
      split_ifs with hshort
      · have hstopped : ¬ (c.io.malloc = true ∧ c.io.opens = true ∧ c.length.toInt.toNat ≤ c.io.read) :=
          fun hall => hshort (hread.mpr hall.2)
        rw [if_neg hstopped] at hmoved
        refine ⟨_, rfl, step_stopped hz hfit.1 hmoved hnoread (fun a ha => ?_) hstopped⟩
        obtain rfl := List.mem_singleton.mp ha
        dsimp only
        omega
      · rw [not_not] at hshort
        rw [if_pos ⟨hmalloc, hread.mp hshort⟩] at hmoved
        refine ⟨_, rfl, step_put hz hfit hd hnoread ?_ hmoved (fun i hlow hhigh => ?_) fun a ha => ?_⟩
        · rw [List.length_take, List.length_zipWith]
          omega
        · have hold := @getD_read d c.io (z.offset + c.offset.toInt.toNat) c.length.toInt.toNat
            (i - c.offset.toInt.toNat) (by omega)
          have hpos : z.offset + c.offset.toInt.toNat + (i - c.offset.toInt.toNat) = z.offset + i := by omega
          rw [touch_in hz hfit hlow hhigh, hop, List.foldl_cons, List.foldl_nil, Touch.apply, ← hpos, ← hold]
          exact getD_take_zipWith (by omega) (by omega) (by omega)
        · rcases List.mem_cons.mp ha with rfl | ha
          · dsimp only
            omega
          · obtain rfl := List.mem_singleton.mp ha
            dsimp only
            omega

/-- **What fits** is run as it should be. -/
theorem run_fits (hz : zoneOf c.zone.toInt = some z) (hfit : c.FitsIn z) (hd : d.size = flashArea) :
    ∃ e, c.run d = some e ∧ c.Step z d e := by
  have htest : rangeTest c.zone.toInt c.offset.toInt c.length.toInt = .accepted z := by
    rcases c.rangeTest_cases hz with ⟨-, htest⟩ | ⟨hnot, -⟩
    · exact htest
    · exact absurd (.inl hfit.1) hnot
  cases hop : c.op with
  | read buffer => exact run_of_read hop hz hfit hd htest
  | write buffer => exact run_of_write hop hz hfit hd htest
  | erase => exact run_of_erase hop hz hfit hd htest

/-- A call does nothing to the bytes of another zone. -/
theorem touch_other {zone : ℤ} {i : ℕ} (hne : c.zone.toInt ≠ zone) : c.touch zone i = [] := by
  rw [Call.touch]
  cases zoneOf zone with
  | none => rfl
  | some z => exact if_neg fun hall => hne hall.1

/-- What does not fit does nothing. -/
theorem touch_rejected {zone : ℤ} {i : ℕ} (hnot : ∀ z, zoneOf c.zone.toInt = some z → ¬ c.FitsIn z) :
    c.touch zone i = [] := by
  rw [Call.touch]
  cases hz : zoneOf zone with
  | none => rfl
  | some z =>
      refine if_neg fun hall => ?_
      exact hnot z (hall.1 ▸ hz) hall.2.1

/-- **One call keeps the law.** -/
theorem Law.step (hlaw : Law h d) (hz : zoneOf c.zone.toInt = some z) (hstep : c.Step z d e) :
    Law (h ++ [c]) e.image := by
  intro zone z' hz' halone i hi
  rw [List.flatMap_append, held_append, List.flatMap_cons, List.flatMap_nil, List.append_nil,
    ← hlaw zone z' hz' halone i hi]
  rcases eq_or_ne c.zone.toInt zone with rfl | hne
  · obtain rfl := Option.some.inj (hz.symm.trans hz')
    exact hstep.byte i
  · rw [touch_other hne, List.foldl_nil]
    have hapart := halone z' hz' c.zone.toInt z hne hz
    exact hstep.outside _ (by omega)

/-- What overflows does not fit. -/
theorem not_fitsIn_of_overflows (hz : zoneOf c.zone.toInt = some z) (hover : c.Overflows) : ¬ c.FitsIn z := by
  rintro ⟨⟨-, -, hend⟩, -⟩
  obtain ⟨-, -, harea, -⟩ := zone_facts hz
  have hflash : flashArea = 51380224 := rfl
  have hsum := hover.2.2
  omega

/-- **A sound call** does what it must, and keeps the law. -/
theorem run_sound (hlaw : Law h d) (hd : d.size = flashArea) (hc : c.Sound) :
    ∃ e, c.run d = some e ∧ c.Right h d e ∧ Law (h ++ [c]) e.image ∧ e.image.size = flashArea := by
  obtain ⟨z, hz, hstop⟩ := hc
  have honly {z' : FlashSize} (hz' : zoneOf c.zone.toInt = some z') : z' = z := Option.some.inj (hz'.symm.trans hz)
  rcases em (c.FitsIn z) with hfit | hnot
  · obtain ⟨e, hrun, hstep⟩ := run_fits hz hfit hd
    refine ⟨e, hrun, ⟨fun hall => absurd hfit (hall z hz), ?_, ?_, ?_⟩, hlaw.step hz hstep, hstep.size.trans hd⟩
    · intro z' hz' _
      obtain rfl := honly hz'
      exact ⟨hstep.accesses, hstep.outside⟩
    · intro buffer hop hok halone i hi
      obtain ⟨-, -, hend, -⟩ := fits_facts hz hfit.1
      rw [hstep.returned buffer hop hok i hi, Nat.add_assoc]
      exact hlaw _ z hz halone _ (by omega)
    · intro z' hz' _
      obtain rfl := honly hz'
      exact hstep.served
  · have hnone (z' : FlashSize) (hz' : zoneOf c.zone.toInt = some z') : ¬ c.FitsIn z' := honly hz' ▸ hnot
    refine ⟨_, run_rejected hz hnot hstop, ⟨fun _ => rfl, ?_, ?_, ?_⟩, ?_, hd⟩
    · exact fun z' hz' hfit => absurd hfit (hnone z' hz')
    · exact fun _ _ hok => by cases hok
    · exact fun z' hz' hfit => absurd hfit (hnone z' hz')
    · intro zone z' hz' halone i hi
      rw [List.flatMap_append, List.flatMap_cons, List.flatMap_nil, List.append_nil, touch_rejected hnone,
        List.append_nil]
      exact hlaw zone z' hz' halone i hi

/-- **From a state where the law holds** a run behaves exactly when its calls are sound. -/
theorem behaves_iff_of_law (hlaw : Law h d) (hd : d.size = flashArea) : Behaves h d cs ↔ ∀ c ∈ cs, c.Sound := by
  induction cs generalizing h d with
  | nil => exact iff_of_true hlaw fun c hc => absurd hc List.not_mem_nil
  | cons c cs ih =>
      rw [List.forall_mem_cons]
      constructor
      · rintro ⟨-, e, hrun, hright, hrest⟩
        have hsound : c.Sound := by
          cases hz : zoneOf c.zone.toInt with
          | none =>
              rw [run_none hz] at hrun
              cases hrun
          | some z =>
              refine ⟨z, hz, fun hover hgoes => ?_⟩
              obtain ⟨e', hrun', hne⟩ := run_overflows (d := d) hz hover hgoes
              obtain rfl := Option.some.inj (hrun.symm.trans hrun')
              have heq := hright.rejected fun z' hz' => not_fitsIn_of_overflows hz' hover
              exact hne (congrArg Effect.accesses heq)
        obtain ⟨e', hrun', -, hlaw', hd'⟩ := run_sound hlaw hd hsound
        obtain rfl := Option.some.inj (hrun.symm.trans hrun')
        exact ⟨hsound, (ih hlaw' hd').mp hrest⟩
      · rintro ⟨hsound, hrest⟩
        obtain ⟨e, hrun, hright, hlaw', hd'⟩ := run_sound hlaw hd hsound
        exact ⟨hlaw, e, hrun, hright, (ih hlaw' hd').mpr hrest⟩

end Calls

/-- **The emulated flash:** from what `flash_init` leaves, every call of a run stays in its zone, what
should be rejected touches nothing, and what is read was written since the last erase, **exactly
when every call is sound**. -/
theorem behaves_iff (cs : List Call) : Behaves [] fresh cs ↔ ∀ c ∈ cs, c.Sound :=
  behaves_iff_of_law (fun _ _ _ _ _ _ => rfl) rfl

/-- An erase at the last offset of an `int`. -/
def farErase : Call where
  op := .erase
  zone := 1
  offset := 2147483647
  length := 1
  io := ⟨true, true, 1, 1⟩
  length_buffer h := absurd rfl h

/-- It is accepted, and erases the first byte of the firmware of the CPU. -/
theorem far_erase_hits_firmware :
    (farErase.run fresh).map (fun e => (e.ok, e.accesses)) = some (true, [⟨0, 1⟩]) ∧ ¬ Behaves [] fresh [farErase] := by
  have hrun : (farErase.run fresh).map (fun e => (e.ok, e.accesses)) = some (true, [⟨0, 1⟩]) := by decide +kernel
  refine ⟨hrun, ?_⟩
  rintro ⟨-, e, he, hright, -⟩
  have hz : zoneOf farErase.zone.toInt = some ⟨0x400000, 0x2B00000, true⟩ := by decide
  have hnot : ¬ farErase.FitsIn ⟨0x400000, 0x2B00000, true⟩ := fun hfit => absurd hfit.1 (by decide)
  have heq := hright.rejected fun z hz' => by
    obtain rfl := Option.some.inj (hz.symm.trans hz')
    exact hnot
  rw [he, heq] at hrun
  exact absurd hrun (by decide)

end Flash
end Proxy
end TsbAgent
