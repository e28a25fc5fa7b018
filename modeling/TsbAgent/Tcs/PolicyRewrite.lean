/-
# Interrupted rewrites of a policy file

An update of the file protection policy or of the network control policy rewrites the file in
place, with four writes that open and close it each time:

| write | offset | bytes |
| --- | --- | --- |
| `size` | the old file is cut to nothing | 4 |
| `num` | 4 | 4 |
| `data` | 8 | the items, for an addition the old ones |
| `item` | behind `data` | the new items of an addition |

No copy of the old file is kept, and a function that sees a write fail returns.  A write that has
taken its bytes but loses some of them when the file is closed goes unnoticed; the next one
then leaves zeros in their place.  `rewrite_recovers_iff` says for one rewrite which failures the
file survives; the updates are in `TsbAgent.Tcs.InterruptedUpdate`.
-/

import TsbAgent.Tcs.NetworkPolicy

namespace TsbAgent
namespace Tcs
namespace PolicyRewrite

open Libc Word Packed Httcutils
open File (Stream fwriteAt)
open NetworkControl (storedBuffer tcsGetNetworkControlPolicy)

/-! ### The writes -/

/-- The four writes. -/
inductive Write
  | size
  | num
  | data
  | item
deriving DecidableEq

/-- What an update is to write; only an addition has something to write as `item`. -/
structure Rewrite where
  size : ℤ
  num : ℤ
  data : Bytes
  item : Bytes
deriving DecidableEq

namespace Rewrite

variable (r : Rewrite) (w : Write) (s : Stream)

/-- The bytes of a write. -/
def bytes : Write → Bytes
  | .size => intBytes r.size
  | .num => intBytes r.num
  | .data => r.data
  | .item => r.item

/-- The bytes of the writes before it. -/
def before : Write → Bytes
  | .size => []
  | .num => intBytes r.size
  | .data => intBytes r.size ++ intBytes r.num
  | .item => intBytes r.size ++ intBytes r.num ++ r.data

/-- The bytes of the writes after it. -/
def behind : Write → Bytes
  | .size => intBytes r.num ++ (r.data ++ r.item)
  | .num => r.data ++ r.item
  | .data => r.item
  | .item => []

/-- The file as it is to become. -/
def whole : Bytes := intBytes r.size ++ (intBytes r.num ++ (r.data ++ r.item))

/-- The writes, for the file. -/
def write (io : ProtectIo) (file : Option Bytes) : Option Bytes :=
  match writeProtected io file r.size r.num r.data with
  | (some _, file₁) => file₁
  | (none, file₁) => (httcUtilFileWriteOffset io.writeItem file₁ r.item (8 + r.data.length)).2

/-- The write returns another number than that of its bytes. -/
def Noticed : Prop := (s.opens = false ∧ r.bytes w ≠ []) ∨ s.room < (r.bytes w).length

/-- The bytes that are lost when the file is closed. -/
def lost : Bytes := (r.bytes w).drop ((r.bytes w).length - s.lost)

/-- **The write does no harm:** it goes unnoticed, and all of its bytes get to the file, or something is
written behind them and the lost ones belong to the size or are zeros. -/
def Harmless : Prop :=
  ¬ r.Noticed w s ∧
    (r.lost w s = [] ∨ r.behind w ≠ [] ∧ (w = .size ∨ ∀ x ∈ r.lost w s, x = 0))

end Rewrite

/-- A system where all the writes take `room` bytes, but for one. -/
def failing (io : ProtectIo) (room : ℕ) (w : Write) (s : Stream) : ProtectIo :=
  { io with
    writeSize := if w = .size then s else ⟨true, room, 0⟩
    writeNum := if w = .num then s else ⟨true, room, 0⟩
    writeData := if w = .data then s else ⟨true, room, 0⟩
    writeItem := if w = .item then s else ⟨true, room, 0⟩ }

/-! ### What the file should be -/

/-- The two policies. -/
inductive Policy
  | fileProtect
  | network

/-- An item of the policy. -/
def Policy.IsItem : Policy → Bytes → Prop
  | fileProtect => Tcs.IsItem
  | network => NetworkControl.IsItem

/-- `check_buffer` passes for the file, whatever is around it in memory. -/
def Policy.Accepts (k : Policy) (f : Bytes) : Prop :=
  match k with
  | fileProtect => ∀ heap, checkStored f heap = true
  | network => ∀ around, (storedBuffer around f).Accepted

/-- The reader of the policy gives the items. -/
def Policy.Gets (k : Policy) (f : Bytes) (l : List Bytes) : Prop :=
  match k with
  | fileProtect => ∀ (io : ReadIo) heap, io.Granted →
      tcsGetFileProtectPolicy io heap true (some f) = .ok ⟨l.flatten, intAt f 4⟩
  | network => ∀ (io : ReadIo) around, io.Granted →
      tcsGetNetworkControlPolicy io around true (some f) = .ok ⟨l.flatten, intAt f 4⟩

/-- **The file decodes to the items:** it holds them, `check_buffer` passes and the reader gives them. -/
structure Decodes (k : Policy) (file : Option Bytes) (l : List Bytes) : Prop where
  holds : ∃ f, file = some f ∧ HoldsItems k.IsItem f l
  accepts : ∀ f, file = some f → k.Accepts f
  gets : ∀ f, file = some f → k.Gets f l

/-- What is to be written is items and nothing else, and can be read whole. -/
def Rewrite.Sound (r : Rewrite) (k : Policy) : Prop := ∃ l, HoldsItems k.IsItem r.whole l

/-! ### What the writes leave -/

section Writes

variable {r : Rewrite} {w : Write} {s : Stream} {io : ProtectIo} {file : Option Bytes} {f : Bytes} {room off : ℕ}

theorem Rewrite.whole_eq (r : Rewrite) (w : Write) : r.whole = r.before w ++ (r.bytes w ++ r.behind w) := by
  cases w <;> simp [Rewrite.whole, Rewrite.before, Rewrite.bytes, Rewrite.behind]

theorem fwriteAt_at {b : Bytes} (hf : f.length = off) : fwriteAt f off b = f ++ b := by
  rw [← hf, File.fwriteAt_end]

/-- A write that takes its bytes. -/
theorem writeOffset_good {b : Bytes} (h : b.length ≤ room) :
    httcUtilFileWriteOffset ⟨true, room, 0⟩ (some f) b off = ((b.length : ℤ), some (fwriteAt f off b)) :=
  httcUtilFileWriteOffset_eq ⟨rfl, h, rfl⟩ le_rfl

theorem writeSize_good {z : ℤ} (h : 4 ≤ room) :
    httcUtilFileWrite ⟨true, room, 0⟩ file (intBytes z) = (4, some (intBytes z)) := by
  have hroom : (intBytes z).length ≤ room := by rwa [length_intBytes]
  have hgood := @httcUtilFileWrite_eq ⟨true, room, 0⟩ file (intBytes z) room ⟨rfl, le_rfl, rfl⟩ hroom
  rwa [length_intBytes] at hgood

theorem writeNum_good {z : ℤ} (h : 4 ≤ room) :
    httcUtilFileWriteOffset ⟨true, room, 0⟩ (some f) (intBytes z) 4 = (4, some (fwriteAt f 4 (intBytes z))) := by
  have hgood := @writeOffset_good f room 4 (intBytes z) (by rwa [length_intBytes])
  rwa [length_intBytes] at hgood

/-- The number behind the whole size. -/
theorem writeNum_header (h : 4 ≤ room) :
    httcUtilFileWriteOffset ⟨true, room, 0⟩ (some (intBytes r.size)) (intBytes r.num) 4 =
      (4, some (intBytes r.size ++ intBytes r.num)) := by
  rw [writeNum_good h, fwriteAt_at length_intBytes]

/-- The data behind the whole header. -/
theorem writeData_header (h : r.data.length ≤ room) :
    httcUtilFileWriteOffset ⟨true, room, 0⟩ (some (intBytes r.size ++ intBytes r.num)) r.data 8 =
      ((r.data.length : ℤ), some (intBytes r.size ++ intBytes r.num ++ r.data)) := by
  rw [writeOffset_good h, fwriteAt_at (by simp)]

/-- A write that goes unnoticed. -/
theorem writeOffset_unnoticed {b : Bytes} (h : ¬ (s.opens = false ∧ b ≠ [])) (hroom : b.length ≤ s.room) :
    httcUtilFileWriteOffset s (some f) b off =
      ((b.length : ℤ), some (fwriteAt f off (b.take (b.length - s.lost)))) := by
  cases hopens : s.opens with
  | false =>
      obtain rfl : b = [] := not_not.mp fun hb => h ⟨hopens, hb⟩
      simp [httcUtilFileWriteOffset, hopens]
  | true =>
      rw [httcUtilFileWriteOffset, hopens, if_neg (by simp), List.take_of_length_le hroom, Stream.kept]

/-- What is left of bytes that the stream has no room for. -/
theorem kept_part {b : Bytes} (h : s.room < b.length) :
    (b.take s.room).length ≠ b.length ∧ s.kept (b.take s.room) <+: b ∧ s.kept (b.take s.room) ≠ b := by
  have hlength : (b.take s.room).length ≠ b.length := by
    rw [List.length_take]
    omega
  refine ⟨hlength, (List.take_prefix _ _).trans (List.take_prefix _ _), fun heq => ?_⟩
  have hkept := congrArg List.length heq
  rw [Stream.length_kept, List.length_take] at hkept
  omega

/-- A write that is noticed leaves a part of its bytes. -/
theorem writeOffset_noticed {b : Bytes} (h : (s.opens = false ∧ b ≠ []) ∨ s.room < b.length) :
    ∃ x t, httcUtilFileWriteOffset s (some f) b f.length = (x, some (f ++ t)) ∧ x ≠ b.length ∧
      t <+: b ∧ t ≠ b := by
  have hb : b ≠ [] := by
    rcases h with h | h
    · exact h.2
    · rintro rfl
      simp at h
  cases hopens : s.opens with
  | false =>
      refine ⟨0, [], ?_, ?_, List.nil_prefix, hb.symm⟩
      · simp [httcUtilFileWriteOffset, hopens]
      · have hpos := List.length_pos_of_ne_nil hb
        omega
  | true =>
      have hroom : s.room < b.length := h.resolve_left fun h => by simp [hopens] at h
      obtain ⟨hlength, hpart⟩ := kept_part hroom
      refine ⟨(b.take s.room).length, s.kept (b.take s.room), ?_, by exact_mod_cast hlength, hpart⟩
      rw [httcUtilFileWriteOffset, hopens, if_neg (by simp), File.fwriteAt_end]

/-- A size that goes unnoticed. -/
theorem writeSize_unnoticed (h : ¬ r.Noticed .size s) :
    httcUtilFileWrite s file (intBytes r.size) = (4, some ((intBytes r.size).take (4 - s.lost))) := by
  obtain ⟨hopens, hroom⟩ := not_or.mp h
  have hne : r.bytes .size ≠ [] := List.ne_nil_of_length_pos (by simp [Rewrite.bytes])
  have hopens : s.opens = true := by
    cases hs : s.opens with
    | false => exact absurd ⟨hs, hne⟩ hopens
    | true => rfl
  have hroom : (intBytes r.size).length ≤ s.room := Nat.le_of_not_lt hroom
  rw [httcUtilFileWrite, hopens, if_neg (by simp), List.take_of_length_le hroom, Stream.kept, length_intBytes]
  rfl

/-- A size that is noticed: the old file is left, or a part of the size. -/
theorem writeSize_noticed (h : r.Noticed .size s) :
    (s.opens = false ∧ httcUtilFileWrite s file (intBytes r.size) = (-1, file)) ∨
      ∃ x t, httcUtilFileWrite s file (intBytes r.size) = (x, some t) ∧ x ≠ 4 ∧
        t <+: intBytes r.size ∧ t ≠ intBytes r.size := by
  cases hopens : s.opens with
  | false => exact .inl ⟨rfl, by simp [httcUtilFileWrite, hopens]⟩
  | true =>
      have hroom : s.room < (intBytes r.size).length := h.resolve_left fun h => by simp [hopens] at h
      obtain ⟨hlength, hpart⟩ := kept_part hroom
      rw [length_intBytes] at hlength
      refine .inr ⟨((intBytes r.size).take s.room).length, s.kept ((intBytes r.size).take s.room), ?_,
        by exact_mod_cast hlength, hpart⟩
      rw [httcUtilFileWrite, hopens, if_neg (by simp)]

section Chain

variable {f₁ f₂ f₃ f₄ : Option Bytes} {x : ℤ}

theorem write_of_size (h₁ : httcUtilFileWrite io.writeSize file (intBytes r.size) = (x, f₁)) (hx : x ≠ 4) :
    r.write io file = f₁ := by
  simp [Rewrite.write, writeProtected, h₁, hx]

theorem write_of_num (h₁ : httcUtilFileWrite io.writeSize file (intBytes r.size) = (4, f₁))
    (h₂ : httcUtilFileWriteOffset io.writeNum f₁ (intBytes r.num) 4 = (x, f₂)) (hx : x ≠ 4) :
    r.write io file = f₂ := by
  simp [Rewrite.write, writeProtected, h₁, h₂, hx]

theorem write_of_data (h₁ : httcUtilFileWrite io.writeSize file (intBytes r.size) = (4, f₁))
    (h₂ : httcUtilFileWriteOffset io.writeNum f₁ (intBytes r.num) 4 = (4, f₂))
    (h₃ : httcUtilFileWriteOffset io.writeData f₂ r.data 8 = (x, f₃)) (hx : x ≠ r.data.length) :
    r.write io file = f₃ := by
  simp [Rewrite.write, writeProtected, h₁, h₂, h₃, hx]

theorem write_of_item (h₁ : httcUtilFileWrite io.writeSize file (intBytes r.size) = (4, f₁))
    (h₂ : httcUtilFileWriteOffset io.writeNum f₁ (intBytes r.num) 4 = (4, f₂))
    (h₃ : httcUtilFileWriteOffset io.writeData f₂ r.data 8 = ((r.data.length : ℤ), f₃))
    (h₄ : httcUtilFileWriteOffset io.writeItem f₃ r.item (8 + r.data.length) = (x, f₄)) :
    r.write io file = f₄ := by
  simp [Rewrite.write, writeProtected, h₁, h₂, h₃, h₄]

end Chain

/-- The writes behind the size are one. -/
theorem fwriteAt_behind_size {z : ℤ} {a b : Bytes} (hf : f.length ≤ 4) :
    fwriteAt (fwriteAt (fwriteAt f 4 (intBytes z)) 8 a) (8 + a.length) b =
      fwriteAt f 4 (intBytes z ++ (a ++ b)) := by
  have h₁ := @File.fwriteAt_fwriteAt _ a _ (intBytes z) hf
  have h₂ := @File.fwriteAt_fwriteAt _ b _ (intBytes z ++ a) hf
  rw [length_intBytes] at h₁
  rw [List.length_append, length_intBytes, ← Nat.add_assoc, ← h₁, List.append_assoc] at h₂
  exact h₂

/-- **A write that goes unnoticed:** the others write behind it. -/
theorem write_unnoticed (h : ¬ r.Noticed w s) (hroom : 4 + (r.data.length + r.item.length) ≤ room) :
    r.write (failing io room w s) file =
      some (fwriteAt (r.before w ++ (r.bytes w).take ((r.bytes w).length - s.lost))
        ((r.before w).length + (r.bytes w).length) (r.behind w)) := by
  have h4 : 4 ≤ room := by omega
  have hdata {f : Bytes} := @writeOffset_good f room 8 r.data (by omega)
  have hitem {f : Bytes} := @writeOffset_good f room (8 + r.data.length) r.item (by omega)
  obtain ⟨hopens, hfits⟩ := not_or.mp h
  have hfits := Nat.le_of_not_lt hfits
  cases w with
  | size =>
      refine (write_of_item (writeSize_unnoticed h) (writeNum_good h4) hdata hitem).trans (congrArg some ?_)
      have hk : ((intBytes r.size).take (4 - s.lost)).length ≤ 4 := by
        rw [List.length_take]
        omega
      refine (fwriteAt_behind_size hk).trans ?_
      rw [Rewrite.before, Rewrite.bytes, length_intBytes]
      rfl
  | num =>
      have hwrite := @writeOffset_unnoticed s (intBytes r.size) 4 _ hopens hfits
      have hk : (intBytes r.size ++ (intBytes r.num).take (4 - s.lost)).length ≤ 8 := by
        rw [List.length_append, List.length_take, length_intBytes, length_intBytes]
        omega
      refine (write_of_item (writeSize_good h4) hwrite hdata hitem).trans (congrArg some ?_)
      rw [Rewrite.before, Rewrite.bytes, fwriteAt_at length_intBytes, length_intBytes]
      exact File.fwriteAt_fwriteAt hk
  | data =>
      have hwrite := @writeOffset_unnoticed s (intBytes r.size ++ intBytes r.num) 8 _ hopens hfits
      rw [fwriteAt_at (by simp)] at hwrite
      refine (write_of_item (writeSize_good h4) (writeNum_header h4) hwrite hitem).trans (congrArg some ?_)
      rw [Rewrite.before, List.length_append, length_intBytes, length_intBytes]
      rfl
  | item =>
      have hdata := @writeData_header r room (by omega)
      have hwrite := @writeOffset_unnoticed s (intBytes r.size ++ intBytes r.num ++ r.data) (8 + r.data.length) _
        hopens hfits
      rw [fwriteAt_at (by simp only [List.length_append, length_intBytes])] at hwrite
      refine (write_of_item (writeSize_good h4) (writeNum_header h4) hdata hwrite).trans (congrArg some ?_)
      rw [Rewrite.behind, File.fwriteAt_nil]
      rfl

/-- **A write that is noticed** is the last one: the old file is left, or a part of what was to be
written. -/
theorem write_noticed (h : r.Noticed w s) (hroom : 4 + (r.data.length + r.item.length) ≤ room) :
    (w = .size ∧ s.opens = false ∧ r.write (failing io room w s) file = file) ∨
      ∃ t, t <+: r.bytes w ∧ t ≠ r.bytes w ∧ r.write (failing io room w s) file = some (r.before w ++ t) := by
  have h4 : 4 ≤ room := by omega
  have hnum := @writeNum_header r room h4
  have hdata := @writeData_header r room (by omega)
  cases w with
  | size =>
      rcases writeSize_noticed h with ⟨hopens, hwrite⟩ | ⟨x, t, hwrite, hx, hpart, hne⟩
      · exact .inl ⟨rfl, hopens, write_of_size hwrite (by decide)⟩
      · exact .inr ⟨t, hpart, hne, write_of_size hwrite hx⟩
  | num =>
      obtain ⟨x, t, hwrite, hx, hpart, hne⟩ := @writeOffset_noticed s (intBytes r.size) _ h
      rw [length_intBytes] at hwrite
      exact .inr ⟨t, hpart, hne, write_of_num (writeSize_good h4) hwrite (by simpa [Rewrite.bytes] using hx)⟩
  | data =>
      obtain ⟨x, t, hwrite, hx, hpart, hne⟩ := @writeOffset_noticed s (intBytes r.size ++ intBytes r.num) _ h
      rw [List.length_append, length_intBytes, length_intBytes] at hwrite
      exact .inr ⟨t, hpart, hne, write_of_data (writeSize_good h4) hnum hwrite hx⟩
  | item =>
      obtain ⟨x, t, hwrite, hx, hpart, hne⟩ :=
        @writeOffset_noticed s (intBytes r.size ++ intBytes r.num ++ r.data) _ h
      rw [List.length_append, List.length_append, length_intBytes, length_intBytes] at hwrite
      exact .inr ⟨t, hpart, hne, write_of_item (writeSize_good h4) hnum hdata hwrite⟩

end Writes

/-! ### Items that a file holds -/

/-- The size of an item of the policy by its header. -/
def Policy.itemSize : Policy → Bytes → ℕ
  | fileProtect => Tcs.itemSize
  | network => NetworkControl.itemLength

section Items

variable {k : Policy} {f g : Bytes} {l l' : List Bytes}

theorem Policy.IsItem.sized {c : Bytes} (h : k.IsItem c) : Sized id k.itemSize c := by
  cases k with
  | fileProtect => exact Tcs.IsItem.sized h
  | network => exact NetworkControl.IsItem.sized h

/-- Items say where they end. -/
theorem prefix_of_flatten (hl : ∀ c ∈ l, k.IsItem c) (hl' : ∀ c ∈ l', k.IsItem c)
    (h : l.flatten <+: l'.flatten) : l <+: l' := by
  rw [← List.flatMap_id, ← List.flatMap_id] at h
  exact prefix_of_flatMap (fun c hc => (hl c hc).sized) (fun c hc => (hl' c hc).sized)
    (fun _ _ _ _ heq => heq) h

theorem eq_of_flatten_eq (hl : ∀ c ∈ l, k.IsItem c) (hl' : ∀ c ∈ l', k.IsItem c)
    (h : l.flatten = l'.flatten) : l = l' := by
  have h₁ := prefix_of_flatten hl hl' (h ▸ List.prefix_rfl)
  have h₂ := prefix_of_flatten hl' hl (h ▸ List.prefix_rfl)
  exact h₁.eq_of_length_le h₂.length_le

theorem decodes_iff_holds : Decodes k (some f) l ↔ HoldsItems k.IsItem f l := by
  constructor
  · rintro ⟨⟨g, hg, hholds⟩, -, -⟩
    obtain rfl := Option.some.inj hg
    exact hholds
  · intro h
    refine ⟨⟨f, rfl, h⟩, ?_, ?_⟩
    · intro g hg
      obtain rfl := Option.some.inj hg
      cases k with
      | fileProtect => exact fun heap => HoldsItems.checkStored h heap
      | network => exact fun around => NetworkControl.accepted_of_items h around
    · intro g hg
      obtain rfl := Option.some.inj hg
      cases k with
      | fileProtect => exact fun io heap hio => HoldsItems.get_eq h hio heap
      | network => exact fun io around hio => NetworkControl.get_of_items h hio around

/-- Files with the same number and items. -/
theorem holds_congr (h : HoldsItems k.IsItem f l) (hlength : g.length = f.length)
    (hsame : g.drop 4 = f.drop 4) : HoldsItems k.IsItem g l where
  header := hlength ▸ h.header
  small := hlength ▸ h.small
  count := by
    rw [intAt, hostAt, fieldAt, hsame]
    exact h.count
  data := by
    have hdrop (b : Bytes) : b.drop 8 = (b.drop 4).drop 4 := by rw [List.drop_drop]
    rw [hdrop, hsame, ← hdrop, h.data]
  items := h.items

/-- **A part of a file of items holds none:** its number is that of all the items. -/
theorem not_holds_of_part (h : HoldsItems k.IsItem f l) (hpre : g <+: f) (hne : g ≠ f) :
    ¬ HoldsItems k.IsItem g l' := by
  intro h'
  obtain ⟨t, rfl⟩ := hpre
  have hcount : l'.length = l.length := by
    rw [← h'.count, ← h.count, intAt_append_left h'.header]
  have hflat : l'.flatten <+: l.flatten := by
    rw [← h'.data, ← h.data, List.drop_append_of_le_length h'.header]
    exact List.prefix_append _ _
  have heq := (prefix_of_flatten h'.items h.items hflat).eq_of_length hcount
  have hlength := h.length_eq
  rw [← heq, ← h'.length_eq, List.length_append] at hlength
  exact hne (by rw [List.length_eq_zero_iff.mp (by omega : t.length = 0), List.append_nil])

/-- The bytes of a number are those of no other. -/
theorem field_eq_of_intAt_eq (hf : 8 ≤ f.length) (hg : 8 ≤ g.length) (h : intAt f 4 = intAt g 4) :
    fieldAt f 4 4 = fieldAt g 4 4 := by
  have hlen {b : Bytes} (hb : 8 ≤ b.length) : (fieldAt b 4 4).length = 4 := by
    rw [fieldAt, List.length_take, List.length_drop]
    omega
  have hlt {b : Bytes} (hb : 8 ≤ b.length) : hostAt b 4 4 < 2 ^ 32 := by
    have hbound := ofHost_lt (fieldAt b 4 4)
    rwa [hlen hb] at hbound
  have hf' := hlt hf
  have hg' := hlt hg
  have hsame : hostAt f 4 4 = hostAt g 4 4 := by
    rw [intAt, intAt, int32, int32, Int.bmod_def, Int.bmod_def] at h
    omega
  have hbytes {b : Bytes} (hb : 8 ≤ b.length) : fieldAt b 4 4 = hostBytes 4 (hostAt b 4 4) := by
    have hall := hostBytes_ofHost (fieldAt b 4 4)
    rw [hlen hb] at hall
    exact hall.symm
  rw [hbytes hf, hbytes hg, hsame]

end Items

/-! ### One rewrite -/

/-- The bytes of a write with zeros for those that are lost. -/
def Rewrite.filled (r : Rewrite) (w : Write) (s : Stream) : Bytes :=
  (r.bytes w).take ((r.bytes w).length - s.lost) ++ List.replicate (r.lost w s).length 0

section Rewriting

variable {k : Policy} {r : Rewrite} {w : Write} {s : Stream} {io : ProtectIo} {file : Option Bytes}
  {f : Bytes} {l old new : List Bytes} {room : ℕ}

theorem take_append_lost (r : Rewrite) (w : Write) (s : Stream) :
    (r.bytes w).take ((r.bytes w).length - s.lost) ++ r.lost w s = r.bytes w :=
  List.take_append_drop _ _

theorem length_filled (r : Rewrite) (w : Write) (s : Stream) : (r.filled w s).length = (r.bytes w).length := by
  have hall := congrArg List.length (take_append_lost r w s)
  rw [List.length_append] at hall
  rw [Rewrite.filled, List.length_append, List.length_replicate, hall]

theorem filled_eq_iff : r.filled w s = r.bytes w ↔ ∀ x ∈ r.lost w s, x = 0 := by
  have hzeros : List.replicate (r.lost w s).length 0 = r.lost w s ↔ ∀ x ∈ r.lost w s, x = 0 := by
    rw [eq_comm, List.eq_replicate_iff]
    simp
  rw [← hzeros]
  constructor
  · intro h
    exact List.append_cancel_left (h.trans (take_append_lost r w s).symm)
  · intro h
    rw [Rewrite.filled, h, take_append_lost]

/-- Where nothing is lost the file is as it is to become. -/
theorem write_whole (h : ¬ r.Noticed w s) (hlost : r.lost w s = [])
    (hroom : 4 + (r.data.length + r.item.length) ≤ room) :
    r.write (failing io room w s) file = some r.whole := by
  have hall := take_append_lost r w s
  rw [hlost, List.append_nil] at hall
  rw [write_unnoticed h hroom, hall, ← List.length_append, File.fwriteAt_end, List.append_assoc, ← r.whole_eq]

/-- Where bytes are lost and nothing follows, a part of the file is there. -/
theorem write_part (h : ¬ r.Noticed w s) (hbehind : r.behind w = [])
    (hroom : 4 + (r.data.length + r.item.length) ≤ room) :
    r.write (failing io room w s) file =
      some (r.before w ++ (r.bytes w).take ((r.bytes w).length - s.lost)) := by
  rw [write_unnoticed h hroom, hbehind, File.fwriteAt_nil]

/-- Where bytes are lost and something follows, there are zeros in their place. -/
theorem write_gap (h : ¬ r.Noticed w s) (hbehind : r.behind w ≠ [])
    (hroom : 4 + (r.data.length + r.item.length) ≤ room) :
    r.write (failing io room w s) file = some (r.before w ++ (r.filled w s ++ r.behind w)) := by
  have hall := congrArg List.length (take_append_lost r w s)
  rw [List.length_append] at hall
  have hgap : (r.before w).length + (r.bytes w).length -
      (r.before w ++ (r.bytes w).take ((r.bytes w).length - s.lost)).length = (r.lost w s).length := by
    rw [List.length_append]
    omega
  rw [write_unnoticed h hroom, File.fwriteAt_gap hbehind (by rw [List.length_append]; omega), hgap,
    Rewrite.filled]
  simp only [List.append_assoc]

/-- A part of the file is no policy. -/
theorem not_holds_part {t : Bytes} (h : HoldsItems k.IsItem r.whole l) (ht : t <+: r.bytes w)
    (hne : t ≠ r.bytes w) :
    ¬ HoldsItems k.IsItem (r.before w ++ t) old := by
  rw [r.whole_eq w] at h
  refine not_holds_of_part h ?_ fun heq => ?_
  · exact (List.prefix_append_right_inj _).mpr (ht.trans (List.prefix_append _ _))
  · have hlength := congrArg List.length (List.append_cancel_left heq)
    have hle := ht.length_le
    rw [List.length_append] at hlength
    exact hne (ht.eq_of_length (by omega))

/-- A file with zeros in a part of the number or of the old items is neither the old policy nor the
new one. -/
theorem filled_eq_of_holds (h : HoldsItems k.IsItem r.whole new) (hw : w ≠ .size) (hbehind : r.behind w ≠ [])
    (hold : r.item ≠ [] → old.flatten.length = r.data.length) (hl : l = old ∨ l = new)
    (hF : HoldsItems k.IsItem (r.before w ++ (r.filled w s ++ r.behind w)) l) : r.filled w s = r.bytes w := by
  have hwhole := r.whole_eq w
  cases w with
  | size => exact absurd rfl hw
  | num =>
      have hfilled : (r.filled .num s).length = 4 := (length_filled r .num s).trans length_intBytes
      have hbytes : (r.bytes .num).length = 4 := length_intBytes
      have hbefore : (r.before .num).length = 4 := length_intBytes
      have hdrop {b : Bytes} (hb : b.length = 4) :
          (r.before .num ++ (b ++ r.behind .num)).drop 8 = r.behind .num := by
        rw [← List.append_assoc, List.drop_left' (by rw [List.length_append, hbefore, hb])]
      have hdata := hF.data
      have hflat : l.flatten = new.flatten := by
        rw [← hF.data, ← h.data, hwhole, hdrop hfilled, hdrop hbytes]
      -- the same items, so the same number of them
      obtain rfl := eq_of_flatten_eq hF.items h.items hflat
      rw [hdrop hfilled] at hdata
      have hpos : 0 < l.length := by
        refine List.length_pos_of_ne_nil ?_
        rintro rfl
        exact hbehind hdata
      have hnum := field_eq_of_intAt_eq hF.header h.header (by have h₁ := hF.count; have h₂ := h.count; omega)
      rwa [hwhole, fieldAt_append hbefore hfilled, fieldAt_append hbefore hbytes] at hnum
  | data =>
      have hbefore : (r.before .data).length = 8 := by simp [Rewrite.before]
      have hitem : r.item.length ≠ 0 := fun hnil => hbehind (List.length_eq_zero_iff.mp hnil)
      rcases hl with rfl | rfl
      · have hold := hold hbehind
        have hall := hF.length_eq
        rw [List.length_append, List.length_append, length_filled, hbefore] at hall
        simp only [Rewrite.bytes, Rewrite.behind] at hall
        omega
      · have hdata := hF.data.trans h.data.symm
        rw [hwhole, List.drop_left' hbefore, List.drop_left' hbefore] at hdata
        exact List.append_cancel_right hdata
  | item => exact absurd rfl hbehind

/-- A file that decodes to one of the two lists has met a failure that does no harm. -/
theorem survives_of_decodes (hnew : HoldsItems k.IsItem r.whole new)
    (hadd : r.item ≠ [] → old.flatten.length = r.data.length)
    (hroom : 4 + (r.data.length + r.item.length) ≤ room) (hl : l = old ∨ l = new)
    (h : Decodes k (r.write (failing io room w s) file) l) :
    w = .size ∧ s.opens = false ∨ r.Harmless w s := by
  have hpart : ∀ t, t <+: r.bytes w → t ≠ r.bytes w →
      r.write (failing io room w s) file ≠ some (r.before w ++ t) := by
    intro t ht hne heq
    rw [heq, decodes_iff_holds] at h
    exact not_holds_part hnew ht hne h
  rcases em (r.Noticed w s) with hnoticed | hnoticed
  · rcases @write_noticed _ _ _ io file _ hnoticed hroom with ⟨hw, hopens, -⟩ | ⟨t, ht, hne, heq⟩
    · exact .inl ⟨hw, hopens⟩
    · exact absurd heq (hpart t ht hne)
  · refine .inr ⟨hnoticed, ?_⟩
    rcases eq_or_ne (r.lost w s) [] with hlost | hlost
    · exact .inl hlost
    rcases eq_or_ne (r.behind w) [] with hbehind | hbehind
    · refine absurd (write_part hnoticed hbehind hroom) (hpart _ (List.take_prefix _ _) fun heq => hlost ?_)
      have hall := take_append_lost r w s
      rw [heq] at hall
      exact List.append_right_eq_self.mp hall
    rcases eq_or_ne w .size with hw | hw
    · exact .inr ⟨hbehind, .inl hw⟩
    · rw [write_gap hnoticed hbehind hroom, decodes_iff_holds] at h
      exact .inr ⟨hbehind, .inr (filled_eq_iff.mp (filled_eq_of_holds hnew hw hbehind hadd hl h))⟩

/-- After a failure that does no harm the file decodes to one of the two lists. -/
theorem decodes_of_survives (hf : HoldsItems k.IsItem f old) (hnew : HoldsItems k.IsItem r.whole new)
    (hroom : 4 + (r.data.length + r.item.length) ≤ room) (h : w = .size ∧ s.opens = false ∨ r.Harmless w s) :
    Decodes k (r.write (failing io room w s) (some f)) old ∨
      Decodes k (r.write (failing io room w s) (some f)) new := by
  rcases h with ⟨rfl, hopens⟩ | ⟨hnoticed, hlost | ⟨hbehind, hzeros⟩⟩
  · have hwrite : r.write (failing io room .size s) (some f) = some f :=
      write_of_size (x := -1) (by simp [failing, httcUtilFileWrite, hopens]) (by decide)
    rw [hwrite, decodes_iff_holds]
    exact .inl hf
  · rw [write_whole hnoticed hlost hroom, decodes_iff_holds, decodes_iff_holds]
    exact .inr hnew
  · rw [write_gap hnoticed hbehind hroom, decodes_iff_holds, decodes_iff_holds]
    refine .inr ?_
    rcases hzeros with rfl | hzeros
    · have hfilled : (r.filled .size s).length = 4 := (length_filled r .size s).trans length_intBytes
      have hbytes : (r.bytes .size).length = 4 := length_intBytes
      refine holds_congr hnew ?_ ?_
      · rw [r.whole_eq .size]
        simp only [List.length_append, length_filled]
      · rw [r.whole_eq .size, Rewrite.before, List.nil_append, List.nil_append, List.drop_left' hfilled,
          List.drop_left' hbytes]
    · rw [filled_eq_iff.mpr hzeros, ← r.whole_eq w]
      exact hnew

/-- Where every write takes its bytes the file is as it is to become. -/
theorem write_completed (hroom : 4 + (r.data.length + r.item.length) ≤ room) :
    r.write (failing io room .size ⟨true, room, 0⟩) file = some r.whole := by
  refine write_whole ?_ (by simp [Rewrite.lost]) hroom
  rintro (⟨hopens, -⟩ | hsmall)
  · exact absurd hopens (by simp)
  · simp [Rewrite.bytes] at hsmall
    omega

/-- **What a rewrite leaves** when one of its writes fails. -/
theorem rewrite_recovers_iff (hf : HoldsItems k.IsItem f old)
    (hadd : r.item ≠ [] → old.flatten.length = r.data.length)
    (hroom : 4 + (r.data.length + r.item.length) ≤ room) :
    (∃ new, Decodes k (r.write (failing io room .size ⟨true, room, 0⟩) (some f)) new ∧
        (Decodes k (r.write (failing io room w s) (some f)) old ∨
          Decodes k (r.write (failing io room w s) (some f)) new)) ↔
      r.Sound k ∧ (w = .size ∧ s.opens = false ∨ r.Harmless w s) := by
  rw [write_completed hroom]
  constructor
  · rintro ⟨new, hnew, hF⟩
    rw [decodes_iff_holds] at hnew
    refine ⟨⟨new, hnew⟩, ?_⟩
    rcases hF with hF | hF
    · exact survives_of_decodes hnew hadd hroom (.inl rfl) hF
    · exact survives_of_decodes hnew hadd hroom (.inr rfl) hF
  · rintro ⟨⟨new, hnew⟩, hsurvives⟩
    exact ⟨new, decodes_iff_holds.mpr hnew, decodes_of_survives hf hnew hroom hsurvives⟩

end Rewriting

end PolicyRewrite
end Tcs
end TsbAgent
