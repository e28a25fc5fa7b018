/-
# The items of the network control policy

An item is a `struct network_config_item` of 8 bytes and `be_total_num` times a `struct
ip_config` of 16.  Two layers go over items without knowing of each other: `check_buffer` of
`tss-main/tcs/tcsapi/tcsu/tcs_network_control.c` with an `int`, and
`get_network_control_date_len` of `tss-main/tcf/src/tcf_network_control.c` with a `uint32_t`.
The number in the header is 32 bits, and neither looks at it before it has added it up.

| | `check_buffer` | `get_network_control_date_len` |
| --- | --- | --- |
| offset | `int`, may go back or below 0 | modulo 2³² |
| header | read before the length is tested | read whatever the length is |
| result | the offset is the length | the sum is the length |

`network_validation_iff` says when both take exactly what is tiled by items, and read nothing
else.
-/

import TsbAgent.Lib.Records
import TsbAgent.Lib.Word
import TsbAgent.Tcf.DevVersion

namespace TsbAgent
namespace Tcs
namespace NetworkControl

open Word Records

/-! ### Items in memory -/

/-- The memory around a buffer, by the offset from where it starts. -/
abbrev Memory := ℤ → UInt8

/-- `(struct network_config_item *)(buffer + offset)`. -/
def Memory.item (m : Memory) (offset : ℤ) : Mem := fun k => m (offset + k)

/-- `cur_item->be_port_sw`. -/
def portSw (p : Mem) : UInt32 := p.ntohl 0

/-- `ntohl(cur_item->be_total_num)`. -/
def totalNum (p : Mem) : ℕ := (p.ntohl 4).toNat

/-- `sizeof(struct network_config_item)`. -/
def sizeofNetworkConfigItem : ℕ := 8

/-- `sizeof(struct ip_config)`. -/
def sizeofIpConfig : ℕ := 16

/-- The two additions to `offset` for the item there, each made an `int` again. -/
def nextOffset (m : Memory) (offset : ℤ) : ℤ :=
  int32 (int32 (offset + sizeofNetworkConfigItem) + totalNum (m.item offset) * sizeofIpConfig)

/-- The loop of `check_buffer` from an offset: whether it returns 0, and the offsets of the headers
that it has read. -/
def checkLoop (m : Memory) (length : ℤ) : ℕ → ℤ → Bool × List ℤ
  | 0, offset => (offset = length, [])
  | n + 1, offset =>
      let next := nextOffset m offset
      let r := if next > length then (false, []) else checkLoop m length n next
      (r.1, offset :: r.2)

/-- The arguments of `check_buffer`. -/
structure NetBuffer where
  mem : Memory
  length : ℤ
  num : ℤ

/-- `check_buffer`: no item is looked at when the number is negative. -/
def checkBuffer (b : NetBuffer) : Bool × List ℤ := checkLoop b.mem b.length b.num.toNat 0

/-- `check_buffer` returns 0. -/
abbrev NetBuffer.Accepted (b : NetBuffer) : Prop := (checkBuffer b).1 = true

/-- `len` as `memcmp` gets it. -/
def compareLen (check : Mem) : ℕ := sizeT (int32 (sizeofIpConfig * totalNum check))

/-- `httc_find_same_item`: what it returns, and how many bytes behind the headers it has
`memcmp` compare, if it comes to that. -/
def httcFindSameItem (cur check : Mem) : ℕ × Option ℕ :=
  if portSw cur ≠ portSw check ∨ totalNum check ≠ totalNum cur then (1, none)
  else
    (if ∀ k < compareLen check, check (sizeofNetworkConfigItem + k) = cur (sizeofNetworkConfigItem + k)
      then 0 else 2, some (compareLen check))

/-! ### The true layout -/

/-- What the item at `p` takes. -/
def itemBytes (p : Mem) : ℕ := sizeofNetworkConfigItem + totalNum p * sizeofIpConfig

namespace NetBuffer

/-- The offset in front of item `i`. -/
def offset (b : NetBuffer) (i : ℕ) : ℤ := (nextOffset b.mem)^[i] 0

/-- Where item `i` starts when the items are laid out one after the other. -/
def place (b : NetBuffer) (i : ℕ) : ℕ := walk (fun q => itemBytes (b.mem.item q)) i 0

/-- **The buffer is the concatenation of the items**, as many as the number says. -/
def Tiled (b : NetBuffer) : Prop := (b.place b.num.toNat : ℤ) = b.length

instance (b : NetBuffer) : Decidable b.Tiled := inferInstanceAs (Decidable (_ = _))

/-- **`check_buffer` is exact:** it takes the tiled buffers and no others, the headers that it reads
are in the buffer, and its offset does not wrap around. -/
structure Validated (b : NetBuffer) : Prop where
  exact : b.Accepted ↔ b.Tiled
  inside : ∀ o ∈ (checkBuffer b).2, 0 ≤ o ∧ o + sizeofNetworkConfigItem ≤ b.length
  noWrap : ∀ o ∈ (checkBuffer b).2, nextOffset b.mem o = o + itemBytes (b.mem.item o)

/-- **The condition on a buffer:** the first item, and every other that starts inside the length, has
its header there and ends below `2 ^ 31`. -/
def Bounded (b : NetBuffer) : Prop :=
  ∀ i < b.num.toNat, i = 0 ∨ (b.place i : ℤ) ≤ b.length →
    (b.place i : ℤ) + sizeofNetworkConfigItem ≤ b.length ∧ b.place (i + 1) < 2 ^ 31

end NetBuffer

/-- `date_len` in front of item `i` of an update. -/
def updateOffset (u : Mem) (i : ℕ) : UInt32 :=
  walk (fun dateLen => Tcf.networkItemSize u (56 + dateLen.toNat)) i 0

/-- Where item `i` of an update starts in its data, when the items are laid out one after the
other. -/
def updatePlace (u : Mem) (i : ℕ) : ℕ := walk (fun q => itemBytes fun k => u (56 + q + k)) i 0

/-- **The data of an update are the concatenation of its items**, the headers that were read are in
the data, and the sum does not wrap around. -/
structure UpdateTiled (u : Mem) : Prop where
  tiled : updatePlace u (u.ntohl 16).toNat = (u.ntohl 20).toNat
  inside : ∀ i < (u.ntohl 16).toNat,
    (updateOffset u i).toNat + sizeofNetworkConfigItem ≤ (u.ntohl 20).toNat
  noWrap : ∀ i ≤ (u.ntohl 16).toNat, (updateOffset u i).toNat = updatePlace u i

/-- The bytes compared for item `i` of a buffer end with the item, inside the buffer. -/
def NetBuffer.Compares (b : NetBuffer) (i len : ℕ) : Prop :=
  0 ≤ b.offset i ∧ sizeofNetworkConfigItem + len ≤ itemBytes (b.mem.item (b.offset i)) ∧
    b.offset i + itemBytes (b.mem.item (b.offset i)) ≤ b.length

/-- **Network policy validation is exact**, for the stored items, the given ones and an update; and of
items that were accepted nothing is compared that is not in both. -/
structure NetworkValidated (stored given : NetBuffer) (u : Mem) : Prop where
  validStored : stored.Validated
  validGiven : given.Validated
  tiled : UpdateTiled u
  compares : stored.Accepted → given.Accepted → ∀ i < stored.num.toNat, ∀ j < given.num.toNat,
    ∀ len ∈ (httcFindSameItem (stored.mem.item (stored.offset i)) (given.mem.item (given.offset j))).2,
      stored.Compares i len ∧ given.Compares j len

section Loop

variable {m : Memory} {b : NetBuffer} {length o : ℤ} {n i : ℕ}

theorem checkLoop_fst_iff : (checkLoop m length n o).1 = true ↔
    (∀ i < n, (nextOffset m)^[i + 1] o ≤ length) ∧ (nextOffset m)^[n] o = length := by
  induction n generalizing o with
  | zero => simp [checkLoop]
  | succ n ih =>
      rw [Nat.forall_lt_succ_left, checkLoop.eq_def]
      dsimp only [Function.iterate_succ, Function.comp, Function.iterate_zero, id]
      split_ifs with hnext
      · have hle : ¬ nextOffset m o ≤ length := by omega
        simp [hle]
      · have hle : nextOffset m o ≤ length := by omega
        rw [ih]
        simp [hle]

theorem mem_checkLoop_iff {x : ℤ} : x ∈ (checkLoop m length n o).2 ↔
    ∃ i < n, (∀ j < i, (nextOffset m)^[j + 1] o ≤ length) ∧ x = (nextOffset m)^[i] o := by
  induction n generalizing o with
  | zero => simp [checkLoop]
  | succ n ih =>
      rw [Nat.exists_lt_succ_left, checkLoop.eq_def]
      dsimp only [Function.iterate_succ, Function.comp, Function.iterate_zero, id]
      simp only [List.mem_cons, Nat.not_lt_zero, false_imp_iff, implies_true, true_and,
        Nat.forall_lt_succ_left, Function.iterate_zero, id]
      refine or_congr_right ?_
      split_ifs with hnext
      · have hle : ¬ nextOffset m o ≤ length := by omega
        simp [hle]
      · have hle : nextOffset m o ≤ length := by omega
        rw [ih]
        simp [hle]

end Loop

namespace NetBuffer

variable {b : NetBuffer} {n i : ℕ}

theorem accepted_iff : b.Accepted ↔
    (∀ i < b.num.toNat, b.offset (i + 1) ≤ b.length) ∧ b.offset b.num.toNat = b.length :=
  checkLoop_fst_iff

theorem mem_headers_iff {x : ℤ} : x ∈ (checkBuffer b).2 ↔
    ∃ i < b.num.toNat, (∀ j < i, b.offset (j + 1) ≤ b.length) ∧ x = b.offset i :=
  mem_checkLoop_iff

theorem offset_succ (b : NetBuffer) (i : ℕ) : b.offset (i + 1) = nextOffset b.mem (b.offset i) :=
  Function.iterate_succ_apply' ..

theorem place_succ (b : NetBuffer) (i : ℕ) :
    b.place (i + 1) = b.place i + itemBytes (b.mem.item (b.place i)) :=
  walk_succ ..

theorem place_mono (b : NetBuffer) (h : i ≤ n) : b.place i ≤ b.place n := walk_mono h 0

/-- The offset is where the item is, if no step up to there wraps around. -/
theorem offset_eq_place (h : ∀ i < n, (∀ j ≤ i, b.offset j = b.place j) →
      nextOffset b.mem (b.offset i) = b.offset i + itemBytes (b.mem.item (b.offset i))) :
    ∀ i ≤ n, b.offset i = b.place i := by
  induction n with
  | zero =>
      intro i hi
      obtain rfl : i = 0 := by omega
      rfl
  | succ n ih =>
      have hbefore := ih fun i hi => h i (by omega)
      intro i hi
      rcases Nat.lt_or_ge n i with hlast | hlast
      · obtain rfl : i = n + 1 := by omega
        rw [offset_succ, h n (Nat.lt_add_one n) hbefore, hbefore n le_rfl, place_succ, Nat.cast_add]
      · exact hbefore i hlast

/-- An offset below `2 ^ 31` is the true one. -/
theorem nextOffset_eq {m : Memory} {o : ℤ} (h₀ : 0 ≤ o) (h : o + itemBytes (m.item o) < 2 ^ 31) :
    nextOffset m o = o + itemBytes (m.item o) := by
  rw [itemBytes, sizeofNetworkConfigItem, sizeofIpConfig] at h ⊢
  have hheader : int32 (o + (8 : ℕ)) = o + 8 := int32_eq (by omega) (by omega)
  rw [nextOffset, sizeofNetworkConfigItem, sizeofIpConfig, hheader, int32_eq (by omega) (by omega)]
  omega

/-- A step of a bounded buffer from the place of an item does not wrap around. -/
theorem Bounded.nextOffset_eq (h : b.Bounded) (hi : i < b.num.toNat)
    (hreach : i = 0 ∨ (b.place i : ℤ) ≤ b.length) (heq : b.offset i = b.place i) :
    nextOffset b.mem (b.offset i) = b.offset i + itemBytes (b.mem.item (b.offset i)) := by
  have hlt := (h i hi hreach).2
  rw [place_succ] at hlt
  rw [heq]
  exact NetBuffer.nextOffset_eq (by omega) (by omega)

/-- The offsets that the loop goes through are the places. -/
theorem Bounded.offset_eq (h : b.Bounded) (hn : n ≤ b.num.toNat)
    (hpassed : ∀ j, j + 1 < n → b.offset (j + 1) ≤ b.length) : ∀ i ≤ n, b.offset i = b.place i := by
  refine offset_eq_place fun i hi hbefore => h.nextOffset_eq (by omega) ?_ (hbefore i le_rfl)
  cases i with
  | zero => exact .inl rfl
  | succ i =>
      have hle := hpassed i hi
      rw [hbefore _ le_rfl] at hle
      exact .inr hle

/-- The same for a buffer that its items tile. -/
theorem Bounded.offset_eq_of_tiled (h : b.Bounded) (ht : b.Tiled) :
    ∀ i ≤ b.num.toNat, b.offset i = b.place i := by
  refine offset_eq_place fun i hi hbefore => h.nextOffset_eq hi (.inr ?_) (hbefore i le_rfl)
  rw [← show (b.place b.num.toNat : ℤ) = b.length from ht]
  exact_mod_cast b.place_mono hi.le

/-- **`check_buffer` is exact for the bounded buffers, and for no others.** -/
theorem validated_iff : b.Validated ↔ b.Bounded := by
  constructor
  · intro hv i hi hreach
    have hle : ∀ j ≤ i, j ≠ 0 → (b.place j : ℤ) ≤ b.length := by
      intro j hj hj0
      have hmono := b.place_mono hj
      rcases hreach with rfl | hreach <;> omega
    have hread : ∀ k ≤ i, (∀ j ≤ k, b.offset j = b.place j) → b.offset k ∈ (checkBuffer b).2 := by
      intro k hk hbefore
      refine mem_headers_iff.mpr ⟨k, by omega, fun j hj => ?_, rfl⟩
      rw [hbefore _ (by omega)]
      exact hle _ (by omega) (by omega)
    have heq := offset_eq_place fun k hk hbefore => hv.noWrap _ (hread k (Nat.le_of_lt hk) hbefore)
    have hheader := hread i le_rfl heq
    have hinside := (hv.inside _ hheader).2
    have hnext := hv.noWrap _ hheader
    have hlt : nextOffset b.mem (b.offset i) < 2 ^ 31 := Tcf.int32_lt _
    rw [heq i le_rfl] at hinside hnext hlt
    rw [place_succ]
    exact ⟨hinside, by omega⟩
  · intro hb
    have hheader : ∀ x ∈ (checkBuffer b).2, ∃ i < b.num.toNat,
        (i = 0 ∨ (b.place i : ℤ) ≤ b.length) ∧ x = b.offset i ∧ b.offset i = b.place i := by
      intro x hx
      obtain ⟨i, hi, hpassed, rfl⟩ := mem_headers_iff.mp hx
      have heq := hb.offset_eq hi.le (fun j hj => hpassed j (by omega)) i le_rfl
      refine ⟨i, hi, ?_, rfl, heq⟩
      cases i with
      | zero => exact .inl rfl
      | succ i =>
          rw [← heq]
          exact .inr (hpassed i (Nat.lt_add_one i))
    refine ⟨?_, ?_, ?_⟩
    · rw [accepted_iff]
      constructor
      · rintro ⟨hpassed, hend⟩
        rw [Tiled, ← hb.offset_eq le_rfl (fun j hj => hpassed j (by omega)) _ le_rfl, hend]
      · intro ht
        have heq := hb.offset_eq_of_tiled ht
        have hend : (b.place b.num.toNat : ℤ) = b.length := ht
        refine ⟨fun i hi => ?_, (heq _ le_rfl).trans hend⟩
        have hmono := b.place_mono (Nat.succ_le_of_lt hi)
        rw [heq _ (Nat.succ_le_of_lt hi)]
        omega
    · intro x hx
      obtain ⟨i, hi, hreach, rfl, heq⟩ := hheader x hx
      have hroom := (hb i hi hreach).1
      omega
    · intro x hx
      obtain ⟨i, hi, hreach, rfl, heq⟩ := hheader x hx
      exact hb.nextOffset_eq hi hreach heq

end NetBuffer

section Update

variable {u : Mem}

theorem networkItemSize_eq (u : Mem) (q : ℕ) :
    Tcf.networkItemSize u (56 + q) = UInt32.ofNat (itemBytes fun k => u (56 + q + k)) := by
  rw [itemBytes, UInt32.ofNat_add, UInt32.ofNat_mul, totalNum, UInt32.ofNat_toNat]
  rfl

theorem updateOffset_eq {n : ℕ} (h : updatePlace u n < 2 ^ 32) :
    ∀ i ≤ n, (updateOffset u i).toNat = updatePlace u i := by
  intro i hi
  have hlt : ∀ j ≤ n, updatePlace u j < 2 ^ 32 := fun j hj => (walk_mono hj 0).trans_lt h
  have hcast : updateOffset u i = UInt32.ofNat (updatePlace u i) := by
    refine walk_cast UInt32.ofNat_add (fun q hq => ?_) fun j hj => hlt j (by omega)
    rw [UInt32.toNat_ofNat_of_lt' hq, networkItemSize_eq]
  rw [hcast, UInt32.toNat_ofNat_of_lt' (hlt i hi)]

/-- What the check of an update accepts has the length that the sum comes to. -/
theorem dateLen_of_check {e : Tcf.UpdateEnv} {s : Tcf.VersionFiles}
    (h : (Tcf.tcfUtilCheckNetworkControlUpdate e s u).1 = none) :
    updateOffset u (u.ntohl 16).toNat = u.ntohl 20 := by
  rw [Tcf.tcfUtilCheckNetworkControlUpdate, Tcf.checkDevUpdate] at h
  dsimp only at h
  split_ifs at h with hsize hversion hid hlen
  exact not_not.mp hlen

/-- **The data of an accepted update are tiled** exactly when the items take less than `2 ^ 32` bytes. -/
theorem updateTiled_iff (h : updateOffset u (u.ntohl 16).toNat = u.ntohl 20) :
    UpdateTiled u ↔ updatePlace u (u.ntohl 16).toNat < 2 ^ 32 := by
  constructor
  · intro ht
    rw [ht.tiled]
    exact (u.ntohl 20).toNat_lt
  · intro hlt
    have heq := updateOffset_eq hlt
    have hend := heq _ le_rfl
    rw [h] at hend
    refine ⟨hend.symm, fun i hi => ?_, heq⟩
    have hheader := @walk_header_le _ sizeofNetworkConfigItem
      (fun q => Nat.le_add_right _ (totalNum (fun k => u (56 + q + k)) * sizeofIpConfig)) i _ hi 0
    rw [heq i hi.le, hend]
    exact hheader

end Update

section Compare

variable {b : NetBuffer} {i : ℕ}

/-- An accepted buffer has its items where the offsets lead. -/
theorem NetBuffer.Bounded.item_inside (h : b.Bounded) (haccepted : b.Accepted) (hi : i < b.num.toNat) :
    0 ≤ b.offset i ∧ itemBytes (b.mem.item (b.offset i)) < 2 ^ 31 ∧
      b.offset i + itemBytes (b.mem.item (b.offset i)) ≤ b.length := by
  have ht := (validated_iff.mpr h).exact.mp haccepted
  have heq := h.offset_eq_of_tiled ht i hi.le
  have hend : (b.place b.num.toNat : ℤ) = b.length := ht
  have hmono := b.place_mono (Nat.succ_le_of_lt hi)
  have hle := b.place_mono hi.le
  have hlt := (h i hi (.inr (by omega))).2
  rw [Nat.succ_eq_add_one] at hmono
  rw [place_succ] at hmono hlt
  rw [heq]
  omega

/-- What two items have compared is their ranges. -/
theorem compareLen_eq {cur check : Mem} {len : ℕ} (hcheck : itemBytes check < 2 ^ 31)
    (h : len ∈ (httcFindSameItem cur check).2) :
    sizeofNetworkConfigItem + len = itemBytes cur ∧ sizeofNetworkConfigItem + len = itemBytes check := by
  unfold httcFindSameItem at h
  rcases em (portSw cur ≠ portSw check ∨ totalNum check ≠ totalNum cur) with hdiffer | hdiffer
  · rw [if_pos hdiffer] at h
    exact absurd h (by simp)
  · rw [if_neg hdiffer] at h
    obtain ⟨-, hnum⟩ := not_or.mp hdiffer
    obtain rfl := Option.some.inj h
    rw [itemBytes, sizeofNetworkConfigItem, sizeofIpConfig] at hcheck
    have hlen : compareLen check = 16 * totalNum check := by
      rw [compareLen, sizeofIpConfig, int32_eq (by omega) (by omega), sizeT]
      omega
    rw [hlen, itemBytes, itemBytes, ← not_not.mp hnum, sizeofNetworkConfigItem, sizeofIpConfig]
    omega

end Compare

/-- **When the validation is exact.**  For every stored and every given buffer and every update that
the check accepts: both layers take what is tiled by items and nothing else, without leaving
the buffer or wrapping around, and only bytes of both items are compared, exactly when in each
buffer the first item, and every other that starts inside the length, has its header there and
ends below `2 ^ 31`, and the items of the update take less than `2 ^ 32` bytes. -/
theorem network_validation_iff (stored given : NetBuffer) {u : Mem} {e : Tcf.UpdateEnv}
    {s : Tcf.VersionFiles} (h : (Tcf.tcfUtilCheckNetworkControlUpdate e s u).1 = none) :
    NetworkValidated stored given u ↔
      stored.Bounded ∧ given.Bounded ∧ updatePlace u (u.ntohl 16).toNat < 2 ^ 32 := by
  have hupdate := updateTiled_iff (dateLen_of_check h)
  constructor
  · intro hv
    exact ⟨NetBuffer.validated_iff.mp hv.validStored, NetBuffer.validated_iff.mp hv.validGiven,
      hupdate.mp hv.tiled⟩
  · rintro ⟨hstored, hgiven, hlt⟩
    refine ⟨NetBuffer.validated_iff.mpr hstored, NetBuffer.validated_iff.mpr hgiven, hupdate.mpr hlt, ?_⟩
    intro hacc₁ hacc₂ i hi j hj len hlen
    obtain ⟨h₀₁, -, hend₁⟩ := hstored.item_inside hacc₁ hi
    obtain ⟨h₀₂, hsmall, hend₂⟩ := hgiven.item_inside hacc₂ hj
    obtain ⟨hcur, hcheck⟩ := compareLen_eq hsmall hlen
    exact ⟨⟨h₀₁, hcur.le, hend₁⟩, h₀₂, hcheck.le, hend₂⟩

/-- Memory with one item at a place, of which the header says that it has `total` ranges. -/
def itemAt (p total : ℕ) (m : ℕ → UInt8) : ℕ → UInt8 := fun k =>
  if p ≤ k then (netBytes 4 1 ++ netBytes 4 total).getD (k - p) 0 else m k

/-- A buffer that should hold one item. -/
def oneItem (total : ℕ) (length : ℤ) : NetBuffer := ⟨fun o => itemAt 0 total (fun _ => 0) o.toNat, length, 1⟩

/-- An update with one item of 24 bytes, for the machine with id 1. -/
def oneItemUpdate : Mem := itemAt 56 1 fun k =>
  (netBytes 4 56 ++ netBytes 4 0 ++ netBytes 8 1 ++ netBytes 4 1 ++ netBytes 4 24 ++
    List.replicate 32 1).getD k 0

theorem oneItemUpdate_accepted :
    (Tcf.tcfUtilCheckNetworkControlUpdate (Tcf.cdromCall 1 1).env (fun _ => none) oneItemUpdate).1 = none := by
  decide +kernel

/-- One item with one range, in 24 bytes, and the update with it. -/
theorem one_item_validated : NetworkValidated (oneItem 1 24) (oneItem 1 24) oneItemUpdate := by
  have hbounded : (oneItem 1 24).Bounded := by
    intro i hi _
    obtain rfl : i = 0 := Nat.lt_one_iff.mp hi
    decide +kernel
  exact (network_validation_iff _ _ oneItemUpdate_accepted).mpr ⟨hbounded, hbounded, by decide +kernel⟩

/-- **Eight bytes are accepted for an item of `2 ^ 32 + 8`**, with `2 ^ 28` ranges. -/
theorem wrapped_item_accepted :
    (oneItem 0x10000000 8).Accepted ∧ ¬ (oneItem 0x10000000 8).Tiled ∧
      ¬ NetworkValidated (oneItem 1 24) (oneItem 0x10000000 8) oneItemUpdate := by
  have haccepted : (oneItem 0x10000000 8).Accepted := by decide +kernel
  have htiled : ¬ (oneItem 0x10000000 8).Tiled := by decide +kernel
  exact ⟨haccepted, htiled, fun hv => htiled (hv.validGiven.exact.mp haccepted)⟩

end NetworkControl
end Tcs
end TsbAgent
