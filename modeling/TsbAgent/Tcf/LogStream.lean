/-
# The log stream at its bounds

`log_util_buffer_to_info` of `tss-main/tcf/src/tcf_log_notice.c` with every access that it makes.
`TsbAgent.Tcf.Log` is about what it delivers when all memory is granted
(`logs_logUtilBufferToInfo`).

What decides a round is `total_len`, an `int` of the data:

| `total_len` | |
| --- | --- |
| negative | the look-ahead looks back, and `memcpy` takes the length for a huge one, unless `log_info_len` is negative too |
| 0 | **accepted:** the record is empty and the next one is the same |
| less than a header | **accepted** where there is no place for a header behind it |
| at most 4096 | accepted when it ends in the buffer, with a magic behind it if there is place |

`end_off` is a sum of `int`s.  `parses_iff` says that the logs are what they should be exactly
where no record that is reached meets one of these.
-/

import TsbAgent.Lib.Bounded
import TsbAgent.Tcf.Log

namespace TsbAgent
namespace Tcf
namespace LogStream

open Libc Word Codec Bounded

/-- A buffer and its size, an `int`. -/
structure Stream where
  data : Bytes
  size : Int32
  length_eq : data.length = size.toInt.toNat

/-- `log_info_len`. -/
def logInfoLen (totalLen : ℤ) : ℤ := int32 (sizeofLogInfo + totalLen)

/-- The check of the magic of the next record, if there is place for its header. -/
def lookAhead (b : Bytes) (ops t : ℤ) : Except Fail Unit :=
  if sizeT (int32 (ops + t) + sizeofLog) ≤ b.length then do
    let next ← read b (ops + t) 4
    check (ofHost next ≠ logMagic) .badData
  else pure ()

/-- One round: the record at `ops`, and where the next one starts. -/
def extractLog (granted : Bool) (b : Bytes) (off ops : ℤ) : Except Fail (LogInfo × ℤ) := do
  check (sizeT (ops + sizeofLog) > b.length) .badData
  let magic ← read b ops 4
  check (ofHost magic ≠ logMagic) .badData
  let totalLen ← read b (ops + 36) 4
  let t := int32 (ofHost totalLen)
  lookAhead b ops t
  check (t > b.length - ops ∨ t > 4096) .badData
  malloc granted (logInfoLen t) .nomem
  -- `size` and `end_off` take 16 bytes of it
  needs (16 ≤ logInfoLen t)
  let item ← copy b ops t (logInfoLen t - 16)
  pure (⟨item, sizeT (int32 (off + ops + t))⟩, int32 (ops + t))

/-- What is returned: how it ends, and the first `*num_inout` of `logs`. -/
structure Logs where
  ret : Except Fail Unit
  logs : List LogInfo
deriving DecidableEq

/-- The loop, for `num` records more; `granted` says for which of them there is memory. -/
def bufferToInfo (granted : ℕ → Bool) (b : Bytes) (off : ℤ) : ℕ → ℤ → Logs
  | 0, _ => ⟨.ok (), []⟩
  | num + 1, ops =>
      if b.length ≤ ops then ⟨.ok (), []⟩
      else
        match extractLog (granted num) b off ops with
        | .error e => ⟨.error e, []⟩
        | .ok (log, next) =>
            let rest := bufferToInfo granted b off num next
            ⟨rest.ret, log :: rest.logs⟩

/-- `log_util_buffer_to_info`. -/
def Stream.parse (x : Stream) (granted : ℕ → Bool) (off num : Int32) : Logs :=
  bufferToInfo granted x.data off.toInt num.toInt.toNat 0

/-! ### What is claimed -/

/-- A log is the record at `pos`: at least a header, inside the buffer, and with its end in the
file. -/
structure Placed (b : Bytes) (off : ℤ) (pos : ℕ) (log : LogInfo) : Prop where
  header : sizeofLog ≤ log.item.length
  inside : pos + log.item.length ≤ b.length
  item : log.item = fieldAt b pos log.item.length
  endOff : (log.endOff : ℤ) = off + (pos + log.item.length : ℕ)

/-- The logs follow one another from `pos` on. -/
def Follow (b : Bytes) (off : ℤ) : ℕ → List LogInfo → Prop
  | _, [] => True
  | pos, log :: logs => Placed b off pos log ∧ Follow b off (pos + log.item.length) logs

/-- **What the parser should do,** whatever memory it is granted. -/
structure Parses (x : Stream) (off num : Int32) : Prop where
  safe : ∀ granted, (x.parse granted off num).ret ≠ .error .fault
  few : ∀ granted, (x.parse granted off num).logs.length ≤ num.toInt.toNat
  records : ∀ granted, Follow x.data off.toInt 0 (x.parse granted off num).logs

/-! ### The condition -/

/-- A record that starts with a header in the buffer. -/
def HasHeader (b : Bytes) (ops : ℕ) : Prop := ops + sizeofLog ≤ b.length ∧ magicAt b ops = logMagic

/-- A negative length is refused: the look-ahead finds something else behind the start of the
buffer, or there is no memory; and it does not look at what is before the buffer. -/
def NegativeRefused (b : Bytes) (ops : ℕ) (t : ℤ) : Prop :=
  0 ≤ ops + t ∧ magicAt b (ops + t).toNat ≠ logMagic ∨
    sizeofLogInfo + t < 0 ∧ (0 ≤ ops + t ∨ ops + t + sizeofLog < 0)

/-- What the tests accept. -/
def LogAccepted (b : Bytes) (ops : ℕ) : Prop :=
  HasHeader b ops ∧ 0 ≤ totalLenAt b ops ∧ totalLenAt b ops ≤ 4096 ∧ ops + totalLenAt b ops ≤ b.length ∧
    (ops + totalLenAt b ops + sizeofLog ≤ b.length → magicAt b (ops + (totalLenAt b ops).toNat) = logMagic)

/-- Where the next record starts. -/
def logNext (b : Bytes) (ops : ℕ) : ℕ := ops + (totalLenAt b ops).toNat

/-- A record whose length is not negative, or is refused; and which, where it is accepted, has at
least a header and ends at an offset that is an `int`. -/
def LogSound (b : Bytes) (off : ℤ) (ops : ℕ) : Prop :=
  (HasHeader b ops → totalLenAt b ops < 0 → NegativeRefused b ops (totalLenAt b ops)) ∧
    (LogAccepted b ops → sizeofLog ≤ totalLenAt b ops ∧ 0 ≤ off + logNext b ops ∧ off + logNext b ops < 2 ^ 31)

/-- **The condition:** every record that is reached is sound. -/
def Stream.Sound (x : Stream) (off num : Int32) : Prop :=
  Walks (LogSound x.data off.toInt) (LogAccepted x.data) (logNext x.data) (fun _ => True) num.toInt.toNat 0

/-! ### One record -/

/-- The log of the record at `ops`. -/
def logAt (b : Bytes) (off : ℤ) (ops : ℕ) : LogInfo :=
  ⟨fieldAt b ops (totalLenAt b ops).toNat, sizeT (int32 (off + logNext b ops))⟩

section Item

variable {b : Bytes} {off : ℤ} {ops : ℕ}

theorem meets_lookAhead {t : ℤ} (hops : ops + sizeofLog ≤ b.length) (hb : b.length < 2 ^ 31)
    (ht : -2 ^ 31 ≤ t ∧ t < 2 ^ 31) {Q : Unit → Prop} :
    Meets (lookAhead b ops t) Q ↔
      (0 ≤ ops + t + sizeofLog → ops + t + sizeofLog ≤ b.length → 0 ≤ ops + t) ∧
        ((0 ≤ ops + t → ops + t + sizeofLog ≤ b.length → magicAt b (ops + t).toNat = logMagic) → Q ()) := by
  have hsize : sizeofLog = 80 := rfl
  have hplace : sizeT (int32 (ops + t) + sizeofLog) ≤ b.length ↔
      0 ≤ ops + t + sizeofLog ∧ ops + t + sizeofLog ≤ b.length := by
    rw [sizeT, int32, Int.bmod_def]
    omega
  rw [lookAhead]
  split_ifs with h
  · obtain ⟨hlow, hhigh⟩ := hplace.mp h
    simp only [meets_bind, meets_read, meets_check, not_not]
    rw [inside_iff (by decide), ← hostAt, ← magicAt]
    constructor
    · rintro ⟨⟨hstart, -⟩, hQ⟩
      exact ⟨fun _ _ => hstart, fun hmagic => hQ (hmagic hstart hhigh)⟩
    · rintro ⟨hstart, hQ⟩
      have hstart := hstart hlow hhigh
      exact ⟨⟨hstart, by omega⟩, fun hmagic => hQ fun _ _ => hmagic⟩
  · have hnoplace (hlow : 0 ≤ ops + t + sizeofLog) (hhigh : ops + t + sizeofLog ≤ b.length) : False :=
      h (hplace.mpr ⟨hlow, hhigh⟩)
    rw [meets_pure]
    refine ⟨fun hQ => ⟨fun hlow hhigh => (hnoplace hlow hhigh).elim, fun _ => hQ⟩,
      fun hQ => hQ.2 fun hstart hhigh => ?_⟩
    exact (hnoplace (by omega) hhigh).elim

theorem logInfoLen_eq {t : ℤ} (hlow : -2 ^ 31 ≤ t) (hhigh : t ≤ 4096) : logInfoLen t = 96 + t := by
  have hinfo : ((sizeofLogInfo : ℕ) : ℤ) = 96 := rfl
  rw [logInfoLen, hinfo, int32, Int.bmod_def]
  omega

/-- **One record,** when there is memory for it. -/
theorem meets_extractLog (hb : b.length < 2 ^ 31) (hops : ops < b.length) (Q : LogInfo × ℤ → Prop) :
    Meets (extractLog true b off ops) Q ↔
      (HasHeader b ops → totalLenAt b ops < 0 → NegativeRefused b ops (totalLenAt b ops)) ∧
        (LogAccepted b ops → Q (logAt b off ops, logNext b ops)) := by
  have hsize : sizeofLog = 80 := rfl
  have hinfo : sizeofLogInfo = 96 := rfl
  have hrange : -2 ^ 31 ≤ totalLenAt b ops ∧ totalLenAt b ops < 2 ^ 31 := by
    rw [totalLenAt, int32, Int.bmod_def]
    omega
  have hfirst : sizeT (ops + sizeofLog) > b.length ↔ ¬ ops + sizeofLog ≤ b.length := by
    rw [sizeT]
    omega
  have htotal : int32 (ofHost (fieldAt b ((ops : ℤ) + 36).toNat 4)) = totalLenAt b ops := rfl
  have hmagic : ofHost (fieldAt b (ops : ℤ).toNat 4) = magicAt b ops := rfl
  simp only [extractLog, meets_bind, meets_check, meets_read, not_not, htotal, hmagic]
  rw [hfirst, not_not, LogAccepted, logAt, logNext]
  generalize totalLenAt b ops = t at *
  rcases Nat.lt_or_ge b.length (ops + sizeofLog) with hshort | hheader
  · have hnot : ¬ HasHeader b ops := fun h => absurd h.1 (not_le.mpr hshort)
    exact iff_of_true (fun h => absurd h (not_le.mpr hshort)) ⟨fun h => absurd h hnot, fun h => absurd h.1 hnot⟩
  rw [forall_prop_of_true hheader, inside_iff (by decide), inside_iff (by decide), and_iff_right (by omega)]
  rcases ne_or_eq (magicAt b ops) logMagic with hwrong | hright
  · have hnot : ¬ HasHeader b ops := fun h => hwrong h.2
    exact iff_of_true (fun h => absurd h hwrong) ⟨fun h => absurd h hnot, fun h => absurd h.1 hnot⟩
  have hboth : HasHeader b ops := ⟨hheader, hright⟩
  rw [forall_prop_of_true hright, and_iff_right (by omega), meets_lookAhead hheader hb hrange,
    forall_prop_of_true hboth, and_iff_right hboth]
  simp only [meets_malloc, meets_needs, meets_copy, meets_pure, forall_true_left]
  rcases lt_or_ge t 0 with hneg | hpos
  -- a negative length goes through both tests, and is too large for `memcpy`
  · have hout : ¬ Inside b ops t := by
      unfold Inside
      omega
    rw [forall_prop_of_true hneg, NegativeRefused, logInfoLen_eq hrange.1 (by omega)]
    constructor
    · rintro ⟨hback, hrest⟩
      refine ⟨?_, fun hacc => absurd hacc.1 (not_le.mpr hneg)⟩
      by_contra hnot
      have hpass (hstart : 0 ≤ ops + t) (_ : ops + t + sizeofLog ≤ b.length) :
          magicAt b (ops + t).toNat = logMagic :=
        by_contra fun hother => hnot (.inl ⟨hstart, hother⟩)
      rcases lt_or_ge (sizeofLogInfo + t) 0 with hno | hmemory
      · exact hnot (.inr ⟨hno, by omega⟩)
      · exact hout (hrest hpass (by omega) (by omega)).2.1.1
    · rintro ⟨⟨hstart, hother⟩ | ⟨hno, hback⟩, -⟩
      · exact ⟨fun _ _ => hstart, fun hpass => absurd (hpass hstart (by omega)) hother⟩
      · exact ⟨fun _ _ => by omega, fun _ _ hmemory => by omega⟩
  · obtain ⟨n, rfl⟩ := Int.eq_ofNat_of_zero_le hpos
    have hnext : ((ops : ℤ) + n).toNat = ops + n := by omega
    have hsum : off + ops + (n : ℤ) = off + (ops + n : ℕ) := by omega
    have hops (hend : ops + n ≤ b.length) : int32 ((ops : ℤ) + n) = (ops + n : ℕ) := by
      rw [← Nat.cast_add]
      exact int32_eq (by omega) (by omega)
    rw [Int.toNat_natCast, Int.toNat_natCast, hnext, hsum]
    constructor
    · rintro ⟨-, hrest⟩
      refine ⟨fun hneg => absurd hpos (not_le.mpr hneg), fun hacc => ?_⟩
      obtain ⟨-, hpage, hend, hmagics⟩ := hacc
      rw [logInfoLen_eq hrange.1 hpage, hops (by omega)] at hrest
      exact (hrest (fun _ => hmagics) (by omega) (by omega)).2.2
    · rintro ⟨-, hQ⟩
      refine ⟨fun _ _ => by omega, fun hmagics htests _ => ?_⟩
      have hin : Inside b ops n := by
        unfold Inside
        omega
      rw [logInfoLen_eq hrange.1 (by omega), hops (by omega)]
      exact ⟨by omega, ⟨hin, by omega⟩, hQ ⟨hpos, by omega, by omega, hmagics (by omega)⟩⟩

/-- Without memory a round only stops earlier. -/
theorem within_extractLog (granted : Bool) (ops : ℤ) :
    Within (extractLog granted b off ops) (extractLog true b off ops) := by
  rw [extractLog, extractLog]
  refine within_bind (.refl _) fun _ => within_bind (.refl _) fun _ => within_bind (.refl _) fun _ =>
    within_bind (.refl _) fun totalLen => ?_
  dsimp only
  generalize int32 (ofHost totalLen) = t
  exact within_bind (.refl _) fun _ => within_bind (.refl _) fun _ => within_bind (within_malloc _ _ _) fun _ => .refl _

end Item

/-! ### The loop -/

section Loop

variable {b : Bytes} {off : ℤ} {ops num : ℕ} {granted : ℕ → Bool}

theorem length_logAt_item (hpos : 0 ≤ totalLenAt b ops) (hend : ops + totalLenAt b ops ≤ b.length) :
    (logAt b off ops).item.length = (totalLenAt b ops).toNat := by
  rw [logAt, fieldAt, List.length_take, List.length_drop]
  omega

/-- What a sound record that is accepted gives. -/
theorem placed_iff (hb : b.length < 2 ^ 31) (hoff : -2 ^ 31 ≤ off ∧ off < 2 ^ 31) (hacc : LogAccepted b ops) :
    Placed b off ops (logAt b off ops) ↔
      sizeofLog ≤ totalLenAt b ops ∧ 0 ≤ off + logNext b ops ∧ off + logNext b ops < 2 ^ 31 := by
  obtain ⟨-, hpos, -, hend, -⟩ := hacc
  have hlen := @length_logAt_item b off ops hpos hend
  have hsum : ((logAt b off ops).endOff : ℤ) = off + logNext b ops ↔
      0 ≤ off + logNext b ops ∧ off + logNext b ops < 2 ^ 31 := by
    have hnext : logNext b ops < 2 ^ 31 := by
      rw [logNext]
      omega
    rw [logAt]
    generalize logNext b ops = next at *
    dsimp only
    rw [sizeT, int32, Int.bmod_def]
    omega
  constructor
  · rintro ⟨hheader, -, -, hendOff⟩
    rw [hlen] at hheader hendOff
    exact ⟨by omega, hsum.mp hendOff⟩
  · rintro ⟨hheader, hrange⟩
    refine ⟨?_, ?_, ?_, ?_⟩
    · rw [hlen]
      omega
    · rw [hlen]
      omega
    · rw [hlen, logAt]
    · rw [hlen]
      exact hsum.mpr hrange

/-- **No more logs than asked for.** -/
theorem length_bufferToInfo_le (ops : ℤ) : (bufferToInfo granted b off num ops).logs.length ≤ num := by
  induction num generalizing ops with
  | zero => exact le_rfl
  | succ num ih =>
      rw [bufferToInfo]
      split_ifs with hend
      · exact Nat.zero_le _
      · cases hitem : extractLog (granted num) b off ops with
        | error e => exact Nat.zero_le _
        | ok r => exact Nat.succ_le_succ (ih r.2)

/-- At the end of the buffer there is no record. -/
theorem not_hasHeader_of_end (hend : b.length ≤ ops) : ¬ HasHeader b ops := by
  rintro ⟨hheader, -⟩
  have hsize : sizeofLog = 80 := rfl
  omega

/-- **Sound records give sound logs,** whatever memory is granted. -/
theorem bufferToInfo_of_walks (hb : b.length < 2 ^ 31) (hoff : -2 ^ 31 ≤ off ∧ off < 2 ^ 31)
    (h : Walks (LogSound b off) (LogAccepted b) (logNext b) (fun _ => True) num ops) :
    (bufferToInfo granted b off num ops).ret ≠ .error .fault ∧ Follow b off ops (bufferToInfo granted b off num ops).logs := by
  induction num generalizing ops with
  | zero => exact ⟨by simp [bufferToInfo], trivial⟩
  | succ num ih =>
      obtain ⟨⟨hrefused, hsound⟩, hrest⟩ := h
      rw [bufferToInfo]
      split_ifs with hend
      · exact ⟨by simp, trivial⟩
      · have hitem := @within_extractLog b off (granted num) ops _
          ((meets_extractLog hb (by omega) fun r => LogAccepted b ops ∧ r = (logAt b off ops, (logNext b ops : ℤ))).mpr
            ⟨hrefused, fun hacc => ⟨hacc, rfl⟩⟩)
        cases hround : extractLog (granted num) b off ops with
        | error e =>
            rw [hround] at hitem
            exact ⟨fun hfault => by cases hfault; exact hitem, trivial⟩
        | ok r =>
            rw [hround] at hitem
            obtain ⟨hacc, rfl⟩ := hitem
            obtain ⟨hsafe, hfollow⟩ := ih (hrest hacc)
            refine ⟨hsafe, (placed_iff hb hoff hacc).mpr (hsound hacc), ?_⟩
            rw [length_logAt_item hacc.2.1 hacc.2.2.2.1]
            exact hfollow

/-- **Sound logs come from sound records:** with all the memory every record that is reached is
seen in the logs. -/
theorem walks_of_bufferToInfo (hb : b.length < 2 ^ 31) (hoff : -2 ^ 31 ≤ off ∧ off < 2 ^ 31)
    (hsafe : (bufferToInfo (fun _ => true) b off num ops).ret ≠ .error .fault)
    (hfollow : Follow b off ops (bufferToInfo (fun _ => true) b off num ops).logs) :
    Walks (LogSound b off) (LogAccepted b) (logNext b) (fun _ => True) num ops := by
  induction num generalizing ops with
  | zero => trivial
  | succ num ih =>
      rw [bufferToInfo] at hsafe hfollow
      rcases Nat.lt_or_ge ops b.length with hops | hend
      · rw [if_neg (by omega)] at hsafe hfollow
        have hitem := @meets_extractLog b off ops hb hops
        cases hround : extractLog true b off ops with
        | error e =>
            rw [hround] at hsafe hitem
            -- an error that is reported says that the record is not accepted
            obtain ⟨e, rfl⟩ : ∃ e', e = .error e' := by
              cases e with
              | error e' => exact ⟨e', rfl⟩
              | fault => exact absurd rfl hsafe
            obtain ⟨hrefused, hnot⟩ := (hitem fun _ => False).mp trivial
            exact ⟨⟨hrefused, fun hacc => (hnot hacc).elim⟩, fun hacc => (hnot hacc).elim⟩
        | ok r =>
            rw [hround] at hsafe hfollow hitem
            obtain ⟨hrefused, heq⟩ := (hitem (· = r)).mp rfl
            have hrest (hacc : LogAccepted b ops) :
                (LogSound b off ops ∧ Walks (LogSound b off) (LogAccepted b) (logNext b) (fun _ => True) num (logNext b ops)) := by
              obtain rfl := heq hacc
              obtain ⟨hplaced, hfollow⟩ := hfollow
              rw [length_logAt_item hacc.2.1 hacc.2.2.2.1] at hfollow
              exact ⟨⟨hrefused, fun _ => (placed_iff hb hoff hacc).mp hplaced⟩, ih hsafe hfollow⟩
            exact ⟨⟨hrefused, fun hacc => (hrest hacc).1.2 hacc⟩, fun hacc => (hrest hacc).2⟩
      · have hnot := not_hasHeader_of_end hend
        exact ⟨⟨fun h => absurd h hnot, fun hacc => absurd hacc.1 hnot⟩, fun hacc => absurd hacc.1 hnot⟩

end Loop

/-! ### With all the memory -/

/-- How the model without accesses calls it. -/
def parseRet : Except Fail Unit → ParseRet
  | .ok () => .success
  | .error (.error _) => .badData
  | .error .fault => .fault

section Granted

variable {b : Bytes} {off ops num : ℕ}

end Granted

/-- **When the log stream is parsed safely:** nothing is read or copied outside the buffer, and the
logs follow one another, each with at least a header and with its end in the file, **exactly when
every record that is reached is sound**. -/
theorem parses_iff (x : Stream) (off num : Int32) : Parses x off num ↔ x.Sound off num := by
  have hb : x.data.length < 2 ^ 31 := by
    have hlt := x.size.toInt_lt
    have hlen := x.length_eq
    omega
  have hoff : -2 ^ 31 ≤ off.toInt ∧ off.toInt < 2 ^ 31 := ⟨off.le_toInt, off.toInt_lt⟩
  constructor
  · intro h
    exact walks_of_bufferToInfo hb hoff (h.safe _) (h.records _)
  · intro h
    refine ⟨fun granted => ?_, fun granted => length_bufferToInfo_le 0, fun granted => ?_⟩
    · exact (bufferToInfo_of_walks hb hoff h).1
    · exact (bufferToInfo_of_walks hb hoff h).2

/-- A header whose `total_len` is zero. -/
def emptyRecord : Stream where
  data := [0xDD, 0xB2, 0xA1, 0xCC] ++ List.replicate 76 0
  size := 80
  length_eq := by decide

/-- It is returned as often as is asked for. -/
theorem empty_record_returned_twice :
    (emptyRecord.parse (fun _ => true) 0 2).logs = [⟨[], 0⟩, ⟨[], 0⟩] ∧ ¬ Parses emptyRecord 0 2 := by
  have hlogs : (emptyRecord.parse (fun _ => true) 0 2).logs = [⟨[], 0⟩, ⟨[], 0⟩] := by decide +kernel
  refine ⟨hlogs, fun h => ?_⟩
  have hfollow := h.records fun _ => true
  rw [hlogs] at hfollow
  exact absurd hfollow.1.header (by decide)

end LogStream
end Tcf
end TsbAgent
