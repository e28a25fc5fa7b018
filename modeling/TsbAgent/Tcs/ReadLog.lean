/-
# Reading the log of the TPCM

`read_log` (`tss-main/tcs/tcsapi/tcsk/notify.c`) fetches buffers of at most 4084 bytes with
`tcsk_get_tpcm_log` (`tcs_kernel.c`) and gives their records to a callback.  A record is

| bytes | field |
| --- | --- |
| 0 … 3 | `uiType` |
| 4 … 7 | `uiLength`, header included |
| 8 … 15 | `uiRelativeSec`, `uiRelativeMsec` |
| then | the log |

and the next one starts at the next multiple of 4.  `real_log.length` is an `int`, so that what the
loop does with a length depends on its sign:

| length | bound check | callback | goes on |
| --- | --- | --- | --- |
| 0 | passes | no | at the same record, for ever |
| 1 … 15 | as it should | yes, with less than a header | 4 to 16 bytes further |
| 16 … | as it should | yes | at the next record |
| negative | passes when it leads back into the buffer | no | before the record |

The loop ends when fewer than 17 bytes are left, so that a header without a log at the end of the buffer
is not passed on.  `read_log_good_iff` says for which buffers none of this happens.
-/

import TsbAgent.Lib.Orbit
import TsbAgent.Tcf.Basic

namespace TsbAgent
namespace Tcs

open Libc Word FileIntegrity Orbit

/-- `4096 - sizeof(tpcm_rsp_header_st)`. -/
def maxLogLen : ℕ := 4084

/-- `TPCM_OUT_SIZE_EXCEEDED`. -/
def tpcmOutSizeExceeded : UInt32 := 138

/-! ### The buffers -/

/-- The reply to `TPCM_ORD_GetTpcmLog`: whether the buffers were there and the command got through
with the right tag, the fields of the header, and the memory behind `rsp->uaLog`. -/
structure LogReply where
  arrives : Bool
  ret : UInt32
  length : UInt32
  uaLog : Mem

/-- `tcsk_get_tpcm_log` for a buffer of `length` bytes: none when it fails, and otherwise `tpcmRes` and
what was copied.  The length of the reply is compared as an `int`. -/
def tcskGetTpcmLog (length : ℕ) (r : LogReply) : Option (UInt32 × Option Bytes) :=
  if ¬ r.arrives then none
  else if r.ret = 0 ∨ r.ret = tpcmOutSizeExceeded then
    if int32 length < int32 (r.length.toNat - 16) then none
    else some (r.ret, some (r.uaLog.bytes 0 (((r.length.toNat : ℤ) - 16) % 2 ^ 32).toNat))
  else some (r.ret, none)

/-- The buffers whose records `read_log` looks at, when these are the replies it gets. -/
def buffersRead : List LogReply → List Bytes
  | [] => []
  | r :: rs =>
      match tcskGetTpcmLog maxLogLen r with
      | some (res, some b) => b :: if res = tpcmOutSizeExceeded then buffersRead rs else []
      | _ => []

/-! ### The records -/

/-- What the callback gets, with the place of `log` in the buffer; the time is computed from the two
relative numbers. -/
structure TpcmLog where
  offset : ℕ
  type : ℤ
  length : ℤ
  relativeSec : ℕ
  relativeMsec : ℕ
deriving DecidableEq

/-- The record at an offset. -/
def logAt (b : Bytes) (off : ℕ) : TpcmLog where
  offset := off
  type := int32 (netAt b off 4)
  length := int32 (netAt b (off + 4) 4)
  relativeSec := netAt b (off + 8) 4
  relativeMsec := netAt b (off + 12) 4

/-- Where the inner loop goes on, none when it ends; the sums have 32 bits. -/
def nextLog (b : Bytes) (off : ℕ) : Option ℕ :=
  if ¬ off + 16 < b.length then none
  else if ((off : ℤ) + (logAt b off).length) % 2 ^ 32 > b.length then none
  else some (((off : ℤ) + Tcf.alignInt (logAt b off).length) % 2 ^ 32).toNat

/-- The calls of the callback in one round. -/
def logCalls (b : Bytes) (off : ℕ) : List TpcmLog :=
  if (logAt b off).length > 0 then [logAt b off] else []

/-- The inner loop of `read_log`: the calls that it makes, none when the fuel is used up. -/
def readLogLoop (b : Bytes) (fuel : ℕ) : Option (List TpcmLog) := collect (nextLog b) (logCalls b) fuel 0

/-- `read_log` on these replies, behind which the command fails: what it returns, and every buffer with
the calls it makes for it. -/
def readLog (fuel : ℕ) : List LogReply → Option (ℤ × List (Bytes × List TpcmLog))
  | [] => some (-1, [])
  | r :: rs =>
      match tcskGetTpcmLog maxLogLen r with
      | some (res, some b) =>
          (readLogLoop b fuel).bind fun calls =>
            if res = tpcmOutSizeExceeded then (readLog fuel rs).map fun x => (x.1, (b, calls) :: x.2)
            else some (0, [(b, calls)])
      | _ => some (-1, [])

/-! ### What should be read -/

/-- The records from an offset on, each at least a header, whole, and padded to a multiple of 4 but for
the last. -/
inductive LogRecords (b : Bytes) : ℕ → List TpcmLog → Prop
  | nil (off : ℕ) (h : b.length ≤ off) : LogRecords b off []
  | cons (off : ℕ) (recs : List TpcmLog) (hlong : 16 ≤ (logAt b off).length)
      (hin : off + (logAt b off).length ≤ b.length)
      (hrest : LogRecords b (off + align4 (logAt b off).length.toNat) recs) :
      LogRecords b off (logAt b off :: recs)

/-- The calls for a buffer are good: with records that lie in the buffer and have a header, and where the
buffer is a row of records, with these. -/
structure CallsGood (b : Bytes) (calls : List TpcmLog) : Prop where
  inside : ∀ c ∈ calls, 16 ≤ c.length ∧ c.offset + c.length ≤ b.length
  all : ∀ recs, LogRecords b 0 recs → calls = recs

/-- The offsets of the inner loop. -/
def logOffset (b : Bytes) (i : ℕ) : Option ℕ := orbit (nextLog b) i 0

/-- What a buffer must be: no length leads back to a record that was there before, no length is
positive and less than a header, and no record is a header at the very end. -/
structure LogOk (b : Bytes) : Prop where
  forward : ∀ i j, i < j → logOffset b i = logOffset b j → logOffset b i = none
  long : ∀ i off, logOffset b i = some off → nextLog b off ≠ none →
    (logAt b off).length ≤ 0 ∨ 16 ≤ (logAt b off).length
  tail : ∀ recs, LogRecords b 0 recs → ∀ c ∈ recs, c.offset + 16 ≠ b.length

section Loop

variable {b : Bytes} {off fuel : ℕ} {calls : List TpcmLog}

theorem length_logAt_lt (b : Bytes) (off : ℕ) : (logAt b off).length < 2 ^ 31 := by
  simp only [logAt]
  exact Tcf.int32_lt _

theorem nextLog_ne_none (h : nextLog b off ≠ none) : off + 16 < b.length ∧
    ((off : ℤ) + (logAt b off).length) % 2 ^ 32 ≤ b.length := by
  unfold nextLog at h
  split_ifs at h with h₁ h₂
  · exact absurd rfl h
  · exact ⟨h₁, not_lt.mp h₂⟩
  · exact absurd rfl h

theorem readLogLoop_isSome_iff : (∃ calls, readLogLoop b fuel = some calls) ↔ logOffset b fuel = none :=
  collect_isSome_iff

/-- **The loop ends** exactly when no length leads back. -/
theorem readLogLoop_ends_iff : (∃ fuel calls, readLogLoop b fuel = some calls) ↔
    ∀ i j, i < j → logOffset b i = logOffset b j → logOffset b i = none := by
  simp only [readLogLoop_isSome_iff]
  refine ends_iff (Set.finite_lt_nat b.length) fun off hoff => ?_
  have hlt := (nextLog_ne_none hoff).1
  change off < b.length
  omega

theorem mem_calls_iff {c : TpcmLog} (h : readLogLoop b fuel = some calls) : c ∈ calls ↔
    ∃ i off, logOffset b i = some off ∧ nextLog b off ≠ none ∧ 0 < (logAt b off).length ∧ c = logAt b off := by
  rw [mem_collect_iff h]
  refine exists_congr fun i => exists_congr fun off => and_congr_right fun _ => and_congr_right fun _ => ?_
  unfold logCalls
  split_ifs with hpos
  · simp [hpos]
  · exact iff_of_false List.not_mem_nil fun h => hpos h.1

/-- **What is passed on lies in the buffer,** for a buffer of the size that was asked for. -/
theorem inside_of_mem_calls {c : TpcmLog} (hb : b.length ≤ maxLogLen) (h : readLogLoop b fuel = some calls)
    (hc : c ∈ calls) : 0 < c.length ∧ c.offset + c.length ≤ b.length := by
  obtain ⟨i, off, -, hoff, hpos, rfl⟩ := (mem_calls_iff h).mp hc
  obtain ⟨hlt, hin⟩ := nextLog_ne_none hoff
  have hmax : (logAt b off).length < 2 ^ 31 := length_logAt_lt b off
  rw [maxLogLen] at hb
  refine ⟨hpos, ?_⟩
  rw [Int.emod_eq_of_lt (by omega) (by omega)] at hin
  exact hin

/-- A record that is read is passed on, and the loop goes on at the next one. -/
theorem nextLog_of_record (hb : b.length ≤ maxLogLen) (hlong : 16 ≤ (logAt b off).length)
    (hin : off + (logAt b off).length ≤ b.length) (htail : off + 16 ≠ b.length) :
    nextLog b off = some (off + align4 (logAt b off).length.toNat) ∧ logCalls b off = [logAt b off] := by
  rw [maxLogLen] at hb
  obtain ⟨n, hn⟩ := Int.eq_ofNat_of_zero_le (show 0 ≤ (logAt b off).length by omega)
  have halign := align4_le n
  have hint : Tcf.alignInt n = align4 n := Tcf.alignInt_eq (by omega)
  have hnot : ¬ ((off : ℤ) + (logAt b off).length) % 2 ^ 32 > b.length := by
    rw [Int.emod_eq_of_lt (by omega) (by omega)]
    omega
  refine ⟨?_, if_pos (by omega)⟩
  rw [nextLog, if_neg (by omega), if_neg hnot, hn, hint, Int.toNat_natCast,
    Int.emod_eq_of_lt (by omega) (by omega)]
  exact congrArg some (by omega)

/-- The loop over a row of records gives all of them, where none is a header at the end. -/
theorem collect_of_records {recs : List TpcmLog} (hb : b.length ≤ maxLogLen) (hrecs : LogRecords b off recs)
    (htail : ∀ c ∈ recs, c.offset + 16 ≠ b.length) :
    collect (nextLog b) (logCalls b) (recs.length + 1) off = some recs := by
  induction hrecs with
  | nil off h =>
      have hend : nextLog b off = none := if_pos (by omega)
      rw [collect, hend]
  | cons off recs hlong hin hrest ih =>
      obtain ⟨hself, htail⟩ := List.forall_mem_cons.mp htail
      obtain ⟨hnext, hcalls⟩ := nextLog_of_record hb hlong hin hself
      rw [List.length_cons, collect, hnext]
      dsimp only
      rw [ih htail, hcalls]
      rfl

/-- **One buffer:** the loop ends with good calls exactly when the buffer is in order. -/
theorem callsGood_iff (hb : b.length ≤ maxLogLen) :
    (∃ fuel calls, readLogLoop b fuel = some calls ∧ CallsGood b calls) ↔ LogOk b := by
  constructor
  · rintro ⟨fuel, calls, hloop, hgood⟩
    refine ⟨readLogLoop_ends_iff.mp ⟨fuel, calls, hloop⟩, fun i off hi hnext => ?_, fun recs hrecs c hc => ?_⟩
    · rcases le_or_gt (logAt b off).length 0 with hle | hpos
      · exact .inl hle
      · exact .inr (hgood.inside _ ((mem_calls_iff hloop).mpr ⟨i, off, hi, hnext, hpos, rfl⟩)).1
    · obtain rfl := hgood.all recs hrecs
      obtain ⟨i, off, -, hnext, -, rfl⟩ := (mem_calls_iff hloop).mp hc
      have hlt := (nextLog_ne_none hnext).1
      exact Nat.ne_of_lt hlt
  · intro hok
    obtain ⟨fuel, calls, hloop⟩ := readLogLoop_ends_iff.mpr hok.forward
    refine ⟨fuel, calls, hloop, fun c hc => ?_, fun recs hrecs => ?_⟩
    · obtain ⟨hpos, hin⟩ := inside_of_mem_calls hb hloop hc
      obtain ⟨i, off, hi, hnext, -, rfl⟩ := (mem_calls_iff hloop).mp hc
      rcases hok.long i off hi hnext with hle | hlong
      · exact absurd hle (not_le.mpr hpos)
      · exact ⟨hlong, hin⟩
    · exact collect_unique hloop (collect_of_records hb hrecs (hok.tail recs hrecs))

end Loop

section Replies

variable {fuel : ℕ} {rs : List LogReply}

/-- More fuel than needed changes nothing. -/
theorem readLogLoop_add {b : Bytes} {calls : List TpcmLog} {k : ℕ} (h : readLogLoop b fuel = some calls) :
    readLogLoop b (fuel + k) = some calls := collect_add h

/-- `read_log` makes the calls of its inner loop for the buffers it reads. -/
theorem of_readLog {x : ℤ × List (Bytes × List TpcmLog)} (h : readLog fuel rs = some x) :
    x.2.map Prod.fst = buffersRead rs ∧ ∀ p ∈ x.2, readLogLoop p.1 fuel = some p.2 := by
  induction rs generalizing x with
  | nil =>
      obtain rfl := Option.some.inj h
      exact ⟨rfl, fun p hp => absurd hp List.not_mem_nil⟩
  | cons r rs ih =>
      rw [readLog] at h
      rw [buffersRead]
      split at h
      · rename_i res b hr
        obtain ⟨calls, hcalls, h⟩ := Option.bind_eq_some_iff.mp h
        split_ifs at h ⊢ with hres
        · obtain ⟨y, hy, rfl⟩ := Option.map_eq_some_iff.mp h
          obtain ⟨hfst, hall⟩ := ih hy
          exact ⟨congrArg _ hfst, List.forall_mem_cons.mpr ⟨hcalls, hall⟩⟩
        · obtain rfl := Option.some.inj h
          exact ⟨rfl, List.forall_mem_cons.mpr ⟨hcalls, fun p hp => absurd hp List.not_mem_nil⟩⟩
      · obtain rfl := Option.some.inj h
        exact ⟨rfl, fun p hp => absurd hp List.not_mem_nil⟩

/-- `read_log` comes to its end where its inner loop does for every buffer. -/
theorem exists_readLog (h : ∀ b ∈ buffersRead rs, ∃ fuel calls, readLogLoop b fuel = some calls) :
    ∃ fuel, ∀ k, ∃ x, readLog (fuel + k) rs = some x := by
  induction rs with
  | nil => exact ⟨0, fun _ => ⟨_, rfl⟩⟩
  | cons r rs ih =>
      unfold buffersRead at h
      cases hr : tcskGetTpcmLog maxLogLen r with
      | none => exact ⟨0, fun k => ⟨(-1, []), by rw [readLog, hr]⟩⟩
      | some x =>
          obtain ⟨res, ob⟩ := x
          cases ob with
          | none => exact ⟨0, fun k => ⟨(-1, []), by rw [readLog, hr]⟩⟩
          | some b =>
              simp only [hr] at h
              obtain ⟨⟨fuel, calls, hcalls⟩, hrest⟩ := List.forall_mem_cons.mp h
              rcases eq_or_ne res tpcmOutSizeExceeded with hres | hres
              · rw [if_pos hres] at hrest
                obtain ⟨fuel', hall⟩ := ih hrest
                refine ⟨fuel + fuel', fun k => ?_⟩
                obtain ⟨x, hx⟩ := hall (fuel + k)
                rw [show fuel' + (fuel + k) = fuel + fuel' + k by omega] at hx
                refine ⟨(x.1, (b, calls) :: x.2), ?_⟩
                rw [readLog, hr]
                dsimp only
                rw [Nat.add_assoc, readLogLoop_add hcalls, ← Nat.add_assoc, Option.bind_some, if_pos hres, hx]
                rfl
              · refine ⟨fuel, fun k => ⟨(0, [(b, calls)]), ?_⟩⟩
                rw [readLog, hr]
                dsimp only
                rw [readLogLoop_add hcalls, Option.bind_some, if_neg hres]

end Replies

/-- **When reading the log is good.**  For every sequence of replies whose buffers are not longer than was
asked for: `read_log` comes to its end, having made good calls for every buffer it read, exactly when these
buffers are in order. -/
theorem read_log_good_iff (rs : List LogReply) (hlen : ∀ b ∈ buffersRead rs, b.length ≤ maxLogLen) :
    (∃ fuel x, readLog fuel rs = some x ∧ x.2.map Prod.fst = buffersRead rs ∧
        ∀ p ∈ x.2, CallsGood p.1 p.2) ↔
      ∀ b ∈ buffersRead rs, LogOk b := by
  constructor
  · rintro ⟨fuel, x, hx, hfst, hgood⟩ b hb
    have hin := hb
    rw [← hfst, List.mem_map] at hin
    obtain ⟨p, hp, rfl⟩ := hin
    exact (callsGood_iff (hlen _ hb)).mp ⟨fuel, p.2, (of_readLog hx).2 p hp, hgood p hp⟩
  · intro hok
    have hends : ∀ b ∈ buffersRead rs, ∃ fuel calls, readLogLoop b fuel = some calls ∧ CallsGood b calls :=
      fun b hb => (callsGood_iff (hlen b hb)).mpr (hok b hb)
    obtain ⟨fuel, hall⟩ := exists_readLog fun b hb => by
      obtain ⟨fuel, calls, hloop, -⟩ := hends b hb
      exact ⟨fuel, calls, hloop⟩
    obtain ⟨x, hx⟩ := hall 0
    obtain ⟨hfst, hcalls⟩ := of_readLog hx
    refine ⟨_, x, hx, hfst, fun p hp => ?_⟩
    have hb : p.1 ∈ buffersRead rs := hfst ▸ List.mem_map_of_mem hp
    obtain ⟨fuel', calls, hloop, hgood⟩ := hends p.1 hb
    obtain rfl : calls = p.2 := collect_unique hloop (hcalls p hp)
    exact hgood

/-- A reply with these bytes, and no more to come. -/
def LogReply.of (b : Bytes) : LogReply where
  arrives := true
  ret := 0
  length := UInt32.ofNat (16 + b.length)
  uaLog := fun p => b.getD p 0

/-- A record with four bytes of log. -/
def oneRecord : Bytes := netBytes 4 1 ++ netBytes 4 20 ++ netBytes 8 0 ++ [1, 2, 3, 4]

/-- One record of 20 bytes is passed on, and the reading ends. -/
theorem read_log_good_of_one_record :
    ∃ fuel x, readLog fuel [.of oneRecord] = some x ∧ x.2.map Prod.fst = buffersRead [.of oneRecord] ∧
      ∀ p ∈ x.2, CallsGood p.1 p.2 := by
  have hread : buffersRead [.of oneRecord] = [oneRecord] := by decide
  refine (read_log_good_iff [.of oneRecord] (by rw [hread]; decide)).mpr ?_
  rw [hread, List.forall_mem_singleton]
  have hnext : nextLog oneRecord 0 = some 20 ∧ nextLog oneRecord 20 = none := by decide
  refine ⟨readLogLoop_ends_iff.mp ⟨2, _, rfl⟩, fun i off hi hoff => ?_, fun recs hrecs c hc => ?_⟩
  · cases i with
    | zero =>
        obtain rfl := Option.some.inj hi
        exact .inr (by decide)
    | succ i =>
        rw [logOffset, orbit_succ, hnext.1, Option.bind_some] at hi
        cases i with
        | zero =>
            obtain rfl := Option.some.inj hi
            exact absurd hnext.2 hoff
        | succ i =>
            rw [orbit_succ, hnext.2] at hi
            cases hi
  · cases hrecs with
    | nil _ h => exact absurd h (by decide)
    | cons _ recs hlong hin hrest =>
        cases hrest with
        | nil _ h =>
            rw [List.mem_singleton] at hc
            rw [hc]
            decide
        | cons _ recs hlong' hin' hrest' => exact absurd hlong' (by decide)

/-- **A record of length 0 is read for ever:** `read_log` does not come back from 20 zeros. -/
theorem zeros_never_read :
    ¬ ∃ fuel x, readLog fuel [.of (List.replicate 20 0)] = some x ∧
      x.2.map Prod.fst = buffersRead [.of (List.replicate 20 0)] ∧ ∀ p ∈ x.2, CallsGood p.1 p.2 := by
  rintro ⟨fuel, x, hx, hfst, -⟩
  have hread : buffersRead [.of (List.replicate 20 0)] = [List.replicate 20 0] := by decide
  rw [hread, List.map_eq_singleton_iff] at hfst
  obtain ⟨p, hp, hb⟩ := hfst
  have hloop := (of_readLog hx).2 p (by rw [hp]; exact List.mem_singleton_self p)
  rw [hb] at hloop
  have hback : logOffset (List.replicate 20 0) 0 = logOffset (List.replicate 20 0) 1 := by decide
  exact absurd (readLogLoop_ends_iff.mp ⟨fuel, _, hloop⟩ 0 1 (by decide) hback) (by decide)

end Tcs
end TsbAgent
