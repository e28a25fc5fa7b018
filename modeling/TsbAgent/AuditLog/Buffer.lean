/-
# The buffer in front of the audit log

`tsb/kernel/platform/log/log.c` and `log_buff.c`.  `log_out_buffer` gives a record the next id
and appends it to `working`; the thread `buffer_flush` moves `working` to `flushing` under the
lock and hands the records to the flush function one by one.

Records that repeat are filtered: `log_out_buffer` keeps a copy of each record it lets through,
in `log_cache` and in the hash chains `cache_hash`, and drops a record of the same second with the
same bytes as any of them.  The copies stay when the records are flushed.  With more than 200
copies, `log_cache_clean` drops those that are more than two seconds old.  So a record may be
dropped for one that is not the last before it, and `cache_number` is the number of the copies
and not of the records that wait (`log_filter_reaches_back`).

`log_buffer_exactly_once` is about every order of the calls and the steps of the thread.
-/

import TsbAgent.AuditLog.Record
import TsbAgent.Lib.Run
import Mathlib.Algebra.BigOperators.Group.Finset.Piecewise
import Mathlib.Algebra.BigOperators.Ring.Finset
import Mathlib.Algebra.Order.Ring.Nat
import Mathlib.Logic.Function.Basic

namespace TsbAgent
namespace AuditLog

open Libc Run

def workingHashSize : ℕ := 1024
def cacheMaxNum : ℤ := 200

/-- `struct log_buffer` with `cur_log_id`, and the records handed to the flush function so far. -/
structure LogBuffer where
  cacheHash : ℕ → List LogData
  logCache : List LogData
  cacheNumber : ℤ
  working : List LogData
  workingNumber : ℤ
  flushing : List LogData
  curLogId : ℕ
  flushed : List LogData

def LogBuffer.init : LogBuffer := ⟨fun _ => [], [], 0, [], 0, [], 1, []⟩

/-- What a call of `log_out_buffer` finds: whether logging is stopped, whether `kzalloc` succeeds,
and the time of a `log_cache_clean`. -/
structure Call where
  stopped : Bool
  kzalloc : Bool
  curtime : ℤ

section Functions

variable (jhash : Bytes → UInt32)

/-- `hash_func`. -/
def hashFunc (data : Bytes) : ℕ := (jhash data).toNat % workingHashSize

/-- The test of `log_get_existed`. -/
def isRepeated (d c : LogData) : Bool :=
  c.time = d.time && c.data.length = d.data.length && memcmp c.data.length d.data c.data = 0

/-- `log_get_existed`. -/
def logGetExisted (s : LogBuffer) (d : LogData) (hash : ℕ) : Option LogData :=
  (s.cacheHash hash).find? (isRepeated d)

/-- `existed->repeats++`.  The copies are different records, so it is the one that was found. -/
def countRepeat (d c : LogData) : LogData := if isRepeated d c then { c with repeats := c.repeats + 1 } else c

/-- The cache with the repetition counted. -/
def addRepeat (s : LogBuffer) (d : LogData) (hash : ℕ) : LogBuffer :=
  { s with
    cacheHash := Function.update s.cacheHash hash ((s.cacheHash hash).map (countRepeat d))
    logCache := s.logCache.map (countRepeat d) }

/-- A copy that `log_cache_clean` drops. -/
def isOld (curtime : ℤ) (c : LogData) : Bool := curtime - c.time > 2

/-- `log_cache_clean`. -/
def logCacheClean (s : LogBuffer) (curtime : ℤ) : LogBuffer :=
  { s with
    cacheHash := fun i =>
      if i < workingHashSize then (s.cacheHash i).filter fun c => !isOld curtime c else s.cacheHash i
    logCache := s.logCache.filter fun c => !isOld curtime c
    cacheNumber :=
      s.cacheNumber - ∑ i ∈ Finset.range workingHashSize, ((s.cacheHash i).countP (isOld curtime) : ℤ) }

/-- `add_log_cache`. -/
def addLogCache (s : LogBuffer) (d : LogData) (hash : ℕ) : LogBuffer :=
  { s with
    cacheNumber := s.cacheNumber + 1
    cacheHash := Function.update s.cacheHash hash (d :: s.cacheHash hash)
    logCache := s.logCache ++ [d] }

/-- The record at the end of `working`. -/
def addWorking (s : LogBuffer) (d : LogData) : LogBuffer :=
  { s with
    curLogId := s.curLogId + 1
    workingNumber := s.workingNumber + 1
    working := s.working ++ [{ d with id := s.curLogId }] }

/-- `log_out_buffer`. -/
def logOutBuffer (s : LogBuffer) (c : Call) (d : LogData) : LogBuffer × ℤ :=
  let hash := hashFunc jhash d.data
  if d.data.length > 4096 then (s, -1)
  else if !c.kzalloc then (s, -1)
  else if c.stopped then (s, 0)
  else if (logGetExisted s d hash).isSome then
    (addRepeat s d hash, 0)
  else
    let s' := addWorking (addLogCache s d hash) d
    (if s'.cacheNumber > cacheMaxNum then logCacheClean s' c.curtime else s', 0)

/-- The section of `buffer_flush`: `list_splice_init`. -/
def bufferSplice (s : LogBuffer) : LogBuffer :=
  { s with flushing := s.working ++ s.flushing, working := [], workingNumber := 0 }

/-- A call of `log_out_buffer`; or `buffer_flush` takes the records, or flushes one. -/
inductive BufferAct
  | logOut (c : Call) (d : LogData)
  | splice
  | flush

/-- The thread takes records when it has flushed the last and `working_number` is positive. -/
def bufferStep (s : LogBuffer) : BufferAct → Option LogBuffer
  | .logOut c d => some (logOutBuffer jhash s c d).1
  | .splice => if s.flushing = [] ∧ s.workingNumber > 0 then some (bufferSplice s) else none
  | .flush =>
      match s.flushing with
      | [] => none
      | d :: rest => some { s with flushing := rest, flushed := s.flushed ++ [d] }

end Functions

/-! ### What the buffer is for -/

/-- The record is accepted: it is not too long, there is memory, and logging is not stopped. -/
def Accepted (c : Call) (d : LogData) : Prop :=
  d.data.length ≤ 4096 ∧ c.kzalloc = true ∧ c.stopped = false

/-- A record of the same second with the same bytes is in the cache. -/
def Duplicate (s : LogBuffer) (d : LogData) : Prop := ∃ c ∈ s.logCache, c.time = d.time ∧ c.data = d.data

instance (c : Call) (d : LogData) : Decidable (Accepted c d) := inferInstanceAs (Decidable (_ ∧ _))

instance (s : LogBuffer) (d : LogData) : Decidable (Duplicate s d) :=
  inferInstanceAs (Decidable (∃ c ∈ s.logCache, _))

/-- The record that a step lets through, with its id. -/
def passed (s : LogBuffer) : BufferAct → List LogData
  | .logOut c d => if Accepted c d ∧ ¬ Duplicate s d then [{ d with id := s.curLogId }] else []
  | _ => []

/-- The records that a run lets through. -/
def passedOf (jhash : Bytes → UInt32) : LogBuffer → List BufferAct → List LogData
  | _, [] => []
  | s, a :: as =>
      match bufferStep jhash s a with
      | none => []
      | some s' => passed s a ++ passedOf jhash s' as

/-- The records on their way, in the order in which they are flushed. -/
def onTheWay (s : LogBuffer) : List LogData := s.flushed ++ s.flushing ++ s.working

/-- The invariant: the chains hold the copies of the cache, newest first, the copies are different
records, and the counters count. -/
structure BufferInv (jhash : Bytes → UInt32) (s : LogBuffer) : Prop where
  chains : ∀ i, s.cacheHash i = (s.logCache.filter fun c => hashFunc jhash c.data = i).reverse
  distinct : s.logCache.Pairwise fun c d => ¬ (c.time = d.time ∧ c.data = d.data)
  number : s.cacheNumber = s.logCache.length
  waiting : s.workingNumber = s.working.length

section Filter

variable {jhash : Bytes → UInt32} {s s' : LogBuffer} {c d : LogData} {curtime : ℤ}

theorem isRepeated_iff : isRepeated d c = true ↔ c.time = d.time ∧ c.data = d.data := by
  simp only [isRepeated, Bool.and_eq_true, decide_eq_true_eq]
  constructor
  · rintro ⟨⟨htime, hlen⟩, hcmp⟩
    rw [memcmp_eq_zero hlen.le le_rfl, hlen, List.take_length, ← hlen, List.take_length] at hcmp
    exact ⟨htime, hcmp.symm⟩
  · rintro ⟨htime, hdata⟩
    rw [hdata]
    exact ⟨⟨htime, rfl⟩, (memcmp_eq_zero le_rfl le_rfl).mpr rfl⟩

theorem hashFunc_lt (data : Bytes) : hashFunc jhash data < workingHashSize :=
  Nat.mod_lt _ (by decide)

theorem BufferInv.mem_chain (h : BufferInv jhash s) {i : ℕ} :
    c ∈ s.cacheHash i ↔ c ∈ s.logCache ∧ hashFunc jhash c.data = i := by
  rw [h.chains, List.mem_reverse, List.mem_filter, decide_eq_true_iff]

/-- **The look into the chain finds a duplicate wherever it is in the cache.** -/
theorem BufferInv.existed_iff (h : BufferInv jhash s) (d : LogData) :
    (logGetExisted s d (hashFunc jhash d.data)).isSome = true ↔ Duplicate s d := by
  rw [logGetExisted, List.find?_isSome]
  constructor
  · rintro ⟨c, hc, hrep⟩
    exact ⟨c, (h.mem_chain.mp hc).1, isRepeated_iff.mp hrep⟩
  · rintro ⟨c, hc, htime, hdata⟩
    exact ⟨c, h.mem_chain.mpr ⟨hc, by rw [hdata]⟩, isRepeated_iff.mpr ⟨htime, hdata⟩⟩

theorem countRepeat_data : (countRepeat d c).data = c.data := by
  rw [countRepeat]
  split <;> rfl

theorem countRepeat_time : (countRepeat d c).time = c.time := by
  rw [countRepeat]
  split <;> rfl

/-- The state after a record is let through. -/
def pushed (jhash : Bytes → UInt32) (s : LogBuffer) (d : LogData) : LogBuffer :=
  addWorking (addLogCache s d (hashFunc jhash d.data)) d

/-- A repetition is counted at a copy. -/
theorem BufferInv.repeats (h : BufferInv jhash s) (d : LogData) :
    BufferInv jhash (addRepeat s d (hashFunc jhash d.data)) := by
  constructor
  · intro i
    have hfilter : (s.logCache.map (countRepeat d)).filter (fun c => hashFunc jhash c.data = i) =
        (s.logCache.filter fun c => hashFunc jhash c.data = i).map (countRepeat d) := by
      rw [List.filter_map]
      congr 1
      refine List.filter_congr fun c _ => ?_
      rw [Function.comp_apply, countRepeat_data]
    by_cases hi : i = hashFunc jhash d.data
    · subst hi
      simp only [addRepeat, Function.update_self]
      rw [hfilter, h.chains, List.map_reverse]
    · simp only [addRepeat, Function.update_of_ne hi]
      -- no copy in another chain is the record that is repeated
      have hsame : (s.logCache.filter fun c => hashFunc jhash c.data = i).map (countRepeat d) =
          s.logCache.filter fun c => hashFunc jhash c.data = i := by
        refine (List.map_congr_left (g := id) fun c hc => ?_).trans (List.map_id _)
        rw [countRepeat, if_neg]
        · rfl
        · intro hrep
          have hhash := of_decide_eq_true (List.mem_filter.mp hc).2
          rw [(isRepeated_iff.mp hrep).2] at hhash
          exact hi hhash.symm
      rw [hfilter, hsame, h.chains]
  · rw [addRepeat, List.pairwise_map]
    simpa only [countRepeat_data, countRepeat_time] using h.distinct
  · rw [addRepeat, List.length_map]
    exact h.number
  · exact h.waiting

/-- A record that is let through is copied and waits. -/
theorem BufferInv.push (h : BufferInv jhash s) (hnew : ¬ Duplicate s d) :
    BufferInv jhash (pushed jhash s d) := by
  constructor
  · intro i
    simp only [pushed, addWorking, addLogCache, List.filter_append, List.reverse_append]
    by_cases hi : hashFunc jhash d.data = i
    · subst hi
      simp [h.chains]
    · simp [Function.update_of_ne (Ne.symm hi), h.chains, hi]
  · refine List.pairwise_append.mpr ⟨h.distinct, List.pairwise_singleton .., fun c hc d' hd' => ?_⟩
    obtain rfl := List.mem_singleton.mp hd'
    exact fun hsame => hnew ⟨c, hc, hsame⟩
  · simp [pushed, addWorking, addLogCache, h.number]
  · simp [pushed, addWorking, addLogCache, h.waiting]

/-- The elements of a list, counted chain by chain. -/
theorem sum_countP_chains {α : Type} (hash : α → ℕ) (p : α → Bool) {n : ℕ} {l : List α}
    (hlt : ∀ x ∈ l, hash x < n) :
    ∑ i ∈ Finset.range n, (l.filter fun x => hash x = i).countP p = l.countP p := by
  induction l with
  | nil => exact Finset.sum_const_zero
  | cons x l ih =>
      obtain ⟨hx, hl⟩ := List.forall_mem_cons.mp hlt
      have hcons : ∀ i, ((x :: l).filter fun y => hash y = i).countP p =
          (l.filter fun y => hash y = i).countP p + if hash x = i then (if p x then 1 else 0) else 0 := by
        intro i
        by_cases hi : hash x = i <;> simp [hi, List.countP_cons]
      rw [Finset.sum_congr rfl fun i _ => hcons i, Finset.sum_add_distrib, ih hl, Finset.sum_ite_eq,
        if_pos (Finset.mem_range.mpr hx), List.countP_cons]

/-- The copies that are too old are dropped and no longer counted. -/
theorem BufferInv.clean (h : BufferInv jhash s) (curtime : ℤ) : BufferInv jhash (logCacheClean s curtime) := by
  constructor
  · intro i
    have hfilter : ((s.cacheHash i).filter fun c => !isOld curtime c) =
        ((s.logCache.filter fun c => !isOld curtime c).filter fun c => hashFunc jhash c.data = i).reverse := by
      rw [h.chains, List.filter_reverse, List.filter_filter, List.filter_filter]
      simp only [Bool.and_comm]
    by_cases hi : i < workingHashSize
    · simp only [logCacheClean, if_pos hi]
      exact hfilter
    · -- a chain that no record hashes to is empty
      have hempty : s.cacheHash i = [] := by
        refine List.eq_nil_iff_forall_not_mem.mpr fun c hc => hi ?_
        rw [← (h.mem_chain.mp hc).2]
        exact hashFunc_lt c.data
      rw [hempty] at hfilter
      simp only [logCacheClean, if_neg hi]
      exact hempty.trans hfilter
  · exact h.distinct.filter _
  · have hsum : ∑ i ∈ Finset.range workingHashSize, (s.cacheHash i).countP (isOld curtime) =
        s.logCache.countP (isOld curtime) := by
      rw [← sum_countP_chains (fun c : LogData => hashFunc jhash c.data) _ fun c _ => hashFunc_lt c.data]
      refine Finset.sum_congr rfl fun i _ => ?_
      rw [h.chains, List.countP_reverse]
    have hlen := List.length_eq_countP_add_countP (isOld curtime) (l := s.logCache)
    have hkept : (s.logCache.filter fun c => !isOld curtime c).length =
        s.logCache.countP fun c => !isOld curtime c := List.countP_eq_length_filter.symm
    simp only [logCacheClean]
    rw [← Nat.cast_sum, hsum, hkept, h.number]
    simp only [Bool.not_eq_true, Bool.decide_eq_false] at hlen
    omega
  · exact h.waiting

/-- **What `log_out_buffer` does:** a record that is not accepted changes nothing, a duplicate is counted,
and any other is let through. -/
theorem BufferInv.logOut_cases (h : BufferInv jhash s) (c : Call) (d : LogData) :
    ((logOutBuffer jhash s c d).1 = s ∧ passed s (.logOut c d) = []) ∨
    ((logOutBuffer jhash s c d).1 = addRepeat s d (hashFunc jhash d.data) ∧ passed s (.logOut c d) = []) ∨
    (((logOutBuffer jhash s c d).1 = pushed jhash s d ∨
        (logOutBuffer jhash s c d).1 = logCacheClean (pushed jhash s d) c.curtime) ∧
      passed s (.logOut c d) = [{ d with id := s.curLogId }] ∧ ¬ Duplicate s d) := by
  have hrefuse : ¬ Accepted c d → passed s (.logOut c d) = [] := fun hn => if_neg fun hpass => hn hpass.1
  rw [logOutBuffer]
  by_cases hlen : d.data.length > 4096
  · rw [if_pos hlen]
    exact .inl ⟨rfl, hrefuse fun hacc => absurd hacc.1 (not_le.mpr hlen)⟩
  rw [if_neg hlen]
  by_cases hmem : c.kzalloc = true
  · cases hstopped : c.stopped with
    | true =>
        rw [hmem]
        exact .inl ⟨rfl, hrefuse fun hacc => absurd (hacc.2.2.symm.trans hstopped) Bool.false_ne_true⟩
    | false =>
        rw [hmem]
        simp only [Bool.not_true, Bool.false_eq_true, ↓reduceIte]
        by_cases hdup : Duplicate s d
        · rw [if_pos ((h.existed_iff d).mpr hdup)]
          exact .inr (.inl ⟨rfl, if_neg fun hpass => hpass.2 hdup⟩)
        · rw [if_neg fun hfound => hdup ((h.existed_iff d).mp hfound)]
          refine .inr (.inr ⟨?_, if_pos ⟨⟨not_lt.mp hlen, hmem, hstopped⟩, hdup⟩, hdup⟩)
          split
          · exact .inr rfl
          · exact .inl rfl
  · rw [Bool.not_eq_true] at hmem
    rw [hmem]
    exact .inl ⟨rfl, hrefuse fun hacc => absurd (hmem.symm.trans hacc.2.1) Bool.false_ne_true⟩

/-- **A step** keeps the invariant, and what it lets through goes to the end of the way. -/
theorem BufferInv.step (h : BufferInv jhash s) {a : BufferAct} (hs : bufferStep jhash s a = some s') :
    BufferInv jhash s' ∧ onTheWay s' = onTheWay s ++ passed s a ∧
      s'.curLogId = s.curLogId + (passed s a).length := by
  cases a with
  | logOut c d =>
      obtain rfl := Option.some.inj hs
      obtain ⟨hstate, hpass⟩ | ⟨hstate, hpass⟩ | ⟨hstate | hstate, hpass, hnew⟩ := h.logOut_cases c d <;>
        rw [hstate, hpass]
      · exact ⟨h, (List.append_nil _).symm, rfl⟩
      · exact ⟨h.repeats d, (List.append_nil _).symm, rfl⟩
      · exact ⟨h.push hnew, (List.append_assoc ..).symm, rfl⟩
      · exact ⟨(h.push hnew).clean _, (List.append_assoc ..).symm, rfl⟩
  | splice =>
      rw [bufferStep] at hs
      split at hs
      · rename_i hready
        obtain rfl := Option.some.inj hs
        refine ⟨⟨h.chains, h.distinct, h.number, rfl⟩, ?_, rfl⟩
        simp [onTheWay, bufferSplice, passed, hready.1]
      · cases hs
  | flush =>
      rw [bufferStep] at hs
      cases hflushing : s.flushing with
      | nil =>
          rw [hflushing] at hs
          cases hs
      | cons d rest =>
          rw [hflushing] at hs
          obtain rfl := Option.some.inj hs
          refine ⟨⟨h.chains, h.distinct, h.number, h.waiting⟩, ?_, rfl⟩
          simp [onTheWay, passed, hflushing]

/-- The cache has copies of the records of a list. -/
def CopiesOf (l : List LogData) (s : LogBuffer) : Prop :=
  ∀ c ∈ s.logCache, ∃ d ∈ l, d.time = c.time ∧ d.data = c.data

/-- A step puts copies into the cache only of what it lets through. -/
theorem BufferInv.copies_step (h : BufferInv jhash s) {a : BufferAct} (hs : bufferStep jhash s a = some s')
    {l : List LogData} (hcopies : CopiesOf l s) : CopiesOf (l ++ passed s a) s' := by
  have hold : CopiesOf (l ++ passed s a) s := by
    intro c hc
    obtain ⟨d, hd, hsame⟩ := hcopies c hc
    exact ⟨d, List.mem_append_left _ hd, hsame⟩
  cases a with
  | logOut c d =>
      obtain rfl := Option.some.inj hs
      have hpush : passed s (.logOut c d) = [{ d with id := s.curLogId }] →
          CopiesOf (l ++ passed s (.logOut c d)) (pushed jhash s d) := by
        intro hpass c' hc'
        rcases List.mem_append.mp hc' with hc' | hc'
        · exact hold c' hc'
        · obtain rfl := List.mem_singleton.mp hc'
          rw [hpass]
          exact ⟨_, List.mem_append_right _ (List.mem_singleton_self _), rfl, rfl⟩
      obtain ⟨hstate, -⟩ | ⟨hstate, -⟩ | ⟨hstate | hstate, hpass, -⟩ := h.logOut_cases c d <;> rw [hstate]
      · exact hold
      · intro c' hc'
        obtain ⟨c₀, hc₀, rfl⟩ := List.mem_map.mp hc'
        rw [countRepeat_time, countRepeat_data]
        exact hold c₀ hc₀
      · exact hpush hpass
      · exact fun c' hc' => hpush hpass c' (List.mem_filter.mp hc').1
  | splice =>
      rw [bufferStep] at hs
      split at hs
      · obtain rfl := Option.some.inj hs
        exact hold
      · cases hs
  | flush =>
      rw [bufferStep] at hs
      split at hs
      · cases hs
      · obtain rfl := Option.some.inj hs
        exact hold

end Filter

/-! ### Every run -/

/-- The buffer delivers: the records let through so far, numbered in their order, are flushed, being
flushed or waiting in that order, and the thread can flush them all; the cache has copies of some of
them, as many as `cache_number`. -/
structure Delivers (jhash : Bytes → UInt32) (as : List BufferAct) (s : LogBuffer) : Prop where
  inOrder : onTheWay s = passedOf jhash .init as
  ids : (passedOf jhash .init as).map LogData.id = List.range' 1 (passedOf jhash .init as).length
  drains : ∃ bs s', (∀ a ∈ bs, a = .splice ∨ a = .flush) ∧ run (bufferStep jhash) s bs = some s' ∧
    s'.flushed = passedOf jhash .init as
  number : s.cacheNumber = s.logCache.length
  copies : CopiesOf (passedOf jhash .init as) s

section Runs

variable {jhash : Bytes → UInt32} {s s' : LogBuffer} {as : List BufferAct}

theorem passedOf_cons {a : BufferAct} (hs : bufferStep jhash s a = some s') :
    passedOf jhash s (a :: as) = passed s a ++ passedOf jhash s' as := by
  rw [passedOf, hs]

theorem BufferInv.run (h : BufferInv jhash s) (hrun : Run.run (bufferStep jhash) s as = some s') :
    BufferInv jhash s' ∧ onTheWay s' = onTheWay s ++ passedOf jhash s as ∧
      (passedOf jhash s as).map LogData.id = List.range' s.curLogId (passedOf jhash s as).length := by
  induction as generalizing s with
  | nil =>
      obtain rfl := Option.some.inj hrun
      exact ⟨h, (List.append_nil _).symm, rfl⟩
  | cons a as ih =>
      rw [run_cons] at hrun
      obtain ⟨s₁, h₁, h₂⟩ := Option.bind_eq_some_iff.mp hrun
      obtain ⟨hinv, hway, hid⟩ := h.step h₁
      obtain ⟨hinv', hway', hids⟩ := ih hinv h₂
      have hfirst : (passed s a).map LogData.id = List.range' s.curLogId (passed s a).length := by
        cases a with
        | logOut c d =>
            rw [passed]
            split <;> rfl
        | _ => rfl
      refine ⟨hinv', ?_, ?_⟩
      · rw [hway', hway, passedOf_cons h₁, List.append_assoc]
      · rw [passedOf_cons h₁, List.map_append, hfirst, hids, hid, List.length_append,
          List.range'_append_1]

/-- The thread flushes what it has taken. -/
theorem exists_flush_run (jhash : Bytes → UInt32) (s : LogBuffer) : ∃ bs,
    (∀ a ∈ bs, a = BufferAct.splice ∨ a = .flush) ∧ run (bufferStep jhash) s bs =
      some { s with flushing := [], flushed := s.flushed ++ s.flushing } := by
  obtain ⟨n, hn⟩ : ∃ n, s.flushing.length = n := ⟨_, rfl⟩
  induction n generalizing s with
  | zero =>
      have hnil := List.length_eq_zero_iff.mp hn
      refine ⟨[], fun a ha => absurd ha List.not_mem_nil, ?_⟩
      rw [run_nil, hnil, List.append_nil, ← hnil]
  | succ n ih =>
      obtain ⟨d, rest, hcons⟩ := List.exists_cons_of_length_eq_add_one hn
      have hstep : bufferStep jhash s .flush =
          some { s with flushing := rest, flushed := s.flushed ++ [d] } := by
        rw [bufferStep, hcons]
      rw [hcons, List.length_cons] at hn
      obtain ⟨bs, hbs, hrun⟩ := ih { s with flushing := rest, flushed := s.flushed ++ [d] } (Nat.succ.inj hn)
      refine ⟨.flush :: bs, fun a ha => ?_, ?_⟩
      · rcases List.mem_cons.mp ha with rfl | ha
        · exact .inr rfl
        · exact hbs a ha
      · rw [run_cons_of_step hstep, hrun, hcons]
        simp

/-- The thread, left to itself, flushes everything on the way. -/
theorem BufferInv.drains (h : BufferInv jhash s) : ∃ bs s',
    (∀ a ∈ bs, a = BufferAct.splice ∨ a = .flush) ∧ Run.run (bufferStep jhash) s bs = some s' ∧
      s'.flushed = onTheWay s := by
  obtain ⟨bs₁, hbs₁, hrun₁⟩ := exists_flush_run jhash s
  by_cases hworking : s.working = []
  · refine ⟨bs₁, _, hbs₁, hrun₁, ?_⟩
    rw [onTheWay, hworking, List.append_nil]
  · have hready : s.workingNumber > 0 := by
      have hlen := List.length_pos_of_ne_nil hworking
      rw [h.waiting]
      omega
    let s₁ : LogBuffer := { s with flushing := [], flushed := s.flushed ++ s.flushing }
    have hsplice : bufferStep jhash s₁ .splice = some (bufferSplice s₁) := if_pos ⟨rfl, hready⟩
    obtain ⟨bs₂, hbs₂, hrun₂⟩ := exists_flush_run jhash (bufferSplice s₁)
    have hrun : Run.run (bufferStep jhash) s (bs₁ ++ .splice :: bs₂) =
        Run.run (bufferStep jhash) (bufferSplice s₁) bs₂ := by
      rw [run_append, hrun₁, Option.bind_some, run_cons_of_step hsplice]
    refine ⟨_, _, fun a ha => ?_, hrun.trans hrun₂, ?_⟩
    · rcases List.mem_append.mp ha with ha | ha
      · exact hbs₁ a ha
      · rcases List.mem_cons.mp ha with rfl | ha
        · exact .inl rfl
        · exact hbs₂ a ha
    · simp [onTheWay, s₁, bufferSplice]

/-- The cache has copies of records that were let through. -/
theorem BufferInv.copies_run {l : List LogData} (h : BufferInv jhash s) (hcopies : CopiesOf l s)
    (hrun : Run.run (bufferStep jhash) s as = some s') : CopiesOf (l ++ passedOf jhash s as) s' := by
  induction as generalizing s l with
  | nil =>
      obtain rfl := Option.some.inj hrun
      rwa [passedOf, List.append_nil]
  | cons a as ih =>
      rw [run_cons] at hrun
      obtain ⟨s₁, h₁, h₂⟩ := Option.bind_eq_some_iff.mp hrun
      rw [passedOf_cons h₁, ← List.append_assoc]
      exact ih (h.step h₁).1 (h.copies_step h₁ hcopies) h₂

/-- **Buffered log output is exactly once:** in every run of calls and steps of the thread. -/
theorem log_buffer_exactly_once (hrun : run (bufferStep jhash) .init as = some s) :
    Delivers jhash as s := by
  have hinit : BufferInv jhash .init := ⟨fun _ => rfl, List.Pairwise.nil, rfl, rfl⟩
  obtain ⟨hinv, hway, hids⟩ := hinit.run hrun
  have hpassed : onTheWay s = passedOf jhash .init as := hway
  obtain ⟨bs, s', hbs, hrun', hflushed⟩ := hinv.drains
  have hcopies : CopiesOf ([] ++ passedOf jhash .init as) s :=
    hinit.copies_run (fun c hc => absurd hc List.not_mem_nil) hrun
  exact ⟨hpassed, hids, ⟨bs, s', hbs, hrun', hflushed.trans hpassed⟩, hinv.number, hcopies⟩

end Runs

/-- Two records of one second, the first of them twice. -/
def sampleRun : List BufferAct :=
  [.logOut ⟨false, true, 7⟩ ⟨0, 7, 0, [1]⟩, .logOut ⟨false, true, 7⟩ ⟨0, 7, 0, [2]⟩,
    .logOut ⟨false, true, 7⟩ ⟨0, 7, 0, [1]⟩, .splice, .flush, .flush]

theorem log_buffer_exactly_once_sample : ∃ s, run (bufferStep fun _ => 0) .init sampleRun = some s ∧
    Delivers (fun _ => 0) sampleRun s :=
  ⟨_, rfl, log_buffer_exactly_once rfl⟩

/-- The third record is dropped, though the one before it has other bytes; and the cache counts two
when no record waits. -/
theorem log_filter_reaches_back : ∃ s, run (bufferStep fun _ => 0) .init sampleRun = some s ∧
    s.flushed = [⟨0, 7, 1, [1]⟩, ⟨0, 7, 2, [2]⟩] ∧ s.flushing = [] ∧ s.working = [] ∧
      s.cacheNumber = 2 :=
  ⟨_, rfl, rfl, rfl, rfl, rfl⟩

end AuditLog
end TsbAgent
