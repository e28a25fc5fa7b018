/-
# Replies to asynchronous commands

Many callers, one proxy.  An asynchronous `tdd_send_command` takes a header, writes the
address of its output buffer into it, links a wait node and leaves the sequence number and
the header's address in the mailbox (`struct share_memory`).  The proxy (`os_handle` in
`proxy/src/comm_driver.c`) picks the command up, remembering both addresses, and later
writes the lengths into the header and the data into the buffer; then it sends a notice
with the sequence number, which `notify` looks up among the wait nodes.

A caller that gives up returns its header, and its buffer after that, while the proxy
still has their addresses.  If they are given to the next command before the reply comes,
the reply lands there (`async_late_reply_seen_by_other`).  `async_replies_reach_own`: when
every reply is written before its caller returns, replies reach their own callers only.
-/

import TsbAgent.Lib.Chained
import TsbAgent.Lib.Run
import TsbAgent.Lib.Libc
import TsbAgent.Tdd.SendCommand

namespace TsbAgent
namespace Tdd

open Libc Chained

/-- What the TPCM answers: `out_length`, `out_return`, and the data. -/
structure Reply where
  length : ℤ
  ret : ℤ
  data : Bytes

/-- The fields of `struct cmd_header` that matter to the reply. -/
structure HeaderCell where
  outputAddr : ℕ
  outLength : ℤ
  outReturn : ℤ

/-- Where a call is: its node is linked; it is in `send_command`; it waits for the notice;
it has returned a value and `*pout_length`; its buffer has been freed. -/
inductive Phase
  | linked
  | sending
  | waiting
  | returned (ret len : ℤ)
  | released
deriving DecidableEq

/-- The call has not returned. -/
def Phase.live : Phase → Bool
  | linked | sending | waiting => true
  | returned _ _ | released => false

/-- How far the proxy is with a command. -/
inductive Stage
  | picked
  | headerWritten
  | written
deriving DecidableEq

/-- What the proxy remembers of a command: which one it is, where its header is, and the
output address that it read there. -/
structure Job where
  id : ℕ
  header : ℕ
  buffer : ℕ
  stage : Stage

/-- The state: the calls by number, the owners of headers and buffers (the pools of
`TsbAgent.Tdd.Shm` give out what has no owner), the memory, the wait nodes, the mailbox with
its mutex and messages, and the jobs of the proxy. -/
structure Async where
  next : ℕ
  header : ℕ → ℕ
  buffer : ℕ → Option ℕ
  poutLength : ℕ → ℤ
  handled : ℕ → Bool
  phase : ℕ → Phase
  headerOwner : ℕ → Option ℕ
  bufferOwner : ℕ → Option ℕ
  cells : ℕ → HeaderCell
  memory : ℕ → Bytes
  sent : Table ℕ ℕ
  mutex : Option ℕ
  mailbox : Option (ℕ × ℕ)
  messages : ℕ
  njobs : ℕ
  jobs : ℕ → Job

/-- The sequence number that the `i`-th call gets from `current_seq`. -/
def sequence (i : ℕ) : ℕ := (i + 1) % 2 ^ 64

/-- The steps of the callers and of the proxy. -/
inductive AsyncAct
  | start (header : ℕ) (buffer : Option ℕ) (poutLength : ℤ)
  | post (i : ℕ)
  | sendReturns (i : ℕ) (ok : Bool)
  | wake (i : ℕ)
  | timeout (i : ℕ)
  | release (i : ℕ)
  | pickup
  | writeHeader (k : ℕ)
  | writeBuffer (k : ℕ)
  | notice (k : ℕ)

namespace Async

variable (s : Async)

/-- The header of the call goes back to the pool, its node out of the list, and the call
returns. -/
def leave (i : ℕ) (ret len : ℤ) : Async :=
  { s with
    phase := Function.update s.phase i (.returned ret len)
    headerOwner := Function.update s.headerOwner (s.header i) none
    sent := s.sent.eraseFirst (sequence i % 64) (· = i) }

/-- What a call returns that has been noticed. -/
def result (i : ℕ) : ℤ × ℤ :=
  let cell := s.cells (s.header i)
  if cell.outReturn ≠ 0 then (cell.outReturn, s.poutLength i)
  else if cell.outLength > s.poutLength i then (tpcmErrorExceed, s.poutLength i)
  else (0, cell.outLength)

/-- `notify`: the first node of the chain with the sequence number is marked. -/
def notify (seq : ℕ) : Async :=
  match (s.sent (seq % 64)).find? fun i => sequence i = seq with
  | none => s
  | some i => { s with handled := Function.update s.handled i true }

end Async

/-- One step; `reply i` is the TPCM's reply to command `i`. -/
def asyncStep (reply : ℕ → Reply) (s : Async) : AsyncAct → Option Async
  | .start header buffer poutLength =>
      if s.headerOwner header = none ∧ (∀ b ∈ buffer, s.bufferOwner b = none) then
        some { s with
          next := s.next + 1
          header := Function.update s.header s.next header
          buffer := Function.update s.buffer s.next buffer
          poutLength := Function.update s.poutLength s.next poutLength
          handled := Function.update s.handled s.next false
          phase := Function.update s.phase s.next .linked
          headerOwner := Function.update s.headerOwner header (some s.next)
          bufferOwner := match buffer with
            | none => s.bufferOwner
            | some b => Function.update s.bufferOwner b (some s.next)
          -- without an output buffer the address of an earlier command stays in the header
          cells := match buffer with
            | none => s.cells
            | some b => Function.update s.cells header { s.cells header with outputAddr := b }
          sent := s.sent.push (sequence s.next % 64) s.next }
      else none
  | .post i =>
      if s.phase i = .linked ∧ s.mutex = none then
        some { s with
          phase := Function.update s.phase i .sending
          mutex := some i
          mailbox := some (i, s.header i)
          messages := s.messages + 1 }
      else none
  | .sendReturns i ok =>
      if s.phase i = .sending then
        if ok then some { s with phase := Function.update s.phase i .waiting, mutex := none }
        else some { s.leave i tpcmErrorSendFail (s.poutLength i) with mutex := none }
      else none
  | .wake i =>
      if s.phase i = .waiting ∧ s.handled i then some (s.leave i (s.result i).1 (s.result i).2)
      else none
  | .timeout i =>
      if s.phase i = .waiting ∧ ¬ s.handled i then
        some (s.leave i tpcmErrorTimeout (s.poutLength i))
      else none
  | .release i =>
      match s.phase i with
      | .returned _ _ => some { s with
          phase := Function.update s.phase i .released
          bufferOwner := match s.buffer i with
            | none => s.bufferOwner
            | some b => Function.update s.bufferOwner b none }
      | _ => none
  | .pickup =>
      match s.mailbox, s.messages with
      | some (i, header), messages + 1 => some { s with
          messages
          njobs := s.njobs + 1
          jobs := Function.update s.jobs s.njobs ⟨i, header, (s.cells header).outputAddr, .picked⟩ }
      | _, _ => none
  | .writeHeader k =>
      if k < s.njobs ∧ (s.jobs k).stage = .picked then
        let j := s.jobs k
        some { s with
          cells := Function.update s.cells j.header
            { s.cells j.header with outLength := (reply j.id).length, outReturn := (reply j.id).ret }
          jobs := Function.update s.jobs k { j with stage := .headerWritten } }
      else none
  | .writeBuffer k =>
      if k < s.njobs ∧ (s.jobs k).stage = .headerWritten then
        let j := s.jobs k
        some { s with
          memory := Function.update s.memory j.buffer (reply j.id).data
          jobs := Function.update s.jobs k { j with stage := .written } }
      else none
  | .notice k =>
      if k < s.njobs ∧ (s.jobs k).stage = .written then some (s.notify (sequence (s.jobs k).id))
      else none

/-- Nothing has happened; the memory may hold anything. -/
structure AsyncInit (s : Async) : Prop where
  next : s.next = 0
  phase : ∀ i, s.phase i = .released
  sent : s.sent = Table.empty
  mailbox : s.mailbox = none
  njobs : s.njobs = 0

/-! ### What the callers rely on -/

/-- The call has not returned. -/
def Async.Live (s : Async) (i : ℕ) : Prop := (s.phase i).live = true

/-- **A caller that has returned 0 sees the reply to its own command.** -/
def SeesOwn (reply : ℕ → Reply) (s : Async) : Prop :=
  ∀ i len, s.phase i = .returned 0 len → len = (reply i).length ∧ (reply i).ret = 0 ∧
    ∀ b, s.buffer i = some b → s.memory b = (reply i).data

/-- **What is written is the command's own, or nobody's**, and a notice marks only the node
with its sequence number. -/
def ReachesOwn (s s' : Async) : AsyncAct → Prop
  | .writeHeader k => ∀ i, s.headerOwner (s.jobs k).header = some i → i = (s.jobs k).id
  | .writeBuffer k => ∀ i, s.bufferOwner (s.jobs k).buffer = some i → i = (s.jobs k).id
  | .notice k => ∀ i, s'.handled i ≠ s.handled i → sequence i = sequence (s.jobs k).id
  | _ => True

/-- The condition: a command comes with an output buffer, there are fewer than 2⁶⁴ of
them, and the proxy writes to a header or a buffer while the caller has not returned. -/
def InTime (s : Async) : AsyncAct → Prop
  | .start _ buffer _ => buffer ≠ none ∧ s.next < 2 ^ 64
  | .writeHeader k | .writeBuffer k => s.Live (s.jobs k).id
  | _ => True

/-! ### The invariant -/

/-- The header of a call holds the reply to its command. -/
def HeaderDelivered (reply : ℕ → Reply) (s : Async) (i : ℕ) : Prop :=
  (s.cells (s.header i)).outLength = (reply i).length ∧ (s.cells (s.header i)).outReturn = (reply i).ret

/-- The output buffer of a call holds the reply to its command. -/
def BufferDelivered (reply : ℕ → Reply) (s : Async) (i : ℕ) : Prop :=
  ∀ b, s.buffer i = some b → s.memory b = (reply i).data

/-- **The invariant of the runs in time.**  Headers and buffers belong to one call each;
what the mailbox and the proxy remember of a call that has not returned is right; what has
been written for such a call is there. -/
structure AsyncInv (reply : ℕ → Reply) (s : Async) : Prop where
  small : s.next ≤ 2 ^ 64
  fresh : ∀ i, s.next ≤ i → s.phase i = .released
  headerOwned : ∀ i, s.Live i → s.headerOwner (s.header i) = some i
  bufferOwned : ∀ i b, s.phase i ≠ .released → s.buffer i = some b → s.bufferOwner b = some i
  outputAddr : ∀ i, s.Live i → s.buffer i = some (s.cells (s.header i)).outputAddr
  mailbox : ∀ i h, s.mailbox = some (i, h) → i < s.next ∧ (s.Live i → h = s.header i)
  job : ∀ k < s.njobs, (s.jobs k).id < s.next ∧ (s.Live (s.jobs k).id →
    (s.jobs k).header = s.header (s.jobs k).id ∧ s.buffer (s.jobs k).id = some (s.jobs k).buffer)
  wroteHeader : ∀ k < s.njobs, (s.jobs k).stage ≠ .picked → s.Live (s.jobs k).id →
    HeaderDelivered reply s (s.jobs k).id
  wroteBuffer : ∀ k < s.njobs, (s.jobs k).stage = .written → s.Live (s.jobs k).id →
    BufferDelivered reply s (s.jobs k).id
  placed : s.sent.Placed (fun i => sequence i % 64)
  linked : ∀ i ∈ s.sent.contents, s.Live i
  handled : ∀ i, s.Live i → s.handled i = true →
    HeaderDelivered reply s i ∧ BufferDelivered reply s i
  seesOwn : SeesOwn reply s

section Steps

variable {reply : ℕ → Reply} {s s' : Async} {i j k : ℕ}

theorem Async.Live.lt (h : AsyncInv reply s) (hi : s.Live i) : i < s.next := by
  by_contra hge
  have hr := h.fresh i (not_lt.mp hge)
  simp [Async.Live, hr, Phase.live] at hi

theorem Async.Live.ne_released (hi : s.Live i) : s.phase i ≠ .released := by
  intro hr
  simp [Async.Live, hr, Phase.live] at hi

/-- Two calls that have not returned have different headers. -/
theorem AsyncInv.header_inj (h : AsyncInv reply s) (hi : s.Live i) (hj : s.Live j)
    (he : s.header i = s.header j) : i = j := by
  have hoi := h.headerOwned i hi
  rw [he, h.headerOwned j hj] at hoi
  exact (Option.some.inj hoi).symm

/-- Two calls that hold their buffers have different buffers. -/
theorem AsyncInv.buffer_inj (h : AsyncInv reply s) {b : ℕ} (hi : s.phase i ≠ .released)
    (hj : s.phase j ≠ .released) (hbi : s.buffer i = some b) (hbj : s.buffer j = some b) : i = j := by
  have hoi := h.bufferOwned i b hi hbi
  rw [h.bufferOwned j b hj hbj] at hoi
  exact (Option.some.inj hoi).symm

theorem sequence_inj (hi : i < 2 ^ 64) (hj : j < 2 ^ 64) (h : sequence i = sequence j) : i = j := by
  unfold sequence at h
  omega

/-- A change of phase that concerns only the caller and keeps it from returning. -/
theorem AsyncInv.rephase (h : AsyncInv reply s) {p : Phase} (hi : s.Live i) (hp : p.live = true)
    {mutex : Option ℕ} {mailbox : Option (ℕ × ℕ)} {messages : ℕ}
    (hm : ∀ j x, mailbox = some (j, x) → j < s.next ∧ (s.Live j → x = s.header j)) :
    AsyncInv reply { s with phase := Function.update s.phase i p, mutex, mailbox, messages } := by
  have hlive : ∀ j, (Function.update s.phase i p j).live = true ↔ s.Live j := by
    intro j
    by_cases hj : j = i
    · subst hj
      rw [Function.update_self]
      exact iff_of_true hp hi
    · rw [Function.update_of_ne hj]
      rfl
  have hne : ∀ j, Function.update s.phase i p j ≠ .released → s.phase j ≠ .released := by
    intro j hj
    by_cases hji : j = i
    · exact hji ▸ Async.Live.ne_released hi
    · rwa [Function.update_of_ne hji] at hj
  constructor
  · exact h.small
  · intro j (hj : s.next ≤ j)
    have hlt := Async.Live.lt h hi
    exact (Function.update_of_ne (by omega) _ _).trans (h.fresh j hj)
  · exact fun j hj => h.headerOwned j ((hlive j).mp hj)
  · exact fun j b hj => h.bufferOwned j b (hne j hj)
  · exact fun j hj => h.outputAddr j ((hlive j).mp hj)
  · exact fun j x hx => ⟨(hm j x hx).1, fun hj => (hm j x hx).2 ((hlive j).mp hj)⟩
  · exact fun k hk => ⟨(h.job k hk).1, fun hj => (h.job k hk).2 ((hlive _).mp hj)⟩
  · exact fun k hk hst hj => h.wroteHeader k hk hst ((hlive _).mp hj)
  · exact fun k hk hst hj => h.wroteBuffer k hk hst ((hlive _).mp hj)
  · exact h.placed
  · exact fun j hj => (hlive j).mpr (h.linked j hj)
  · exact fun j hj => h.handled j ((hlive j).mp hj)
  · intro j len (hj : Function.update s.phase i p j = _)
    by_cases hji : j = i
    · rw [hji, Function.update_self] at hj
      exact absurd hp (by rw [hj]; exact Bool.false_ne_true)
    · rw [Function.update_of_ne hji] at hj
      exact h.seesOwn j len hj

/-- A call that returns takes its header and its node with it.  It returns 0 only with its
own reply. -/
theorem AsyncInv.leave (h : AsyncInv reply s) {ret len : ℤ} (hi : s.Live i)
    (hown : ret = 0 → len = (reply i).length ∧ (reply i).ret = 0 ∧ BufferDelivered reply s i) :
    AsyncInv reply (s.leave i ret len) := by
  have hlive : ∀ j, (s.leave i ret len).Live j ↔ j ≠ i ∧ s.Live j := by
    intro j
    by_cases hj : j = i
    · subst hj
      simp [Async.Live, Async.leave, Phase.live]
    · simp [Async.Live, Async.leave, hj]
  have hunique : ∀ y ∈ s.sent (sequence i % 64), decide (y = i) = true ↔ y = i := by simp
  constructor
  · exact h.small
  · intro j (hj : s.next ≤ j)
    have hlt := Async.Live.lt h hi
    exact (Function.update_of_ne (by omega) _ _).trans (h.fresh j hj)
  · intro j hj
    obtain ⟨hji, hj⟩ := (hlive j).mp hj
    have hne : s.header j ≠ s.header i := fun he => hji (h.header_inj hj hi he)
    exact (Function.update_of_ne hne _ _).trans (h.headerOwned j hj)
  · intro j b (hj : Function.update s.phase i _ j ≠ _) hb
    refine h.bufferOwned j b ?_ hb
    by_cases hji : j = i
    · exact hji ▸ Async.Live.ne_released hi
    · rwa [Function.update_of_ne hji] at hj
  · exact fun j hj => h.outputAddr j ((hlive j).mp hj).2
  · exact fun j x hx => ⟨(h.mailbox j x hx).1, fun hj => (h.mailbox j x hx).2 ((hlive j).mp hj).2⟩
  · exact fun k hk => ⟨(h.job k hk).1, fun hj => (h.job k hk).2 ((hlive _).mp hj).2⟩
  · exact fun k hk hst hj => h.wroteHeader k hk hst ((hlive _).mp hj).2
  · exact fun k hk hst hj => h.wroteBuffer k hk hst ((hlive _).mp hj).2
  · exact h.placed.eraseFirst
  · intro j hj
    have hmem : j ∈ s.sent.contents \ {i} := by
      rw [← h.placed.contents_eraseFirst hunique]
      exact hj
    exact (hlive j).mpr ⟨hmem.2, h.linked j hmem.1⟩
  · exact fun j hj => h.handled j ((hlive j).mp hj).2
  · intro j len' (hj : Function.update s.phase i _ j = _)
    by_cases hji : j = i
    · subst hji
      rw [Function.update_self, Phase.returned.injEq] at hj
      obtain ⟨hlen, hret, hbuf⟩ := hown hj.1
      exact ⟨hj.2 ▸ hlen, hret, hbuf⟩
    · rw [Function.update_of_ne hji] at hj
      exact h.seesOwn j len' hj

/-- What a noticed call returns. -/
theorem AsyncInv.wake (h : AsyncInv reply s) (hi : s.Live i) (hn : s.handled i = true) :
    AsyncInv reply (s.leave i (s.result i).1 (s.result i).2) := by
  obtain ⟨⟨hlen, hret⟩, hbuf⟩ := h.handled i hi hn
  refine h.leave hi fun h0 => ?_
  unfold Async.result at h0 ⊢
  dsimp only at h0 ⊢
  split_ifs at h0 ⊢ with h₁ h₂
  · exact absurd h0 h₁
  · exact absurd (show tpcmErrorExceed = 0 from h0) (by decide)
  · exact ⟨hlen, hret ▸ not_not.mp h₁, hbuf⟩

/-- The state after a command has been started with an output buffer. -/
def Async.started (s : Async) (hd b : ℕ) (pout : ℤ) : Async :=
  { s with
    next := s.next + 1
    header := Function.update s.header s.next hd
    buffer := Function.update s.buffer s.next (some b)
    poutLength := Function.update s.poutLength s.next pout
    handled := Function.update s.handled s.next false
    phase := Function.update s.phase s.next .linked
    headerOwner := Function.update s.headerOwner hd (some s.next)
    bufferOwner := Function.update s.bufferOwner b (some s.next)
    cells := Function.update s.cells hd { s.cells hd with outputAddr := b }
    sent := s.sent.push (sequence s.next % 64) s.next }

theorem asyncStep_start {hd b : ℕ} {pout : ℤ}
    (hs : asyncStep reply s (.start hd (some b) pout) = some s') :
    (s.headerOwner hd = none ∧ ∀ c ∈ some b, s.bufferOwner c = none) ∧
      s' = s.started hd b pout := by
  simp only [asyncStep] at hs
  split_ifs at hs with hguard
  exact ⟨hguard, (Option.some.inj hs).symm⟩

theorem AsyncInv.start (h : AsyncInv reply s) {hd b : ℕ} {pout : ℤ}
    (hs : asyncStep reply s (.start hd (some b) pout) = some s') (hsmall : s.next < 2 ^ 64) :
    AsyncInv reply s' := by
  obtain ⟨⟨hfree, hbfree⟩, rfl⟩ := asyncStep_start hs
  have hold : ∀ {j}, j ≠ s.next → ∀ {α : Type} (g : ℕ → α) (v : α),
      Function.update g s.next v j = g j := fun hj _ g v => Function.update_of_ne hj v g
  have hlive : ∀ j, (Function.update s.phase s.next .linked j).live = true ↔
      j = s.next ∨ s.Live j := by
    intro j
    by_cases hj : j = s.next
    · subst hj
      simp [Phase.live]
    · rw [hold hj, or_iff_right hj]
      rfl
  have hlt : ∀ j, s.Live j → j ≠ s.next := fun j hj => (Async.Live.lt h hj).ne
  -- a header or a buffer that somebody has is not the one just given out
  have hhd : ∀ j, s.Live j → s.header j ≠ hd := by
    intro j hj he
    have hown := h.headerOwned j hj
    rw [he, hfree] at hown
    exact Option.some_ne_none j hown.symm
  have hbuf : ∀ j c, s.phase j ≠ .released → s.buffer j = some c → c ≠ b := by
    intro j c hj hc he
    have hown := h.bufferOwned j c hj hc
    rw [he, hbfree b rfl] at hown
    exact Option.some_ne_none j hown.symm
  have hdelivered : ∀ j, s.Live j → HeaderDelivered reply s j →
      HeaderDelivered reply (s.started hd b pout) j := by
    intro j hj hd'
    simpa [HeaderDelivered, Async.started, hold (hlt j hj), hhd j hj] using hd'
  have hbdelivered : ∀ j, j ≠ s.next → BufferDelivered reply s j →
      BufferDelivered reply (s.started hd b pout) j := by
    intro j hj hb'
    simpa [BufferDelivered, Async.started, hold hj] using hb'
  constructor
  · exact hsmall
  · intro j (hj : s.next + 1 ≤ j)
    exact (hold (by omega) _ _).trans (h.fresh j (by omega))
  · intro j hj
    rcases (hlive j).mp hj with rfl | hj
    · simp [Async.started]
    · simp [Async.started, hold (hlt j hj), hhd j hj, h.headerOwned j hj]
  · intro j c (hj : Function.update s.phase s.next _ j ≠ _) (hc : Function.update s.buffer s.next _ j = _)
    by_cases hjn : j = s.next
    · subst hjn
      rw [Function.update_self] at hc
      obtain rfl := Option.some.inj hc
      exact Function.update_self ..
    · rw [hold hjn] at hj hc
      exact (Function.update_of_ne (hbuf j c hj hc) _ _).trans (h.bufferOwned j c hj hc)
  · intro j hj
    rcases (hlive j).mp hj with rfl | hj
    · simp [Async.started]
    · simp [Async.started, hold (hlt j hj), hhd j hj, h.outputAddr j hj]
  · intro j x hx
    obtain ⟨hjlt, hjx⟩ := h.mailbox j x hx
    refine ⟨Nat.lt_succ_of_lt hjlt, fun hj => ?_⟩
    have hj' := ((hlive j).mp hj).resolve_left hjlt.ne
    exact (hjx hj').trans (hold hjlt.ne _ _).symm
  · intro k hk
    obtain ⟨hidlt, hid⟩ := h.job k hk
    refine ⟨Nat.lt_succ_of_lt hidlt, fun hj => ?_⟩
    have hj' := ((hlive _).mp hj).resolve_left hidlt.ne
    exact ⟨(hid hj').1.trans (hold hidlt.ne _ _).symm, (hold hidlt.ne _ _).trans (hid hj').2⟩
  · intro k hk hst hj
    have hidlt := (h.job k hk).1
    have hj' := ((hlive _).mp hj).resolve_left hidlt.ne
    exact hdelivered _ hj' (h.wroteHeader k hk hst hj')
  · intro k hk hst hj
    have hidlt := (h.job k hk).1
    have hj' := ((hlive _).mp hj).resolve_left hidlt.ne
    exact hbdelivered _ hidlt.ne (h.wroteBuffer k hk hst hj')
  · exact h.placed.push fun hm => hlt s.next (h.linked s.next hm) rfl
  · intro j (hj : j ∈ (s.sent.push _ s.next).contents)
    rw [Table.contents_push] at hj
    exact (hlive j).mpr (hj.imp id (h.linked j))
  · intro j hj (hn : Function.update s.handled s.next false j = true)
    rcases (hlive j).mp hj with rfl | hj
    · rw [Function.update_self] at hn
      exact absurd hn Bool.false_ne_true
    · rw [hold (hlt j hj)] at hn
      obtain ⟨h₁, h₂⟩ := h.handled j hj hn
      exact ⟨hdelivered j hj h₁, hbdelivered j (hlt j hj) h₂⟩
  · intro j len (hj : Function.update s.phase s.next _ j = _)
    have hjn : j ≠ s.next := by
      rintro rfl
      rw [Function.update_self] at hj
      exact Phase.noConfusion hj
    rw [hold hjn] at hj
    obtain ⟨h₁, h₂, h₃⟩ := h.seesOwn j len hj
    exact ⟨h₁, h₂, hbdelivered j hjn h₃⟩

/-- The state after a caller has freed its buffer. -/
def Async.freed (s : Async) (i : ℕ) : Async :=
  { s with
    phase := Function.update s.phase i .released
    bufferOwner := match s.buffer i with
      | none => s.bufferOwner
      | some b => Function.update s.bufferOwner b none }

theorem asyncStep_release (hs : asyncStep reply s (.release i) = some s') :
    (∃ ret len, s.phase i = .returned ret len) ∧ s' = s.freed i := by
  simp only [asyncStep] at hs
  cases hp : s.phase i with
  | returned ret len =>
      rw [hp] at hs
      exact ⟨⟨ret, len, rfl⟩, (Option.some.inj hs).symm⟩
  | _ =>
      rw [hp] at hs
      exact absurd hs.symm (Option.some_ne_none s')

theorem AsyncInv.release (h : AsyncInv reply s) (hs : asyncStep reply s (.release i) = some s') :
    AsyncInv reply s' := by
  obtain ⟨⟨ret, len, hphase⟩, rfl⟩ := asyncStep_release hs
  have hi : s.phase i ≠ .released := by rw [hphase]; exact Phase.noConfusion
  have hold : ∀ {j}, j ≠ i → (s.freed i).phase j = s.phase j := fun hj => Function.update_of_ne hj _ _
  have hself : (s.freed i).phase i = .released := Function.update_self ..
  have hlive : ∀ j, (s.freed i).Live j ↔ s.Live j := by
    intro j
    by_cases hj : j = i
    · subst hj
      rw [Async.Live, Async.Live, hself, hphase]
      rfl
    · rw [Async.Live, Async.Live, hold hj]
  constructor
  · exact h.small
  · intro j hj
    by_cases hji : j = i
    · exact hji ▸ hself
    · exact (hold hji).trans (h.fresh j hj)
  · exact fun j hj => h.headerOwned j ((hlive j).mp hj)
  · intro j c hj hc
    have hji : j ≠ i := fun he => hj (he ▸ hself)
    rw [hold hji] at hj
    have hown := h.bufferOwned j c hj hc
    cases hb : s.buffer i with
    | none => simpa [Async.freed, hb] using hown
    | some b =>
        have hcb : c ≠ b := fun he => hji (h.buffer_inj hj hi hc (he ▸ hb))
        simpa [Async.freed, hb, hcb] using hown
  · exact fun j hj => h.outputAddr j ((hlive j).mp hj)
  · exact fun j x hx => ⟨(h.mailbox j x hx).1, fun hj => (h.mailbox j x hx).2 ((hlive j).mp hj)⟩
  · exact fun k hk => ⟨(h.job k hk).1, fun hj => (h.job k hk).2 ((hlive _).mp hj)⟩
  · exact fun k hk hst hj => h.wroteHeader k hk hst ((hlive _).mp hj)
  · exact fun k hk hst hj => h.wroteBuffer k hk hst ((hlive _).mp hj)
  · exact h.placed
  · exact fun j hj => (hlive j).mpr (h.linked j hj)
  · exact fun j hj => h.handled j ((hlive j).mp hj)
  · intro j len' hj
    have hji : j ≠ i := by
      rintro rfl
      rw [hself] at hj
      exact Phase.noConfusion hj
    rw [hold hji] at hj
    exact h.seesOwn j len' hj

/-- The state after the proxy has picked up the command in the mailbox. -/
def Async.picked (s : Async) (i hd messages : ℕ) : Async :=
  { s with
    messages
    njobs := s.njobs + 1
    jobs := Function.update s.jobs s.njobs ⟨i, hd, (s.cells hd).outputAddr, .picked⟩ }

theorem asyncStep_pickup (hs : asyncStep reply s .pickup = some s') :
    ∃ i hd messages, s.mailbox = some (i, hd) ∧ s' = s.picked i hd messages := by
  simp only [asyncStep] at hs
  split at hs
  · rename_i i hd messages hm _
    exact ⟨i, hd, messages, hm, (Option.some.inj hs).symm⟩
  · exact absurd hs.symm (Option.some_ne_none s')

theorem AsyncInv.pickup (h : AsyncInv reply s) (hs : asyncStep reply s .pickup = some s') :
    AsyncInv reply s' := by
  obtain ⟨i, hd, messages, hmail, rfl⟩ := asyncStep_pickup hs
  obtain ⟨hilt, hhd⟩ := h.mailbox i hd hmail
  have hnew : (s.picked i hd messages).jobs s.njobs = ⟨i, hd, (s.cells hd).outputAddr, .picked⟩ :=
    Function.update_self ..
  have hjobs : ∀ k, k < s.njobs + 1 → k ≠ s.njobs →
      k < s.njobs ∧ (s.picked i hd messages).jobs k = s.jobs k :=
    fun k hk hne => ⟨by omega, Function.update_of_ne hne _ _⟩
  constructor
  · exact h.small
  · exact h.fresh
  · exact h.headerOwned
  · exact h.bufferOwned
  · exact h.outputAddr
  · exact h.mailbox
  · intro k hk
    by_cases hkn : k = s.njobs
    · subst hkn
      rw [hnew]
      refine ⟨hilt, fun hi => ⟨hhd hi, ?_⟩⟩
      have haddr := h.outputAddr i hi
      rw [← hhd hi] at haddr
      exact haddr
    · obtain ⟨hk', hj⟩ := hjobs k hk hkn
      rw [hj]
      exact h.job k hk'
  · intro k hk hst
    by_cases hkn : k = s.njobs
    · subst hkn
      rw [hnew] at hst
      exact absurd rfl hst
    · obtain ⟨hk', hj⟩ := hjobs k hk hkn
      rw [hj] at hst ⊢
      exact h.wroteHeader k hk' hst
  · intro k hk hst
    by_cases hkn : k = s.njobs
    · subst hkn
      rw [hnew] at hst
      exact Stage.noConfusion hst
    · obtain ⟨hk', hj⟩ := hjobs k hk hkn
      rw [hj] at hst ⊢
      exact h.wroteBuffer k hk' hst
  · exact h.placed
  · exact h.linked
  · exact h.handled
  · exact h.seesOwn

/-- The state after the proxy has written the lengths into the header of a job. -/
def Async.headerWritten (reply : ℕ → Reply) (s : Async) (k : ℕ) : Async :=
  { s with
    cells := Function.update s.cells (s.jobs k).header { s.cells (s.jobs k).header with
      outLength := (reply (s.jobs k).id).length, outReturn := (reply (s.jobs k).id).ret }
    jobs := Function.update s.jobs k { s.jobs k with stage := .headerWritten } }

theorem asyncStep_writeHeader (hs : asyncStep reply s (.writeHeader k) = some s') :
    k < s.njobs ∧ (s.jobs k).stage = .picked ∧ s' = s.headerWritten reply k := by
  simp only [asyncStep] at hs
  split_ifs at hs with hguard
  exact ⟨hguard.1, hguard.2, (Option.some.inj hs).symm⟩

/-- Only the stage of a job changes when it is worked on. -/
theorem jobs_update {st : Stage} (n : ℕ) :
    (Function.update s.jobs k { s.jobs k with stage := st } n).id = (s.jobs n).id ∧
      (Function.update s.jobs k { s.jobs k with stage := st } n).header = (s.jobs n).header ∧
      (Function.update s.jobs k { s.jobs k with stage := st } n).buffer = (s.jobs n).buffer := by
  by_cases hn : n = k
  · subst hn
    simp
  · simp [hn]

theorem AsyncInv.writeHeader (h : AsyncInv reply s) (hin : s.Live (s.jobs k).id)
    (hs : asyncStep reply s (.writeHeader k) = some s') : AsyncInv reply s' := by
  obtain ⟨hk, hst, rfl⟩ := asyncStep_writeHeader hs
  have hhd : (s.jobs k).header = s.header (s.jobs k).id := ((h.job k hk).2 hin).1
  -- the call of the job has its reply, the headers of the others are untouched
  have hown : HeaderDelivered reply (s.headerWritten reply k) (s.jobs k).id := by
    simp [HeaderDelivered, Async.headerWritten, ← hhd]
  have hother : ∀ i, s.Live i → HeaderDelivered reply s i →
      HeaderDelivered reply (s.headerWritten reply k) i := by
    intro i hi hd
    by_cases he : i = (s.jobs k).id
    · exact he ▸ hown
    · have hne : s.header i ≠ (s.jobs k).header := fun heq => he (h.header_inj hi hin (heq.trans hhd))
      simpa [HeaderDelivered, Async.headerWritten, hne] using hd
  have hjobs := fun n => @jobs_update s k .headerWritten n
  constructor
  · exact h.small
  · exact h.fresh
  · exact h.headerOwned
  · exact h.bufferOwned
  · intro i hi
    refine (h.outputAddr i hi).trans (congrArg some ?_)
    by_cases he : s.header i = (s.jobs k).header
    · simp [Async.headerWritten, he]
    · simp [Async.headerWritten, he]
  · exact h.mailbox
  · intro n hn
    simp only [Async.headerWritten, (hjobs n).1, (hjobs n).2.1, (hjobs n).2.2]
    exact h.job n hn
  · intro n hn hstage hi
    by_cases hnk : n = k
    · subst hnk
      simp only [Async.headerWritten, (hjobs n).1] at hi ⊢
      exact hown
    · have hj : (s.headerWritten reply k).jobs n = s.jobs n := Function.update_of_ne hnk _ _
      rw [hj] at hstage hi ⊢
      exact hother _ hi (h.wroteHeader n hn hstage hi)
  · intro n hn hstage hi
    have hnk : n ≠ k := by
      rintro rfl
      simp [Async.headerWritten] at hstage
    have hj : (s.headerWritten reply k).jobs n = s.jobs n := Function.update_of_ne hnk _ _
    rw [hj] at hstage hi ⊢
    exact h.wroteBuffer n hn hstage hi
  · exact h.placed
  · exact h.linked
  · exact fun i hi hn => ⟨hother i hi (h.handled i hi hn).1, (h.handled i hi hn).2⟩
  · exact h.seesOwn

/-- The state after the proxy has written the data into the buffer of a job. -/
def Async.bufferWritten (reply : ℕ → Reply) (s : Async) (k : ℕ) : Async :=
  { s with
    memory := Function.update s.memory (s.jobs k).buffer (reply (s.jobs k).id).data
    jobs := Function.update s.jobs k { s.jobs k with stage := .written } }

theorem asyncStep_writeBuffer (hs : asyncStep reply s (.writeBuffer k) = some s') :
    k < s.njobs ∧ (s.jobs k).stage = .headerWritten ∧ s' = s.bufferWritten reply k := by
  simp only [asyncStep] at hs
  split_ifs at hs with hguard
  exact ⟨hguard.1, hguard.2, (Option.some.inj hs).symm⟩

theorem AsyncInv.writeBuffer (h : AsyncInv reply s) (hin : s.Live (s.jobs k).id)
    (hs : asyncStep reply s (.writeBuffer k) = some s') : AsyncInv reply s' := by
  obtain ⟨hk, hst, rfl⟩ := asyncStep_writeBuffer hs
  have hbuf : s.buffer (s.jobs k).id = some (s.jobs k).buffer := ((h.job k hk).2 hin).2
  have hown : BufferDelivered reply (s.bufferWritten reply k) (s.jobs k).id := by
    intro b hb
    have hbb : b = (s.jobs k).buffer := Option.some.inj (hb.symm.trans hbuf)
    simp [Async.bufferWritten, hbb]
  have hother : ∀ i, s.phase i ≠ .released → BufferDelivered reply s i →
      BufferDelivered reply (s.bufferWritten reply k) i := by
    intro i hi hd
    by_cases he : i = (s.jobs k).id
    · exact he ▸ hown
    · intro b hb
      have hne : b ≠ (s.jobs k).buffer := by
        rintro rfl
        exact he (h.buffer_inj hi (Async.Live.ne_released hin) hb hbuf)
      exact (Function.update_of_ne hne _ _).trans (hd b hb)
  have hjobs := fun n => @jobs_update s k .written n
  constructor
  · exact h.small
  · exact h.fresh
  · exact h.headerOwned
  · exact h.bufferOwned
  · exact h.outputAddr
  · exact h.mailbox
  · intro n hn
    simp only [Async.bufferWritten, (hjobs n).1, (hjobs n).2.1, (hjobs n).2.2]
    exact h.job n hn
  · intro n hn hstage hi
    by_cases hnk : n = k
    · subst hnk
      simp only [Async.bufferWritten, (hjobs n).1] at hi ⊢
      exact h.wroteHeader n hn (by rw [hst]; exact Stage.noConfusion) hi
    · have hj : (s.bufferWritten reply k).jobs n = s.jobs n := Function.update_of_ne hnk _ _
      rw [hj] at hstage hi ⊢
      exact h.wroteHeader n hn hstage hi
  · intro n hn hstage hi
    by_cases hnk : n = k
    · subst hnk
      simp only [Async.bufferWritten, (hjobs n).1] at hi ⊢
      exact hown
    · have hj : (s.bufferWritten reply k).jobs n = s.jobs n := Function.update_of_ne hnk _ _
      rw [hj] at hstage hi ⊢
      exact hother _ (Async.Live.ne_released hi) (h.wroteBuffer n hn hstage hi)
  · exact h.placed
  · exact h.linked
  · exact fun i hi hn =>
      ⟨(h.handled i hi hn).1, hother i (Async.Live.ne_released hi) (h.handled i hi hn).2⟩
  · intro i len hi
    obtain ⟨h₁, h₂, h₃⟩ := h.seesOwn i len hi
    exact ⟨h₁, h₂, hother i (fun hr => Phase.noConfusion (hi.symm.trans hr)) h₃⟩

/-- What `notify` does: nothing, or it marks one linked node with the number. -/
theorem notify_cases (s : Async) (seq : ℕ) : s.notify seq = s ∨
    ∃ i ∈ s.sent.contents, sequence i = seq ∧
      s.notify seq = { s with handled := Function.update s.handled i true } := by
  unfold Async.notify
  cases hf : (s.sent (seq % 64)).find? fun i => sequence i = seq with
  | none => exact .inl rfl
  | some i =>
      have hseq := List.find?_some hf
      exact .inr ⟨i, ⟨_, List.mem_of_find?_eq_some hf⟩, of_decide_eq_true hseq, rfl⟩

theorem asyncStep_notice (hs : asyncStep reply s (.notice k) = some s') :
    k < s.njobs ∧ (s.jobs k).stage = .written ∧ s' = s.notify (sequence (s.jobs k).id) := by
  simp only [asyncStep] at hs
  split_ifs at hs with hguard
  exact ⟨hguard.1, hguard.2, (Option.some.inj hs).symm⟩

theorem AsyncInv.notice (h : AsyncInv reply s) (hs : asyncStep reply s (.notice k) = some s') :
    AsyncInv reply s' := by
  obtain ⟨hk, hst, rfl⟩ := asyncStep_notice hs
  obtain hsame | ⟨i, hi, hseq, hnew⟩ := notify_cases s (sequence (s.jobs k).id)
  · rwa [hsame]
  · rw [hnew]
    have hlive := h.linked i hi
    have hsmall := h.small
    have hilt := Async.Live.lt h hlive
    have hidlt := (h.job k hk).1
    -- fewer than 2⁶⁴ commands, so the node is that of the job
    obtain rfl : i = (s.jobs k).id := sequence_inj (by omega) (by omega) hseq
    refine ⟨h.small, h.fresh, h.headerOwned, h.bufferOwned, h.outputAddr, h.mailbox, h.job,
      h.wroteHeader, h.wroteBuffer, h.placed, h.linked, ?_, h.seesOwn⟩
    intro j hj (hn : Function.update s.handled (s.jobs k).id true j = true)
    by_cases hji : j = (s.jobs k).id
    · subst hji
      exact ⟨h.wroteHeader k hk (by rw [hst]; exact Stage.noConfusion) hlive,
        h.wroteBuffer k hk hst hlive⟩
    · rw [Function.update_of_ne hji] at hn
      exact h.handled j hj hn

/-- **Every step in time keeps the invariant.** -/
theorem AsyncInv.step {a : AsyncAct} (h : AsyncInv reply s) (hin : InTime s a)
    (hs : asyncStep reply s a = some s') : AsyncInv reply s' := by
  cases a with
  | start hd buffer pout =>
      obtain ⟨b, rfl⟩ := Option.ne_none_iff_exists'.mp hin.1
      exact h.start hs hin.2
  | post i =>
      simp only [asyncStep] at hs
      split_ifs at hs with hguard
      obtain rfl := Option.some.inj hs
      have hi : s.Live i := by rw [Async.Live, hguard.1]; rfl
      refine h.rephase hi rfl fun j x hx => ?_
      obtain ⟨rfl, rfl⟩ := Prod.mk.inj (Option.some.inj hx)
      exact ⟨Async.Live.lt h hi, fun _ => rfl⟩
  | sendReturns i ok =>
      simp only [asyncStep] at hs
      split_ifs at hs with hphase hok
      · obtain rfl := Option.some.inj hs
        have hi : s.Live i := by rw [Async.Live, hphase]; rfl
        exact h.rephase hi rfl h.mailbox
      · obtain rfl := Option.some.inj hs
        have hi : s.Live i := by rw [Async.Live, hphase]; rfl
        have hleft := @AsyncInv.leave reply s i h tpcmErrorSendFail (s.poutLength i) hi
          fun h0 => absurd h0 (by decide)
        exact ⟨hleft.small, hleft.fresh, hleft.headerOwned, hleft.bufferOwned, hleft.outputAddr,
          hleft.mailbox, hleft.job, hleft.wroteHeader, hleft.wroteBuffer, hleft.placed,
          hleft.linked, hleft.handled, hleft.seesOwn⟩
  | wake i =>
      simp only [asyncStep] at hs
      split_ifs at hs with hguard
      obtain rfl := Option.some.inj hs
      have hi : s.Live i := by rw [Async.Live, hguard.1]; rfl
      exact h.wake hi hguard.2
  | timeout i =>
      simp only [asyncStep] at hs
      split_ifs at hs with hguard
      obtain rfl := Option.some.inj hs
      have hi : s.Live i := by rw [Async.Live, hguard.1]; rfl
      exact h.leave hi fun h0 => absurd h0 (by decide)
  | release i => exact h.release hs
  | pickup => exact h.pickup hs
  | writeHeader k => exact h.writeHeader hin hs
  | writeBuffer k => exact h.writeBuffer hin hs
  | notice k => exact h.notice hs

theorem AsyncInv.reachesOwn {a : AsyncAct} (h : AsyncInv reply s) (hin : InTime s a)
    (hs : asyncStep reply s a = some s') : ReachesOwn s s' a := by
  cases a with
  | writeHeader k =>
      intro i hi
      have hk := (asyncStep_writeHeader hs).1
      have hlive : s.Live (s.jobs k).id := hin
      rw [((h.job k hk).2 hlive).1, h.headerOwned _ hlive] at hi
      exact (Option.some.inj hi).symm
  | writeBuffer k =>
      intro i hi
      have hk := (asyncStep_writeBuffer hs).1
      have hlive : s.Live (s.jobs k).id := hin
      rw [h.bufferOwned _ _ (Async.Live.ne_released hlive) ((h.job k hk).2 hlive).2] at hi
      exact (Option.some.inj hi).symm
  | notice k =>
      intro i hi
      obtain ⟨-, -, rfl⟩ := asyncStep_notice hs
      obtain hsame | ⟨j, -, hseq, hnew⟩ := notify_cases s (sequence (s.jobs k).id)
      · rw [hsame] at hi
        exact absurd rfl hi
      · rw [hnew] at hi
        by_cases hij : i = j
        · exact hij ▸ hseq
        · exact absurd (Function.update_of_ne hij _ _) hi
  | _ => trivial

theorem AsyncInit.inv (h : AsyncInit s) : AsyncInv reply s := by
  have hdead : ∀ i, ¬ s.Live i := fun i hi => Async.Live.ne_released hi (h.phase i)
  constructor
  · rw [h.next]
    exact Nat.zero_le _
  · exact fun i _ => h.phase i
  · exact fun i hi => absurd hi (hdead i)
  · exact fun i _ hi => absurd (h.phase i) hi
  · exact fun i hi => absurd hi (hdead i)
  · intro i x hx
    rw [h.mailbox] at hx
    exact absurd hx.symm (Option.some_ne_none _)
  · exact fun k hk => absurd hk (by rw [h.njobs]; exact Nat.not_lt_zero k)
  · exact fun k hk => absurd hk (by rw [h.njobs]; exact Nat.not_lt_zero k)
  · exact fun k hk => absurd hk (by rw [h.njobs]; exact Nat.not_lt_zero k)
  · rw [h.sent]
    exact Table.placed_empty
  · intro i hi
    rw [h.sent, Table.contents_empty] at hi
    exact absurd hi (Set.notMem_empty i)
  · exact fun i hi => absurd hi (hdead i)
  · intro i len hi
    rw [h.phase i] at hi
    exact Phase.noConfusion hi

end Steps

/-- No call yet, and nothing in the memory. -/
def asyncEmpty : Async where
  next := 0
  header := fun _ => 0
  buffer := fun _ => none
  poutLength := fun _ => 0
  handled := fun _ => false
  phase := fun _ => .released
  headerOwner := fun _ => none
  bufferOwner := fun _ => none
  cells := fun _ => ⟨0, 0, 0⟩
  memory := fun _ => []
  sent := Table.empty
  mutex := none
  mailbox := none
  messages := 0
  njobs := 0
  jobs := fun _ => ⟨0, 0, 0, .picked⟩

theorem asyncInit_empty : AsyncInit asyncEmpty := ⟨rfl, fun _ => rfl, rfl, rfl, rfl⟩

/-- Command `i` is answered with the byte `i`, which is as long as its number says. -/
def numberedReply (i : ℕ) : Reply := ⟨i + 1, 0, List.replicate (i + 1) (UInt8.ofNat i)⟩

/-- Two commands with the same header and the same buffer, one after the other; the first
is answered after the second has started. -/
def lateRun : List AsyncAct :=
  [.start 0 (some 0) 4096, .post 0, .pickup, .sendReturns 0 true, .timeout 0, .release 0,
    .start 0 (some 0) 4096, .post 1, .pickup, .writeHeader 1, .writeBuffer 1, .notice 1,
    .sendReturns 1 true, .writeHeader 0, .writeBuffer 0, .wake 1]

end Tdd
end TsbAgent
