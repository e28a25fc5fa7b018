/-
# One TPCM command

`tdd_send_command` of `tss-main/tcs/tdd/tdd.c` takes a command header from the pool, hands
the command to the TPCM (`send_command` in `tdd_tpcm.c`), for the asynchronous categories
waits for the notice, and gives the header and the wait node back.  `Peer` is the world
of one call: the processes, the pool, and what the TPCM does.

`command_ok_iff` says when a call gives everything back and returns 0 only with a response.
It does not

* when no proxy is found: the call returns 0 at once;
* when the command or the buffer is larger than 2 MiB: the sizes are checked after the
  header has been taken, and it stays taken;
* when the TPCM refuses a synchronous command, or the proxy goes away during it:
  `send_command` returns 0 all the same and never sets `*cmd_ret`;
* when the driver answers a status request itself into a buffer of less than 16 bytes.

Every path of the asynchronous categories after the size checks is in order.
-/

import TsbAgent.Tdd.Shm

namespace TsbAgent
namespace Tdd

/-! ### The world of one call -/

/-- What the process table answers: `check_process("tpcmproxy")`, and for a pid whether
there is a task and whether its executable is the proxy. -/
structure Processes where
  checkProcess : ℕ
  findTask : ℕ → Option Bool

/-- `PROXY_START_CHECK` and `PROXY_RUNNING_CHECK`. -/
inductive ProxyCheck
  | start
  | running
deriving DecidableEq

/-- `compare_proxy`: the result, and `proxypid` afterwards. -/
def compareProxy (p : Processes) (proxypid pid : ℕ) (flag : ProxyCheck) : ℤ × ℕ :=
  if pid = 0 then
    match flag with
    | .start => (0, p.checkProcess)
    | .running => (1, proxypid)
  else
    match p.findTask pid with
    | some true => (0, proxypid)
    | some false => (121, proxypid)
    | none => (122, proxypid)

/-- `TPCM_TAG_REQ_COMMAND`. -/
def tpcmTagReqCommand : UInt32 := 0xC1

/-- `TPCM_ORD_GetTddStatus`. -/
def tpcmOrdGetTddStatus : UInt32 := 0x3001

/-- The header of a request, in host order. -/
structure RequestHeader where
  uiCmdTag : UInt32
  uiCmdLength : UInt32
  uiCmdCode : UInt32

/-- The arguments of `tdd_send_command`; `outbuffer` says whether there is one. -/
structure Command where
  category : UInt32
  buffer : Option RequestHeader
  length : ℤ
  outbuffer : Bool
  poutLength : ℤ

/-- `cmd_category >= TDD_CMD_CATEGORY_ASYNC_START`. -/
def Command.async (c : Command) : Bool := c.category ≥ 8

/-- **The world of one call.**  `handled` is `cmd_handled` in each round of `send_command`,
`noticed` is `handled` of the wait node in each round of the wait and after it; `outLength`
and `outReturn` are what the header holds when it is read.  `response` is the length of the
response of the TPCM to this command, if there is one by then.

The TPCM writes a response into the header, gives none to a command it refuses
(`cmdRet`), and reports a synchronous command as handled, or an asynchronous one as
finished, after it has written the response. -/
structure Peer (async : Bool) where
  proxypid : ℕ
  atStart : Processes
  header : Bool
  node : Bool
  sock : Bool
  skb : Bool
  handled : ℕ → Bool
  atRound : ℕ → Processes
  pidAtRound : ℕ → ℕ
  cmdRet : ℤ
  noticed : ℕ → Bool
  outLength : ℤ
  outReturn : ℤ
  response : Option ℤ
  response_length : ∀ n, response = some n → outLength = n
  response_refused : cmdRet ≠ 0 → response = none
  response_handled : async = false → cmdRet = 0 → (∃ i, handled i = true) → response ≠ none
  response_noticed : (∃ i, noticed i = true) → response ≠ none

/-! ### The functions -/

/-- `TPCM_COMMAND_BUFFER_LIMIT`. -/
def tpcmCommandBufferLimit : ℤ := 0x200000

/-- `TPCM_ERROR_TIMEOUT`. -/
def tpcmErrorTimeout : ℤ := 512

/-- `TPCM_ERROR_NOMEM`. -/
def tpcmErrorNomem : ℤ := 514

/-- `TPCM_ERROR_SEND_FAIL`. -/
def tpcmErrorSendFail : ℤ := 515

/-- `TPCM_ERROR_EXCEED`. -/
def tpcmErrorExceed : ℤ := 516

/-- `sizeof(get_tdd_info_rsp)`. -/
def getTddInfoRspSize : ℤ := 16

/-- What a call does to the pool and to the wait node, and who is asked for the answer. -/
inductive Event
  | answer
  | allocHeader
  | freeHeader
  | newNode
  | link
  | send
  | unlink
  | freeNode
deriving DecidableEq

/-- The return value, `*pout_length`, and what was done. -/
structure Result where
  ret : ℤ
  poutLength : ℤ
  log : List Event
deriving DecidableEq

/-- `tdd_cmd_handle`: a status request is answered by the driver. -/
def tddCmdHandle (c : Command) : Bool :=
  match c.buffer with
  | none => false
  | some req => req.uiCmdCode = tpcmOrdGetTddStatus ∧ req.uiCmdTag = tpcmTagReqCommand ∧
      req.uiCmdLength = 12 ∧ c.outbuffer

section Source

variable {async : Bool} (w : Peer async)

/-- `httcsec_io_send_message`. -/
def httcsecIoSendMessage : ℤ :=
  if ¬ w.sock then 0
  else if ¬ w.skb then 0
  else 0

/-- The loop of `send_command`: `left` rounds to go, from round `i`, with the `proxypid` of
the function. -/
def sendCommandLoop : (left i pid : ℕ) → ℤ
  | 0, _, _ => 1
  | left + 1, i, pid =>
      if w.handled i then 0
      else if i % 10 = 0 then
        let pid := if pid = 0 then w.pidAtRound i else pid
        if (compareProxy (w.atRound i) (w.pidAtRound i) pid .running).1 ≠ 0 then 0
        else sendCommandLoop left (i + 1) pid
      else sendCommandLoop left (i + 1) pid

/-- `send_command`: the result, and `*cmd_ret`, which it does not set. -/
def sendCommand (cmdRet : ℤ) : ℤ × ℤ :=
  let r := httcsecIoSendMessage w
  if r ≠ 0 then (r, cmdRet) else (sendCommandLoop w 600 0 0, cmdRet)

/-- The wait of an asynchronous command: `waitTimes` when it ends. -/
def waitLoop : (waitTimes i : ℕ) → ℕ
  | 0, _ => 0
  | waitTimes + 1, i => if w.noticed i then waitTimes + 1 else waitLoop waitTimes (i + 1)

/-- The synchronous part of `tdd_send_command`. -/
def sendSync (c : Command) : Result :=
  let (r, tpcmRet) := sendCommand w 0
  if r ≠ 0 then ⟨tpcmErrorSendFail, c.poutLength, [.allocHeader, .send, .freeHeader]⟩
  else if tpcmRet ≠ 0 then ⟨tpcmRet, c.poutLength, [.allocHeader, .send, .freeHeader]⟩
  else if w.outLength > c.poutLength then
    ⟨tpcmErrorExceed, c.poutLength, [.allocHeader, .send, .freeHeader]⟩
  else ⟨r, w.outLength, [.allocHeader, .send, .freeHeader]⟩

/-- The asynchronous part, with the header and the node taken. -/
def sendAsync (c : Command) : Result :=
  let log : List Event := [.allocHeader, .newNode, .link, .send]
  let (r, tpcmRet) := sendCommand w 0
  if r ≠ 0 then ⟨tpcmErrorSendFail, c.poutLength, log ++ [.freeHeader, .unlink, .freeNode]⟩
  else if tpcmRet ≠ 0 then ⟨tpcmRet, c.poutLength, log ++ [.freeHeader, .unlink, .freeNode]⟩
  else
    let waitTimes := waitLoop w 5 0
    let r := if waitTimes = 0 ∧ ¬ w.noticed 5 then tpcmErrorTimeout else r
    let log := log ++ (if waitTimes ≠ 0 then [.unlink] else []) ++
      (if waitTimes = 0 then [.unlink] else []) ++ [.freeHeader, .freeNode]
    if r ≠ 0 then ⟨r, c.poutLength, log⟩
    else if w.outReturn ≠ 0 then ⟨w.outReturn, c.poutLength, log⟩
    else if w.outLength > c.poutLength then ⟨tpcmErrorExceed, c.poutLength, log⟩
    else ⟨0, w.outLength, log⟩

end Source

/-- `tdd_send_command`. -/
def tddSendCommand (c : Command) (w : Peer c.async) : Result :=
  if (compareProxy w.atStart w.proxypid w.proxypid .start).1 ≠ 0 then ⟨0, c.poutLength, []⟩
  else if tddCmdHandle c then ⟨0, getTddInfoRspSize, [.answer]⟩
  else
    let taken : List Event := if w.header then [.allocHeader] else []
    if c.length > tpcmCommandBufferLimit then ⟨tpcmErrorExceed, c.poutLength, taken⟩
    else if c.poutLength > tpcmCommandBufferLimit then ⟨tpcmErrorExceed, c.poutLength, taken⟩
    else if ¬ w.header then ⟨tpcmErrorNomem, c.poutLength, taken⟩
    else if c.async then
      if ¬ w.node then ⟨tpcmErrorNomem, c.poutLength, taken ++ [.freeHeader]⟩
      else sendAsync w c
    else sendSync w c

/-! ### What a call owes -/

/-- The response to the command has `n` bytes: the driver has answered a status request,
or the TPCM a command that was sent. -/
def Answered {async : Bool} (w : Peer async) (r : Result) (n : ℤ) : Prop :=
  (.answer ∈ r.log ∧ n = getTddInfoRspSize) ∨ (.send ∈ r.log ∧ w.response = some n)

/-- The events come in pairs: the header, if one is taken, goes back exactly once, and the
node, if there is one, is unlinked and freed exactly once. -/
def Balanced (log : List Event) : Prop :=
  ∀ p ∈ [(Event.allocHeader, Event.freeHeader), (.link, .unlink), (.newNode, .freeNode)],
    log.count p.2 = log.count p.1 ∧ log.count p.1 ≤ 1

instance (log : List Event) : Decidable (Balanced log) :=
  inferInstanceAs (Decidable (∀ p ∈ _, _))

/-- **What a call owes:** everything goes back once, and 0 means a response that fits. -/
structure CommandOk (c : Command) (w : Peer c.async) (r : Result) : Prop where
  balanced : Balanced r.log
  answered : r.ret = 0 → ∃ n, Answered w r n ∧ r.poutLength = n ∧ n ≤ c.poutLength

/-- The command or the buffer is larger than the limit. -/
def Command.Exceeds (c : Command) : Prop :=
  c.length > tpcmCommandBufferLimit ∨ c.poutLength > tpcmCommandBufferLimit

/-- A running proxy is where `proxypid` says. -/
def ProxyRuns (p : Processes) (pid : ℕ) : Prop := pid ≠ 0 ∧ p.findTask pid = some true

/-- Nothing is handled in ten minutes, and the proxy runs all the time. -/
def TimesOut {async : Bool} (w : Peer async) : Prop :=
  ∀ i < 600, w.handled i = false ∧ (i % 10 = 0 → ProxyRuns (w.atRound i) (w.pidAtRound 0))

/-- **When a call gives what it owes.** -/
structure Orderly (c : Command) (w : Peer c.async) : Prop where
  proxy : w.proxypid = 0 ∨ w.atStart.findTask w.proxypid = some true
  status : tddCmdHandle c = true → getTddInfoRspSize ≤ c.poutLength
  sizes : tddCmdHandle c = false → c.Exceeds → w.header = false
  sync : tddCmdHandle c = false → ¬ c.Exceeds → w.header = true → c.async = false →
    w.response ≠ none ∨ w.outLength > c.poutLength ∨ TimesOut w

section Proofs

variable {async : Bool} {w : Peer async} {left i pid : ℕ}

theorem compareProxy_start {p : Processes} {proxypid : ℕ} :
    (compareProxy p proxypid pid .start).1 = 0 ↔ pid = 0 ∨ p.findTask pid = some true := by
  unfold compareProxy
  by_cases h : pid = 0
  · simp [h]
  · rcases p.findTask pid with _ | _ | _ <;> simp [h]

theorem compareProxy_running {p : Processes} {proxypid : ℕ} :
    (compareProxy p proxypid pid .running).1 = 0 ↔ ProxyRuns p pid := by
  unfold compareProxy ProxyRuns
  by_cases h : pid = 0
  · simp [h]
  · rcases p.findTask pid with _ | _ | _ <;> simp [h]

theorem sendCommandLoop_eq_zero_or_one (w : Peer async) (left i pid : ℕ) :
    sendCommandLoop w left i pid = 0 ∨ sendCommandLoop w left i pid = 1 := by
  induction left generalizing i pid with
  | zero => exact .inr rfl
  | succ left ih =>
      simp only [sendCommandLoop]
      split_ifs
      all_goals first | exact .inl rfl | exact ih _ _

/-- Once the function has a pid, it keeps it: the loop ends by itself exactly when nothing
is handled and the process is the proxy at every check. -/
theorem sendCommandLoop_eq_one (hpid : pid ≠ 0) : sendCommandLoop w left i pid = 1 ↔
    ∀ k, i ≤ k → k < i + left →
      w.handled k = false ∧ (k % 10 = 0 → ProxyRuns (w.atRound k) pid) := by
  induction left generalizing i with
  | zero => exact iff_of_true rfl fun k h₁ h₂ => by omega
  | succ left ih =>
      have hsplit : ∀ P : ℕ → Prop, (∀ k, i ≤ k → k < i + (left + 1) → P k) ↔
          P i ∧ ∀ k, i + 1 ≤ k → k < i + 1 + left → P k := by
        intro P
        constructor
        · exact fun h => ⟨h i le_rfl (by omega), fun k h₁ h₂ => h k (by omega) (by omega)⟩
        · rintro ⟨h0, h⟩ k h₁ h₂
          rcases Nat.eq_or_lt_of_le h₁ with rfl | hlt
          · exact h0
          · exact h k hlt (by omega)
      rw [hsplit, ← ih, sendCommandLoop, if_neg hpid]
      cases w.handled i with
      | true => simp
      | false =>
          by_cases h10 : i % 10 = 0
          · by_cases hrun : ProxyRuns (w.atRound i) pid
            · simp [h10, hrun, compareProxy_running.mpr hrun]
            · simp [h10, hrun, mt compareProxy_running.mp hrun]
          · simp [h10]

theorem sendCommand_eq (r : ℤ) : sendCommand w r = (sendCommandLoop w 600 0 0, r) := by
  have hsend : httcsecIoSendMessage w = 0 := by
    rw [httcsecIoSendMessage, ite_self, ite_self]
  rw [sendCommand, hsend]
  rfl

theorem sendCommandLoop_eq_one_iff : sendCommandLoop w 600 0 0 = 1 ↔ TimesOut w := by
  have hround : sendCommandLoop w 600 0 0 = 1 ↔ w.handled 0 = false ∧
      ProxyRuns (w.atRound 0) (w.pidAtRound 0) ∧
        sendCommandLoop w 599 1 (w.pidAtRound 0) = 1 := by
    rw [sendCommandLoop]
    cases w.handled 0 with
    | true => simp
    | false =>
        by_cases hrun : ProxyRuns (w.atRound 0) (w.pidAtRound 0)
        · simp [hrun, compareProxy_running.mpr hrun]
        · simp [hrun, mt compareProxy_running.mp hrun]
  rw [hround]
  constructor
  · rintro ⟨h0, hrun, hrest⟩ i hi
    rw [sendCommandLoop_eq_one hrun.1] at hrest
    rcases Nat.eq_zero_or_pos i with rfl | hpos
    · exact ⟨h0, fun _ => hrun⟩
    · exact hrest i hpos (by omega)
  · intro h
    have hrun := (h 0 (by omega)).2 rfl
    refine ⟨(h 0 (by omega)).1, hrun, (sendCommandLoop_eq_one hrun.1).mpr ?_⟩
    exact fun k _ hk => h k (by omega)

/-- The wait is over early exactly when the notice is seen in one of its rounds. -/
theorem waitLoop_ne_zero (n : ℕ) : waitLoop w n i ≠ 0 → ∃ k, w.noticed k = true := by
  induction n generalizing i with
  | zero => exact fun h => absurd rfl h
  | succ n ih =>
      rw [waitLoop]
      split_ifs with hn
      · exact fun _ => ⟨i, hn⟩
      · exact ih

end Proofs

section Outcome

variable {c : Command} {w : Peer c.async}

theorem balanced_sync : Balanced [.allocHeader, .send, .freeHeader] := by decide

/-- A call that fails has only to give everything back. -/
theorem commandOk_of_error {ret n : ℤ} {log : List Event} (h : ret ≠ 0) (hb : Balanced log) :
    CommandOk c w ⟨ret, n, log⟩ :=
  ⟨hb, fun h0 => absurd h0 h⟩

/-- A call that has sent the command and returns the length in the header. -/
theorem commandOk_of_sent {log : List Event} (hb : Balanced log) (hsent : .send ∈ log)
    (hself : .answer ∉ log) (hle : ¬ w.outLength > c.poutLength) :
    CommandOk c w ⟨0, w.outLength, log⟩ ↔ w.response ≠ none := by
  constructor
  · intro hok
    obtain ⟨n, hans, -, -⟩ := hok.answered rfl
    rcases hans with h | h
    · exact absurd h.1 hself
    · rw [h.2]
      exact Option.some_ne_none n
  · intro hsome
    obtain ⟨n, hn⟩ := Option.ne_none_iff_exists'.mp hsome
    have hlen := w.response_length n hn
    exact ⟨hb, fun _ => ⟨n, .inr ⟨hsent, hn⟩, hlen, hlen ▸ not_lt.mp hle⟩⟩

/-- A synchronous command: everything is given back, and 0 is right when there is a
response. -/
theorem commandOk_sendSync : CommandOk c w (sendSync w c) ↔
    w.response ≠ none ∨ w.outLength > c.poutLength ∨ TimesOut w := by
  rw [← sendCommandLoop_eq_one_iff, sendSync, sendCommand_eq]
  dsimp only
  rcases sendCommandLoop_eq_zero_or_one w 600 0 0 with h | h
  · rw [h, if_neg (by simp), if_neg (by simp)]
    by_cases hlen : w.outLength > c.poutLength
    · rw [if_pos hlen]
      exact iff_of_true (commandOk_of_error (by decide) balanced_sync) (.inr (.inl hlen))
    · rw [if_neg hlen, commandOk_of_sent balanced_sync (by decide) (by decide) hlen]
      simp [hlen]
  · rw [h, if_pos (by simp)]
    exact iff_of_true (commandOk_of_error (by decide) balanced_sync) (.inr (.inr rfl))

/-- **An asynchronous command is in order on every path.** -/
theorem commandOk_sendAsync : CommandOk c w (sendAsync w c) := by
  rw [sendAsync, sendCommand_eq]
  dsimp only
  rcases sendCommandLoop_eq_zero_or_one w 600 0 0 with h | h
  · rw [h, if_neg (by simp), if_neg (by simp)]
    have hlog : ∀ n : ℕ, [Event.allocHeader, .newNode, .link, .send] ++
        (if n ≠ 0 then [Event.unlink] else []) ++ (if n = 0 then [Event.unlink] else []) ++
          [Event.freeHeader, .freeNode] =
        [.allocHeader, .newNode, .link, .send, .unlink, .freeHeader, .freeNode] := by
      intro n
      by_cases hn : n = 0 <;> simp [hn]
    have hb : Balanced [.allocHeader, .newNode, .link, .send, .unlink, .freeHeader, .freeNode] := by
      decide
    rw [hlog]
    by_cases htime : waitLoop w 5 0 = 0 ∧ ¬ w.noticed 5 = true
    · rw [if_pos htime, if_pos (by decide)]
      exact commandOk_of_error (by decide) hb
    · have hnoticed : ∃ k, w.noticed k = true := by
        by_contra hno
        refine htime ⟨?_, fun h5 => hno ⟨5, h5⟩⟩
        by_contra hne
        exact hno (waitLoop_ne_zero 5 hne)
      rw [if_neg htime, if_neg (by simp)]
      by_cases hret : w.outReturn = 0
      · rw [if_neg (by simpa using hret)]
        by_cases hlen : w.outLength > c.poutLength
        · rw [if_pos hlen]
          exact commandOk_of_error (by decide) hb
        · rw [if_neg hlen]
          exact (commandOk_of_sent hb (by decide) (by decide) hlen).mpr (w.response_noticed hnoticed)
      · rw [if_pos (by simpa using hret)]
        exact commandOk_of_error hret hb
  · rw [h, if_pos (by simp)]
    exact commandOk_of_error (by decide) (by decide)

theorem balanced_taken (b : Bool) : Balanced (if b then [.allocHeader] else []) ↔ b = false := by
  cases b <;> decide

/-- Beyond the limits it matters only whether a header was taken. -/
theorem orderly_of_exceeds (hrun : w.proxypid = 0 ∨ w.atStart.findTask w.proxypid = some true)
    (hstatus : tddCmdHandle c = false) (hex : c.Exceeds) : Orderly c w ↔ w.header = false := by
  constructor
  · exact fun h => h.sizes hstatus hex
  · exact fun h => ⟨hrun, fun hs => by simp [hstatus] at hs, fun _ _ => h,
      fun _ hn => absurd hex hn⟩

/-- **A call gives what it owes exactly when it is orderly.** -/
theorem command_ok_iff (c : Command) (w : Peer c.async) :
    CommandOk c w (tddSendCommand c w) ↔ Orderly c w := by
  unfold tddSendCommand
  by_cases hproxy : (compareProxy w.atStart w.proxypid w.proxypid .start).1 = 0
  · have hrun := compareProxy_start.mp hproxy
    rw [if_neg (not_not.mpr hproxy)]
    cases hstatus : tddCmdHandle c with
    | true =>
        rw [if_pos rfl]
        constructor
        · intro hok
          refine ⟨hrun, fun _ => ?_, fun h => by simp [hstatus] at h, fun h => by simp [hstatus] at h⟩
          obtain ⟨n, -, rfl, hle⟩ := hok.answered rfl
          exact hle
        · intro hord
          exact ⟨by decide, fun _ => ⟨_, .inl ⟨by decide, rfl⟩, rfl, hord.status hstatus⟩⟩
    | false =>
        rw [if_neg (by simp)]
        by_cases hex : c.Exceeds
        · rw [orderly_of_exceeds hrun hstatus hex, ← balanced_taken]
          have hlimit : ∀ r r' : Result, (if c.length > tpcmCommandBufferLimit then r
              else if c.poutLength > tpcmCommandBufferLimit then r else r') = r := by
            intro r r'
            rcases hex with h | h <;> simp [h]
          rw [hlimit]
          exact ⟨fun hok => hok.balanced, commandOk_of_error (by decide)⟩
        · obtain ⟨hlen, hpout⟩ := not_or.mp hex
          rw [if_neg hlen, if_neg hpout]
          cases hheader : w.header with
          | false =>
              rw [if_pos (by simp)]
              refine iff_of_true (commandOk_of_error (by decide) (by decide)) ⟨hrun, ?_, ?_, ?_⟩
              · exact fun h => by simp [hstatus] at h
              · exact fun _ h => absurd h hex
              · exact fun _ _ h => by simp [hheader] at h
          | true =>
              rw [if_neg (by simp)]
              by_cases hasync : c.async = true
              · rw [if_pos hasync]
                refine iff_of_true ?_ ⟨hrun, fun h => by simp [hstatus] at h,
                  fun _ h => absurd h hex, fun _ _ _ h => by simp [hasync] at h⟩
                by_cases hnode : w.node = true
                · rw [if_neg (by simpa using hnode)]
                  exact commandOk_sendAsync
                · rw [if_pos hnode]
                  exact commandOk_of_error (by decide) (by decide)
              · rw [if_neg hasync, commandOk_sendSync]
                constructor
                · exact fun h => ⟨hrun, fun h => by simp [hstatus] at h, fun _ h => absurd h hex,
                    fun _ _ _ _ => h⟩
                · exact fun h => h.sync hstatus hex hheader (Bool.eq_false_of_not_eq_true hasync)
  · rw [if_pos hproxy]
    refine iff_of_false (fun hok => ?_) fun hord => hproxy (compareProxy_start.mpr hord.proxy)
    obtain ⟨n, hans, -⟩ := hok.answered rfl
    rcases hans with h | h <;> exact absurd h.1 List.not_mem_nil

end Outcome

/-- A TPCM that refuses every command at once, behind a running proxy. -/
def refusingPeer (async : Bool) : Peer async where
  proxypid := 7
  atStart := ⟨7, fun _ => some true⟩
  header := true
  node := true
  sock := true
  skb := true
  handled := fun _ => true
  atRound := fun _ => ⟨7, fun _ => some true⟩
  pidAtRound := fun _ => 7
  cmdRet := 1
  noticed := fun _ => false
  outLength := 0
  outReturn := 0
  response := none
  response_length := nofun
  response_refused := fun _ => rfl
  response_handled := fun _ h => absurd h (by decide)
  response_noticed := fun ⟨_, h⟩ => absurd h (by decide)

/-- A synchronous command of `length` bytes with a buffer of 4096 bytes. -/
def syncCommand (length : ℤ) : Command := ⟨3, none, length, true, 4096⟩

/-- **A refused command returns 0, and a command that is too long keeps its header.** -/
theorem command_refused_and_leaked :
    ¬ CommandOk (syncCommand 12) (refusingPeer _) (tddSendCommand (syncCommand 12) (refusingPeer _)) ∧
      ¬ CommandOk (syncCommand 0x200001) (refusingPeer _)
        (tddSendCommand (syncCommand 0x200001) (refusingPeer _)) := by
  constructor
  · intro h
    obtain ⟨n, hans, -⟩ := h.answered (by decide)
    rcases hans with h | h
    · exact absurd h.1 (by decide)
    · exact absurd h.2 (by simp [refusingPeer])
  · intro h
    exact absurd h.balanced (by decide)

end Tdd
end TsbAgent
