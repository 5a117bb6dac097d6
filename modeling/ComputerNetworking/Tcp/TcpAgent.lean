import Mathlib.Tactic

/-!
# The TCP sender

The sequence numbers of the agent, and what each of its events does to them. The
sizes of the congestion window are left to the environment: every function that
looks at the window takes what it finds there from `Env`, so the results hold
however the window is opened and closed. The segments handed to the network are
kept in `sent`. The sending loop is given more turns than it takes
(`sendLoop_eq_of_turns`).
-/

set_option autoImplicit false

namespace ComputerNetworking.Tcp

/-- The options of the agent. -/
structure Config where
  size : ℕ := 1000
  tcpipBaseHdrSize : ℕ := 40
  useHeaders : Bool := true
  tsOption : Bool := false
  tsOptionSize : ℕ := 10
  syn : Bool := true
  wnd : ℚ := 20
  maxburst : ℤ := 0
  aggressiveMaxburst : Bool := true
  overhead : ℚ := 0
  numdupacks : ℤ := 3
  noFastRetrans : Bool := false
  singledup : Bool := true
  bugFix : Bool := true
  bugfixSs : Bool := true
  ecn : Bool := false
  eln : Bool := false
  elnRxmitThresh : ℤ := 1
  slowStartRestart : Bool := true
  restartBugfix : Bool := true
  frtoEnabled : Bool := false
  sfrtoEnabled : Bool := false
  qsEnabled : Bool := false
  tcpQsRecovery : Bool := true

namespace Config

/-- Number of bytes of headers. -/
def headersize (cfg : Config) : ℕ :=
  if cfg.tsOption then cfg.tcpipBaseHdrSize + cfg.tsOptionSize else cfg.tcpipBaseHdrSize

/-- The size of the packet with a sequence number: the SYN has headers only. -/
def packetSize (cfg : Config) (seqno : ℤ) : ℕ :=
  if seqno = 0 then if cfg.syn then cfg.tcpipBaseHdrSize else cfg.size
  else if cfg.useHeaders then cfg.size + cfg.headersize
  else cfg.size

end Config

/-- A data packet. -/
structure Segment where
  seqno : ℤ
  size : ℕ

/-- `last_cwnd_action_`. -/
inductive CwndAction where
  | none | dupack | timeout | ecn
  deriving DecidableEq

/-- What an event finds in the parts that are left open: the congestion window at each
look, whether a quick start is asked for and whether it is granted, and the marks of
the ack. -/
structure Env where
  cwnd : ℕ → ℚ
  qsRate : Bool := false
  qsGranted : Bool := false
  ecnecho : Bool := false
  elnMark : Bool := false

/-- `TCP_MAXSEQ`. -/
def TCP_MAXSEQ : ℤ := 1073741824

/-- The sequence numbers of the agent after `reset`, its flags and what it has sent. -/
structure TcpAgent where
  cfg : Config
  tSeqno : ℤ := 0
  curseq : ℤ := 0
  maxseq : ℤ := -1
  highestAck : ℤ := -1
  lastAck : ℤ := -1
  recover : ℤ := 0
  dupacks : ℤ := 0
  frto : ℕ := 0
  lastCwndAction : CwndAction := .none
  /-- not set by the constructor -/
  elnLastRxmit : ℤ
  delsndPending : Bool := false
  qsRequested : Bool := false
  qsApproved : Bool := false
  qsWindow : ℤ := 0
  sent : List Segment := []

namespace TcpAgent

/-- Send a packet. `max_connects_` is off. -/
def output (a : TcpAgent) (env : Env) (seqno : ℤ) : TcpAgent :=
  { a with
    -- increment only on initial SYN
    curseq := if seqno = 0 ∧ a.cfg.syn ∧ a.maxseq = -1 then a.curseq + 1 else a.curseq
    qsRequested := a.qsRequested || (seqno = 0 && a.cfg.qsEnabled && env.qsRate)
    maxseq := if a.maxseq < seqno then seqno else a.maxseq
    sent := a.sent ++ [{ seqno, size := a.cfg.packetSize seqno }] }

/-- The window size that allows `num` segments past the recovery point. -/
def forceWnd (a : TcpAgent) (num : ℤ) : ℤ := a.recover + num - a.highestAck

/-- The conversion of a double to an int. -/
def toInt (x : ℚ) : ℤ := x.num.tdiv x.den

/-- `window`, where `cwnd` is the congestion window. -/
def window (a : TcpAgent) (cwnd : ℚ) : ℤ :=
  if a.frto = 2 then if (a.forceWnd 2 : ℚ) < a.cfg.wnd then a.forceWnd 2 else toInt a.cfg.wnd
  else if cwnd < a.cfg.wnd then toInt cwnd
  else toInt a.cfg.wnd

/-- The burst limit after `npackets` packets. -/
def burstDone (a : TcpAgent) (npackets : ℕ) : Prop :=
  a.cfg.maxburst ≠ 0 ∧ (npackets : ℤ) = a.cfg.maxburst

instance (a : TcpAgent) (npackets : ℕ) : Decidable (a.burstDone npackets) :=
  inferInstanceAs (Decidable (_ ∧ _))

/-- One more packet. -/
def sendNext (a : TcpAgent) (env : Env) : TcpAgent :=
  { a.output env a.tSeqno with tSeqno := a.tSeqno + 1 }

/-- The loop of `send_much`, for at most `fuel` turns. -/
def sendLoop (env : Env) (force : Bool) : ℕ → ℕ → TcpAgent → TcpAgent
  | 0, _, a => a
  | fuel + 1, npackets, a =>
      if a.tSeqno ≤ a.highestAck + a.window (env.cwnd npackets) ∧ a.tSeqno < a.curseq then
        if a.cfg.overhead = 0 ∨ force ∨ a.qsApproved then
          if a.qsApproved then { a.sendNext env with delsndPending := true }
          else if (a.sendNext env).burstDone (npackets + 1) then a.sendNext env
          else sendLoop env force fuel (npackets + 1) (a.sendNext env)
        else if a.delsndPending then
          if a.burstDone npackets then a else sendLoop env force fuel npackets a
        -- set a delayed send timeout
        else { a with delsndPending := true }
      else a

/-- Try to send as much data as the window will allow. The timer for bursts is never set. -/
def sendMuch (a : TcpAgent) (env : Env) (force : Bool) : TcpAgent :=
  if force = false ∧ a.delsndPending then a
  else sendLoop env force ((a.curseq - a.tSeqno).toNat + 2) 0 a

/-- Convert bytes into packets; `-1` is an infinite send. -/
def sendmsg (a : TcpAgent) (env : Env) (nbytes : ℤ) : TcpAgent :=
  let curseq :=
    if nbytes = -1 ∧ a.curseq ≤ TCP_MAXSEQ then TCP_MAXSEQ
    else a.curseq + (nbytes.tdiv a.cfg.size + if nbytes.tmod a.cfg.size ≠ 0 then 1 else 0)
  { a with curseq }.sendMuch env false

/-- `advanceby`. -/
def advanceby (a : TcpAgent) (env : Env) (delta : ℤ) : TcpAgent :=
  { a with curseq := a.curseq + delta }.sendMuch env false

/-- The command `advance`. -/
def advance (a : TcpAgent) (env : Env) (newseq : ℤ) : TcpAgent :=
  if a.maxseq < newseq then a.advanceby env (newseq - a.curseq)
  else a.advanceby env (a.maxseq - a.curseq)

/-- Resume the sequence one past the last packet acked. -/
def resetRtxTimer (a : TcpAgent) : TcpAgent := { a with tSeqno := a.highestAck + 1 }

/-- Process a packet that acks previously unacknowledged data. -/
def newack (a : TcpAgent) (seqno : ℤ) : TcpAgent :=
  { a with
    dupacks := 0
    lastAck := seqno
    highestAck := seqno
    tSeqno := if a.tSeqno < seqno + 1 then seqno + 1 else a.tSeqno }

/-- Respond to a congestion indication bit. -/
def ecnAction (a : TcpAgent) (seqno : ℤ) : TcpAgent :=
  if a.recover < seqno ∨ a.lastCwndAction = .timeout then
    { a with recover := a.maxseq, lastCwndAction := .ecn }
  else a

/-- A spurious timeout has been detected. -/
def spuriousTimeout (a : TcpAgent) : TcpAgent :=
  { a with frto := 0, recover := a.highestAck - 1 }

/-- F-RTO on the first and on the second new ack after a timeout. -/
def frtoNewack (a : TcpAgent) : TcpAgent :=
  if a.frto = 1 then
    if (a.highestAck : ℚ) + a.cfg.wnd ≤ a.recover + 1 ∨ a.curseq ≤ a.recover + 1 then
      { a with frto := 0 }
    -- the retransmission fixes the whole window
    else if a.highestAck = a.recover then { a with frto := 0 }
    else { a with tSeqno := a.recover + 1, frto := 2 }
  else if a.frto = 2 then a.spuriousTimeout
  else a

/-- What a new ack does. -/
def recvNewackHelper (a : TcpAgent) (seqno : ℤ) : TcpAgent :=
  let a := a.newack seqno
  let a := if a.qsWindow ≠ 0 ∧ a.qsWindow ≤ a.highestAck then { a with qsWindow := 0 } else a
  a.frtoNewack

/-- Send a new packet on a first or second duplicate ack. -/
def sendOne (a : TcpAgent) (env : Env) : TcpAgent :=
  if (a.tSeqno : ℚ) ≤ a.highestAck + a.cfg.wnd ∧ a.tSeqno < a.curseq ∧
      (a.tSeqno : ℚ) ≤ a.highestAck + env.cwnd 0 + a.dupacks then
    a.sendNext env
  else a

/-- Loss occurred in the quick-start window; the flag says whether it took place. -/
def lossQuickStart (a : TcpAgent) (env : Env) : TcpAgent × Bool :=
  if a.qsWindow ≠ 0 ∧ a.cfg.tcpQsRecovery then
    ({ a with qsWindow := 0 }.output env (a.lastAck + 1), true)
  else (a, false)

/-- The part of `dupack_action` after the label `tahoe_action`. -/
def tahoeAction (a : TcpAgent) (env : Env) : TcpAgent :=
  let (a, lost) := { a with recover := a.maxseq }.lossQuickStart env
  let a := if lost then a else { a with lastCwndAction := .dupack }
  a.resetRtxTimer

/-- What to do on the duplicate ack that reaches the threshold. -/
def dupackAction (a : TcpAgent) (env : Env) : TcpAgent :=
  if a.recover < a.highestAck ∨ (a.cfg.bugFix = false ∧ a.cfg.ecn = false) ∨
      (a.cfg.bugfixSs ∧ a.highestAck = 0) then
    a.tahoeAction env
  else if a.cfg.ecn ∧ a.lastCwndAction = .ecn then
    { a with lastCwndAction := .dupack }.resetRtxTimer
  else if a.cfg.bugFix then a
  else a.tahoeAction env

/-- When exiting quick start. -/
def endQuickStart (a : TcpAgent) : TcpAgent :=
  { a with qsApproved := false, qsWindow := a.maxseq }

/-- The answer to a quick-start request. -/
def processQuickStart (a : TcpAgent) (granted : Bool) : TcpAgent :=
  { a with qsRequested := false, qsApproved := granted }

/-- A duplicate ack while in F-RTO indicates that the timeout was valid. -/
def recvFrtoHelper (a : TcpAgent) (seqno : ℤ) : TcpAgent :=
  if seqno = a.lastAck ∧ a.frto ≠ 0 then
    { a with tSeqno := a.highestAck + 1, frto := 0, dupacks := -1 }
  else a

/-- Retransmit on an explicit loss notification. -/
def tcpEln (a : TcpAgent) (env : Env) (ack : ℤ) : TcpAgent :=
  let a := { a with dupacks := a.dupacks + 1 }
  if a.dupacks = a.cfg.elnRxmitThresh ∧ a.elnLastRxmit < ack then
    { a.output env (a.lastAck + 1) with elnLastRxmit := a.lastAck + 1 }
  else a.sendMuch env false

/-- A duplicate ack. -/
def recvDupack (a : TcpAgent) (env : Env) : TcpAgent :=
  let a := { a with dupacks := a.dupacks + 1 }
  if a.dupacks = a.cfg.numdupacks ∧ a.cfg.noFastRetrans = false then a.dupackAction env
  else if a.dupacks < a.cfg.numdupacks ∧ a.cfg.singledup then a.sendOne env
  else a

/-- Quick start, when an ack comes in. -/
def recvQuickStart (a : TcpAgent) (env : Env) (seqno : ℤ) : TcpAgent :=
  let a := if a.qsApproved ∧ a.lastAck < seqno then a.endQuickStart else a
  if a.qsRequested then a.processQuickStart env.qsGranted else a

/-- `recv` up to the comparison with `last_ack_`. -/
def recvStart (a : TcpAgent) (env : Env) (seqno : ℤ) : TcpAgent :=
  let a := a.recvQuickStart env seqno
  let a := if env.ecnecho ∧ a.cfg.ecn then a.ecnAction seqno else a
  a.recvFrtoHelper seqno

/-- The end of `recv`: try to send more data. -/
def recvEnd (a : TcpAgent) (env : Env) (seqno : ℤ) : TcpAgent :=
  if a.lastAck ≤ seqno ∨ a.cfg.aggressiveMaxburst then a.sendMuch env false else a

/-- The main reception path, for the ack of `seqno`. -/
def recv (a : TcpAgent) (env : Env) (seqno : ℤ) : TcpAgent :=
  let a := a.recvStart env seqno
  if a.lastAck < seqno then (a.recvNewackHelper seqno).recvEnd env seqno
  else if seqno = a.lastAck then
    if env.elnMark ∧ a.cfg.eln then a.tcpEln env seqno
    else (a.recvDupack env).recvEnd env seqno
  else a.recvEnd env seqno

/-- What a timeout does to the recovery point and to F-RTO. -/
def timeoutRecover (a : TcpAgent) : TcpAgent :=
  let frtoOn : ℕ := if a.cfg.frtoEnabled ∨ a.cfg.sfrtoEnabled then 1 else a.frto
  -- no outstanding data: don't do anything
  if a.highestAck = a.maxseq ∧ a.cfg.slowStartRestart = false then a
  else if a.highestAck = a.maxseq ∧ a.cfg.restartBugfix then { a with recover := a.maxseq }
  -- in recovery from a recent ECN, or not
  else if a.highestAck < a.maxseq ∧ a.lastCwndAction = .ecn then
    { a with recover := a.maxseq, frto := frtoOn }
  else { a with recover := a.maxseq, frto := frtoOn, lastCwndAction := .timeout }

/-- The retransmit timer. -/
def timeout (a : TcpAgent) (env : Env) : TcpAgent :=
  let a := { a with frto := 0, qsApproved := false }
  let a := a.timeoutRecover.resetRtxTimer
  { a with lastCwndAction := .timeout }.sendMuch env false

/-- The timer for delayed sends. -/
def timeoutNonrtx (a : TcpAgent) (env : Env) : TcpAgent :=
  { a with delsndPending := false }.sendMuch env true

variable {a : TcpAgent} {env : Env} {force : Bool} {seqno : ℤ}

/-- A bound for the turns of the sending loop; the initial SYN adds a packet. -/
def turnsLeft (a : TcpAgent) : ℕ := (a.curseq - a.tSeqno).toNat + if a.maxseq < 0 then 1 else 0

theorem sendNext_turnsLeft (env : Env) (h : a.tSeqno < a.curseq) :
    (a.sendNext env).turnsLeft < a.turnsLeft := by
  rw [turnsLeft, turnsLeft, sendNext, output]
  dsimp only
  split_ifs <;> omega

/-- More turns than the loop takes make no difference. -/
theorem sendLoop_eq_of_turns {n m : ℕ} (npackets : ℕ) (h : force = true ∨ a.delsndPending = false)
    (hn : a.turnsLeft < n) (hm : a.turnsLeft < m) :
    sendLoop env force n npackets a = sendLoop env force m npackets a := by
  induction n generalizing a m npackets with
  | zero => exact absurd hn (Nat.not_lt_zero _)
  | succ n ih =>
      cases m with
      | zero => exact absurd hm (Nat.not_lt_zero _)
      | succ m =>
          rw [sendLoop, sendLoop]
          by_cases hwin : a.tSeqno ≤ a.highestAck + a.window (env.cwnd npackets) ∧
              a.tSeqno < a.curseq
          · rw [if_pos hwin, if_pos hwin]
            have hturn := sendNext_turnsLeft env hwin.2
            have hrest := ih (m := m) (a := a.sendNext env) (npackets + 1) h (by omega) (by omega)
            rw [hrest]
            -- without force the timer is not pending, so the loop does not spin
            rcases h with hforce | hidle
            · rw [if_pos (Or.inr (Or.inl hforce)), if_pos (Or.inr (Or.inl hforce))]
            · rw [hidle]
              rfl
          · rw [if_neg hwin, if_neg hwin]

end TcpAgent

end ComputerNetworking.Tcp
