import ComputerNetworking.Queue.RedProbability

/-!
# The RED queue

`estimator`, `drop_early`, `pickPacketToDrop`, `enque` and `deque` of
`queue/red.cc`. `enque` is written in three parts: `arrive` ends an idle period
and runs the estimator, `classify` decides whether the arrival is a drop, and
`settle` enqueues and drops. What a call takes from outside (the scheduler's
clock and the two random draws) is an argument.
-/

set_option autoImplicit false

namespace ComputerNetworking.Queue

/-- What an arrival takes from outside: the clock, `Random::uniform()`, and the
integer that `Random::integer(k)` reduces modulo `k`. -/
structure Draw where
  now : ℚ
  u : ℚ
  r : Nat := 0

/-- Where `enque` hands a packet it drops: to `drop()`, or to the early-drop
target `de_drop_`. -/
inductive Fate where
  | drop | earlyDropTarget
  deriving DecidableEq, Repr

/-- `DTYPE_NONE`, `DTYPE_FORCED` and `DTYPE_UNFORCED`. -/
inductive DropType where
  | none | forced | unforced
  deriving DecidableEq, Repr

/-- `int(x)` of a double: truncation towards zero. -/
def truncate (x : ℚ) : Int := x.num.tdiv x.den

/-- `updateMaxPFeng`. -/
def updateMaxPFeng (edp : Edp) (edv : Edv) (newAve : ℚ) : Edv :=
  let edv :=
    if edp.thMin < newAve ∧ newAve < edp.thMax then { edv with status := .between } else edv
  let edv :=
    if newAve < edp.thMin ∧ edv.status ≠ .below then
      { edv with status := .below, curMaxP := edv.curMaxP / edp.alpha }
    else edv
  if newAve > edp.thMax ∧ edv.status ≠ .above then
    { edv with status := .above, curMaxP := edv.curMaxP * edp.beta }
  else edv

/-- `updateMaxP`. -/
def updateMaxP (edp : Edp) (edv : Edv) (newAve now : ℚ) : Edv :=
  let part := 4 / 10 * (edp.thMax - edp.thMin)
  if newAve < edp.thMin + part ∧ edv.curMaxP > edp.bottom then
    { edv with curMaxP := edv.curMaxP * edp.beta, lastset := now }
  else if newAve > edp.thMax - part ∧ edp.top > edv.curMaxP then
    let alpha :=
      if edp.alpha > 1 / 4 * edv.curMaxP then 1 / 4 * edv.curMaxP else edp.alpha
    { edv with curMaxP := edv.curMaxP + alpha, lastset := now }
  else edv

/-- The adaptive part of `estimator`. -/
def adapt (edp : Edp) (edv : Edv) (newAve now : ℚ) : Edv :=
  if edp.adaptive = 1 then
    if edp.fengAdaptive = 1 then updateMaxPFeng edp edv newAve
    else if now > edv.lastset + edp.interval then updateMaxP edp edv newAve now
    else edv
  else edv

/-- `n` turns of the loop `new_ave *= 1.0 - q_w`. -/
def decay (qW : ℚ) : Nat → ℚ → ℚ
  | 0, ave => ave
  | n + 1, ave => decay qW n (ave * (1 - qW))

/-- The average that `estimator` returns. The loop `while (--m >= 1)` makes `m - 1` turns. -/
def newAverage (edp : Edp) (nqueued m : Int) (ave qW : ℚ) : ℚ :=
  if edp.isModifiedRed then (1 - qW) * ave + qW * nqueued
  else decay qW (m - 1).toNat ave * (1 - qW) + qW * nqueued

/-- `estimator`: the new average, and the variables after the adaptive update. -/
def estimator (edp : Edp) (edv : Edv) (nqueued m : Int) (ave qW now : ℚ) : ℚ × Edv :=
  let newAve := newAverage edp nqueued m ave qW
  (newAve, adapt edp edv newAve now)

/-- `pickPacketForECN`: the packet that just arrived. -/
def pickPacketForECN (pkt : Packet) : Packet := pkt

namespace REDQueue

/-- `pow((1 - edp_.q_w), edp_.ptc * 0.05)` of the cautious modes. -/
def cautiousFraction (lm : Libm) (s : REDQueue) : ℚ :=
  lm.pow (1 - s.edp.qW) (s.edp.ptc * (5 / 100))

/-- The draw that `drop_early` compares with the probability. With `cautious` 2
it grows when the queue is far below the average; `qsize / 0` is not below 1. -/
def cautiousDraw (lm : Libm) (s : REDQueue) (u : ℚ) : ℚ :=
  let scaled := s.cautiousFraction lm * s.edv.vAve
  let ratio := s.qlen / scaled
  if s.edp.cautious = 2 ∧ scaled ≠ 0 ∧ ratio < 1 then u * (1 / ratio) else u

/-- The two probabilities `drop_early` computes, and the variables it leaves. -/
def earlyProbability (s : REDQueue) (pkt : Packet) : Except Crash Edv :=
  let (p1, edv) := calculateP s.edp s.edv s.edv.vAve s.edp.thMax s.edp.gentle
    s.edv.vA s.edv.vB s.edv.vC s.edv.vD s.edv.curMaxP
  match modifyP p1 edv.count edv.countBytes s.edp.bytes s.edp.meanPktsize s.edp.wait pkt.size with
  | .error e => .error e
  | .ok p => .ok { edv with vProb1 := p1, vProb := p }

/-- `v_prob1 < mark_p`, false for NaN. -/
def belowMarkP (s : REDQueue) : Bool :=
  match s.edv.vProb1 with
  | none => false
  | some p => p < s.edp.markP

/-- `drop_early`: the state it leaves, the packet with its `ce` flag, and whether
the packet is to be dropped. -/
def dropEarly (lm : Libm) (s : REDQueue) (pkt : Packet) (u : ℚ) :
    Except Crash (REDQueue × Packet × Bool) :=
  match s.earlyProbability pkt with
  | .error e => .error e
  | .ok edv =>
      let s := { s with edv }
      if s.edp.cautious = 1 ∧ (s.qlen : ℚ) < s.cautiousFraction lm * s.edv.vAve then
        .ok (s, pkt, false)
      else if s.cautiousDraw lm u ≤ s.edv.vProb then
        let s := { s with edv := { s.edv with count := 0, countBytes := 0 } }
        let picked := pickPacketForECN pkt
        if s.edp.setbit ∧ picked.ect ∧ (¬s.edp.useMarkP ∨ s.belowMarkP) then
          -- marked instead of dropped
          .ok (s, { picked with ce := true }, false)
        else .ok (s, pkt, true)
      else .ok (s, pkt, false)

/-- `pickPacketToDrop`; `r` is the integer behind `Random::integer`. -/
def pickPacketToDrop (s : REDQueue) (r : Nat) : Option Packet :=
  let victim : Int :=
    if s.dropFront then min 1 ((s.q.length : Int) - 1)
    else if s.dropRand then ((r % s.q.length : Nat) : Int)
    else (s.q.length : Int) - 1
  s.q.lookup victim

/-- Packet times of the idle period that ends now, `m` in `enque`. -/
def idlePackets (s : REDQueue) (now : ℚ) : Int :=
  if s.idle then
    if s.edp.cautious = 3 then
      truncate (s.edp.ptc * s.edp.meanPktsize / s.edp.idlePktsize * (now - s.idletime))
    else truncate (s.edp.ptc * (now - s.idletime))
  else 0

/-- First part of `enque`: the idle period, the estimator and the tally of
arriving traffic. -/
def arrive (s : REDQueue) (pkt : Packet) (now : ℚ) : REDQueue :=
  let m := s.idlePackets now
  let (ave, edv) := estimator s.edp s.edv s.qlen (m + 1) s.edv.vAve s.edp.qW now
  { s with
    idle := false
    edv := { edv with
      vAve := ave
      count := edv.count + 1
      countBytes := edv.countBytes + pkt.size } }

/-- The average has passed the upper threshold and no marking probability is set. -/
def pastMaxThreshold (s : REDQueue) : Prop :=
  ¬s.edp.useMarkP ∧
    ((¬s.edp.gentle ∧ s.edv.vAve ≥ s.edp.thMax) ∨ (s.edp.gentle ∧ s.edv.vAve ≥ 2 * s.edp.thMax))

instance (s : REDQueue) : Decidable s.pastMaxThreshold :=
  inferInstanceAs (Decidable (¬s.edp.useMarkP ∧
    ((¬s.edp.gentle ∧ s.edv.vAve ≥ s.edp.thMax) ∨ (s.edp.gentle ∧ s.edv.vAve ≥ 2 * s.edp.thMax))))

/-- `qavg >= edp_.th_min && qlen > 1`. -/
def congested (s : REDQueue) : Prop := s.edv.vAve ≥ s.edp.thMin ∧ s.qlen > 1

instance (s : REDQueue) : Decidable s.congested :=
  inferInstanceAs (Decidable (s.edv.vAve ≥ s.edp.thMin ∧ s.qlen > 1))

/-- `enque` calls `drop_early` exactly in these states. -/
def reachesDropEarly (s : REDQueue) : Prop :=
  s.congested ∧ ¬s.pastMaxThreshold ∧ s.edv.old = true

instance (s : REDQueue) : Decidable s.reachesDropEarly :=
  inferInstanceAs (Decidable (s.congested ∧ ¬s.pastMaxThreshold ∧ s.edv.old = true))

/-- The threshold decision of `enque`, before the hard limit is looked at. -/
def threshold (lm : Libm) (s : REDQueue) (pkt : Packet) (u : ℚ) :
    Except Crash (REDQueue × Packet × DropType) :=
  if s.congested then
    if s.pastMaxThreshold then .ok (s, pkt, .forced)
    else if s.edv.old = false then
      -- the average has just crossed `th_min` from below
      .ok ({ s with edv := { s.edv with count := 1, countBytes := pkt.size, old := true } },
        pkt, .none)
    else
      match s.dropEarly lm pkt u with
      | .error e => .error e
      | .ok (s, pkt, true) => .ok (s, pkt, .unforced)
      | .ok (s, pkt, false) => .ok (s, pkt, .none)
  else .ok ({ s with edv := { s.edv with vProb := 0, old := false } }, pkt, .none)

/-- Second part of `enque`: the drop type. A full queue forces a drop whatever
the thresholds say; `qlen` and `qlim` are those the arrival found. -/
def classify (lm : Libm) (s : REDQueue) (pkt : Packet) (u : ℚ) :
    Except Crash (REDQueue × Packet × DropType) :=
  match s.threshold lm pkt u with
  | .error e => .error e
  | .ok (s', pkt, d) => .ok (s', pkt, if s.qlen ≥ s.hardLimit then .forced else d)

/-- Third part of `enque`: the packet joins the queue, and the packet that is
dropped, if any, leaves it. -/
def settle (s : REDQueue) (pkt : Packet) (r : Nat) :
    DropType → Except Crash (REDQueue × Option (Fate × Packet))
  | .unforced =>
      let fate := if s.deDrop then Fate.earlyDropTarget else Fate.drop
      let picked := pickPacketForECN pkt
      -- for subclasses that pick another packet; here the two are the same
      if picked.uid ≠ pkt.uid then
        match (s.q.enque pkt).remove picked with
        | .error e => .error e
        | .ok q => .ok ({ s with q }, some (fate, picked))
      else .ok (s, some (fate, picked))
  | .none => .ok ({ s with q := s.q.enque pkt }, none)
  | .forced =>
      let s := { s with q := s.q.enque pkt }
      match s.pickPacketToDrop r with
      -- `lookup` missed: `remove(0)` walks off the list
      | none => .error .abort
      | some victim =>
          match s.q.remove victim with
          | .error e => .error e
          | .ok q =>
              let edv := if s.ns1Compat then s.edv else { s.edv with count := 0, countBytes := 0 }
              .ok ({ s with q, edv }, some (.drop, victim))

/-- `REDQueue::enque`: the state it leaves and the packet it hands on as dropped. -/
def enque (lm : Libm) (s : REDQueue) (pkt : Packet) (d : Draw) :
    Except Crash (REDQueue × Option (Fate × Packet)) :=
  match (s.arrive pkt d.now).classify lm pkt d.u with
  | .error e => .error e
  | .ok (s, pkt, droptype) => s.settle pkt d.r droptype

/-- `REDQueue::deque`. -/
def deque (s : REDQueue) (now : ℚ) : Option Packet × REDQueue :=
  match s.q.deque with
  | (some p, q) => (some p, { s with q, idle := false })
  | (none, q) => (none, { s with q, idle := true, idletime := now })

end REDQueue

/-- A call on the queue from outside. -/
inductive Op where
  | enque (pkt : Packet) (d : Draw)
  | deque (now : ℚ)

/-- One call, for results about the queue's own state. -/
def redStep (lm : Libm) (s : REDQueue) : Op → Except Crash REDQueue
  | .enque pkt d =>
      match s.enque lm pkt d with
      | .error e => .error e
      | .ok (s', _) => .ok s'
  | .deque now => .ok (s.deque now).2

end ComputerNetworking.Queue
