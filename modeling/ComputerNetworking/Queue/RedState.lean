import ComputerNetworking.Queue.PacketQueue
import Mathlib.Data.Rat.Floor

/-!
# Configuration and state of a RED queue

`struct edp`, `struct edv`, the fields of `REDQueue` and `REDQueue::reset` from
`queue/red.h` and `queue/red.cc`. A `double` is an exact rational; `v_prob1` is
`none` where the arithmetic of the source gives NaN. The two functions of the C
library the code calls, `exp` and `pow` with a real exponent, are a parameter.
-/

set_option autoImplicit false

namespace ComputerNetworking.Queue

/-- `exp` and `pow` of the C library on doubles. -/
structure Libm where
  exp : ℚ → ℚ
  pow : ℚ → ℚ → ℚ

/-- Early drop parameters; the defaults are those of `initParams`. -/
structure Edp where
  meanPktsize : Nat := 0
  idlePktsize : Nat := 0
  bytes : Bool := false
  wait : Bool := false
  setbit : Bool := false
  gentle : Bool := false
  thMin : ℚ := 0
  thMinPkts : ℚ := 0
  thMax : ℚ := 0
  thMaxPkts : ℚ := 0
  maxPInv : ℚ := 0
  markP : ℚ := 0
  useMarkP : Bool := false
  qW : ℚ := 0
  adaptive : Int := 0
  cautious : Int := 0
  alpha : ℚ := 0
  beta : ℚ := 0
  interval : ℚ := 0
  targetdelay : ℚ := 0
  top : ℚ := 0
  bottom : ℚ := 0
  fengAdaptive : Int := 0
  isModifiedRed : Bool := false
  bufferSize : Int := 0
  ptc : ℚ := 0
  delay : ℚ := 0

/-- `enum Status`, used by the Feng variant of Adaptive RED. -/
inductive Status where
  | above | below | between
  deriving DecidableEq, Repr

/-- Early drop variables; the defaults are those of `initParams`. -/
structure Edv where
  vAve : ℚ := 0
  vProb1 : Option ℚ := some 0
  vProb : ℚ := 0
  vA : ℚ := 0
  vB : ℚ := 0
  vC : ℚ := 0
  vD : ℚ := 0
  count : Int := 0
  countBytes : Int := 0
  old : Bool := false
  curMaxP : ℚ := 1
  lastset : ℚ := 0
  status : Status := .above

/-- The `LinkDelay` a queue is told about. -/
structure LinkDelay where
  bandwidth : ℚ
  delay : ℚ

/-- A `REDQueue`. `deDrop` says whether an early-drop target is set. Drop-tail is
the policy when neither `dropFront` nor `dropRand` is set. -/
structure REDQueue where
  edp : Edp
  edv : Edv := {}
  qib : Bool := false
  qlim : Int := 50
  q : PacketQueue := .empty
  link : Option LinkDelay := none
  deDrop : Bool := false
  dropFront : Bool := false
  dropRand : Bool := false
  ns1Compat : Bool := false
  idle : Bool := true
  idletime : ℚ := 0

namespace REDQueue

/-- `qib_ ? q_->byteLength() : q_->length()`. -/
def qlen (s : REDQueue) : Int := if s.qib then s.q.byteLength else s.q.length

/-- `qib_ ? (qlim_ * edp_.mean_pktsize) : qlim_`. -/
def hardLimit (s : REDQueue) : Int := if s.qib then s.qlim * s.edp.meanPktsize else s.qlim

end REDQueue

/-- `initialize_params`, for a queue that knows its link. -/
def initializeParams (lm : Libm) (link : LinkDelay) (edp : Edp) : Edp :=
  let rtt := max (3 * (edp.delay + 1 / edp.ptc)) (1 / 10)
  -- the values 0, -1 and -2 of a parameter ask for an automatic one
  let qW :=
    if edp.qW = 0 then 1 - lm.exp (-1 / edp.ptc)
    else if edp.qW = -1 then 1 - lm.exp (-1 / (10 * rtt * edp.ptc))
    else if edp.qW = -2 then 1 - lm.exp (-10 / edp.ptc)
    else edp.qW
  let targetqueue := edp.targetdelay * edp.ptc
  let thMinPkts :=
    if edp.thMinPkts = 0 then (if 5 < targetqueue / 2 then targetqueue / 2 else 5)
    else edp.thMinPkts
  let thMaxPkts := if edp.thMaxPkts = 0 then 3 * thMinPkts else edp.thMaxPkts
  let bottom1 := 80000 / link.bandwidth
  let bottom :=
    if edp.bottom = 0 then (if bottom1 < 1 / 100 then bottom1 else 1 / 100) else edp.bottom
  { edp with qW, thMinPkts, thMaxPkts, bottom }

/-- The thresholds part of `reset`: the packet time constant and the automatic
parameters when a link is attached, then the thresholds in the queue's unit. -/
def resetEdp (lm : Libm) (link : Option LinkDelay) (qib : Bool) (edp : Edp) : Edp :=
  let edp :=
    match link with
    | some l => initializeParams lm l { edp with ptc := l.bandwidth / (8 * edp.meanPktsize) }
    | none => edp
  let thMaxPkts := if edp.thMaxPkts = 0 then 3 * edp.thMinPkts else edp.thMaxPkts
  if qib then
    { edp with
      thMaxPkts
      thMin := edp.thMinPkts * edp.meanPktsize
      thMax := thMaxPkts * edp.meanPktsize }
  else
    { edp with thMaxPkts, thMin := edp.thMinPkts, thMax := thMaxPkts }

/-- The variables part of `reset`. -/
def resetEdv (edp : Edp) (edv : Edv) : Edv :=
  -- equal thresholds would divide by zero
  let thDiff := if edp.thMax - edp.thMin = 0 then 1 else edp.thMax - edp.thMin
  let curMaxP := 1 / edp.maxPInv
  { edv with
    vAve := 0
    count := 0
    countBytes := 0
    old := false
    vA := 1 / thDiff
    curMaxP
    vB := -edp.thMin / thDiff
    lastset := 0
    vC := if edp.gentle then (1 - curMaxP) / edp.thMax else edv.vC
    vD := if edp.gentle then 2 * curMaxP - 1 else edv.vD }

/-- `REDQueue::reset`, with the packets `Queue::reset` drops. `now` is the
scheduler's clock, 0 before there is a scheduler. -/
def REDQueue.reset (lm : Libm) (s : REDQueue) (now : ℚ) : REDQueue × List Packet :=
  let edp := resetEdp lm s.link s.qib s.edp
  ({ s with edp, edv := resetEdv edp s.edv, q := .empty, idle := true, idletime := now },
    s.q.packets)

/-- `reset` leaves `linterm_` as configured. -/
@[simp] theorem resetEdp_maxPInv (lm : Libm) (link : Option LinkDelay) (qib : Bool) (edp : Edp) :
    (resetEdp lm link qib edp).maxPInv = edp.maxPInv := by
  cases link <;> cases qib <;> rfl

end ComputerNetworking.Queue
