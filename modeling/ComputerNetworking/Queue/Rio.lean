import ComputerNetworking.Queue.RedQueue

/-!
# The RIO queue

`RIOQueue` of `queue/rio.cc`, a RED queue with separate thresholds and variables
for In packets (`pri_` set) and Out packets. Both `drop_in_early` and
`drop_out_early` get their probability from `REDQueue::calculate_p` and hand it
`linterm_`, the inverse of the maximum probability. The In and the Out half of
`enque` differ in the estimator, the counters and what a forced drop clears; the
threshold logic is one function of the half's parameters and variables.
-/

set_option autoImplicit false

namespace ComputerNetworking.Queue

/-- `struct edp_rio`. -/
structure EdpRio where
  gentle : Bool := false
  thMin : ℚ
  thMax : ℚ
  maxPInv : ℚ := 0

/-- `struct edv_rio`. -/
structure EdvRio where
  vAve : ℚ := 0
  vProb1 : Option ℚ := some 0
  vProb : ℚ := 0
  vA : ℚ := 0
  vB : ℚ := 0
  vC : ℚ := 0
  vD : ℚ := 0
  count : Int := 0
  countBytes : Int := 0
  old : Bool := false

structure RIOQueue extends REDQueue where
  edpIn : EdpRio
  edpOut : EdpRio
  edvIn : EdvRio := {}
  edvOut : EdvRio := {}
  inLen : Int := 0
  inBcount : Int := 0
  inIdle : Bool := true
  priorityMethod : Int := 0

/-- Thresholds of one half after `reset`: scaled by the packet size in byte mode,
gentle when the whole queue is. -/
def resetEdpRio (qib : Bool) (edp : Edp) (half : EdpRio) : EdpRio :=
  let half :=
    if qib then
      { half with thMin := half.thMin * edp.meanPktsize, thMax := half.thMax * edp.meanPktsize }
    else half
  if edp.gentle then { half with gentle := true } else half

/-- Variables of one half after `reset`; `maxPInv` is `in_linterm_` for the In half
and `linterm_` for the Out half. -/
def resetEdvRio (half : EdpRio) (maxPInv : ℚ) (edv : EdvRio) : EdvRio :=
  { edv with
    vC := if half.gentle then (1 - 1 / maxPInv) / half.thMax else edv.vC
    vD := if half.gentle then 2 / maxPInv - 1 else edv.vD
    vAve := 0
    count := 0
    countBytes := 0
    old := false
    vA := 1 / (half.thMax - half.thMin)
    vB := -half.thMin / (half.thMax - half.thMin) }

/-- The call of one half on the probability functions and the draw: the variables
and the half's variables it leaves, the packet, and whether it is dropped. -/
def dropHalfEarly (edp : Edp) (edv : Edv) (vAve : ℚ) (half : EdpRio) (maxPInv : ℚ)
    (edvHalf : EdvRio) (pkt : Packet) (u : ℚ) : Except Crash (Edv × EdvRio × Packet × Bool) :=
  let (p1, edv) := calculateP edp edv vAve half.thMax half.gentle edvHalf.vA edvHalf.vB
    edvHalf.vC edvHalf.vD maxPInv
  match modifyP p1 edvHalf.count edvHalf.countBytes edp.bytes edp.meanPktsize edp.wait
      pkt.size with
  | .error e => .error e
  | .ok p =>
      let edvHalf := { edvHalf with vProb1 := p1, vProb := p }
      if u ≤ p then
        let edvHalf := { edvHalf with count := 0, countBytes := 0 }
        let picked := pickPacketForECN pkt
        if edp.setbit ∧ picked.ect ∧ vAve < half.thMax then
          .ok (edv, edvHalf, { picked with ce := true }, false)
        else .ok (edv, edvHalf, pkt, true)
      else .ok (edv, edvHalf, pkt, false)

/-- The threshold logic of one half, for its average and its queue length. -/
def thresholdHalf (edp : Edp) (edv : Edv) (vAve : ℚ) (len : Int) (half : EdpRio) (maxPInv : ℚ)
    (edvHalf : EdvRio) (pkt : Packet) (u : ℚ) :
    Except Crash (Edv × EdvRio × Packet × DropType) :=
  if vAve ≥ half.thMin ∧ len > 1 then
    if (¬half.gentle ∧ vAve ≥ half.thMax) ∨ (half.gentle ∧ vAve ≥ 2 * half.thMax) then
      .ok (edv, edvHalf, pkt, .forced)
    else if edvHalf.old = false then
      .ok (edv, { edvHalf with count := 1, countBytes := pkt.size, old := true }, pkt, .none)
    else
      match dropHalfEarly edp edv vAve half maxPInv edvHalf pkt u with
      | .error e => .error e
      | .ok (edv, edvHalf, pkt, true) => .ok (edv, edvHalf, pkt, .unforced)
      | .ok (edv, edvHalf, pkt, false) => .ok (edv, edvHalf, pkt, .none)
  else .ok (edv, { edvHalf with vProb := 0, old := false }, pkt, .none)

namespace RIOQueue

/-- The In counters after a packet has left the queue. -/
def forget (s : RIOQueue) (p : Packet) : RIOQueue :=
  if p.pri ≠ 0 then { s with inBcount := s.inBcount - p.size, inLen := s.inLen - 1 } else s

/-- `RIOQueue::reset`, with the packets `Queue::reset` drops through
`RIOQueue::deque`. -/
def reset (lm : Libm) (s : RIOQueue) (now : ℚ) : RIOQueue × List Packet :=
  let edpIn := resetEdpRio s.qib s.edp s.edpIn
  let edpOut := resetEdpRio s.qib s.edp s.edpOut
  let edvIn := resetEdvRio edpIn edpIn.maxPInv s.edvIn
  let edvOut := resetEdvRio edpOut s.edp.maxPInv s.edvOut
  let (red, dropped) := s.toREDQueue.reset lm now
  let s := dropped.foldl forget { s with edpIn, edpOut, edvIn, edvOut, inIdle := true }
  ({ s with toREDQueue := red }, dropped)

/-- `drop_in_early`: the In average against the In thresholds and `in_linterm_`. -/
def dropInEarly (s : RIOQueue) (pkt : Packet) (u : ℚ) :
    Except Crash (Edv × EdvRio × Packet × Bool) :=
  dropHalfEarly s.edp s.edv s.edvIn.vAve s.edpIn s.edpIn.maxPInv s.edvIn pkt u

/-- `drop_out_early`: the total average against the Out thresholds and `linterm_`. -/
def dropOutEarly (s : RIOQueue) (pkt : Packet) (u : ℚ) :
    Except Crash (Edv × EdvRio × Packet × Bool) :=
  dropHalfEarly s.edp s.edv s.edv.vAve s.edpOut s.edp.maxPInv s.edvOut pkt u

def inQlen (s : RIOQueue) : Int := if s.qib then s.inBcount else s.inLen

/-- The arrival of an In packet: both idle periods end, both averages are updated. -/
def arriveIn (s : RIOQueue) (pkt : Packet) (now : ℚ) : RIOQueue :=
  let mIn := if s.inIdle then truncate (s.edp.ptc * (now - s.idletime)) else 0
  let m := if s.idle then truncate (s.edp.ptc * (now - s.idletime)) else 0
  let (ave, edv) := estimator s.edp s.edv s.qlen (m + 1) s.edv.vAve s.edp.qW now
  let edv := { edv with vAve := ave }
  let (aveIn, edv) := estimator s.edp edv s.inQlen (mIn + 1) s.edvIn.vAve s.edp.qW now
  { s with
    inIdle := false
    idle := false
    edv := { edv with count := edv.count + 1, countBytes := edv.countBytes + pkt.size }
    edvIn := { s.edvIn with
      vAve := aveIn
      count := s.edvIn.count + 1
      countBytes := s.edvIn.countBytes + pkt.size } }

/-- The arrival of an Out packet, which runs no estimator. -/
def arriveOut (s : RIOQueue) (pkt : Packet) : RIOQueue :=
  { s with
    edv := { s.edv with count := s.edv.count + 1, countBytes := s.edv.countBytes + pkt.size }
    edvOut := { s.edvOut with
      count := s.edvOut.count + 1
      countBytes := s.edvOut.countBytes + pkt.size } }

/-- A full queue forces a drop. -/
def limited (s : RIOQueue) (d : DropType) : DropType :=
  if s.qlen ≥ s.hardLimit then .forced else d

def classifyIn (s : RIOQueue) (pkt : Packet) (u : ℚ) :
    Except Crash (RIOQueue × Packet × DropType) :=
  match thresholdHalf s.edp s.edv s.edvIn.vAve s.inQlen s.edpIn s.edpIn.maxPInv s.edvIn pkt u with
  | .error e => .error e
  | .ok (edv, edvIn, pkt, d) => .ok ({ s with edv, edvIn }, pkt, s.limited d)

def classifyOut (s : RIOQueue) (pkt : Packet) (u : ℚ) :
    Except Crash (RIOQueue × Packet × DropType) :=
  match thresholdHalf s.edp s.edv s.edv.vAve s.qlen s.edpOut s.edp.maxPInv s.edvOut pkt u with
  | .error e => .error e
  | .ok (edv, edvOut, pkt, d) => .ok ({ s with edv, edvOut }, pkt, s.limited d)

/-- The arrival joins the queue; an In packet is counted. -/
def join (s : RIOQueue) (pkt : Packet) (counted : Bool) : RIOQueue :=
  let s := { s with q := s.q.enque pkt }
  if counted then { s with inLen := s.inLen + 1, inBcount := s.inBcount + pkt.size } else s

/-- What a forced drop on an In arrival clears. -/
def clearCounts (s : RIOQueue) : RIOQueue :=
  { s with
    edv := { s.edv with count := 0, countBytes := 0 }
    edvIn := { s.edvIn with count := 0, countBytes := 0 } }

/-- The last part of either half of `enque`. -/
def settle (s : RIOQueue) (pkt : Packet) (r : Nat) (inHalf : Bool) :
    DropType → Except Crash (RIOQueue × Option (Fate × Packet))
  | .unforced =>
      let fate := if s.deDrop then Fate.earlyDropTarget else Fate.drop
      let picked := pickPacketForECN pkt
      if picked.uid ≠ pkt.uid then
        let s := s.join pkt inHalf
        match s.q.remove picked with
        | .error e => .error e
        | .ok q => .ok (forget { s with q } picked, some (fate, picked))
      else .ok (s, some (fate, picked))
  | .none => .ok (s.join pkt inHalf, none)
  | .forced =>
      let s := s.join pkt inHalf
      match s.toREDQueue.pickPacketToDrop r with
      | none => .error .abort
      | some victim =>
          match s.q.remove victim with
          | .error e => .error e
          | .ok q =>
              let s := forget { s with q } victim
              let s := if inHalf ∧ ¬s.ns1Compat then s.clearCounts else s
              .ok (s, some (.drop, victim))

/-- `RIOQueue::enque`. `pri_` is an unsigned char. -/
def enque (s : RIOQueue) (pkt : Packet) (d : Draw) :
    Except Crash (RIOQueue × Option (Fate × Packet)) :=
  let pkt := if s.priorityMethod = 1 then { pkt with pri := (pkt.flowid % 256).toNat } else pkt
  if pkt.pri ≠ 0 then
    match (s.arriveIn pkt d.now).classifyIn pkt d.u with
    | .error e => .error e
    | .ok (s, pkt, droptype) => s.settle pkt d.r true droptype
  else
    match (s.arriveOut pkt).classifyOut pkt d.u with
    | .error e => .error e
    | .ok (s, pkt, droptype) => s.settle pkt d.r false droptype

/-- `RIOQueue::deque`. -/
def deque (s : RIOQueue) (now : ℚ) : Option Packet × RIOQueue :=
  match s.toREDQueue.deque now with
  | (some p, red) =>
      let s := { s with toREDQueue := red }
      (some p, forget (if p.pri ≠ 0 then { s with inIdle := false } else s) p)
  | (none, red) => (none, { s with toREDQueue := red, inIdle := true })

end RIOQueue

/-- One call on a RIO queue. -/
def rioStep (s : RIOQueue) : Op → Except Crash RIOQueue
  | .enque pkt d =>
      match s.enque pkt d with
      | .error e => .error e
      | .ok (s', _) => .ok s'
  | .deque now => .ok (s.deque now).2

end ComputerNetworking.Queue
