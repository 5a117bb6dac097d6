import ComputerNetworking.Analysis.Figures

/-!
# The analysis of a wired trace

The lines of a wired ns-2 trace and the rules of `parse_wired_RED.awk` and
`parse_wired_NARED.awk`, which are the same but for the file they write to. The
script reads the variable `packetType`, which it never sets.
-/

set_option autoImplicit false

namespace ComputerNetworking.Analysis

/-- The first field of a line of a link. -/
inductive LinkEvent where
  | plus
  | minus
  | r
  | R
  | d
  | D
deriving DecidableEq, Repr

/-- The type of a packet on a wired link. -/
inductive Kind where
  | tcp
  | udp
  | cbr
  | other (name : String)
deriving DecidableEq, Repr

/-- A line of a wired trace: the nodes at the two ends of the link, and the
addresses of the packet. -/
structure LinkLine where
  event : LinkEvent
  time : ℚ
  node : ℕ
  toNode : ℕ
  packetType : Kind
  packetBytes : ℤ
  source : ℕ
  destination : ℕ
  packetId : ℕ
deriving DecidableEq, Repr

/-- The variables of `parse_wired_RED.awk`, as `BEGIN` sets them. -/
structure ParseWired where
  receivedPackets : ℕ := 0
  sentPackets : ℕ := 0
  droppedPackets : ℕ := 0
  totalDelay : ℚ := 0
  receivedBytes : ℤ := 0
  startTime : ℚ := 1000000
  count : ℕ := 0
  timeSec : ℚ := 0
  /-- an element that was never set counts as 0 -/
  sentTime : ℕ → ℚ := fun _ => 0
  /-- the variable `packetType` of the script -/
  packetTypeVar : Option Kind := none

/-- `header_bytes` of `parse_wired_RED.awk`. -/
def wiredHeaderBytes : ℤ := 20

namespace ParseWired

/-- The start of the main rule: the line is counted and its time is read. -/
def stamp (v : ParseWired) (l : LinkLine) : ParseWired :=
  let v := { v with count := v.count + 1, timeSec := l.time }
  if v.startTime > v.timeSec then { v with startTime := v.timeSec } else v

/-- The rule for a line of a packet that is looked at. -/
def packetRule (v : ParseWired) (l : LinkLine) : ParseWired :=
  if l.event = .plus then
    { v with sentPackets := v.sentPackets + 1
             sentTime := Function.update v.sentTime l.packetId l.time }
  else if l.event = .d ∨ l.event = .D then { v with droppedPackets := v.droppedPackets + 1 }
  else if l.event = .r ∨ l.event = .R then
    let delay := l.time - v.sentTime l.packetId
    if delay ≥ 0 then
      { v with receivedBytes := v.receivedBytes + (l.packetBytes - wiredHeaderBytes)
               receivedPackets := v.receivedPackets + 1
               totalDelay := v.totalDelay + delay }
    else v
  else v

/-- The main rule of `parse_wired_RED.awk`. -/
def rule (v : ParseWired) (l : LinkLine) : ParseWired :=
  let v := v.stamp l
  if l.packetType = .tcp ∨ v.packetTypeVar = some .udp ∨ v.packetTypeVar = some .cbr then
    v.packetRule l
  else v

/-- `parse_wired_RED.awk` after the last line of a trace. -/
def run (trace : List LinkLine) : ParseWired := trace.foldl rule {}

/-- The numbers that `END` appends to the parameter file; the drop ratio is printed
before. -/
def report (v : ParseWired) : Option (List ℚ) := do
  let simulationTime := v.timeSec - v.startTime
  let dropRatio ← divide v.droppedPackets v.sentPackets
  let throughput ← divide (v.receivedBytes * 8) simulationTime
  let averageDelay ← divide v.totalDelay v.receivedPackets
  let deliveryRatio ← divide v.receivedPackets v.sentPackets
  pure [throughput, averageDelay, deliveryRatio, dropRatio]

end ParseWired

end ComputerNetworking.Analysis
