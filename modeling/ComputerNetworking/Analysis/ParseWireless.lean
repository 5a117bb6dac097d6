import ComputerNetworking.Analysis.WirelessTrace

/-!
# The analysis of a wireless trace with node energies

The rules of `parse_wireless_RED.awk` and `parse_wireless_NARED.awk`, which are the
same but for the file they write to. They set the lines of node energy apart, so
every time they read is a number.
-/

set_option autoImplicit false

namespace ComputerNetworking.Analysis

/-- The variables of `parse_wireless_RED.awk`, as `BEGIN` sets them. -/
structure ParseWireless where
  receivedPackets : ℕ := 0
  sentPackets : ℕ := 0
  droppedPackets : ℕ := 0
  totalDelay : ℚ := 0
  receivedBytes : ℤ := 0
  startTime : ℚ := 1000000
  count : ℕ := 0
  timeSec : ℚ := 0
  /-- an element that was never set counts as 0 -/
  sentTime : ℕ → ℚ := fun _ => 0
  /-- the elements of `final_energy`, by node -/
  finalEnergy : List (ℕ × ℚ) := []

/-- `initial_energy` of `parse_wireless_RED.awk`. -/
def initialEnergy : ℚ := 2000

/-- `header_bytes` of `parse_wireless_RED.awk`. -/
def wirelessHeaderBytes : ℤ := 20

namespace ParseWireless

/-- Sets the element of `node` in an array. -/
def setElement (array : List (ℕ × ℚ)) (node : ℕ) (energy : ℚ) : List (ℕ × ℚ) :=
  if array.any (·.1 = node) then
    array.map fun element => if element.1 = node then (node, energy) else element
  else array ++ [(node, energy)]

/-- The line is counted and its time is read. -/
def stamp (v : ParseWireless) (l : PacketLine) : ParseWireless :=
  let v := { v with count := v.count + 1, timeSec := l.time }
  if v.startTime > v.timeSec then { v with startTime := v.timeSec } else v

/-- The rule for a tcp line of an agent. -/
def agentRule (v : ParseWireless) (l : PacketLine) : ParseWireless :=
  if l.event = .s then
    { v with sentTime := Function.update v.sentTime l.packetId l.time
             sentPackets := v.sentPackets + 1 }
  else if l.event = .r then
    { v with totalDelay := v.totalDelay + (l.time - v.sentTime l.packetId)
             receivedBytes := v.receivedBytes + (l.packetBytes - wirelessHeaderBytes)
             receivedPackets := v.receivedPackets + 1 }
  else v

/-- What the main rule does with a packet after it has read the time. -/
def packetRule (v : ParseWireless) (l : PacketLine) : ParseWireless :=
  let v := if l.layer = .AGT ∧ l.packetType = .tcp then v.agentRule l else v
  if l.packetType = .tcp ∧ l.event = .D then { v with droppedPackets := v.droppedPackets + 1 }
  else v

/-- The main rule of `parse_wireless_RED.awk`. -/
def rule (v : ParseWireless) : Line → ParseWireless
  | .energy _ node energy => { v with finalEnergy := setElement v.finalEnergy node energy }
  | .packet l => (v.stamp l).packetRule l

/-- `parse_wireless_RED.awk` after the last line of a trace. -/
def run (trace : List Line) : ParseWireless := trace.foldl rule {}

/-- `totalenergy` after the loop of `END`. -/
def totalEnergy (v : ParseWireless) : ℚ :=
  (v.finalEnergy.map fun element => initialEnergy - element.2).sum

/-- The numbers that `END` appends to the parameter file; the drop ratio is printed
before. -/
def report (v : ParseWireless) : Option (List ℚ) := do
  let averageEnergy ← divide v.totalEnergy v.finalEnergy.length
  let simulationTime := v.timeSec - v.startTime
  let dropRatio ← divide v.droppedPackets v.sentPackets
  let throughput ← divide (v.receivedBytes * 8) simulationTime
  let averageDelay ← divide v.totalDelay v.receivedPackets
  let deliveryRatio ← divide v.receivedPackets v.sentPackets
  pure [throughput, averageDelay, deliveryRatio, dropRatio, averageEnergy]

end ParseWireless

end ComputerNetworking.Analysis
