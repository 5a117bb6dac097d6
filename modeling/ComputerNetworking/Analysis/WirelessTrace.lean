import ComputerNetworking.Analysis.Figures

/-!
# The wireless trace and its analysis programs

The lines of a wireless ns-2 trace, and the two programs of `NS2 Offline` that
read it: the rules of `parse.awk` and the loop of `1805038.py`. Numbers are
exact. A line of node energy (`N -t time -n node -e energy`) has no time in its
second field; awk then compares texts. Fields that neither program uses are
left out, as is what the programs print besides their counts and ratios.
-/

set_option autoImplicit false

namespace ComputerNetworking.Analysis

/-- The first field of a packet line. -/
inductive Event where
  | s
  | r
  | D
  | other (name : String)
deriving DecidableEq, Repr

/-- The layer that wrote a packet line. -/
inductive Layer where
  | AGT
  | other (name : String)
deriving DecidableEq, Repr

/-- The type of a packet. -/
inductive PacketType where
  | tcp
  | other (name : String)
deriving DecidableEq, Repr

/-- A line about a packet. -/
structure PacketLine where
  event : Event
  time : ℚ
  layer : Layer
  packetId : ℕ
  packetType : PacketType
  packetBytes : ℤ
deriving DecidableEq, Repr

/-- A line of a wireless trace. -/
inductive Line where
  | packet (l : PacketLine)
  | energy (time : ℚ) (node : ℕ) (energy : ℚ)
deriving DecidableEq, Repr

/-- The time a line was written. -/
def Line.time : Line → ℚ
  | .packet l => l.time
  | .energy time _ _ => time

/-- A tcp line of an agent. -/
def PacketLine.agentTcp (l : PacketLine) : Bool := l.layer = .AGT && l.packetType = .tcp

/-- The tcp lines of agents with the event `e`. -/
def agentLines (e : Event) (trace : List Line) : List PacketLine :=
  trace.filterMap fun
    | .packet l => if l.agentTcp && l.event = e then some l else none
    | .energy .. => none

variable {p : PacketLine}

theorem agentLines_append (e : Event) (trace trace' : List Line) :
    agentLines e (trace ++ trace') = agentLines e trace ++ agentLines e trace' :=
  List.filterMap_append

theorem agentLines_packet (e : Event) (p : PacketLine) :
    agentLines e [.packet p] = if p.agentTcp ∧ p.event = e then [p] else [] := by
  rw [agentLines]
  by_cases h : p.agentTcp = true ∧ p.event = e
  · rw [if_pos h]
    simp [h]
  · rw [if_neg h]
    simp [h]

theorem agentTcp_iff : p.agentTcp = true ↔ p.layer = .AGT ∧ p.packetType = .tcp := by
  simp [PacketLine.agentTcp]

/-- The traces in time order in which every received packet was sent before. -/
inductive WellFormed : List Line → Prop where
  | nil : WellFormed []
  | concat {trace : List Line} {l : Line} (h : WellFormed trace) (nonneg : 0 ≤ l.time)
      (ordered : ∀ l' ∈ trace, l'.time ≤ l.time)
      (sent_before : ∀ p, l = .packet p → p.agentTcp → p.event = .r →
        ∃ p' ∈ agentLines .s trace, p'.packetId = p.packetId) :
      WellFormed (trace ++ [l])

section Awk

/-- The second field of a line in awk: a number or the text `-t`. -/
inductive Field where
  | number (x : ℚ)
  | dashT
deriving DecidableEq, Repr

/-- awk's `>`: numbers are compared as numbers, and otherwise texts, of which one
that starts with a digit comes after `-t`. -/
def Field.gt : Field → Field → Bool
  | .number x, .number y => x > y
  | .number _, .dashT => true
  | .dashT, _ => false

/-- What a field is worth in a calculation. -/
def Field.value : Field → ℚ
  | .number x => x
  | .dashT => 0

/-- The second field of a line. -/
def Line.secondField : Line → Field
  | .packet l => .number l.time
  | .energy .. => .dashT

/-- `header_bytes` of `parse.awk` and `1805038.py`. -/
def headerBytes : ℤ := 16

/-- The variables of `parse.awk`, as `BEGIN` sets them. -/
structure ParseAwk where
  receivedPackets : ℕ := 0
  sentPackets : ℕ := 0
  droppedPackets : ℕ := 0
  totalDelay : ℚ := 0
  receivedBytes : ℤ := 0
  startTime : Field := .number 1000000
  count : ℕ := 0
  timeSec : Field := .number 0
  /-- an element that was never set counts as 0 -/
  sentTime : ℕ → ℚ := fun _ => 0

namespace ParseAwk

/-- The rule for a tcp line of an agent. -/
def agentRule (v : ParseAwk) (l : PacketLine) : ParseAwk :=
  if l.event = .s then
    { v with sentTime := Function.update v.sentTime l.packetId l.time
             sentPackets := v.sentPackets + 1 }
  else if l.event = .r then
    { v with totalDelay := v.totalDelay + (l.time - v.sentTime l.packetId)
             receivedBytes := v.receivedBytes + (l.packetBytes - headerBytes)
             receivedPackets := v.receivedPackets + 1 }
  else v

/-- What the main rule does with a packet after it has read the time. -/
def packetRule (v : ParseAwk) (l : PacketLine) : ParseAwk :=
  let v := if l.layer = .AGT ∧ l.packetType = .tcp then v.agentRule l else v
  if l.packetType = .tcp ∧ l.event = .D then { v with droppedPackets := v.droppedPackets + 1 }
  else v

/-- The start of the main rule: the line is counted and its time is read. -/
def stamp (v : ParseAwk) (line : Line) : ParseAwk :=
  let v := { v with count := v.count + 1, timeSec := line.secondField }
  if v.startTime.gt v.timeSec then { v with startTime := v.timeSec } else v

/-- The main rule of `parse.awk`. -/
def rule (v : ParseAwk) (line : Line) : ParseAwk :=
  match line with
  | .packet l => (v.stamp line).packetRule l
  -- neither the layer `-n` nor an energy as the type is one the rule looks for
  | .energy .. => v.stamp line

/-- `parse.awk` after the last line of a trace. -/
def run (trace : List Line) : ParseAwk := trace.foldl rule {}

/-- `simulation_time`. -/
def simulationTime (v : ParseAwk) : ℚ := v.timeSec.value - v.startTime.value

/-- The first figure of `END`. Each one behind it is computed if the program has not ended at
a division before. -/
def throughput (v : ParseAwk) : Option ℚ := divide (v.receivedBytes * 8) v.simulationTime

def averageDelay (v : ParseAwk) : Option ℚ := do
  let _ ← v.throughput
  divide v.totalDelay v.receivedPackets

def deliveryRatio (v : ParseAwk) : Option ℚ := do
  let _ ← v.averageDelay
  divide v.receivedPackets v.sentPackets

def dropRatio (v : ParseAwk) : Option ℚ := do
  let _ ← v.deliveryRatio
  divide v.droppedPackets v.sentPackets

end ParseAwk

end Awk

section Python

/-- The variables of `1805038.py`. -/
structure Script where
  totalPacketBytes : ℤ := 0
  totalNumberOfPacketsSent : ℕ := 0
  totalNumberOfPacketsReceived : ℕ := 0
  totalNumberOfPacketsDropped : ℕ := 0
  totalDelayTime : ℚ := 0
  packetTimingInfo : ℕ → Option ℚ := fun _ => none
  startTime : ℚ := -2
  endTime : ℚ := 0
  count : ℕ := 0

namespace Script

/-- The part of the loop for a tcp line of an agent; `none` is the `KeyError` for a
packet that was not sent. -/
def agentLine (v : Script) (l : PacketLine) : Option Script :=
  let v := if v.startTime < 0 then { v with startTime := l.time } else v
  let v := if v.endTime < l.time then { v with endTime := l.time } else v
  if l.event = .s then
    some { v with totalNumberOfPacketsSent := v.totalNumberOfPacketsSent + 1
                  packetTimingInfo := Function.update v.packetTimingInfo l.packetId (some l.time) }
  else if l.event = .r then
    match v.packetTimingInfo l.packetId with
    | none => none
    | some sent =>
        some { v with totalDelayTime := v.totalDelayTime + (l.time - sent)
                      totalNumberOfPacketsReceived := v.totalNumberOfPacketsReceived + 1
                      totalPacketBytes := v.totalPacketBytes + (l.packetBytes - headerBytes) }
  else some v

/-- One turn of the loop of `1805038.py`. -/
def line (v : Script) (line : Line) : Option Script :=
  let v := { v with count := v.count + 1 }
  match line with
  | .packet l =>
      match if l.layer = .AGT ∧ l.packetType = .tcp then v.agentLine l else some v with
      | none => none
      | some v =>
          if l.packetType = .tcp ∧ l.event = .D then
            some { v with totalNumberOfPacketsDropped := v.totalNumberOfPacketsDropped + 1 }
          else some v
  | .energy .. => some v

/-- `1805038.py` after the last line of a trace. -/
def run (trace : List Line) : Option Script := trace.foldlM line {}

/-- `total_time`. -/
def totalTime (v : Script) : ℚ := v.endTime - v.startTime

/-- The first figure behind the loop. Each one behind it is computed if the program has not
ended at a division before. -/
def networkThroughput (v : Script) : Option ℚ := divide (v.totalPacketBytes * 8) v.totalTime

def averageDelay (v : Script) : Option ℚ := do
  let _ ← v.networkThroughput
  divide v.totalDelayTime v.totalNumberOfPacketsReceived

def packetDeliveryRatio (v : Script) : Option ℚ := do
  let _ ← v.averageDelay
  divide v.totalNumberOfPacketsReceived v.totalNumberOfPacketsSent

def packetDropRatio (v : Script) : Option ℚ := do
  let _ ← v.packetDeliveryRatio
  divide v.totalNumberOfPacketsDropped v.totalNumberOfPacketsSent

end Script

end Python

end ComputerNetworking.Analysis
