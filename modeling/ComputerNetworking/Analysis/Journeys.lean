import ComputerNetworking.Analysis.ParseWired
import ComputerNetworking.Foundations.Interleaving

/-!
# Packets on their way through a wired network

What a wired trace is about: packets that travel over links from their source to
their destination. On each link a packet enters the queue, leaves it and arrives, or
it is dropped from the queue. A trace is any interleaving of the lines of its
packets in the order of their times. The figures of the assignment are end to end:
they count packets, not lines.
-/

set_option autoImplicit false

namespace ComputerNetworking.Analysis

open ComputerNetworking.Foundations

/-- A packet that is sent through the network. -/
structure Packet where
  packetId : ℕ
  kind : Kind
  bytes : ℤ
  source : ℕ
  destination : ℕ
deriving DecidableEq, Repr

namespace Packet

/-- The line of the packet on the link from `v` to `w`. -/
def line (p : Packet) (event : LinkEvent) (v w : ℕ) (time : ℚ) : LinkLine where
  event := event
  time := time
  node := v
  toNode := w
  packetType := p.kind
  packetBytes := p.bytes
  source := p.source
  destination := p.destination
  packetId := p.packetId

/-- The lines of the packet from the node `v` on; the trace may end at any line. -/
inductive Travels (p : Packet) : ℕ → List LinkLine → Prop where
  | here (v : ℕ) : Travels p v []
  | queued (v w : ℕ) (t : ℚ) : Travels p v [p.line .plus v w t]
  | dropped (v w : ℕ) (t t' : ℚ) : Travels p v [p.line .plus v w t, p.line .d v w t']
  | onLink (v w : ℕ) (t t' : ℚ) : Travels p v [p.line .plus v w t, p.line .minus v w t']
  | delivered (v : ℕ) (t t' t'' : ℚ) : Travels p v
      [p.line .plus v p.destination t, p.line .minus v p.destination t',
       p.line .r v p.destination t'']
  | relayed (v w : ℕ) (t t' t'' : ℚ) {rest : List LinkLine} (hw : w ≠ p.destination)
      (h : Travels p w rest) : Travels p v
      (p.line .plus v w t :: p.line .minus v w t' :: p.line .r v w t'' :: rest)

/-- The packet has arrived at its destination. -/
def reached (p : Packet) (lines : List LinkLine) : Bool :=
  lines.any fun l => l.event = .r && l.toNode = p.destination

/-- The packet has been dropped. -/
def lost (lines : List LinkLine) : Bool := lines.any fun l => l.event = .d

/-- The time from the injection of a packet at its source to its arrival at its
destination. -/
def delay (p : Packet) (lines : List LinkLine) : ℚ :=
  match lines.head?, lines.find? fun l => l.event = .r && l.toNode = p.destination with
  | some injection, some arrival => arrival.time - injection.time
  | _, _ => 0

end Packet

/-- The lines of the packet `p` in a trace. -/
def linesOf (trace : List LinkLine) (p : Packet) : List LinkLine :=
  ofKey LinkLine.packetId p.packetId trace

/-- `trace` is made of the lines of tcp, udp and cbr packets, in time order. -/
structure IsTrace (packets : List Packet) (trace : List LinkLine) : Prop where
  kinds : ∀ p ∈ packets, p.kind = .tcp ∨ p.kind = .udp ∨ p.kind = .cbr
  ids : (packets.map Packet.packetId).Nodup
  complete : ∀ l ∈ trace, ∃ p ∈ packets, p.packetId = l.packetId
  journeys : ∀ p ∈ packets, p.Travels p.source (linesOf trace p)
  ordered : InOrder (trace.map LinkLine.time)

/-- The figures of the assignment. -/
structure Figures where
  sent : ℕ
  received : ℕ
  dropped : ℕ
  totalDelay : ℚ
deriving DecidableEq, Repr

/-- The end-to-end figures of the packets of a trace. -/
def endToEnd (packets : List Packet) (trace : List LinkLine) : Figures where
  sent := packets.countP fun p => !(linesOf trace p).isEmpty
  received := packets.countP fun p => p.reached (linesOf trace p)
  dropped := packets.countP fun p => Packet.lost (linesOf trace p)
  totalDelay := (packets.map fun p => p.delay (linesOf trace p)).sum

/-- The figures that the parsers compute. -/
def ParseWired.figures (v : ParseWired) : Figures where
  sent := v.sentPackets
  received := v.receivedPackets
  dropped := v.droppedPackets
  totalDelay := v.totalDelay

namespace Packet

/-- How often the packet was queued again on its way. -/
def forwards (lines : List LinkLine) : ℕ := lines.countP (fun l => l.event = .plus) - 1

/-- How many nodes before its destination the packet has arrived at. -/
def relays (p : Packet) (lines : List LinkLine) : ℕ :=
  lines.countP fun l => l.event = .r && l.toNode ≠ p.destination

/-- The time the packet has spent on the links it has crossed, with their queues. -/
def linkDelays : List LinkLine → ℚ
  | queued :: _ :: arrived :: rest => arrived.time - queued.time + linkDelays rest
  | _ => 0

end Packet

end ComputerNetworking.Analysis
