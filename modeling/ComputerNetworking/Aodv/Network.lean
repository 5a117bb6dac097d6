import ComputerNetworking.Aodv.Agent

/-!
# A network of AODV agents

There is an agent at every address. A message that was sent stays in the air: it may be
delivered at any time, any number of times or never, a route reply to the node it is sent
to and the other messages to every other node. Timers fire in any order and at any time,
and data packets and failures of links come from outside.
-/

set_option autoImplicit false

namespace ComputerNetworking.Aodv

open ComputerNetworking.Foundations RoutingTable

/-- The agents. -/
abbrev Network := Addr → AODV

/-- One event of the network, at the node `n`. -/
inductive Event where
  | packet (n : Addr) (p : Packet) (env : Env)
  | linkFailed (n : Addr) (p : Packet) (nextHop : Addr) (env : Env)
  /-- the delivery of the `k`-th message of the node `m` -/
  | deliver (n m : Addr) (k : ℕ) (env : Env)
  | purge (n : Addr) (env : Env)
  | idPurge (n : Addr) (env : Env)
  /-- the end of the `k`-th timer of a local repair -/
  | repairTimeout (n : Addr) (k : ℕ)

/-- Whether a message of the node `m` can reach the node `n`. -/
def Message.reaches (m n : Addr) : Message → Bool
  | .reply rp => rp.nextHop = n ∧ n ≠ m
  | .request _ => n ≠ m
  | .error _ => n ≠ m

namespace Network

/-- The network when the agents have been made. -/
def start : Network := fun n => { index := n }

/-- The outcome of a handler at `n`. -/
def after (s : Network) (n : Addr) : Except Failure AODV → Except Failure Network
  | .error f => .error f
  | .ok a => .ok (Function.update s n a)

/-- One event. -/
def step (s : Network) : Event → Except Failure Network
  | .packet n p env => s.after n ((s n).recv p env)
  | .linkFailed n p nextHop env => s.after n ((s n).rtLlFailed p nextHop env)
  | .deliver n m k env =>
      match (s m).sent[k]? with
      | none => .ok s
      | some msg => if msg.reaches m n then s.after n ((s n).recvAODV msg env) else .ok s
  | .purge n env => s.after n ((s n).rtPurge env)
  | .idPurge n env => s.after n (.ok ((s n).idPurge env))
  | .repairTimeout n k => s.after n (.ok ((s n).repairTimeout k))

/-- `x` is the next hop of the entry with `rt_flags = RTF_UP` that `y` has for `d`. -/
def NextHop (s : Network) (d y x : Addr) : Prop :=
  ∃ rt, (s y).rtable.rtLookup d = some rt ∧ rt.rtFlags = .up ∧ rt.rtNexthop = x

/-- Following the next hops towards `d`, up to `d`, never comes back to a node already
visited. -/
def LoopFree (s : Network) : Prop :=
  ∀ d y, ¬Relation.TransGen (fun y x => y ≠ d ∧ s.NextHop d y x) y y

end Network

namespace AODV

/-- A timer of a local repair finds the route still under repair. -/
def RepairFails (a : AODV) (k : ℕ) : Prop :=
  ∃ dst, a.repairs[k]? = some dst ∧
    ∃ rt, a.rtable.rtLookup dst = some rt ∧ rt.rtFlags = .inRepair

/-- A reply that has come over 255 hops is taken over and handed on, so that its hop count
starts again at 0. -/
def HopsWrap (a : AODV) (rp : Reply) : Prop :=
  rp.rpHopCount = 255 ∧ (a.rtEntry rp.rpDst).rtSeqno < rp.rpDstSeqno ∧
    rp.daddr ≠ a.index ∧ rp.daddr ≠ rp.rpDst ∧ rp.ttl ≠ 1 ∧
    ∃ rt0, a.rtable.rtLookup rp.daddr = some rt0 ∧ rt0.rtHops ≠ INFINITY2

end AODV

namespace Network

/-- No local repair fails, and no hop count goes past 255. -/
def Regular (s : Network) : Event → Prop
  | .repairTimeout n k => ¬(s n).RepairFails k
  | .deliver n m k _ =>
      ∀ rp, (s m).sent[k]? = some (.reply rp) → (Message.reply rp).reaches m n = true →
        ¬(s n).HopsWrap rp
  | _ => True

end Network

end ComputerNetworking.Aodv
