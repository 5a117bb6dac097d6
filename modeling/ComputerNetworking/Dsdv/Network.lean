import ComputerNetworking.Dsdv.Agent
import ComputerNetworking.Foundations.Runs

/-!
# A network of DSDV agents

There is an agent at every address. The updates they have broadcast stay in the
air: an update may be delivered to any other node, at any time, any number of
times or never. Timers fire in any order, and data packets and losses of links
come from outside. `ReleasesFresh` is the condition on a step under which the
network keeps its promise: no update is processed that lists a reachable
destination with an older sequence number than the stored one while packets are
queued for it.
-/

set_option autoImplicit false

namespace ComputerNetworking.Dsdv

open ComputerNetworking.Foundations

/-- The agents, and the updates that were broadcast. -/
structure Network where
  agents : Addr → DSDVAgent
  air : List Update := []

/-- One event of the network, at the node `n` and the time `now`. -/
inductive Event where
  | periodic (n : Addr) (now : ℚ)
  | triggered (n dst : Addr) (now : ℚ)
  | timeout (n dst : Addr) (now : ℚ)
  /-- the delivery of the `k`-th update in the air -/
  | deliver (n : Addr) (k : ℕ) (now : ℚ)
  | packet (n : Addr) (p : Packet) (now : ℚ)
  | lostLink (n : Addr) (p : Packet) (nextHop : Addr) (now : ℚ)

namespace Network

/-- The network after `start-dsdv` at every node. -/
def start (cfg : Addr → Config) : Network where
  agents n := ({ cfg := cfg n, myaddr := n } : DSDVAgent).startUp 0

/-- The network with a new state of the agent at `n`, which has broadcast `u`. -/
def put (s : Network) (n : Addr) (a : DSDVAgent) (u : Option Update) : Network where
  agents := Function.update s.agents n a
  air := s.air ++ u.toList

/-- The outcome of a handler at `n`. -/
def after (s : Network) (n : Addr) :
    Except Failure (DSDVAgent × Option Update) → Except Failure Network
  | .error f => .error f
  | .ok (a, u) => .ok (s.put n a u)

/-- One event. -/
def step (s : Network) : Event → Except Failure Network
  | .periodic n now => s.after n ((s.agents n).periodic now)
  | .triggered n dst now => s.after n ((s.agents n).triggered dst now)
  | .timeout n dst now => s.after n (((s.agents n).timeout dst now).map (·, none))
  | .deliver n k now =>
      match s.air[k]? with
      | none => .ok s
      | some u =>
          -- a node does not hear its own broadcasts
          if u.src = n then .ok s
          else s.after n (((s.agents n).processUpdate u now).map (·, none))
  | .packet n p now => .ok (s.put n ((s.agents n).recv p now) none)
  | .lostLink n p nextHop now => s.after n (((s.agents n).lostLink p nextHop now).map (·, none))

/-- The entry that the node `n` stores for `d`. -/
def entry (s : Network) (n d : Addr) : Option RtableEnt := (s.agents n).table.getEntry d

/-- `x` is the hop field of the entry with `metric != BIG` that `y` stores for `d`. -/
def NextHop (s : Network) (d y x : Addr) : Prop :=
  ∃ e, s.entry y d = some e ∧ e.metric ≠ BIG ∧ e.hop = x

/-- Following the hop fields towards `d`, up to `d`, never comes back to a node
already visited. -/
def LoopFree (s : Network) : Prop :=
  ∀ d y, ¬Relation.TransGen (fun y x => y ≠ d ∧ s.NextHop d y x) y y

/-- From `s` to `s'` no node forgets a destination, and no stored sequence number
decreases. -/
def SeqnumsKept (s s' : Network) : Prop :=
  ∀ n d e, s.entry n d = some e → ∃ e', s'.entry n d = some e' ∧ e.seqnum ≤ e'.seqnum

/-- The node `n` has packets queued for the destination of `adv`, which it does not
reach, and `adv` lists it as reachable by an older sequence number than the
stored one. -/
def Stale (s : Network) (n : Addr) (adv : Advert) : Prop :=
  adv.dst ≠ n ∧ adv.metric ≠ BIG ∧ adv.metric + 1 ≠ BIG ∧
    ∃ e, s.entry n adv.dst = some e ∧ e.q.isSome ∧ adv.seqnum < e.seqnum

/-- No stale destination is in the update that is delivered. -/
def ReleasesFresh (s : Network) : Event → Prop
  | .deliver n k _ => ∀ u, s.air[k]? = some u → u.src ≠ n → ∀ adv ∈ u.adverts, ¬s.Stale n adv
  | _ => True

end Network

end ComputerNetworking.Dsdv
