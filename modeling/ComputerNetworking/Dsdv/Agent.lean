import ComputerNetworking.Dsdv.Table

/-!
# The DSDV agent

`DSDV_Agent` of `dsdv/dsdv.cc`: the handlers of its updates, its timers, the data
packets it is given and the losses of links it is told. Tracing is left out, and
so are the packets that leave the agent other than its updates. The loop that
hands queued packets to `recv` may go on for ever; then the call fails.
-/

set_option autoImplicit false

namespace ComputerNetworking.Dsdv

/-- `MAX_QUEUE_LENGTH`. -/
def MAX_QUEUE_LENGTH : ℕ := 5

/-- `IP_BROADCAST`. -/
def IP_BROADCAST : Addr := 0xffffffff

/-- `IP_DEF_TTL`. -/
def IP_DEF_TTL : ℤ := 32

/-- `DSDV_MIN_TUP_PERIOD`. -/
def DSDV_MIN_TUP_PERIOD : ℚ := 1

/-- One destination in an update. -/
structure Advert where
  dst : Addr
  metric : ℕ
  seqnum : ℕ
deriving DecidableEq, Repr

/-- An update packet; its first byte counts the destinations. -/
structure Update where
  src : Addr
  count : ℕ
  entries : List Advert
deriving DecidableEq, Repr

/-- The destinations a receiver reads. -/
def Update.adverts (u : Update) : List Advert := u.entries.take u.count

/-- What the simulation script sets. -/
structure Config where
  useMac : Bool := false
  alpha : ℚ := 7 / 8
  wst0 : ℚ := 6
  /-- whether an address lies outside the node's domain -/
  diffSubnet : Addr → Bool := fun _ => false

/-- The state of `DSDV_Agent`. -/
structure DSDVAgent where
  cfg : Config
  myaddr : Addr
  table : RoutingTable := []
  seqno : ℕ := 0
  lasttup : ℚ := -10

namespace DSDVAgent

open RoutingTable

/-- Writes through the pointer to the entry of `dest`. -/
def modify (a : DSDVAgent) (dest : Addr) (f : RtableEnt → RtableEnt) : DSDVAgent :=
  { a with table := a.table.modify dest f }

/-- `RoutingTable::AddEntry` on the agent's table. -/
def addEntry (a : DSDVAgent) (ent : RtableEnt) : Except Failure DSDVAgent :=
  match a.table.addEntry ent with
  | .error f => .error f
  | .ok table => .ok { a with table }

/-- `DSDV_Agent::startUp`. -/
def startUp (a : DSDVAgent) (now : ℚ) : DSDVAgent :=
  let rte : RtableEnt :=
    { dst := a.myaddr, hop := a.myaddr, metric := 0, seqnum := a.seqno, advertiseOkAt := 0,
      advertSeqnum := true, advertMetric := true, changedAt := now, newSeqnumAt := now, wst := 0 }
  { a with table := put rte a.table, seqno := a.seqno + 2 }

/-- `DSDV_Agent::needTriggeredUpdate`. -/
def needTriggeredUpdate (a : DSDVAgent) (dst : Addr) (t now : ℚ) : Except Failure DSDVAgent :=
  if now ≤ t then .ok (a.modify dst fun prte => { prte with triggerEvent := some t })
  else .error .assertion

/-- The beginning of a periodic update in `makeUpdate`: the next sequence number. -/
def advance (a : DSDVAgent) (now : ℚ) : DSDVAgent :=
  let rte : RtableEnt :=
    { dst := a.myaddr, hop := a.myaddr, metric := 0, seqnum := a.seqno + 2, advertiseOkAt := 0,
      advertSeqnum := true, changedAt := now, newSeqnumAt := now, wst := 0 }
  { a with seqno := a.seqno + 2, table := put rte a.table }

/-- The part of `makeUpdate` that makes the packet of `changeCount` entries. -/
def pack (a : DSDVAgent) (periodic : Bool) (changeCount : ℕ) (included : RtableEnt → Bool) :
    Except Failure (DSDVAgent × Option Update) :=
  let entries := (a.table.filter included).map fun prte =>
    { dst := prte.dst, metric := prte.metric, seqnum := prte.seqnum : Advert }
  if changeCount = entries.length then
    -- seqnum's only need to be advertised once after they change
    let table := a.table.map fun prte =>
      if included prte then
        { prte with lastAdvertisedMetric := prte.metric, advertSeqnum := false,
                    advertMetric := if periodic then false else prte.advertMetric }
      else prte
    .ok ({ a with table }, some { src := a.myaddr, count := changeCount % 256, entries })
  else .error .assertion

/-- `DSDV_Agent::makeUpdate`. -/
def makeUpdate (a : DSDVAgent) (periodic : Bool) (now : ℚ) :
    Except Failure (DSDVAgent × Option Update) :=
  let changed (prte : RtableEnt) : Bool :=
    (prte.advertSeqnum || prte.advertMetric) && prte.advertiseOkAt ≤ now
  let changeCount := a.table.countP changed
  let rtblSz := a.table.length
  let unadvertiseable := a.table.countP fun prte => prte.advertiseOkAt > now
  if periodic || (changeCount * 3 > rtblSz && changeCount > 3) then
    -- much of the table has changed, or a periodic update is due
    let a := a.advance now
    if rtblSz - unadvertiseable = 0 then .ok (a, none)
    else a.pack true (rtblSz - unadvertiseable) fun prte => !(prte.advertiseOkAt > now)
  else if changeCount = 0 then .ok (a, none)
  else a.pack false changeCount changed

/-- `DSDV_Agent::forwardPacket`, as far as it changes the table. -/
def forwardPacket (a : DSDVAgent) (p : Packet) (now : ℚ) : DSDVAgent :=
  -- a packet for another domain is sent or dropped
  if a.cfg.diffSubnet p.dst then a
  else
    match a.table.getEntry p.dst with
    | some prte =>
        if prte.metric ≠ BIG then a
        else
          let q := prte.q.getD [] ++ [p]
          a.modify p.dst fun prte => { prte with q := some (q.drop (q.length - MAX_QUEUE_LENGTH)) }
    | none =>
        let rte : RtableEnt :=
          { dst := p.dst, hop := p.dst, metric := BIG, seqnum := 0, advertiseOkAt := now + 604800,
            changedAt := now, newSeqnumAt := now, wst := a.cfg.wst0, q := some [p] }
        { a with table := put rte a.table }

/-- `DSDV_Agent::recv` of a data packet. -/
def recv (a : DSDVAgent) (p : Packet) (now : ℚ) : DSDVAgent :=
  if p.src = a.myaddr ∧ p.numForwards ≠ 0 then a
  else
    let p := { p with ttl := if p.src = a.myaddr then IP_DEF_TTL else p.ttl - 1 }
    if p.ttl = 0 then a
    else if p.dst = IP_BROADCAST then a
    else a.forwardPacket p now

/-- The loop of `processUpdate` over the packets queued for `dst`. The queue is the
one of the table's entry, to which `recv` may add again. -/
def release (dst : Addr) (now : ℚ) : ℕ → DSDVAgent → Except Failure DSDVAgent
  | 0, _ => .error .endless
  | fuel + 1, a =>
      match (a.table.getEntry dst).bind (·.q) with
      | some (queued :: rest) =>
          release dst now fuel
            ((a.modify dst fun prte => { prte with q := some rest }).recv queued now)
      | _ => .ok a

/-- More turns than a loop over `q` makes that ends. -/
def turns (q : List Packet) : ℕ := (q.map fun p => p.ttl.toNat + 1).sum + 1

/-- The part of `processUpdate` that decides whether to update the routing table:
the new entry, and whether a triggered update is needed. -/
def decideUpdate (a : DSDVAgent) (prte? : Option RtableEnt) (rte : RtableEnt) (now : ℚ) :
    Except Failure (DSDVAgent × RtableEnt × Bool) :=
  match prte? with
  | none =>
      let rte := if rte.metric < BIG then { rte with advertMetric := true } else rte
      match a.addEntry rte with
      | .error f => .error f
      | .ok a => .ok (a, rte, rte.metric < BIG)
  | some prte =>
      if prte.seqnum = rte.seqnum then
        if rte.metric < prte.metric then
          let changed := rte.metric ≠ prte.lastAdvertisedMetric
          let rte := { rte with advertMetric := changed }
          match a.addEntry rte with
          | .error f => .error f
          | .ok a => .ok (a, rte, changed)
        else .ok (a, rte, false)
      else if prte.seqnum < rte.seqnum then
        let rte := { rte with advertSeqnum := true
                              advertMetric := rte.metric ≠ prte.lastAdvertisedMetric }
        match a.addEntry rte with
        | .error f => .error f
        | .ok a => .ok (a, rte, false)
      else if rte.metric = BIG ∧ prte.metric ≠ BIG then
        -- go forth and educate this ignorant fellow
        let a := a.modify rte.dst fun prte =>
          { prte with advertiseOkAt := now, advertMetric := true }
        match a.needTriggeredUpdate rte.dst now now with
        | .error f => .error f
        | .ok a => .ok (a, rte, false)
      else .ok (a, rte, false)

/-- The entry that `processUpdate` learns from one destination of an update. -/
def learnt (a : DSDVAgent) (prte? : Option RtableEnt) (src : Addr) (adv : Advert) (now : ℚ) :
    RtableEnt :=
  let rte := prte?.getD {}
  let rte := { rte with dst := adv.dst, hop := src, metric := adv.metric, seqnum := adv.seqnum,
                        changedAt := now }
  let rte := if rte.metric ≠ BIG then { rte with metric := rte.metric + 1 } else rte
  let rte :=
    match prte? with
    | some prte =>
        if prte.seqnum = rte.seqnum then
          { rte with wst := prte.wst, newSeqnumAt := prte.newSeqnumAt }
        else
          { rte with wst := a.cfg.alpha * prte.wst +
                       (1 - a.cfg.alpha) * (prte.changedAt - prte.newSeqnumAt)
                     newSeqnumAt := now }
    | none => { rte with wst := a.cfg.wst0, newSeqnumAt := now }
  if rte.metric ≠ BIG ∧ prte?.all (fun prte => prte.metric ≠ BIG) then
    { rte with advertiseOkAt := now + rte.wst * 2 }
  else { rte with advertiseOkAt := now }

/-- The part of `processUpdate` that schedules a triggered update, if one is needed. -/
def triggerUpdate (a : DSDVAgent) (rte : RtableEnt) (trigger : Bool) (now : ℚ) :
    Except Failure DSDVAgent :=
  if trigger then
    if (a.table.getEntry rte.dst).any fun prte => prte.advertiseOkAt = rte.advertiseOkAt then
      a.needTriggeredUpdate rte.dst rte.advertiseOkAt now
    else .error .assertion
  else .ok a

/-- The end of a turn of `processUpdate`: see if we can send off any packets we've got
queued, and record the now zero'd queue. -/
def sendQueued (a : DSDVAgent) (rte : RtableEnt) (now : ℚ) : Except Failure DSDVAgent :=
  match rte.q with
  | none => .ok a
  | some q =>
      if rte.metric ≠ BIG then
        match release rte.dst now (turns q) a with
        | .error f => .error f
        | .ok a => a.addEntry { rte with q := none }
      else .ok a

/-- One turn of the loop of `processUpdate`. -/
def processEntry (a : DSDVAgent) (src : Addr) (adv : Advert) (now : ℚ) :
    Except Failure DSDVAgent :=
  -- don't corrupt your own routing table; at most the periodic update is brought forward
  if adv.dst = a.myaddr then .ok a
  else
    let prte? := a.table.getEntry adv.dst
    match a.decideUpdate prte? (a.learnt prte? src adv now) now with
    | .error f => .error f
    | .ok (a, rte, trigger) =>
        match a.triggerUpdate rte trigger now with
        | .error f => .error f
        | .ok a => a.sendQueued rte now

/-- The loop of `processUpdate`. -/
def processEntries (src : Addr) (now : ℚ) : List Advert → DSDVAgent → Except Failure DSDVAgent
  | [], a => .ok a
  | adv :: rest, a =>
      match a.processEntry src adv now with
      | .error f => .error f
      | .ok a => processEntries src now rest a

/-- `DSDV_Agent::processUpdate`. -/
def processUpdate (a : DSDVAgent) (u : Update) (now : ℚ) : Except Failure DSDVAgent :=
  match processEntries u.src now u.adverts a with
  | .error f => .error f
  | .ok a =>
      match a.table.getEntry u.src with
      | some _ => .ok (a.modify u.src fun prte => { prte with timeoutEvent := true })
      | none =>
          -- a fake advertisement, to keep the timeout
          a.addEntry
            { dst := u.src, hop := u.src, metric := 1, seqnum := 0, advertiseOkAt := now + 604800,
              changedAt := now, newSeqnumAt := now, wst := a.cfg.wst0, timeoutEvent := true }

/-- `DSDV_Agent::helper_callback` for the time-out of the neighbour `dst`. -/
def timeout (a : DSDVAgent) (dst : Addr) (now : ℚ) : Except Failure DSDVAgent :=
  if (a.table.getEntry dst).any (·.timeoutEvent) then
    let mark (pr2 : RtableEnt) : RtableEnt :=
      if pr2.hop = dst ∧ pr2.metric ≠ BIG then
        { pr2 with metric := BIG, advertiseOkAt := now, advertMetric := true, advertSeqnum := true,
                   seqnum := pr2.seqnum + 1, triggerEvent := some now }
      else pr2
    .ok (({ a with table := a.table.map mark }).modify dst
      fun prte => { prte with timeoutEvent := false })
  else .error .abort

/-- `DSDV_Agent::helper_callback` for the periodic update. -/
def periodic (a : DSDVAgent) (now : ℚ) : Except Failure (DSDVAgent × Option Update) :=
  match a.makeUpdate true now with
  | .error f => .error f
  | .ok (a, u) => .ok ({ a with lasttup := now }, u)

/-- `DSDVTriggerHandler::handle` for the event of the entry of `dst`. -/
def triggered (a : DSDVAgent) (dst : Addr) (now : ℚ) :
    Except Failure (DSDVAgent × Option Update) :=
  if (a.table.getEntry dst).any (·.triggerEvent.isSome) then
    let nextPossible := a.lasttup + DSDV_MIN_TUP_PERIOD
    if now < nextPossible then
      let a := a.modify dst fun prte => { prte with triggerEvent := some nextPossible }
      -- cancelTriggersBefore
      .ok ({ a with table := a.table.map fun prte =>
        { prte with triggerEvent := prte.triggerEvent.filter (nextPossible ≤ ·) } }, none)
    else
      match a.makeUpdate false now with
      | .error f => .error f
      | .ok (a, u) =>
          let a := if u.isSome then { a with lasttup := now } else a
          .ok (a.modify dst fun prte => { prte with triggerEvent := none }, u)
  else .error .assertion

/-- `DSDV_Agent::lost_link` for a packet that was sent to `nextHop`. -/
def lostLink (a : DSDVAgent) (p : Packet) (nextHop : Addr) (now : ℚ) :
    Except Failure DSDVAgent :=
  if a.cfg.useMac then
    match a.table.getEntry nextHop with
    | none => .ok a
    | some prte =>
        let lost :=
          if prte.timeoutEvent then a.timeout nextHop now
          else if prte.metric ≠ BIG then
            (a.modify nextHop fun prte => { prte with timeoutEvent := true }).timeout nextHop now
          else .ok a
        match lost with
        | .error f => .error f
        | .ok a => .ok (a.recv p now)
  else .ok a

end DSDVAgent

end ComputerNetworking.Dsdv
