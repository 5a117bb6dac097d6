import ComputerNetworking.Aodv.Table
import ComputerNetworking.Foundations.Runs

/-!
# The AODV agent

`AODV` of `aodv/aodv.cc` with local repair and link layer detection, as `aodv.h` has
them: the handlers of its messages, its timers, the data packets it is given and the
failures of links it is told. The messages an agent has sent are kept in `sent`.
Hello messages are not sent in this configuration, so there are no neighbours to
keep. Tracing is left out, and so are the data packets that leave the agent.
-/

set_option autoImplicit false

namespace ComputerNetworking.Aodv

open ComputerNetworking.Foundations

/-- `IP_BROADCAST`. -/
def IP_BROADCAST : Addr := 0xffffffff

/-- `ACTIVE_ROUTE_TIMEOUT`. -/
def ACTIVE_ROUTE_TIMEOUT : ℚ := 10

/-- `MY_ROUTE_TIMEOUT`. -/
def MY_ROUTE_TIMEOUT : ℚ := 10

/-- `REV_ROUTE_LIFE`. -/
def REV_ROUTE_LIFE : ℚ := 6

/-- `BCAST_ID_SAVE`. -/
def BCAST_ID_SAVE : ℚ := 6

/-- `RREQ_RETRIES`. -/
def RREQ_RETRIES : ℕ := 3

/-- `MAX_RREQ_TIMEOUT`. -/
def MAX_RREQ_TIMEOUT : ℚ := 10

/-- `TTL_START`. -/
def TTL_START : ℕ := 5

/-- `TTL_THRESHOLD`. -/
def TTL_THRESHOLD : ℕ := 7

/-- `TTL_INCREMENT`. -/
def TTL_INCREMENT : ℕ := 2

/-- `NETWORK_DIAMETER`. -/
def NETWORK_DIAMETER : ℕ := 30

/-- `AODV_MAX_ERRORS`. -/
def AODV_MAX_ERRORS : ℕ := 100

/-- `AODV_RTQ_MAX_LEN`. -/
def AODV_RTQ_MAX_LEN : ℕ := 64

/-- `AODV_RTQ_TIMEOUT`. -/
def AODV_RTQ_TIMEOUT : ℚ := 30

/-- How a call ends that does not return. -/
inductive Failure where
  | assertion
  /-- more destinations than a route error has room for -/
  | overflow
deriving DecidableEq, Repr

/-- What a call finds outside: the clock, and what `PerHopTime` returns for the entry of
a destination. -/
structure Env where
  now : ℚ
  perHopTime : Addr → ℚ

/-! ## Packets -/

/-- A data packet, as far as the agent reads it. -/
structure Packet where
  saddr : Addr
  daddr : Addr
  ttl : ℤ
  numForwards : ℕ
  ts : ℚ := 0
deriving DecidableEq, Repr

/-- A route request: `hdr_aodv_request` and its IP header. -/
structure Request where
  saddr : Addr
  ttl : ℤ
  rqHopCount : ℕ
  rqBcastId : ℕ
  rqDst : Addr
  rqDstSeqno : ℕ
  rqSrc : Addr
  rqSrcSeqno : ℕ
deriving DecidableEq, Repr

/-- A route reply: `hdr_aodv_reply`, its IP header and the node it is sent to. -/
structure Reply where
  nextHop : Addr
  daddr : Addr
  ttl : ℤ
  rpHopCount : ℕ
  rpDst : Addr
  rpDstSeqno : ℕ
  rpSrc : Addr
  rpLifetime : ℚ
deriving DecidableEq, Repr

/-- A route error: the unreachable destinations with their sequence numbers. -/
structure RouteError where
  saddr : Addr
  unreachable : List (Addr × ℕ)
deriving DecidableEq, Repr

/-- A message of the protocol. -/
inductive Message where
  | request (rq : Request)
  | reply (rp : Reply)
  | error (re : RouteError)
deriving DecidableEq, Repr

/-- A conversion to `u_int32_t`. -/
def toUInt32 (x : ℚ) : ℕ := (x.num.tdiv x.den % 2 ^ 32).toNat

/-! ## The queue of packets without a route -/

namespace Rqueue

/-- `aodv_rqueue::purge`. -/
def purge (now : ℚ) (q : List Packet) : List Packet := q.filter fun p => ¬p.ts < now

/-- `aodv_rqueue::enque`. -/
def enque (p : Packet) (now : ℚ) (q : List Packet) : List Packet :=
  let q := purge now q
  let q := if q.length = AODV_RTQ_MAX_LEN then q.tail else q
  q ++ [{ p with ts := now + AODV_RTQ_TIMEOUT }]

/-- `aodv_rqueue::find`. -/
def find (dst : Addr) (q : List Packet) : Bool := q.any fun p => p.daddr = dst

/-- The packets a loop over `aodv_rqueue::deque` takes out. -/
def taken (dst : Addr) (now : ℚ) (q : List Packet) : List Packet :=
  (purge now q).filter fun p => p.daddr = dst

/-- What such a loop leaves. -/
def left (dst : Addr) (now : ℚ) (q : List Packet) : List Packet :=
  (purge now q).filter fun p => p.daddr ≠ dst

end Rqueue

/-- `BroadcastID`. -/
structure BroadcastID where
  src : Addr
  id : ℕ
  expire : ℚ
deriving DecidableEq, Repr

/-- The state of `AODV`, the destinations whose local repair has a timer running, and
the messages it has sent. -/
structure AODV where
  index : Addr
  seqno : ℕ := 2
  bid : ℕ := 1
  rtable : RoutingTable := []
  bihead : List BroadcastID := []
  rqueue : List Packet := []
  repairs : List Addr := []
  sent : List Message := []
deriving DecidableEq

namespace AODV

open RoutingTable

/-- Writes through the pointer to the entry of `dst`. -/
def modify (a : AODV) (dst : Addr) (f : RtEntry → RtEntry) : AODV :=
  { a with rtable := a.rtable.modify dst f }

/-- The entry of `dst`, or the one that `rt_add` makes. -/
def rtEntry (a : AODV) (dst : Addr) : RtEntry := (a.rtable.rtLookup dst).getD { rtDst := dst }

/-- `rt_lookup`, and `rt_add` when there is none. -/
def lookupOrAdd (a : AODV) (dst : Addr) : AODV :=
  if (a.rtable.rtLookup dst).isSome then a else { a with rtable := a.rtable.rtAdd dst }

/-- The packet is handed to the link layer. -/
def send (a : AODV) (m : Message) : AODV := { a with sent := a.sent ++ [m] }

/-- `aodv_rqueue::enque` on the agent's queue. -/
def enque (a : AODV) (p : Packet) (env : Env) : AODV :=
  { a with rqueue := Rqueue.enque p env.now a.rqueue }

/-! ## Sending -/

/-- `AODV::forward` of a data packet along the entry of `dst`. -/
def forward (a : AODV) (dst : Addr) (p : Packet) (env : Env) : Except Failure AODV :=
  if p.ttl = 0 then .ok a
  -- packets of its own go to the node's port classifier
  else if p.daddr = a.index then .ok a
  else
    match a.rtable.rtLookup dst with
    | none => .error .assertion
    | some rt =>
        if rt.rtFlags = .up then
          .ok (a.modify dst fun rt => { rt with rtExpire := env.now + ACTIVE_ROUTE_TIMEOUT })
        else .error .assertion

/-- The TTL of the next request for a destination: an expanding ring search. -/
def searchTtl (rt : RtEntry) : ℕ :=
  let lastTtl := max rt.rtReqLastTtl rt.rtLastHopCount
  if lastTtl = 0 then TTL_START
  else if lastTtl < TTL_THRESHOLD then lastTtl + TTL_INCREMENT
  else NETWORK_DIAMETER

/-- The entry when the request is sent. -/
def searched (rt : RtEntry) (env : Env) : RtEntry :=
  -- only a search of the whole network is counted
  let reqCnt :=
    if max rt.rtReqLastTtl rt.rtLastHopCount < TTL_THRESHOLD then rt.rtReqCnt else rt.rtReqCnt + 1
  let timeout :=
    2 * searchTtl rt * env.perHopTime rt.rtDst * (if reqCnt > 0 then reqCnt else 1) + env.now
  { rt with rtReqLastTtl := searchTtl rt, rtReqCnt := reqCnt, rtExpire := 0,
            rtReqTimeout := min timeout (env.now + MAX_RREQ_TIMEOUT) }

/-- The part of `sendRequest` that fills out the packet. -/
def broadcastRequest (a : AODV) (rt : RtEntry) : Except Failure AODV :=
  if (a.seqno + 2) % 2 = 0 then
    .ok ({ a with seqno := a.seqno + 2, bid := a.bid + 1 }.send (.request
      { saddr := a.index, ttl := searchTtl rt, rqHopCount := 1, rqBcastId := a.bid,
        rqDst := rt.rtDst, rqDstSeqno := rt.rtSeqno, rqSrc := a.index, rqSrcSeqno := a.seqno + 2 }))
  else .error .assertion

/-- `AODV::sendRequest`. -/
def sendRequest (a : AODV) (dst : Addr) (env : Env) : Except Failure AODV :=
  match a.rtable.rtLookup dst with
  | none => .error .assertion
  | some rt =>
      if rt.rtFlags = .up then
        if rt.rtHops ≠ INFINITY2 then .ok a else .error .assertion
      else if rt.rtReqTimeout > env.now then .ok a
      else if rt.rtReqCnt > RREQ_RETRIES then
        let a := a.modify dst fun rt =>
          { rt with rtReqTimeout := env.now + MAX_RREQ_TIMEOUT, rtReqCnt := 0 }
        .ok { a with rqueue := Rqueue.left dst env.now a.rqueue }
      else (a.modify dst fun rt => searched rt env).broadcastRequest rt

/-- `AODV::sendReply`. -/
def sendReply (a : AODV) (ipdst : Addr) (hopCount : ℕ) (rpdst : Addr) (rpseq : ℕ)
    (lifetime : ℚ) : Except Failure AODV :=
  match a.rtable.rtLookup ipdst with
  | none => .error .assertion
  | some rt =>
      .ok (a.send (.reply
        { nextHop := rt.rtNexthop, daddr := ipdst, ttl := NETWORK_DIAMETER,
          rpHopCount := hopCount % 256, rpDst := rpdst, rpDstSeqno := rpseq, rpSrc := a.index,
          rpLifetime := lifetime }))

/-- `AODV::sendError`. -/
def sendError (a : AODV) (unreachable : List (Addr × ℕ)) : Except Failure AODV :=
  if unreachable.length > AODV_MAX_ERRORS then .error .overflow
  else .ok (a.send (.error { saddr := a.index, unreachable }))

/-! ## Data packets and the failure of links -/

/-- `AODV::rt_resolve`. -/
def rtResolve (a : AODV) (p : Packet) (env : Env) : Except Failure AODV :=
  let rt := a.rtEntry p.daddr
  let a := a.lookupOrAdd p.daddr
  if rt.rtFlags = .up then
    if rt.rtHops ≠ INFINITY2 then a.forward p.daddr p env else .error .assertion
  else if p.saddr = a.index then (a.enque p env).sendRequest p.daddr env
  else if rt.rtFlags = .inRepair then .ok (a.enque p env)
  else a.sendError [(p.daddr, rt.rtSeqno)]

/-- `AODV::recv` of a data packet. -/
def recv (a : AODV) (p : Packet) (env : Env) : Except Failure AODV :=
  if p.saddr = a.index ∧ p.numForwards = 0 then
    if p.daddr = IP_BROADCAST then .ok a
    else a.rtResolve { p with ttl := NETWORK_DIAMETER } env
  -- a packet that I sent: probably a routing loop
  else if p.saddr = a.index then .ok a
  else if p.ttl - 1 = 0 then .ok a
  else if p.daddr = IP_BROADCAST then .ok a
  else a.rtResolve { p with ttl := p.ttl - 1 } env

/-- `AODV::local_rt_repair`. -/
def localRtRepair (a : AODV) (p : Packet) (env : Env) : Except Failure AODV :=
  let a := (a.enque p env).modify p.daddr fun rt => { rt with rtFlags := .inRepair }
  match a.sendRequest p.daddr env with
  | .error f => .error f
  | .ok a => .ok { a with repairs := a.repairs ++ [p.daddr] }

/-- One turn of the loop of `handle_link_failure`, for the entry of `dst`. -/
def breakRoute (id : Addr) (s : AODV × List (Addr × ℕ)) (dst : Addr) :
    Except Failure (AODV × List (Addr × ℕ)) :=
  match s.1.rtable.rtLookup dst with
  | none => .ok s
  | some rt =>
      if rt.rtHops ≠ INFINITY2 ∧ rt.rtNexthop = id then
        if rt.rtFlags = .up ∧ rt.rtSeqno % 2 = 0 then
          .ok (s.1.modify dst fun rt =>
              ({ rt with rtSeqno := rt.rtSeqno + 1 }.down).pcDelete id,
            s.2 ++ [(dst, rt.rtSeqno + 1)])
        else .error .assertion
      else .ok (s.1.modify dst fun rt => rt.pcDelete id, s.2)

/-- `AODV::handle_link_failure`. -/
def handleLinkFailure (a : AODV) (id : Addr) : Except Failure AODV :=
  match runAll (breakRoute id) (a, []) (a.rtable.map (·.rtDst)) with
  | .error f => .error f
  | .ok (a, unreachable) => if unreachable = [] then .ok a else a.sendError unreachable

/-- `AODV::nb_delete`. -/
def nbDelete (a : AODV) (id : Addr) : Except Failure AODV :=
  if (a.seqno + 2) % 2 = 0 then { a with seqno := a.seqno + 2 }.handleLinkFailure id
  else .error .assertion

/-- `AODV::rt_ll_failed` for a packet that was sent to `nextHop`. -/
def rtLlFailed (a : AODV) (p : Packet) (nextHop : Addr) (env : Env) : Except Failure AODV :=
  if p.daddr = IP_BROADCAST then .ok a
  else
    match a.rtable.rtLookup p.daddr with
    | none => .ok a
    | some rt =>
        -- the broken link is closer to the destination than to the source
        if p.numForwards > rt.rtHops then a.localRtRepair p env
        else a.nbDelete nextHop

/-! ## Timers -/

/-- One turn of the loop of `rt_purge`, for the entry of `dst`. -/
def purgeRoute (a : AODV) (env : Env) (dst : Addr) : Except Failure AODV :=
  match a.rtable.rtLookup dst with
  | none => .ok a
  | some rt =>
      if rt.rtFlags = .up ∧ rt.rtExpire < env.now then
        if rt.rtHops ≠ INFINITY2 ∧ (rt.rtSeqno + 1) % 2 = 1 then
          .ok ({ a with rqueue := Rqueue.left dst env.now a.rqueue }.modify dst fun rt =>
            { rt with rtSeqno := rt.rtSeqno + 1 }.down)
        else .error .assertion
      else if rt.rtFlags = .up then
        if rt.rtHops ≠ INFINITY2 then
          runAll (fun a p => a.forward dst p env)
            { a with rqueue := Rqueue.left dst env.now a.rqueue }
            (Rqueue.taken dst env.now a.rqueue)
        else .error .assertion
      else if Rqueue.find dst a.rqueue then a.sendRequest dst env
      else .ok a

/-- `AODV::rt_purge`. -/
def rtPurge (a : AODV) (env : Env) : Except Failure AODV :=
  runAll (fun a dst => a.purgeRoute env dst) a (a.rtable.map (·.rtDst))

/-- `AODV::id_purge`. -/
def idPurge (a : AODV) (env : Env) : AODV :=
  { a with bihead := a.bihead.filter fun b => ¬b.expire ≤ env.now }

/-- `LocalRepairTimer::handle` for the `k`-th timer that is running. -/
def repairTimeout (a : AODV) (k : ℕ) : AODV :=
  match a.repairs[k]? with
  | none => a
  | some dst =>
      { a with repairs := a.repairs.eraseIdx k }.modify dst fun rt =>
        if rt.rtFlags ≠ RtFlags.up then rt.down else rt

/-! ## Messages -/

/-- Whether a route over `hops` hops with the number `seqno` is newer or shorter than the
entry. -/
def Fresher (rt : RtEntry) (seqno hops : ℕ) : Prop :=
  rt.rtSeqno < seqno ∨ rt.rtSeqno = seqno ∧ hops < rt.rtHops

instance (rt : RtEntry) (seqno hops : ℕ) : Decidable (Fresher rt seqno hops) :=
  inferInstanceAs (Decidable (_ ∨ _))

/-- One turn of the loop of `recvRequest` over the packets that waited for `dst`. -/
def forwardBack (a : AODV) (dst : Addr) (p : Packet) (env : Env) : Except Failure AODV :=
  match a.rtable.rtLookup dst with
  | none => .ok a
  | some rt0 =>
      if rt0.rtFlags = .up then
        if rt0.rtHops ≠ INFINITY2 then a.forward dst p env else .error .assertion
      else .ok a

/-- One turn of the loop of `recvReply` over the packets that waited for `dst`. -/
def forwardOn (a : AODV) (dst : Addr) (p : Packet) (env : Env) : Except Failure AODV :=
  match a.rtable.rtLookup dst with
  | none => .ok a
  | some rt => if rt.rtHops ≠ INFINITY2 then a.forward dst p env else .ok a

/-- The part of `recvRequest` that makes sure that the reverse route is in the table. -/
def reverseRoute (a : AODV) (rq : Request) (env : Env) : Except Failure AODV :=
  let rt0 := a.rtEntry rq.rqSrc
  let a := (a.lookupOrAdd rq.rqSrc).modify rq.rqSrc fun rt0 =>
    { rt0 with rtExpire := max rt0.rtExpire (env.now + REV_ROUTE_LIFE) }
  if Fresher rt0 rq.rqSrcSeqno rq.rqHopCount then
    let a := a.modify rq.rqSrc fun rt0 =>
      rt0.update rq.rqSrcSeqno rq.rqHopCount rq.saddr
        (max rt0.rtExpire (env.now + REV_ROUTE_LIFE))
    -- reset the soft state
    let a := a.modify rq.rqSrc fun rt0 =>
      if rt0.rtReqTimeout > 0 then
        { rt0 with rtReqCnt := 0, rtReqTimeout := 0, rtReqLastTtl := rq.rqHopCount,
                   rtExpire := env.now + ACTIVE_ROUTE_TIMEOUT }
      else rt0
    runAll (fun a p => a.forwardBack rq.rqSrc p env)
      { a with rqueue := Rqueue.left rq.rqSrc env.now a.rqueue }
      (Rqueue.taken rq.rqSrc env.now a.rqueue)
  else .ok a

/-- The part of `recvRequest` that forwards the request. -/
def forwardRequest (a : AODV) (rq : Request) (dstSeqno : ℕ) : AODV :=
  if rq.ttl = 0 then a
  else
    a.send (.request { rq with saddr := a.index, rqHopCount := (rq.rqHopCount + 1) % 256,
                               rqDstSeqno := dstSeqno })

/-- The part of `recvRequest` that answers or forwards the request. -/
def answerRequest (a : AODV) (rq : Request) (env : Env) : Except Failure AODV :=
  if rq.rqDst = a.index then
    let seqno := max a.seqno rq.rqDstSeqno + 1
    let seqno := if seqno % 2 = 1 then seqno + 1 else seqno
    { a with seqno }.sendReply rq.rqSrc 1 a.index seqno MY_ROUTE_TIMEOUT
  else
    match a.rtable.rtLookup rq.rqDst with
    | none => .ok (a.forwardRequest rq rq.rqDstSeqno)
    | some rt =>
        -- I am not the destination, but I may have a fresh enough route
        if rt.rtHops ≠ INFINITY2 ∧ rq.rqDstSeqno ≤ rt.rtSeqno then
          let rt0 := a.rtEntry rq.rqSrc
          match a.sendReply rq.rqSrc (rt.rtHops + 1) rq.rqDst rt.rtSeqno
              (toUInt32 (rt.rtExpire - env.now)) with
          | .error f => .error f
          | .ok a =>
              .ok ((a.modify rq.rqDst fun rt => rt.pcInsert rt0.rtNexthop).modify rq.rqSrc
                fun rt0 => rt0.pcInsert rt.rtNexthop)
        else .ok (a.forwardRequest rq (max rt.rtSeqno rq.rqDstSeqno))

/-- `AODV::recvRequest`. -/
def recvRequest (a : AODV) (rq : Request) (env : Env) : Except Failure AODV :=
  if rq.rqSrc = a.index then .ok a
  else if a.bihead.any fun b => b.src = rq.rqSrc ∧ b.id = rq.rqBcastId then .ok a
  else
    let b : BroadcastID := ⟨rq.rqSrc, rq.rqBcastId, env.now + BCAST_ID_SAVE⟩
    match { a with bihead := b :: a.bihead }.reverseRoute rq env with
    | .error f => .error f
    | .ok a => a.answerRequest rq env

/-- The entry with the route of a reply, and its soft state reset. -/
def replied (rt : RtEntry) (rp : Reply) (env : Env) : RtEntry :=
  { rt.update rp.rpDstSeqno rp.rpHopCount rp.rpSrc (env.now + rp.rpLifetime) with
    rtReqCnt := 0, rtReqTimeout := 0, rtReqLastTtl := rp.rpHopCount }

/-- The part of `recvReply` that forwards the reply. -/
def forwardReply (a : AODV) (rp : Reply) (env : Env) : Except Failure AODV :=
  match a.rtable.rtLookup rp.daddr with
  | none => .ok a
  | some rt0 =>
      if rt0.rtHops ≠ INFINITY2 then
        if rt0.rtFlags = .up then
          let a :=
            if rp.ttl = 0 then a
            else
              (a.modify rp.daddr fun rt0 =>
                { rt0 with rtExpire := env.now + ACTIVE_ROUTE_TIMEOUT }).send
                (.reply { rp with nextHop := rt0.rtNexthop, rpSrc := a.index,
                                  rpHopCount := (rp.rpHopCount + 1) % 256 })
          .ok (a.modify rp.rpDst fun rt => rt.pcInsert rt0.rtNexthop)
        else .error .assertion
      else .ok a

/-- `AODV::recvReply`. -/
def recvReply (a : AODV) (rp : Reply) (env : Env) : Except Failure AODV :=
  let rt := a.rtEntry rp.rpDst
  let a := a.lookupOrAdd rp.rpDst
  if Fresher rt rp.rpDstSeqno rp.rpHopCount then
    let a := a.modify rp.rpDst fun rt => replied rt rp env
    match runAll (fun a p => a.forwardOn rp.rpDst p env)
        { a with rqueue := Rqueue.left rp.rpDst env.now a.rqueue }
        (Rqueue.taken rp.rpDst env.now a.rqueue) with
    | .error f => .error f
    | .ok a => if rp.daddr = a.index then .ok a else a.forwardReply rp env
  else .ok a

/-- One turn of the loop of `recvError`, for one unreachable destination. -/
def loseRoute (saddr : Addr) (s : AODV × List (Addr × ℕ)) (lost : Addr × ℕ) :
    Except Failure (AODV × List (Addr × ℕ)) :=
  match s.1.rtable.rtLookup lost.1 with
  | none => .ok s
  | some rt =>
      if rt.rtHops ≠ INFINITY2 ∧ rt.rtNexthop = saddr ∧ rt.rtSeqno ≤ lost.2 then
        if rt.rtFlags = .up ∧ rt.rtSeqno % 2 = 0 then
          let a := s.1.modify lost.1 fun rt => { rt with rtSeqno := lost.2 }.down
          -- if precursor list non-empty add to RERR and delete the precursor list
          if rt.rtPclist = [] then .ok (a, s.2)
          else .ok (a.modify lost.1 fun rt => { rt with rtPclist := [] }, s.2 ++ [lost])
        else .error .assertion
      else .ok s

/-- `AODV::recvError`. -/
def recvError (a : AODV) (re : RouteError) : Except Failure AODV :=
  match runAll (loseRoute re.saddr) (a, []) re.unreachable with
  | .error f => .error f
  | .ok (a, unreachable) => if unreachable = [] then .ok a else a.sendError unreachable

/-- `AODV::recvAODV`, behind the step of `recv` that counts the hop. -/
def recvAODV (a : AODV) (m : Message) (env : Env) : Except Failure AODV :=
  match m with
  | .request rq => a.recvRequest { rq with ttl := rq.ttl - 1 } env
  | .reply rp => a.recvReply { rp with ttl := rp.ttl - 1 } env
  | .error re => a.recvError re

end AODV

end ComputerNetworking.Aodv
