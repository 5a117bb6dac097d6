import ComputerNetworking.Dsdv.Updates
import ComputerNetworking.Foundations.Requeue

/-!
# The packets that wait for a route

What leaves a DSDV agent besides its updates: the packets that `recv` and `forwardPacket`
hand on or drop. The loop of `processUpdate` over the queue of a destination is a queue
whose tokens may come back (`release_setQueue`): `recv` hands a packet on if the table
reaches the destination, and else puts it back into the queue that the loop empties.
-/

set_option autoImplicit false

namespace ComputerNetworking.Dsdv

open ComputerNetworking.Foundations RoutingTable

/-- Why a packet is dropped. -/
inductive DropReason where
  | routeLoop
  | ttl
  | qfull
deriving DecidableEq, Repr

/-- How a packet leaves the agent. -/
inductive Exit where
  | target (p : Packet) (nextHop : Addr)
  | drop (p : Packet) (why : DropReason)
  /-- no route to the base station is known -/
  | free (p : Packet)
  | sendOutBCastPkt (p : Packet)
  | portDmux (p : Packet)
deriving DecidableEq, Repr

/-- The packet that leaves. -/
def Exit.packet : Exit → Packet
  | .target p _ => p
  | .drop p _ => p
  | .free p => p
  | .sendOutBCastPkt p => p
  | .portDmux p => p

namespace DSDVAgent

section Exits

variable (baseStn : Addr)

/-- The hop that `forwardPacket` sends to for `dst`, if the table reaches it. -/
def nextHop (a : DSDVAgent) (dst : Addr) : Option Addr :=
  match a.table.getEntry dst with
  | none => none
  | some prte =>
      if prte.metric ≠ BIG then some (if prte.metric > 1 then prte.hop else dst) else none

/-- The packets that leave in `DSDV_Agent::forwardPacket`. -/
def forwardExits (a : DSDVAgent) (p : Packet) : List Exit :=
  if a.cfg.diffSubnet p.dst then
    match (a.nextHop p.dst).or (a.nextHop baseStn) with
    | some hop => [.target p hop]
    | none => [.free p]
  else
    match a.nextHop p.dst with
    | some hop => [.target p hop]
    | none =>
        match a.table.getEntry p.dst with
        | none => []
        | some prte =>
            let q := prte.q.getD [] ++ [p]
            (q.take (q.length - MAX_QUEUE_LENGTH)).map fun p => .drop p .qfull

/-- The packets that leave in `DSDV_Agent::recv` of a data packet. -/
def recvExits (a : DSDVAgent) (p : Packet) : List Exit :=
  if p.src = a.myaddr ∧ p.numForwards ≠ 0 then [.drop p .routeLoop]
  else
    let p := { p with ttl := if p.src = a.myaddr then IP_DEF_TTL else p.ttl - 1 }
    if p.ttl = 0 then [.drop p .ttl]
    else if p.dst = IP_BROADCAST then
      [if p.src = a.myaddr then .sendOutBCastPkt p else .portDmux p]
    else a.forwardExits baseStn p

/-- The packets that leave in the loop of `processUpdate` over the packets for `dst`. -/
def releaseExits (dst : Addr) (now : ℚ) : ℕ → DSDVAgent → List Exit
  | 0, _ => []
  | fuel + 1, a =>
      match (a.table.getEntry dst).bind (·.q) with
      | some (queued :: rest) =>
          let a := a.modify dst fun prte => { prte with q := some rest }
          a.recvExits baseStn queued ++ releaseExits dst now fuel (a.recv queued now)
      | _ => []

/-- The packets that leave at the end of a turn of `processUpdate`. -/
def sendQueuedExits (a : DSDVAgent) (rte : RtableEnt) (now : ℚ) : List Exit :=
  match rte.q with
  | none => []
  | some q => if rte.metric ≠ BIG then releaseExits baseStn rte.dst now (turns q) a else []

/-- The packets that leave in one turn of the loop of `processUpdate`. -/
def entryExits (a : DSDVAgent) (src : Addr) (adv : Advert) (now : ℚ) : List Exit :=
  if adv.dst = a.myaddr then []
  else
    let prte? := a.table.getEntry adv.dst
    match a.decideUpdate prte? (a.learnt prte? src adv now) now with
    | .error _ => []
    | .ok (a, rte, trigger) =>
        match a.triggerUpdate rte trigger now with
        | .error _ => []
        | .ok a => a.sendQueuedExits baseStn rte now

/-- The packets that leave in the loop of `processUpdate`. -/
def entriesExits (src : Addr) (now : ℚ) : List Advert → DSDVAgent → List Exit
  | [], _ => []
  | adv :: rest, a =>
      a.entryExits baseStn src adv now ++
        match a.processEntry src adv now with
        | .error _ => []
        | .ok a => entriesExits src now rest a

/-- The packets that leave in `DSDV_Agent::processUpdate`. -/
def updateExits (a : DSDVAgent) (u : Update) (now : ℚ) : List Exit :=
  entriesExits baseStn u.src now u.adverts a

end Exits

/-- The packets that wait for a route to `d`, in order. -/
def waiting (a : DSDVAgent) (d : Addr) : List Packet :=
  ((a.table.getEntry d).bind (·.q)).getD []

/-- The agent with the queue `q` for `d`. -/
def setQueue (a : DSDVAgent) (d : Addr) (q : List Packet) : DSDVAgent :=
  a.modify d fun prte => { prte with q := some q }

/-- The packet as `recv` passes it on. -/
def stamped (a : DSDVAgent) (p : Packet) : Packet :=
  { p with ttl := if p.src = a.myaddr then IP_DEF_TTL else p.ttl - 1 }

/-- A packet that `recv` queues for `d`. -/
structure Queueable (a : DSDVAgent) (d : Addr) (p : Packet) : Prop where
  dst_eq : p.dst = d
  inside : a.cfg.diffSubnet d = false
  unicast : d ≠ IP_BROADCAST
  fresh : p.src = a.myaddr → p.numForwards = 0

/-- One turn of the loop: a packet leaves, or goes back into the queue of the entry `e`. -/
def turn (a : DSDVAgent) (e : RtableEnt) (p : Packet) : Packet ⊕ Exit :=
  if (a.stamped p).ttl = 0 then .inr (.drop (a.stamped p) .ttl)
  else if e.metric ≠ BIG then
    .inr (.target (a.stamped p) (if e.metric > 1 then e.hop else e.dst))
  else .inl (a.stamped p)

variable {a a' : DSDVAgent} {d : Addr} {e : RtableEnt} {now : ℚ} {p : Packet} {q rest : List Packet}

section Queues

theorem setQueue_setQueue (a : DSDVAgent) (d : Addr) (q q' : List Packet) :
    (a.setQueue d q).setQueue d q' = a.setQueue d q' := by
  have htable : (a.setQueue d q).table.modify d (fun prte => { prte with q := some q' }) =
      a.table.modify d fun prte => { prte with q := some q' } := by
    show (a.table.map _).map _ = a.table.map _
    rw [List.map_map]
    refine List.map_congr_left fun e _ => ?_
    by_cases hd : e.dst = d <;> simp [hd]
  exact congrArg (fun table => { a with table }) htable

theorem getEntry_setQueue (he : a.table.getEntry d = some e) (q : List Packet) :
    (a.setQueue d q).table.getEntry d = some { e with q := some q } := by
  have hdst : ∀ e : RtableEnt, ({ e with q := some q } : RtableEnt).dst = e.dst := fun _ => rfl
  rw [setQueue, DSDVAgent.modify, getEntry_modify _ hdst, if_pos rfl, he]
  rfl

theorem getEntry_setQueue_of_ne {d' : Addr} (hd : d' ≠ d) (q : List Packet) :
    (a.setQueue d q).table.getEntry d' = a.table.getEntry d' := by
  have hdst : ∀ e : RtableEnt, ({ e with q := some q } : RtableEnt).dst = e.dst := fun _ => rfl
  rw [setQueue, DSDVAgent.modify, getEntry_modify _ hdst, if_neg hd]

theorem sorted_setQueue (hs : Sorted a.table) (d : Addr) (q : List Packet) :
    Sorted (a.setQueue d q).table :=
  hs.modify (f := fun prte => { prte with q := some q }) (fun _ => rfl) d

/-- Writing the queue that is there changes nothing. -/
theorem setQueue_self (hs : Sorted a.table) (he : a.table.getEntry d = some e)
    (hq : e.q = some q) : a.setQueue d q = a := by
  have htable : a.table.modify d (fun prte => { prte with q := some q }) = a.table := by
    refine (List.map_congr_left fun x hx => ?_).trans (List.map_id a.table)
    by_cases hd : x.dst = d
    · have hx' := getEntry_of_mem hs hx
      rw [hd, he] at hx'
      rw [if_pos hd, ← Option.some.inj hx', ← hq]
      rfl
    · exact if_neg hd
  exact congrArg (fun table => { a with table }) htable

/-- What is queued stays queueable. -/
theorem Queueable.stamped (h : Queueable a d p) : Queueable a d (a.stamped p) :=
  ⟨h.dst_eq, h.inside, h.unicast, h.fresh⟩

end Queues

section Turns

variable (baseStn : Addr)

theorem recv_of_queueable (h : Queueable a d p) :
    a.recv p now =
      if (a.stamped p).ttl = 0 then a else a.forwardPacket (a.stamped p) now := by
  have hnoloop : ¬(p.src = a.myaddr ∧ p.numForwards ≠ 0) := fun hloop => hloop.2 (h.fresh hloop.1)
  have hcast : p.dst ≠ IP_BROADCAST := h.dst_eq ▸ h.unicast
  rw [recv, if_neg hnoloop]
  dsimp only
  rw [if_neg hcast]
  rfl

theorem recvExits_of_queueable (h : Queueable a d p) :
    a.recvExits baseStn p =
      if (a.stamped p).ttl = 0 then [.drop (a.stamped p) .ttl]
      else a.forwardExits baseStn (a.stamped p) := by
  have hnoloop : ¬(p.src = a.myaddr ∧ p.numForwards ≠ 0) := fun hloop => hloop.2 (h.fresh hloop.1)
  have hcast : p.dst ≠ IP_BROADCAST := h.dst_eq ▸ h.unicast
  rw [recvExits, if_neg hnoloop]
  dsimp only
  rw [if_neg hcast]
  rfl

/-- A packet for a destination that is not reached is queued. -/
theorem forwardPacket_big (he : a.table.getEntry d = some e) (hm : e.metric = BIG)
    (hp : Queueable a d p) (hq : e.q = some q) (hlen : q.length < MAX_QUEUE_LENGTH) :
    a.forwardPacket p now = a.setQueue d (q ++ [p]) ∧ a.forwardExits baseStn p = [] := by
  have hshort : (q ++ [p]).length - MAX_QUEUE_LENGTH = 0 := by
    rw [List.length_append, List.length_singleton]
    omega
  have hno : a.nextHop d = none := by
    rw [nextHop, he]
    exact if_neg (not_not.mpr hm)
  rw [forwardPacket, forwardExits, hp.dst_eq, hp.inside, he, hno]
  dsimp only
  rw [hq, if_neg (not_not.mpr hm), Option.getD_some, hshort]
  exact ⟨rfl, rfl⟩

/-- A packet for a destination that is reached is handed on. -/
theorem forwardPacket_reached (he : a.table.getEntry d = some e) (hm : e.metric ≠ BIG)
    (hp : Queueable a d p) :
    a.forwardPacket p now = a ∧
      a.forwardExits baseStn p = [.target p (if e.metric > 1 then e.hop else d)] := by
  have hhop : a.nextHop d = some (if e.metric > 1 then e.hop else d) := by
    rw [nextHop, he]
    exact if_pos hm
  rw [forwardPacket, forwardExits, hp.dst_eq, hp.inside, he, hhop]
  exact ⟨if_pos hm, rfl⟩

/-- A packet that is given to the agent again leaves, or goes back into the queue. -/
theorem recv_setQueue (now : ℚ) (he : a.table.getEntry d = some e) (hp : Queueable a d p)
    (hlen : rest.length < MAX_QUEUE_LENGTH) :
    (∀ p', a.turn e p = .inl p' → (a.setQueue d rest).recv p now = a.setQueue d (rest ++ [p']) ∧
        (a.setQueue d rest).recvExits baseStn p = []) ∧
      ∀ x, a.turn e p = .inr x → (a.setQueue d rest).recv p now = a.setQueue d rest ∧
        (a.setQueue d rest).recvExits baseStn p = [x] := by
  have hget := getEntry_setQueue he rest
  have hp' : Queueable (a.setQueue d rest) d p := ⟨hp.1, hp.2, hp.3, hp.4⟩
  have hst : (a.setQueue d rest).stamped p = a.stamped p := rfl
  rw [recv_of_queueable hp', recvExits_of_queueable baseStn hp', hst, turn]
  by_cases httl : (a.stamped p).ttl = 0
  · rw [if_pos httl, if_pos httl, if_pos httl]
    refine ⟨fun p' h => (by cases h), fun x h => ?_⟩
    rw [← Sum.inr.inj h]
    exact ⟨rfl, rfl⟩
  · rw [if_neg httl, if_neg httl, if_neg httl]
    by_cases hm : e.metric = BIG
    · rw [if_neg (not_not.mpr hm)]
      refine ⟨fun p' h => ?_, fun x h => (by cases h)⟩
      rw [← Sum.inl.inj h, ← setQueue_setQueue a d rest (rest ++ [a.stamped p])]
      exact forwardPacket_big baseStn hget hm hp'.stamped rfl hlen
    · rw [if_pos hm]
      refine ⟨fun p' h => (by cases h), fun x h => ?_⟩
      rw [← Sum.inr.inj h, dst_of_getEntry he]
      exact forwardPacket_reached baseStn (e := { e with q := some rest }) hget hm hp'.stamped

/-- The loop empties the queue as `Requeue.drain` does. -/
theorem release_setQueue (now : ℚ) (he : a.table.getEntry d = some e) (fuel : ℕ)
    (hq : ∀ p ∈ q, Queueable a d p) (hlen : q.length ≤ MAX_QUEUE_LENGTH) :
    (Requeue.drain (a.turn e) fuel q = none →
        release d now fuel (a.setQueue d q) = .error .endless) ∧
      ∀ out, Requeue.drain (a.turn e) fuel q = some out →
        release d now fuel (a.setQueue d q) = .ok (a.setQueue d []) ∧
          releaseExits baseStn d now fuel (a.setQueue d q) = out := by
  induction fuel generalizing q with
  | zero => exact ⟨fun _ => rfl, fun out h => (by cases h)⟩
  | succ fuel ih =>
      rw [release, releaseExits, getEntry_setQueue he q]
      cases q with
      | nil =>
          refine ⟨fun h => (by cases h), fun out h => ?_⟩
          cases h
          exact ⟨rfl, rfl⟩
      | cons p rest =>
          have hp := hq p List.mem_cons_self
          have hrest : ∀ p' ∈ rest, Queueable a d p' := fun p' h => hq p' (List.mem_cons_of_mem p h)
          have hlt : rest.length < MAX_QUEUE_LENGTH := hlen
          obtain ⟨hback, hleave⟩ := recv_setQueue baseStn now he hp hlt
          simp only [Option.bind_some]
          change (_ → release d now fuel
              (((a.setQueue d (p :: rest)).setQueue d rest).recv p now) = _) ∧ ∀ out, _ →
            release d now fuel (((a.setQueue d (p :: rest)).setQueue d rest).recv p now) = _ ∧
            ((a.setQueue d (p :: rest)).setQueue d rest).recvExits baseStn p ++
              releaseExits baseStn d now fuel
                (((a.setQueue d (p :: rest)).setQueue d rest).recv p now) = out
          rw [setQueue_setQueue]
          cases hturn : a.turn e p with
          | inl p' =>
              obtain ⟨hrecv, hexit⟩ := hback p' hturn
              rw [hrecv, hexit, Requeue.drain_back hturn, List.nil_append]
              refine ih (fun p'' h => ?_) ?_
              · rcases List.mem_append.mp h with hold | hnew
                · exact hrest p'' hold
                · rw [List.mem_singleton.mp hnew]
                  have hst : p' = a.stamped p := by
                    rw [turn] at hturn
                    split_ifs at hturn
                    exact (Sum.inl.inj hturn).symm
                  rw [hst]
                  exact hp.stamped
              · rw [List.length_append]
                exact hlt
          | inr x =>
              obtain ⟨hrecv, hexit⟩ := hleave x hturn
              obtain ⟨hnone, hsome⟩ := ih hrest hlt.le
              rw [hrecv, hexit, Requeue.drain_leave hturn]
              refine ⟨fun h => hnone (Option.map_eq_none_iff.mp h), fun out h => ?_⟩
              obtain ⟨out', hout', rfl⟩ := Option.map_eq_some_iff.mp h
              obtain ⟨hok, hexits⟩ := hsome out' hout'
              exact ⟨hok, by rw [hexits]; rfl⟩

end Turns

end DSDVAgent

end ComputerNetworking.Dsdv
