import ComputerNetworking.Aodv.Messages

/-!
# AODV builds no routing circle, until a local repair fails

The invariant of the network joins all tables with all messages that were sent: a
message never offers more than its sender still has (`Inv`). Every event keeps it unless
a local repair fails or a hop count starts again at 0 (`Inv.step`), so in runs without
these no circle comes up (`loopFree_of_regular`). The timer of a local repair gives up a
route without a new number: `circle_after_late_reply` is a run of four nodes in which a
reply that is older than that is taken over afterwards.
-/

set_option autoImplicit false

namespace ComputerNetworking.Aodv

open ComputerNetworking.Foundations RoutingTable AODV

namespace Network

variable {s s' : Network} {n : Addr} {a : AODV} {ev : Event}

/-- The node `x` is `d`, or its route to `d` is at least as good as `r`. -/
def Offered (s : Network) (d x : Addr) (r : Freshness) : Prop := x = d ∨ (s x).rank d ≤ r

/-- The network as a routing towards `d`. -/
def routing (s : Network) (d : Addr) : Routing Addr Freshness where
  rank x := (s x).rank d
  next := s.NextHop d
  advert := s.Offered d

/-- The invariant of all tables and all messages. -/
structure Inv (s : Network) : Prop where
  index_eq : ∀ n, (s n).index = n
  tidy : ∀ n, Tidy (s n)
  sound : ∀ d, (s.routing d).Sound d

/-- What the messages of a node tell is offered in the network. -/
theorem Inv.offered (h : Inv s) {m : Addr} {msg : Message} (hmem : msg ∈ (s m).sent) :
    msg.Trusted s.Offered := by
  apply ((h.tidy m).trusted msg hmem).mono
  rintro d x r ⟨hx, hoffer⟩
  rw [h.index_eq] at hx
  subst hx
  exact hoffer

/-- One node moves on, the others stay. -/
theorem Inv.advance (hf : Follows s.Offered (s n) a) (d : Addr) :
    Routing.Advance d (s.routing d) (routing (Function.update s n a) d) := by
  have hself : Function.update s n a n = a := Function.update_self n a s
  have hother : ∀ x, x ≠ n → Function.update s n a x = s x :=
    fun x hx => Function.update_of_ne hx a s
  apply Routing.Advance.of_node
  · show (Function.update s n a n).rank d ≤ (s n).rank d
    rw [hself]
    exact hf.rank_le d
  · intro _ x hnext
    change (Function.update s n a n).UpVia d x at hnext
    show _ ∨ ((s n).UpVia d x ∧ (s n).rank d ≤ (Function.update s n a n).rank d) ∨
      ∃ r, s.Offered d x r ∧ r < (Function.update s n a n).rank d
    rw [hself] at hnext ⊢
    exact Or.inr (hf.adopted d x hnext)
  · intro x hx
    exact congrArg (fun b : AODV => b.rank d) (hother x hx)
  · intro y x hy hnext
    change (Function.update s n a y).UpVia d x at hnext
    rwa [hother y hy] at hnext
  · intro x r hoffer
    exact hoffer.imp_right Or.inr

theorem Inv.update (h : Inv s) (hf : Follows s.Offered (s n) a) :
    Inv (Function.update s n a) := by
  refine ⟨?_, ?_, fun d => (h.sound d).advance (Inv.advance hf d)⟩
  · intro m
    by_cases hm : m = n
    · subst hm
      rw [Function.update_self]
      exact hf.index_eq.trans (h.index_eq m)
    · rw [Function.update_of_ne hm]
      exact h.index_eq m
  · intro m
    by_cases hm : m = n
    · subst hm
      rw [Function.update_self]
      exact hf.tidy
    · rw [Function.update_of_ne hm]
      exact h.tidy m

/-- The outcome of a handler that follows what the agent had. -/
theorem Inv.after (h : Inv s) {r : Except Failure AODV}
    (hr : ∀ a, r = .ok a → Follows s.Offered (s n) a) (hs : s.after n r = .ok s') : Inv s' := by
  cases r with
  | error f => cases hs
  | ok a =>
      rw [← Except.ok.inj hs]
      exact h.update (hr a rfl)

/-- An event in which no local repair fails and no hop count starts again. -/
theorem Inv.step (h : Inv s) (hev : s.Regular ev) (hs : s.step ev = .ok s') : Inv s' := by
  cases ev with
  | packet n p env => exact h.after (fun a hp => (h.tidy n).recv hp) hs
  | linkFailed n p nextHop env => exact h.after (fun a hl => (h.tidy n).rtLlFailed hl) hs
  | purge n env => exact h.after (fun a hp => (h.tidy n).rtPurge hp) hs
  | idPurge n env =>
      rw [← Except.ok.inj hs]
      exact h.update ((h.tidy n).idPurge env)
  | repairTimeout n k =>
      rw [← Except.ok.inj hs]
      exact h.update ((h.tidy n).repairTimeout hev)
  | deliver n m k env =>
      rw [Network.step] at hs
      split at hs
      · rw [← Except.ok.inj hs]
        exact h
      · next msg hmsg =>
          split at hs
          · next hreach =>
              have htrusted := h.offered (List.mem_of_getElem? hmsg)
              refine h.after (fun a hm => (h.tidy n).recvAODV htrusted ?_ hm) hs
              rintro rp rfl
              exact hev rp hmsg hreach
          · rw [← Except.ok.inj hs]
            exact h

theorem Inv.loopFree (h : Inv s) : s.LoopFree := fun d y => (h.sound d).no_return y

/-- At the start no node has a route. -/
theorem inv_start : Inv start := by
  refine ⟨fun _ => rfl, ?_, ?_⟩
  · intro n
    refine ⟨?_, ⟨Nat.succ_pos 1, Nat.mod_self 2⟩, ?_⟩
    · rintro d rt ⟨⟩
    · intro m hm
      cases hm
  · intro d
    constructor
    · rintro y x hy ⟨rt, hl, -⟩
      cases hl
    · exact fun x r hoffer => hoffer

instance (a : AODV) (k : ℕ) : Decidable (a.RepairFails k) :=
  inferInstanceAs (Decidable
    (∃ dst ∈ a.repairs[k]?, ∃ rt ∈ a.rtable.rtLookup dst, rt.rtFlags = .inRepair))

instance (a : AODV) (rp : Reply) : Decidable (a.HopsWrap rp) :=
  inferInstanceAs (Decidable (rp.rpHopCount = 255 ∧
    (a.rtEntry rp.rpDst).rtSeqno < rp.rpDstSeqno ∧ rp.daddr ≠ a.index ∧ rp.daddr ≠ rp.rpDst ∧
      rp.ttl ≠ 1 ∧ ∃ rt0 ∈ a.rtable.rtLookup rp.daddr, rt0.rtHops ≠ INFINITY2))

/-- A delivery is regular when its message is, if it is a reply. -/
theorem regular_deliver_iff {m k : ℕ} {env : Env} : s.Regular (.deliver n m k env) ↔
    ∀ msg ∈ (s m).sent[k]?, msg.reaches m n = true →
      match msg with
      | .reply rp => ¬(s n).HopsWrap rp
      | _ => True := by
  constructor
  · intro hev msg hmsg hreach
    cases msg with
    | reply rp => exact hev rp hmsg hreach
    | request rq => trivial
    | error re => trivial
  · intro hall rp hmsg hreach
    exact hall (.reply rp) hmsg hreach

instance (s : Network) : (ev : Event) → Decidable (s.Regular ev)
  | .deliver n m k _ =>
      have : ∀ msg : Message, Decidable (match msg with
          | .reply rp => ¬(s n).HopsWrap rp
          | _ => True) := by
        intro msg
        cases msg with
        | reply rp => exact inferInstanceAs (Decidable (¬(s n).HopsWrap rp))
        | request rq => exact isTrue trivial
        | error re => exact isTrue trivial
      decidable_of_iff _ regular_deliver_iff.symm
  | .repairTimeout n k => inferInstanceAs (Decidable (¬(s n).RepairFails k))
  | .packet .. | .linkFailed .. | .purge .. | .idPurge .. => isTrue trivial

/-- In a run in which no local repair fails and no hop count starts again, no circle comes
up. -/
theorem loopFree_of_regular (evs : List Event) (h : Along Network.step Regular start evs) :
    LoopFree start ∧ AfterEach Network.step LoopFree start evs := by
  have hstep : ∀ s ev s', Inv s → s.Regular ev → s.step ev = .ok s' → Inv s' := by
    intro s ev s' hinv hev hs
    exact hinv.step hev hs
  refine ⟨inv_start.loopFree, Along.of_invariant hstep ?_ inv_start h⟩
  intro s ev hinv hev s' hs
  exact (hstep s ev s' hinv hev hs).loopFree

/-- The clock, and a time of 30 ms for a hop. -/
def clock (now : ℚ) : Env := ⟨now, fun _ => 3 / 100⟩

/-- Node 1 finds node 4 over nodes 2 and 3. The link from 3 to 4 fails and node 3 starts a
local repair; node 2, whose route leads over node 3, answers its request. The repair is
given up, and then the answer comes. -/
def lateReplyRun : List Event :=
  [.packet 1 ⟨1, 4, 32, 0, 0⟩ (clock 0), .deliver 2 1 0 (clock 0), .deliver 3 2 0 (clock 0),
    .deliver 4 3 0 (clock 0), .deliver 3 4 0 (clock 0), .deliver 2 3 1 (clock 0),
    .deliver 1 2 1 (clock 0), .linkFailed 3 ⟨1, 4, 30, 2, 0⟩ 4 (clock 1),
    .deliver 2 3 2 (clock 1), .repairTimeout 3 0, .deliver 3 2 2 (clock 4)]

theorem loopFree_of_regular_before_late_reply :
    LoopFree start ∧ AfterEach Network.step LoopFree start (lateReplyRun.take 9) :=
  loopFree_of_regular (lateReplyRun.take 9) (by decide +kernel)

/-- What a node has for `d` when its route is up: the next hop and the hop count. -/
def route (s : Network) (n d : Addr) : Option (Addr × ℕ) :=
  ((s n).rtable.rtLookup d).bind fun rt =>
    if rt.rtFlags = .up then some (rt.rtNexthop, rt.rtHops) else none

theorem nextHop_of_route {d y x hops : ℕ} (h : s.route y d = some (x, hops)) :
    s.NextHop d y x := by
  obtain ⟨rt, hl, hrt⟩ := Option.bind_eq_some_iff.mp h
  split at hrt
  · next hup => exact ⟨rt, hl, hup, congrArg Prod.fst (Option.some.inj hrt)⟩
  · cases hrt

/-- Nodes 2 and 3 are each other's next hops for node 4. -/
theorem circle_after_late_reply :
    ¬∀ evs : List Event, AfterEach Network.step LoopFree start evs := by
  intro hall
  have hroutes : (runAll Network.step start lateReplyRun).map
      (fun s => (s.route 2 4, s.route 3 4)) = .ok (some (3, 2), some (2, 3)) := by
    decide +kernel
  cases hs : runAll Network.step start lateReplyRun with
  | error f =>
      rw [hs] at hroutes
      cases hroutes
  | ok s =>
      rw [hs] at hroutes
      obtain ⟨h2, h3⟩ := Prod.mk.inj (Except.ok.inj hroutes)
      have hhop2 := nextHop_of_route h2
      have hhop3 := nextHop_of_route h3
      have hfree := (hall lateReplyRun).of_runAll (List.cons_ne_nil _ _) hs
      exact hfree 4 2 (.tail (.single ⟨by decide, hhop2⟩) ⟨by decide, hhop3⟩)

end Network

end ComputerNetworking.Aodv
