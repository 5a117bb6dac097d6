import ComputerNetworking.Aodv.Messages

/-!
# What the assertions of an AODV agent rely on

A route in use and a route with a hop count have an even sequence number, and a route that is
down has no hop count (`RtEntry.Counted`); requests and replies carry even numbers and route
errors have room for what they list (`Checked`). No handler ends without this, whatever its
packet or message. A route that is under repair keeps its hop count all the same, and a route
in use may have been learnt over as many hops as stand for none.
-/

set_option autoImplicit false

namespace ComputerNetworking.Aodv

open ComputerNetworking.Foundations RoutingTable

/-- What the flags and the hop count of an entry say about its number. -/
structure RtEntry.Counted (rt : RtEntry) : Prop where
  even : rt.rtFlags = .up ∨ rt.rtHops ≠ INFINITY2 → rt.rtSeqno % 2 = 0
  hops_of_down : rt.rtFlags = .down → rt.rtHops = INFINITY2

/-- What an entry says about its route. -/
structure Route where
  rtFlags : RtFlags
  rtSeqno : ℕ
  rtHops : ℕ
  rtNexthop : Addr

def RtEntry.route (rt : RtEntry) : Route :=
  ⟨rt.rtFlags, rt.rtSeqno, rt.rtHops, rt.rtNexthop⟩

/-- The message carries a number that a route may have, or fits into its packet. -/
def Message.Fit : Message → Prop
  | .request rq => rq.rqSrcSeqno % 2 = 0
  | .reply rp => rp.rpDstSeqno % 2 = 0
  | .error re => re.unreachable.length ≤ AODV_MAX_ERRORS

theorem Message.fit_request {rq : Request} (h : rq.rqSrcSeqno % 2 = 0) :
    (Message.request rq).Fit := h

theorem Message.fit_reply {rp : Reply} (h : rp.rpDstSeqno % 2 = 0) : (Message.reply rp).Fit := h

theorem RtEntry.counted_down {rt : RtEntry} (hc : rt.Counted ∨ rt.rtFlags ≠ .down) :
    rt.down.Counted := by
  rw [RtEntry.down]
  split
  · next hdown => exact hc.resolve_right (not_not_intro hdown)
  · refine ⟨?_, fun _ => rfl⟩
    rintro (hup | hhops)
    · cases hup
    · exact absurd rfl hhops

namespace AODV

/-- What holds of an agent between two events. -/
structure Checked (a : AODV) : Prop where
  nodup : (a.rtable.map (·.rtDst)).Nodup
  entries : ∀ d rt, a.rtable.rtLookup d = some rt → rt.Counted
  seqno_even : a.seqno % 2 = 0
  sent : ∀ m ∈ a.sent, m.Fit

/-- What the table says about the route to `d`. -/
def route (a : AODV) (d : Addr) : Option Route := (a.rtable.rtLookup d).map (·.route)

/-- The call returns, and the agent is checked then. -/
def Lands (r : Except Failure AODV) : Prop := ∃ a', r = .ok a' ∧ Checked a'

/-- The call returns with the routes that the agent had. -/
def Keeps (a : AODV) (r : Except Failure AODV) : Prop :=
  ∃ a', r = .ok a' ∧ Checked a' ∧ a'.index = a.index ∧ ∀ d, a'.route d = a.route d

/-- If the call does not return, then for an assertion. -/
def Safe (r : Except Failure AODV) : Prop := Lands r ∨ r = .error .assertion

variable {a a' : AODV} {d dst : Addr} {rt : RtEntry} {f : RtEntry → RtEntry} {env : Env}
  {p : Packet} {m : Message} {rq : Request} {r : Except Failure AODV}

theorem Keeps.lands (h : Keeps a r) : Lands r := by
  obtain ⟨a', hr, ha', -⟩ := h
  exact ⟨a', hr, ha'⟩

theorem Keeps.safe (h : Keeps a r) : Safe r := Or.inl h.lands

theorem Checked.keeps_refl (h : Checked a) : Keeps a (.ok a) := ⟨a, rfl, h, rfl, fun _ => rfl⟩

theorem Keeps.trans (h : Keeps a (.ok a')) (h' : Keeps a' r) : Keeps a r := by
  obtain ⟨b, hb, -, hindex, hroute⟩ := h
  obtain ⟨c, hc, hchecked, hindex', hroute'⟩ := h'
  cases hb
  exact ⟨c, hc, hchecked, hindex'.trans hindex, fun d => (hroute' d).trans (hroute d)⟩

theorem Keeps.checked (h : Keeps a (.ok a')) : Checked a' := by
  obtain ⟨b, hb, hchecked, -⟩ := h
  cases hb
  exact hchecked

/-! ## Single writes -/

theorem map_rtDst_modify (hf : ∀ rt, (f rt).rtDst = rt.rtDst) (t : RoutingTable) (id : Addr) :
    (t.modify id f).map (·.rtDst) = t.map (·.rtDst) := by
  rw [RoutingTable.modify, List.map_map]
  apply List.map_congr_left
  intro rt _
  show (if rt.rtDst = id then f rt else rt).rtDst = rt.rtDst
  split
  · exact hf rt
  · rfl

/-- A change that leaves the table and the messages alone. -/
theorem Checked.aside (h : Checked a) (hseqno : a'.seqno % 2 = 0) (hindex : a'.index = a.index)
    (htable : a'.rtable = a.rtable) (hsent : a'.sent = a.sent) : Keeps a (.ok a') := by
  refine ⟨a', rfl, ⟨?_, ?_, hseqno, ?_⟩, hindex, ?_⟩
  · rw [htable]
    exact h.nodup
  · rw [htable]
    exact h.entries
  · rw [hsent]
    exact h.sent
  · intro d
    rw [route, htable, route]

theorem Checked.send (h : Checked a) (hm : m.Fit) : Keeps a (.ok (a.send m)) := by
  refine ⟨_, rfl, ⟨h.nodup, h.entries, h.seqno_even, ?_⟩, rfl, fun _ => rfl⟩
  intro m' hm'
  rcases List.mem_append.mp hm' with hold | hnew
  · exact h.sent m' hold
  · rw [List.mem_singleton.mp hnew]
    exact hm

theorem route_modify (hf : ∀ rt, (f rt).rtDst = rt.rtDst) (a : AODV) (dst d : Addr) :
    (a.modify dst f).route d =
      if d = dst then (a.rtable.rtLookup d).map fun rt => (f rt).route else a.route d := by
  have hlookup : (a.modify dst f).rtable.rtLookup d =
      if d = dst then (a.rtable.rtLookup d).map f else a.rtable.rtLookup d :=
    rtLookup_modify hf a.rtable dst d
  rw [route, hlookup]
  split
  · rw [Option.map_map]
    rfl
  · rfl

theorem Plain.route_eq (hf : Plain f) (rt : RtEntry) : (f rt).route = rt.route := by
  rw [RtEntry.route, hf.flags_eq, hf.seqno_eq, hf.hops_eq, hf.nexthop_eq, RtEntry.route]

/-- A write to the entry of `dst`. -/
theorem Checked.modify (h : Checked a) (hf : ∀ rt, (f rt).rtDst = rt.rtDst)
    (hw : ∀ rt, a.rtable.rtLookup dst = some rt → (f rt).Counted) : Checked (a.modify dst f) := by
  refine ⟨?_, ?_, h.seqno_even, h.sent⟩
  · show ((a.rtable.modify dst f).map (·.rtDst)).Nodup
    rw [map_rtDst_modify hf]
    exact h.nodup
  · intro d rt hl
    replace hl := (rtLookup_modify hf a.rtable dst d).symm.trans hl
    split at hl
    · next hd =>
        subst hd
        obtain ⟨old, hold, rfl⟩ := Option.map_eq_some_iff.mp hl
        exact hw old hold
    · exact h.entries d rt hl

/-- A write to fields that say nothing about the route. -/
theorem Checked.plain (h : Checked a) (hf : Plain f) (dst : Addr) :
    Keeps a (.ok (a.modify dst f)) := by
  refine ⟨_, rfl, h.modify hf.dst_eq fun rt hl => ?_, rfl, ?_⟩
  · obtain ⟨heven, hdown⟩ := h.entries dst rt hl
    constructor
    · rwa [hf.flags_eq, hf.hops_eq, hf.seqno_eq]
    · rwa [hf.flags_eq, hf.hops_eq]
  · intro d
    rw [route_modify hf.dst_eq]
    split
    · simp only [hf.route_eq]
      rfl
    · rfl

/-- A new entry has no route. -/
theorem Checked.lookupOrAdd (h : Checked a) (dst : Addr) : Checked (a.lookupOrAdd dst) := by
  rw [AODV.lookupOrAdd]
  split
  · exact h
  · next hno =>
      have hnone : a.rtable.rtLookup dst = none := Option.not_isSome_iff_eq_none.mp hno
      refine ⟨?_, ?_, h.seqno_even, h.sent⟩
      · refine List.nodup_cons.mpr ⟨fun hmem => ?_, h.nodup⟩
        obtain ⟨rt, hrt, heq⟩ := List.mem_map.mp hmem
        have hne := List.find?_eq_none.mp hnone rt hrt
        exact hne (decide_eq_true heq)
      · intro d rt hl
        replace hl := (rtLookup_rtAdd a.rtable dst d).symm.trans hl
        split at hl
        · cases hl
          refine ⟨?_, fun _ => rfl⟩
          rintro (hup | hhops)
          · cases hup
          · exact absurd rfl hhops
        · exact h.entries d rt hl

/-! ## Sending -/

/-- A packet is sent along a route in use. -/
theorem Checked.forward (h : Checked a) (hl : a.rtable.rtLookup dst = some rt)
    (hup : rt.rtFlags = .up) (p : Packet) (env : Env) : Keeps a (a.forward dst p env) := by
  rw [AODV.forward, hl]
  dsimp only
  rw [if_pos hup]
  split
  · exact h.keeps_refl
  · split
    · exact h.keeps_refl
    · apply h.plain
      constructor <;> exact fun _ => rfl

theorem Checked.safe_forward (h : Checked a) (dst : Addr) (p : Packet) (env : Env) :
    Safe (a.forward dst p env) := by
  cases hl : a.rtable.rtLookup dst with
  | none =>
      rw [AODV.forward, hl]
      split
      · exact h.keeps_refl.safe
      · split
        · exact h.keeps_refl.safe
        · exact Or.inr rfl
  | some rt =>
      by_cases hup : rt.rtFlags = .up
      · exact (h.forward hl hup p env).safe
      · rw [AODV.forward, hl]
        dsimp only
        rw [if_neg hup]
        split
        · exact h.keeps_refl.safe
        · split
          · exact h.keeps_refl.safe
          · exact Or.inr rfl

theorem Checked.enque (h : Checked a) (p : Packet) (env : Env) : Keeps a (.ok (a.enque p env)) :=
  h.aside h.seqno_even rfl rfl rfl

/-- The packets that waited for `dst` leave the queue. -/
theorem Checked.dequeue (h : Checked a) (dst : Addr) (env : Env) :
    Keeps a (.ok { a with rqueue := Rqueue.left dst env.now a.rqueue }) :=
  h.aside h.seqno_even rfl rfl rfl

/-- A request for a route that is not in use, or has a hop count. -/
theorem Checked.sendRequest (h : Checked a) (hl : a.rtable.rtLookup dst = some rt)
    (hhops : rt.rtFlags = .up → rt.rtHops ≠ INFINITY2) (env : Env) :
    Keeps a (a.sendRequest dst env) := by
  rw [AODV.sendRequest, hl]
  dsimp only
  split
  · next hup =>
      rw [if_pos (hhops hup)]
      exact h.keeps_refl
  · split
    · exact h.keeps_refl
    · split
      · have hplain : Keeps a (.ok (a.modify dst fun rt =>
            { rt with rtReqTimeout := env.now + MAX_RREQ_TIMEOUT, rtReqCnt := 0 })) := by
          apply h.plain
          constructor <;> exact fun _ => rfl
        exact hplain.trans (hplain.checked.aside h.seqno_even rfl rfl rfl)
      · have hplain : Keeps a (.ok (a.modify dst fun rt => searched rt env)) := by
          apply h.plain
          constructor <;> exact fun _ => rfl
        have heven : ((a.modify dst fun rt => searched rt env).seqno + 2) % 2 = 0 := by
          rw [Nat.add_mod_right]
          exact h.seqno_even
        rw [broadcastRequest, if_pos heven]
        apply hplain.trans
        have hnext : Keeps (a.modify dst fun rt => searched rt env)
            (.ok { a.modify dst fun rt => searched rt env with
              seqno := a.seqno + 2, bid := a.bid + 1 }) :=
          hplain.checked.aside heven rfl rfl rfl
        apply hnext.trans
        exact hnext.checked.send heven

theorem Checked.safe_sendRequest (h : Checked a) (dst : Addr) (env : Env) :
    Safe (a.sendRequest dst env) := by
  cases hl : a.rtable.rtLookup dst with
  | none =>
      rw [AODV.sendRequest, hl]
      exact Or.inr rfl
  | some rt =>
      by_cases hhops : rt.rtFlags = .up → rt.rtHops ≠ INFINITY2
      · exact (h.sendRequest hl hhops env).safe
      · obtain ⟨hup, hinf⟩ := Classical.not_imp.mp hhops
        rw [AODV.sendRequest, hl]
        dsimp only
        rw [if_pos hup, if_neg hinf]
        exact Or.inr rfl

theorem Checked.safe_sendReply (h : Checked a) {ipdst hopCount rpdst rpseq : ℕ} {lifetime : ℚ}
    (heven : rpseq % 2 = 0) : Safe (a.sendReply ipdst hopCount rpdst rpseq lifetime) := by
  rw [AODV.sendReply]
  split
  · exact Or.inr rfl
  · exact (h.send (Message.fit_reply heven)).safe

theorem Checked.sendError (h : Checked a) {unreachable : List (Addr × ℕ)}
    (hlen : unreachable.length ≤ AODV_MAX_ERRORS) : Keeps a (a.sendError unreachable) := by
  rw [AODV.sendError, if_neg (not_lt.mpr hlen)]
  exact h.send hlen

/-! ## Data packets -/

theorem Checked.safe_rtResolve (h : Checked a) (p : Packet) (env : Env) :
    Safe (a.rtResolve p env) := by
  rw [AODV.rtResolve]
  have hadd := h.lookupOrAdd p.daddr
  split
  · split
    · exact hadd.safe_forward p.daddr p env
    · exact Or.inr rfl
  · split
    · exact (hadd.enque p env).checked.safe_sendRequest p.daddr env
    · split
      · exact (hadd.enque p env).safe
      · have hone : [(p.daddr, (a.rtEntry p.daddr).rtSeqno)].length ≤ AODV_MAX_ERRORS :=
          Nat.succ_le_succ (Nat.zero_le 99)
        exact (hadd.sendError hone).safe

theorem Checked.safe_recv (h : Checked a) (p : Packet) (env : Env) : Safe (a.recv p env) := by
  rw [AODV.recv]
  repeat' split
  · exact h.keeps_refl.safe
  · exact h.safe_rtResolve _ env
  · exact h.keeps_refl.safe
  · exact h.keeps_refl.safe
  · exact h.keeps_refl.safe
  · exact h.safe_rtResolve _ env

/-- The route keeps its hop count, but is not in use. -/
theorem Checked.localRtRepair (h : Checked a) (hl : a.rtable.rtLookup p.daddr = some rt)
    (env : Env) : Lands (a.localRtRepair p env) := by
  rw [AODV.localRtRepair]
  have hmark : Checked ((a.enque p env).modify p.daddr fun rt =>
      { rt with rtFlags := .inRepair }) := by
    apply (h.enque p env).checked.modify
    · exact fun _ => rfl
    · intro rt hl
      constructor
      · rintro (hup | hhops)
        · cases hup
        · exact (h.entries _ _ hl).even (Or.inr hhops)
      · rintro ⟨⟩
  have hself : ((a.enque p env).modify p.daddr fun rt =>
      { rt with rtFlags := .inRepair }).rtable.rtLookup p.daddr =
        some { rt with rtFlags := .inRepair } :=
    rtLookup_modify_self (fun _ => rfl) hl
  obtain ⟨a', hs, ha', -⟩ := hmark.sendRequest hself (fun hup => by cases hup) env
  have htimer : Keeps a' (.ok { a' with repairs := a'.repairs ++ [p.daddr] }) :=
    ha'.aside ha'.seqno_even rfl rfl rfl
  rw [hs]
  exact htimer.lands

/-! ## Timers -/

theorem Checked.idPurge (h : Checked a) (env : Env) : Keeps a (.ok (a.idPurge env)) :=
  h.aside h.seqno_even rfl rfl rfl

theorem Checked.repairTimeout (h : Checked a) (k : ℕ) : Checked (a.repairTimeout k) := by
  rw [AODV.repairTimeout]
  split
  · exact h
  · next dst _ =>
      have hdone : Keeps a (.ok { a with repairs := a.repairs.eraseIdx k }) :=
        h.aside h.seqno_even rfl rfl rfl
      apply hdone.checked.modify
      · intro rt
        split
        · exact down_rtDst rt
        · rfl
      · intro rt hl
        split
        · exact RtEntry.counted_down (Or.inl (h.entries _ _ hl))
        · exact h.entries _ _ hl

/-! ## Route requests -/

/-- A loop whose turns are safe. -/
theorem Checked.safe_runAll (h : Checked a) {I : Type} {step : AODV → I → Except Failure AODV}
    (hstep : ∀ a i, Checked a → Safe (step a i)) (is : List I) : Safe (runAll step a is) := by
  induction is generalizing a with
  | nil => exact h.keeps_refl.safe
  | cons i is ih =>
      rcases hstep a i h with ⟨a', hs, ha'⟩ | herror
      · rw [runAll_cons_ok hs]
        exact ih ha'
      · rw [runAll_cons_error herror]
        exact Or.inr rfl

theorem Checked.safe_forwardBack (h : Checked a) (dst : Addr) (p : Packet) (env : Env) :
    Safe (a.forwardBack dst p env) := by
  rw [AODV.forwardBack]
  repeat' split
  · exact h.keeps_refl.safe
  · exact h.safe_forward dst p env
  · exact Or.inr rfl
  · exact h.keeps_refl.safe

theorem Checked.safe_reverseRoute (h : Checked a) (heven : rq.rqSrcSeqno % 2 = 0) (env : Env) :
    Safe (a.reverseRoute rq env) := by
  rw [AODV.reverseRoute]
  have hplain : Plain fun rt0 : RtEntry =>
      { rt0 with rtExpire := max rt0.rtExpire (env.now + REV_ROUTE_LIFE) } := by
    constructor <;> exact fun _ => rfl
  have hkept := ((h.lookupOrAdd rq.rqSrc).plain hplain rq.rqSrc).checked
  generalize (a.lookupOrAdd rq.rqSrc).modify rq.rqSrc _ = a₁ at hkept
  dsimp only
  split
  · have hreset : Plain fun rt0 : RtEntry =>
        if rt0.rtReqTimeout > 0 then
          { rt0 with rtReqCnt := 0, rtReqTimeout := 0, rtReqLastTtl := rq.rqHopCount,
                     rtExpire := env.now + ACTIVE_ROUTE_TIMEOUT }
        else rt0 := by
      constructor
      all_goals
        intro rt0
        split <;> rfl
    have hupdate : Checked (a₁.modify rq.rqSrc fun rt0 =>
        rt0.update rq.rqSrcSeqno rq.rqHopCount rq.saddr
          (max rt0.rtExpire (env.now + REV_ROUTE_LIFE))) := by
      apply hkept.modify
      · exact fun _ => rfl
      · exact fun rt _ => ⟨fun _ => heven, fun hdown => by cases hdown⟩
    generalize a₁.modify rq.rqSrc _ = a₂ at hupdate
    have hsoft := (hupdate.plain hreset rq.rqSrc).checked
    generalize a₂.modify rq.rqSrc _ = a₃ at hsoft
    have hqueue := hsoft.dequeue rq.rqSrc env
    apply hqueue.checked.safe_runAll
    exact fun b p hb => hb.safe_forwardBack rq.rqSrc p env
  · exact hkept.keeps_refl.safe

theorem Checked.safe_answerRequest (h : Checked a) (heven : rq.rqSrcSeqno % 2 = 0) (env : Env) :
    Safe (a.answerRequest rq env) := by
  have hforward : ∀ n, Safe (.ok (a.forwardRequest rq n)) := by
    intro n
    rw [AODV.forwardRequest]
    split
    · exact h.keeps_refl.safe
    · apply (h.send (Message.fit_request _)).safe
      exact heven
  rw [AODV.answerRequest]
  split
  · -- the number is raised to an even one
    generalize max a.seqno rq.rqDstSeqno + 1 = n
    have hraised : (if n % 2 = 1 then n + 1 else n) % 2 = 0 := by
      split <;> omega
    have hseqno : Keeps a (.ok { a with seqno := if n % 2 = 1 then n + 1 else n }) :=
      h.aside hraised rfl rfl rfl
    exact hseqno.checked.safe_sendReply hraised
  · split
    · exact hforward _
    · next rt hl =>
        split
        · next hknown =>
            have hreply : Safe (a.sendReply rq.rqSrc (rt.rtHops + 1) rq.rqDst rt.rtSeqno
                (toUInt32 (rt.rtExpire - env.now))) :=
              h.safe_sendReply ((h.entries _ _ hl).even (Or.inr hknown.1))
            rcases hreply with ⟨a', hs, ha'⟩ | herror
            · dsimp only
              rw [hs]
              have hfwd := ha'.plain (Plain.pcInsert (a.rtEntry rq.rqSrc).rtNexthop) rq.rqDst
              exact (hfwd.checked.plain (Plain.pcInsert rt.rtNexthop) rq.rqSrc).safe
            · dsimp only
              rw [herror]
              exact Or.inr rfl
        · exact hforward _

theorem Checked.safe_recvRequest (h : Checked a) (heven : rq.rqSrcSeqno % 2 = 0) (env : Env) :
    Safe (a.recvRequest rq env) := by
  rw [AODV.recvRequest]
  split
  · exact h.keeps_refl.safe
  · split
    · exact h.keeps_refl.safe
    · have hseen : Keeps a (.ok { a with
          bihead := ⟨rq.rqSrc, rq.rqBcastId, env.now + BCAST_ID_SAVE⟩ :: a.bihead }) :=
        h.aside h.seqno_even rfl rfl rfl
      rcases hseen.checked.safe_reverseRoute heven env with ⟨a', hs, ha'⟩ | herror
      · dsimp only
        rw [hs]
        exact ha'.safe_answerRequest heven env
      · dsimp only
        rw [herror]
        exact Or.inr rfl

end AODV

end ComputerNetworking.Aodv
