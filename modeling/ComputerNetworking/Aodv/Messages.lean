import ComputerNetworking.Aodv.Freshness

/-!
# The handling of the messages

A route request offers the reverse route, a route reply the route itself. Either one is
adopted when its rank is better than what the agent has, and then or otherwise the agent
has at least as good a rank as the message, so it may hand the message on with one hop
more (`Tidy.recvRequest`, `Tidy.recvReply`). A route error names numbers that are not
live, so the routes it ends get larger ones (`Tidy.recvError`).
-/

set_option autoImplicit false

namespace ComputerNetworking.Aodv

open ComputerNetworking.Foundations RoutingTable

namespace AODV

variable {A : Addr → Addr → Freshness → Prop} {a a' : AODV} {d dst : Addr}
  {rt : RtEntry} {env : Env} {p : Packet} {rq : Request} {rp : Reply} {re : RouteError}

/-! ## Adopting a route -/

/-- A route that is not fresher than the entry is not better. -/
theorem rank_le_of_not_fresher (hl : a.rtable.rtLookup d = some rt) {seqno hops : ℕ}
    (h : ¬Fresher rt seqno hops) : a.rank d ≤ fresh seqno hops := by
  rw [rank_of_rtLookup hl, fresh_le_iff]
  rw [Fresher] at h
  omega

/-- A route that is offered one hop nearer may be taken when it is fresher. -/
theorem writable_update (hl : a.rtable.rtLookup d = some rt) {seqno hops : ℕ} {x : Addr}
    {expire : ℚ} (hfresher : Fresher rt seqno hops) (hlive : Live seqno) (hpos : 1 ≤ hops)
    (hle : hops ≤ INFINITY2) (hoffer : A d x (fresh seqno (hops - 1))) :
    Writable A a d (rt.update seqno hops x expire) := by
  refine ⟨⟨?_, fun _ => hlive, fun _ => hlive, hle⟩, ?_, fun _ => Or.inr ⟨_, hoffer, ?_⟩⟩
  · rintro ⟨⟩
  · rw [rank_of_rtLookup hl]
    show fresh seqno hops ≤ _
    rw [fresh_le_iff]
    rw [Fresher] at hfresher
    omega
  · show fresh seqno (hops - 1) < fresh seqno hops
    rw [fresh_lt_iff]
    omega

theorem rtLookup_modify_self {f : RtEntry → RtEntry} (hf : ∀ rt, (f rt).rtDst = rt.rtDst)
    (hl : a.rtable.rtLookup d = some rt) : (a.modify d f).rtable.rtLookup d = some (f rt) := by
  have h := rtLookup_modify hf a.rtable d d
  rwa [if_pos rfl, hl] at h

/-- A write of a new route, and the rank that it gives. -/
theorem Tidy.adopt (h : Tidy a) (hl : a.rtable.rtLookup d = some rt) {f : RtEntry → RtEntry}
    (hf : ∀ rt, (f rt).rtDst = rt.rtDst) (hw : Writable A a d (f rt)) :
    Follows A a (a.modify d f) ∧ (a.modify d f).rank d = fresh (f rt).rtSeqno (f rt).rtHops := by
  refine ⟨h.modify hf ?_, rank_of_rtLookup (rtLookup_modify_self hf hl)⟩
  intro rt' hl'
  obtain rfl := Option.some.inj (hl.symm.trans hl')
  exact hw

/-! ## Route requests -/

theorem Tidy.forwardBack (h : Tidy a) (hs : a.forwardBack dst p env = .ok a') :
    Follows A a a' := by
  rw [AODV.forwardBack] at hs
  repeat' split at hs
  · cases hs
    exact h.follows_refl
  · exact h.forward hs
  · cases hs
  · cases hs
    exact h.follows_refl

/-- With the reverse route the agent has at least what the request offers. -/
theorem Tidy.reverseRoute (h : Tidy a) (hlive : Live rq.rqSrcSeqno) (hpos : 1 ≤ rq.rqHopCount)
    (hle : rq.rqHopCount ≤ INFINITY2)
    (hoffer : A rq.rqSrc rq.saddr (fresh rq.rqSrcSeqno (rq.rqHopCount - 1)))
    (hs : a.reverseRoute rq env = .ok a') :
    Follows A a a' ∧ a'.rank rq.rqSrc ≤ fresh rq.rqSrcSeqno rq.rqHopCount := by
  rw [AODV.reverseRoute] at hs
  have hadd : Follows A a (a.lookupOrAdd rq.rqSrc) := h.lookupOrAdd rq.rqSrc
  have hplain : Plain fun rt0 : RtEntry =>
      { rt0 with rtExpire := max rt0.rtExpire (env.now + REV_ROUTE_LIFE) } := by
    constructor <;> exact fun _ => rfl
  have hkept := hadd.trans (hadd.tidy.plain (A := A) hplain rq.rqSrc)
  have hl := rtLookup_modify_self hplain.dst_eq (rtLookup_lookupOrAdd a rq.rqSrc)
  generalize (a.lookupOrAdd rq.rqSrc).modify rq.rqSrc _ = a₁ at hs hkept hl
  split at hs
  · next hfresher =>
      have hreset : Plain fun rt0 : RtEntry =>
          if rt0.rtReqTimeout > 0 then
            { rt0 with rtReqCnt := 0, rtReqTimeout := 0, rtReqLastTtl := rq.rqHopCount,
                       rtExpire := env.now + ACTIVE_ROUTE_TIMEOUT }
          else rt0 := by
        constructor
        all_goals
          intro rt0
          split <;> rfl
      obtain ⟨hupdate, hrank⟩ := hkept.tidy.adopt hl
        (f := fun rt0 => rt0.update rq.rqSrcSeqno rq.rqHopCount rq.saddr
          (max rt0.rtExpire (env.now + REV_ROUTE_LIFE)))
        (fun _ => rfl) (writable_update hl hfresher hlive hpos hle hoffer)
      dsimp only at hs
      generalize a₁.modify rq.rqSrc _ = a₂ at hs hupdate hrank
      have hsoft := hupdate.tidy.plain (A := A) hreset rq.rqSrc
      generalize a₂.modify rq.rqSrc _ = a₃ at hs hsoft
      have hloop := hsoft.tidy.dequeAll (A := A) (fun b p b' hb hturn => hb.forwardBack hturn) hs
      have hlater := hsoft.trans hloop
      exact ⟨(hkept.trans hupdate).trans hlater, (hlater.rank_le rq.rqSrc).trans hrank.le⟩
  · next hfresher =>
      cases hs
      exact ⟨hkept, rank_le_of_not_fresher hl hfresher⟩

theorem Tidy.forwardRequest (h : Tidy a) (hlive : Live rq.rqSrcSeqno) (hpos : 1 ≤ rq.rqHopCount)
    (httl : 0 ≤ rq.ttl) (hle : rq.rqHopCount + rq.ttl ≤ 30)
    (hrank : a.rank rq.rqSrc ≤ fresh rq.rqSrcSeqno rq.rqHopCount) (dstSeqno : ℕ) :
    Follows A a (a.forwardRequest rq dstSeqno) := by
  rw [AODV.forwardRequest]
  split
  · exact h.follows_refl
  · next hne =>
      apply h.send
      -- the TTL keeps the hop count small
      have hmod : (rq.rqHopCount + 1) % 256 = rq.rqHopCount + 1 := by omega
      show Live rq.rqSrcSeqno ∧ 1 ≤ (rq.rqHopCount + 1) % 256 ∧ 0 < rq.ttl ∧
        ((rq.rqHopCount + 1) % 256 : ℕ) + rq.ttl ≤ 31 ∧
        a.Offers rq.rqSrc a.index (fresh rq.rqSrcSeqno ((rq.rqHopCount + 1) % 256 - 1))
      rw [hmod]
      exact ⟨hlive, by omega, by omega, by omega, rfl, Or.inr hrank⟩

theorem Tidy.answerRequest (h : Tidy a) (hlive : Live rq.rqSrcSeqno) (hpos : 1 ≤ rq.rqHopCount)
    (httl : 0 ≤ rq.ttl) (hle : rq.rqHopCount + rq.ttl ≤ 30)
    (hrank : a.rank rq.rqSrc ≤ fresh rq.rqSrcSeqno rq.rqHopCount)
    (hs : a.answerRequest rq env = .ok a') : Follows A a a' := by
  rw [AODV.answerRequest] at hs
  split at hs
  · -- the destination raises its number first
    have hseqno : ∀ n : ℕ, Live (if (n + 1) % 2 = 1 then n + 1 + 1 else n + 1) := by
      intro n
      split
      · exact ⟨Nat.succ_pos _, by omega⟩
      · exact ⟨Nat.succ_pos _, by omega⟩
    have hraised : Follows A a { a with
        seqno := if (max a.seqno rq.rqDstSeqno + 1) % 2 = 1 then max a.seqno rq.rqDstSeqno + 1 + 1
          else max a.seqno rq.rqDstSeqno + 1 } :=
      h.aside rfl (hseqno _) rfl rfl
    apply hraised.trans
    exact hraised.tidy.sendReply (hseqno _) (le_refl 1) (by decide) (Or.inl rfl) hs
  · split at hs
    · cases hs
      exact h.forwardRequest hlive hpos httl hle hrank _
    · next rt hl =>
        have hrt := h.entries _ _ hl
        split at hs
        · next hknown =>
            dsimp only at hs
            split at hs
            · cases hs
            · next a₁ hreply =>
                cases hs
                have hbound : rt.rtHops + 1 ≤ INFINITY2 :=
                  lt_of_le_of_ne hrt.hops_le hknown.1
                have hoffer : a.rank rq.rqDst ≤ fresh rt.rtSeqno (rt.rtHops + 1 - 1) :=
                  (rank_of_rtLookup hl).le
                have hsent := h.sendReply (A := A) (hrt.live_of_hops hknown.1)
                  (Nat.le_add_left 1 _) hbound (Or.inr hoffer) hreply
                have hfwd := hsent.tidy.plain (A := A)
                  (Plain.pcInsert (a.rtEntry rq.rqSrc).rtNexthop) rq.rqDst
                have hback := hfwd.tidy.plain (A := A) (Plain.pcInsert rt.rtNexthop) rq.rqSrc
                exact (hsent.trans hfwd).trans hback
        · cases hs
          exact h.forwardRequest hlive hpos httl hle hrank _

theorem Tidy.recvRequest (h : Tidy a) (hlive : Live rq.rqSrcSeqno) (hpos : 1 ≤ rq.rqHopCount)
    (httl : 0 ≤ rq.ttl) (hle : rq.rqHopCount + rq.ttl ≤ 30)
    (hoffer : A rq.rqSrc rq.saddr (fresh rq.rqSrcSeqno (rq.rqHopCount - 1)))
    (hs : a.recvRequest rq env = .ok a') : Follows A a a' := by
  rw [AODV.recvRequest] at hs
  split at hs
  · cases hs
    exact h.follows_refl
  · split at hs
    · cases hs
      exact h.follows_refl
    · dsimp only at hs
      split at hs
      · cases hs
      · next a₁ hreverse =>
          have hseen : Follows A a { a with
              bihead := ⟨rq.rqSrc, rq.rqBcastId, env.now + BCAST_ID_SAVE⟩ :: a.bihead } :=
            h.aside rfl h.seqno_live rfl rfl
          have hinf : INFINITY2 = 255 := rfl
          obtain ⟨hroute, hrank⟩ := hseen.tidy.reverseRoute hlive hpos (by omega) hoffer hreverse
          exact (hseen.trans hroute).trans
            (hroute.tidy.answerRequest hlive hpos httl hle hrank hs)

/-! ## Route replies -/

/-- The hop count of the entry for `d`. -/
def knownHops (a : AODV) (d : Addr) : Option ℕ := (a.rtable.rtLookup d).map (·.rtHops)

theorem Plain.knownHops_modify {f : RtEntry → RtEntry} (hf : Plain f) (a : AODV) (dst d : Addr) :
    (a.modify dst f).knownHops d = a.knownHops d := by
  have hlookup : (a.modify dst f).rtable.rtLookup d =
      if d = dst then (a.rtable.rtLookup d).map f else a.rtable.rtLookup d :=
    rtLookup_modify hf.dst_eq a.rtable dst d
  rw [knownHops, hlookup]
  split
  · rw [Option.map_map, knownHops]
    congr 1
    funext rt
    exact hf.hops_eq rt
  · rfl

theorem knownHops_forward (hs : a.forward dst p env = .ok a') (d : Addr) :
    a'.knownHops d = a.knownHops d := by
  rw [AODV.forward] at hs
  repeat' split at hs
  all_goals cases hs
  · rfl
  · rfl
  · apply Plain.knownHops_modify
    constructor <;> exact fun _ => rfl

theorem knownHops_forwardOn (hs : a.forwardOn dst p env = .ok a') (d : Addr) :
    a'.knownHops d = a.knownHops d := by
  rw [AODV.forwardOn] at hs
  repeat' split at hs
  · cases hs
    rfl
  · exact knownHops_forward hs d
  · cases hs
    rfl

theorem Tidy.forwardOn (h : Tidy a) (hs : a.forwardOn dst p env = .ok a') : Follows A a a' := by
  rw [AODV.forwardOn] at hs
  repeat' split at hs
  · cases hs
    exact h.follows_refl
  · exact h.forward hs
  · cases hs
    exact h.follows_refl

theorem Tidy.forwardReply (h : Tidy a) (hlive : Live rp.rpDstSeqno)
    (hle : rp.rpHopCount ≤ INFINITY2)
    (hrank : a.rank rp.rpDst ≤ fresh rp.rpDstSeqno rp.rpHopCount)
    (hwrap : rp.rpHopCount = INFINITY2 → rp.ttl ≠ 0 →
      ∀ hops, a.knownHops rp.daddr = some hops → hops = INFINITY2)
    (hs : a.forwardReply rp env = .ok a') : Follows A a a' := by
  rw [AODV.forwardReply] at hs
  cases hl : a.rtable.rtLookup rp.daddr with
  | none =>
      simp only [hl] at hs
      cases hs
      exact h.follows_refl
  | some rt0 =>
      simp only [hl] at hs
      by_cases hhops : rt0.rtHops = INFINITY2
      · rw [if_neg (not_not_intro hhops)] at hs
        cases hs
        exact h.follows_refl
      · rw [if_pos hhops] at hs
        split at hs
        · cases hs
          have hkept : Follows A a (a.modify rp.daddr fun rt0 =>
              { rt0 with rtExpire := env.now + ACTIVE_ROUTE_TIMEOUT }) := by
            apply h.plain
            constructor <;> exact fun _ => rfl
          have hsent : Follows A a (if rp.ttl = 0 then a else
              (a.modify rp.daddr fun rt0 =>
                { rt0 with rtExpire := env.now + ACTIVE_ROUTE_TIMEOUT }).send
                (.reply { rp with nextHop := rt0.rtNexthop, rpSrc := a.index,
                                  rpHopCount := (rp.rpHopCount + 1) % 256 })) := by
            split
            · exact h.follows_refl
            · next httl =>
                apply hkept.trans
                apply hkept.tidy.send
                have hlt : rp.rpHopCount < INFINITY2 := by
                  apply lt_of_le_of_ne hle
                  intro heq
                  apply hhops
                  apply hwrap heq httl
                  rw [knownHops, hl]
                  rfl
                have hmod : (rp.rpHopCount + 1) % 256 = rp.rpHopCount + 1 :=
                  Nat.mod_eq_of_lt (Nat.succ_lt_succ hlt)
                have hoffer := (hkept.rank_le rp.rpDst).trans hrank
                rw [hmod]
                exact ⟨hlive, Nat.le_add_left 1 _, hlt, rfl, Or.inr hoffer⟩
          exact hsent.trans (hsent.tidy.plain (Plain.pcInsert rt0.rtNexthop) rp.rpDst)
        · cases hs

theorem rtLookup_lookupOrAdd_of_ne (a : AODV) (h : d ≠ dst) :
    (a.lookupOrAdd dst).rtable.rtLookup d = a.rtable.rtLookup d := by
  rw [AODV.lookupOrAdd]
  split
  · rfl
  · exact (rtLookup_rtAdd a.rtable dst d).trans (if_neg h)

theorem writable_replied (hl : a.rtable.rtLookup rp.rpDst = some rt)
    (hfresher : Fresher rt rp.rpDstSeqno rp.rpHopCount) (hlive : Live rp.rpDstSeqno)
    (hpos : 1 ≤ rp.rpHopCount) (hle : rp.rpHopCount ≤ INFINITY2)
    (hoffer : A rp.rpDst rp.rpSrc (fresh rp.rpDstSeqno (rp.rpHopCount - 1))) :
    Writable A a rp.rpDst (replied rt rp env) := by
  have hsoft : Plain fun rt : RtEntry =>
      { rt with rtReqCnt := 0, rtReqTimeout := 0, rtReqLastTtl := rp.rpHopCount } := by
    constructor <;> exact fun _ => rfl
  exact (writable_update hl hfresher hlive hpos hle hoffer).plain hsoft

/-- A reply that does not wrap its hop count; `rp` is as it is behind the counted hop. -/
theorem Tidy.recvReply (h : Tidy a) (hlive : Live rp.rpDstSeqno) (hpos : 1 ≤ rp.rpHopCount)
    (hle : rp.rpHopCount ≤ INFINITY2)
    (hoffer : A rp.rpDst rp.rpSrc (fresh rp.rpDstSeqno (rp.rpHopCount - 1)))
    (hwrap : ¬a.HopsWrap { rp with ttl := rp.ttl + 1 })
    (hs : a.recvReply rp env = .ok a') : Follows A a a' := by
  rw [AODV.recvReply] at hs
  have hadd : Follows A a (a.lookupOrAdd rp.rpDst) := h.lookupOrAdd rp.rpDst
  have hl := rtLookup_lookupOrAdd a rp.rpDst
  dsimp only at hs
  split at hs
  · next hfresher =>
      have hdst : ∀ rt, (replied rt rp env).rtDst = rt.rtDst := fun _ => rfl
      obtain ⟨hadopt, hrank⟩ := hadd.tidy.adopt hl hdst
        (writable_replied hl hfresher hlive hpos hle hoffer)
      have hself := rtLookup_modify_self hdst hl
      have hother : ∀ d, d ≠ rp.rpDst →
          ((a.lookupOrAdd rp.rpDst).modify rp.rpDst fun rt => replied rt rp env).knownHops d =
            a.knownHops d := by
        intro d hd
        have hmodify := rtLookup_modify hdst (a.lookupOrAdd rp.rpDst).rtable rp.rpDst d
        rw [if_neg hd, rtLookup_lookupOrAdd_of_ne a hd] at hmodify
        exact congrArg (Option.map (·.rtHops)) hmodify
      generalize (a.lookupOrAdd rp.rpDst).modify rp.rpDst _ = a₁ at hs hadopt hrank hself hother
      split at hs
      · cases hs
      · next a₂ hloop =>
          have hrun := hadopt.tidy.dequeAll (A := A)
            (fun b p b' hb hturn => hb.forwardOn hturn) hloop
          have hfollows := (hadd.trans hadopt).trans hrun
          -- the packets that are sent on leave the hop counts as they are
          have hkept : ∀ d, a₂.knownHops d = a₁.knownHops d := by
            apply runAll_invariant (fun b => ∀ d, b.knownHops d = a₁.knownHops d) _ _ hloop
            · intro b p b' hb hturn d
              exact (knownHops_forwardOn hturn d).trans (hb d)
            · exact fun _ => rfl
          split at hs
          · cases hs
            exact hfollows
          · next hindex =>
              refine hfollows.trans (hrun.tidy.forwardReply hlive hle ?_ ?_ hs)
              · exact (hrun.rank_le rp.rpDst).trans hrank.le
              · intro hhops httl hops hknown
                by_contra hne
                have hdaddr : rp.daddr ≠ rp.rpDst := by
                  intro heq
                  rw [heq, hkept, knownHops, hself] at hknown
                  exact hne ((Option.some.inj hknown).symm.trans hhops)
                rw [hkept, hother _ hdaddr] at hknown
                obtain ⟨rt0, hl0, rfl⟩ := Option.map_eq_some_iff.mp hknown
                -- no hop count is above 255, so the number is the newer one
                have hnewer : (a.rtEntry rp.rpDst).rtSeqno < rp.rpDstSeqno := by
                  apply hfresher.resolve_right
                  rintro ⟨-, hlt⟩
                  rw [hhops] at hlt
                  exact hlt.not_ge (hadd.tidy.entries _ _ hl).hops_le
                rw [hfollows.index_eq] at hindex
                apply hwrap
                refine ⟨hhops, hnewer, hindex, hdaddr, ?_, rt0, hl0, hne⟩
                show rp.ttl + 1 ≠ 1
                omega
  · cases hs
    exact hadd

/-! ## Route errors -/

/-- A route ends with the number of the error, which is not live. -/
theorem Collects.loseRoute {s s' : AODV × List (Addr × ℕ)} {saddr : Addr} {lost : Addr × ℕ}
    (h : Collects A a s) (hdead : ¬Live lost.2) (hs : loseRoute saddr s lost = .ok s') :
    Collects A a s' := by
  rw [AODV.loseRoute] at hs
  split at hs
  · cases hs
    exact h
  · next rt hl =>
      split at hs
      · next hlost =>
          split at hs
          · next hup =>
              have hlt : rt.rtSeqno < lost.2 := by
                apply lt_of_le_of_ne hlost.2.2
                intro heq
                exact hdead (heq ▸ (h.follows.tidy.entries _ _ hl).live_of_up hup.1)
              have hdown : Follows A s.1 (s.1.modify lost.1 fun rt =>
                  { rt with rtSeqno := lost.2 }.down) := by
                apply h.follows.tidy.modify
                · exact fun rt => down_rtDst _
                · intro rt' hl'
                  obtain rfl := Option.some.inj (hl.symm.trans hl')
                  exact writable_down hl hup.1 hlt hdead
              dsimp only at hs
              split at hs
              · cases hs
                exact ⟨h.follows.trans hdown, h.dead⟩
              · cases hs
                have hplain : Plain fun rt : RtEntry => { rt with rtPclist := [] } := by
                  constructor <;> exact fun _ => rfl
                exact h.append (hdown.trans (hdown.tidy.plain hplain lost.1)) hdead
          · cases hs
      · cases hs
        exact h

theorem Tidy.recvError (h : Tidy a) (hdead : ∀ lost ∈ re.unreachable, ¬Live lost.2)
    (hs : a.recvError re = .ok a') : Follows A a a' := by
  rw [AODV.recvError] at hs
  split at hs
  · cases hs
  · next a₁ unreachable hloop =>
      have hcollects : Collects A a (a₁, unreachable) := by
        refine runAll_invariant_mem (Collects A a) ?_ h.collects_refl hloop
        intro s lost hlost s' hcollects hturn
        exact hcollects.loseRoute (hdead lost hlost) hturn
      exact hcollects.sendError hs

/-! ## Any message -/

theorem Tidy.recvAODV (h : Tidy a) {m : Message} (hm : m.Trusted A)
    (hwrap : ∀ rp, m = .reply rp → ¬a.HopsWrap rp) (hs : a.recvAODV m env = .ok a') :
    Follows A a a' := by
  cases m with
  | request rq =>
      obtain ⟨hlive, hpos, httl, hle, hoffer⟩ := hm
      change a.recvRequest { rq with ttl := rq.ttl - 1 } env = .ok a' at hs
      refine h.recvRequest ?_ ?_ ?_ ?_ ?_ hs
      · exact hlive
      · exact hpos
      · show 0 ≤ rq.ttl - 1
        omega
      · show (rq.rqHopCount : ℤ) + (rq.ttl - 1) ≤ 30
        omega
      · exact hoffer
  | reply rp =>
      obtain ⟨hlive, hpos, hle, hoffer⟩ := hm
      change a.recvReply { rp with ttl := rp.ttl - 1 } env = .ok a' at hs
      refine h.recvReply ?_ ?_ ?_ ?_ ?_ hs
      · exact hlive
      · exact hpos
      · exact hle
      · exact hoffer
      · show ¬a.HopsWrap { rp with ttl := rp.ttl - 1 + 1 }
        have hsame : ({ rp with ttl := rp.ttl - 1 + 1 } : Reply) = rp := by rw [sub_add_cancel]
        rw [hsame]
        exact hwrap rp rfl
  | error re => exact h.recvError hm hs

end AODV

end ComputerNetworking.Aodv
