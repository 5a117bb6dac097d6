import ComputerNetworking.Aodv.Network
import ComputerNetworking.Foundations.NextHop

/-!
# What an AODV agent does to its routes

A sequence number is `Live` when a destination may have given it out: even and not 0.
Routes in use have live numbers, and a lost route gets a number that is not live.
`Follows A a a'`: the agent `a'` is tidy, no entry got a worse rank, and every route
that is new was adopted from an offer in `A` of a better rank. Sending and the handlers
of data packets, failed links and timers do this.
-/

set_option autoImplicit false

namespace ComputerNetworking.Aodv

open ComputerNetworking.Foundations RoutingTable

/-- A sequence number that a destination gives out. -/
def Live (seqno : ℕ) : Prop := 0 < seqno ∧ seqno % 2 = 0

/-- What the flags of an entry say about its number, and the bound of its hop count. -/
structure RtEntry.Consistent (rt : RtEntry) : Prop where
  not_live_of_down : rt.rtFlags = .down → ¬Live rt.rtSeqno
  live_of_up : rt.rtFlags = .up → Live rt.rtSeqno
  live_of_hops : rt.rtHops ≠ INFINITY2 → Live rt.rtSeqno
  hops_le : rt.rtHops ≤ INFINITY2

/-- A message tells of offers in `A` only: `A d x r` is that `x` offers the rank `r` for `d`. -/
def Message.Trusted (A : Addr → Addr → Freshness → Prop) : Message → Prop
  | .request rq =>
      Live rq.rqSrcSeqno ∧ 1 ≤ rq.rqHopCount ∧ 0 < rq.ttl ∧ rq.rqHopCount + rq.ttl ≤ 31 ∧
        A rq.rqSrc rq.saddr (fresh rq.rqSrcSeqno (rq.rqHopCount - 1))
  | .reply rp => Live rp.rpDstSeqno ∧ 1 ≤ rp.rpHopCount ∧ rp.rpHopCount ≤ INFINITY2 ∧
      A rp.rpDst rp.rpSrc (fresh rp.rpDstSeqno (rp.rpHopCount - 1))
  | .error re => ∀ lost ∈ re.unreachable, ¬Live lost.2

theorem Message.Trusted.mono {A B : Addr → Addr → Freshness → Prop} {m : Message}
    (h : m.Trusted A) (hAB : ∀ d x r, A d x r → B d x r) : m.Trusted B := by
  cases m with
  | request rq =>
      obtain ⟨hlive, hpos, httl, hle, hA⟩ := h
      exact ⟨hlive, hpos, httl, hle, hAB _ _ _ hA⟩
  | reply rp =>
      obtain ⟨hlive, hpos, hle, hA⟩ := h
      exact ⟨hlive, hpos, hle, hAB _ _ _ hA⟩
  | error re => exact h

namespace AODV

/-- The rank of the entry for `d`. -/
def rank (a : AODV) (d : Addr) : Freshness :=
  match a.rtable.rtLookup d with
  | none => ⊤
  | some rt => fresh rt.rtSeqno rt.rtHops

/-- The entry for `d` is up and leads to `x`. -/
def UpVia (a : AODV) (d x : Addr) : Prop :=
  ∃ rt, a.rtable.rtLookup d = some rt ∧ rt.rtFlags = .up ∧ rt.rtNexthop = x

/-- What the agent can offer: its own address, and what it has in its table. -/
def Offers (a : AODV) (d x : Addr) (r : Freshness) : Prop :=
  x = a.index ∧ (x = d ∨ a.rank d ≤ r)

/-- What holds of an agent between two events. -/
structure Tidy (a : AODV) : Prop where
  entries : ∀ d rt, a.rtable.rtLookup d = some rt → rt.Consistent
  seqno_live : Live a.seqno
  trusted : ∀ m ∈ a.sent, m.Trusted a.Offers

/-- The agent `a'` is tidy; from `a` to `a'` no rank got worse, and new routes are adopted
from `A`. -/
structure Follows (A : Addr → Addr → Freshness → Prop) (a a' : AODV) : Prop where
  tidy : Tidy a'
  index_eq : a'.index = a.index
  rank_le : ∀ d, a'.rank d ≤ a.rank d
  adopted : ∀ d x, a'.UpVia d x →
    a.UpVia d x ∧ a.rank d ≤ a'.rank d ∨ ∃ r, A d x r ∧ r < a'.rank d

/-- What may be written to the entry for `d`. -/
structure Writable (A : Addr → Addr → Freshness → Prop) (a : AODV) (d : Addr) (rt : RtEntry) :
    Prop where
  consistent : rt.Consistent
  rank_le : fresh rt.rtSeqno rt.rtHops ≤ a.rank d
  adopted : rt.rtFlags = .up →
    a.UpVia d rt.rtNexthop ∧ a.rank d ≤ fresh rt.rtSeqno rt.rtHops ∨
      ∃ r, A d rt.rtNexthop r ∧ r < fresh rt.rtSeqno rt.rtHops

variable {A : Addr → Addr → Freshness → Prop} {a a' a'' : AODV} {d dst : Addr}
  {rt : RtEntry} {f : RtEntry → RtEntry} {env : Env} {p : Packet} {m : Message}

theorem rank_of_rtLookup (h : a.rtable.rtLookup d = some rt) :
    a.rank d = fresh rt.rtSeqno rt.rtHops := by
  rw [rank, h]

theorem Tidy.follows_refl (h : Tidy a) : Follows A a a where
  tidy := h
  index_eq := rfl
  rank_le _ := le_refl _
  adopted _ _ hup := Or.inl ⟨hup, le_refl _⟩

theorem Follows.trans (h : Follows A a a') (h' : Follows A a' a'') : Follows A a a'' := by
  refine ⟨h'.tidy, h'.index_eq.trans h.index_eq, fun d => (h'.rank_le d).trans (h.rank_le d), ?_⟩
  intro d x hup
  rcases h'.adopted d x hup with ⟨hup', hle'⟩ | hoffer
  · -- the route was there before the second step
    rcases h.adopted d x hup' with ⟨hup'', hle⟩ | ⟨r, hr, hlt⟩
    · exact Or.inl ⟨hup'', hle.trans hle'⟩
    · exact Or.inr ⟨r, hr, hlt.trans_le hle'⟩
  · exact Or.inr hoffer

/-- What an agent has already may be written again. -/
theorem Tidy.writable (h : Tidy a) (hl : a.rtable.rtLookup d = some rt) : Writable A a d rt where
  consistent := h.entries d rt hl
  rank_le := (rank_of_rtLookup hl).ge
  adopted hup := Or.inl ⟨⟨rt, hl, hup, rfl⟩, (rank_of_rtLookup hl).le⟩

/-- An agent whose entries are all writable, and whose new messages offer what it has. -/
theorem Tidy.follows (h : Tidy a) (hindex : a'.index = a.index) (hseqno : Live a'.seqno)
    (hnone : ∀ d, a'.rtable.rtLookup d = none → a.rtable.rtLookup d = none)
    (hsome : ∀ d rt, a'.rtable.rtLookup d = some rt → Writable A a d rt)
    (hsent : ∀ m ∈ a'.sent, m ∈ a.sent ∨ m.Trusted a'.Offers) : Follows A a a' := by
  have hrank : ∀ d, a'.rank d ≤ a.rank d := by
    intro d
    cases hl : a'.rtable.rtLookup d with
    | none => rw [rank, rank, hl, hnone d hl]
    | some rt =>
        rw [rank_of_rtLookup hl]
        exact (hsome d rt hl).rank_le
  refine ⟨⟨fun d rt hl => (hsome d rt hl).consistent, hseqno, ?_⟩, hindex, hrank, ?_⟩
  · intro m hm
    rcases hsent m hm with hold | hnew
    · apply (h.trusted m hold).mono
      rintro d x r ⟨hx, hoffer⟩
      exact ⟨hx.trans hindex.symm, hoffer.imp_right (hrank d).trans⟩
    · exact hnew
  · rintro d x ⟨rt, hl, hup, rfl⟩
    rw [rank_of_rtLookup hl]
    exact (hsome d rt hl).adopted hup

/-! ## Single writes -/

/-- A change that leaves the table and the messages alone. -/
theorem Tidy.aside (h : Tidy a) (hindex : a'.index = a.index) (hseqno : Live a'.seqno)
    (htable : a'.rtable = a.rtable) (hsent : a'.sent = a.sent) : Follows A a a' := by
  apply h.follows hindex hseqno
  · intro d hl
    rwa [htable] at hl
  · intro d rt hl
    rw [htable] at hl
    exact h.writable hl
  · intro m hm
    rw [hsent] at hm
    exact Or.inl hm

theorem Tidy.send (h : Tidy a) (hm : m.Trusted a.Offers) : Follows A a (a.send m) := by
  refine h.follows rfl h.seqno_live (fun d hl => hl) (fun d rt hl => h.writable hl) ?_
  intro m' hm'
  rcases List.mem_append.mp hm' with hold | hnew
  · exact Or.inl hold
  · rw [List.mem_singleton.mp hnew]
    exact Or.inr hm

/-- A write to the entry of `dst`. -/
theorem Tidy.modify (h : Tidy a) (hf : ∀ rt, (f rt).rtDst = rt.rtDst)
    (hw : ∀ rt, a.rtable.rtLookup dst = some rt → Writable A a dst (f rt)) :
    Follows A a (a.modify dst f) := by
  have hlookup : ∀ d, (a.modify dst f).rtable.rtLookup d =
      if d = dst then (a.rtable.rtLookup d).map f else a.rtable.rtLookup d := by
    intro d
    exact rtLookup_modify hf a.rtable dst d
  refine h.follows rfl h.seqno_live ?_ ?_ (fun m hm => Or.inl hm)
  · intro d hl
    rw [hlookup] at hl
    split at hl
    · exact Option.map_eq_none_iff.mp hl
    · exact hl
  · intro d rt hl
    rw [hlookup] at hl
    split at hl
    · next hd =>
        subst hd
        obtain ⟨old, hold, rfl⟩ := Option.map_eq_some_iff.mp hl
        exact hw old hold
    · exact h.writable hl

/-- `f` leaves what a route is. -/
structure Plain (f : RtEntry → RtEntry) : Prop where
  dst_eq : ∀ rt, (f rt).rtDst = rt.rtDst
  seqno_eq : ∀ rt, (f rt).rtSeqno = rt.rtSeqno
  hops_eq : ∀ rt, (f rt).rtHops = rt.rtHops
  flags_eq : ∀ rt, (f rt).rtFlags = rt.rtFlags
  nexthop_eq : ∀ rt, (f rt).rtNexthop = rt.rtNexthop

theorem Plain.pcInsert (id : Addr) : Plain fun rt => rt.pcInsert id := by
  constructor
  all_goals
    intro rt
    simp only [RtEntry.pcInsert]
    split <;> rfl

theorem Plain.pcDelete (id : Addr) : Plain fun rt => rt.pcDelete id := by
  constructor <;> exact fun _ => rfl

theorem Writable.plain (hw : Writable A a d rt) (hf : Plain f) : Writable A a d (f rt) := by
  refine ⟨⟨?_, ?_, ?_, ?_⟩, ?_, ?_⟩
  · rw [hf.flags_eq, hf.seqno_eq]
    exact hw.consistent.not_live_of_down
  · rw [hf.flags_eq, hf.seqno_eq]
    exact hw.consistent.live_of_up
  · rw [hf.hops_eq, hf.seqno_eq]
    exact hw.consistent.live_of_hops
  · rw [hf.hops_eq]
    exact hw.consistent.hops_le
  · rw [hf.hops_eq, hf.seqno_eq]
    exact hw.rank_le
  · rw [hf.flags_eq, hf.nexthop_eq, hf.hops_eq, hf.seqno_eq]
    exact hw.adopted

/-- A write to other fields. -/
theorem Tidy.plain (h : Tidy a) (hf : Plain f) (dst : Addr) : Follows A a (a.modify dst f) :=
  h.modify hf.dst_eq fun _ hl => (h.writable hl).plain hf

/-- A new entry. -/
theorem Tidy.lookupOrAdd (h : Tidy a) (dst : Addr) : Follows A a (a.lookupOrAdd dst) := by
  rw [AODV.lookupOrAdd]
  split
  · exact h.follows_refl
  · next hno =>
      have hnone : a.rtable.rtLookup dst = none := Option.not_isSome_iff_eq_none.mp hno
      have hlookup : ∀ d, (a.rtable.rtAdd dst).rtLookup d =
          if d = dst then some { rtDst := dst } else a.rtable.rtLookup d :=
        rtLookup_rtAdd a.rtable dst
      refine h.follows rfl h.seqno_live ?_ ?_ (fun m hm => Or.inl hm)
      · intro d hl
        rw [hlookup] at hl
        split at hl
        · cases hl
        · exact hl
      · intro d rt hl
        rw [hlookup] at hl
        split at hl
        · next hd =>
            cases hl
            subst hd
            have htop : a.rank d = ⊤ := by rw [rank, hnone]
            refine ⟨⟨?_, ?_, ?_, le_refl _⟩, ?_, ?_⟩
            · rintro - ⟨hpos, -⟩
              exact hpos.false
            · rintro ⟨⟩
            · intro hne
              exact absurd rfl hne
            · rw [htop]
              exact le_top
            · rintro ⟨⟩
        · exact h.writable hl

theorem down_rtDst (rt : RtEntry) : rt.down.rtDst = rt.rtDst := by
  rw [RtEntry.down]
  split <;> rfl

/-- A route is lost with a larger number that is not live. -/
theorem writable_down (hl : a.rtable.rtLookup d = some rt) {seqno : ℕ}
    (hup : rt.rtFlags = .up) (hlt : rt.rtSeqno < seqno) (hdead : ¬Live seqno) :
    Writable A a d { rt with rtSeqno := seqno }.down := by
  have hdown : ({ rt with rtSeqno := seqno } : RtEntry).down =
      { rt with rtSeqno := seqno, rtLastHopCount := rt.rtHops, rtHops := INFINITY2,
                rtFlags := .down, rtNexthop := 0, rtExpire := 0 } := by
    rw [RtEntry.down, if_neg]
    intro hflags
    cases hup.symm.trans hflags
  rw [hdown]
  refine ⟨⟨fun _ => hdead, ?_, ?_, le_refl _⟩, ?_, ?_⟩
  · rintro ⟨⟩
  · intro hne
    exact absurd rfl hne
  · rw [rank_of_rtLookup hl]
    exact fresh_le_iff.mpr (Or.inl hlt)
  · rintro ⟨⟩

/-- A loop whose turns lead on. -/
theorem Tidy.runAll {I : Type} {step : AODV → I → Except Failure AODV} {is : List I}
    (h : Tidy a) (hstep : ∀ a i a', Tidy a → step a i = .ok a' → Follows A a a')
    (hrun : Foundations.runAll step a is = .ok a') : Follows A a a' := by
  apply runAll_invariant (fun b => Follows A a b) _ h.follows_refl hrun
  intro b i c hb hc
  exact hb.trans (hstep b i c hb.tidy hc)

/-- The packets that waited for `dst` leave the queue and are handled one by one. -/
theorem Tidy.dequeAll (h : Tidy a) {step : AODV → Packet → Except Failure AODV}
    (hstep : ∀ a p a', Tidy a → step a p = .ok a' → Follows A a a')
    (hs : Foundations.runAll step { a with rqueue := Rqueue.left dst env.now a.rqueue }
      (Rqueue.taken dst env.now a.rqueue) = .ok a') : Follows A a a' := by
  have hqueue : Follows A a { a with rqueue := Rqueue.left dst env.now a.rqueue } :=
    h.aside rfl h.seqno_live rfl rfl
  exact hqueue.trans (hqueue.tidy.runAll hstep hs)

/-! ## Sending -/

theorem Tidy.forward (h : Tidy a) (hs : a.forward dst p env = .ok a') : Follows A a a' := by
  rw [AODV.forward] at hs
  repeat' split at hs
  all_goals cases hs
  · exact h.follows_refl
  · exact h.follows_refl
  · apply h.plain
    constructor <;> exact fun _ => rfl

theorem searchTtl_bounds (rt : RtEntry) : 0 < searchTtl rt ∧ searchTtl rt ≤ 30 := by
  fun_cases searchTtl rt with
  | case1 => exact ⟨by decide, by decide⟩
  | case2 lastTtl hpos hlt =>
      have hsmall : lastTtl < 7 := hlt
      have hinc : TTL_INCREMENT = 2 := rfl
      omega
  | case3 => exact ⟨by decide, by decide⟩

theorem Tidy.broadcastRequest (h : Tidy a) (hs : a.broadcastRequest rt = .ok a') :
    Follows A a a' := by
  rw [AODV.broadcastRequest] at hs
  split at hs
  · next heven =>
      cases hs
      have hseqno : Live (a.seqno + 2) := ⟨Nat.succ_pos _, heven⟩
      have hfirst : Follows A a { a with seqno := a.seqno + 2, bid := a.bid + 1 } :=
        h.aside rfl hseqno rfl rfl
      apply hfirst.trans
      apply hfirst.tidy.send
      obtain ⟨hpos, hle⟩ := searchTtl_bounds rt
      refine ⟨hseqno, le_refl _, ?_, ?_, rfl, Or.inl rfl⟩
      · show (0 : ℤ) < (searchTtl rt : ℤ)
        omega
      · show ((1 : ℕ) : ℤ) + (searchTtl rt : ℤ) ≤ 31
        omega
  · cases hs

theorem Tidy.sendRequest (h : Tidy a) (hs : a.sendRequest dst env = .ok a') : Follows A a a' := by
  rw [AODV.sendRequest] at hs
  cases hl : a.rtable.rtLookup dst with
  | none =>
      simp only [hl] at hs
      cases hs
  | some rt =>
      simp only [hl] at hs
      split at hs
      · split at hs
        · cases hs
          exact h.follows_refl
        · cases hs
      · split at hs
        · cases hs
          exact h.follows_refl
        · split at hs
          · cases hs
            have hplain : Follows A a (a.modify dst fun rt =>
                { rt with rtReqTimeout := env.now + MAX_RREQ_TIMEOUT, rtReqCnt := 0 }) := by
              apply h.plain
              constructor <;> exact fun _ => rfl
            exact hplain.trans (hplain.tidy.aside rfl hplain.tidy.seqno_live rfl rfl)
          · have hplain : Follows A a (a.modify dst fun rt => searched rt env) := by
              apply h.plain
              constructor <;> exact fun _ => rfl
            exact hplain.trans (hplain.tidy.broadcastRequest hs)

theorem Tidy.sendReply (h : Tidy a) {ipdst hopCount rpdst rpseq : ℕ} {lifetime : ℚ}
    (hlive : Live rpseq) (hpos : 1 ≤ hopCount) (hle : hopCount ≤ INFINITY2)
    (hoffer : rpdst = a.index ∨ a.rank rpdst ≤ fresh rpseq (hopCount - 1))
    (hs : a.sendReply ipdst hopCount rpdst rpseq lifetime = .ok a') : Follows A a a' := by
  rw [AODV.sendReply] at hs
  split at hs
  · cases hs
  · cases hs
    apply h.send
    have hmod : hopCount % 256 = hopCount := Nat.mod_eq_of_lt (Nat.lt_succ_of_le hle)
    show Live rpseq ∧ 1 ≤ hopCount % 256 ∧ hopCount % 256 ≤ INFINITY2 ∧
      a.Offers rpdst a.index (fresh rpseq (hopCount % 256 - 1))
    rw [hmod]
    exact ⟨hlive, hpos, hle, rfl, hoffer.imp_left Eq.symm⟩

theorem Tidy.sendError (h : Tidy a) {unreachable : List (Addr × ℕ)}
    (hdead : ∀ lost ∈ unreachable, ¬Live lost.2) (hs : a.sendError unreachable = .ok a') :
    Follows A a a' := by
  rw [AODV.sendError] at hs
  split at hs
  · cases hs
  · cases hs
    exact h.send hdead

/-! ## Data packets -/

theorem Tidy.enque (h : Tidy a) (p : Packet) (env : Env) : Follows A a (a.enque p env) :=
  h.aside rfl h.seqno_live rfl rfl

theorem rtLookup_lookupOrAdd (a : AODV) (dst : Addr) :
    (a.lookupOrAdd dst).rtable.rtLookup dst = some (a.rtEntry dst) := by
  rw [AODV.lookupOrAdd, AODV.rtEntry]
  cases hl : a.rtable.rtLookup dst with
  | none =>
      rw [Option.isSome_none, if_neg Bool.false_ne_true]
      exact (rtLookup_rtAdd a.rtable dst dst).trans (if_pos rfl)
  | some rt =>
      rw [Option.isSome_some, if_pos rfl, hl]
      rfl

theorem Tidy.rtResolve (h : Tidy a) (hs : a.rtResolve p env = .ok a') : Follows A a a' := by
  rw [AODV.rtResolve] at hs
  have hadd : Follows A a (a.lookupOrAdd p.daddr) := h.lookupOrAdd p.daddr
  have hrt := hadd.tidy.entries _ _ (rtLookup_lookupOrAdd a p.daddr)
  apply hadd.trans
  split at hs
  · split at hs
    · exact hadd.tidy.forward hs
    · cases hs
  · next hup =>
      split at hs
      · have hqueue := hadd.tidy.enque (A := A) p env
        exact hqueue.trans (hqueue.tidy.sendRequest hs)
      · split at hs
        · cases hs
          exact hadd.tidy.enque p env
        · next hrepair =>
            -- the third flag
            have hdown : (a.rtEntry p.daddr).rtFlags = .down := by
              cases hflags : (a.rtEntry p.daddr).rtFlags with
              | down => rfl
              | up => exact absurd hflags hup
              | inRepair => exact absurd hflags hrepair
            refine hadd.tidy.sendError ?_ hs
            intro lost hlost
            rw [List.mem_singleton.mp hlost]
            exact hrt.not_live_of_down hdown

theorem Tidy.recv (h : Tidy a) (hs : a.recv p env = .ok a') : Follows A a a' := by
  rw [AODV.recv] at hs
  repeat' split at hs
  · cases hs
    exact h.follows_refl
  · exact h.rtResolve hs
  · cases hs
    exact h.follows_refl
  · cases hs
    exact h.follows_refl
  · cases hs
    exact h.follows_refl
  · exact h.rtResolve hs

/-! ## Failed links -/

theorem Tidy.localRtRepair (h : Tidy a) (hs : a.localRtRepair p env = .ok a') :
    Follows A a a' := by
  rw [AODV.localRtRepair] at hs
  have hqueue : Follows A a (a.enque p env) := h.enque p env
  have hmark : Follows A (a.enque p env) ((a.enque p env).modify p.daddr fun rt =>
      { rt with rtFlags := .inRepair }) := by
    refine hqueue.tidy.modify ?_ ?_
    · exact fun _ => rfl
    intro rt hl
    have hrt := hqueue.tidy.entries _ _ hl
    refine ⟨⟨?_, ?_, hrt.live_of_hops, hrt.hops_le⟩, (rank_of_rtLookup hl).ge, ?_⟩
    · rintro ⟨⟩
    · rintro ⟨⟩
    · rintro ⟨⟩
  split at hs
  · cases hs
  · next a₁ hrequest =>
      cases hs
      have hsent := hmark.tidy.sendRequest (A := A) hrequest
      exact ((hqueue.trans hmark).trans hsent).trans
        (hsent.tidy.aside rfl hsent.tidy.seqno_live rfl rfl)

/-- The state of a loop that collects lost routes. -/
structure Collects (A : Addr → Addr → Freshness → Prop) (a : AODV)
    (s : AODV × List (Addr × ℕ)) : Prop where
  follows : Follows A a s.1
  dead : ∀ lost ∈ s.2, ¬Live lost.2

/-- A collected route adds its number to the list. -/
theorem Collects.append {s : AODV × List (Addr × ℕ)} (h : Collects A a s)
    (hnext : Follows A s.1 a') {lost : Addr × ℕ} (hlost : ¬Live lost.2) :
    Collects A a (a', s.2 ++ [lost]) := by
  refine ⟨h.follows.trans hnext, ?_⟩
  intro l hl
  rcases List.mem_append.mp hl with hold | hnew
  · exact h.dead l hold
  · rw [List.mem_singleton.mp hnew]
    exact hlost

theorem Tidy.collects_refl (h : Tidy a) : Collects A a (a, []) :=
  ⟨h.follows_refl, fun _ hl => absurd hl List.not_mem_nil⟩

/-- The error for the routes that a loop has collected. -/
theorem Collects.sendError {s : AODV × List (Addr × ℕ)} (h : Collects A a s)
    (hs : (if s.2 = [] then Except.ok s.1 else s.1.sendError s.2) = .ok a') :
    Follows A a a' := by
  split at hs
  · cases hs
    exact h.follows
  · exact h.follows.trans (h.follows.tidy.sendError h.dead hs)

theorem Collects.breakRoute {s s' : AODV × List (Addr × ℕ)} {id : Addr} (h : Collects A a s)
    (hs : breakRoute id s dst = .ok s') : Collects A a s' := by
  rw [AODV.breakRoute] at hs
  split at hs
  · cases hs
    exact h
  · next rt hl =>
      split at hs
      · split at hs
        · next hup =>
            cases hs
            have hdead : ¬Live (rt.rtSeqno + 1) := by
              rintro ⟨-, heven⟩
              omega
            apply h.append _ hdead
            apply h.follows.tidy.modify
            · exact fun rt => down_rtDst _
            · intro rt' hl'
              obtain rfl := Option.some.inj (hl.symm.trans hl')
              exact (writable_down hl hup.1 (Nat.lt_succ_self _) hdead).plain (Plain.pcDelete id)
        · cases hs
      · cases hs
        exact ⟨h.follows.trans (h.follows.tidy.plain (Plain.pcDelete id) dst), h.dead⟩

theorem Tidy.handleLinkFailure (h : Tidy a) {id : Addr} (hs : a.handleLinkFailure id = .ok a') :
    Follows A a a' := by
  rw [AODV.handleLinkFailure] at hs
  split at hs
  · cases hs
  · next a₁ unreachable hloop =>
      have hcollects : Collects A a (a₁, unreachable) := by
        apply runAll_invariant (Collects A a) _ h.collects_refl hloop
        intro s dst s' hcollects hturn
        exact hcollects.breakRoute hturn
      exact hcollects.sendError hs

theorem Tidy.nbDelete (h : Tidy a) {id : Addr} (hs : a.nbDelete id = .ok a') : Follows A a a' := by
  rw [AODV.nbDelete] at hs
  split at hs
  · next heven =>
      have hseqno : Follows A a { a with seqno := a.seqno + 2 } :=
        h.aside rfl ⟨Nat.succ_pos _, heven⟩ rfl rfl
      exact hseqno.trans (hseqno.tidy.handleLinkFailure hs)
  · cases hs

theorem Tidy.rtLlFailed (h : Tidy a) {nextHop : Addr} (hs : a.rtLlFailed p nextHop env = .ok a') :
    Follows A a a' := by
  rw [AODV.rtLlFailed] at hs
  split at hs
  · cases hs
    exact h.follows_refl
  · split at hs
    · cases hs
      exact h.follows_refl
    · split at hs
      · exact h.localRtRepair hs
      · exact h.nbDelete hs

/-! ## Timers -/

theorem Tidy.purgeRoute (h : Tidy a) (hs : a.purgeRoute env dst = .ok a') : Follows A a a' := by
  rw [AODV.purgeRoute] at hs
  have hqueue : Follows A a { a with rqueue := Rqueue.left dst env.now a.rqueue } :=
    h.aside rfl h.seqno_live rfl rfl
  split at hs
  · cases hs
    exact h.follows_refl
  · next rt hl =>
      split at hs
      · next hup =>
          split at hs
          · next hodd =>
              cases hs
              have hdead : ¬Live (rt.rtSeqno + 1) := by
                rintro ⟨-, heven⟩
                omega
              apply hqueue.trans
              apply hqueue.tidy.modify
              · exact fun rt => down_rtDst _
              · intro rt' hl'
                obtain rfl := Option.some.inj (hl.symm.trans hl')
                exact writable_down hl' hup.1 (Nat.lt_succ_self _) hdead
          · cases hs
      · split at hs
        · split at hs
          · refine h.dequeAll ?_ hs
            intro b p b' hb hforward
            exact hb.forward hforward
          · cases hs
        · split at hs
          · exact h.sendRequest hs
          · cases hs
            exact h.follows_refl

theorem Tidy.rtPurge (h : Tidy a) (hs : a.rtPurge env = .ok a') : Follows A a a' := by
  rw [AODV.rtPurge] at hs
  apply h.runAll _ hs
  intro b dst b' hb hturn
  exact hb.purgeRoute hturn

theorem Tidy.idPurge (h : Tidy a) (env : Env) : Follows A a (a.idPurge env) :=
  h.aside rfl h.seqno_live rfl rfl

/-- A timer that does not find the route under repair changes no route. -/
theorem Tidy.repairTimeout (h : Tidy a) {k : ℕ} (hk : ¬a.RepairFails k) :
    Follows A a (a.repairTimeout k) := by
  rw [AODV.repairTimeout]
  split
  · exact h.follows_refl
  · next dst hdst =>
      have hdone : Follows A a { a with repairs := a.repairs.eraseIdx k } :=
        h.aside rfl h.seqno_live rfl rfl
      apply hdone.trans
      refine hdone.tidy.modify ?_ ?_
      · intro rt
        split
        · exact down_rtDst rt
        · rfl
      · intro rt hl
        have hsame : (if rt.rtFlags ≠ RtFlags.up then rt.down else rt) = rt := by
          cases hflags : rt.rtFlags with
          | up => rfl
          | down =>
              rw [RtEntry.down, if_pos hflags]
              exact ite_self rt
          | inRepair => exact absurd ⟨dst, hdst, rt, hl, hflags⟩ hk
        rw [hsame]
        exact hdone.tidy.writable hl

end AODV

end ComputerNetworking.Aodv
