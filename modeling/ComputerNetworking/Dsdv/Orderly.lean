import ComputerNetworking.Dsdv.Waiting

/-!
# Orderly agents

What holds of the entries of a DSDV agent between two events, whatever the order of the
events: packets are queued only where the metric is `BIG`, at most `MAX_QUEUE_LENGTH` of
them, and the times of an entry lie in the past in the order that keeps its settling time
from becoming negative. Every handler but that of updates keeps it
(`Orderly.recv`, `Orderly.makeUpdate`, `Orderly.timeout`, `Orderly.lostLink`).
-/

set_option autoImplicit false

namespace ComputerNetworking.Dsdv

open RoutingTable

/-- The weight of the settling time is a weight, and no settling time is negative. -/
structure Config.Sound (cfg : Config) : Prop where
  alpha_nonneg : 0 ≤ cfg.alpha
  alpha_le_one : cfg.alpha ≤ 1
  wst0_nonneg : 0 ≤ cfg.wst0

namespace DSDVAgent

variable {a a' a₁ : DSDVAgent} {d : Addr} {e e' w : RtableEnt} {t now : ℚ} {p : Packet}
  {q : List Packet} {f : RtableEnt → RtableEnt}

/-- What holds of an entry between two events, the last of them at `now`. -/
structure Kept (a : DSDVAgent) (now : ℚ) (e : RtableEnt) : Prop where
  metric_le : e.metric ≤ BIG
  wst_nonneg : 0 ≤ e.wst
  since : e.newSeqnumAt ≤ e.changedAt
  past : e.changedAt ≤ now
  big : ∀ q, e.q = some q → e.metric = BIG
  length_le : ∀ q, e.q = some q → q.length ≤ MAX_QUEUE_LENGTH
  queueable : ∀ q, e.q = some q → ∀ p ∈ q, Queueable a e.dst p

/-- What holds of an agent between two events, the last of them at `now`. -/
structure Orderly (a : DSDVAgent) (now : ℚ) : Prop where
  sound : a.cfg.Sound
  sorted : Sorted a.table
  kept : ∀ d e, a.table.getEntry d = some e → Kept a now e

/-- The agents have the same address and settings. -/
structure SameSettings (a a' : DSDVAgent) : Prop where
  myaddr_eq : a'.myaddr = a.myaddr
  cfg_eq : a'.cfg = a.cfg

theorem SameNode.settings (h : SameNode a a') : SameSettings a a' := ⟨h.myaddr_eq, h.cfg_eq⟩

theorem SameSettings.trans {a'' : DSDVAgent} (h : SameSettings a a') (h' : SameSettings a' a'') :
    SameSettings a a'' :=
  ⟨h'.1.trans h.1, h'.2.trans h.2⟩

theorem Queueable.congr (hn : SameSettings a a') (h : Queueable a d p) : Queueable a' d p := by
  refine ⟨h.dst_eq, ?_, h.unicast, ?_⟩
  · rw [hn.cfg_eq]
    exact h.inside
  · rw [hn.myaddr_eq]
    exact h.fresh

theorem Kept.congr (hn : SameSettings a a') (ht : t ≤ now) (h : Kept a t e) : Kept a' now e :=
  ⟨h.metric_le, h.wst_nonneg, h.since, h.past.trans ht, h.big, h.length_le,
    fun q hq p hp => (h.queueable q hq p hp).congr hn⟩

theorem Orderly.later (h : Orderly a t) (ht : t ≤ now) : Orderly a now :=
  ⟨h.sound, h.sorted, fun d e he => (h.kept d e he).congr ⟨rfl, rfl⟩ ht⟩

/-- The time of the last update does not matter. -/
theorem Orderly.lasttup (h : Orderly a now) (t : ℚ) : Orderly { a with lasttup := t } now := by
  have hn : SameSettings a { a with lasttup := t } := ⟨rfl, rfl⟩
  exact ⟨h.sound, h.sorted, fun d e he => (h.kept d e he).congr hn le_rfl⟩

/-- One entry is written. -/
theorem Orderly.write (h : Orderly a t) (ht : t ≤ now) (hn : SameSettings a a')
    (hs : Sorted a'.table)
    (hother : ∀ d', d' ≠ d → a'.table.getEntry d' = a.table.getEntry d')
    (hw : ∀ w, a'.table.getEntry d = some w → Kept a now w) : Orderly a' now := by
  refine ⟨hn.cfg_eq ▸ h.sound, hs, fun d' e he => ?_⟩
  by_cases hd : d' = d
  · exact (hw e (hd ▸ he)).congr hn le_rfl
  · rw [hother d' hd] at he
    exact (h.kept d' e he).congr hn ht

theorem Orderly.put (h : Orderly a t) (ht : t ≤ now) (hn : SameSettings a a')
    (htable : a'.table = put w a.table) (hw : Kept a now w) : Orderly a' now := by
  refine h.write (d := w.dst) ht hn (htable ▸ h.sorted.put w) (fun d' hd => ?_) fun w' hw' => ?_
  · rw [htable, getEntry_put, if_neg (Ne.symm hd)]
  · rw [htable, getEntry_put, if_pos rfl] at hw'
    exact Option.some.inj hw' ▸ hw

/-- Every entry is rewritten. -/
theorem Orderly.map (h : Orderly a now) (hn : SameSettings a a') (hdst : ∀ e, (f e).dst = e.dst)
    (htable : a'.table = a.table.map f) (hf : ∀ e, Kept a now e → Kept a now (f e)) :
    Orderly a' now := by
  refine ⟨hn.cfg_eq ▸ h.sound, htable ▸ h.sorted.map hdst, fun d e' he' => ?_⟩
  rw [htable, getEntry_map f hdst] at he'
  obtain ⟨e, he, rfl⟩ := Option.map_eq_some_iff.mp he'
  exact (hf e (h.kept d e he)).congr hn le_rfl

/-- `f` leaves what an orderly entry is about. -/
structure Quiet (f : RtableEnt → RtableEnt) : Prop where
  plain : Plain f
  wst_eq : ∀ e, (f e).wst = e.wst
  changedAt_eq : ∀ e, (f e).changedAt = e.changedAt
  newSeqnumAt_eq : ∀ e, (f e).newSeqnumAt = e.newSeqnumAt

theorem Quiet.kept (hf : Quiet f) (h : Kept a now e) : Kept a now (f e) := by
  constructor
  · rw [hf.plain.metric_eq]
    exact h.metric_le
  · rw [hf.wst_eq]
    exact h.wst_nonneg
  · rw [hf.newSeqnumAt_eq, hf.changedAt_eq]
    exact h.since
  · rw [hf.changedAt_eq]
    exact h.past
  · rw [hf.plain.q_eq, hf.plain.metric_eq]
    exact h.big
  · rw [hf.plain.q_eq]
    exact h.length_le
  · rw [hf.plain.q_eq, hf.plain.dst_eq]
    exact h.queueable

theorem Quiet.at (hf : Quiet f) (dest : Addr) : Quiet fun e => if e.dst = dest then f e else e := by
  refine ⟨hf.plain.at dest, ?_, ?_, ?_⟩
  all_goals
    intro e
    split
  · exact hf.wst_eq e
  · rfl
  · exact hf.changedAt_eq e
  · rfl
  · exact hf.newSeqnumAt_eq e
  · rfl

theorem Orderly.quiet (h : Orderly a now) (hn : SameSettings a a') (hf : Quiet f)
    (htable : a'.table = a.table.map f) : Orderly a' now :=
  h.map hn hf.plain.dst_eq htable fun _ => hf.kept

theorem Orderly.modify (h : Orderly a now) (hf : Quiet f) (dest : Addr) :
    Orderly (a.modify dest f) now :=
  h.quiet ⟨rfl, rfl⟩ (hf.at dest) rfl

section Handlers

/-- The agent's own entry, as `startUp` and `makeUpdate` write it. -/
theorem kept_own (a : DSDVAgent) (now : ℚ) (h : e.metric = 0) (hw : e.wst = 0)
    (hc : e.changedAt = now) (hs : e.newSeqnumAt = now) (hq : e.q = none) : Kept a now e := by
  have hnone : ∀ q, e.q ≠ some q := fun q h => by rw [hq] at h; cases h
  exact ⟨h ▸ Nat.zero_le BIG, hw.ge, (hs.trans hc.symm).le, hc.le, fun q h => absurd h (hnone q),
    fun q h => absurd h (hnone q), fun q h => absurd h (hnone q)⟩

theorem Orderly.startUp (h : Orderly a t) (ht : t ≤ now) : Orderly (a.startUp now) now :=
  h.put ht ⟨rfl, rfl⟩ rfl (kept_own a now rfl rfl rfl rfl rfl)

theorem Orderly.forwardPacket (h : Orderly a now) (hcast : p.dst ≠ IP_BROADCAST)
    (hloop : p.src = a.myaddr → p.numForwards = 0) : Orderly (a.forwardPacket p now) now := by
  rw [DSDVAgent.forwardPacket]
  split
  · exact h
  · rename_i hinside
    have hp : Queueable a p.dst p := ⟨rfl, Bool.eq_false_iff.mpr hinside, hcast, hloop⟩
    cases hg : a.table.getEntry p.dst with
    | none =>
        refine h.put le_rfl ⟨rfl, rfl⟩ rfl ⟨le_rfl, ?_, le_rfl, le_rfl, fun _ _ => rfl, ?_, ?_⟩
        · exact h.sound.wst0_nonneg
        · rintro q ⟨⟩
          exact Nat.succ_le_succ (Nat.zero_le 4)
        · rintro q ⟨⟩ p' hp'
          rw [List.mem_singleton.mp hp']
          exact hp
    | some prte =>
        dsimp only
        split
        · exact h
        · rename_i hm
          have hk := h.kept p.dst prte hg
          have hdst := dst_of_getEntry hg
          generalize hq : (prte.q.getD [] ++ [p]).drop
            ((prte.q.getD [] ++ [p]).length - MAX_QUEUE_LENGTH) = q
          have hlen : q.length ≤ MAX_QUEUE_LENGTH := by
            rw [← hq, List.length_drop]
            omega
          have hmem : ∀ p' ∈ q, Queueable a p.dst p' := by
            intro p' hp'
            rw [← hq] at hp'
            rcases List.mem_append.mp (List.mem_of_mem_drop hp') with hold | hnew
            · cases hpq : prte.q with
              | none =>
                  rw [hpq] at hold
                  cases hold
              | some q' =>
                  rw [hpq] at hold
                  exact hdst ▸ hk.queueable q' hpq p' hold
            · rw [List.mem_singleton.mp hnew]
              exact hp
          show Orderly (a.setQueue p.dst q) now
          refine h.write le_rfl ⟨rfl, rfl⟩ ?_
            (fun d' hd => getEntry_setQueue_of_ne hd q) fun w hw => ?_
          · exact sorted_setQueue h.sorted p.dst q
          · rw [getEntry_setQueue hg q] at hw
            rw [← Option.some.inj hw]
            refine ⟨hk.1, hk.2, hk.3, hk.4, fun _ _ => not_not.mp hm, ?_, ?_⟩
            · rintro q' ⟨⟩
              exact hlen
            · rintro q' ⟨⟩ p' hp'
              rw [hdst]
              exact hmem p' hp'

theorem Orderly.recv (h : Orderly a now) (p : Packet) : Orderly (a.recv p now) now := by
  rw [DSDVAgent.recv]
  split
  · exact h
  · rename_i hnoloop
    dsimp only
    generalize (if p.src = a.myaddr then IP_DEF_TTL else p.ttl - 1) = ttl
    split
    · exact h
    · split
      · exact h
      · rename_i hcast
        refine h.forwardPacket hcast fun hsrc => ?_
        by_contra hforwards
        exact hnoloop ⟨hsrc, hforwards⟩

theorem Kept.mark (h : Kept a now e) (dst : Addr) : Kept a now (mark dst now e) := by
  rw [DSDVAgent.mark]
  split
  · exact ⟨le_rfl, h.wst_nonneg, h.since, h.past, fun _ _ => rfl, h.length_le, h.queueable⟩
  · exact h

theorem quiet_timeoutEvent (b : Bool) : Quiet fun prte => { prte with timeoutEvent := b } :=
  ⟨⟨fun _ => rfl, fun _ => rfl, fun _ => rfl, fun _ => rfl, fun _ => rfl⟩, fun _ => rfl,
    fun _ => rfl, fun _ => rfl⟩

theorem Orderly.timeout (h : Orderly a now) {dst : Addr} (ht : a.timeout dst now = .ok a') :
    Orderly a' now := by
  rw [DSDVAgent.timeout] at ht
  split at ht
  · rw [← Except.ok.inj ht]
    have hmark : Orderly { a with table := a.table.map (DSDVAgent.mark dst now) } now :=
      h.map ⟨rfl, rfl⟩ (mark_dst dst now) rfl fun e he => he.mark dst
    exact hmark.modify (quiet_timeoutEvent false) dst
  · cases ht

theorem Orderly.lostLink (h : Orderly a now) {nextHop : Addr}
    (hl : a.lostLink p nextHop now = .ok a') : Orderly a' now := by
  rw [DSDVAgent.lostLink] at hl
  split at hl
  · split at hl
    · rw [← Except.ok.inj hl]
      exact h
    · dsimp only at hl
      split at hl
      · cases hl
      · rename_i prte _ _ a₁ ha₁
        rw [← Except.ok.inj hl]
        refine Orderly.recv ?_ p
        split at ha₁
        · exact h.timeout ha₁
        · split at ha₁
          · exact (h.modify (quiet_timeoutEvent true) nextHop).timeout ha₁
          · rw [← Except.ok.inj ha₁]
            exact h
  · rw [← Except.ok.inj hl]
    exact h

theorem Orderly.pack (h : Orderly a now) {full : Bool} {n : ℕ} {included : RtableEnt → Bool}
    {u? : Option Update} (hp : a.pack full n included = .ok (a', u?)) : Orderly a' now := by
  rw [DSDVAgent.pack] at hp
  dsimp only at hp
  split at hp
  · rw [Except.ok.injEq, Prod.mk.injEq] at hp
    obtain ⟨rfl, -⟩ := hp
    refine h.quiet ⟨rfl, rfl⟩ ⟨⟨?_, ?_, ?_, ?_, ?_⟩, ?_, ?_, ?_⟩ rfl
    all_goals
      intro e
      split <;> rfl
  · cases hp

theorem Orderly.advance (h : Orderly a now) : Orderly (a.advance now) now :=
  h.put le_rfl ⟨rfl, rfl⟩ rfl (kept_own a now rfl rfl rfl rfl rfl)

theorem Orderly.makeUpdate (h : Orderly a now) {full : Bool} {u? : Option Update}
    (hm : a.makeUpdate full now = .ok (a', u?)) : Orderly a' now := by
  rw [DSDVAgent.makeUpdate] at hm
  dsimp only at hm
  split at hm
  · split at hm
    · rw [Except.ok.injEq, Prod.mk.injEq] at hm
      exact hm.1 ▸ h.advance
    · exact h.advance.pack hm
  · split at hm
    · rw [Except.ok.injEq, Prod.mk.injEq] at hm
      exact hm.1 ▸ h
    · exact h.pack hm

theorem Orderly.periodic (h : Orderly a now) {u? : Option Update}
    (hp : a.periodic now = .ok (a', u?)) : Orderly a' now := by
  rw [DSDVAgent.periodic] at hp
  split at hp
  · cases hp
  · rename_i a₁ u₁ hmake
    rw [Except.ok.injEq, Prod.mk.injEq] at hp
    obtain ⟨rfl, -⟩ := hp
    exact (h.makeUpdate hmake).lasttup now

theorem quiet_triggerEvent (g : Option ℚ → Option ℚ) :
    Quiet fun prte => { prte with triggerEvent := g prte.triggerEvent } :=
  ⟨⟨fun _ => rfl, fun _ => rfl, fun _ => rfl, fun _ => rfl, fun _ => rfl⟩, fun _ => rfl,
    fun _ => rfl, fun _ => rfl⟩

theorem Orderly.triggered (h : Orderly a now) {dst : Addr} {u? : Option Update}
    (ht : a.triggered dst now = .ok (a', u?)) : Orderly a' now := by
  rw [DSDVAgent.triggered] at ht
  split at ht
  · dsimp only at ht
    split at ht
    · rw [Except.ok.injEq, Prod.mk.injEq] at ht
      obtain ⟨rfl, -⟩ := ht
      have h₁ := h.modify (quiet_triggerEvent fun _ => some (a.lasttup + DSDV_MIN_TUP_PERIOD)) dst
      exact h₁.quiet ⟨rfl, rfl⟩ (quiet_triggerEvent _) rfl
    · split at ht
      · cases ht
      · rename_i a₁ u₁ hmake
        rw [Except.ok.injEq, Prod.mk.injEq] at ht
        obtain ⟨rfl, -⟩ := ht
        have h₁ := h.makeUpdate hmake
        refine Orderly.modify ?_ (quiet_triggerEvent fun _ => none) dst
        split
        · exact h₁.lasttup now
        · exact h₁
  · cases ht

end Handlers

end DSDVAgent

end ComputerNetworking.Dsdv
