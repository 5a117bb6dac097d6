import ComputerNetworking.Dsdv.Freshness

/-!
# The handling of an update

One destination of an update either leaves the routes of the table as they are
or writes the entry of that destination, adopted from the advert. The write at
the end of the turn, which records that the queue was given away, writes what
is there already, unless the destination is stale (`Tidy.processEntry`). A whole
update is handled by induction on its destinations (`Tidy.processUpdate`).
-/

set_option autoImplicit false

namespace ComputerNetworking.Dsdv

open ComputerNetworking.Foundations RoutingTable

namespace DSDVAgent

variable {A : Addr → Addr → Freshness → Prop} {a a' a₁ a₂ : DSDVAgent} {d : Addr}
  {e e' rte rte' : RtableEnt} {now : ℚ} {adv : Advert} {src : Addr}

/-- The advert that the node would adopt although it knows better. -/
def StaleAt (a : DSDVAgent) (adv : Advert) : Prop :=
  adv.metric ≠ BIG ∧ adv.metric + 1 ≠ BIG ∧
    ∃ e, a.table.getEntry adv.dst = some e ∧ e.q.isSome ∧ adv.seqnum < e.seqnum

/-- Two entries of one destination with the same route and queue. -/
structure SameRoute (e e' : RtableEnt) : Prop where
  dst_eq : e'.dst = e.dst
  hop_eq : e'.hop = e.hop
  metric_eq : e'.metric = e.metric
  seqnum_eq : e'.seqnum = e.seqnum
  q_eq : e'.q = e.q

theorem Plain.sameRoute {f : RtableEnt → RtableEnt} (hf : Plain f) (e : RtableEnt) :
    SameRoute e (f e) :=
  ⟨hf.dst_eq e, hf.hop_eq e, hf.metric_eq e, hf.seqnum_eq e, hf.q_eq e⟩

theorem SameRoute.trans {e'' : RtableEnt} (h : SameRoute e e') (h' : SameRoute e' e'') :
    SameRoute e e'' :=
  ⟨h'.1.trans h.1, h'.2.trans h.2, h'.3.trans h.3, h'.4.trans h.4, h'.5.trans h.5⟩

/-- Other fields of the entry of `d` may have changed, and nothing else. -/
structure Touches (d : Addr) (a a' : DSDVAgent) : Prop where
  node : SameNode a a'
  table_eq : ∃ f, Plain f ∧ a'.table = a.table.map fun e => if e.dst = d then f e else e

theorem Touches.refl (d : Addr) (a : DSDVAgent) : Touches d a a := by
  refine ⟨⟨rfl, rfl, rfl⟩, id, ⟨fun _ => rfl, fun _ => rfl, fun _ => rfl, fun _ => rfl,
    fun _ => rfl⟩, ?_⟩
  simp

theorem touches_modify {f : RtableEnt → RtableEnt} (hf : Plain f) (d : Addr) (a : DSDVAgent) :
    Touches d a (a.modify d f) :=
  ⟨⟨rfl, rfl, rfl⟩, f, hf, rfl⟩

theorem Touches.trans (h : Touches d a a₁) (h' : Touches d a₁ a₂) : Touches d a a₂ := by
  obtain ⟨hn, f, hf, ht⟩ := h
  obtain ⟨hn', f', hf', ht'⟩ := h'
  refine ⟨⟨hn'.1.trans hn.1, hn'.2.trans hn.2, hn'.3.trans hn.3⟩, f' ∘ f, ?_, ?_⟩
  · exact ⟨fun e => (hf'.1 _).trans (hf.1 e), fun e => (hf'.2 _).trans (hf.2 e),
      fun e => (hf'.3 _).trans (hf.3 e), fun e => (hf'.4 _).trans (hf.4 e),
      fun e => (hf'.5 _).trans (hf.5 e)⟩
  · rw [ht', ht, List.map_map]
    apply List.map_congr_left
    intro e _
    by_cases hd : e.dst = d
    · simp [hd, hf.dst_eq]
    · simp [hd]

theorem Touches.getEntry_eq (h : Touches d a a') {d' : Addr} (hd : d' ≠ d) :
    a'.table.getEntry d' = a.table.getEntry d' := by
  obtain ⟨-, f, hf, ht⟩ := h
  have hm := getEntry_modify f hf.dst_eq a.table d d'
  rw [if_neg hd] at hm
  rw [ht]
  exact hm

theorem Touches.getEntry_some (h : Touches d a a') (he : a.table.getEntry d = some e) :
    ∃ e', a'.table.getEntry d = some e' ∧ SameRoute e e' := by
  obtain ⟨-, f, hf, ht⟩ := h
  have hm := getEntry_modify f hf.dst_eq a.table d d
  rw [if_pos rfl, he] at hm
  refine ⟨f e, ?_, hf.sameRoute e⟩
  rw [ht]
  exact hm

theorem Touches.sorted (h : Touches d a a') (hs : Sorted a.table) : Sorted a'.table := by
  obtain ⟨-, f, hf, ht⟩ := h
  rw [ht]
  exact hs.modify hf.dst_eq d

theorem Touches.tidy (ht : Touches d a a') (h : Tidy a) : Tidy a' ∧ Grows A a a' := by
  obtain ⟨hn, f, hf, hmap⟩ := ht
  exact h.plain (hf.at d) hn hmap

section Parts

theorem addEntry_eq {ent : RtableEnt} (h : a.addEntry ent = .ok a') :
    a' = { a with table := put ent a.table } ∧ ent.metric ≤ BIG := by
  rw [DSDVAgent.addEntry, RoutingTable.addEntry] at h
  by_cases hm : ent.metric ≤ BIG
  · rw [if_pos hm] at h
    exact ⟨(Except.ok.inj h).symm, hm⟩
  · rw [if_neg hm] at h
    cases h

theorem needTriggeredUpdate_touches {t : ℚ} (h : a.needTriggeredUpdate d t now = .ok a') :
    Touches d a a' := by
  rw [needTriggeredUpdate] at h
  split at h
  · have hf : Plain fun prte => { prte with triggerEvent := some t } :=
      ⟨fun _ => rfl, fun _ => rfl, fun _ => rfl, fun _ => rfl, fun _ => rfl⟩
    rw [← Except.ok.inj h]
    exact touches_modify hf d a
  · cases h

/-- What is learnt from an advert. -/
structure Learns (prte? : Option RtableEnt) (src : Addr) (adv : Advert) (rte : RtableEnt) :
    Prop where
  dst_eq : rte.dst = adv.dst
  hop_eq : rte.hop = src
  metric_eq : rte.metric = if adv.metric ≠ BIG then adv.metric + 1 else adv.metric
  seqnum_eq : rte.seqnum = adv.seqnum
  q_eq : rte.q = prte?.bind (·.q)

theorem learns_learnt (a : DSDVAgent) (prte? : Option RtableEnt) (src : Addr) (adv : Advert)
    (now : ℚ) : Learns prte? src adv (a.learnt prte? src adv now) := by
  cases prte? with
  | none =>
      rw [learnt]
      constructor <;> dsimp only [Option.getD_none, Option.bind_none] <;> split_ifs <;> rfl
  | some prte =>
      rw [learnt]
      constructor <;> dsimp only [Option.getD_some, Option.bind_some] <;> split_ifs <;> rfl

/-- The entry is written if its rank is as good as the stored one; otherwise the
stored route stays, which is as short or by a newer number. -/
theorem decideUpdate_cases {prte? : Option RtableEnt} {trigger : Bool}
    (hg : a.table.getEntry rte.dst = prte?)
    (h : a.decideUpdate prte? rte now = .ok (a₁, rte', trigger)) :
    SameRoute rte rte' ∧
      (a.addEntry rte' = .ok a₁ ∧ fresh rte.seqnum rte.metric ≤ a.rank rte.dst ∨
        trigger = false ∧ Touches rte.dst a a₁ ∧ ∃ prte, prte? = some prte ∧
          (prte.seqnum = rte.seqnum ∧ prte.metric ≤ rte.metric ∨ rte.seqnum < prte.seqnum)) := by
  cases prte? with
  | none =>
      rw [decideUpdate] at h
      split at h
      · cases h
      · rename_i a₂ hadd
        rw [Except.ok.injEq, Prod.mk.injEq, Prod.mk.injEq] at h
        obtain ⟨rfl, rfl, -⟩ := h
        refine ⟨?_, Or.inl ⟨hadd, ?_⟩⟩
        · split <;> exact ⟨rfl, rfl, rfl, rfl, rfl⟩
        · rw [rank, hg]
          exact le_top
  | some prte =>
      have hrank := rank_of_getEntry hg
      rw [decideUpdate] at h
      dsimp only at h
      split at h
      · rename_i hseq
        split at h
        · -- a shorter route
          rename_i hlt
          split at h
          · cases h
          · rename_i a₂ hadd
            rw [Except.ok.injEq, Prod.mk.injEq, Prod.mk.injEq] at h
            obtain ⟨rfl, rfl, -⟩ := h
            refine ⟨⟨rfl, rfl, rfl, rfl, rfl⟩, Or.inl ⟨hadd, ?_⟩⟩
            rw [hrank]
            exact fresh_le_iff.mpr (Or.inr ⟨hseq.symm, hlt.le⟩)
        · rename_i hle
          rw [Except.ok.injEq, Prod.mk.injEq, Prod.mk.injEq] at h
          obtain ⟨rfl, rfl, rfl⟩ := h
          exact ⟨⟨rfl, rfl, rfl, rfl, rfl⟩, Or.inr ⟨rfl, Touches.refl _ a, prte, rfl,
            Or.inl ⟨hseq, not_lt.mp hle⟩⟩⟩
      · rename_i hne
        split at h
        · -- a fresher number
          rename_i hlt
          split at h
          · cases h
          · rename_i a₂ hadd
            rw [Except.ok.injEq, Prod.mk.injEq, Prod.mk.injEq] at h
            obtain ⟨rfl, rfl, -⟩ := h
            refine ⟨⟨rfl, rfl, rfl, rfl, rfl⟩, Or.inl ⟨hadd, ?_⟩⟩
            rw [hrank]
            exact fresh_le_iff.mpr (Or.inl hlt)
        · rename_i hge
          have hlt : rte.seqnum < prte.seqnum := lt_of_le_of_ne (not_lt.mp hge) (Ne.symm hne)
          split at h
          · split at h
            · cases h
            · rename_i a₂ htrig
              rw [Except.ok.injEq, Prod.mk.injEq, Prod.mk.injEq] at h
              obtain ⟨rfl, rfl, rfl⟩ := h
              have hf : Plain fun prte : RtableEnt =>
                  { prte with advertiseOkAt := now, advertMetric := true } :=
                ⟨fun _ => rfl, fun _ => rfl, fun _ => rfl, fun _ => rfl, fun _ => rfl⟩
              exact ⟨⟨rfl, rfl, rfl, rfl, rfl⟩, Or.inr ⟨rfl,
                (touches_modify hf _ a).trans (needTriggeredUpdate_touches htrig), prte, rfl,
                Or.inr hlt⟩⟩
          · rw [Except.ok.injEq, Prod.mk.injEq, Prod.mk.injEq] at h
            obtain ⟨rfl, rfl, rfl⟩ := h
            exact ⟨⟨rfl, rfl, rfl, rfl, rfl⟩, Or.inr ⟨rfl, Touches.refl _ a, prte, rfl,
              Or.inr hlt⟩⟩

/-- Handing on the packets for a reachable destination changes its queue alone. -/
theorem release_reachable (fuel : ℕ) (he : a.table.getEntry d = some e) (hm : e.metric ≠ BIG)
    (hq : ∀ q, e.q = some q → ∀ p ∈ q, p.dst = d) (h : release d now fuel a = .ok a') :
    SameNode a a' ∧ (Sorted a.table → Sorted a'.table) ∧
      ∀ d', d' ≠ d → a'.table.getEntry d' = a.table.getEntry d' := by
  induction fuel generalizing a e with
  | zero => cases h
  | succ fuel ih =>
      rw [release, he, Option.bind_some] at h
      split at h
      · rename_i queued rest hqueue
        have hsame : ∀ e : RtableEnt, ({ e with q := some rest } : RtableEnt).dst = e.dst :=
          fun _ => rfl
        have hget := getEntry_modify _ hsame a.table d
        have hd : (a.modify d fun prte => { prte with q := some rest }).table.getEntry d =
            some { e with q := some rest } := by
          rw [DSDVAgent.modify, hget, if_pos rfl, he]
          rfl
        have hdst : queued.dst = d := hq _ hqueue queued List.mem_cons_self
        have hrest : ∀ q, some rest = some q → ∀ p ∈ q, p.dst = d := by
          rintro q ⟨⟩ p hp
          exact hq _ hqueue p (List.mem_cons_of_mem _ hp)
        rw [recv_of_reachable (e := { e with q := some rest }) (by rw [hdst]; exact hd) hm] at h
        obtain ⟨hn, hs, hother⟩ := ih (e := { e with q := some rest }) hd hm hrest h
        refine ⟨⟨hn.1, hn.2, hn.3⟩, fun hsort => hs (hsort.modify hsame d), ?_⟩
        intro d' hd'
        rw [hother d' hd']
        exact (hget d').trans (if_neg hd')
      · rw [← Except.ok.inj h]
        exact ⟨⟨rfl, rfl, rfl⟩, id, fun _ _ => rfl⟩

theorem triggerUpdate_touches {trigger : Bool} (h : a.triggerUpdate rte trigger now = .ok a') :
    Touches rte.dst a a' := by
  rw [triggerUpdate] at h
  split at h
  · split at h
    · exact needTriggeredUpdate_touches h
    · cases h
  · rw [← Except.ok.inj h]
    exact Touches.refl _ a

theorem sendQueued_cases (h : a.sendQueued rte now = .ok a') :
    a' = a ∧ (rte.q = none ∨ rte.metric = BIG) ∨
      ∃ q a₁, rte.q = some q ∧ rte.metric ≠ BIG ∧ release rte.dst now (turns q) a = .ok a₁ ∧
        a₁.addEntry { rte with q := none } = .ok a' := by
  rw [sendQueued] at h
  cases hq : rte.q with
  | none =>
      rw [hq] at h
      exact Or.inl ⟨(Except.ok.inj h).symm, Or.inl rfl⟩
  | some q =>
      rw [hq] at h
      dsimp only at h
      split at h
      · rename_i hm
        split at h
        · cases h
        · rename_i a₁ hrel
          exact Or.inr ⟨q, a₁, rfl, hm, hrel, h⟩
      · rename_i hm
        exact Or.inl ⟨(Except.ok.inj h).symm, Or.inr (not_not.mp hm)⟩

end Parts

section Turn

/-- The entry of another destination is written from an advert. -/
theorem Tidy.adopt (h : Tidy a) (hl : Learns (a.table.getEntry adv.dst) src adv rte)
    (hA : adv.metric ≠ BIG → A src adv.dst (fresh adv.seqnum adv.metric))
    (hne : adv.dst ≠ a.myaddr) (hrank : fresh rte.seqnum rte.metric ≤ a.rank rte.dst)
    {w : RtableEnt} (hdst : w.dst = rte.dst) (hhop : w.hop = rte.hop)
    (hmetric : w.metric = rte.metric) (hseq : w.seqnum = rte.seqnum)
    (hq : w.q = none ∨ w.metric = BIG ∧ w.q = rte.q) (hn : SameNode a a') (hs : Sorted a'.table)
    (hget : ∀ d, a'.table.getEntry d = if w.dst = d then some w else a.table.getEntry d) :
    Tidy a' ∧ Grows A a a' := by
  refine h.write hs hn.myaddr_eq hn.seqno_eq.ge hget ?_ ?_ ?_ ?_ ?_
  · rw [hdst, hseq, hmetric]
    exact hrank
  · intro hsome
    rcases hq with hnone | ⟨hbig, -⟩
    · rw [hnone] at hsome
      cases hsome
    · exact hbig
  · intro q hsome p hp
    rcases hq with hnone | ⟨-, hold⟩
    · rw [hnone] at hsome
      cases hsome
    · rw [hold, hl.q_eq] at hsome
      cases hg : a.table.getEntry adv.dst with
      | none =>
          rw [hg] at hsome
          cases hsome
      | some prte =>
          rw [hg, Option.bind_some] at hsome
          rw [hdst, hl.dst_eq]
          exact h.queue_dst adv.dst prte q hg hsome p hp
  · intro hown
    exact absurd (hl.dst_eq.symm.trans (hdst.symm.trans hown)) hne
  · intro _ hm
    -- the advert has one hop less
    have hrm := hl.metric_eq
    rw [← hmetric] at hrm
    have hadv : adv.metric ≠ BIG := by
      intro hbig
      rw [if_neg (not_not.mpr hbig)] at hrm
      exact hm (hrm.trans hbig)
    rw [if_pos hadv] at hrm
    refine Or.inr (Or.inr ⟨fresh adv.seqnum adv.metric, ?_, ?_⟩)
    · rw [hhop, hdst, hl.hop_eq, hl.dst_eq]
      exact hA hadv
    · rw [hrm, hseq, hl.seqnum_eq]
      exact fresh_lt_iff.mpr (Or.inr ⟨rfl, Nat.lt_succ_self _⟩)

/-- The queue of a destination that is not stale is given away only by an entry
that is written. -/
theorem not_sendQueued (h : Tidy a) (hl : Learns (a.table.getEntry adv.dst) src adv rte)
    (hstale : ¬a.StaleAt adv) {prte : RtableEnt} (hg : a.table.getEntry adv.dst = some prte)
    (hold : prte.seqnum = rte.seqnum ∧ prte.metric ≤ rte.metric ∨ rte.seqnum < prte.seqnum)
    {q : List Packet} (hq : rte.q = some q) (hm : rte.metric ≠ BIG) (hle : rte.metric ≤ BIG) :
    False := by
  have hpq : prte.q.isSome := by
    have heq := hl.q_eq
    rw [hg, Option.bind_some, hq] at heq
    rw [← heq]
    rfl
  rcases hold with ⟨-, hlong⟩ | hlt
  · rw [h.queue_big adv.dst prte hg hpq] at hlong
    exact hm (le_antisymm hle hlong)
  · have hrm := hl.metric_eq
    have hadv : adv.metric ≠ BIG := by
      intro hbig
      rw [if_neg (not_not.mpr hbig)] at hrm
      exact hm (hrm.trans hbig)
    rw [if_pos hadv] at hrm
    rw [hl.seqnum_eq] at hlt
    exact hstale ⟨hadv, fun hbig => hm (hrm.trans hbig), prte, hg, hpq, hlt⟩

/-- One turn of the loop, for a destination that is not stale. -/
theorem Tidy.processEntry (h : Tidy a)
    (hA : adv.metric ≠ BIG → A src adv.dst (fresh adv.seqnum adv.metric))
    (hstale : adv.dst ≠ a.myaddr → ¬a.StaleAt adv) (hp : a.processEntry src adv now = .ok a') :
    Tidy a' ∧ Grows A a a' ∧
      ∀ d, d ≠ adv.dst → a'.table.getEntry d = a.table.getEntry d := by
  rw [DSDVAgent.processEntry] at hp
  split at hp
  · rw [← Except.ok.inj hp]
    exact ⟨h, Grows.refl A a, fun _ _ => rfl⟩
  · rename_i hne
    dsimp only at hp
    have hl := learns_learnt a (a.table.getEntry adv.dst) src adv now
    generalize a.learnt (a.table.getEntry adv.dst) src adv now = rte at hp hl
    split at hp
    · cases hp
    · rename_i a₁ rte' trigger hdec
      obtain ⟨hsame, hcase⟩ := decideUpdate_cases (by rw [hl.dst_eq]) hdec
      split at hp
      · cases hp
      · rename_i a₂ htrig
        have htouch := triggerUpdate_touches htrig
        rw [hsame.dst_eq] at htouch
        rcases hcase with ⟨hadd, hrank⟩ | ⟨rfl, htouch₁, prte, hg, hold⟩
        · -- the entry is written
          obtain ⟨rfl, -⟩ := addEntry_eq hadd
          have hput := getEntry_put rte' a.table
          have hrte' := hput rte.dst
          rw [if_pos hsame.dst_eq] at hrte'
          obtain ⟨w, hw, hwsame⟩ := htouch.getEntry_some hrte'
          have hget₂ : ∀ d, a₂.table.getEntry d =
              if w.dst = d then some w else a.table.getEntry d := by
            intro d
            rw [hwsame.dst_eq, hsame.dst_eq]
            by_cases hd : d = rte.dst
            · rw [hd, if_pos rfl, hw]
            · rw [if_neg (Ne.symm hd), htouch.getEntry_eq hd]
              exact (hput d).trans (if_neg fun hd' => hd (hd'.symm.trans hsame.dst_eq))
          have hs₂ : Sorted a₂.table := htouch.sorted (h.sorted.put rte')
          have hn₂ : SameNode a a₂ := ⟨htouch.node.1, htouch.node.2, htouch.node.3⟩
          have hwrte := hsame.trans hwsame
          have hother : ∀ d, d ≠ adv.dst → a₂.table.getEntry d = a.table.getEntry d := by
            intro d hd
            rw [hget₂, if_neg]
            intro hd'
            exact hd (hd'.symm.trans (hwrte.dst_eq.trans hl.dst_eq))
          rcases sendQueued_cases hp with ⟨rfl, hqm⟩ | ⟨q, a₃, hq, hm, hrel, hadd'⟩
          · have hwq : w.q = none ∨ w.metric = BIG ∧ w.q = rte.q := by
              rcases hqm with hnone | hbig
              · exact Or.inl (hwsame.q_eq.trans hnone)
              · exact Or.inr ⟨hwsame.metric_eq.trans hbig, hwrte.q_eq⟩
            obtain ⟨ht, hg⟩ := h.adopt hl hA hne hrank hwrte.dst_eq hwrte.hop_eq hwrte.metric_eq
              hwrte.seqnum_eq hwq hn₂ hs₂ hget₂
            exact ⟨ht, hg, hother⟩
          · -- the late write has the route that was written before
            rw [hsame.dst_eq] at hrel
            have hw₂ := hget₂ rte.dst
            rw [if_pos hwrte.dst_eq] at hw₂
            have hwm : w.metric ≠ BIG := fun hbig => hm (hwsame.metric_eq.symm.trans hbig)
            have hwq : ∀ q, w.q = some q → ∀ p ∈ q, p.dst = rte.dst := by
              intro q' hq' p hp'
              rw [hwrte.q_eq, hl.q_eq] at hq'
              obtain ⟨prte, hg, hpq⟩ := Option.bind_eq_some_iff.mp hq'
              rw [hl.dst_eq]
              exact h.queue_dst adv.dst prte q' hg hpq p hp'
            obtain ⟨hn₃, hs₃, hother₃⟩ := release_reachable (turns q) hw₂ hwm hwq hrel
            obtain ⟨rfl, -⟩ := addEntry_eq hadd'
            have hn : SameNode a { a₃ with table := put { rte' with q := none } a₃.table } :=
              ⟨hn₃.1.trans hn₂.1, hn₃.2.trans hn₂.2, hn₃.3.trans hn₂.3⟩
            have hget : ∀ d, getEntry (put { rte' with q := none } a₃.table) d =
                if rte'.dst = d then some { rte' with q := none } else a.table.getEntry d := by
              intro d
              rw [getEntry_put]
              by_cases hd : rte'.dst = d
              · exact (if_pos hd).trans (if_pos hd).symm
              · have hd' : d ≠ rte.dst := fun heq => hd (hsame.dst_eq.trans heq.symm)
                refine (if_neg hd).trans (Eq.trans ?_ (if_neg hd).symm)
                rw [hother₃ d hd', hother d (hl.dst_eq ▸ hd')]
            obtain ⟨ht, hgrow⟩ := h.adopt (w := { rte' with q := none }) hl hA hne hrank
              hsame.dst_eq hsame.hop_eq hsame.metric_eq hsame.seqnum_eq (Or.inl rfl) hn
              ((hs₃ hs₂).put _) hget
            refine ⟨ht, hgrow, fun d hd => (hget d).trans (if_neg ?_)⟩
            intro hd'
            exact hd (hd'.symm.trans (hsame.dst_eq.trans hl.dst_eq))
        · -- the stored route stays
          obtain ⟨ht, hgrow⟩ := (htouch₁.trans htouch).tidy (A := A) h
          have hother : ∀ d, d ≠ adv.dst → a₂.table.getEntry d = a.table.getEntry d := by
            intro d hd
            rw [← hl.dst_eq] at hd
            exact (htouch₁.trans htouch).getEntry_eq hd
          rcases sendQueued_cases hp with ⟨rfl, -⟩ | ⟨q, a₃, hq, hm, -, hadd'⟩
          · exact ⟨ht, hgrow, hother⟩
          · obtain ⟨-, hle⟩ := addEntry_eq hadd'
            rw [hsame.q_eq] at hq
            rw [hsame.metric_eq] at hm
            have hle' : rte.metric ≤ BIG := hsame.metric_eq.symm.trans_le hle
            exact (not_sendQueued h hl (hstale hne) hg hold hq hm hle').elim

end Turn

section Handling

theorem StaleAt.congr (hg : a'.table.getEntry adv.dst = a.table.getEntry adv.dst)
    (h : a'.StaleAt adv) : a.StaleAt adv := by
  obtain ⟨hm, hm', hex⟩ := h
  rw [hg] at hex
  exact ⟨hm, hm', hex⟩

/-- The destinations of an update, one after the other. -/
theorem Tidy.processEntries {advs : List Advert} (h : Tidy a)
    (hdsts : advs.Pairwise fun x y => x.dst ≠ y.dst)
    (hA : ∀ adv ∈ advs, adv.metric ≠ BIG → A src adv.dst (fresh adv.seqnum adv.metric))
    (hstale : ∀ adv ∈ advs, adv.dst ≠ a.myaddr → ¬a.StaleAt adv)
    (hp : DSDVAgent.processEntries src now advs a = .ok a') : Tidy a' ∧ Grows A a a' := by
  induction advs generalizing a with
  | nil =>
      rw [← Except.ok.inj hp]
      exact ⟨h, Grows.refl A a⟩
  | cons adv rest ih =>
      rw [DSDVAgent.processEntries] at hp
      split at hp
      · cases hp
      · rename_i a₁ hone
        obtain ⟨hhead, htail⟩ := List.pairwise_cons.mp hdsts
        obtain ⟨h₁, hgrow₁, hother⟩ := h.processEntry (hA adv List.mem_cons_self)
          (hstale adv List.mem_cons_self) hone
        -- a turn does not make the destinations after it stale
        have hstale₁ : ∀ adv' ∈ rest, adv'.dst ≠ a₁.myaddr → ¬a₁.StaleAt adv' := by
          intro adv' hadv' hne hst
          rw [hgrow₁.myaddr_eq] at hne
          have hg := hother adv'.dst (hhead adv' hadv').symm
          exact hstale adv' (List.mem_cons_of_mem _ hadv') hne (hst.congr hg)
        obtain ⟨h₂, hgrow₂⟩ := ih h₁ htail
          (fun adv' hadv' => hA adv' (List.mem_cons_of_mem _ hadv')) hstale₁ hp
        exact ⟨h₂, hgrow₁.trans hgrow₂⟩

/-- An update of another node, without a stale destination. -/
theorem Tidy.processUpdate {u : Update} (h : Tidy a) (hsrc : u.src ≠ a.myaddr)
    (hdsts : u.entries.Pairwise fun x y => x.dst ≠ y.dst)
    (hA : ∀ adv ∈ u.entries, adv.metric ≠ BIG → A u.src adv.dst (fresh adv.seqnum adv.metric))
    (hstale : ∀ adv ∈ u.adverts, adv.dst ≠ a.myaddr → ¬a.StaleAt adv)
    (hp : a.processUpdate u now = .ok a') : Tidy a' ∧ Grows A a a' := by
  rw [DSDVAgent.processUpdate] at hp
  split at hp
  · cases hp
  · rename_i a₁ hloop
    obtain ⟨h₁, hgrow₁⟩ := h.processEntries (hdsts.sublist (List.take_sublist _ _))
      (fun adv hadv => hA adv (List.mem_of_mem_take hadv)) hstale hloop
    split at hp
    · obtain ⟨h₂, hgrow₂⟩ := h₁.modify (A := A)
        (f := fun prte => { prte with timeoutEvent := true })
        ⟨fun _ => rfl, fun _ => rfl, fun _ => rfl, fun _ => rfl, fun _ => rfl⟩ u.src
      rw [← Except.ok.inj hp]
      exact ⟨h₂, hgrow₁.trans hgrow₂⟩
    · -- the fake entry leads to the neighbour itself
      rename_i hnone
      obtain ⟨ha', -⟩ := addEntry_eq hp
      have hne : u.src ≠ a₁.myaddr := hgrow₁.myaddr_eq ▸ hsrc
      have hfake : Tidy a' ∧ Grows A a₁ a' := by
        rw [ha']
        refine h₁.write (h₁.sorted.put _) rfl (le_refl _) (getEntry_put _ a₁.table) ?_ ?_ ?_ ?_ ?_
        · rw [rank, hnone]
          exact le_top
        · rintro ⟨⟩
        · rintro q ⟨⟩
        · intro hown
          exact absurd hown hne
        · intro _ _
          exact Or.inl rfl
      exact ⟨hfake.1, hgrow₁.trans hfake.2⟩

end Handling

end DSDVAgent

end ComputerNetworking.Dsdv
