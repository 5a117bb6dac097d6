import ComputerNetworking.Dsdv.Orderly

/-!
# What an update does to the packets that wait

One destination of an update leaves the packets of its queue waiting, or each of them
leaves the agent once, or the loop over the queue never ends (`Orderly.processEntry`). The
last happens if the agent knows a newer sequence number than the update, and has queued a
packet of its own, which `recv` puts back into the queue whenever it is given to it.
-/

set_option autoImplicit false

namespace ComputerNetworking.Dsdv

open ComputerNetworking.Foundations RoutingTable

namespace DSDVAgent

variable {a a' a₁ a₂ : DSDVAgent} {d : Addr} {e prte rte rte' : RtableEnt} {t now : ℚ}
  {p : Packet} {q : List Packet} {adv : Advert} {src baseStn : Addr} {out : List Exit}

/-- The table has a route to `d`. -/
def Reaches (a : DSDVAgent) (d : Addr) : Prop :=
  ∃ e, a.table.getEntry d = some e ∧ e.metric ≠ BIG

/-- The destination `d` has the metric `BIG` in the table. -/
def Unreached (a : DSDVAgent) (d : Addr) : Prop :=
  ∃ e, a.table.getEntry d = some e ∧ e.metric = BIG

/-- How a packet that waited for `d` may leave: to the target, because `a` now has a route,
or because its time to live ran out. -/
inductive Due (a : DSDVAgent) (d : Addr) (p : Packet) : Exit → Prop where
  | handed (ttl : ℤ) (hop : Addr) (h : a.Reaches d) : Due a d p (.target { p with ttl } hop)
  | expired : Due a d p (.drop { p with ttl := 0 } .ttl)

/-- What became of each packet that waited for `d`, in order: it waits, or it left. -/
structure Fates (a a' : DSDVAgent) (d : Addr) (out : List Exit)
    (fates : List (Packet × Option Exit)) : Prop where
  packets : fates.map Prod.fst = a.waiting d
  waits : a'.waiting d = (fates.filter (·.2.isNone)).map Prod.fst
  leaves : out.Perm (fates.filterMap Prod.snd)
  due : ∀ fate ∈ fates, ∀ x, fate.2 = some x → Due a' d fate.1 x
  still : a'.Unreached d → ∀ fate ∈ fates, fate.2 = none

/-- From `a` to `a'` every packet that waited for `d` is waiting, or left once, as in `out`. -/
def Settled (a a' : DSDVAgent) (d : Addr) (out : List Exit) : Prop :=
  ∃ fates, Fates a a' d out fates

/-- The update is processed to its end, and every packet that waited has settled. -/
def Settles (baseStn : Addr) (a : DSDVAgent) (u : Update) (now : ℚ) : Prop :=
  ∃ a', a.processUpdate u now = .ok a' ∧
    ∀ d, Settled a a' d ((a.updateExits baseStn u now).filter (·.packet.dst = d))

/-- The packet comes back whenever it is given to the agent and there is no route. -/
def Returns (a : DSDVAgent) (p : Packet) : Prop := p.src = a.myaddr ∨ p.ttl ≤ 0

/-- The advert lists as reachable a destination that the agent knows by a newer number, and
for which it has queued a packet that returns. -/
def StallsAt (a : DSDVAgent) (adv : Advert) : Prop :=
  adv.dst ≠ a.myaddr ∧ a.StaleAt adv ∧ ∃ p ∈ a.waiting adv.dst, a.Returns p

/-- An update that the agent stalls at. -/
def Stalls (a : DSDVAgent) (u : Update) : Prop := ∃ adv ∈ u.adverts, a.StallsAt adv

section Fates

/-- All packets wait. -/
theorem settled_waits (h : a'.waiting d = a.waiting d) : Settled a a' d [] := by
  refine ⟨(a.waiting d).map (·, none), ?_, ?_, ?_, ?_, ?_⟩
  · rw [List.map_map]
    exact List.map_id _
  · have hall : ((a.waiting d).map (·, (none : Option Exit))).filter (·.2.isNone) =
        (a.waiting d).map (·, none) := by simp
    rw [hall, List.map_map, h]
    exact (List.map_id _).symm
  · rw [List.filterMap_map]
    have hnone : (a.waiting d).filterMap (Prod.snd ∘ (·, (none : Option Exit))) = [] := by simp
    rw [hnone]
  · intro fate hfate x hx
    obtain ⟨p, -, rfl⟩ := List.mem_map.mp hfate
    cases hx
  · intro _ fate hfate
    obtain ⟨p, -, rfl⟩ := List.mem_map.mp hfate
    rfl

/-- All packets leave. -/
theorem settled_leaves {f : Packet → Exit} (hnone : a'.waiting d = [])
    (hout : out.Perm ((a.waiting d).map f)) (hdue : ∀ p ∈ a.waiting d, Due a' d p (f p))
    (hreach : a'.Reaches d) : Settled a a' d out := by
  refine ⟨(a.waiting d).map fun p => (p, some (f p)), ?_, ?_, ?_, ?_, ?_⟩
  · rw [List.map_map]
    exact List.map_id _
  · have hall : ((a.waiting d).map fun p => (p, some (f p))).filter (·.2.isNone) = [] := by simp
    rw [hall, hnone]
    rfl
  · rw [List.filterMap_map]
    have hsome : (a.waiting d).filterMap (Prod.snd ∘ fun p => (p, some (f p))) =
        (a.waiting d).map f := congrFun List.filterMap_eq_map (a.waiting d)
    rw [hsome]
    exact hout
  · intro fate hfate x hx
    obtain ⟨p, hp, rfl⟩ := List.mem_map.mp hfate
    exact Option.some.inj hx ▸ hdue p hp
  · rintro ⟨e, he, hbig⟩
    obtain ⟨e', he', hne⟩ := hreach
    rw [he] at he'
    exact absurd (Option.some.inj he' ▸ hbig) hne

/-- Whether packets have settled depends on the route and the queue that are left. -/
theorem Settled.congr (h : Settled a a₁ d out) (hw : a'.waiting d = a₁.waiting d)
    (hr : a₁.Reaches d → a'.Reaches d) (hu : a'.Unreached d → a₁.Unreached d) :
    Settled a a' d out := by
  obtain ⟨fates, hf⟩ := h
  refine ⟨fates, hf.packets, hw.trans hf.waits, hf.leaves, fun fate hfate x hx => ?_,
    fun hbig => hf.still (hu hbig)⟩
  cases hf.due fate hfate x hx with
  | handed ttl hop hroute => exact .handed ttl hop (hr hroute)
  | expired => exact .expired

theorem waiting_eq (he : a.table.getEntry d = some e) : a.waiting d = e.q.getD [] := by
  rw [waiting, he]
  rfl

end Fates

section Parts

/-- The times of what is learnt from an advert. -/
structure Timed (rte : RtableEnt) (now : ℚ) : Prop where
  wst_nonneg : 0 ≤ rte.wst
  changedAt_eq : rte.changedAt = now
  newSeqnumAt_le : rte.newSeqnumAt ≤ now
  advertiseOkAt_ge : now ≤ rte.advertiseOkAt

theorem timed_learnt (h : Orderly a t) (ht : t ≤ now) (src : Addr) (adv : Advert) :
    Timed (a.learnt (a.table.getEntry adv.dst) src adv now) now := by
  have hw := h.sound.wst0_nonneg
  cases hg : a.table.getEntry adv.dst with
  | none =>
      rw [learnt]
      constructor <;> dsimp only [Option.getD_none] <;> split_ifs <;>
        first | exact hw | rfl | exact le_rfl | linarith
  | some prte =>
      have hk := h.kept adv.dst prte hg
      have hpast := hk.past.trans ht
      have hsettle : 0 ≤ a.cfg.alpha * prte.wst +
          (1 - a.cfg.alpha) * (prte.changedAt - prte.newSeqnumAt) :=
        add_nonneg (mul_nonneg h.sound.alpha_nonneg hk.wst_nonneg)
          (mul_nonneg (sub_nonneg.mpr h.sound.alpha_le_one) (sub_nonneg.mpr hk.since))
      have hwst := hk.wst_nonneg
      have hnew := hk.since.trans hpast
      rw [learnt]
      constructor <;> dsimp only [Option.getD_some] <;> split_ifs <;>
        first | exact hwst | exact hsettle | rfl | exact le_rfl | exact hnew | linarith

theorem modify_id (a : DSDVAgent) (d : Addr) : a.modify d id = a := by
  have htable : a.table.modify d id = a.table := by
    rw [RoutingTable.modify]
    simp
  exact congrArg (fun table => { a with table }) htable

/-- Two changes of one entry that keep its destination. -/
theorem modify_modify {f g : RtableEnt → RtableEnt} (hf : ∀ e, (f e).dst = e.dst)
    (a : DSDVAgent) (d : Addr) : (a.modify d f).modify d g = a.modify d (g ∘ f) := by
  have htable : (a.table.modify d f).modify d g = a.table.modify d (g ∘ f) := by
    rw [RoutingTable.modify, RoutingTable.modify, RoutingTable.modify, List.map_map]
    refine List.map_congr_left fun e _ => ?_
    by_cases hd : e.dst = d <;> simp [hd, hf]
  exact congrArg (fun table => { a with table }) htable

theorem quiet_id : Quiet id :=
  ⟨⟨fun _ => rfl, fun _ => rfl, fun _ => rfl, fun _ => rfl, fun _ => rfl⟩, fun _ => rfl,
    fun _ => rfl, fun _ => rfl⟩

theorem quiet_comp {f g : RtableEnt → RtableEnt} (hg : Quiet g) (hf : Quiet f) : Quiet (g ∘ f) :=
  ⟨⟨fun e => (hg.plain.dst_eq (f e)).trans (hf.plain.dst_eq e),
      fun e => (hg.plain.hop_eq (f e)).trans (hf.plain.hop_eq e),
      fun e => (hg.plain.metric_eq (f e)).trans (hf.plain.metric_eq e),
      fun e => (hg.plain.seqnum_eq (f e)).trans (hf.plain.seqnum_eq e),
      fun e => (hg.plain.q_eq (f e)).trans (hf.plain.q_eq e)⟩,
    fun e => (hg.wst_eq (f e)).trans (hf.wst_eq e),
    fun e => (hg.changedAt_eq (f e)).trans (hf.changedAt_eq e),
    fun e => (hg.newSeqnumAt_eq (f e)).trans (hf.newSeqnumAt_eq e)⟩

/-- The entry is written, or the stored route, which is as short or by a newer number, stays. -/
inductive Decided (a : DSDVAgent) (rte : RtableEnt) (now : ℚ) :
    DSDVAgent → RtableEnt → Bool → Prop where
  | written (rte' : RtableEnt) (trigger : Bool) (same : SameRoute rte rte') (timed : Timed rte' now)
      (fresher : ∀ prte, a.table.getEntry rte.dst = some prte → prte.seqnum ≤ rte.seqnum) :
      Decided a rte now { a with table := put rte' a.table } rte' trigger
  | stays (f : RtableEnt → RtableEnt) (prte : RtableEnt) (quiet : Quiet f)
      (get : a.table.getEntry rte.dst = some prte)
      (known : prte.seqnum = rte.seqnum ∧ prte.metric ≤ rte.metric ∨ rte.seqnum < prte.seqnum) :
      Decided a rte now (a.modify rte.dst f) rte false

theorem addEntry_ok (a : DSDVAgent) (hm : e.metric ≤ BIG) :
    a.addEntry e = .ok { a with table := put e a.table } := by
  rw [DSDVAgent.addEntry, RoutingTable.addEntry, if_pos hm]

/-- `decideUpdate` comes to a decision. -/
theorem decideUpdate_ok (hm : rte.metric ≤ BIG) (ht : Timed rte now) :
    ∃ a₁ rte' trigger, a.decideUpdate (a.table.getEntry rte.dst) rte now = .ok (a₁, rte', trigger) ∧
      Decided a rte now a₁ rte' trigger := by
  cases hg : a.table.getEntry rte.dst with
  | none =>
      have hfresher : ∀ prte, a.table.getEntry rte.dst = some prte → prte.seqnum ≤ rte.seqnum :=
        fun prte hprte => by rw [hg] at hprte; cases hprte
      rw [decideUpdate]
      by_cases hlt : rte.metric < BIG
      · rw [if_pos hlt, addEntry_ok a (e := { rte with advertMetric := true }) hm]
        exact ⟨_, _, _, rfl,
          .written _ _ ⟨rfl, rfl, rfl, rfl, rfl⟩ ⟨ht.1, ht.2, ht.3, ht.4⟩ hfresher⟩
      · rw [if_neg hlt, addEntry_ok a hm]
        exact ⟨_, _, _, rfl, .written _ _ ⟨rfl, rfl, rfl, rfl, rfl⟩ ht hfresher⟩
  | some prte =>
      have hfresher : prte.seqnum ≤ rte.seqnum →
          ∀ prte, a.table.getEntry rte.dst = some prte → prte.seqnum ≤ rte.seqnum := by
        intro hseq prte' hprte'
        rw [hg] at hprte'
        exact Option.some.inj hprte' ▸ hseq
      rw [decideUpdate]
      dsimp only
      by_cases hseq : prte.seqnum = rte.seqnum
      · rw [if_pos hseq]
        by_cases hlt : rte.metric < prte.metric
        · rw [if_pos hlt, addEntry_ok a (e := { rte with
            advertMetric := decide (rte.metric ≠ prte.lastAdvertisedMetric) }) hm]
          exact ⟨_, _, _, rfl, .written _ _ ⟨rfl, rfl, rfl, rfl, rfl⟩ ⟨ht.1, ht.2, ht.3, ht.4⟩
            (hfresher hseq.le)⟩
        · rw [if_neg hlt]
          have hstays : Decided a rte now (a.modify rte.dst id) rte false :=
            .stays id prte quiet_id hg (Or.inl ⟨hseq, not_lt.mp hlt⟩)
          rw [modify_id] at hstays
          exact ⟨_, _, _, rfl, hstays⟩
      · rw [if_neg hseq]
        by_cases hlt : prte.seqnum < rte.seqnum
        · rw [if_pos hlt, addEntry_ok a (e := { rte with
            advertSeqnum := true
            advertMetric := decide (rte.metric ≠ prte.lastAdvertisedMetric) }) hm]
          exact ⟨_, _, _, rfl, .written _ _ ⟨rfl, rfl, rfl, rfl, rfl⟩ ⟨ht.1, ht.2, ht.3, ht.4⟩
            (hfresher hlt.le)⟩
        · rw [if_neg hlt]
          have hknown := Or.inr (a := prte.seqnum = rte.seqnum ∧ prte.metric ≤ rte.metric)
            (lt_of_le_of_ne (not_lt.mp hlt) (Ne.symm hseq))
          split
          · rw [needTriggeredUpdate, if_pos le_rfl]
            have hstays : Decided a rte now _ rte false := .stays
              (fun prte => { prte with triggerEvent := some now, advertiseOkAt := now,
                                       advertMetric := true })
              prte ⟨⟨fun _ => rfl, fun _ => rfl, fun _ => rfl, fun _ => rfl, fun _ => rfl⟩,
                fun _ => rfl, fun _ => rfl, fun _ => rfl⟩ hg hknown
            refine ⟨_, _, _, rfl, ?_⟩
            rw [modify_modify]
            · exact hstays
            · exact fun _ => rfl
          · have hstays : Decided a rte now (a.modify rte.dst id) rte false :=
              .stays id prte quiet_id hg hknown
            rw [modify_id] at hstays
            exact ⟨_, _, _, rfl, hstays⟩

/-- A triggered update is scheduled, if the entry was written. -/
theorem triggerUpdate_ok {trigger : Bool} (hd : Decided a rte now a₁ rte' trigger) :
    ∃ g, Quiet g ∧ a₁.triggerUpdate rte' trigger now = .ok (a₁.modify rte.dst g) := by
  have hquiet : (false : Bool) = trigger ∨ trigger = true := by cases trigger <;> simp
  rcases hquiet with rfl | rfl
  · refine ⟨id, quiet_id, ?_⟩
    rw [modify_id]
    rfl
  · cases hd with
    | written _ _ same timed _ =>
        have hentry : getEntry (put rte' a.table) rte'.dst = some rte' := by
          rw [getEntry_put, if_pos rfl]
        refine ⟨_, quiet_triggerEvent fun _ => some rte'.advertiseOkAt, ?_⟩
        rw [triggerUpdate, if_pos rfl, hentry, if_pos (by simp), needTriggeredUpdate,
          if_pos timed.advertiseOkAt_ge, same.dst_eq]

end Parts

section Turn

/-- The agent `a₁` has the entry `e` for `d`, and is else as `a`. -/
structure Rewrites (a : DSDVAgent) (d : Addr) (a₁ : DSDVAgent) (e : RtableEnt) : Prop where
  sorted : Sorted a₁.table
  settings : SameSettings a a₁
  other : ∀ d', d' ≠ d → a₁.table.getEntry d' = a.table.getEntry d'
  get : a₁.table.getEntry d = some e

theorem Rewrites.modify (h : Rewrites a d a₁ e) {g : RtableEnt → RtableEnt} (hg : Quiet g) :
    Rewrites a d (a₁.modify d g) (g e) := by
  have hget := getEntry_modify g hg.plain.dst_eq a₁.table d
  refine ⟨h.sorted.modify hg.plain.dst_eq d, h.settings.trans ⟨rfl, rfl⟩, fun d' hd => ?_, ?_⟩
  · exact ((hget d').trans (if_neg hd)).trans (h.other d' hd)
  · refine (hget d).trans ?_
    rw [if_pos rfl, h.get]
    rfl

theorem Rewrites.orderly (h : Rewrites a d a₁ e) (ha : Orderly a t) (ht : t ≤ now)
    (he : Kept a now e) : Orderly a₁ now :=
  ha.write ht h.settings h.sorted h.other fun w hw => by
    rw [h.get] at hw
    exact Option.some.inj hw ▸ he

theorem rewrites_put (hs : Sorted a.table) (w : RtableEnt) :
    Rewrites a w.dst { a with table := put w a.table } w := by
  refine ⟨hs.put w, ⟨rfl, rfl⟩, fun d' hd => ?_, ?_⟩
  · exact (getEntry_put w a.table d').trans (if_neg (Ne.symm hd))
  · exact (getEntry_put w a.table w.dst).trans (if_pos rfl)

theorem rewrites_self (hs : Sorted a.table) (he : a.table.getEntry d = some e) :
    Rewrites a d a e := ⟨hs, ⟨rfl, rfl⟩, fun _ _ => rfl, he⟩

/-- The agent behind the loop over the queue: the zero'd queue is recorded. -/
def recorded (a : DSDVAgent) (rte : RtableEnt) : DSDVAgent :=
  { a.setQueue rte.dst [] with
    table := put { rte with q := none } (a.setQueue rte.dst []).table }

theorem Rewrites.recorded (h : Rewrites a rte.dst a₁ e) :
    Rewrites a rte.dst (a₁.recorded rte) { rte with q := none } := by
  have hs := sorted_setQueue h.sorted rte.dst []
  have hw := rewrites_put hs { rte with q := none }
  refine ⟨hw.sorted, h.settings.trans ⟨rfl, rfl⟩, fun d' hd => ?_, hw.get⟩
  exact (hw.other d' hd).trans ((getEntry_setQueue_of_ne hd []).trans (h.other d' hd))

/-- The loop over the queue of `rte` empties the queue of the table's entry. -/
theorem sendQueued_release (baseStn : Addr) (now : ℚ) (hr : Rewrites a rte.dst a₁ e)
    (he : e.q = some q) (hq : rte.q = some q)
    (hm : rte.metric ≠ BIG) (hle : rte.metric ≤ BIG) (hqueue : ∀ p ∈ q, Queueable a₁ rte.dst p)
    (hlen : q.length ≤ MAX_QUEUE_LENGTH) :
    (Requeue.drain (a₁.turn e) (turns q) q = none →
        a₁.sendQueued rte now = .error .endless) ∧
      ∀ out, Requeue.drain (a₁.turn e) (turns q) q = some out →
        a₁.sendQueued rte now = .ok (a₁.recorded rte) ∧
          a₁.sendQueuedExits baseStn rte now = out := by
  obtain ⟨hnone, hsome⟩ :=
    release_setQueue baseStn now hr.get (turns q) hqueue hlen
  rw [setQueue_self hr.sorted hr.get he] at hnone hsome
  rw [sendQueued, sendQueuedExits, hq]
  dsimp only
  rw [if_pos hm, if_pos hm]
  refine ⟨fun h => by rw [hnone h], fun out h => ?_⟩
  obtain ⟨hok, hexits⟩ := hsome out h
  rw [hok, hexits]
  exact ⟨addEntry_ok _ (e := { rte with q := none }) hle, rfl⟩

/-- How a packet leaves that is given to an agent with a route. -/
def leaves (a : DSDVAgent) (e : RtableEnt) (p : Packet) : Exit :=
  if (a.stamped p).ttl = 0 then .drop (a.stamped p) .ttl
  else .target (a.stamped p) (if e.metric > 1 then e.hop else e.dst)

/-- How a packet leaves whose time to live runs out. -/
def expires (p : Packet) : Exit := .drop { p with ttl := 0 } .ttl

theorem turns_eq (q : List Packet) : turns q = Requeue.turns (·.ttl.toNat) q + 1 := rfl

theorem length_lt_turns (q : List Packet) : q.length < turns q := by
  rw [turns_eq]
  induction q with
  | nil => exact Nat.zero_lt_one
  | cons p q ih =>
      rw [Requeue.turns_cons, List.length_cons]
      omega

/-- With a route, every packet leaves in its turn. -/
theorem drain_reached (a : DSDVAgent) (hm : e.metric ≠ BIG) (q : List Packet) :
    Requeue.drain (a.turn e) (turns q) q = some (q.map (a.leaves e)) := by
  refine Requeue.drain_map (fun p _ => ?_) (length_lt_turns q)
  rw [turn, leaves, if_pos hm]
  split <;> rfl

/-- Without a route, packets of other nodes go round until their time to live runs out. -/
theorem drain_expires (hm : e.metric = BIG) (hq : ∀ p ∈ q, ¬a.Returns p) :
    ∃ out, Requeue.drain (a.turn e) (turns q) q = some out ∧ out.Perm (q.map expires) := by
  have hstamp : ∀ p, ¬a.Returns p → a.stamped p = { p with ttl := p.ttl - 1 } := by
    intro p hp
    rw [stamped, if_neg fun hsrc => hp (Or.inl hsrc)]
  have hturn : ∀ p, ¬a.Returns p → a.turn e p =
      if p.ttl - 1 = 0 then .inr (expires p) else .inl { p with ttl := p.ttl - 1 } := by
    intro p hp
    rw [turn, hstamp p hp, if_neg (not_not.mpr hm)]
    by_cases hone : p.ttl - 1 = 0
    · rw [if_pos hone, if_pos hone, expires, hone]
    · rw [if_neg hone, if_neg hone]
  refine Requeue.drain_perm (fun p => p.ttl.toNat) (fun p => ¬a.Returns p) ?_ ?_ hq
    (Nat.lt_succ_self _)
  · intro p p' hp hback
    rw [hturn p hp] at hback
    split at hback
    · cases hback
    · rename_i hone
      rw [← Sum.inl.inj hback]
      rintro (hsrc | httl)
      · exact hp (Or.inl hsrc)
      · refine hp (Or.inr ?_)
        dsimp only at httl
        omega
  · intro p hp
    have hpos : 0 < p.ttl := not_le.mp fun hle => hp (Or.inr hle)
    by_cases hone : p.ttl - 1 = 0
    · exact Or.inl ((hturn p hp).trans (if_pos hone))
    · refine Or.inr ⟨_, (hturn p hp).trans (if_neg hone), ?_, rfl⟩
      dsimp only
      omega

/-- Without a route, a packet that returns keeps the loop going. -/
theorem drain_returns (hm : e.metric = BIG) (hq : ∃ p ∈ q, a.Returns p) (fuel : ℕ) :
    Requeue.drain (a.turn e) fuel q = none := by
  refine Requeue.drain_endless a.Returns (fun p hp => ?_) hq fuel
  refine ⟨a.stamped p, ?_, ?_⟩
  · have hne : (a.stamped p).ttl ≠ 0 := by
      rw [stamped]
      dsimp only
      split
      · decide
      · rename_i hsrc
        have hle := hp.resolve_left hsrc
        omega
    rw [turn, if_neg hne, if_neg (not_not.mpr hm)]
  · rcases hp with hsrc | hle
    · exact Or.inl hsrc
    · by_cases hsrc : p.src = a.myaddr
      · exact Or.inl hsrc
      · refine Or.inr ?_
        rw [stamped, if_neg hsrc]
        dsimp only
        omega

/-- However many turns it is given, the loop does not empty a queue with such a packet. -/
theorem release_endless (he : a.table.getEntry d = some e) (hm : e.metric = BIG)
    (hqueue : ∀ p ∈ q, Queueable a d p) (hlen : q.length ≤ MAX_QUEUE_LENGTH)
    (hq : ∃ p ∈ q, a.Returns p) (fuel : ℕ) :
    release d now fuel (a.setQueue d q) = .error .endless :=
  (release_setQueue 0 now he fuel hqueue hlen).1 (drain_returns hm hq fuel)

/-- What one destination of an update does if it comes to its end. -/
structure Turned (a : DSDVAgent) (d : Addr) (now : ℚ) (a' : DSDVAgent) (out : List Exit) :
    Prop where
  orderly : Orderly a' now
  settings : SameSettings a a'
  other : ∀ d', d' ≠ d → a'.table.getEntry d' = a.table.getEntry d'
  settled : Settled a a' d out

/-- No packet leaves. -/
theorem Rewrites.turned (hr : Rewrites a d a₁ e) (ha : Orderly a t) (ht : t ≤ now)
    (he : Kept a now e) (hq : e.q.getD [] = a.waiting d) : Turned a d now a₁ [] :=
  ⟨hr.orderly ha ht he, hr.settings, hr.other, settled_waits ((waiting_eq hr.get).trans hq)⟩

/-- The packets leave, and the zero'd queue is recorded. -/
theorem Rewrites.turned_recorded (hr : Rewrites a rte.dst a₁ e) (ha : Orderly a t) (ht : t ≤ now)
    (htimed : Timed rte now) (hm : rte.metric ≠ BIG) (hle : rte.metric ≤ BIG)
    {f : Packet → Exit} (hout : out.Perm ((a.waiting rte.dst).map f))
    (hdue : (a₁.recorded rte).Reaches rte.dst →
      ∀ p ∈ a.waiting rte.dst, Due (a₁.recorded rte) rte.dst p (f p)) :
    Turned a rte.dst now (a₁.recorded rte) out := by
  have hrec := hr.recorded
  have hreach : (a₁.recorded rte).Reaches rte.dst := ⟨_, hrec.get, hm⟩
  refine ⟨hrec.orderly ha ht ⟨hle, htimed.1, ?_, ?_, ?_, ?_, ?_⟩, hrec.settings, hrec.other, ?_⟩
  · exact htimed.newSeqnumAt_le.trans htimed.changedAt_eq.ge
  · exact htimed.changedAt_eq.le
  · rintro q ⟨⟩
  · rintro q ⟨⟩
  · rintro q ⟨⟩
  · exact settled_leaves (waiting_eq hrec.get) hout (hdue hreach) hreach

theorem leaves_due (hreach : a'.Reaches d) (a : DSDVAgent) (e : RtableEnt) (p : Packet) :
    Due a' d p (a.leaves e p) := by
  rw [leaves]
  split
  · rename_i hzero
    have hst : a.stamped p = { p with ttl := 0 } := by
      rw [← hzero]
      rfl
    rw [hst]
    exact .expired
  · exact .handed _ _ hreach

/-- The queue of what is learnt is the one of the table's entry. -/
theorem Orderly.learnt_queue (h : Orderly a t)
    (hl : Learns (a.table.getEntry adv.dst) src adv rte) (hq : rte.q = some q) :
    a.waiting adv.dst = q ∧ q.length ≤ MAX_QUEUE_LENGTH ∧ ∀ p ∈ q, Queueable a adv.dst p := by
  rw [hl.q_eq] at hq
  obtain ⟨prte, hg, hprte⟩ := Option.bind_eq_some_iff.mp hq
  have hk := h.kept adv.dst prte hg
  refine ⟨?_, hk.length_le q hprte, fun p hp => ?_⟩
  · rw [waiting_eq hg, hprte]
    rfl
  · exact dst_of_getEntry hg ▸ hk.queueable q hprte p hp

theorem Learns.metric_le (hl : Learns (a.table.getEntry adv.dst) src adv rte)
    (hadv : adv.metric ≤ BIG) : rte.metric ≤ BIG := by
  rw [hl.metric_eq]
  split
  · omega
  · exact hadv

/-- One destination whose entry is written. -/
theorem Orderly.written (baseStn : Addr) (h : Orderly a t) (ht : t ≤ now)
    (hl : Learns (a.table.getEntry adv.dst) src adv rte) (hle : rte.metric ≤ BIG)
    (hsame : SameRoute rte rte') (htimed : Timed rte' now) {g : RtableEnt → RtableEnt}
    (hg : Quiet g)
    (ha₁ : a₁ = ({ a with table := RoutingTable.put rte' a.table } : DSDVAgent).modify rte'.dst g) :
    ∃ a', a₁.sendQueued rte' now = .ok a' ∧
      Turned a adv.dst now a' (a₁.sendQueuedExits baseStn rte' now) := by
  have hdst : rte'.dst = adv.dst := hsame.dst_eq.trans hl.dst_eq
  have hr : Rewrites a rte'.dst a₁ (g rte') := ha₁ ▸ (rewrites_put h.sorted rte').modify hg
  have hwait : ∀ q, rte'.q = some q →
      a.waiting rte'.dst = q ∧ q.length ≤ MAX_QUEUE_LENGTH ∧ ∀ p ∈ q, Queueable a rte'.dst p := by
    intro q hq
    rw [hdst]
    exact h.learnt_queue hl (hsame.q_eq.symm.trans hq)
  have hle' : rte'.metric ≤ BIG := hsame.metric_eq.trans_le hle
  rw [← hdst]
  by_cases hrel : rte'.q ≠ none ∧ rte'.metric ≠ BIG
  · -- the packets are given to the agent, which has a route now
    obtain ⟨hsome, hm⟩ := hrel
    obtain ⟨q, hq⟩ := Option.ne_none_iff_exists'.mp hsome
    obtain ⟨hwq, hlen, hqueue⟩ := hwait q hq
    have hm₁ : (g rte').metric ≠ BIG := by
      rw [hg.plain.metric_eq]
      exact hm
    have hsend := sendQueued_release baseStn now hr
      ((hg.plain.q_eq rte').trans hq) hq hm hle' (fun p hp => (hqueue p hp).congr hr.settings) hlen
    obtain ⟨hok, hexits⟩ := hsend.2 _ (drain_reached a₁ hm₁ q)
    refine ⟨_, hok, ?_⟩
    rw [hexits]
    refine hr.turned_recorded h ht htimed hm hle' (f := a₁.leaves (g rte')) ?_ ?_
    · rw [hwq]
    · intro hreach p _
      exact leaves_due hreach a₁ (g rte') p
  · have hquiet : a₁.sendQueued rte' now = .ok a₁ ∧ a₁.sendQueuedExits baseStn rte' now = [] := by
      rw [sendQueued, sendQueuedExits]
      cases hq : rte'.q with
      | none => exact ⟨rfl, rfl⟩
      | some q =>
          have hbig : ¬rte'.metric ≠ BIG := fun hm => hrel ⟨by rw [hq]; simp, hm⟩
          exact ⟨if_neg hbig, if_neg hbig⟩
    have hkept : Kept a now rte' := by
      refine ⟨hle', htimed.1, ?_, htimed.changedAt_eq.le, fun q hq => ?_, fun q hq => ?_,
        fun q hq => ?_⟩
      · exact htimed.newSeqnumAt_le.trans htimed.changedAt_eq.ge
      · by_contra hm
        exact hrel ⟨by rw [hq]; simp, hm⟩
      · exact (hwait q hq).2.1
      · exact (hwait q hq).2.2
    refine ⟨a₁, hquiet.1, ?_⟩
    rw [hquiet.2]
    refine hr.turned h ht (hg.kept hkept) ?_
    rw [hg.plain.q_eq]
    cases hq : rte'.q with
    | some q => exact (hwait q hq).1.symm
    | none =>
        rw [waiting, hdst, ← hl.q_eq, ← hsame.q_eq, hq]

/-- One destination whose stored route stays. -/
theorem Orderly.stays (h : Orderly a t) (ht : t ≤ now)
    (hl : Learns (a.table.getEntry adv.dst) src adv rte) (hle : rte.metric ≤ BIG)
    (htimed : Timed rte now) (hne : adv.dst ≠ a.myaddr)
    (hget : a.table.getEntry rte.dst = some prte)
    (hknown : prte.seqnum = rte.seqnum ∧ prte.metric ≤ rte.metric ∨ rte.seqnum < prte.seqnum)
    {g : RtableEnt → RtableEnt} (hg : Quiet g) (ha₁ : a₁ = a.modify rte.dst g) :
    (a.StallsAt adv → a₁.sendQueued rte now = .error .endless) ∧
      (¬a.StallsAt adv → ∃ a', a₁.sendQueued rte now = .ok a' ∧
        Turned a adv.dst now a' (a₁.sendQueuedExits baseStn rte now)) := by
  have hr : Rewrites a rte.dst a₁ (g prte) := ha₁ ▸ (rewrites_self h.sorted hget).modify hg
  have hk : Kept a now prte := (h.kept rte.dst prte hget).congr ⟨rfl, rfl⟩ ht
  have hq : rte.q = prte.q := by
    rw [hl.q_eq, ← hl.dst_eq, hget]
    rfl
  have hquiet : rte.q = none ∨ rte.metric = BIG →
      a₁.sendQueued rte now = .ok a₁ ∧ a₁.sendQueuedExits baseStn rte now = [] := by
    intro hno
    rw [sendQueued, sendQueuedExits]
    cases hcase : rte.q with
    | none => exact ⟨rfl, rfl⟩
    | some q =>
        have hbig := hno.resolve_left (by rw [hcase]; simp)
        exact ⟨if_neg (not_not.mpr hbig), if_neg (not_not.mpr hbig)⟩
  by_cases hno : rte.q = none ∨ rte.metric = BIG
  · refine ⟨fun hstalls => ?_, fun _ => ⟨a₁, (hquiet hno).1, ?_⟩⟩
    · obtain ⟨-, ⟨hm, hm', e, he, hsome, -⟩, -⟩ := hstalls
      rcases hno with hnone | hbig
      · rw [← hl.dst_eq, hget] at he
        rw [← Option.some.inj he, ← hq, hnone] at hsome
        cases hsome
      · rw [hl.metric_eq, if_pos hm] at hbig
        exact absurd hbig hm'
    · rw [(hquiet hno).2, ← hl.dst_eq]
      refine hr.turned h ht (hg.kept hk) ?_
      rw [hg.plain.q_eq, waiting_eq hget]
  · -- the agent knows a newer number, and no route
    rw [not_or] at hno
    obtain ⟨hsome, hm⟩ := hno
    obtain ⟨q, hcase⟩ := Option.ne_none_iff_exists'.mp hsome
    obtain ⟨hwq, hlen, hqueue⟩ := h.learnt_queue hl hcase
    have hbig : prte.metric = BIG := hk.big q (hq.symm.trans hcase)
    have hnewer : rte.seqnum < prte.seqnum := by
      refine hknown.resolve_left fun hshort => hm (le_antisymm hle ?_)
      exact hbig.symm.trans_le hshort.2
    have hstale : a.StaleAt adv := by
      have hadv : adv.metric ≠ BIG := by
        intro hb
        have hrm := hl.metric_eq
        rw [if_neg (not_not.mpr hb)] at hrm
        exact hm (hrm.trans hb)
      refine ⟨hadv, fun hb => hm ?_, prte, hl.dst_eq ▸ hget, ?_, hl.seqnum_eq ▸ hnewer⟩
      · rw [hl.metric_eq, if_pos hadv, hb]
      · rw [← hq, hcase]
        rfl
    have hbig₁ : (g prte).metric = BIG := (hg.plain.metric_eq prte).trans hbig
    have hsend := sendQueued_release baseStn now hr
      ((hg.plain.q_eq prte).trans (hq.symm.trans hcase)) hcase hm hle
      (fun p hp => (hl.dst_eq ▸ hqueue p hp).congr hr.settings) hlen
    have hreturns : ∀ p, a₁.Returns p ↔ a.Returns p := by
      intro p
      rw [Returns, Returns, hr.settings.myaddr_eq]
    constructor
    · rintro ⟨-, -, p, hp, hback⟩
      refine hsend.1 (drain_returns hbig₁ ⟨p, hwq ▸ hp, (hreturns p).mpr hback⟩ _)
    · intro hstalls
      have hgo : ∀ p ∈ q, ¬a₁.Returns p := by
        intro p hp hback
        exact hstalls ⟨hne, hstale, p, hwq ▸ hp, (hreturns p).mp hback⟩
      obtain ⟨out, hout, hperm⟩ := drain_expires hbig₁ hgo
      obtain ⟨hok, hexits⟩ := hsend.2 out hout
      refine ⟨_, hok, ?_⟩
      rw [hexits, ← hl.dst_eq]
      refine hr.turned_recorded h ht htimed hm hle (f := expires) ?_ fun _ p _ => .expired
      rw [hl.dst_eq, hwq]
      exact hperm

/-- One destination of an update: the loop over its queue never ends, or every packet
that waited for it has settled. -/
theorem Orderly.processEntry (baseStn src : Addr) (h : Orderly a t) (ht : t ≤ now)
    (hadv : adv.metric ≤ BIG) :
    (a.StallsAt adv → a.processEntry src adv now = .error .endless) ∧
      (¬a.StallsAt adv → ∃ a', a.processEntry src adv now = .ok a' ∧
        Turned a adv.dst now a' (a.entryExits baseStn src adv now)) := by
  rw [DSDVAgent.processEntry, entryExits]
  by_cases hme : adv.dst = a.myaddr
  · rw [if_pos hme, if_pos hme]
    refine ⟨fun hstalls => absurd hme hstalls.1, fun _ => ⟨a, rfl, ?_⟩⟩
    exact ⟨h.later ht, ⟨rfl, rfl⟩, fun _ _ => rfl, settled_waits rfl⟩
  · rw [if_neg hme, if_neg hme]
    have hl := learns_learnt a (a.table.getEntry adv.dst) src adv now
    have htimed := timed_learnt h ht src adv
    dsimp only
    generalize a.learnt (a.table.getEntry adv.dst) src adv now = rte at hl htimed
    have hle := hl.metric_le hadv
    obtain ⟨a₁, rte', trigger, hok, hdec⟩ := decideUpdate_ok (a := a) hle htimed
    rw [hl.dst_eq] at hok
    obtain ⟨g, hg, htrig⟩ := triggerUpdate_ok hdec
    rw [hok]
    dsimp only
    rw [htrig]
    dsimp only
    cases hdec with
    | written _ _ same timed fresher =>
        have hturn := h.written baseStn ht hl hle same timed hg rfl
        rw [same.dst_eq] at hturn
        refine ⟨fun hstalls => ?_, fun _ => hturn⟩
        obtain ⟨-, ⟨-, -, prte, hget, -, hlt⟩, -⟩ := hstalls
        have hle' := fresher prte (hl.dst_eq ▸ hget)
        rw [hl.seqnum_eq] at hle'
        exact absurd hlt (not_lt.mpr hle')
    | stays f prte quiet get known =>
        rw [modify_modify quiet.plain.dst_eq]
        exact h.stays ht hl hle htimed hme get known (quiet_comp hg quiet) rfl

end Turn

end DSDVAgent

end ComputerNetworking.Dsdv
