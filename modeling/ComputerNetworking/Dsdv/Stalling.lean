import ComputerNetworking.Dsdv.Settling

/-!
# When the handling of an update ends

`Reached`: the agents that any order of events at increasing times may lead to. In each of
them an update is processed to its end, and every packet that waited settles, exactly if
the agent does not stall at it (`settles_iff`). What an agent sends is such an update as
others may receive (`Orderly.receivable`).
-/

set_option autoImplicit false

namespace ComputerNetworking.Dsdv

open RoutingTable

namespace DSDVAgent

/-- An update as an agent makes it: a destination is listed once, with a metric of at most
`BIG`. -/
structure Receivable (u : Update) : Prop where
  metric_le : ∀ adv ∈ u.adverts, adv.metric ≤ BIG
  nodup : (u.adverts.map Advert.dst).Nodup

/-- What may happen to an agent. -/
inductive AgentEvent where
  | startUp
  | periodic
  | triggered (dst : Addr)
  | timeout (dst : Addr)
  | update (u : Update)
  | packet (p : Packet)
  | lostLink (p : Packet) (nextHop : Addr)

/-- The agent after an event. -/
def react (a : DSDVAgent) (now : ℚ) : AgentEvent → Except Failure DSDVAgent
  | .startUp => .ok (a.startUp now)
  | .periodic => (a.periodic now).map Prod.fst
  | .triggered dst => (a.triggered dst now).map Prod.fst
  | .timeout dst => a.timeout dst now
  | .update u => a.processUpdate u now
  | .packet p => .ok (a.recv p now)
  | .lostLink p nextHop => a.lostLink p nextHop now

/-- The agent at `me` after some events, the last of them at the given time. -/
inductive Reached (cfg : Config) (me : Addr) : DSDVAgent → ℚ → Prop where
  | start (t : ℚ) : Reached cfg me { cfg, myaddr := me } t
  | step {a a' : DSDVAgent} {t now : ℚ} {ev : AgentEvent} (h : Reached cfg me a t) (ht : t ≤ now)
      (hev : ∀ u, ev = .update u → Receivable u) (hreact : a.react now ev = .ok a') :
      Reached cfg me a' now

variable {a a' a₁ : DSDVAgent} {d : Addr} {t now : ℚ} {u : Update} {adv : Advert}
  {advs : List Advert} {src baseStn : Addr} {out : List Exit}

section Entries

theorem waiting_congr (hg : a'.table.getEntry d = a.table.getEntry d) :
    a'.waiting d = a.waiting d := by
  rw [waiting, waiting, hg]

/-- The packets that wait for `d` and the route to it are those of the entry for `d`. -/
theorem same_of_getEntry (hg : a'.table.getEntry d = a.table.getEntry d) :
    a'.waiting d = a.waiting d ∧ (a.Reaches d → a'.Reaches d) ∧
      (a'.Unreached d → a.Unreached d) := by
  refine ⟨waiting_congr hg, ?_, ?_⟩
  · rintro ⟨e, he, hm⟩
    exact ⟨e, hg.trans he, hm⟩
  · rintro ⟨e, he, hm⟩
    exact ⟨e, hg.symm.trans he, hm⟩

/-- Packets that settle are for their destination. -/
theorem Orderly.packet_dst (h : Orderly a t) (hs : Settled a a' d out) :
    ∀ x ∈ out, x.packet.dst = d := by
  intro x hx
  obtain ⟨fates, hf⟩ := hs
  obtain ⟨fate, hfate, hsome⟩ := List.mem_filterMap.mp (hf.leaves.mem_iff.mp hx)
  have hwaits : fate.1 ∈ a.waiting d := hf.packets ▸ List.mem_map_of_mem hfate
  have hdst : fate.1.dst = d := by
    rw [waiting] at hwaits
    cases hg : a.table.getEntry d with
    | none =>
        rw [hg] at hwaits
        cases hwaits
    | some e =>
        rw [hg, Option.bind_some] at hwaits
        cases hq : e.q with
        | none =>
            rw [hq] at hwaits
            cases hwaits
        | some q =>
            rw [hq] at hwaits
            exact dst_of_getEntry hg ▸ ((h.kept d e hg).queueable q hq _ hwaits).dst_eq
  cases hf.due fate hfate x hsome with
  | handed ttl hop hroute => exact hdst
  | expired => exact hdst

theorem StallsAt.congr (hn : SameSettings a a₁)
    (hg : a₁.table.getEntry adv.dst = a.table.getEntry adv.dst) :
    a₁.StallsAt adv ↔ a.StallsAt adv := by
  rw [StallsAt, StallsAt, waiting_congr hg, hn.myaddr_eq, StaleAt, StaleAt, hg]
  simp only [Returns, hn.myaddr_eq]

/-- The destinations of an update, one after the other. -/
theorem Orderly.processEntries (baseStn src : Addr) (h : Orderly a t) (ht : t ≤ now)
    (hmetric : ∀ adv ∈ advs, adv.metric ≤ BIG) (hdsts : (advs.map Advert.dst).Nodup) :
    ((∃ adv ∈ advs, a.StallsAt adv) → ∃ f, DSDVAgent.processEntries src now advs a = .error f) ∧
      ((∀ adv ∈ advs, ¬a.StallsAt adv) →
        ∃ a', DSDVAgent.processEntries src now advs a = .ok a' ∧ Orderly a' now ∧
          SameSettings a a' ∧
          (∀ d, d ∉ advs.map Advert.dst → a'.table.getEntry d = a.table.getEntry d) ∧
          (∀ x ∈ entriesExits baseStn src now advs a, x.packet.dst ∈ advs.map Advert.dst) ∧
          ∀ d,
            Settled a a' d ((entriesExits baseStn src now advs a).filter (·.packet.dst = d))) := by
  -- induction on the entries; the agent may have changed before each
  induction advs generalizing a t with
  | nil =>
      refine ⟨fun ⟨adv, hadv, _⟩ => (by cases hadv), fun _ => ⟨a, rfl, h.later ht, ⟨rfl, rfl⟩,
        fun _ _ => rfl, fun x hx => (by cases hx), fun d => settled_waits rfl⟩⟩
  | cons adv rest ih =>
      rw [List.map_cons, List.nodup_cons] at hdsts
      obtain ⟨hfirst, hrest⟩ := hdsts
      obtain ⟨hstall, hturn⟩ := h.processEntry baseStn src ht
        (hmetric adv List.mem_cons_self)
      rw [DSDVAgent.processEntries, entriesExits]
      by_cases hat : a.StallsAt adv
      · rw [hstall hat]
        exact ⟨fun _ => ⟨_, rfl⟩, fun hno => absurd hat (hno adv List.mem_cons_self)⟩
      · obtain ⟨a₁, hok, ht₁⟩ := hturn hat
        rw [hok]
        dsimp only
        -- no later entry is about this destination, so the turn changes nothing for them
        have hcongr : ∀ adv' ∈ rest, a₁.StallsAt adv' ↔ a.StallsAt adv' := by
          intro adv' hadv'
          refine StallsAt.congr ht₁.settings (ht₁.other _ fun hd => hfirst ?_)
          exact hd ▸ List.mem_map_of_mem hadv'
        obtain ⟨hbad, hgood⟩ := ih (t := now) ht₁.orderly le_rfl
          (fun adv' hadv' => hmetric adv' (List.mem_cons_of_mem _ hadv')) hrest
        constructor
        · rintro ⟨adv', hadv', hst⟩
          refine hbad ⟨adv', ?_, ?_⟩
          · exact (List.mem_cons.mp hadv').resolve_left fun heq => hat (heq ▸ hst)
          · have hmem := (List.mem_cons.mp hadv').resolve_left fun heq => hat (heq ▸ hst)
            exact (hcongr adv' hmem).mpr hst
        · intro hno
          obtain ⟨a', hok', ho', hn', hother', hdst', hset'⟩ := hgood fun adv' hadv' hst =>
            hno adv' (List.mem_cons_of_mem _ hadv') ((hcongr adv' hadv').mp hst)
          have hone := h.packet_dst ht₁.settled
          refine ⟨a', hok', ho', ht₁.settings.trans hn', ?_, ?_, ?_⟩
          · intro d hd
            rw [List.map_cons, List.mem_cons, not_or] at hd
            exact (hother' d hd.2).trans (ht₁.other d hd.1)
          · intro x hx
            rw [List.map_cons, List.mem_cons]
            exact (List.mem_append.mp hx).imp (hone x) (hdst' x)
          · intro d
            rw [List.filter_append]
            by_cases hd : d = adv.dst
            · -- the packets of this destination settle in this turn
              subst hd
              have hall : (a.entryExits baseStn src adv now).filter (·.packet.dst = adv.dst) =
                  a.entryExits baseStn src adv now :=
                List.filter_eq_self.mpr fun x hx => decide_eq_true (hone x hx)
              have hnone : (entriesExits baseStn src now rest a₁).filter (·.packet.dst = adv.dst) =
                  [] := by
                refine List.filter_eq_nil_iff.mpr fun x hx heq => hfirst ?_
                exact of_decide_eq_true heq ▸ hdst' x hx
              obtain ⟨hw, hr, hu⟩ := same_of_getEntry (hother' adv.dst hfirst)
              rw [hall, hnone, List.append_nil]
              exact ht₁.settled.congr hw hr hu
            · have hnone : (a.entryExits baseStn src adv now).filter (·.packet.dst = d) = [] := by
                refine List.filter_eq_nil_iff.mpr fun x hx heq => hd ?_
                exact (of_decide_eq_true heq).symm.trans (hone x hx)
              rw [hnone, List.nil_append]
              obtain ⟨fates, hf⟩ := hset' d
              exact ⟨fates, hf.packets.trans (waiting_congr (ht₁.other d hd)), hf.waits, hf.leaves,
                hf.due, hf.still⟩

/-- The loop that comes to its end leaves an orderly agent. -/
theorem Orderly.of_processEntries (h : Orderly a t) (ht : t ≤ now)
    (hmetric : ∀ adv ∈ advs, adv.metric ≤ BIG)
    (hp : DSDVAgent.processEntries src now advs a = .ok a') : Orderly a' now := by
  induction advs generalizing a t with
  | nil =>
      rw [← Except.ok.inj hp]
      exact h.later ht
  | cons adv rest ih =>
      obtain ⟨hstall, hturn⟩ := h.processEntry 0 src ht
        (hmetric adv List.mem_cons_self)
      rw [DSDVAgent.processEntries] at hp
      by_cases hat : a.StallsAt adv
      · rw [hstall hat] at hp
        cases hp
      · obtain ⟨a₁, hok, ht₁⟩ := hturn hat
        rw [hok] at hp
        exact ih ht₁.orderly le_rfl
          (fun adv' hadv' => hmetric adv' (List.mem_cons_of_mem _ hadv')) hp

end Entries

section Updates

/-- The end of `processUpdate`: the time-out of the neighbour is kept. -/
theorem Orderly.neighbour (h : Orderly a now) (src : Addr) :
    ∃ a', (match a.table.getEntry src with
        | some _ => .ok (a.modify src fun prte => { prte with timeoutEvent := true })
        | none => a.addEntry
            { dst := src, hop := src, metric := 1, seqnum := 0, advertiseOkAt := now + 604800,
              changedAt := now, newSeqnumAt := now, wst := a.cfg.wst0, timeoutEvent := true } :
          Except Failure DSDVAgent) = .ok a' ∧ Orderly a' now ∧
      ∀ d, a'.waiting d = a.waiting d ∧ (a.Reaches d → a'.Reaches d) ∧
        (a'.Unreached d → a.Unreached d) := by
  cases hg : a.table.getEntry src with
  | some prte =>
      have hq := quiet_timeoutEvent true
      have hget := getEntry_modify _ hq.plain.dst_eq a.table src
      refine ⟨_, rfl, h.modify hq src, fun d => ?_⟩
      have hgd : (a.modify src fun prte => { prte with timeoutEvent := true }).table.getEntry d =
          if d = src then (a.table.getEntry d).map fun prte => { prte with timeoutEvent := true }
          else a.table.getEntry d := hget d
      by_cases hd : d = src
      · rw [if_pos hd] at hgd
        refine ⟨?_, ?_, ?_⟩
        · rw [waiting, waiting, hgd]
          cases a.table.getEntry d <;> rfl
        · rintro ⟨e, he, hm⟩
          rw [he] at hgd
          exact ⟨_, hgd, hm⟩
        · rintro ⟨e, he, hm⟩
          rw [he] at hgd
          obtain ⟨e', he', rfl⟩ := Option.map_eq_some_iff.mp hgd.symm
          exact ⟨e', he', hm⟩
      · rw [if_neg hd] at hgd
        exact same_of_getEntry hgd
  | none =>
      -- a fake entry, of a node that no packet waits for
      have hone : 1 ≤ BIG := by decide
      refine ⟨_, addEntry_ok a hone, h.put le_rfl ⟨rfl, rfl⟩ rfl ⟨hone,
        h.sound.wst0_nonneg, le_rfl, le_rfl, ?_, ?_, ?_⟩, fun d => ?_⟩
      · rintro q ⟨⟩
      · rintro q ⟨⟩
      · rintro q ⟨⟩
      · by_cases hd : src = d
        · subst hd
          refine ⟨?_, ?_, ?_⟩
          · rw [waiting, waiting, getEntry_put, if_pos rfl, hg]
            rfl
          · rintro ⟨e, he, -⟩
            rw [hg] at he
            cases he
          · rintro ⟨e, he, hbig⟩
            rw [getEntry_put, if_pos rfl] at he
            rw [← Option.some.inj he] at hbig
            exact absurd hbig (show 1 ≠ BIG by decide)
        · refine same_of_getEntry ?_
          rw [getEntry_put, if_neg hd]

theorem Orderly.of_processUpdate (h : Orderly a t) (ht : t ≤ now) (hu : Receivable u)
    (hp : a.processUpdate u now = .ok a') : Orderly a' now := by
  rw [processUpdate] at hp
  cases hloop : DSDVAgent.processEntries u.src now u.adverts a with
  | error f =>
      rw [hloop] at hp
      cases hp
  | ok a₁ =>
      rw [hloop] at hp
      have h₁ := h.of_processEntries ht hu.metric_le hloop
      obtain ⟨a₂, hok, h₂, -⟩ := h₁.neighbour u.src
      rw [← Except.ok.inj (hok.symm.trans hp)]
      exact h₂

/-- An update is processed to its end, and every packet that waited has settled, exactly if the
agent does not stall at it. -/
theorem Orderly.settles (h : Orderly a t) (ht : t ≤ now) (hu : Receivable u) :
    Settles baseStn a u now ↔ ¬a.Stalls u := by
  obtain ⟨hbad, hgood⟩ :=
    h.processEntries baseStn u.src ht hu.metric_le hu.nodup
  constructor
  · rintro ⟨a', hok, -⟩ hstalls
    obtain ⟨f, hf⟩ := hbad hstalls
    rw [processUpdate, hf] at hok
    cases hok
  · intro hno
    obtain ⟨a₁, hloop, h₁, -, -, -, hset⟩ := hgood fun adv hadv hst => hno ⟨adv, hadv, hst⟩
    obtain ⟨a₂, hok, -, hsame⟩ := h₁.neighbour u.src
    refine ⟨a₂, ?_, fun d => ?_⟩
    · rw [processUpdate, hloop]
      exact hok
    · obtain ⟨hw, hr, hbig⟩ := hsame d
      exact (hset d).congr hw hr hbig

end Updates

section Runs

variable {cfg : Config} {me : Addr}

theorem Orderly.react (h : Orderly a t) (ht : t ≤ now) {ev : AgentEvent}
    (hev : ∀ u, ev = .update u → Receivable u) (hr : a.react now ev = .ok a') : Orderly a' now := by
  have hfst : ∀ r : Except Failure (DSDVAgent × Option Update), r.map Prod.fst = .ok a' →
      ∃ u?, r = .ok (a', u?) := by
    intro r hr
    cases r with
    | error f => cases hr
    | ok x => exact ⟨x.2, by rw [← Except.ok.inj hr]⟩
  cases ev with
  | startUp =>
      rw [← Except.ok.inj hr]
      exact h.startUp ht
  | periodic =>
      obtain ⟨u?, hp⟩ := hfst _ hr
      exact (h.later ht).periodic hp
  | triggered dst =>
      obtain ⟨u?, hp⟩ := hfst _ hr
      exact (h.later ht).triggered hp
  | timeout dst => exact (h.later ht).timeout hr
  | update u => exact h.of_processUpdate ht (hev u rfl) hr
  | packet p =>
      rw [← Except.ok.inj hr]
      exact (h.later ht).recv p
  | lostLink p nextHop => exact (h.later ht).lostLink hr

/-- Every agent that is reached is orderly. -/
theorem Reached.orderly (hcfg : cfg.Sound) (h : Reached cfg me a t) : Orderly a t := by
  induction h with
  | start t => exact ⟨hcfg, List.Pairwise.nil, fun d e he => by cases he⟩
  | step h ht hev hreact ih => exact ih.react ht hev hreact

theorem Orderly.receivable_pack (h : Orderly a now) {full : Bool} {n : ℕ}
    {included : RtableEnt → Bool} (hp : a.pack full n included = .ok (a', some u)) :
    Receivable u := by
  rw [DSDVAgent.pack] at hp
  dsimp only at hp
  split at hp
  · rw [Except.ok.injEq, Prod.mk.injEq, Option.some.injEq] at hp
    obtain ⟨-, rfl⟩ := hp
    constructor
    · intro adv hadv
      obtain ⟨e, he, rfl⟩ := List.mem_map.mp (List.mem_of_mem_take hadv)
      exact (h.kept e.dst e (getEntry_of_mem h.sorted (List.mem_of_mem_filter he))).metric_le
    · rw [Update.adverts, List.map_take, List.map_map]
      refine List.Nodup.sublist (List.take_sublist _ _) (List.pairwise_map.mpr ?_)
      exact (h.sorted.filter _).imp fun hlt => hlt.ne
  · cases hp

/-- The updates that an agent sends may be received. -/
theorem Orderly.receivable (h : Orderly a now) {full : Bool}
    (hm : a.makeUpdate full now = .ok (a', some u)) : Receivable u := by
  rw [DSDVAgent.makeUpdate] at hm
  dsimp only at hm
  split at hm
  · split at hm
    · cases hm
    · exact (h.advance).receivable_pack hm
  · split at hm
    · cases hm
    · exact h.receivable_pack hm

/-- From every agent that is reached, an update that it may receive is processed to its end
and leaves every waiting packet waiting or gone once, exactly if the agent does not stall. -/
theorem settles_iff (hcfg : cfg.Sound) (h : Reached cfg me a t) (ht : t ≤ now)
    (hu : Receivable u) (baseStn : Addr) : Settles baseStn a u now ↔ ¬a.Stalls u :=
  (h.orderly hcfg).settles ht hu

end Runs

section Run

/-- A packet of node 1 for node 2. -/
def ownPacket : Packet := { src := 1, dst := 2, ttl := 0, numForwards := 0 }

/-- An update of node 3 that lists node 2. -/
def listing (metric seqnum : ℕ) : Update where
  src := 3
  count := 1
  entries := [{ dst := 2, metric, seqnum }]

/-- Node 1 has queued a packet for node 2. -/
def queueing : DSDVAgent := DSDVAgent.recv { cfg := {}, myaddr := 1 } ownPacket 0

/-- Node 1 has heard that node 2 is not reached any more, by the number 11. -/
def newer : DSDVAgent := ((queueing.processUpdate (listing BIG 11) 1).toOption).getD queueing

theorem sound_default : ({} : Config).Sound := by
  constructor <;> norm_num

theorem receivable_listing {metric seqnum : ℕ} (h : metric ≤ BIG) :
    Receivable (listing metric seqnum) := by
  refine ⟨fun adv hadv => ?_, List.nodup_singleton 2⟩
  rw [List.mem_singleton.mp hadv]
  exact h

theorem reached_queueing : Reached {} 1 queueing 0 :=
  @Reached.step _ _ _ _ _ _ (.packet ownPacket) (.start 0) le_rfl (fun u hu => by cases hu) rfl

theorem reached_newer : Reached {} 1 newer 1 :=
  @Reached.step _ _ _ _ _ _ (.update (listing BIG 11)) reached_queueing zero_le_one
    (fun u hu => by cases hu; exact receivable_listing le_rfl) rfl

/-- A packet that is queued is handed on when its destination is heard of. -/
theorem settles_iff_queueing : Settles 0 queueing (listing 1 10) 1 := by
  refine (settles_iff sound_default reached_queueing zero_le_one
    (receivable_listing (by decide)) 0).mpr ?_
  rintro ⟨adv, hadv, -, ⟨-, -, e, he, -, hlt⟩, -⟩
  rw [List.mem_singleton.mp hadv] at he hlt
  cases he
  exact absurd hlt (Nat.not_lt_zero 10)

/-- An older number than the stored one, a packet of the node itself: the loop over the
queue never ends. -/
theorem own_packet_goes_round : ¬∀ (cfg : Config) (me : Addr) (a : DSDVAgent) (t now : ℚ)
    (u : Update) (baseStn : Addr), cfg.Sound → Reached cfg me a t → t ≤ now → Receivable u →
    Settles baseStn a u now := by
  intro h
  have hsettles := h {} 1 newer 1 2 (listing 1 10) 0 sound_default reached_newer one_le_two
    (receivable_listing (by decide))
  refine ((reached_newer.orderly sound_default).settles one_le_two
    (receivable_listing (by decide))).mp hsettles ?_
  have hwaits : newer.waiting 2 = [{ ownPacket with ttl := 32 }] := rfl
  refine ⟨_, List.mem_singleton_self _, by decide, ⟨by decide, by decide, _, rfl, rfl, by decide⟩,
    { ownPacket with ttl := 32 }, ?_, Or.inl rfl⟩
  exact hwaits ▸ List.mem_singleton_self _

end Run

end DSDVAgent

end ComputerNetworking.Dsdv
