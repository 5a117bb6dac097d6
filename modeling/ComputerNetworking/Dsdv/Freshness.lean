import ComputerNetworking.Dsdv.Network
import ComputerNetworking.Foundations.NextHop

/-!
# What a DSDV agent does to its routes

`Grows A a a'`: no entry of the agent got a worse rank, and every route that is
new was adopted from an advert in `A` of a better rank. The handlers of timers,
packets and lost links make a tidy agent grow and leave it tidy (`Tidy.recv`,
`Tidy.timeout`, `Tidy.lostLink`, `Tidy.periodic`, `Tidy.triggered`).
-/

set_option autoImplicit false

namespace ComputerNetworking.Dsdv

open ComputerNetworking.Foundations RoutingTable

namespace DSDVAgent

/-- The rank of the entry for `d`. -/
def rank (a : DSDVAgent) (d : Addr) : Freshness :=
  match a.table.getEntry d with
  | none => ⊤
  | some e => fresh e.seqnum e.metric

/-- What holds of an agent between two events. -/
structure Tidy (a : DSDVAgent) : Prop where
  sorted : Sorted a.table
  queue_big : ∀ d e, a.table.getEntry d = some e → e.q.isSome → e.metric = BIG
  queue_dst : ∀ d e q, a.table.getEntry d = some e → e.q = some q → ∀ p ∈ q, p.dst = d
  own_le : ∀ e, a.table.getEntry a.myaddr = some e →
    e.seqnum ≤ a.seqno ∨ e.metric = BIG ∧ e.seqnum ≤ a.seqno + 1

/-- The route of `e'` for `d` was taken from `e`, leads to `d` itself, or was
adopted from an advert of a better rank. -/
def Adopted (A : Addr → Addr → Freshness → Prop) (a : DSDVAgent) (d : Addr) (e' : RtableEnt) :
    Prop :=
  e'.hop = d ∨
  (∃ e, a.table.getEntry d = some e ∧ e.metric ≠ BIG ∧ e.hop = e'.hop ∧
    fresh e.seqnum e.metric ≤ fresh e'.seqnum e'.metric) ∨
  ∃ r, A e'.hop d r ∧ r < fresh e'.seqnum e'.metric

/-- From `a` to `a'` no rank got worse, and new routes are adopted from `A`. -/
structure Grows (A : Addr → Addr → Freshness → Prop) (a a' : DSDVAgent) : Prop where
  myaddr_eq : a'.myaddr = a.myaddr
  rank_le : ∀ d, a'.rank d ≤ a.rank d
  adopted : ∀ d e', d ≠ a.myaddr → a'.table.getEntry d = some e' → e'.metric ≠ BIG →
    Adopted A a d e'

variable {A : Addr → Addr → Freshness → Prop} {a a' a'' : DSDVAgent} {d : Addr}
  {e e' : RtableEnt} {now : ℚ}

theorem rank_of_getEntry (h : a.table.getEntry d = some e) :
    a.rank d = fresh e.seqnum e.metric := by
  rw [rank, h]

theorem Grows.refl (A : Addr → Addr → Freshness → Prop) (a : DSDVAgent) : Grows A a a where
  myaddr_eq := rfl
  rank_le _ := le_refl _
  adopted _ e' _ he hm := Or.inr (Or.inl ⟨e', he, hm, rfl, le_refl _⟩)

theorem Grows.trans (h : Grows A a a') (h' : Grows A a' a'') : Grows A a a'' := by
  refine ⟨h'.myaddr_eq.trans h.myaddr_eq, fun d => (h'.rank_le d).trans (h.rank_le d), ?_⟩
  intro d e'' hd he'' hm''
  rcases h'.adopted d e'' (h.myaddr_eq ▸ hd) he'' hm'' with hhop | ⟨e', he', hm', hhop, hle⟩ | hadv
  · exact Or.inl hhop
  · -- the route was there before the second step
    rcases h.adopted d e' hd he' hm' with hhop' | ⟨e, he, hm, hhop', hle'⟩ | ⟨r, hr, hlt⟩
    · exact Or.inl (hhop ▸ hhop')
    · exact Or.inr (Or.inl ⟨e, he, hm, hhop'.trans hhop, hle'.trans hle⟩)
    · exact Or.inr (Or.inr ⟨r, hhop ▸ hr, hlt.trans_le hle⟩)
  · exact Or.inr (Or.inr hadv)

section Writes

/-- The agents have the same address, numbers and settings. -/
structure SameNode (a a' : DSDVAgent) : Prop where
  myaddr_eq : a'.myaddr = a.myaddr
  seqno_eq : a'.seqno = a.seqno
  cfg_eq : a'.cfg = a.cfg

/-- `f` leaves what a route is. -/
structure Plain (f : RtableEnt → RtableEnt) : Prop where
  dst_eq : ∀ e, (f e).dst = e.dst
  hop_eq : ∀ e, (f e).hop = e.hop
  metric_eq : ∀ e, (f e).metric = e.metric
  seqnum_eq : ∀ e, (f e).seqnum = e.seqnum
  q_eq : ∀ e, (f e).q = e.q

theorem rank_plain {f : RtableEnt → RtableEnt} (hf : Plain f) (ht : a'.table = a.table.map f) :
    a'.rank = a.rank := by
  funext d
  rw [rank, rank, ht, getEntry_map f hf.dst_eq]
  cases a.table.getEntry d with
  | none => rfl
  | some e => exact congrArg₂ fresh (hf.seqnum_eq e) (hf.metric_eq e)

/-- Changes to the other fields of the entries. -/
theorem Tidy.plain (h : Tidy a) {f : RtableEnt → RtableEnt} (hf : Plain f)
    (hn : SameNode a a') (ht : a'.table = a.table.map f) : Tidy a' ∧ Grows A a a' := by
  have hget : ∀ d, a'.table.getEntry d = (a.table.getEntry d).map f := by
    intro d
    rw [ht, getEntry_map f hf.dst_eq]
  have hback : ∀ d e', a'.table.getEntry d = some e' →
      ∃ e, a.table.getEntry d = some e ∧ f e = e' := by
    intro d e' he'
    rw [hget] at he'
    exact Option.map_eq_some_iff.mp he'
  refine ⟨⟨?_, ?_, ?_, ?_⟩, hn.myaddr_eq, ?_, ?_⟩
  · rw [ht]
    exact h.sorted.map hf.dst_eq
  · intro d e' he' hq
    obtain ⟨e, he, rfl⟩ := hback d e' he'
    rw [hf.q_eq] at hq
    rw [hf.metric_eq]
    exact h.queue_big d e he hq
  · intro d e' q he' hq
    obtain ⟨e, he, rfl⟩ := hback d e' he'
    rw [hf.q_eq] at hq
    exact h.queue_dst d e q he hq
  · intro e' he'
    rw [hn.myaddr_eq] at he'
    obtain ⟨e, he, rfl⟩ := hback a.myaddr e' he'
    rw [hf.seqnum_eq, hf.metric_eq, hn.seqno_eq]
    exact h.own_le e he
  · intro d
    rw [rank_plain hf ht]
  · intro d e' _ he' hm
    obtain ⟨e, he, rfl⟩ := hback d e' he'
    rw [hf.metric_eq] at hm
    refine Or.inr (Or.inl ⟨e, he, hm, (hf.hop_eq e).symm, ?_⟩)
    rw [hf.seqnum_eq, hf.metric_eq]

theorem Plain.at {f : RtableEnt → RtableEnt} (hf : Plain f) (dest : Addr) :
    Plain fun e => if e.dst = dest then f e else e := by
  constructor
  all_goals
    intro e
    split
  · exact hf.dst_eq e
  · rfl
  · exact hf.hop_eq e
  · rfl
  · exact hf.metric_eq e
  · rfl
  · exact hf.seqnum_eq e
  · rfl
  · exact hf.q_eq e
  · rfl

theorem Tidy.map (h : Tidy a) {f : RtableEnt → RtableEnt} (hf : Plain f) :
    Tidy { a with table := a.table.map f } ∧ Grows A a { a with table := a.table.map f } := by
  have hn : SameNode a { a with table := a.table.map f } := ⟨rfl, rfl, rfl⟩
  exact h.plain hf hn rfl

/-- A change to the other fields of one entry. -/
theorem Tidy.modify (h : Tidy a) {f : RtableEnt → RtableEnt} (hf : Plain f) (dest : Addr) :
    Tidy (a.modify dest f) ∧ Grows A a (a.modify dest f) :=
  h.map (hf.at dest)

/-- One entry is written. -/
theorem Tidy.write (h : Tidy a) {w : RtableEnt} (hs : Sorted a'.table)
    (haddr : a'.myaddr = a.myaddr) (hseq : a.seqno ≤ a'.seqno)
    (hget : ∀ d, a'.table.getEntry d = if w.dst = d then some w else a.table.getEntry d)
    (hrank : fresh w.seqnum w.metric ≤ a.rank w.dst)
    (hbig : w.q.isSome → w.metric = BIG) (hdst : ∀ q, w.q = some q → ∀ p ∈ q, p.dst = w.dst)
    (hown : w.dst = a.myaddr →
      w.seqnum ≤ a'.seqno ∨ w.metric = BIG ∧ w.seqnum ≤ a'.seqno + 1)
    (hnext : w.dst ≠ a.myaddr → w.metric ≠ BIG → Adopted A a w.dst w) :
    Tidy a' ∧ Grows A a a' := by
  -- an entry of `a'` is the one written or one of `a`
  have hcase : ∀ d e', a'.table.getEntry d = some e' →
      w.dst = d ∧ e' = w ∨ a.table.getEntry d = some e' := by
    intro d e' he'
    rw [hget] at he'
    split at he'
    · rename_i hd
      exact Or.inl ⟨hd, (Option.some.inj he').symm⟩
    · exact Or.inr he'
  refine ⟨⟨hs, ?_, ?_, ?_⟩, haddr, ?_, ?_⟩
  · intro d e' he' hq
    rcases hcase d e' he' with ⟨-, rfl⟩ | he
    · exact hbig hq
    · exact h.queue_big d e' he hq
  · intro d e' q he' hq
    rcases hcase d e' he' with ⟨rfl, rfl⟩ | he
    · exact hdst q hq
    · exact h.queue_dst d e' q he hq
  · intro e' he'
    rw [haddr] at he'
    rcases hcase a.myaddr e' he' with ⟨hd, rfl⟩ | he
    · exact hown hd
    · have hle := h.own_le e' he
      omega
  · intro d
    by_cases hd : w.dst = d
    · subst hd
      have hw := hget w.dst
      rw [if_pos rfl] at hw
      rw [rank_of_getEntry hw]
      exact hrank
    · rw [rank, rank, hget, if_neg hd]
  · intro d e' hd he' hm
    rcases hcase d e' he' with ⟨rfl, rfl⟩ | he
    · exact hnext hd hm
    · exact Or.inr (Or.inl ⟨e', he, hm, rfl, le_refl _⟩)

end Writes

section Packets

/-- The queueing of a packet writes one entry that is not reachable. -/
theorem Tidy.forwardPacket (h : Tidy a) (p : Packet) (now : ℚ) :
    Tidy (a.forwardPacket p now) ∧ Grows A a (a.forwardPacket p now) := by
  rw [DSDVAgent.forwardPacket]
  split
  · exact ⟨h, Grows.refl A a⟩
  · cases hg : a.table.getEntry p.dst with
    | none =>
        refine h.write (h.sorted.put _) rfl (le_refl _) (getEntry_put _ a.table) ?_ (fun _ => rfl)
          ?_ ?_ ?_
        · rw [rank, hg]
          exact le_top
        · rintro q ⟨⟩ p' hp'
          rw [List.mem_singleton.mp hp']
        · intro _
          exact Or.inl (Nat.zero_le _)
        · intro _ hm
          exact absurd rfl hm
    | some prte =>
        dsimp only
        split
        · exact ⟨h, Grows.refl A a⟩
        · rename_i hm
          have hbig : prte.metric = BIG := not_not.mp hm
          have hdst := dst_of_getEntry hg
          generalize hq : (prte.q.getD [] ++ [p]).drop
            ((prte.q.getD [] ++ [p]).length - MAX_QUEUE_LENGTH) = q
          have hmem : ∀ p' ∈ q, p'.dst = p.dst := by
            intro p' hp'
            rw [← hq] at hp'
            rcases List.mem_append.mp (List.mem_of_mem_drop hp') with hp' | hp'
            · cases hold : prte.q with
              | none =>
                  rw [hold] at hp'
                  cases hp'
              | some q' =>
                  rw [hold] at hp'
                  exact h.queue_dst p.dst prte q' hg hold p' hp'
            · rw [List.mem_singleton.mp hp']
          have hsame : ∀ e : RtableEnt, ({ e with q := some q } : RtableEnt).dst = e.dst :=
            fun _ => rfl
          refine h.write (w := { prte with q := some q }) (h.sorted.modify hsame p.dst) rfl
            (le_refl _) ?_ ?_ (fun _ => hbig) ?_ ?_ ?_
          · intro d
            rw [DSDVAgent.modify, getEntry_modify _ hsame]
            by_cases hd : d = p.dst
            · subst hd
              rw [if_pos rfl, if_pos hdst, hg]
              rfl
            · rw [if_neg hd, if_neg]
              intro hd'
              exact hd (hd'.symm.trans hdst)
          · show fresh prte.seqnum prte.metric ≤ a.rank prte.dst
            rw [hdst, rank_of_getEntry hg]
          · rintro q' ⟨⟩ p' hp'
            rw [hmem p' hp', hdst]
          · intro hown
            rw [hdst] at hown
            exact h.own_le prte (hown ▸ hg)
          · intro _ hne
            exact absurd hbig hne

theorem Tidy.recv (h : Tidy a) (p : Packet) (now : ℚ) :
    Tidy (a.recv p now) ∧ Grows A a (a.recv p now) := by
  rw [DSDVAgent.recv]
  split
  · exact ⟨h, Grows.refl A a⟩
  · dsimp only
    generalize (if p.src = a.myaddr then IP_DEF_TTL else p.ttl - 1) = ttl
    split
    · exact ⟨h, Grows.refl A a⟩
    · split
      · exact ⟨h, Grows.refl A a⟩
      · exact h.forwardPacket _ now

/-- A packet for a reachable destination changes nothing. -/
theorem recv_of_reachable {p : Packet} (he : a.table.getEntry p.dst = some e)
    (hm : e.metric ≠ BIG) : a.recv p now = a := by
  rw [DSDVAgent.recv]
  split
  · rfl
  · dsimp only
    generalize (if p.src = a.myaddr then IP_DEF_TTL else p.ttl - 1) = ttl
    split
    · rfl
    · split
      · rfl
      · rw [DSDVAgent.forwardPacket]
        split
        · rfl
        · simp only [he]
          exact if_pos hm

end Packets

section Timers

/-- What the time-out of `dst` makes of an entry. -/
def mark (dst : Addr) (now : ℚ) (pr2 : RtableEnt) : RtableEnt :=
  if pr2.hop = dst ∧ pr2.metric ≠ BIG then
    { pr2 with metric := BIG, advertiseOkAt := now, advertMetric := true, advertSeqnum := true,
               seqnum := pr2.seqnum + 1, triggerEvent := some now }
  else pr2

theorem mark_cases (dst : Addr) (now : ℚ) (e : RtableEnt) : mark dst now e = e ∨
    e.metric ≠ BIG ∧ (mark dst now e).metric = BIG ∧ (mark dst now e).seqnum = e.seqnum + 1 := by
  rw [mark]
  split
  · rename_i h
    exact Or.inr ⟨h.2, rfl, rfl⟩
  · exact Or.inl rfl

theorem mark_dst (dst : Addr) (now : ℚ) (e : RtableEnt) : (mark dst now e).dst = e.dst := by
  rw [mark]
  split <;> rfl

theorem mark_q (dst : Addr) (now : ℚ) (e : RtableEnt) : (mark dst now e).q = e.q := by
  rw [mark]
  split <;> rfl

/-- Marked entries are not reachable, by a newer number. -/
theorem Tidy.mark (h : Tidy a) (dst : Addr) (now : ℚ) :
    Tidy { a with table := a.table.map (mark dst now) } ∧
      Grows A a { a with table := a.table.map (mark dst now) } := by
  have hget : ∀ d, getEntry (a.table.map (DSDVAgent.mark dst now)) d =
      (a.table.getEntry d).map (DSDVAgent.mark dst now) := getEntry_map _ (mark_dst dst now) _
  have hback : ∀ d e', getEntry (a.table.map (DSDVAgent.mark dst now)) d = some e' →
      ∃ e, a.table.getEntry d = some e ∧ DSDVAgent.mark dst now e = e' := by
    intro d e' he'
    rw [hget] at he'
    exact Option.map_eq_some_iff.mp he'
  refine ⟨⟨?_, ?_, ?_, ?_⟩, rfl, ?_, ?_⟩
  · exact h.sorted.map (mark_dst dst now)
  · intro d e' he' hq
    obtain ⟨e, he, rfl⟩ := hback d e' he'
    rw [mark_q] at hq
    have hbig := h.queue_big d e he hq
    rcases mark_cases dst now e with heq | ⟨hne, -, -⟩
    · rw [heq, hbig]
    · exact absurd hbig hne
  · intro d e' q he' hq
    obtain ⟨e, he, rfl⟩ := hback d e' he'
    rw [mark_q] at hq
    exact h.queue_dst d e q he hq
  · intro e' he'
    obtain ⟨e, he, rfl⟩ := hback a.myaddr e' he'
    have hown := h.own_le e he
    rcases mark_cases dst now e with heq | ⟨hne, hbig, hseq⟩
    · rw [heq]
      exact hown
    · -- an own entry is marked once
      have hle := hown.resolve_right fun hb => hne hb.1
      exact Or.inr ⟨hbig, by rw [hseq]; exact Nat.succ_le_succ hle⟩
  · intro d
    rw [rank, rank, hget]
    cases a.table.getEntry d with
    | none => exact le_refl _
    | some e =>
        rcases mark_cases dst now e with heq | ⟨-, -, hseq⟩
        · rw [Option.map_some, heq]
        · exact fresh_le_iff.mpr (Or.inl (by rw [hseq]; exact Nat.lt_succ_self _))
  · intro d e' _ he' hm
    obtain ⟨e, he, rfl⟩ := hback d e' he'
    rcases mark_cases dst now e with heq | ⟨-, hbig, -⟩
    · rw [heq] at hm ⊢
      exact Or.inr (Or.inl ⟨e, he, hm, rfl, le_refl _⟩)
    · exact absurd hbig hm

theorem Tidy.timeout (h : Tidy a) {dst : Addr} (ht : a.timeout dst now = .ok a') :
    Tidy a' ∧ Grows A a a' := by
  rw [DSDVAgent.timeout] at ht
  split at ht
  · obtain ⟨hmark, hgrow⟩ := h.mark (A := A) dst now
    obtain ⟨hmod, hgrow'⟩ := hmark.modify (A := A)
      (f := fun prte => { prte with timeoutEvent := false })
      ⟨fun _ => rfl, fun _ => rfl, fun _ => rfl, fun _ => rfl, fun _ => rfl⟩ dst
    rw [← Except.ok.inj ht]
    exact ⟨hmod, hgrow.trans hgrow'⟩
  · cases ht

theorem Tidy.lostLink (h : Tidy a) {p : Packet} {nextHop : Addr}
    (hl : a.lostLink p nextHop now = .ok a') : Tidy a' ∧ Grows A a a' := by
  rw [DSDVAgent.lostLink] at hl
  split at hl
  · cases hg : a.table.getEntry nextHop with
    | none =>
        rw [hg] at hl
        rw [← Except.ok.inj hl]
        exact ⟨h, Grows.refl A a⟩
    | some prte =>
        rw [hg] at hl
        dsimp only at hl
        -- the time-out of the neighbour, if it has not come before
        have hlost : ∀ a₁, (if prte.timeoutEvent = true then a.timeout nextHop now
            else if prte.metric ≠ BIG then
              (a.modify nextHop fun prte => { prte with timeoutEvent := true }).timeout nextHop now
            else .ok a) = .ok a₁ → Tidy a₁ ∧ Grows A a a₁ := by
          intro a₁ ha₁
          split at ha₁
          · exact h.timeout ha₁
          · split at ha₁
            · obtain ⟨hmod, hgrow⟩ := h.modify (A := A)
                (f := fun prte => { prte with timeoutEvent := true })
                ⟨fun _ => rfl, fun _ => rfl, fun _ => rfl, fun _ => rfl, fun _ => rfl⟩ nextHop
              obtain ⟨htidy, hgrow'⟩ := hmod.timeout (A := A) ha₁
              exact ⟨htidy, hgrow.trans hgrow'⟩
            · rw [← Except.ok.inj ha₁]
              exact ⟨h, Grows.refl A a⟩
        split at hl
        · cases hl
        · rename_i a₁ ha₁
          obtain ⟨h₁, hgrow₁⟩ := hlost a₁ ha₁
          obtain ⟨h₂, hgrow₂⟩ := h₁.recv (A := A) p now
          rw [← Except.ok.inj hl]
          exact ⟨h₂, hgrow₁.trans hgrow₂⟩
  · rw [← Except.ok.inj hl]
    exact ⟨h, Grows.refl A a⟩

/-- What an update says is what the table of its sender has. -/
structure Tells (a : DSDVAgent) (u : Update) : Prop where
  src_eq : u.src = a.myaddr
  dsts : u.entries.Pairwise fun x y => x.dst ≠ y.dst
  rank_eq : ∀ adv ∈ u.entries, a.rank adv.dst = fresh adv.seqnum adv.metric

/-- The node writes its own entry with its next sequence number. -/
theorem Tidy.advance (h : Tidy a) (now : ℚ) : Tidy (a.advance now) ∧ Grows A a (a.advance now) := by
  refine h.write (h.sorted.put _) rfl (Nat.le_add_right _ 2) (getEntry_put _ a.table) ?_ ?_ ?_ ?_ ?_
  · show fresh (a.seqno + 2) 0 ≤ a.rank a.myaddr
    cases hg : a.table.getEntry a.myaddr with
    | none =>
        rw [rank, hg]
        exact le_top
    | some e =>
        rw [rank_of_getEntry hg]
        have hle := h.own_le e hg
        exact fresh_le_iff.mpr (Or.inl (by omega))
  · rintro ⟨⟩
  · rintro q ⟨⟩
  · intro _
    exact Or.inl (le_refl _)
  · intro hne
    exact absurd rfl hne

/-- The entries of an update are those of the table it leaves. -/
theorem Tidy.pack (h : Tidy a) {full : Bool} {n : ℕ} {included : RtableEnt → Bool}
    {u? : Option Update} (hp : a.pack full n included = .ok (a', u?)) :
    Tidy a' ∧ Grows A a a' ∧ ∀ u, u? = some u → Tells a' u := by
  rw [DSDVAgent.pack] at hp
  dsimp only at hp
  split at hp
  · have hplain : Plain fun prte => if included prte = true then
        { prte with lastAdvertisedMetric := prte.metric, advertSeqnum := false,
                    advertMetric := if full = true then false else prte.advertMetric }
        else prte := by
      constructor
      all_goals
        intro e
        split <;> rfl
    rw [Except.ok.injEq, Prod.mk.injEq] at hp
    obtain ⟨ha', hu⟩ := hp
    subst ha'
    refine ⟨(h.map (A := A) hplain).1, (h.map hplain).2, ?_⟩
    rintro u rfl
    obtain rfl := Option.some.inj hu
    refine ⟨rfl, ?_, ?_⟩
    · apply List.pairwise_map.mpr
      exact (h.sorted.filter _).imp fun hlt => hlt.ne
    · intro adv hadv
      obtain ⟨e, he, rfl⟩ := List.mem_map.mp hadv
      have hg := getEntry_of_mem h.sorted (List.mem_of_mem_filter he)
      have hg' := getEntry_map _ hplain.dst_eq a.table e.dst
      rw [hg] at hg'
      rw [rank_of_getEntry hg', hplain.seqnum_eq, hplain.metric_eq]
  · cases hp

theorem Tidy.makeUpdate (h : Tidy a) {full : Bool} {u? : Option Update}
    (hm : a.makeUpdate full now = .ok (a', u?)) :
    Tidy a' ∧ Grows A a a' ∧ ∀ u, u? = some u → Tells a' u := by
  rw [DSDVAgent.makeUpdate] at hm
  dsimp only at hm
  split at hm
  · obtain ⟨h₁, hgrow₁⟩ := h.advance (A := A) now
    split at hm
    · rw [Except.ok.injEq, Prod.mk.injEq] at hm
      obtain ⟨rfl, rfl⟩ := hm
      exact ⟨h₁, hgrow₁, fun u hu => by cases hu⟩
    · obtain ⟨h₂, hgrow₂, htells⟩ := h₁.pack (A := A) hm
      exact ⟨h₂, hgrow₁.trans hgrow₂, htells⟩
  · split at hm
    · rw [Except.ok.injEq, Prod.mk.injEq] at hm
      obtain ⟨rfl, rfl⟩ := hm
      exact ⟨h, Grows.refl A a, fun u hu => by cases hu⟩
    · exact h.pack hm

/-- The time of the last update is not part of the routes. -/
theorem Tells.congr {u : Update} (h : Tells a u) (ha : a'.myaddr = a.myaddr)
    (hr : a'.rank = a.rank) : Tells a' u := by
  refine ⟨h.src_eq.trans ha.symm, h.dsts, ?_⟩
  rw [hr]
  exact h.rank_eq

theorem Tidy.periodic (h : Tidy a) {u? : Option Update} (hp : a.periodic now = .ok (a', u?)) :
    Tidy a' ∧ Grows A a a' ∧ ∀ u, u? = some u → Tells a' u := by
  rw [DSDVAgent.periodic] at hp
  split at hp
  · cases hp
  · rename_i a₁ u₁ hm
    obtain ⟨h₁, hgrow, htells⟩ := h.makeUpdate (A := A) hm
    rw [Except.ok.injEq, Prod.mk.injEq] at hp
    obtain ⟨rfl, rfl⟩ := hp
    exact ⟨{ h₁ with }, { hgrow with }, fun u hu => (htells u hu).congr rfl rfl⟩

theorem Tidy.triggered (h : Tidy a) {dst : Addr} {u? : Option Update}
    (ht : a.triggered dst now = .ok (a', u?)) :
    Tidy a' ∧ Grows A a a' ∧ ∀ u, u? = some u → Tells a' u := by
  rw [DSDVAgent.triggered] at ht
  split at ht
  · dsimp only at ht
    split at ht
    · -- the event is put off, and others before it are cancelled
      rw [Except.ok.injEq, Prod.mk.injEq] at ht
      obtain ⟨rfl, rfl⟩ := ht
      obtain ⟨h₁, hgrow₁⟩ := h.modify (A := A)
        (f := fun prte => { prte with triggerEvent := some (a.lasttup + DSDV_MIN_TUP_PERIOD) })
        ⟨fun _ => rfl, fun _ => rfl, fun _ => rfl, fun _ => rfl, fun _ => rfl⟩ dst
      have hcancel : Plain fun prte => { prte with
          triggerEvent := prte.triggerEvent.filter (a.lasttup + DSDV_MIN_TUP_PERIOD ≤ ·) } :=
        ⟨fun _ => rfl, fun _ => rfl, fun _ => rfl, fun _ => rfl, fun _ => rfl⟩
      refine ⟨(h₁.map (A := A) hcancel).1, hgrow₁.trans (h₁.map hcancel).2, ?_⟩
      rintro u ⟨⟩
    · split at ht
      · cases ht
      · rename_i a₁ u₁ hm
        obtain ⟨h₁, hgrow₁, htells⟩ := h.makeUpdate (A := A) hm
        rw [Except.ok.injEq, Prod.mk.injEq] at ht
        obtain ⟨rfl, rfl⟩ := ht
        have hfree : Plain fun prte => { prte with triggerEvent := none } :=
          ⟨fun _ => rfl, fun _ => rfl, fun _ => rfl, fun _ => rfl, fun _ => rfl⟩
        generalize ha₂ : (if u₁.isSome = true then { a₁ with lasttup := now } else a₁) = a₂
        have htable : a₂.table = a₁.table := by
          rw [← ha₂]
          split <;> rfl
        have hnode :
            SameNode a₁ (a₂.modify dst fun prte => { prte with triggerEvent := none }) := by
          rw [← ha₂]
          constructor <;> split <;> rfl
        have hfinal : (a₂.modify dst fun prte => { prte with triggerEvent := none }).table =
            a₁.table.map fun e => if e.dst = dst then { e with triggerEvent := none } else e := by
          rw [← htable]
          rfl
        obtain ⟨h₂, hgrow₂⟩ := h₁.plain (A := A) (hfree.at dst) hnode hfinal
        refine ⟨h₂, hgrow₁.trans hgrow₂, fun u hu => ?_⟩
        exact (htells u hu).congr hgrow₂.myaddr_eq (rank_plain (hfree.at dst) hfinal)
  · cases ht

end Timers

end DSDVAgent

end ComputerNetworking.Dsdv
