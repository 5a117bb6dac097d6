import ComputerNetworking.Dsdv.Updates

/-!
# DSDV builds no routing circle, until a queue is given away

The invariant of the network joins every table with every update in the air: an
advert is never better than what its sender still has (`Inv`). Every event keeps
it unless it processes a stale destination (`Inv.step`), so in runs without one
no sequence number decreases and no circle comes up
(`loopFree_of_releasesFresh`). A stale destination is written back over the
newer entry: `circle_after_late_write` is a run of three nodes that ends in one.
-/

set_option autoImplicit false

namespace ComputerNetworking.Dsdv

open ComputerNetworking.Foundations RoutingTable DSDVAgent

namespace Network

variable {s s' : Network} {n : Addr} {a : DSDVAgent} {u? : Option Update} {ev : Event}

/-- The adverts in the air. -/
def Advertised (s : Network) (x d : Addr) (r : Freshness) : Prop :=
  ∃ u ∈ s.air, u.src = x ∧ ∃ adv ∈ u.entries, adv.dst = d ∧ r = fresh adv.seqnum adv.metric

/-- The network as a routing towards `d`. -/
def routing (s : Network) (d : Addr) : Routing Addr Freshness where
  rank x := (s.agents x).rank d
  next := s.NextHop d
  advert x := s.Advertised x d

/-- The invariant of all tables and all updates in the air. -/
structure Inv (s : Network) : Prop where
  myaddr_eq : ∀ n, (s.agents n).myaddr = n
  tidy : ∀ n, Tidy (s.agents n)
  dsts : ∀ u ∈ s.air, u.entries.Pairwise fun x y => x.dst ≠ y.dst
  sound : ∀ d, (s.routing d).Sound d

theorem put_agents_self : (s.put n a u?).agents n = a := by
  rw [Network.put]
  exact Function.update_self n a s.agents

theorem put_agents_of_ne {m : Addr} (h : m ≠ n) :
    (s.put n a u?).agents m = s.agents m := by
  rw [Network.put]
  exact Function.update_of_ne h a s.agents

/-- A node that grows keeps what the others have, and tells what it has. -/
theorem Inv.advance (h : Inv s) (hgrow : Grows s.Advertised (s.agents n) a)
    (htells : ∀ u, u? = some u → Tells a u) (d : Addr) :
    Routing.Advance d (s.routing d) ((s.put n a u?).routing d) := by
  have hn := h.myaddr_eq n
  apply Routing.Advance.of_node
  · show ((s.put n a u?).agents n).rank d ≤ (s.agents n).rank d
    rw [put_agents_self]
    exact hgrow.rank_le d
  · rintro hd x ⟨e', he', hm', rfl⟩
    rw [entry, put_agents_self] at he'
    show _ ∨ (_ ∧ (s.agents n).rank d ≤ ((s.put n a u?).agents n).rank d) ∨
      ∃ r, s.Advertised e'.hop d r ∧ r < ((s.put n a u?).agents n).rank d
    rw [put_agents_self, rank_of_getEntry he']
    rcases hgrow.adopted d e' (hn.symm ▸ Ne.symm hd) he' hm' with
      hhop | ⟨e, he, hm, hhop, hle⟩ | hadv
    · exact Or.inl hhop
    · refine Or.inr (Or.inl ⟨⟨e, he, hm, hhop⟩, ?_⟩)
      rw [rank_of_getEntry he]
      exact hle
    · exact Or.inr (Or.inr hadv)
  · intro x hx
    exact congrArg (fun b : DSDVAgent => b.rank d) (put_agents_of_ne hx)
  · rintro y x hy ⟨e', he', hm', rfl⟩
    rw [entry, put_agents_of_ne hy] at he'
    exact ⟨e', he', hm', rfl⟩
  · rintro x r ⟨u, hu, rfl, adv, hadv, rfl, rfl⟩
    rcases List.mem_append.mp hu with hold | hnew
    · exact Or.inr (Or.inl ⟨u, hold, rfl, adv, hadv, rfl, rfl⟩)
    · -- the update that was made in this step
      have ht := htells u (Option.mem_toList.mp hnew)
      have hsrc : u.src = n := ht.src_eq.trans (hgrow.myaddr_eq.trans hn)
      refine Or.inr (Or.inr ?_)
      show ((s.put n a u?).agents u.src).rank adv.dst ≤ _
      rw [hsrc, put_agents_self, ht.rank_eq adv hadv]

theorem Inv.put (h : Inv s) (ht : Tidy a) (hgrow : Grows s.Advertised (s.agents n) a)
    (htells : ∀ u, u? = some u → Tells a u) : Inv (s.put n a u?) := by
  refine ⟨?_, ?_, ?_, fun d => (h.sound d).advance (h.advance hgrow htells d)⟩
  · intro m
    by_cases hm : m = n
    · rw [hm, put_agents_self]
      exact hgrow.myaddr_eq.trans (h.myaddr_eq n)
    · rw [put_agents_of_ne hm]
      exact h.myaddr_eq m
  · intro m
    by_cases hm : m = n
    · rw [hm, put_agents_self]
      exact ht
    · rw [put_agents_of_ne hm]
      exact h.tidy m
  · intro u hu
    rcases List.mem_append.mp hu with hold | hnew
    · exact h.dsts u hold
    · exact (htells u (Option.mem_toList.mp hnew)).dsts

/-- A node that grows keeps its sequence numbers. -/
theorem seqnumsKept_put {A : Addr → Addr → Freshness → Prop} (hgrow : Grows A (s.agents n) a) :
    SeqnumsKept s (s.put n a u?) := by
  intro m d e he
  rw [entry] at he ⊢
  by_cases hm : m = n
  · subst hm
    rw [put_agents_self]
    have hle := hgrow.rank_le d
    rw [rank_of_getEntry he] at hle
    cases he' : a.table.getEntry d with
    | none =>
        rw [rank, he'] at hle
        exact absurd (top_le_iff.mp hle) fresh_ne_top
    | some e' =>
        rw [rank_of_getEntry he'] at hle
        exact ⟨e', rfl, seq_le_of_fresh_le hle⟩
  · rw [put_agents_of_ne hm]
    exact ⟨e, he, le_refl _⟩

theorem seqnumsKept_refl (s : Network) : SeqnumsKept s s := fun _ _ e he => ⟨e, he, le_refl _⟩

/-- The outcome of a handler under which the agent grows. -/
theorem Inv.after (h : Inv s) {r : Except Failure (DSDVAgent × Option Update)}
    (hr : ∀ a u?, r = .ok (a, u?) → Tidy a ∧ Grows s.Advertised (s.agents n) a ∧
      ∀ u, u? = some u → Tells a u)
    (hs : s.after n r = .ok s') : Inv s' ∧ SeqnumsKept s s' := by
  cases r with
  | error f => cases hs
  | ok p =>
      obtain ⟨a, u?⟩ := p
      obtain ⟨ht, hgrow, htells⟩ := hr a u? rfl
      rw [← Except.ok.inj hs]
      exact ⟨h.put ht hgrow htells, seqnumsKept_put hgrow⟩

/-- The outcome of a handler that broadcasts nothing. -/
theorem Inv.after_quiet (h : Inv s) {r : Except Failure DSDVAgent}
    (hr : ∀ a, r = .ok a → Tidy a ∧ Grows s.Advertised (s.agents n) a)
    (hs : s.after n (r.map (·, none)) = .ok s') : Inv s' ∧ SeqnumsKept s s' := by
  refine h.after ?_ hs
  intro a u? hmap
  cases r with
  | error f => cases hmap
  | ok a₁ =>
      obtain ⟨rfl, rfl⟩ := Prod.mk.inj (Except.ok.inj hmap)
      obtain ⟨ht, hgrow⟩ := hr a₁ rfl
      refine ⟨ht, hgrow, ?_⟩
      rintro u ⟨⟩

/-- An event that does not process a stale destination. -/
theorem Inv.step (h : Inv s) (hev : s.ReleasesFresh ev) (hs : s.step ev = .ok s') :
    Inv s' ∧ SeqnumsKept s s' := by
  cases ev with
  | periodic n now => exact h.after (fun a u? hp => (h.tidy n).periodic hp) hs
  | triggered n dst now => exact h.after (fun a u? ht => (h.tidy n).triggered ht) hs
  | timeout n dst now => exact h.after_quiet (fun a ht => (h.tidy n).timeout ht) hs
  | packet n p now =>
      obtain ⟨ht, hgrow⟩ := (h.tidy n).recv (A := s.Advertised) p now
      rw [← Except.ok.inj hs]
      refine ⟨h.put ht hgrow ?_, seqnumsKept_put hgrow⟩
      rintro u ⟨⟩
  | lostLink n p nextHop now => exact h.after_quiet (fun a hl => (h.tidy n).lostLink hl) hs
  | deliver n k now =>
      rw [Network.step] at hs
      split at hs
      · rw [← Except.ok.inj hs]
        exact ⟨h, seqnumsKept_refl s⟩
      · rename_i u hu
        split at hs
        · rw [← Except.ok.inj hs]
          exact ⟨h, seqnumsKept_refl s⟩
        · rename_i hsrc
          have hmem : u ∈ s.air := List.mem_of_getElem? hu
          refine h.after_quiet (fun a hp => ?_) hs
          refine (h.tidy n).processUpdate ?_ (h.dsts u hmem) ?_ ?_ hp
          · rw [h.myaddr_eq]
            exact hsrc
          · intro adv hadv _
            exact ⟨u, hmem, rfl, adv, hadv, rfl, rfl⟩
          · intro adv hadv hne hst
            rw [h.myaddr_eq] at hne
            exact hev u hu hsrc adv hadv ⟨hne, hst⟩

theorem Inv.loopFree (h : Inv s) : s.LoopFree := fun d y => (h.sound d).no_return y

/-- At the start every node knows itself. -/
theorem inv_start (cfg : Addr → Config) : Inv (start cfg) := by
  have hentry : ∀ n d e, ((start cfg).agents n).table.getEntry d = some e →
      d = n ∧ e.seqnum = 0 ∧ e.q = none := by
    intro n d e he
    have hd := dst_of_getEntry he
    have heq := List.mem_singleton.mp (mem_of_getEntry he)
    rw [heq] at hd ⊢
    exact ⟨hd.symm, rfl, rfl⟩
  refine ⟨fun _ => rfl, ?_, ?_, ?_⟩
  · intro n
    refine ⟨List.pairwise_singleton _ _, ?_, ?_, ?_⟩
    · intro d e he hq
      rw [(hentry n d e he).2.2] at hq
      cases hq
    · intro d e q he hq
      rw [(hentry n d e he).2.2] at hq
      cases hq
    · intro e he
      rw [(hentry n _ e he).2.1]
      exact Or.inl (Nat.zero_le _)
  · intro u hu
    cases hu
  · intro d
    constructor
    · rintro y x hy ⟨e, he, -, -⟩
      exact absurd (hentry y d e he).1.symm hy
    · rintro x r ⟨u, hu, -⟩
      cases hu

instance (s : Network) (n : Addr) (adv : Advert) : Decidable (s.Stale n adv) :=
  inferInstanceAs (Decidable (adv.dst ≠ n ∧ adv.metric ≠ BIG ∧ adv.metric + 1 ≠ BIG ∧
    ∃ e ∈ s.entry n adv.dst, e.q.isSome ∧ adv.seqnum < e.seqnum))

instance (s : Network) : (ev : Event) → Decidable (s.ReleasesFresh ev)
  | .deliver n k _ => inferInstanceAs (Decidable
      (∀ u ∈ s.air[k]?, u.src ≠ n → ∀ adv ∈ u.adverts, ¬s.Stale n adv))
  | .periodic .. | .triggered .. | .timeout .. | .packet .. | .lostLink .. => isTrue trivial

/-- In a run that never processes a stale destination, no sequence number decreases
and no circle comes up. -/
theorem loopFree_of_releasesFresh (cfg : Addr → Config) (evs : List Event)
    (h : Along Network.step ReleasesFresh (start cfg) evs) :
    (start cfg).LoopFree ∧
      Along Network.step (fun s ev => ∀ s', s.step ev = .ok s' → SeqnumsKept s s' ∧ s'.LoopFree)
        (start cfg) evs := by
  have hinv : ∀ s ev s', Inv s → s.ReleasesFresh ev → s.step ev = .ok s' → Inv s' := by
    intro s ev s' hinv hev hs
    exact (hinv.step hev hs).1
  refine ⟨(inv_start cfg).loopFree, Along.of_invariant hinv ?_ (inv_start cfg) h⟩
  intro s ev hinv hev s' hs
  obtain ⟨hinv', hkept⟩ := hinv.step hev hs
  exact ⟨hkept, hinv'.loopFree⟩

/-- Node 2 is heard by node 1 and node 1 by node 0; then node 2 times out at node 1,
a packet for node 2 is queued there, and an update of node 0 comes in. -/
def lateWriteRun : List Event :=
  [.periodic 2 0, .deliver 1 0 0, .periodic 1 20, .deliver 0 1 20, .periodic 0 40,
    .timeout 1 2 60, .packet 1 { src := 0, dst := 2, ttl := 31, numForwards := 1 } 61,
    .deliver 1 2 62]

theorem loopFree_of_releasesFresh_before_late_write :
    (start fun _ => { useMac := true }).LoopFree ∧
      Along Network.step (fun s ev => ∀ s', s.step ev = .ok s' → SeqnumsKept s s' ∧ s'.LoopFree)
        (start fun _ => { useMac := true }) (lateWriteRun.take 7) :=
  loopFree_of_releasesFresh _ (lateWriteRun.take 7) (by decide +kernel)

/-- What a node knows about `d`: the next hop, the metric and the sequence number. -/
def route (s : Network) (n d : Addr) : Option (Addr × ℕ × ℕ) :=
  (s.entry n d).map fun e => (e.hop, e.metric, e.seqnum)

theorem nextHop_of_route {d y x m q : ℕ} (h : s.route y d = some (x, m, q)) (hm : m ≠ BIG) :
    s.NextHop d y x := by
  obtain ⟨e, he, heq⟩ := Option.map_eq_some_iff.mp h
  obtain ⟨rfl, heq'⟩ := Prod.mk.inj heq
  obtain ⟨rfl, rfl⟩ := Prod.mk.inj heq'
  exact ⟨e, he, hm, rfl⟩

/-- The number that node 1 has for node 2 goes back from 5 to 4, and nodes 0 and 1
are each other's next hops. -/
theorem circle_after_late_write : ¬∀ (cfg : Addr → Config) (evs : List Event),
    Along Network.step (fun s ev => ∀ s', s.step ev = .ok s' → SeqnumsKept s s' ∧ s'.LoopFree)
      (start cfg) evs := by
  intro hall
  have hrun := hall (fun _ => { useMac := true }) lateWriteRun
  have hroutes : (runAll Network.step (start fun _ => { useMac := true }) lateWriteRun).map
      (fun s => (s.route 0 2, s.route 1 2)) = .ok (some (1, 2, 4), some (0, 3, 4)) := by
    decide +kernel
  cases hs : runAll Network.step (start fun _ => { useMac := true }) lateWriteRun with
  | error f =>
      rw [hs] at hroutes
      cases hroutes
  | ok s =>
      rw [hs] at hroutes
      obtain ⟨h0, h1⟩ := Prod.mk.inj (Except.ok.inj hroutes)
      have hhop0 := nextHop_of_route h0 (by decide)
      have hhop1 := nextHop_of_route h1 (by decide)
      have hafter : AfterEach Network.step LoopFree (start fun _ => { useMac := true })
          lateWriteRun :=
        Along.of_invariant (fun _ _ _ _ _ _ => trivial) (fun _ _ _ hP s' hs' => (hP s' hs').2)
          trivial hrun
      exact hafter.of_runAll (by decide) hs 2 0
        (.tail (.single ⟨by decide, hhop0⟩) ⟨by decide, hhop1⟩)

end Network

end ComputerNetworking.Dsdv
