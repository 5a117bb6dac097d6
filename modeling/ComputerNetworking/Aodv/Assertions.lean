import ComputerNetworking.Aodv.Checked

/-!
# When the assertions of an AODV agent hold

`handle_link_failure`, `rt_purge`, `recvReply` and `recvError` assert that a route with a hop
count is in use. A local repair breaks this: the route is not in use, but it keeps its hop
count and its next hop. The assertions fail exactly when such a route leads over the neighbour
that is lost, is listed in a route error of its next hop or has to take a reply back, or when
a route in use has come over 255 hops; and a route error is too long exactly when more than
100 routes lead over the lost neighbour (`assertions_hold_iff`). In `failed_repair_run` the
link of a route under repair fails once more.
-/

set_option autoImplicit false

namespace ComputerNetworking.Aodv

open ComputerNetworking.Foundations RoutingTable

/-- The route is under repair and has still got its hop count. -/
def Route.Mending (r : Route) : Prop := r.rtFlags = .inRepair ∧ r.rtHops ≠ INFINITY2

/-- The route is in use, but has the hop count of a destination that is not reached. -/
def Route.Overlong (r : Route) : Prop := r.rtFlags = .up ∧ r.rtHops = INFINITY2

namespace AODV

/-- The table has a route to `d` of which `P` holds. -/
def HasRoute (a : AODV) (d : Addr) (P : Route → Prop) : Prop := ∃ r, a.route d = some r ∧ P r

/-- The route to `d`, which is under repair, leads over the neighbour `id`. -/
def MendingOver (a : AODV) (id d : Addr) : Prop :=
  a.HasRoute d fun r => r.Mending ∧ r.rtNexthop = id

/-- The number of the routes that lead over the neighbour `id`. -/
def routesOver (a : AODV) (id : Addr) : ℕ :=
  a.rtable.countP fun rt => rt.rtHops ≠ INFINITY2 ∧ rt.rtNexthop = id

/-- `rt_ll_failed` gives up the neighbour and does not try a local repair. -/
def GivesUp (a : AODV) (p : Packet) : Prop :=
  p.daddr ≠ IP_BROADCAST ∧
    ∃ rt, a.rtable.rtLookup p.daddr = some rt ∧ p.numForwards ≤ rt.rtHops

/-- The reply is taken over and would be handed on along a route under repair. -/
def RepairUsed (a : AODV) (rp : Reply) : Prop :=
  Fresher (a.rtEntry rp.rpDst) rp.rpDstSeqno rp.rpHopCount ∧ rp.daddr ≠ a.index ∧
    rp.daddr ≠ rp.rpDst ∧ a.HasRoute rp.daddr Route.Mending

/-- The next hop `saddr` of a route under repair has lost the destination. -/
def RepairLost (a : AODV) (saddr : Addr) (lost : Addr × ℕ) : Prop :=
  a.HasRoute lost.1 fun r => r.Mending ∧ r.rtNexthop = saddr ∧ r.rtSeqno ≤ lost.2

/-- The message touches no route under repair. -/
def Spares (a : AODV) : Message → Prop
  | .request _ => True
  | .reply rp => ¬a.RepairUsed rp
  | .error re => ∀ lost ∈ re.unreachable, ¬a.RepairLost re.saddr lost

/-- The call returns if `P` holds and fails if not. -/
def LandsIff (P : Prop) (r : Except Failure AODV) : Prop :=
  (P → Lands r) ∧ (¬P → ∃ f, r = .error f)

variable {a a' : AODV} {d d' dst id saddr : Addr} {rt : RtEntry} {f : RtEntry → RtEntry}
  {env : Env} {p : Packet} {rp : Reply} {re : RouteError} {lost : Addr × ℕ}
  {s : AODV × List (Addr × ℕ)} {r : Except Failure AODV} {m : Message}

theorem LandsIff.iff {P : Prop} (h : LandsIff P r) :
    r ≠ .error .assertion ∧ r ≠ .error .overflow ↔ P := by
  by_cases hP : P
  · obtain ⟨a, rfl, -⟩ := h.1 hP
    exact iff_of_true ⟨(by rintro ⟨⟩), (by rintro ⟨⟩)⟩ hP
  · obtain ⟨f, rfl⟩ := h.2 hP
    refine iff_of_false ?_ hP
    cases f with
    | assertion => exact fun hne => hne.1 rfl
    | overflow => exact fun hne => hne.2 rfl

theorem LandsIff.checked {P : Prop} (h : LandsIff P r) (hr : r = .ok a) : Checked a := by
  by_cases hP : P
  · obtain ⟨b, hb, hchecked⟩ := h.1 hP
    cases hr.symm.trans hb
    exact hchecked
  · obtain ⟨f, hf⟩ := h.2 hP
    cases hr.symm.trans hf

theorem Safe.checked (h : Safe r) (hr : r = .ok a) : Checked a := by
  rcases h with ⟨b, hb, hchecked⟩ | herror
  · cases hr.symm.trans hb
    exact hchecked
  · cases hr.symm.trans herror

theorem Safe.ne_overflow (h : Safe r) : r ≠ .error .overflow := by
  rcases h with ⟨b, rfl, -⟩ | rfl
  · rintro ⟨⟩
  · rintro ⟨⟩

/-! ## The entries of the table -/

theorem rtLookup_of_mem {t : RoutingTable} (hnodup : (t.map (·.rtDst)).Nodup) (hrt : rt ∈ t) :
    t.rtLookup rt.rtDst = some rt := by
  induction t with
  | nil => cases hrt
  | cons first t ih =>
      obtain ⟨hfirst, hrest⟩ := List.nodup_cons.mp hnodup
      rcases List.mem_cons.mp hrt with rfl | hrt
      · exact rtLookup_cons_self rfl
      · rw [rtLookup_cons_of_ne]
        · exact ih hrest hrt
        · rintro heq
          exact hfirst (List.mem_map.mpr ⟨rt, hrt, heq.symm⟩)

theorem mem_of_rtLookup {t : RoutingTable} (hl : t.rtLookup d = some rt) :
    d ∈ t.map (·.rtDst) := by
  rw [rtLookup] at hl
  have hkey := List.find?_some hl
  exact List.mem_map.mpr ⟨rt, List.mem_of_find?_eq_some hl, of_decide_eq_true hkey⟩

theorem route_of_rtLookup (hl : a.rtable.rtLookup d = some rt) : a.route d = some rt.route := by
  rw [route, hl]
  rfl

theorem route_modify_of_ne (hf : ∀ rt, (f rt).rtDst = rt.rtDst) (a : AODV) (hd : d ≠ dst) :
    (a.modify dst f).route d = a.route d := by
  rw [route_modify hf, if_neg hd]

theorem route_modify_self (hf : ∀ rt, (f rt).rtDst = rt.rtDst)
    (hl : a.rtable.rtLookup d = some rt) : (a.modify d f).route d = some (f rt).route := by
  rw [route_modify hf, if_pos rfl, hl]
  rfl

theorem hasRoute_iff {P : Route → Prop} (hl : a.rtable.rtLookup d = some rt) :
    a.HasRoute d P ↔ P rt.route := by
  rw [HasRoute, route_of_rtLookup hl]
  constructor
  · rintro ⟨r, hr, hP⟩
    rwa [Option.some.inj hr]
  · exact fun hP => ⟨_, rfl, hP⟩

theorem HasRoute.exists_rtLookup {P : Route → Prop} (h : a.HasRoute d P) :
    ∃ rt, a.rtable.rtLookup d = some rt ∧ P rt.route := by
  obtain ⟨r, hr, hP⟩ := h
  obtain ⟨rt, hl, rfl⟩ := Option.map_eq_some_iff.mp hr
  exact ⟨rt, hl, hP⟩

theorem hasRoute_congr {P : Route → Prop} (h : a'.route d = a.route d) :
    a'.HasRoute d P ↔ a.HasRoute d P := by
  rw [HasRoute, h, HasRoute]

/-- A turn for `d` before and after which its route does not have the property. -/
theorem hasRoute_iff_of_turn {P : Route → Prop}
    (hsame : ∀ d', d' ≠ d → a'.route d' = a.route d') (hbefore : ¬a.HasRoute d P)
    (hafter : ¬a'.HasRoute d P) (d' : Addr) : a'.HasRoute d' P ↔ a.HasRoute d' P := by
  by_cases hd : d' = d
  · subst hd
    exact iff_of_false hafter hbefore
  · exact hasRoute_congr (hsame d' hd)

/-- A route with a hop count that is not under repair is in use, and its number is even. -/
theorem Checked.up (h : Checked a) (hl : a.rtable.rtLookup d = some rt)
    (hhops : rt.rtHops ≠ INFINITY2) (hmend : rt.rtFlags ≠ .inRepair) :
    rt.rtFlags = .up ∧ rt.rtSeqno % 2 = 0 := by
  have hrt := h.entries d rt hl
  refine ⟨?_, hrt.even (Or.inr hhops)⟩
  cases hflags : rt.rtFlags with
  | up => rfl
  | down => exact absurd (hrt.hops_of_down hflags) hhops
  | inRepair => exact absurd hflags hmend

theorem down_of_up (hup : rt.rtFlags = .up) (seqno : ℕ) :
    ({ rt with rtSeqno := seqno } : RtEntry).down.rtFlags = .down := by
  rw [RtEntry.down, if_neg]
  intro hflags
  cases hup.symm.trans hflags

theorem counted_down_of_up (hup : rt.rtFlags = .up) (seqno : ℕ) :
    ({ rt with rtSeqno := seqno } : RtEntry).down.Counted := by
  apply RtEntry.counted_down
  right
  intro hflags
  cases hup.symm.trans hflags

/-! ## Failed links -/

/-- Whether the route to `d` leads over the neighbour `id`. -/
def leadsOver (a : AODV) (id d : Addr) : Bool :=
  (a.route d).any fun r => r.rtHops ≠ INFINITY2 ∧ r.rtNexthop = id

theorem routesOver_eq (hnodup : (a.rtable.map (·.rtDst)).Nodup) (id : Addr) :
    a.routesOver id = (a.rtable.map (·.rtDst)).countP (a.leadsOver id) := by
  rw [routesOver, List.countP_map]
  apply List.countP_congr
  intro rt hrt
  have hroute := route_of_rtLookup (rtLookup_of_mem hnodup hrt)
  show _ ↔ a.leadsOver id rt.rtDst = true
  rw [leadsOver, hroute]
  rfl

theorem breakRoute_of_mending (hd : s.1.MendingOver id d) :
    breakRoute id s d = .error .assertion := by
  obtain ⟨rt, hl, ⟨hflags, hhops⟩, hnext⟩ := hd.exists_rtLookup
  rw [breakRoute, hl]
  dsimp only
  rw [if_pos ⟨hhops, hnext⟩, if_neg]
  rintro ⟨hup, -⟩
  cases hup.symm.trans hflags

/-- A turn for a route that is not under repair breaks it if it leads over `id`. -/
theorem Checked.breakRoute (h : Checked s.1) (hd : ¬s.1.MendingOver id d) :
    ∃ s', breakRoute id s d = .ok s' ∧ Checked s'.1 ∧
      (∀ d', d' ≠ d → s'.1.route d' = s.1.route d') ∧ ¬s'.1.MendingOver id d ∧
      s'.2.length = s.2.length + if s.1.leadsOver id d then 1 else 0 := by
  rw [AODV.breakRoute]
  cases hl : s.1.rtable.rtLookup d with
  | none =>
      refine ⟨s, rfl, h, fun _ _ => rfl, hd, ?_⟩
      have hnone : s.1.leadsOver id d = false := by
        rw [leadsOver, route, hl]
        rfl
      rw [hnone]
      rfl
  | some rt =>
      have hroute := route_of_rtLookup hl
      have hlead : s.1.leadsOver id d = decide (rt.rtHops ≠ INFINITY2 ∧ rt.rtNexthop = id) := by
        rw [leadsOver, hroute]
        rfl
      dsimp only
      rw [hlead]
      by_cases hover : rt.rtHops ≠ INFINITY2 ∧ rt.rtNexthop = id
      · have hmend : rt.rtFlags ≠ .inRepair := by
          intro hflags
          exact hd ((hasRoute_iff hl).mpr ⟨⟨hflags, hover.1⟩, hover.2⟩)
        have hup := h.up hl hover.1 hmend
        have hdst : ∀ rt : RtEntry,
            (({ rt with rtSeqno := rt.rtSeqno + 1 } : RtEntry).down.pcDelete id).rtDst = rt.rtDst :=
          fun rt => down_rtDst _
        rw [if_pos hover, if_pos hup, decide_eq_true hover, if_pos rfl]
        refine ⟨_, rfl, h.modify hdst fun rt' hl' => ?_, ?_, ?_, ?_⟩
        · obtain rfl := Option.some.inj (hl.symm.trans hl')
          have hdown := counted_down_of_up hup.1 (rt.rtSeqno + 1)
          exact ⟨hdown.even, hdown.hops_of_down⟩
        · exact fun d' hd' => route_modify_of_ne hdst s.1 hd'
        · rintro ⟨r, hr, ⟨hflags, -⟩, -⟩
          obtain rfl := Option.some.inj ((route_modify_self hdst hl).symm.trans hr)
          cases (down_of_up hup.1 (rt.rtSeqno + 1)).symm.trans hflags
        · exact List.length_append
      · obtain ⟨b, hb, hchecked, -, hkept⟩ := h.plain (Plain.pcDelete id) d
        cases hb
        rw [if_neg hover, decide_eq_false hover]
        exact ⟨_, rfl, hchecked, fun d' _ => hkept d', mt (hasRoute_congr (hkept d)).mp hd, rfl⟩

/-- The loop breaks the routes over `id`, each once. -/
theorem Checked.breakRoutes (h : Checked s.1) {ds : List Addr} (hnodup : ds.Nodup)
    (hds : ∀ d ∈ ds, ¬s.1.MendingOver id d) :
    ∃ s', runAll (AODV.breakRoute id) s ds = .ok s' ∧ Checked s'.1 ∧
      s'.2.length = s.2.length + ds.countP (s.1.leadsOver id) := by
  induction ds generalizing s with
  | nil => exact ⟨s, rfl, h, rfl⟩
  | cons d ds ih =>
      obtain ⟨hd, hnodup'⟩ := List.nodup_cons.mp hnodup
      obtain ⟨t, ht, hchecked, hother, -, hlen⟩ := h.breakRoute (hds d List.mem_cons_self)
      have hsame : ∀ d' ∈ ds, t.1.route d' = s.1.route d' := by
        intro d' hd'
        apply hother
        rintro rfl
        exact hd hd'
      have hds' : ∀ d' ∈ ds, ¬t.1.MendingOver id d' := by
        intro d' hd'
        exact mt (hasRoute_congr (hsame d' hd')).mp (hds d' (List.mem_cons_of_mem d hd'))
      obtain ⟨s', hs', hchecked', hlen'⟩ := ih hchecked hnodup' hds'
      have hcount : ds.countP (t.1.leadsOver id) = ds.countP (s.1.leadsOver id) := by
        apply List.countP_congr
        intro d' hd'
        rw [leadsOver, leadsOver, hsame d' hd']
      refine ⟨s', (runAll_cons_ok ht).trans hs', hchecked', ?_⟩
      rw [hlen', hlen, hcount, List.countP_cons]
      omega

theorem Checked.handleLinkFailure (h : Checked a) (hrepair : ∀ d, ¬a.MendingOver id d)
    (hroutes : a.routesOver id ≤ AODV_MAX_ERRORS) : Lands (a.handleLinkFailure id) := by
  obtain ⟨s', hs', hchecked, hlen⟩ := @Checked.breakRoutes id (a, []) h _ h.nodup
    fun d _ => hrepair d
  rw [List.length_nil, zero_add, ← routesOver_eq h.nodup] at hlen
  rw [AODV.handleLinkFailure, hs']
  dsimp only
  split
  · exact hchecked.keeps_refl.lands
  · exact (hchecked.sendError (hlen.trans_le hroutes)).lands

theorem Checked.handleLinkFailure_fails (h : Checked a)
    (hbad : (∃ d, a.MendingOver id d) ∨ AODV_MAX_ERRORS < a.routesOver id) :
    ∃ f, a.handleLinkFailure id = .error f := by
  rw [AODV.handleLinkFailure]
  by_cases hrepair : ∃ d, a.MendingOver id d
  · obtain ⟨d, hd⟩ := hrepair
    obtain ⟨rt, hl, -⟩ := hd.exists_rtLookup
    have hblame := runAll_blame (fun s => Checked s.1) (fun s d => MendingOver s.1 id d)
      (fun s d _ hd => ⟨_, breakRoute_of_mending hd⟩)
      (fun s d hs hd => by
        obtain ⟨s', hs', hchecked, hother, hafter, -⟩ := hs.breakRoute hd
        exact ⟨s', hs', hchecked, hasRoute_iff_of_turn hother hd hafter⟩)
      (s := (a, [])) (a.rtable.map (·.rtDst)) h
    obtain ⟨f, hf⟩ := hblame.1 ⟨d, mem_of_rtLookup hl, hd⟩
    rw [hf]
    exact ⟨f, rfl⟩
  · obtain ⟨s', hs', hchecked, hlen⟩ := @Checked.breakRoutes id (a, []) h _ h.nodup
      fun d _ hd => hrepair ⟨d, hd⟩
    rw [List.length_nil, zero_add, ← routesOver_eq h.nodup] at hlen
    have hlong := hbad.resolve_left hrepair
    rw [← hlen] at hlong
    rw [hs']
    dsimp only
    rw [if_neg, AODV.sendError, if_pos hlong]
    · exact ⟨_, rfl⟩
    · intro hnil
      rw [hnil] at hlong
      cases hlong

theorem Checked.nbDelete (h : Checked a) (id : Addr) :
    ∃ b, Checked b ∧ b.rtable = a.rtable ∧ a.nbDelete id = b.handleLinkFailure id := by
  have heven : (a.seqno + 2) % 2 = 0 := by
    rw [Nat.add_mod_right]
    exact h.seqno_even
  have hseqno : Keeps a (.ok { a with seqno := a.seqno + 2 }) := h.aside heven rfl rfl rfl
  exact ⟨_, hseqno.checked, rfl, if_pos heven⟩

/-- `rt_ll_failed` fails when it gives up a neighbour over which there is a route under repair,
or too many routes. -/
theorem Checked.rtLlFailed (h : Checked a) (p : Packet) (nextHop : Addr) (env : Env) :
    LandsIff (a.GivesUp p →
        (∀ d, ¬a.MendingOver nextHop d) ∧ a.routesOver nextHop ≤ AODV_MAX_ERRORS)
      (a.rtLlFailed p nextHop env) := by
  obtain ⟨b, hb, htable, hdelete⟩ := h.nbDelete nextHop
  have hmending : ∀ d, b.MendingOver nextHop d ↔ a.MendingOver nextHop d := by
    intro d
    apply hasRoute_congr
    rw [route, htable, route]
  have hover : b.routesOver nextHop = a.routesOver nextHop := by
    rw [routesOver, htable, routesOver]
  by_cases hgives : a.GivesUp p
  · obtain ⟨hcast, rt, hl, hforwards⟩ := hgives
    have hfailed : a.rtLlFailed p nextHop env = b.handleLinkFailure nextHop := by
      rw [AODV.rtLlFailed, if_neg hcast, hl]
      dsimp only
      rw [if_neg (not_lt.mpr hforwards), hdelete]
    rw [hfailed]
    refine ⟨fun hgood => ?_, fun hbad => ?_⟩
    · obtain ⟨hrepair, hroutes⟩ := hgood ⟨hcast, rt, hl, hforwards⟩
      exact hb.handleLinkFailure (fun d => mt (hmending d).mp (hrepair d)) (hover.trans_le hroutes)
    · apply hb.handleLinkFailure_fails
      by_contra hnone
      obtain ⟨hrepair, hroutes⟩ := not_or.mp hnone
      apply hbad
      refine fun _ => ⟨fun d hd => hrepair ⟨d, (hmending d).mpr hd⟩, ?_⟩
      exact hover.symm.trans_le (not_lt.mp hroutes)
  · refine ⟨fun _ => ?_, fun hbad => absurd (fun hg => absurd hg hgives) hbad⟩
    rw [AODV.rtLlFailed]
    split
    · exact h.keeps_refl.lands
    · next hcast =>
        split
        · exact h.keeps_refl.lands
        · next rt hl =>
            split
            · exact h.localRtRepair hl env
            · next hforwards => exact absurd ⟨hcast, rt, hl, not_lt.mp hforwards⟩ hgives

/-! ## The timer of the routes -/

theorem purgeRoute_of_overlong (hd : a.HasRoute d Route.Overlong) :
    a.purgeRoute env d = .error .assertion := by
  obtain ⟨rt, hl, hup, hinf⟩ := hd.exists_rtLookup
  change rt.rtFlags = .up at hup
  change rt.rtHops = INFINITY2 at hinf
  rw [purgeRoute, hl]
  dsimp only
  by_cases hexpired : rt.rtFlags = .up ∧ rt.rtExpire < env.now
  · rw [if_pos hexpired, if_neg fun hodd => hodd.1 hinf]
  · rw [if_neg hexpired, if_pos hup, if_neg (not_not_intro hinf)]

/-- The packets that waited for a route in use are handled one by one. -/
theorem Checked.sendAll (h : Checked a) {step : AODV → Packet → Except Failure AODV}
    (hstep : ∀ a rt p, Checked a → a.rtable.rtLookup dst = some rt → rt.rtFlags = .up →
      Keeps a (step a p))
    (hl : a.rtable.rtLookup dst = some rt) (hup : rt.rtFlags = .up) (ps : List Packet) :
    Keeps a (runAll step a ps) := by
  induction ps generalizing a rt with
  | nil => exact h.keeps_refl
  | cons p ps ih =>
      obtain ⟨b, hb, hchecked, hindex, hroute⟩ := hstep a rt p h hl hup
      have hsame := (hroute dst).trans (route_of_rtLookup hl)
      obtain ⟨rt', hl', heq⟩ := Option.map_eq_some_iff.mp hsame
      have hup' : rt'.rtFlags = .up := (congrArg Route.rtFlags heq).trans hup
      rw [runAll_cons_ok hb]
      exact Keeps.trans ⟨b, rfl, hchecked, hindex, hroute⟩ (ih hchecked hl' hup')

/-- A turn of `rt_purge` for a route that is not too long. -/
theorem Checked.purgeRoute (h : Checked a) (hd : ¬a.HasRoute d Route.Overlong) (env : Env) :
    ∃ b, a.purgeRoute env d = .ok b ∧ Checked b ∧ (∀ d', d' ≠ d → b.route d' = a.route d') ∧
      ¬b.HasRoute d Route.Overlong := by
  have hkeeps : ∀ r, Keeps a r → ∃ b, r = .ok b ∧ Checked b ∧
      (∀ d', d' ≠ d → b.route d' = a.route d') ∧ ¬b.HasRoute d Route.Overlong := by
    rintro r ⟨b, hb, hchecked, -, hroute⟩
    exact ⟨b, hb, hchecked, fun d' _ => hroute d', mt (hasRoute_congr (hroute d)).mp hd⟩
  rw [AODV.purgeRoute]
  cases hl : a.rtable.rtLookup d with
  | none => exact hkeeps _ h.keeps_refl
  | some rt =>
      have hqueue := h.dequeue d env
      have hnot : ¬rt.route.Overlong := mt (hasRoute_iff hl).mpr hd
      dsimp only
      by_cases hup : rt.rtFlags = .up
      · have hhops : rt.rtHops ≠ INFINITY2 := fun hinf => hnot ⟨hup, hinf⟩
        have hodd : (rt.rtSeqno + 1) % 2 = 1 := by
          have heven := (h.entries d rt hl).even (Or.inl hup)
          omega
        by_cases hexpired : rt.rtFlags = .up ∧ rt.rtExpire < env.now
        · rw [if_pos hexpired, if_pos ⟨hhops, hodd⟩]
          have hdst : ∀ rt : RtEntry,
              ({ rt with rtSeqno := rt.rtSeqno + 1 } : RtEntry).down.rtDst = rt.rtDst :=
            fun rt => down_rtDst _
          refine ⟨_, rfl, hqueue.checked.modify hdst fun rt' hl' => ?_, ?_, ?_⟩
          · obtain rfl := Option.some.inj (hl.symm.trans hl')
            exact counted_down_of_up hup _
          · exact fun d' hd' => route_modify_of_ne hdst _ hd'
          · rintro ⟨r, hr, hflags, -⟩
            obtain rfl := Option.some.inj ((route_modify_self hdst hl).symm.trans hr)
            cases (down_of_up hup (rt.rtSeqno + 1)).symm.trans hflags
        · rw [if_neg hexpired, if_pos hup, if_pos hhops]
          apply hkeeps
          apply hqueue.trans
          exact hqueue.checked.sendAll (fun b rt p hb hl hup => hb.forward hl hup p env) hl hup _
      · rw [if_neg fun hexpired => hup hexpired.1, if_neg hup]
        split
        · exact hkeeps _ (h.sendRequest hl (fun hflags => absurd hflags hup) env)
        · exact hkeeps _ h.keeps_refl

/-- `rt_purge` fails at a route in use that is too long. -/
theorem Checked.rtPurge (h : Checked a) (env : Env) :
    LandsIff (∀ d, ¬a.HasRoute d Route.Overlong) (a.rtPurge env) := by
  obtain ⟨hfails, hlands⟩ := runAll_blame Checked (fun a d => a.HasRoute d Route.Overlong)
    (fun a d _ hd => ⟨_, purgeRoute_of_overlong hd⟩)
    (fun a d ha hd => by
      obtain ⟨b, hb, hchecked, hother, hafter⟩ := ha.purgeRoute hd env
      exact ⟨b, hb, hchecked, hasRoute_iff_of_turn hother hd hafter⟩)
    (a.rtable.map (·.rtDst)) h
  refine ⟨fun hgood => hlands fun d _ => hgood d, fun hbad => ?_⟩
  obtain ⟨d, hd⟩ := not_forall_not.mp hbad
  obtain ⟨rt, hl, -⟩ := hd.exists_rtLookup
  exact hfails ⟨d, mem_of_rtLookup hl, hd⟩

/-! ## Route replies -/

theorem Checked.forwardOn (h : Checked a) (hl : a.rtable.rtLookup dst = some rt)
    (hup : rt.rtFlags = .up) (p : Packet) (env : Env) : Keeps a (a.forwardOn dst p env) := by
  rw [AODV.forwardOn, hl]
  dsimp only
  split
  · exact h.forward hl hup p env
  · exact h.keeps_refl

theorem forwardReply_of_mending (hd : a.HasRoute rp.daddr Route.Mending) :
    a.forwardReply rp env = .error .assertion := by
  obtain ⟨rt, hl, hflags, hhops⟩ := hd.exists_rtLookup
  change rt.rtHops ≠ INFINITY2 at hhops
  rw [forwardReply, hl]
  dsimp only
  rw [if_pos hhops, if_neg]
  intro hup
  cases hup.symm.trans hflags

theorem Checked.forwardReply (h : Checked a) (heven : rp.rpDstSeqno % 2 = 0)
    (hd : ¬a.HasRoute rp.daddr Route.Mending) (env : Env) : Lands (a.forwardReply rp env) := by
  rw [AODV.forwardReply]
  cases hl : a.rtable.rtLookup rp.daddr with
  | none => exact h.keeps_refl.lands
  | some rt0 =>
      dsimp only
      split
      · next hhops =>
          have hmend : rt0.rtFlags ≠ .inRepair := by
            intro hflags
            exact hd ((hasRoute_iff hl).mpr ⟨hflags, hhops⟩)
          rw [if_pos (h.up hl hhops hmend).1]
          have hexpire : Plain fun rt0 : RtEntry =>
              { rt0 with rtExpire := env.now + ACTIVE_ROUTE_TIMEOUT } := by
            constructor <;> exact fun _ => rfl
          have hsent : Checked (if rp.ttl = 0 then a else
              (a.modify rp.daddr fun rt0 =>
                { rt0 with rtExpire := env.now + ACTIVE_ROUTE_TIMEOUT }).send
                (.reply { rp with nextHop := rt0.rtNexthop, rpSrc := a.index,
                                  rpHopCount := (rp.rpHopCount + 1) % 256 })) := by
            split
            · exact h
            · apply ((h.plain hexpire rp.daddr).checked.send (Message.fit_reply _)).checked
              exact heven
          exact (hsent.plain (Plain.pcInsert rt0.rtNexthop) rp.rpDst).lands
      · exact h.keeps_refl.lands

/-- `recvReply` fails at a reply that has to go back along a route under repair. -/
theorem Checked.recvReply (h : Checked a) (heven : rp.rpDstSeqno % 2 = 0) (env : Env) :
    LandsIff (¬a.RepairUsed rp) (a.recvReply rp env) := by
  have hadd := h.lookupOrAdd rp.rpDst
  have hl := rtLookup_lookupOrAdd a rp.rpDst
  have hdst : ∀ rt, (replied rt rp env).rtDst = rt.rtDst := fun _ => rfl
  have hindex : (a.lookupOrAdd rp.rpDst).index = a.index := by
    rw [AODV.lookupOrAdd]
    split <;> rfl
  rw [AODV.recvReply]
  dsimp only
  by_cases hfresher : Fresher (a.rtEntry rp.rpDst) rp.rpDstSeqno rp.rpHopCount
  · rw [if_pos hfresher]
    have hadopt : Checked ((a.lookupOrAdd rp.rpDst).modify rp.rpDst fun rt => replied rt rp env) :=
      hadd.modify hdst fun rt _ => ⟨fun _ => heven, fun hdown => by cases hdown⟩
    have hself := rtLookup_modify_self hdst hl
    have hother : ∀ d, d ≠ rp.rpDst →
        ((a.lookupOrAdd rp.rpDst).modify rp.rpDst fun rt => replied rt rp env).route d =
          a.route d := by
      intro d hd
      rw [route_modify_of_ne hdst _ hd, route, rtLookup_lookupOrAdd_of_ne a hd, route]
    replace hindex : ((a.lookupOrAdd rp.rpDst).modify rp.rpDst
        fun rt => replied rt rp env).index = a.index := hindex
    generalize (a.lookupOrAdd rp.rpDst).modify rp.rpDst _ = a₁ at hadopt hself hother hindex
    have hqueue := hadopt.dequeue rp.rpDst env
    have hloop := hqueue.checked.sendAll
      (fun b rt p hb hl hup => hb.forwardOn hl hup p env) hself rfl
      (Rqueue.taken rp.rpDst env.now a₁.rqueue)
    obtain ⟨a₂, ha₂, hchecked, hindex₂, hroute⟩ := hqueue.trans hloop
    rw [ha₂]
    dsimp only
    by_cases hmine : rp.daddr = a.index
    · rw [if_pos (hmine.trans (hindex₂.trans hindex).symm)]
      exact ⟨fun _ => hchecked.keeps_refl.lands, fun hused => absurd hmine (not_not.mp hused).2.1⟩
    · rw [if_neg fun hd => hmine (hd.trans (hindex₂.trans hindex))]
      by_cases hd : rp.daddr = rp.rpDst
      · refine ⟨fun _ => hchecked.forwardReply heven ?_ env,
          fun hused => absurd hd (not_not.mp hused).2.2.1⟩
        rw [hd, hasRoute_congr (hroute _), hasRoute_iff hself]
        rintro ⟨hflags, -⟩
        cases hflags
      · have hsame : a₂.HasRoute rp.daddr Route.Mending ↔ a.HasRoute rp.daddr Route.Mending :=
          hasRoute_congr ((hroute _).trans (hother _ hd))
        refine ⟨fun hused => hchecked.forwardReply heven ?_ env, fun hused => ?_⟩
        · exact fun hmend => hused ⟨hfresher, hmine, hd, hsame.mp hmend⟩
        · exact ⟨_, forwardReply_of_mending (hsame.mpr (not_not.mp hused).2.2.2)⟩
  · rw [if_neg hfresher]
    exact ⟨fun _ => hadd.keeps_refl.lands, fun hused => absurd (not_not.mp hused).1 hfresher⟩

/-! ## Route errors -/

theorem loseRoute_of_mending (hd : s.1.RepairLost saddr lost) :
    loseRoute saddr s lost = .error .assertion := by
  obtain ⟨rt, hl, ⟨hflags, hhops⟩, hnext, hle⟩ := hd.exists_rtLookup
  rw [loseRoute, hl]
  dsimp only
  rw [if_pos ⟨hhops, hnext, hle⟩, if_neg]
  rintro ⟨hup, -⟩
  cases hup.symm.trans hflags

/-- A turn for a lost destination whose route is not under repair. -/
theorem Checked.loseRoute (h : Checked s.1) (hlost : ¬s.1.RepairLost saddr lost) :
    ∃ s', loseRoute saddr s lost = .ok s' ∧ Checked s'.1 ∧
      ∀ other, s'.1.RepairLost saddr other ↔ s.1.RepairLost saddr other := by
  rw [AODV.loseRoute]
  cases hl : s.1.rtable.rtLookup lost.1 with
  | none => exact ⟨s, rfl, h, fun _ => Iff.rfl⟩
  | some rt =>
      dsimp only
      by_cases hends : rt.rtHops ≠ INFINITY2 ∧ rt.rtNexthop = saddr ∧ rt.rtSeqno ≤ lost.2
      · have hmend : rt.rtFlags ≠ .inRepair := by
          intro hflags
          exact hlost ((hasRoute_iff hl).mpr ⟨⟨hflags, hends.1⟩, hends.2⟩)
        have hup := h.up hl hends.1 hmend
        have hdst : ∀ rt : RtEntry,
            ({ rt with rtSeqno := lost.2 } : RtEntry).down.rtDst = rt.rtDst :=
          fun rt => down_rtDst _
        have hdown : Checked (s.1.modify lost.1 fun rt => { rt with rtSeqno := lost.2 }.down) := by
          apply h.modify hdst
          intro rt' hl'
          obtain rfl := Option.some.inj (hl.symm.trans hl')
          exact counted_down_of_up hup.1 lost.2
        have hself := route_modify_self hdst hl
        have hother : ∀ d, d ≠ lost.1 → (s.1.modify lost.1 fun rt =>
            { rt with rtSeqno := lost.2 }.down).route d = s.1.route d :=
          fun d hd => route_modify_of_ne hdst s.1 hd
        generalize s.1.modify lost.1 _ = b at hdown hself hother
        -- the route was in use, and it is down now
        have hsame : ∀ other, b.RepairLost saddr other ↔ s.1.RepairLost saddr other := by
          rintro ⟨d, seqno⟩
          apply hasRoute_iff_of_turn hother
          · rw [hasRoute_iff hl]
            exact fun hbad => hmend hbad.1.1
          · rintro ⟨r, hr, ⟨hflags, -⟩, -⟩
            obtain rfl := Option.some.inj (hself.symm.trans hr)
            cases (down_of_up hup.1 lost.2).symm.trans hflags
        rw [if_pos hends, if_pos hup]
        split
        · exact ⟨_, rfl, hdown, hsame⟩
        · have hempty : Plain fun rt : RtEntry => { rt with rtPclist := [] } := by
            constructor <;> exact fun _ => rfl
          obtain ⟨c, hc, hchecked, -, hroute⟩ := hdown.plain hempty lost.1
          cases hc
          exact ⟨_, rfl, hchecked, fun other => (hasRoute_congr (hroute _)).trans (hsame other)⟩
      · rw [if_neg hends]
        exact ⟨s, rfl, h, fun _ => Iff.rfl⟩

theorem length_loseRoute {s' : AODV × List (Addr × ℕ)} (hs : loseRoute saddr s lost = .ok s') :
    s'.2.length ≤ s.2.length + 1 := by
  rw [loseRoute] at hs
  repeat' split at hs
  all_goals cases hs
  · exact Nat.le_succ _
  · exact Nat.le_succ _
  · exact List.length_append.le
  · exact Nat.le_succ _

/-- `recvError` fails when it lists a route under repair; it never has to list more
destinations than it is told of. -/
theorem Checked.recvError (h : Checked a) (hlen : re.unreachable.length ≤ AODV_MAX_ERRORS) :
    LandsIff (∀ lost ∈ re.unreachable, ¬a.RepairLost re.saddr lost) (a.recvError re) := by
  obtain ⟨hfails, hlands⟩ := runAll_blame (fun s => Checked s.1)
    (fun s lost => RepairLost s.1 re.saddr lost) (fun s lost _ hd => ⟨_, loseRoute_of_mending hd⟩)
    (fun s lost hs hd => hs.loseRoute hd) (s := (a, [])) re.unreachable h
  rw [AODV.recvError]
  constructor
  · intro hgood
    obtain ⟨s', hs', hchecked⟩ := hlands hgood
    have hgrowth := runAll_growth (fun s : AODV × List (Addr × ℕ) => s.2.length)
      (fun s lost s' hs => length_loseRoute hs) hs'
    rw [hs']
    dsimp only
    split
    · exact hchecked.keeps_refl.lands
    · refine (hchecked.sendError (hgrowth.trans ?_)).lands
      rwa [List.length_nil, zero_add]
  · intro hbad
    push Not at hbad
    obtain ⟨f, hf⟩ := hfails hbad
    rw [hf]
    exact ⟨f, rfl⟩

/-! ## Any message -/

theorem Checked.recvAODV (h : Checked a) (hm : m.Fit) (hrequest : ∀ rq, m ≠ .request rq)
    (env : Env) : LandsIff (a.Spares m) (a.recvAODV m env) := by
  cases m with
  | request rq => exact absurd rfl (hrequest rq)
  | reply rp =>
      have hreply := @Checked.recvReply a { rp with ttl := rp.ttl - 1 } h hm env
      exact hreply
  | error re => exact h.recvError hm

theorem Checked.safe_request (h : Checked a) {rq : Request} (hm : (Message.request rq).Fit)
    (env : Env) : Safe (a.recvAODV (.request rq) env) :=
  @Checked.safe_recvRequest a { rq with ttl := rq.ttl - 1 } h hm env

theorem checked_recvAODV (h : Checked a) (hm : m.Fit) (hs : a.recvAODV m env = .ok a') :
    Checked a' := by
  cases m with
  | request rq => exact (h.safe_request hm env).checked hs
  | reply rp => exact (h.recvAODV hm (fun rq heq => by cases heq) env).checked hs
  | error re => exact (h.recvAODV hm (fun rq heq => by cases heq) env).checked hs

end AODV

namespace Network

open AODV

/-- The events that run `handle_link_failure`, `rt_purge`, `recvReply` or `recvError`. -/
def Asserting (s : Network) : Event → Prop
  | .linkFailed .. => True
  | .purge .. => True
  | .deliver _ m k _ => ∀ rq, (s m).sent[k]? ≠ some (.request rq)
  | _ => False

/-- No assertion of these functions fails, and no route error lists more than it has room for. -/
def Holds (s : Network) (ev : Event) : Prop :=
  (s.Asserting ev → s.step ev ≠ .error .assertion) ∧ s.step ev ≠ .error .overflow

/-- The event does not touch a route under repair where a route in use is expected, a neighbour
that is given up does not take more than 100 routes with it, and no route in use has come
over 255 hops when the routes are purged. -/
def Undisturbed (s : Network) : Event → Prop
  | .linkFailed n p nextHop _ =>
      (s n).GivesUp p →
        (∀ d, ¬(s n).MendingOver nextHop d) ∧ (s n).routesOver nextHop ≤ AODV_MAX_ERRORS
  | .purge n _ => ∀ d, ¬(s n).HasRoute d Route.Overlong
  | .deliver n m k _ =>
      ∀ msg, (s m).sent[k]? = some msg → msg.reaches m n = true → (s n).Spares msg
  | _ => True

variable {s s' : Network} {n : Addr} {a : AODV} {r : Except Failure AODV} {ev : Event}

theorem after_eq_error_iff {f : Failure} : s.after n r = .error f ↔ r = .error f := by
  cases r with
  | error g => rw [after, Except.error.injEq, Except.error.injEq]
  | ok a => exact iff_of_false (fun h => by cases h) (fun h => by cases h)

theorem checked_update (h : ∀ n, Checked (s n)) (ha : Checked a) (m : Addr) :
    Checked (Function.update s n a m) := by
  by_cases hm : m = n
  · subst hm
    rwa [Function.update_self]
  · rw [Function.update_of_ne hm]
    exact h m

theorem checked_after (h : ∀ n, Checked (s n)) (hr : ∀ a, r = .ok a → Checked a)
    (hs : s.after n r = .ok s') (m : Addr) : Checked (s' m) := by
  cases r with
  | error f => cases hs
  | ok a =>
      rw [← Except.ok.inj hs]
      exact checked_update h (hr a rfl) m

theorem checked_start (n : Addr) : Checked (start n) := by
  refine ⟨List.nodup_nil, ?_, Nat.mod_self 2, ?_⟩
  · rintro d rt ⟨⟩
  · intro m hm
    cases hm

theorem checked_step (h : ∀ n, Checked (s n)) (hs : s.step ev = .ok s') (m : Addr) :
    Checked (s' m) := by
  cases ev with
  | packet n p env => exact checked_after h (fun a ha => ((h n).safe_recv p env).checked ha) hs m
  | linkFailed n p nextHop env =>
      exact checked_after h (fun a ha => ((h n).rtLlFailed p nextHop env).checked ha) hs m
  | purge n env => exact checked_after h (fun a ha => ((h n).rtPurge env).checked ha) hs m
  | idPurge n env =>
      rw [← Except.ok.inj hs]
      exact checked_update h ((h n).idPurge env).checked m
  | repairTimeout n k =>
      rw [← Except.ok.inj hs]
      exact checked_update h ((h n).repairTimeout k) m
  | deliver n src k env =>
      rw [step] at hs
      split at hs
      · rw [← Except.ok.inj hs]
        exact h m
      · next msg hmsg =>
          have hfit := (h src).sent msg (List.mem_of_getElem? hmsg)
          split at hs
          · exact checked_after h (fun a ha => checked_recvAODV (h n) hfit ha) hs m
          · rw [← Except.ok.inj hs]
            exact h m

theorem holds_after_iff {P : Prop} (hr : LandsIff P r) :
    s.after n r ≠ .error .assertion ∧ s.after n r ≠ .error .overflow ↔ P := by
  rw [Ne, Ne, after_eq_error_iff, after_eq_error_iff]
  exact hr.iff

/-- One event: an assertion fails, or a route error is too long, just when a route under repair
is touched, too many routes lead over a lost neighbour, or a route is too long. -/
theorem holds_iff (h : ∀ n, Checked (s n)) (ev : Event) : s.Holds ev ↔ s.Undisturbed ev := by
  cases ev with
  | packet n p env =>
      refine iff_of_true ⟨False.elim, ?_⟩ trivial
      exact mt after_eq_error_iff.mp ((h n).safe_recv p env).ne_overflow
  | idPurge n env => exact iff_of_true ⟨False.elim, by rintro ⟨⟩⟩ trivial
  | repairTimeout n k => exact iff_of_true ⟨False.elim, by rintro ⟨⟩⟩ trivial
  | linkFailed n p nextHop env =>
      exact (and_congr_left' (forall_prop_of_true trivial)).trans
        (holds_after_iff ((h n).rtLlFailed p nextHop env))
  | purge n env =>
      exact (and_congr_left' (forall_prop_of_true trivial)).trans
        (holds_after_iff ((h n).rtPurge env))
  | deliver n m k env =>
      rw [Holds, Undisturbed, step, Asserting]
      cases hmsg : (s m).sent[k]? with
      | none =>
          refine iff_of_true ⟨fun _ => (by rintro ⟨⟩), (by rintro ⟨⟩)⟩ ?_
          rintro msg ⟨⟩
      | some msg =>
          have hfit := (h m).sent msg (List.mem_of_getElem? hmsg)
          dsimp only
          by_cases hreach : msg.reaches m n = true
          · rw [if_pos hreach]
            have hspares : (∀ msg', some msg = some msg' → msg'.reaches m n = true →
                (s n).Spares msg') ↔ (s n).Spares msg := by
              constructor
              · exact fun hall => hall msg rfl hreach
              · rintro hmeets msg' ⟨⟩ -
                exact hmeets
            rw [hspares]
            cases msg with
            | request rq =>
                refine iff_of_true ⟨fun hother => absurd rfl (hother rq), ?_⟩ trivial
                exact mt after_eq_error_iff.mp ((h n).safe_request hfit env).ne_overflow
            | reply rp =>
                have hnot : ∀ rq, Message.reply rp ≠ .request rq := by rintro rq ⟨⟩
                rw [← holds_after_iff ((h n).recvAODV hfit hnot env)]
                exact and_congr_left' (forall_prop_of_true (by rintro rq ⟨⟩))
            | error re =>
                have hnot : ∀ rq, Message.error re ≠ .request rq := by rintro rq ⟨⟩
                rw [← holds_after_iff ((h n).recvAODV hfit hnot env)]
                exact and_congr_left' (forall_prop_of_true (by rintro rq ⟨⟩))
          · rw [if_neg hreach]
            refine iff_of_true ⟨fun _ => (by rintro ⟨⟩), (by rintro ⟨⟩)⟩ ?_
            rintro msg' ⟨⟩ hreach'
            exact absurd hreach' hreach

/-- In a run the assertions hold, and the route errors are not too long, exactly as long as the
events leave the routes under repair alone, take at most 100 routes with a lost neighbour, and
purge no route that is too long. -/
theorem assertions_hold_iff (evs : List Event) :
    Along Network.step Holds start evs ↔ Along Network.step Undisturbed start evs := by
  apply along_congr fun s => ∀ n, Checked (s n)
  · intro s ev s' h _ hs n
    exact checked_step h hs n
  · intro s ev h
    exact holds_iff h ev
  · exact checked_start

/-- A time of 30 ms for a hop. -/
def hopClock (now : ℚ) : Env := ⟨now, fun _ => 3 / 100⟩

/-- Node 1 finds node 4 over nodes 2 and 3. The link from 3 to 4 fails for a packet of node 1,
and node 3 starts a local repair. -/
def repairRun : List Event :=
  [.packet 1 ⟨1, 4, 32, 0, 0⟩ (hopClock 0), .deliver 2 1 0 (hopClock 0),
    .deliver 3 2 0 (hopClock 0), .deliver 4 3 0 (hopClock 0), .deliver 3 4 0 (hopClock 0),
    .linkFailed 3 ⟨1, 4, 30, 2, 0⟩ 4 (hopClock 1)]

/-- The same link fails for a packet of node 3, which is given up. -/
def secondFailure : Event := .linkFailed 3 ⟨3, 4, 30, 0, 0⟩ 4 (hopClock 1)

/-- While node 3 repairs its route to node 4 it deletes the neighbour 4. -/
theorem failed_repair_run : ¬∀ evs : List Event, Along Network.step Holds start evs := by
  intro hall
  have hruns : (runAll Network.step start repairRun).map (fun _ => ()) = .ok () := by
    decide +kernel
  have hfails : (runAll Network.step start (repairRun ++ [secondFailure])).map (fun _ => ()) =
      .error .assertion := by
    decide +kernel
  cases hs : runAll Network.step start repairRun with
  | error f =>
      rw [hs] at hruns
      cases hruns
  | ok s =>
      obtain ⟨⟨hholds, -⟩, -⟩ := (hall (repairRun ++ [secondFailure])).of_append _ hs
      rw [runAll_append hs] at hfails
      cases hlast : s.step secondFailure with
      | error f =>
          rw [runAll_cons_error hlast, Except.map, Except.error.injEq] at hfails
          rw [hlast, hfails] at hholds
          exact hholds trivial rfl
      | ok s' =>
          rw [runAll_cons_ok hlast] at hfails
          cases hfails

end Network

end ComputerNetworking.Aodv
