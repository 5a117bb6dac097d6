import ComputerNetworking.Scheduling.CalendarFiling

/-!
# The calendar's year and its resizing

A day is one bucket width; the bucket of a day is the day modulo the number of
buckets (`hash_eq`), which is a year. `Holds c S`: the calendar stands at a
bucket from which no event lies back, its limits belong to its year, and the
events of `S` are filed. Resizing to any size and width keeps it
(`Holds.resize`), and so do the adjustment of `deque` and `insert`.
-/

set_option autoImplicit false

namespace ComputerNetworking.Scheduling

open ComputerNetworking.Foundations

theorem toInt_of_nonneg {x : ℚ} (h : 0 ≤ x) : toInt x = ⌊x⌋ := if_neg (not_lt.mpr h)

namespace CalendarScheduler

/-- The day of a time. -/
def day (c : CalendarScheduler) (t : ℚ) : ℕ := ⌊t / c.width⌋₊

/-- The limits of the search and the place it starts at. -/
structure Ready (c : CalendarScheduler) : Prop where
  nbuckets_le : 4 ≤ c.nbuckets
  width_pos : 0 < c.width
  diff0_eq : c.diff0 = c.width * c.nbuckets / 2
  diff1_eq : c.diff1 = c.width * c.nbuckets / 2 + c.width
  diff2_eq : c.diff2 = c.width * c.nbuckets
  clock_nonneg : 0 ≤ c.calClock
  lastbucket_eq : c.lastbucket = c.hash c.calClock

/-- The calendar holds the events of `S`, none of which lies back. -/
structure Holds (c : CalendarScheduler) (S : Finset Event) : Prop where
  ready : Ready c
  filed : Filed c S
  clock_le : ∀ x ∈ S, c.calClock ≤ x.time

/-- `c'` has the buckets' number and width of `c` and stands where `c` does. -/
structure SameYear (c c' : CalendarScheduler) : Prop where
  nbuckets_eq : c'.nbuckets = c.nbuckets
  width_eq : c'.width = c.width
  diff0_eq : c'.diff0 = c.diff0
  diff1_eq : c'.diff1 = c.diff1
  diff2_eq : c'.diff2 = c.diff2
  lastbucket_eq : c'.lastbucket = c.lastbucket
  calClock_eq : c'.calClock = c.calClock

variable {c c' : CalendarScheduler} {S : Finset Event} {e : Event}

theorem hash_eq (hr : Ready c) {t : ℚ} (ht : 0 ≤ t) : c.hash t = c.day t % c.nbuckets := by
  have hpos : 0 < c.nbuckets := lt_of_lt_of_le (by norm_num) hr.nbuckets_le
  have hn : (0 : ℚ) < c.nbuckets := by exact_mod_cast hpos
  have hx : 0 ≤ t / c.width := div_nonneg ht hr.width_pos.le
  rw [hash, day]
  generalize t / c.width = x at hx
  -- a number and its integer part leave remainders with the same integer part
  have hfmod : fmod x c.nbuckets = x - ((⌊x⌋ / (c.nbuckets : ℤ) * c.nbuckets : ℤ) : ℚ) := by
    rw [fmod, toInt_of_nonneg (div_nonneg hx hn.le), Int.floor_div_natCast, Int.cast_mul,
      Int.cast_natCast]
  have hfloor : ⌊fmod x c.nbuckets⌋ = ⌊x⌋ % (c.nbuckets : ℤ) := by
    rw [hfmod, Int.floor_sub_intCast]
    have hdiv := Int.emod_add_mul_ediv ⌊x⌋ (c.nbuckets : ℤ)
    linarith
  have hnn : 0 ≤ fmod x c.nbuckets := by
    apply Int.floor_nonneg.mp
    rw [hfloor]
    exact Int.emod_nonneg _ (by omega)
  rw [toInt_of_nonneg hnn, hfloor, ← Int.natCast_floor_eq_floor hx, ← Int.natCast_mod,
    Int.toNat_natCast]

theorem hash_lt (hr : Ready c) {t : ℚ} (ht : 0 ≤ t) : c.hash t < c.nbuckets := by
  rw [hash_eq hr ht]
  exact Nat.mod_lt _ (lt_of_lt_of_le (by norm_num) hr.nbuckets_le)

theorem Holds.time_nonneg (h : Holds c S) {x : Event} (hx : x ∈ S) : 0 ≤ x.time :=
  h.ready.clock_nonneg.trans (h.clock_le x hx)

theorem SameYear.refl (c : CalendarScheduler) : SameYear c c := ⟨rfl, rfl, rfl, rfl, rfl, rfl, rfl⟩

theorem SameYear.trans {c'' : CalendarScheduler} (h : SameYear c c') (h' : SameYear c' c'') :
    SameYear c c'' :=
  ⟨h'.1.trans h.1, h'.2.trans h.2, h'.3.trans h.3, h'.4.trans h.4, h'.5.trans h.5,
    h'.6.trans h.6, h'.7.trans h.7⟩

theorem SameYear.hash_eq (h : SameYear c c') : c'.hash = c.hash := by
  funext t
  rw [hash, hash, h.width_eq, h.nbuckets_eq]

theorem Ready.congr (hr : Ready c) (h : SameYear c c') : Ready c' := by
  constructor
  · rw [h.nbuckets_eq]
    exact hr.nbuckets_le
  · rw [h.width_eq]
    exact hr.width_pos
  · rw [h.diff0_eq, h.width_eq, h.nbuckets_eq, hr.diff0_eq]
  · rw [h.diff1_eq, h.width_eq, h.nbuckets_eq, hr.diff1_eq]
  · rw [h.diff2_eq, h.width_eq, h.nbuckets_eq, hr.diff2_eq]
  · rw [h.calClock_eq]
    exact hr.clock_nonneg
  · rw [h.lastbucket_eq, h.hash_eq, h.calClock_eq, hr.lastbucket_eq]

/-- Fields that neither the year nor the filing reads may change. -/
theorem Holds.congr (h : Holds c S) (hy : SameYear c c') (hb : c'.buckets = c.buckets)
    (hs : c'.statQsize = c.statQsize) (hq : c'.qsize = c.qsize) : Holds c' S := by
  refine ⟨h.ready.congr hy, h.filed.congr hy.hash_eq hb hs hq, ?_⟩
  rw [hy.calClock_eq]
  exact h.clock_le

theorem sameYear_insert2 (c : CalendarScheduler) (e : Event) : SameYear c (c.insert2 e) := by
  rw [insert2]
  split <;> exact ⟨rfl, rfl, rfl, rfl, rfl, rfl, rfl⟩

theorem sameYear_foldl_insert2 (events : List Event) :
    SameYear c (events.foldl insert2 c) := by
  induction events generalizing c with
  | nil => exact SameYear.refl c
  | cons e events ih => exact (sameYear_insert2 c e).trans ih

theorem sameYear_file (c : CalendarScheduler) (e : Event) : SameYear c (c.file e) := by
  rw [file]
  split
  · exact ⟨rfl, rfl, rfl, rfl, rfl, rfl, rfl⟩
  · split <;> exact ⟨rfl, rfl, rfl, rfl, rfl, rfl, rfl⟩

theorem ready_reinit {nbuck : ℕ} {bwidth start : ℚ} (hn : 4 ≤ nbuck) (hw : 0 < bwidth)
    (hstart : c.calClock = start) (hpos : 0 ≤ start) : Ready (c.reinit nbuck bwidth start) := by
  refine ⟨hn, hw, rfl, rfl, rfl, hstart ▸ hpos, ?_⟩
  rw [← hstart]
  rfl

/-- A calendar moved into buckets of any width, four or more. -/
theorem Holds.rebuild (h : Holds c S) {newsize : ℕ} {bwidth : ℚ} (hn : 4 ≤ newsize)
    (hw : 0 < bwidth) :
    Holds (c.rebuild newsize bwidth c.calClock) S ∧
      (c.rebuild newsize bwidth c.calClock).calClock = c.calClock := by
  have hfold : SameYear (c.reinit newsize bwidth c.calClock)
      (c.rebuild newsize bwidth c.calClock) :=
    (sameYear_foldl_insert2 _).trans ⟨rfl, rfl, rfl, rfl, rfl, rfl, rfl⟩
  have hclock : (c.rebuild newsize bwidth c.calClock).calClock = c.calClock := hfold.calClock_eq
  refine ⟨⟨?_, ?_, ?_⟩, hclock⟩
  · exact (ready_reinit hn hw rfl h.ready.clock_nonneg).congr hfold
  · exact h.filed.rebuild (fun x hx => hash_lt h.ready (h.time_nonneg hx)) newsize bwidth _
  · rw [hclock]
    exact h.clock_le

/-- `resize` returns, and the calendar holds the same events. -/
theorem Holds.resize (h : Holds c S) (newsize : ℕ) (w : Widths) :
    ∃ c', c.resize newsize c.calClock w = .ok c' ∧ Holds c' S ∧ c'.calClock = c.calClock := by
  obtain ⟨n, hnw⟩ := h.filed.newwidth w.fresh
  have hn : Holds { c with timeToNewwidth := n } S :=
    h.congr ⟨rfl, rfl, rfl, rfl, rfl, rfl, rfl⟩ rfl rfl rfl
  rw [CalendarScheduler.resize, hnw]
  by_cases hsize : newsize = c.nbuckets
  · have hfour : 4 ≤ newsize := hsize ▸ h.ready.nbuckets_le
    rw [if_pos hsize]
    split
    · split
      · exact ⟨_, rfl, h.congr ⟨rfl, rfl, rfl, rfl, rfl, rfl, rfl⟩ rfl rfl rfl, rfl⟩
      · exact ⟨_, rfl, hn.rebuild hfour w.fresh.2⟩
    · exact ⟨_, rfl, h.rebuild hfour w.searched.2⟩
  · rw [if_neg hsize]
    have hfour : 4 ≤ if newsize < 4 then 4 else newsize := by
      split <;> omega
    exact ⟨_, rfl, hn.rebuild hfour w.fresh.2⟩

/-- The adjustment of the bin width keeps the events, and the clock. -/
theorem Holds.adjust (h : Holds c S) (e : Event) (w : Widths) :
    ∃ c', c.adjust e w = .ok c' ∧ Holds c' S ∧ c'.calClock = c.calClock := by
  rw [CalendarScheduler.adjust]
  split
  · exact ⟨c, rfl, h, rfl⟩
  · split
    · exact ⟨_, rfl, h.congr ⟨rfl, rfl, rfl, rfl, rfl, rfl, rfl⟩ rfl rfl rfl, rfl⟩
    · dsimp only
      split
      · exact ⟨_, rfl, h.congr ⟨rfl, rfl, rfl, rfl, rfl, rfl, rfl⟩ rfl rfl rfl, rfl⟩
      · have hgap : Holds { c with
            avgGap := (e.time - c.lastTime) / (c.gapNum + 1 : ℤ)
            gapNum := 0
            lastTime := e.time
            roundNum := c.roundNum + 1 } S :=
          h.congr ⟨rfl, rfl, rfl, rfl, rfl, rfl, rfl⟩ rfl rfl rfl
        split
        · obtain ⟨c', hc', hheld, hclock⟩ := hgap.resize c.nbuckets w
          simp only at hc'
          rw [hc']
          exact ⟨_, rfl, hheld.congr ⟨rfl, rfl, rfl, rfl, rfl, rfl, rfl⟩ rfl rfl rfl, hclock⟩
        · split
          · exact ⟨_, rfl, hgap.congr ⟨rfl, rfl, rfl, rfl, rfl, rfl, rfl⟩ rfl rfl rfl, rfl⟩
          · exact ⟨_, rfl, hgap, rfl⟩

/-- An event from which the calendar does not stand ahead is filed. -/
theorem Holds.file (h : Holds c S) (hnew : ∀ x ∈ S, x.uid < e.uid)
    (hclock : c.calClock ≤ e.time) : Holds (c.file e) (Insert.insert e S) := by
  have hyear := sameYear_file c e
  refine ⟨h.ready.congr hyear, h.filed.file hnew, ?_⟩
  rw [hyear.calClock_eq]
  intro x hx
  rcases Finset.mem_insert.mp hx with rfl | hx
  · exact hclock
  · exact h.clock_le x hx

/-- `insert` returns, and the calendar holds one event more. -/
theorem Holds.insert (h : Holds c S) (w : Widths) (ht : 0 ≤ e.time)
    (hnew : ∀ x ∈ S, x.uid < e.uid) :
    ∃ c', c.insert e w = .ok c' ∧ Holds c' (Insert.insert e S) := by
  rw [CalendarScheduler.insert]
  -- an event that undercuts the calendar's clock takes it back
  have hback : ∃ c₁, (if c.calClock > e.time then
      { c with calClock := e.time, lastbucket := c.hash e.time } else c) = c₁ ∧
      Holds c₁ S ∧ c₁.calClock ≤ e.time := by
    by_cases hcut : c.calClock > e.time
    · refine ⟨_, if_pos hcut, ⟨?_, h.filed.congr rfl rfl rfl rfl, ?_⟩, le_refl _⟩
      · exact { h.ready with clock_nonneg := ht, lastbucket_eq := rfl }
      · intro x hx
        exact hcut.le.trans (h.clock_le x hx)
    · exact ⟨c, if_neg hcut, h, not_lt.mp hcut⟩
  obtain ⟨c₁, hc₁, hheld, hclock⟩ := hback
  simp only [hc₁]
  have hfile := hheld.file hnew hclock
  split
  · obtain ⟨c₂, hc₂, hheld₂, -⟩ := hfile.resize (2 * (c₁.file e).nbuckets) w
    exact ⟨c₂, hc₂, hheld₂⟩
  · exact ⟨_, rfl, hfile⟩

/-- An event taken out of its bucket leaves a calendar that holds the others. -/
theorem Holds.remove (h : Holds c S) (he : e ∈ S) {list : List Event} {alone : Bool}
    (hl : Lists list ((c.slot S (c.hash e.time)).erase e)) (ha : alone = true ↔ ¬Shares S e) :
    Holds (c.remove (c.hash e.time) list alone) (S.erase e) := by
  refine ⟨?_, h.filed.remove he hl ha, ?_⟩
  · exact h.ready.congr ⟨rfl, rfl, rfl, rfl, rfl, rfl, rfl⟩
  · intro x hx
    exact h.clock_le x (Finset.mem_of_mem_erase hx)

/-- `cancel` returns, and the calendar holds one event less. -/
theorem Holds.cancel (h : Holds c S) (he : e ∈ S) (hpos : 0 < e.uid) :
    ∃ c', c.cancel e = .ok c' ∧ Holds c' (S.erase e) := by
  have hb := h.filed.bucket (c.hash e.time)
  have heslot : e ∈ c.slot S (c.hash e.time) := mem_slot.mpr ⟨he, rfl⟩
  rw [CalendarScheduler.cancel, if_neg (not_le.mpr hpos)]
  have halone := (alone_iff hb heslot).trans (not_congr shares_slot_iff)
  have hafter := h.remove he (hb.erase e) (decide_eq_true_iff.trans halone)
  refine ⟨_, if_pos ⟨next_prev hb heslot, prev_next hb heslot, ?_, ?_, ?_⟩, hafter⟩
  · intro _
    rw [hafter.filed.statQsize_eq, hafter.filed.count]
    exact ⟨Int.natCast_nonneg _, Int.natCast_nonneg _⟩
  · intro hself
    obtain ⟨p, s, hring, -, -, -⟩ := cut_at hb heslot
    rw [hring] at hb hself ⊢
    have hnil := (next_eq_self_iff hb).mp hself
    rw [List.append_eq_nil_iff] at hnil
    rw [hnil.2, List.nil_append, List.head?_cons]
  · intro hzero
    -- no distinct time is left, so no event is
    rw [hafter.filed.count, Nat.cast_eq_zero, values_eq_zero_iff] at hzero
    have hempty := hafter.filed.bucket (c.hash e.time)
    rw [hzero] at hempty
    exact hempty.unique Lists.nil

end CalendarScheduler

end ComputerNetworking.Scheduling
