import ComputerNetworking.Scheduling.CalendarYear

/-!
# The search for the first event

`head` looks at the buckets of one year from the bucket it stands at. A bucket's
first event is taken at once when it lies within the year, which the three limits
decide (`calDequeue_spec`); when no bucket has one, the earliest of the first
events is taken. Either way it is the first of all events (`Holds.head`), and
`deque` returns it (`Holds.deque`).
-/

set_option autoImplicit false

namespace ComputerNetworking.Scheduling

open ComputerNetworking.Foundations

namespace CalendarScheduler

variable {c : CalendarScheduler} {S : Finset Event} {a b e x : Event} {j : ℕ} {s : Search}

/-- How many days an event lies ahead. -/
def lag (c : CalendarScheduler) (x : Event) : ℕ := c.day x.time - c.day c.calClock

/-- How many buckets an event lies ahead. -/
def offset (c : CalendarScheduler) (x : Event) : ℕ := c.lag x % c.nbuckets

section Days

theorem Holds.day_add_lag (h : Holds c S) (hx : x ∈ S) :
    c.day c.calClock + c.lag x = c.day x.time := by
  have hle : c.day c.calClock ≤ c.day x.time :=
    Nat.floor_mono (div_le_div_of_nonneg_right (h.clock_le x hx) h.ready.width_pos.le)
  rw [lag]
  omega

/-- An event lies less than one day ahead of the end of the days before it. -/
theorem Holds.time_lt (h : Holds c S) (hx : x ∈ S) :
    x.time - c.calClock < c.width * (c.lag x + 1) := by
  have hw := h.ready.width_pos
  have hlow : (c.day c.calClock : ℚ) ≤ c.calClock / c.width :=
    Nat.floor_le (div_nonneg h.ready.clock_nonneg hw.le)
  have hhigh : x.time / c.width < c.day x.time + 1 := Nat.lt_floor_add_one _
  rw [le_div_iff₀ hw] at hlow
  rw [div_lt_iff₀ hw] at hhigh
  have hday : (c.day c.calClock : ℚ) + c.lag x = c.day x.time := by
    exact_mod_cast h.day_add_lag hx
  rw [← hday] at hhigh
  linarith

theorem Holds.lt_time (h : Holds c S) (hx : x ∈ S) :
    c.width * c.lag x < x.time - c.calClock + c.width := by
  have hw := h.ready.width_pos
  have hlow : (c.day x.time : ℚ) ≤ x.time / c.width :=
    Nat.floor_le (div_nonneg (h.time_nonneg hx) hw.le)
  have hhigh : c.calClock / c.width < c.day c.calClock + 1 := Nat.lt_floor_add_one _
  rw [le_div_iff₀ hw] at hlow
  rw [div_lt_iff₀ hw] at hhigh
  have hday : (c.day c.calClock : ℚ) + c.lag x = c.day x.time := by
    exact_mod_cast h.day_add_lag hx
  rw [← hday] at hlow
  linarith

/-- Events of different days stand in the order of their days. -/
theorem Holds.lt_of_lag_lt (h : Holds c S) (ha : a ∈ S) (hb : b ∈ S) (hab : c.lag a < c.lag b) :
    a < b := by
  apply Event.lt_iff.mpr
  left
  by_contra hle
  have hday : c.day b.time ≤ c.day a.time :=
    Nat.floor_mono (div_le_div_of_nonneg_right (not_lt.mp hle) h.ready.width_pos.le)
  rw [← h.day_add_lag ha, ← h.day_add_lag hb] at hday
  omega

theorem Holds.lag_le (h : Holds c S) (ha : a ∈ S) (hb : b ∈ S) (hab : a ≤ b) :
    c.lag a ≤ c.lag b := by
  by_contra hlt
  exact absurd hab (not_le.mpr (h.lt_of_lag_lt hb ha (not_le.mp hlt)))

/-- Events of different buckets have different times. -/
theorem time_ne (hab : c.offset a ≠ c.offset b) : a.time ≠ b.time := by
  intro ht
  rw [offset, offset, lag, lag, ht] at hab
  exact hab rfl

theorem Holds.nbuckets_pos (h : Holds c S) : 0 < c.nbuckets :=
  lt_of_lt_of_le (by norm_num) h.ready.nbuckets_le

theorem Holds.offset_lt (h : Holds c S) (x : Event) : c.offset x < c.nbuckets :=
  Nat.mod_lt _ h.nbuckets_pos

theorem Holds.hash_eq (h : Holds c S) (hx : x ∈ S) :
    c.hash x.time = (c.lastbucket + c.offset x) % c.nbuckets := by
  rw [CalendarScheduler.hash_eq h.ready (h.time_nonneg hx), ← h.day_add_lag hx,
    h.ready.lastbucket_eq, CalendarScheduler.hash_eq h.ready h.ready.clock_nonneg, offset,
    ← Nat.add_mod]

/-- The bucket `j` places ahead has the events that lie `j` buckets ahead. -/
theorem Holds.mem_slot_iff (h : Holds c S) (hj : j < c.nbuckets) :
    x ∈ c.slot S ((c.lastbucket + j) % c.nbuckets) ↔ x ∈ S ∧ c.offset x = j := by
  rw [mem_slot]
  apply and_congr_right
  intro hx
  rw [h.hash_eq hx]
  constructor
  · intro heq
    have hmod : c.offset x ≡ j [MOD c.nbuckets] := Nat.ModEq.add_left_cancel' _ heq
    exact Nat.ModEq.eq_of_lt_of_lt hmod (h.offset_lt x) hj
  · rintro rfl
    rfl

/-- Whether the events `j` buckets ahead lie within the year, by a limit between
the end of the day `j` and the last day before its next return. -/
theorem Holds.within_iff (h : Holds c S) (hx : x ∈ S) (hxj : c.offset x = j) {diffx : ℚ}
    (hlow : c.width * (j + 1) ≤ diffx) (hhigh : diffx ≤ c.width * (j + c.nbuckets - 1)) :
    x.time - c.calClock < diffx ↔ c.lag x < c.nbuckets := by
  constructor
  · intro hlt
    by_contra hfar
    have hjlag : j + c.nbuckets ≤ c.lag x := by
      have hdiv := Nat.mod_add_div (c.lag x) c.nbuckets
      rw [offset] at hxj
      rw [hxj] at hdiv
      have hone : 1 ≤ c.lag x / c.nbuckets :=
        (Nat.one_le_div_iff h.nbuckets_pos).mpr (not_lt.mp hfar)
      nlinarith [Nat.mul_le_mul_left c.nbuckets hone]
    have hcast : (j : ℚ) + c.nbuckets ≤ c.lag x := by exact_mod_cast hjlag
    have hmul := mul_le_mul_of_nonneg_left hcast h.ready.width_pos.le
    have hlt' := h.lt_time hx
    linarith
  · intro hnear
    have hlag : c.lag x = j := by
      rw [offset, Nat.mod_eq_of_lt hnear] at hxj
      exact hxj
    have hlt := h.time_lt hx
    rw [hlag] at hlt
    exact hlt.trans_le hlow

end Days

section Buckets

/-- The search has looked at the `j` buckets ahead and taken none of their events. -/
structure Scanned (c : CalendarScheduler) (S : Finset Event) (j : ℕ) (s : Search) : Prop where
  i_eq : s.i = (c.lastbucket + j) % c.nbuckets
  found_eq : s.found = none
  far : ∀ x ∈ S, c.offset x < j → c.nbuckets ≤ c.lag x
  nothing : s.minE = none → ∀ x ∈ S, j ≤ c.offset x
  least : ∀ m, s.minE = some m → m ∈ S ∧ c.offset m < j ∧ s.l = some (c.hash m.time) ∧
    ∀ x ∈ S, c.offset x < j → m ≤ x

/-- The search has stopped at the first event. -/
def Hit (c : CalendarScheduler) (S : Finset Event) (s : Search) : Prop :=
  ∃ e, s.found = some e ∧ s.l = some (c.hash e.time) ∧ first S = some e

theorem scanned_start (c : CalendarScheduler) (S : Finset Event) (hl : c.lastbucket < c.nbuckets)
    (n : ℕ) : Scanned c S 0 { i := c.lastbucket, headSearch := n } where
  i_eq := by rw [Nat.add_zero, Nat.mod_eq_of_lt hl]
  found_eq := rfl
  far x _ hx := absurd hx (Nat.not_lt_zero _)
  nothing _ x _ := Nat.zero_le _
  least m hm := by cases hm

theorem succ_mod {a n : ℕ} (hn : 0 < n) :
    (if a % n + 1 = n then 0 else a % n + 1) = (a + 1) % n := by
  have hlt := Nat.mod_lt a hn
  have hsucc : (a + 1) % n = (a % n + 1) % n := (Nat.mod_add_mod a n 1).symm
  rw [hsucc]
  split
  · rename_i h
    rw [h, Nat.mod_self]
  · exact (Nat.mod_eq_of_lt (by omega : a % n + 1 < n)).symm

theorem calDequeue_hit (hs : Hit c S s) (diffx : ℚ) : c.calDequeue diffx s = s := by
  obtain ⟨e, he, -, -⟩ := hs
  rw [calDequeue, he, Option.isSome_some, if_pos rfl]

/-- An event within the year that is first in its bucket is first of all, when the
buckets before it have none within the year. -/
theorem Holds.first_of_near (h : Holds c S) (hfar : ∀ x ∈ S, c.offset x < j → c.nbuckets ≤ c.lag x)
    (he : e ∈ S) (hej : c.offset e = j) (hle : ∀ x ∈ S, c.offset x = j → e ≤ x)
    (hnear : c.lag e < c.nbuckets) : first S = some e := by
  apply first_eq_some he
  intro x hx
  have hlag : c.lag e = j := by
    rw [offset, Nat.mod_eq_of_lt hnear] at hej
    exact hej
  rcases lt_trichotomy (c.offset x) j with hlt | heq | hgt
  · exact (h.lt_of_lag_lt he hx (lt_of_lt_of_le hnear (hfar x hx hlt))).le
  · exact hle x hx heq
  · apply le_of_lt
    apply h.lt_of_lag_lt he hx
    rw [hlag]
    exact hgt.trans_le (Nat.mod_le _ _)

/-- The next bucket is empty. -/
theorem Scanned.skip (hs : Scanned c S j s) (hnone : ∀ x ∈ S, c.offset x ≠ j) (n : ℕ) :
    Scanned c S (j + 1)
      { s with i := (c.lastbucket + j + 1) % c.nbuckets, headSearch := n } := by
  have hlt : ∀ x ∈ S, c.offset x < j + 1 → c.offset x < j := by
    intro x hx hxj
    have hne := hnone x hx
    omega
  constructor
  · rfl
  · exact hs.found_eq
  · intro x hx hxj
    exact hs.far x hx (hlt x hx hxj)
  · intro hm x hx
    have hle := hs.nothing hm x hx
    have hne := hnone x hx
    omega
  · intro m hm
    obtain ⟨hmS, hmj, hml, hmle⟩ := hs.least m hm
    refine ⟨hmS, by omega, hml, ?_⟩
    intro x hx hxj
    exact hmle x hx (hlt x hx hxj)

/-- The next bucket's first event does not lie within the year. -/
theorem Scanned.pass (hs : Scanned c S j s) (h : Holds c S) (he : e ∈ S) (hej : c.offset e = j)
    (hle : ∀ x ∈ S, c.offset x = j → e ≤ x) (hfar : c.nbuckets ≤ c.lag e) (n : ℕ) :
    Scanned c S (j + 1)
      (if (s.minE.all fun m => m.time > e.time) = true then
        { s with i := (c.lastbucket + j + 1) % c.nbuckets, l := some (c.hash e.time),
                 minE := some e, headSearch := n }
      else { s with i := (c.lastbucket + j + 1) % c.nbuckets, headSearch := n }) := by
  have hfar' : ∀ x ∈ S, c.offset x < j + 1 → c.nbuckets ≤ c.lag x := by
    intro x hx hxj
    rcases Nat.lt_succ_iff_lt_or_eq.mp hxj with hlt | heq
    · exact hs.far x hx hlt
    · exact hfar.trans (h.lag_le he hx (hle x hx heq))
  split
  · rename_i hmin
    refine ⟨rfl, hs.found_eq, hfar', (fun hm => by cases hm), ?_⟩
    intro m hm
    obtain rfl := Option.some.inj hm
    refine ⟨he, by omega, rfl, ?_⟩
    intro x hx hxj
    rcases Nat.lt_succ_iff_lt_or_eq.mp hxj with hlt | heq
    · cases hm' : s.minE with
      | none => exact absurd hlt (not_lt.mpr (hs.nothing hm' x hx))
      | some m =>
          rw [hm', Option.all_some, decide_eq_true_iff] at hmin
          have hem : e < m := Event.lt_iff.mpr (Or.inl hmin)
          exact hem.le.trans ((hs.least m hm').2.2.2 x hx hlt)
    · exact hle x hx heq
  · rename_i hmin
    refine ⟨rfl, hs.found_eq, hfar', ?_, ?_⟩
    · intro hm
      rw [show s.minE = none from hm] at hmin
      exact absurd rfl hmin
    · intro m hm
      obtain ⟨hmS, hmj, hml, hmle⟩ := hs.least m hm
      refine ⟨hmS, by omega, hml, ?_⟩
      intro x hx hxj
      rcases Nat.lt_succ_iff_lt_or_eq.mp hxj with hlt | heq
      · exact hmle x hx hlt
      · -- `m` lies in another bucket than `e`, so at another time
        rw [show s.minE = some m from hm, Option.all_some, decide_eq_true_iff, gt_iff_lt,
          not_lt] at hmin
        have hne : m.time ≠ e.time := time_ne (by omega : c.offset m ≠ c.offset e)
        have hme : m < e := Event.lt_iff.mpr (Or.inl (lt_of_le_of_ne hmin hne))
        exact hme.le.trans (hle x hx heq)

/-- What the bucket `j` places ahead holds. -/
theorem Holds.ahead (h : Holds c S) (hj : j < c.nbuckets) :
    Lists (c.buckets ((c.lastbucket + j) % c.nbuckets)).list
      (S.filter fun x => c.offset x = j) := by
  have hb := h.filed.bucket ((c.lastbucket + j) % c.nbuckets)
  refine ⟨hb.sorted, fun x => ?_⟩
  rw [hb.mem_iff, h.mem_slot_iff hj, Finset.mem_filter]

/-- One bucket more. -/
theorem calDequeue_spec (h : Holds c S) (hs : Scanned c S j s) (hj : j < c.nbuckets) (diffx : ℚ)
    (hlow : c.width * (j + 1) ≤ diffx) (hhigh : diffx ≤ c.width * (j + c.nbuckets - 1)) :
    Hit c S (c.calDequeue diffx s) ∨ Scanned c S (j + 1) (c.calDequeue diffx s) := by
  have hb := h.ahead hj
  obtain ⟨i, l, minE, found, n⟩ := s
  obtain rfl : found = none := hs.found_eq
  obtain rfl : i = (c.lastbucket + j) % c.nbuckets := hs.i_eq
  rw [calDequeue, Option.isSome_none, if_neg (by simp)]
  simp only [succ_mod h.nbuckets_pos]
  cases hl : (c.buckets ((c.lastbucket + j) % c.nbuckets)).list with
  | nil =>
      rw [hl] at hb
      right
      refine hs.skip ?_ _
      intro x hx hxj
      cases (hb.mem_iff x).mpr (Finset.mem_filter.mpr ⟨hx, hxj⟩)
  | cons e rest =>
      rw [hl] at hb
      obtain ⟨heS, hej⟩ := Finset.mem_filter.mp ((hb.mem_iff e).mp List.mem_cons_self)
      have hle : ∀ x ∈ S, c.offset x = j → e ≤ x := by
        intro x hx hxj
        exact hb.head_le (Finset.mem_filter.mpr ⟨hx, hxj⟩)
      have hhash : (c.lastbucket + j) % c.nbuckets = c.hash e.time := by
        rw [h.hash_eq heS, hej]
      rw [List.head?_cons]
      dsimp only
      by_cases hnear : e.time - c.calClock < diffx
      · left
        rw [if_pos hnear]
        refine ⟨e, rfl, congrArg some hhash, ?_⟩
        exact h.first_of_near hs.far heS hej hle ((h.within_iff heS hej hlow hhigh).mp hnear)
      · right
        rw [if_neg hnear, hhash]
        have hfar := not_lt.mp (mt (h.within_iff heS hej hlow hhigh).mpr hnear)
        exact hs.pass h heS hej hle hfar _

/-- The loop of `head` ends, at the first event or in front of the last bucket. -/
theorem scanYear_spec (h : Holds c S) {dec : ℕ}
    (hdec : dec = (c.lastbucket + (c.nbuckets - 1)) % c.nbuckets) (fuel : ℕ) {s : Search}
    (hs : Hit c S s ∧ 0 < fuel ∨
      ∃ j, 2 ≤ j ∧ j < c.nbuckets ∧ c.nbuckets ≤ fuel + j ∧ Scanned c S j s) :
    ∃ s', c.scanYear dec fuel s = .ok s' ∧ (Hit c S s' ∨ Scanned c S (c.nbuckets - 1) s') := by
  induction fuel generalizing s with
  | zero =>
      rcases hs with ⟨-, hpos⟩ | ⟨j, -, hj, hfuel, -⟩
      · cases hpos
      · omega
  | succ fuel ih =>
      rw [scanYear]
      rcases hs with ⟨hhit, -⟩ | ⟨j, hj2, hj, hfuel, hs⟩
      · refine ⟨s, if_pos (Or.inl ?_), Or.inl hhit⟩
        obtain ⟨e, he, -, -⟩ := hhit
        rw [he, Option.isSome_some]
      · by_cases hlast : j = c.nbuckets - 1
        · refine ⟨s, if_pos (Or.inr ?_), Or.inr (hlast ▸ hs)⟩
          rw [hs.i_eq, hdec, hlast]
        · have hi : ¬(s.found.isSome = true ∨ s.i = dec) := by
            rw [hs.found_eq, hs.i_eq, hdec]
            rintro (hf | hmod)
            · cases hf
            · have hmod' : j ≡ c.nbuckets - 1 [MOD c.nbuckets] :=
                Nat.ModEq.add_left_cancel' _ hmod
              exact hlast (Nat.ModEq.eq_of_lt_of_lt hmod' hj (by omega))
          rw [if_neg hi]
          have hw := h.ready.width_pos
          have hjq : (2 : ℚ) ≤ j := by exact_mod_cast hj2
          have hjn : (j : ℚ) + 1 ≤ c.nbuckets := by exact_mod_cast hj
          have hstep := calDequeue_spec h hs hj c.diff2
            (by rw [h.ready.diff2_eq]; exact mul_le_mul_of_nonneg_left hjn hw.le)
            (by rw [h.ready.diff2_eq]; exact mul_le_mul_of_nonneg_left (by linarith) hw.le)
          apply ih
          rcases hstep with hhit | hscan
          · exact Or.inl ⟨hhit, by omega⟩
          · exact Or.inr ⟨j + 1, by omega, by omega, by omega, hscan⟩

/-- The last bucket of the year is empty, or its first event is the first of those
that lie as far ahead. -/
theorem Holds.last_bucket (h : Holds c S) :
    ((c.buckets ((c.lastbucket + (c.nbuckets - 1)) % c.nbuckets)).list.head? = none →
      ∀ x ∈ S, c.offset x < c.nbuckets - 1) ∧
    ∀ e, (c.buckets ((c.lastbucket + (c.nbuckets - 1)) % c.nbuckets)).list.head? = some e →
      e ∈ S ∧ c.offset e = c.nbuckets - 1 ∧
      (c.lastbucket + (c.nbuckets - 1)) % c.nbuckets = c.hash e.time ∧
      ∀ x ∈ S, c.offset x = c.nbuckets - 1 → e ≤ x := by
  have hpos := h.nbuckets_pos
  have hb := h.ahead (j := c.nbuckets - 1) (by omega)
  rw [← hb.first_eq]
  constructor
  · intro hnone x hx
    rw [first_eq_none_iff] at hnone
    by_contra hge
    have hlt := h.offset_lt x
    have hmem : x ∈ S.filter fun x => c.offset x = c.nbuckets - 1 :=
      Finset.mem_filter.mpr ⟨hx, by omega⟩
    rw [hnone] at hmem
    cases hmem
  · intro e he
    obtain ⟨heS, hej⟩ := Finset.mem_filter.mp (mem_of_first_eq_some he)
    refine ⟨heS, hej, by rw [h.hash_eq heS, hej], ?_⟩
    intro x hx hxj
    exact le_of_first_eq_some he (Finset.mem_filter.mpr ⟨hx, hxj⟩)

/-- The first event, when no bucket has one within the year. -/
theorem settle_spec (h : Holds c S) (hne : S.Nonempty)
    (hs : Hit c S s ∨ Scanned c S (c.nbuckets - 1) s) :
    ∃ e, c.settle s = (some e, some (c.hash e.time)) ∧ first S = some e := by
  rcases hs with ⟨e, hfound, hl, hfirst⟩ | hs
  · exact ⟨e, by rw [settle, hfound, hl], hfirst⟩
  · have hlast := h.last_bucket
    have hoff : ∀ x ∈ S, c.offset x < c.nbuckets - 1 ∨ c.offset x = c.nbuckets - 1 := by
      intro x _
      have hlt := h.offset_lt x
      omega
    rw [settle, hs.found_eq]
    simp only [hs.i_eq]
    generalize (c.buckets ((c.lastbucket + (c.nbuckets - 1)) % c.nbuckets)).list.head? = e?
      at hlast ⊢
    obtain ⟨hnone, hring⟩ := hlast
    cases hm : s.minE with
    | none =>
        rw [Option.isSome_none, if_neg (by simp)]
        have hall : ∀ x ∈ S, c.offset x = c.nbuckets - 1 := by
          intro x hx
          exact (hoff x hx).resolve_left (not_lt.mpr (hs.nothing hm x hx))
        cases e? with
        | none =>
            obtain ⟨x, hx⟩ := hne
            exact absurd (hall x hx) (hnone rfl x hx).ne
        | some e =>
            obtain ⟨heS, -, hhash, hle⟩ := hring e rfl
            exact ⟨e, by rw [hhash], first_eq_some heS fun x hx => hle x hx (hall x hx)⟩
    | some m =>
        obtain ⟨hmS, hmj, hml, hmle⟩ := hs.least m hm
        rw [Option.isSome_some, hml]
        cases e? with
        | none =>
            rw [if_pos ⟨rfl, rfl⟩]
            exact ⟨m, rfl, first_eq_some hmS fun x hx => hmle x hx (hnone rfl x hx)⟩
        | some e =>
            obtain ⟨heS, hej, hhash, hle⟩ := hring e rfl
            rw [Option.all_some, Option.any_some, hhash]
            by_cases hlt : m.time < e.time
            · rw [if_pos ⟨rfl, decide_eq_true hlt⟩]
              refine ⟨m, rfl, first_eq_some hmS fun x hx => ?_⟩
              rcases hoff x hx with hxj | hxj
              · exact hmle x hx hxj
              · have hme : m < e := Event.lt_iff.mpr (Or.inl hlt)
                exact hme.le.trans (hle x hx hxj)
            · rw [if_neg fun hand => hlt (of_decide_eq_true hand.2)]
              refine ⟨e, rfl, first_eq_some heS fun x hx => ?_⟩
              rcases hoff x hx with hxj | hxj
              · have hne' : e.time ≠ m.time := time_ne (by omega : c.offset e ≠ c.offset m)
                have hem : e < m :=
                  Event.lt_iff.mpr (Or.inl (lt_of_le_of_ne (not_lt.mp hlt) hne'))
                exact hem.le.trans (hmle x hx hxj)
              · exact hle x hx hxj

/-- The search of `head` comes to an end. -/
theorem search_spec (h : Holds c S) (n : ℕ) :
    ∃ s, c.scanYear (if c.lastbucket = 0 then c.nbuckets - 1 else c.lastbucket - 1) c.nbuckets
        (c.calDequeue c.diff1 (c.calDequeue c.diff0 { i := c.lastbucket, headSearch := n })) =
      .ok s ∧ (Hit c S s ∨ Scanned c S (c.nbuckets - 1) s) := by
  have hfour := h.ready.nbuckets_le
  have hw := h.ready.width_pos
  have hnq : (4 : ℚ) ≤ c.nbuckets := by exact_mod_cast hfour
  have hl : c.lastbucket < c.nbuckets := by
    rw [h.ready.lastbucket_eq]
    exact hash_lt h.ready h.ready.clock_nonneg
  have hwn : c.width * 4 ≤ c.width * c.nbuckets := mul_le_mul_of_nonneg_left hnq hw.le
  apply scanYear_spec h
  · split
    · rename_i hzero
      rw [hzero, Nat.zero_add, Nat.mod_eq_of_lt (by omega)]
    · have hsum : c.lastbucket + (c.nbuckets - 1) = c.lastbucket - 1 + c.nbuckets := by omega
      rw [hsum, Nat.add_mod_right, Nat.mod_eq_of_lt (by omega)]
  · have h₀ := calDequeue_spec h (scanned_start c S hl n) h.nbuckets_pos c.diff0
      (by rw [h.ready.diff0_eq, Nat.cast_zero]; linarith)
      (by rw [h.ready.diff0_eq, Nat.cast_zero]; linarith)
    rcases h₀ with hhit | hscan
    · left
      rw [calDequeue_hit hhit]
      exact ⟨hhit, h.nbuckets_pos⟩
    · have h₁ := calDequeue_spec h hscan (by omega) c.diff1
        (by rw [h.ready.diff1_eq, Nat.zero_add, Nat.cast_one]; linarith)
        (by rw [h.ready.diff1_eq, Nat.zero_add, Nat.cast_one]; linarith)
      rcases h₁ with hhit | hscan
      · exact Or.inl ⟨hhit, h.nbuckets_pos⟩
      · exact Or.inr ⟨2, le_refl _, by omega, by omega, hscan⟩

end Buckets

section Functions

/-- The calendar advances to its first event. -/
theorem Holds.advance (h : Holds c S) (he : first S = some e) (n : ℕ) :
    Holds { c with headSearch := n, lastbucket := c.hash e.time, calClock := e.time } S where
  ready := { h.ready with
    clock_nonneg := h.time_nonneg (mem_of_first_eq_some he), lastbucket_eq := rfl }
  filed := h.filed.congr rfl rfl rfl rfl
  clock_le _ hx := Event.time_le_of_le (le_of_first_eq_some he hx)

/-- `head` returns the first event, and advances to it. -/
theorem Holds.head (h : Holds c S) :
    ∃ c', c.head = .ok (first S, c') ∧ Holds c' S ∧
      ∀ e, first S = some e → c'.calClock = e.time := by
  rw [CalendarScheduler.head]
  by_cases hq : c.qsize = 0
  · have hempty : S = ∅ := by
      rw [h.filed.qsize_eq, Nat.cast_eq_zero] at hq
      exact Finset.card_eq_zero.mp hq
    refine ⟨c, ?_, h, ?_⟩
    · rw [if_pos hq, hempty, first_empty]
    · intro e he
      rw [hempty, first_empty] at he
      cases he
  · rw [if_neg hq]
    have hne : S.Nonempty := by
      rw [h.filed.qsize_eq, Nat.cast_eq_zero, Finset.card_eq_zero] at hq
      exact Finset.nonempty_of_ne_empty hq
    obtain ⟨s, hs, hend⟩ := search_spec h c.headSearch
    obtain ⟨e, hsettle, hfirst⟩ := settle_spec h hne hend
    simp only [hs, hsettle, hfirst]
    refine ⟨_, rfl, h.advance hfirst s.headSearch, ?_⟩
    rintro e' ⟨⟩
    rfl

/-- `deque` returns the first event and takes it out. -/
theorem Holds.deque (h : Holds c S) (w w' : Widths) :
    ∃ c', c.deque w w' = .ok (first S, c') ∧ Holds c' (S \ (first S).toFinset) := by
  obtain ⟨c₁, hc₁, h₁, hclock₁⟩ := h.head
  rw [CalendarScheduler.deque, hc₁]
  cases hf : first S with
  | none =>
      refine ⟨c₁, rfl, ?_⟩
      rw [Option.toFinset_none, Finset.sdiff_empty]
      exact h₁
  | some e =>
      have heS := mem_of_first_eq_some hf
      obtain ⟨c₂, hc₂, h₂, hclock₂⟩ := h₁.adjust e w
      have hl : c₂.lastbucket = c₂.hash e.time := by
        rw [h₂.ready.lastbucket_eq, hclock₂, hclock₁ e hf]
      -- the first event of all is the first of its bucket
      have hb := h₂.filed.bucket (c₂.hash e.time)
      have hhead : (c₂.buckets (c₂.hash e.time)).list.head? = some e := by
        rw [← hb.first_eq]
        apply first_eq_some (mem_slot.mpr ⟨heS, rfl⟩)
        intro x hx
        exact le_of_first_eq_some hf (mem_slot.mp hx).1
      obtain ⟨rest, hring⟩ := List.head?_eq_some_iff.mp hhead
      rw [hring] at hb
      have hothers : others (e :: rest) e = (e :: rest).erase e := by
        have ho : others ([] ++ e :: rest) e = rest ++ [] := others_append (by simp)
        rw [List.nil_append, List.append_nil] at ho
        rw [ho, List.erase_cons_head]
      have hrem := h₂.remove heS (hothers ▸ hb.erase e)
        (decide_eq_true_iff.trans ((head_alone_iff hb).trans (not_congr shares_slot_iff)))
      simp only [hc₂, hl, hring]
      rw [Option.toFinset_some, Finset.sdiff_singleton_eq_erase]
      generalize c₂.remove _ _ _ = c₃ at hrem
      split
      · obtain ⟨c₄, hc₄, h₄, -⟩ := hrem.resize (c₃.nbuckets / 2) w'
        rw [hc₄]
        exact ⟨c₄, rfl, h₄⟩
      · exact ⟨_, rfl, hrem⟩

/-- `lookup` finds the event of an identifier. -/
theorem Holds.lookup (h : Holds c S) (uid : ℤ) (huid : Set.InjOn Event.uid S) :
    c.lookup uid = first (S.filter (·.uid = uid)) := by
  rw [CalendarScheduler.lookup]
  cases hlook : (List.range c.nbuckets).findSome? fun i =>
      (c.buckets i).list.find? (·.uid = uid) with
  | none =>
      rw [List.findSome?_eq_none_iff] at hlook
      symm
      rw [first_eq_none_iff, Finset.filter_eq_empty_iff]
      intro x hx hxu
      have hfind := hlook _ (List.mem_range.mpr (hash_lt h.ready (h.time_nonneg hx)))
      rw [List.find?_eq_none] at hfind
      have hmem := ((h.filed.bucket _).mem_iff x).mpr (mem_slot.mpr ⟨hx, rfl⟩)
      exact hfind x hmem (decide_eq_true hxu)
  | some e =>
      obtain ⟨i, -, hfind⟩ := List.exists_of_findSome?_eq_some hlook
      have hfound := List.find?_some hfind
      have heu : e.uid = uid := of_decide_eq_true hfound
      have hmem := ((h.filed.bucket i).mem_iff e).mp (List.mem_of_find?_eq_some hfind)
      have heS := (mem_slot.mp hmem).1
      symm
      apply first_eq_some (Finset.mem_filter.mpr ⟨heS, heu⟩)
      intro x hx
      obtain ⟨hxS, hxu⟩ := Finset.mem_filter.mp hx
      exact (huid heS hxS (heu.trans hxu.symm)).le

/-- The calendar scheduler implements the agenda. -/
theorem implements : Implements discipline Holds where
  insert_ok w h ht hnew := h.insert w ht hnew
  cancel_ok h he hpos := h.cancel he hpos
  lookup_eq uid h huid := h.lookup uid huid
  head_ok h := by
    obtain ⟨c', hc', hheld, -⟩ := h.head
    exact ⟨c', hc', hheld⟩
  deque_ok w w' h := h.deque w w'

end Functions

end CalendarScheduler

end ComputerNetworking.Scheduling
