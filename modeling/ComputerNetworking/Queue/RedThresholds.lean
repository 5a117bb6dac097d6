import ComputerNetworking.Queue.RedGentle

/-!
# The thresholds after `reset`

A threshold of 0 asks for an automatic one. `initialize_params` fills both when the
queue knows its link, each on its own; without a link `reset` only fills the upper one.
`effectiveMin` and `effectiveMax` are what the two become, and `reset_wellOrdered` says
for which settings they are positive and in order.
-/

set_option autoImplicit false

namespace ComputerNetworking.Queue

/-- The lower threshold `initialize_params` sets: half the target queue, at least 5. -/
def automaticMin (link : LinkDelay) (edp : Edp) : ℚ :=
  let targetqueue := edp.targetdelay * (link.bandwidth / (8 * edp.meanPktsize))
  if 5 < targetqueue / 2 then targetqueue / 2 else 5

theorem automaticMin_pos (link : LinkDelay) (edp : Edp) : 0 < automaticMin link edp := by
  rw [automaticMin]
  split
  · linarith
  · norm_num

/-- The lower threshold in packets after `reset`. -/
def effectiveMin (link : Option LinkDelay) (edp : Edp) : ℚ :=
  match link with
  | some l => if edp.thMinPkts = 0 then automaticMin l edp else edp.thMinPkts
  | none => edp.thMinPkts

theorem effectiveMin_given (link : Option LinkDelay) {edp : Edp} (h : 0 < edp.thMinPkts) :
    effectiveMin link edp = edp.thMinPkts := by
  cases link with
  | none => rfl
  | some l => exact if_neg h.ne'

/-- The upper threshold in packets after `reset`. -/
def effectiveMax (link : Option LinkDelay) (edp : Edp) : ℚ :=
  if edp.thMaxPkts = 0 then 3 * effectiveMin link edp else edp.thMaxPkts

/-- Size of a packet in the unit of the queue. -/
def unitSize (qib : Bool) (edp : Edp) : ℚ := if qib then edp.meanPktsize else 1

/-- The thresholds `reset` leaves. -/
theorem resetEdp_thresholds (lm : Libm) (link : Option LinkDelay) (qib : Bool) (edp : Edp) :
    (resetEdp lm link qib edp).thMin = effectiveMin link edp * unitSize qib edp ∧
      (resetEdp lm link qib edp).thMax = effectiveMax link edp * unitSize qib edp := by
  have hmax : ∀ x : ℚ, (if (if edp.thMaxPkts = 0 then 3 * x else edp.thMaxPkts) = 0 then 3 * x
      else if edp.thMaxPkts = 0 then 3 * x else edp.thMaxPkts) =
      if edp.thMaxPkts = 0 then 3 * x else edp.thMaxPkts := by
    intro x
    by_cases h : edp.thMaxPkts = 0
    · rw [if_pos h, ite_self]
    · rw [if_neg h, if_neg h]
  cases link with
  | none => cases qib <;> simp [resetEdp, effectiveMin, effectiveMax, unitSize]
  | some l =>
      -- `initialize_params` has filled the upper threshold already
      cases qib with
      | false =>
          simp only [resetEdp, initializeParams, effectiveMin, effectiveMax, automaticMin, unitSize,
            hmax, Bool.false_eq_true, if_false, mul_one]
          exact ⟨trivial, trivial⟩
      | true =>
          simp only [resetEdp, initializeParams, effectiveMin, effectiveMax, automaticMin, unitSize,
            hmax, if_true]
          exact ⟨trivial, trivial⟩

namespace REDQueue

/-- The `link` command. -/
def attachLink (lm : Libm) (s : REDQueue) (del : LinkDelay) : REDQueue :=
  let edp := { s.edp with
    ptc := del.bandwidth / (8 * s.edp.meanPktsize)
    delay := del.delay }
  { s with
    link := some del
    edp :=
      if edp.qW ≤ 0 ∨ edp.thMinPkts = 0 ∨ edp.thMaxPkts = 0 then initializeParams lm del edp
      else edp }

/-- Attaching a link does not change what the thresholds become. -/
theorem attachLink_effective (lm : Libm) (s : REDQueue) (del : LinkDelay) :
    effectiveMin (some del) (s.attachLink lm del).edp = effectiveMin (some del) s.edp ∧
      effectiveMax (some del) (s.attachLink lm del).edp = effectiveMax (some del) s.edp := by
  have hpos := automaticMin_pos del s.edp
  have hmin :
      effectiveMin (some del) (s.attachLink lm del).edp = effectiveMin (some del) s.edp := by
    simp only [attachLink, effectiveMin]
    split
    · by_cases hzero : s.edp.thMinPkts = 0
      · -- filled by the command, so `reset` keeps it
        rw [if_pos hzero]
        have hfilled : (initializeParams lm del { s.edp with
            ptc := del.bandwidth / (8 * s.edp.meanPktsize)
            delay := del.delay }).thMinPkts = automaticMin del s.edp := by
          simp only [initializeParams, if_pos hzero, automaticMin]
        rw [hfilled, if_neg hpos.ne']
      · have hkept : (initializeParams lm del { s.edp with
            ptc := del.bandwidth / (8 * s.edp.meanPktsize)
            delay := del.delay }).thMinPkts = s.edp.thMinPkts := by
          simp only [initializeParams, if_neg hzero]
        rw [hkept, if_neg hzero, if_neg hzero]
    · rfl
  refine ⟨hmin, ?_⟩
  rw [effectiveMax, hmin, effectiveMax]
  simp only [attachLink]
  split
  next hauto =>
    simp only [initializeParams, effectiveMin, automaticMin]
    by_cases hmax : s.edp.thMaxPkts = 0
    · simp only [if_pos hmax, ite_self]
    · simp only [if_neg hmax]
  next => rfl

/-- The thresholds are positive and in order. -/
structure WellOrdered (s : REDQueue) : Prop where
  pos : 0 < s.edp.thMin
  lt : s.edp.thMin < s.edp.thMax

/-- Below the upper threshold a default queue that `reset` leaves drops by the linear part. -/
theorem reset_defaultProb {lm : Libm} {s : REDQueue} {now : ℚ} (h : (s.reset lm now).1.WellOrdered)
    (ave : ℚ) (hlt : ave < (s.reset lm now).1.edp.thMax) :
    (s.reset lm now).1.defaultProb ave =
      clampOne (rise (s.reset lm now).1.edp.thMin (s.reset lm now).1.edp.thMax ave *
        (1 / s.edp.maxPInv)) := by
  have hdiff := (sub_pos.2 h.lt).ne'
  have hcur : (s.reset lm now).1.edv.curMaxP = 1 / s.edp.maxPInv := by
    show 1 / (resetEdp lm s.link s.qib s.edp).maxPInv = _
    rw [resetEdp_maxPInv]
  have hA : (s.reset lm now).1.edv.vA =
      1 / ((s.reset lm now).1.edp.thMax - (s.reset lm now).1.edp.thMin) := by
    show 1 / (if (s.reset lm now).1.edp.thMax - (s.reset lm now).1.edp.thMin = 0 then (1 : ℚ)
      else (s.reset lm now).1.edp.thMax - (s.reset lm now).1.edp.thMin) = _
    rw [if_neg hdiff]
  have hB : (s.reset lm now).1.edv.vB = -(s.reset lm now).1.edp.thMin /
      ((s.reset lm now).1.edp.thMax - (s.reset lm now).1.edp.thMin) := by
    show -(s.reset lm now).1.edp.thMin /
      (if (s.reset lm now).1.edp.thMax - (s.reset lm now).1.edp.thMin = 0 then (1 : ℚ)
        else (s.reset lm now).1.edp.thMax - (s.reset lm now).1.edp.thMin) = _
    rw [if_neg hdiff]
  rw [defaultProb, calculatePNew_linear hA hB hlt, hcur]

/-- The drop probability is 0 at the lower threshold and below 1 just above it. -/
theorem reset_startsAtZero {lm : Libm} {s : REDQueue} {now : ℚ}
    (h : (s.reset lm now).1.WellOrdered) :
    (s.reset lm now).1.defaultProb (s.reset lm now).1.edp.thMin = 0 ∧
      ∃ above, (s.reset lm now).1.edp.thMin < above ∧
        ∀ ave, (s.reset lm now).1.edp.thMin < ave → ave < above →
          (s.reset lm now).1.defaultProb ave < 1 := by
  have hlinear := reset_defaultProb h
  generalize (s.reset lm now).1 = r at h hlinear ⊢
  generalize 1 / s.edp.maxPInv = m at hlinear
  obtain ⟨hpos, hlt⟩ := h
  have hdiff := sub_pos.2 hlt
  constructor
  · rw [hlinear _ hlt, (rise_eq_zero_iff hlt).2 rfl, zero_mul]
    exact clampOne_of_le zero_le_one
  · have hm : 0 < |m| + 1 := by positivity
    refine ⟨r.edp.thMin + (r.edp.thMax - r.edp.thMin) / (|m| + 1), ?_, ?_⟩
    · linarith [div_pos hdiff hm]
    · intro ave hab hbe
      -- up to there the rise is below `1 / (|m| + 1)`
      have hrise : rise r.edp.thMin r.edp.thMax ave * (|m| + 1) < 1 := by
        rw [rise, div_mul_eq_mul_div, div_lt_one hdiff, ← lt_div_iff₀ hm]
        linarith
      have hnonneg := rise_nonneg hlt hab.le
      have hle : rise r.edp.thMin r.edp.thMax ave * m ≤
          rise r.edp.thMin r.edp.thMax ave * (|m| + 1) := by
        apply mul_le_mul_of_nonneg_left _ hnonneg
        linarith [le_abs_self m]
      have hbelow : ave < r.edp.thMax := by
        have hstep : (r.edp.thMax - r.edp.thMin) / (|m| + 1) ≤ r.edp.thMax - r.edp.thMin := by
          apply div_le_self hdiff.le
          linarith [abs_nonneg m]
        linarith
      rw [hlinear ave hbelow, clampOne_eq_min]
      exact (min_le_left _ _).trans_lt (hle.trans_lt hrise)

end REDQueue

open REDQueue

/-- A lower threshold that is given, or automatic with a link attached; and an upper
one that is automatic or above the lower one. -/
def OrderedSetting (link : Option LinkDelay) (edp : Edp) : Prop :=
  (0 < edp.thMinPkts ∧ (edp.thMaxPkts = 0 ∨ edp.thMinPkts < edp.thMaxPkts)) ∨
    (edp.thMinPkts = 0 ∧ ∃ l, link = some l ∧
      (edp.thMaxPkts = 0 ∨ automaticMin l edp < edp.thMaxPkts))

theorem OrderedSetting.effective {link : Option LinkDelay} {edp : Edp}
    (h : OrderedSetting link edp) :
    0 < effectiveMin link edp ∧ effectiveMin link edp < effectiveMax link edp := by
  -- an automatic upper threshold is three times the lower one
  have hmax : ∀ x, effectiveMin link edp = x → 0 < x → (edp.thMaxPkts = 0 ∨ x < edp.thMaxPkts) →
      0 < effectiveMin link edp ∧ effectiveMin link edp < effectiveMax link edp := by
    intro x hx hpos hor
    rw [effectiveMax, hx]
    refine ⟨hpos, ?_⟩
    split
    next => linarith
    next hne => exact hor.resolve_left hne
  rcases h with ⟨hpos, hor⟩ | ⟨hzero, l, rfl, hor⟩
  · exact hmax edp.thMinPkts (effectiveMin_given link hpos) hpos hor
  · apply hmax (automaticMin l edp) ?_ (automaticMin_pos l edp) hor
    rw [effectiveMin]
    exact if_pos hzero

/-- For a queue as it was set up, or after the `link` command: `reset` puts positive
thresholds in order when the setting is ordered, and then the default drop probability
starts at 0. Equal thresholds stay equal, and without a link an automatic lower
threshold stays 0. -/
theorem reset_wellOrdered (lm : Libm) (s r : REDQueue) (now : ℚ)
    (hr : r = s ∨ ∃ del, r = s.attachLink lm del) (hmean : 0 < s.edp.meanPktsize) :
    (OrderedSetting r.link s.edp → (r.reset lm now).1.WellOrdered ∧
      (s.edp.maxPInv ≠ 0 →
        (r.reset lm now).1.defaultProb (r.reset lm now).1.edp.thMin = 0 ∧
        ∃ above, (r.reset lm now).1.edp.thMin < above ∧
          ∀ ave, (r.reset lm now).1.edp.thMin < ave → ave < above →
            (r.reset lm now).1.defaultProb ave < 1)) ∧
    (0 < s.edp.thMinPkts → s.edp.thMaxPkts = s.edp.thMinPkts →
      (r.reset lm now).1.edp.thMin = (r.reset lm now).1.edp.thMax) ∧
    (s.edp.thMinPkts = 0 → r.link = none → (r.reset lm now).1.edp.thMin = 0) := by
  -- what `reset` leaves, in terms of the settings before the `link` command
  have hthresholds : ∃ unit : ℚ, 0 < unit ∧
      (r.reset lm now).1.edp.thMin = effectiveMin r.link s.edp * unit ∧
      (r.reset lm now).1.edp.thMax = effectiveMax r.link s.edp * unit := by
    have hreset := resetEdp_thresholds lm r.link r.qib r.edp
    have hunit : 0 < unitSize r.qib r.edp := by
      have hmean' : r.edp.meanPktsize = s.edp.meanPktsize := by
        rcases hr with rfl | ⟨del, rfl⟩
        · rfl
        · simp only [attachLink]
          split <;> rfl
      rw [unitSize, hmean']
      split
      · exact_mod_cast hmean
      · exact one_pos
    refine ⟨unitSize r.qib r.edp, hunit, ?_⟩
    rcases hr with rfl | ⟨del, rfl⟩
    · exact hreset
    · obtain ⟨hmin, hmax⟩ := attachLink_effective lm s del
      have hlink : (s.attachLink lm del).link = some del := rfl
      rw [hlink] at hreset ⊢
      rw [← hmin, ← hmax]
      exact hreset
  obtain ⟨unit, hunit, hmin, hmax⟩ := hthresholds
  refine ⟨?_, ?_, ?_⟩
  · intro hset
    obtain ⟨hpos, hlt⟩ := hset.effective
    have hordered : (r.reset lm now).1.WellOrdered := by
      constructor
      · rw [hmin]
        exact mul_pos hpos hunit
      · rw [hmin, hmax]
        exact mul_lt_mul_of_pos_right hlt hunit
    exact ⟨hordered, fun _ => reset_startsAtZero hordered⟩
  · intro hpos heq
    have hgiven := effectiveMin_given r.link hpos
    have hne : s.edp.thMaxPkts ≠ 0 := by
      rw [heq]
      exact hpos.ne'
    rw [hmin, hmax, effectiveMax, if_neg hne, hgiven, heq]
  · intro hzero hlink
    rw [hmin, hlink, effectiveMin, hzero, zero_mul]

/-- A queue with both thresholds automatic, as the defaults have it. -/
def automaticQueue : REDQueue where
  edp := { meanPktsize := 500, maxPInv := 10, qW := 1 / 500, targetdelay := 5 / 1000 }

/-- A link of ten megabits a second. -/
def tenMegabit : LinkDelay := ⟨10000000, 1 / 100⟩

theorem reset_wellOrdered_automatic :
    ((automaticQueue.attachLink zeroLibm tenMegabit).reset zeroLibm 0).1.WellOrdered :=
  ((reset_wellOrdered zeroLibm automaticQueue (automaticQueue.attachLink zeroLibm tenMegabit) 0
    (Or.inr ⟨tenMegabit, rfl⟩) (by decide)).1
    (Or.inr ⟨rfl, tenMegabit, rfl, Or.inl rfl⟩)).1

/-- Without a link `reset` leaves both thresholds of that queue at 0. -/
theorem automaticQueue_without_link : ¬∀ (lm : Libm) (s : REDQueue) (now : ℚ),
    0 < s.edp.meanPktsize → 0 ≤ s.edp.thMinPkts → 0 ≤ s.edp.thMaxPkts →
      (0 < s.edp.thMinPkts → 0 < s.edp.thMaxPkts → s.edp.thMinPkts ≤ s.edp.thMaxPkts) →
      (s.reset lm now).1.WellOrdered := by
  intro hall
  have hpos := (hall zeroLibm automaticQueue 0 (by decide) (by decide +kernel) (by decide +kernel)
    (by decide +kernel)).pos
  revert hpos
  decide +kernel

end ComputerNetworking.Queue
