import ComputerNetworking.Queue.RedPole
import ComputerNetworking.Queue.RedDefault
import ComputerNetworking.Foundations.FirstHit

/-!
# How default RED spaces its early drops

`modify_p` turns a base probability into one that grows with the arrivals since
the last drop. Over independent uniform draws and a fixed base probability `p`
the next drop is equally likely at every arrival up to the one at which it is
certain; with `wait_` set the same holds from the first arrival `n` with
`n * p >= 1` on (`early_drops_spaced`).
-/

set_option autoImplicit false

namespace ComputerNetworking.Queue

open ComputerNetworking.Foundations MeasureTheory

/-- `v_prob` of the `n`-th arrival after a drop, for a base probability `p` and
packets counted as such. -/
def spacedProb (wait : Bool) (p : ℚ) (n : ℚ) : ℚ := clampOne (spread wait n (some p))

theorem modifyP_packets (p : ℚ) (count countBytes : Int) (meanPktsize : Nat) (wait : Bool)
    (size : Nat) :
    modifyP (some p) count countBytes false meanPktsize wait size =
      .ok (spacedProb wait p count) := rfl

namespace REDQueue

/-! ## One arrival -/

section Test

variable (lm : Libm) {s : REDQueue} {pkt : Packet} {u q : ℚ}
  (hcautious : s.edp.cautious ≠ 1 ∧ s.edp.cautious ≠ 2)
  (hmark : s.edp.setbit = true → pkt.ect = false) (hq : s.earlyProb pkt = .ok q)

include hcautious hq

/-- The test of `drop_early` fails: the packet stays and the count goes on. -/
theorem dropEarly_of_lt (h : ¬u ≤ q) :
    s.dropEarly lm pkt u = .ok ({ s with edv := { s.edv with
      curMaxP := s.earlyMaxP
      vProb1 := s.earlyProb1
      vProb := q } }, pkt, false) := by
  have hc1 : ¬s.edp.cautious = 1 := hcautious.1
  have hc2 : ¬s.edp.cautious = 2 := hcautious.2
  simp only [dropEarly, earlyProbability_eq, hq, cautiousDraw, hc1, hc2, h, false_and, if_false]

include hmark

/-- The test of `drop_early` succeeds: the packet goes and the count starts anew. -/
theorem dropEarly_of_le (h : u ≤ q) :
    s.dropEarly lm pkt u = .ok ({ s with edv := { s.edv with
      curMaxP := s.earlyMaxP
      vProb1 := s.earlyProb1
      vProb := q
      count := 0
      countBytes := 0 } }, pkt, true) := by
  have hc1 : ¬s.edp.cautious = 1 := hcautious.1
  have hc2 : ¬s.edp.cautious = 2 := hcautious.2
  cases hset : s.edp.setbit with
  | false =>
      simp only [dropEarly, earlyProbability_eq, hq, cautiousDraw, hc1, hc2, h, hset, false_and,
        Bool.false_eq_true, if_false, if_true]
  | true =>
      simp only [dropEarly, earlyProbability_eq, hq, cautiousDraw, hc1, hc2, h, hmark hset,
        pickPacketForECN, false_and, and_false, Bool.false_eq_true, if_false, if_true]

end Test

/-- An arrival that has just been counted reaches `drop_early` with base
probability `p`, at a queue that is not full. -/
structure AtBase (p : ℚ) (a : REDQueue) : Prop where
  reaches : a.reachesDropEarly
  base : a.earlyProb1 = some p
  room : a.qlen < a.hardLimit

/-- The state in which an arrival at base probability `p` leaves the queue when it
is kept with `v_prob` at `q`. -/
def keeps (a : REDQueue) (pkt : Packet) (q : ℚ) : REDQueue :=
  { a with
    q := a.q.enque pkt
    edv := { a.edv with curMaxP := a.earlyMaxP, vProb1 := a.earlyProb1, vProb := q } }

section Call

variable (lm : Libm) {s : REDQueue} {pkt : Packet} {d : Draw} {p : ℚ}
  (hbytes : s.edp.bytes = false) (hcautious : s.edp.cautious ≠ 1 ∧ s.edp.cautious ≠ 2)
  (hmark : s.edp.setbit = true → pkt.ect = false) (hbase : AtBase p (s.arrive pkt d.now))

include hbytes hbase

/-- `v_prob` of a counted arrival. -/
theorem earlyProb_atBase : (s.arrive pkt d.now).earlyProb pkt =
    .ok (spacedProb s.edp.wait p ((s.edv.count : ℚ) + 1)) := by
  have hedp : (s.arrive pkt d.now).edp = s.edp := rfl
  rw [earlyProb, hbase.base, hedp, hbytes, modifyP_packets, arrive_count]
  push_cast
  rfl

include hcautious

/-- A draw above `v_prob` keeps the arrival. -/
theorem enque_kept (h : ¬d.u ≤ spacedProb s.edp.wait p ((s.edv.count : ℚ) + 1)) :
    s.enque lm pkt d = .ok ((s.arrive pkt d.now).keeps pkt
      (spacedProb s.edp.wait p ((s.edv.count : ℚ) + 1)), none) := by
  have hprob := earlyProb_atBase hbytes hbase
  have hcautious' : (s.arrive pkt d.now).edp.cautious ≠ 1 ∧ (s.arrive pkt d.now).edp.cautious ≠ 2 :=
    hcautious
  rw [enque]
  generalize s.arrive pkt d.now = a at hbase hprob hcautious' ⊢
  generalize spacedProb s.edp.wait p ((s.edv.count : ℚ) + 1) = q at h hprob ⊢
  obtain ⟨⟨hcong, hpast, hold⟩, -, hroom⟩ := hbase
  have hnotold : ¬a.edv.old = false := by simp [hold]
  have hfull : ¬a.qlen ≥ a.hardLimit := not_le.2 hroom
  simp only [classify, threshold, if_pos hcong, if_neg hpast, if_neg hnotold,
    dropEarly_of_lt lm hcautious' hprob h, if_neg hfull, settle]
  rfl

include hmark

/-- A draw of at most `v_prob` drops the arrival. -/
theorem enque_dropped (h : d.u ≤ spacedProb s.edp.wait p ((s.edv.count : ℚ) + 1)) :
    ∃ s' out, s.enque lm pkt d = .ok (s', some out) ∧ s'.edp = s.edp ∧
      s'.edv.vProb = spacedProb s.edp.wait p ((s.edv.count : ℚ) + 1) ∧ s'.edv.count = 0 := by
  have hprob := earlyProb_atBase hbytes hbase
  have hcautious' : (s.arrive pkt d.now).edp.cautious ≠ 1 ∧ (s.arrive pkt d.now).edp.cautious ≠ 2 :=
    hcautious
  have hmark' : (s.arrive pkt d.now).edp.setbit = true → pkt.ect = false := hmark
  have hedp : (s.arrive pkt d.now).edp = s.edp := rfl
  rw [enque]
  generalize s.arrive pkt d.now = a at hbase hprob hcautious' hmark' hedp ⊢
  generalize spacedProb s.edp.wait p ((s.edv.count : ℚ) + 1) = q at h hprob ⊢
  obtain ⟨⟨hcong, hpast, hold⟩, -, hroom⟩ := hbase
  have hnotold : ¬a.edv.old = false := by simp [hold]
  have hfull : ¬a.qlen ≥ a.hardLimit := not_le.2 hroom
  have hsame : ¬(pickPacketForECN pkt).uid ≠ pkt.uid := fun h => h rfl
  simp only [classify, threshold, if_pos hcong, if_neg hpast, if_neg hnotold,
    dropEarly_of_le lm hcautious' hmark' hprob h, if_neg hfull, settle, if_neg hsame]
  exact ⟨_, _, rfl, hedp, rfl, rfl⟩

/-- The arrival is dropped exactly when its draw is at most `v_prob`; the count
starts anew then and grows by one otherwise. -/
theorem enque_spaced :
    ∃ s' out, s.enque lm pkt d = .ok (s', out) ∧ s'.edp = s.edp ∧
      s'.edv.vProb = spacedProb s.edp.wait p ((s.edv.count : ℚ) + 1) ∧
      (d.u ≤ s'.edv.vProb → out ≠ none ∧ s'.edv.count = 0) ∧
      (¬d.u ≤ s'.edv.vProb → out = none ∧ s'.edv.count = s.edv.count + 1) := by
  by_cases hu : d.u ≤ spacedProb s.edp.wait p ((s.edv.count : ℚ) + 1)
  · obtain ⟨s', out, hrun, hedp, hvp, hcount⟩ := enque_dropped lm hbytes hcautious hmark hbase hu
    refine ⟨s', some out, hrun, hedp, hvp, ?_, ?_⟩
    · intro _
      exact ⟨Option.some_ne_none out, hcount⟩
    · intro h
      rw [hvp] at h
      exact absurd hu h
  · have hrun := enque_kept lm hbytes hcautious hbase hu
    refine ⟨_, none, hrun, rfl, rfl, ?_, ?_⟩
    · intro h
      exact absurd h hu
    · intro _
      exact ⟨rfl, s.arrive_count pkt d.now⟩

end Call

/-! ## The arrivals after a drop -/

/-- The departures before an arrival, and the arrival with what it takes from
outside besides the uniform draw. -/
structure Round where
  departures : List ℚ := []
  pkt : Packet
  now : ℚ
  r : Nat := 0

/-- The queue after departures at the given times. -/
def departs (s : REDQueue) (times : List ℚ) : REDQueue :=
  times.foldl (fun s now => (s.deque now).2) s

theorem departs_edp_edv (s : REDQueue) (times : List ℚ) :
    (s.departs times).edp = s.edp ∧ (s.departs times).edv = s.edv := by
  induction times generalizing s with
  | nil => exact ⟨rfl, rfl⟩
  | cons now times ih =>
      obtain ⟨hedp, hedv⟩ := ih (s.deque now).2
      rw [deque_edv] at hedv
      refine ⟨hedp.trans ?_, hedv⟩
      rw [deque]
      split <;> rfl

/-- The arrival of a round under a real number as its uniform draw. The code only
compares the draw with `v_prob`, so it does what it does under any rational draw
on the same side. -/
def ArrivesWith (lm : Libm) (s : REDQueue) (round : Round) (x : ℝ) (s' : REDQueue)
    (out : Option (Fate × Packet)) : Prop :=
  ∃ u : ℚ, (s.departs round.departures).enque lm round.pkt ⟨round.now, u, round.r⟩ = .ok (s', out) ∧
    (u ≤ s'.edv.vProb ↔ x ≤ s'.edv.vProb)

section Rounds

variable (lm : Libm) (rounds : ℕ → Round) (s : REDQueue) (x : ℕ → ℝ)

/-- The state after `k` arrivals of which none was dropped. -/
inductive Undropped : ℕ → REDQueue → Prop where
  | start : Undropped 0 s
  | kept {k : ℕ} {t t' : REDQueue} (h : Undropped k t)
      (ha : ArrivesWith lm t (rounds (k + 1)) (x (k + 1)) t' none) : Undropped (k + 1) t'

/-- The first drop hits the `n`-th arrival. -/
def DropsFirstAt (n : ℕ) : Prop :=
  ∃ k t t' out, n = k + 1 ∧ Undropped lm rounds s x k t ∧
    ArrivesWith lm t (rounds n) (x n) t' (some out)

end Rounds

/-- A queue that has just dropped a packet, counts packets, uses neither of the cautious
modes, does not mark in place of dropping, and finds the base probability `p n` at the `n`-th
of the next `N` arrivals. -/
structure SpacedBy (lm : Libm) (rounds : ℕ → Round) (s : REDQueue) (p : ℕ → ℚ) (N : ℕ) :
    Prop where
  count : s.edv.count = 0
  bytes : s.edp.bytes = false
  cautious : s.edp.cautious ≠ 1 ∧ s.edp.cautious ≠ 2
  unmarked : s.edp.setbit = true → ∀ n, (rounds n).pkt.ect = false
  base : ∀ x k t, k < N → Undropped lm rounds s x k t →
    AtBase (p (k + 1)) ((t.departs (rounds (k + 1)).departures).arrive (rounds (k + 1)).pkt
      (rounds (k + 1)).now)

/-- The setting of the law: the same base probability `p` at every arrival. -/
abbrev Spaced (lm : Libm) (rounds : ℕ → Round) (s : REDQueue) (p : ℚ) (N : ℕ) : Prop :=
  SpacedBy lm rounds s (fun _ => p) N

/-- The thresholds of the arrivals. -/
def thresholds (s : REDQueue) (p : ℕ → ℚ) (n : ℕ) : ℝ := (spacedProb s.edp.wait (p n) n : ℚ)

section Hits

variable {lm : Libm} {rounds : ℕ → Round} {s : REDQueue} {p : ℕ → ℚ} {N : ℕ}

/-- One arrival after `k` that were kept. -/
theorem SpacedBy.arrival (h : SpacedBy lm rounds s p N) {x : ℕ → ℝ} {k : ℕ} {t : REDQueue}
    (hk : k < N) (hu : Undropped lm rounds s x k t) (hedp : t.edp = s.edp)
    (hcount : t.edv.count = k) (y : ℝ) :
    ∃ t' out, ArrivesWith lm t (rounds (k + 1)) y t' out ∧
      ∀ t' out, ArrivesWith lm t (rounds (k + 1)) y t' out →
        (y ≤ s.thresholds p (k + 1) → out ≠ none) ∧
        (¬y ≤ s.thresholds p (k + 1) →
          out = none ∧ t'.edp = s.edp ∧ t'.edv.count = (k + 1 : ℕ)) := by
  have hbase := h.base x k t hk hu
  obtain ⟨hdedp, hdedv⟩ := t.departs_edp_edv (rounds (k + 1)).departures
  rw [hedp] at hdedp
  have hbytes := h.bytes
  have hcautious := h.cautious
  have hmark := fun hset => h.unmarked hset (k + 1)
  rw [← hdedp] at hbytes hcautious hmark
  have hcall (u : ℚ) := @enque_spaced lm (t.departs (rounds (k + 1)).departures)
    (rounds (k + 1)).pkt ⟨(rounds (k + 1)).now, u, (rounds (k + 1)).r⟩ (p (k + 1)) hbytes hcautious
    hmark hbase
  have hprob : ((spacedProb (t.departs (rounds (k + 1)).departures).edp.wait (p (k + 1))
      (((t.departs (rounds (k + 1)).departures).edv.count : ℚ) + 1) : ℚ) : ℝ) =
      s.thresholds p (k + 1) := by
    rw [thresholds, hdedp, hdedv, hcount]
    push_cast
    rfl
  generalize spacedProb (t.departs (rounds (k + 1)).departures).edp.wait (p (k + 1))
      (((t.departs (rounds (k + 1)).departures).edv.count : ℚ) + 1) = q at hcall hprob
  rw [← hprob]
  -- a rational draw on the side of `y`
  obtain ⟨u, hside⟩ : ∃ u : ℚ, u ≤ q ↔ y ≤ q := by
    by_cases hy : y ≤ (q : ℝ)
    · exact ⟨q, iff_of_true le_rfl hy⟩
    · exact ⟨q + 1, iff_of_false (by linarith) hy⟩
  obtain ⟨t', out, hrun, -, hvp, -⟩ := hcall u
  refine ⟨t', out, ⟨u, hrun, by rw [hvp]; exact hside⟩, ?_⟩
  rintro t₁ out₁ ⟨v, hrun₁, hside₁⟩
  obtain ⟨t₂, out₂, hrun₂, hedp₂, hvp₂, hle, hlt⟩ := hcall v
  rw [hrun₁, Except.ok.injEq, Prod.mk.injEq] at hrun₂
  obtain ⟨rfl, rfl⟩ := hrun₂
  rw [hvp₂] at hside₁ hle hlt
  constructor
  · intro hy
    exact (hle (hside₁.2 hy)).1
  · intro hy
    obtain ⟨hout, hc⟩ := hlt (fun hv => hy (hside₁.1 hv))
    refine ⟨hout, hedp₂.trans hdedp, ?_⟩
    rw [hc, hdedv, hcount]
    push_cast
    rfl

/-- After `k` arrivals that were all kept, every draw was above its threshold and
the count is `k`. -/
theorem SpacedBy.undropped (h : SpacedBy lm rounds s p N) {x : ℕ → ℝ} {k : ℕ} {t : REDQueue}
    (hk : k ≤ N) (hu : Undropped lm rounds s x k t) :
    (t.edp = s.edp ∧ t.edv.count = k) ∧ ∀ i ∈ Finset.Icc 1 k, s.thresholds p i < x i := by
  induction hu with
  | start => exact ⟨⟨rfl, h.count⟩, by simp⟩
  | @kept k t t' hu ha ih =>
      obtain ⟨⟨hedp, hcount⟩, hdraws⟩ := ih (by omega)
      obtain ⟨-, -, -, hall⟩ := h.arrival (by omega) hu hedp hcount (x (k + 1))
      have hmiss : ¬x (k + 1) ≤ s.thresholds p (k + 1) := fun hy => (hall t' none ha).1 hy rfl
      refine ⟨((hall t' none ha).2 hmiss).2, ?_⟩
      intro i hi
      rw [Finset.mem_Icc] at hi
      rcases eq_or_lt_of_le hi.2 with rfl | hlt
      · exact not_le.1 hmiss
      · exact hdraws i (Finset.mem_Icc.2 ⟨hi.1, by omega⟩)

/-- Draws above their thresholds keep the arrivals. -/
theorem SpacedBy.exists_undropped (h : SpacedBy lm rounds s p N) {x : ℕ → ℝ} {k : ℕ} (hk : k ≤ N)
    (hx : ∀ i ∈ Finset.Icc 1 k, s.thresholds p i < x i) : ∃ t, Undropped lm rounds s x k t := by
  induction k with
  | zero => exact ⟨s, .start⟩
  | succ k ih =>
      obtain ⟨t, hu⟩ : ∃ t, Undropped lm rounds s x k t := by
        apply ih (by omega)
        intro i hi
        rw [Finset.mem_Icc] at hi
        exact hx i (Finset.mem_Icc.2 ⟨hi.1, by omega⟩)
      obtain ⟨⟨hedp, hcount⟩, -⟩ := h.undropped (by omega) hu
      obtain ⟨t', out, ha, hall⟩ := h.arrival (by omega) hu hedp hcount (x (k + 1))
      have hmiss := not_le.2 (hx (k + 1) (by simp))
      have hout := ((hall t' out ha).2 hmiss).1
      exact ⟨t', .kept hu (hout ▸ ha)⟩

/-- The first drop of the code is the first hit of the draws. -/
theorem SpacedBy.dropsFirstAt_iff (h : SpacedBy lm rounds s p N) {x : ℕ → ℝ} {n : ℕ} (h1 : 1 ≤ n)
    (hn : n ≤ N) : DropsFirstAt lm rounds s x n ↔ x ∈ firstHit (s.thresholds p) n := by
  obtain ⟨k, rfl⟩ : ∃ k, n = k + 1 := ⟨n - 1, by omega⟩
  constructor
  · rintro ⟨k', t, t', out, hk, hu, ha⟩
    obtain rfl : k = k' := by omega
    obtain ⟨⟨hedp, hcount⟩, hdraws⟩ := h.undropped (by omega) hu
    obtain ⟨-, -, -, hall⟩ := h.arrival (by omega) hu hedp hcount (x (k + 1))
    refine ⟨?_, ?_⟩
    · intro i hi
      rw [Finset.mem_Ico] at hi
      exact hdraws i (Finset.mem_Icc.2 ⟨hi.1, by omega⟩)
    · by_contra hmiss
      have hnone := ((hall t' (some out) ha).2 hmiss).1
      cases hnone
  · rintro ⟨hmiss, hhit⟩
    obtain ⟨t, hu⟩ : ∃ t, Undropped lm rounds s x k t := by
      apply h.exists_undropped (by omega)
      intro i hi
      rw [Finset.mem_Icc] at hi
      exact hmiss i (Finset.mem_Ico.2 ⟨hi.1, by omega⟩)
    obtain ⟨⟨hedp, hcount⟩, -⟩ := h.undropped (by omega) hu
    obtain ⟨t', out, ha, hall⟩ := h.arrival (by omega) hu hedp hcount (x (k + 1))
    obtain ⟨o, rfl⟩ := Option.ne_none_iff_exists'.1 ((hall t' out ha).1 hhit)
    exact ⟨k, t, t', o, rfl, hu, ha⟩

end Hits

/-! ## The law -/

section Values

variable {p : ℚ}

theorem spacedProb_mem (wait : Bool) (hp0 : 0 < p) (hp1 : p < 1) (n : ℕ) :
    0 ≤ spacedProb wait p n ∧ spacedProb wait p n ≤ 1 := by
  have hp : IsProbability (some p) := ⟨p, rfl, hp0.le, hp1.le⟩
  exact modifyP_mem hp (modifyP_packets p (n : Int) 0 0 wait 0)

/-- Without `wait_`, up to the arrival that is certain. -/
theorem spacedProb_of_le {n : ℚ} (hp0 : 0 < p) (hn : (n + 1) * p ≤ 1) :
    spacedProb false p n = p / (1 - n * p) := by
  have hlt : n * p < 1 := by linarith
  have hle : p / (1 - n * p) ≤ 1 := by
    rw [div_le_one (by linarith)]
    linarith
  rw [spacedProb, clampOne_eq_min, spread]
  simp only [Bool.false_eq_true, if_false, if_pos hlt]
  exact min_eq_left hle

theorem spacedProb_of_ge {n : ℚ} (hn : 1 ≤ (n + 1) * p) : spacedProb false p n = 1 := by
  rw [spacedProb, clampOne_eq_min, spread]
  simp only [Bool.false_eq_true, if_false]
  split
  next hlt =>
    rw [min_eq_right]
    rw [le_div_iff₀ (by linarith)]
    linarith
  next => exact min_self 1

/-- With `wait_`, before the wait is over. -/
theorem spacedProb_wait_of_lt {n : ℚ} (hn : n * p < 1) : spacedProb true p n = 0 := by
  rw [spacedProb, clampOne_eq_min, spread]
  simp only [if_true, if_pos hn]
  exact min_eq_left zero_le_one

theorem spacedProb_wait_of_le {n : ℚ} (hp0 : 0 < p) (h1 : 1 ≤ n * p) (hn : (n + 1) * p ≤ 2) :
    spacedProb true p n = p / (2 - n * p) := by
  have hlt : n * p < 2 := by linarith
  have hle : p / (2 - n * p) ≤ 1 := by
    rw [div_le_one (by linarith)]
    linarith
  rw [spacedProb, clampOne_eq_min, spread]
  simp only [if_true, if_neg (not_lt.2 h1), if_pos hlt]
  exact min_eq_left hle

theorem spacedProb_wait_of_ge {n : ℚ} (hp1 : p < 1) (hn : 2 ≤ (n + 1) * p) :
    spacedProb true p n = 1 := by
  have h1 : ¬n * p < 1 := by
    intro h
    linarith
  rw [spacedProb, clampOne_eq_min, spread]
  simp only [if_true, if_neg h1]
  split
  next hlt =>
    rw [min_eq_right]
    rw [le_div_iff₀ (by linarith)]
    linarith
  next => exact min_self 1

end Values

section Law

variable {lm : Libm} {rounds : ℕ → Round} {s : REDQueue} {p : ℚ} {N : ℕ}

theorem Spaced.real_dropsFirstAt (h : Spaced lm rounds s p N) {n : ℕ} (h1 : 1 ≤ n) (hn : n ≤ N) :
    draws.real {x | DropsFirstAt lm rounds s x n} =
      draws.real (firstHit (s.thresholds fun _ => p) n) := by
  have hset : {x | DropsFirstAt lm rounds s x n} = firstHit (s.thresholds fun _ => p) n := by
    ext x
    exact h.dropsFirstAt_iff h1 hn
  rw [hset]

/-- An arrival whose threshold is 1 is reached by no run without a drop. -/
theorem Spaced.certain (h : Spaced lm rounds s p N) {n : ℕ} (h1 : 1 ≤ n) (hn : n ≤ N)
    (hsure : s.thresholds (fun _ => p) n = 1) :
    draws.real {x | ∃ k ∈ Finset.Icc 1 n, DropsFirstAt lm rounds s x k} = 1 := by
  rw [← draws_hit_by h1 hsure]
  congr 1
  ext x
  apply exists_congr
  intro k
  apply and_congr_right
  intro hk
  rw [Finset.mem_Icc] at hk
  exact h.dropsFirstAt_iff hk.1 (by omega)

theorem thresholds_mem (s : REDQueue) (hp0 : 0 < p) (hp1 : p < 1) (n : ℕ) :
    0 ≤ s.thresholds (fun _ => p) n ∧ s.thresholds (fun _ => p) n ≤ 1 := by
  obtain ⟨h0, h1⟩ := spacedProb_mem s.edp.wait hp0 hp1 n
  rw [thresholds]
  exact ⟨by exact_mod_cast h0, by exact_mod_cast h1⟩

/-- From arrival `a` on the probabilities are `p / (c - k * p)`, and before it none:
then the drop is equally likely at every arrival from `a` on. -/
theorem Spaced.law_of (h : Spaced lm rounds s p N) (hp0 : 0 < p) (hp1 : p < 1) {c : ℚ} {a n : ℕ}
    (h1 : 1 ≤ a) (han : a ≤ n) (hn : n ≤ N)
    (hzero : ∀ k ∈ Finset.Ico 1 a, spacedProb s.edp.wait p k = 0)
    (hval : ∀ k ∈ Finset.Icc a n, spacedProb s.edp.wait p k = p / (c - k * p))
    (hpos : ∀ k ∈ Finset.Icc a n, 0 < c - k * p) :
    draws.real {x | DropsFirstAt lm rounds s x n} = ((p / (c - a * p) : ℚ) : ℝ) := by
  have hpos' : ∀ k ∈ Finset.Icc a n, (0 : ℝ) < c - k * p := by
    intro k hk
    exact_mod_cast hpos k hk
  have hval' : ∀ k ∈ Finset.Icc a n, s.thresholds (fun _ => p) k = p / (c - k * p) := by
    intro k hk
    rw [thresholds, hval k hk]
    push_cast
    rfl
  have hends : a ∈ Finset.Icc a n ∧ n ∈ Finset.Icc a n := by simp [han]
  rw [h.real_dropsFirstAt (h1.trans han) hn,
    draws_firstHit_telescope (s.thresholds_mem hp0 hp1) (f := fun k => c - k * (p : ℝ)) h1 han]
  · -- the survival up to `n` cancels the denominator of the last factor
    have hnea := (hpos' a hends.1).ne'
    have hnen := (hpos' n hends.2).ne'
    rw [hval' n hends.2]
    push_cast
    rw [div_mul_div_comm, mul_comm, mul_div_mul_right _ _ hnen]
  · intro k hk
    rw [thresholds, hzero k hk, Rat.cast_zero]
  · intro k hk
    exact (hpos' k hk).ne'
  · intro k hk
    have hk' : k ∈ Finset.Icc a n := Finset.Ico_subset_Icc_self hk
    have hne := (hpos' k hk').ne'
    rw [hval' k hk', eq_div_iff hne, sub_mul, one_mul, div_mul_cancel₀ _ hne]
    push_cast
    ring

/-- The `n`-th arrival without `wait_`. -/
theorem Spaced.law (h : Spaced lm rounds s p N) (hp0 : 0 < p) (hp1 : p < 1)
    (hwait : s.edp.wait = false) {n : ℕ} (h1 : 1 ≤ n) (hn : n ≤ N) (hle : (n + 1) * p ≤ 1) :
    draws.real {x | DropsFirstAt lm rounds s x n} = ((p / (1 - p) : ℚ) : ℝ) := by
  have hle' : ∀ k ∈ Finset.Icc 1 n, ((k : ℚ) + 1) * p ≤ 1 := by
    intro k hk
    have hkn : (k : ℚ) ≤ n := by exact_mod_cast (Finset.mem_Icc.1 hk).2
    nlinarith
  have hlaw := h.law_of hp0 hp1 (c := 1) le_rfl h1 hn (by simp)
    (fun k hk => by rw [hwait, spacedProb_of_le hp0 (hle' k hk)])
    (fun k hk => by linarith [hle' k hk])
  rwa [Nat.cast_one, one_mul] at hlaw

/-- The `n`-th arrival with `wait_`, when `m` is the first at which the wait is over. -/
theorem Spaced.law_wait (h : Spaced lm rounds s p N) (hp0 : 0 < p) (hp1 : p < 1)
    (hwait : s.edp.wait = true) {m n : ℕ} (hm : 1 ≤ m * p) (hfirst : ∀ k : ℕ, k < m → k * p < 1)
    (hmn : m ≤ n) (hn : n ≤ N) (hle : (n + 1) * p ≤ 2) :
    draws.real {x | DropsFirstAt lm rounds s x n} = ((p / (2 - m * p) : ℚ) : ℝ) := by
  have hm1 : 1 ≤ m := by
    rcases Nat.eq_zero_or_pos m with rfl | hpos
    · norm_num at hm
    · exact hpos
  have hge : ∀ k ∈ Finset.Icc m n, 1 ≤ (k : ℚ) * p := by
    intro k hk
    have hmk : (m : ℚ) ≤ k := by exact_mod_cast (Finset.mem_Icc.1 hk).1
    nlinarith
  have hle' : ∀ k ∈ Finset.Icc m n, ((k : ℚ) + 1) * p ≤ 2 := by
    intro k hk
    have hkn : (k : ℚ) ≤ n := by exact_mod_cast (Finset.mem_Icc.1 hk).2
    nlinarith
  refine h.law_of hp0 hp1 hm1 hmn hn ?_ ?_ ?_
  · intro k hk
    rw [hwait]
    exact spacedProb_wait_of_lt (hfirst k (Finset.mem_Ico.1 hk).2)
  · intro k hk
    rw [hwait]
    exact spacedProb_wait_of_le hp0 (hge k hk) (hle' k hk)
  · intro k hk
    linarith [hle' k hk]

/-- While the wait lasts no arrival is dropped. -/
theorem Spaced.law_waiting (h : Spaced lm rounds s p N) (hp0 : 0 < p) (hp1 : p < 1)
    (hwait : s.edp.wait = true) {n : ℕ} (h1 : 1 ≤ n) (hn : n ≤ N) (hlt : n * p < 1) :
    draws.real {x | DropsFirstAt lm rounds s x n} = 0 := by
  rw [h.real_dropsFirstAt h1 hn, draws_firstHit (s.thresholds_mem hp0 hp1) h1]
  rw [show s.thresholds (fun _ => p) n = 0 by
    rw [thresholds, hwait, spacedProb_wait_of_lt hlt, Rat.cast_zero]]
  rw [mul_zero]

end Law

end REDQueue

open REDQueue

/-- Independent uniform draws at the arrivals after a drop, base probability `p`.
Without `wait_` the next drop hits each arrival `n` with `(n + 1) * p <= 1` with
probability `p / (1 - p)` and comes by the first with `(n + 1) * p >= 1`. With
`wait_` it hits no arrival with `n * p < 1`, every later one with
`(n + 1) * p <= 2` with one probability, and comes by the first with
`(n + 1) * p >= 2`. -/
theorem early_drops_spaced (lm : Libm) (rounds : ℕ → Round) (s : REDQueue) (p : ℚ) (N : ℕ)
    (h : Spaced lm rounds s p N) (hp0 : 0 < p) (hp1 : p < 1) :
    (s.edp.wait = false →
      (∀ n : ℕ, 1 ≤ n → n ≤ N → (n + 1) * p ≤ 1 →
        draws.real {x | DropsFirstAt lm rounds s x n} = ((p / (1 - p) : ℚ) : ℝ)) ∧
      (∀ n : ℕ, 1 ≤ n → n ≤ N → 1 ≤ (n + 1) * p →
        draws.real {x | ∃ k ∈ Finset.Icc 1 n, DropsFirstAt lm rounds s x k} = 1)) ∧
    (s.edp.wait = true →
      (∀ n : ℕ, 1 ≤ n → n ≤ N → n * p < 1 →
        draws.real {x | DropsFirstAt lm rounds s x n} = 0) ∧
      (∃ common : ℝ, ∀ n : ℕ, n ≤ N → 1 ≤ n * p → (n + 1) * p ≤ 2 →
        draws.real {x | DropsFirstAt lm rounds s x n} = common) ∧
      (∀ n : ℕ, n ≤ N → 2 ≤ (n + 1) * p →
        draws.real {x | ∃ k ∈ Finset.Icc 1 n, DropsFirstAt lm rounds s x k} = 1)) := by
  refine ⟨fun hwait => ⟨?_, ?_⟩, fun hwait => ⟨?_, ?_, ?_⟩⟩
  · intro n h1 hn hle
    exact h.law hp0 hp1 hwait h1 hn hle
  · intro n h1 hn hge
    apply h.certain h1 hn
    rw [thresholds, hwait, spacedProb_of_ge hge, Rat.cast_one]
  · intro n h1 hn hlt
    exact h.law_waiting hp0 hp1 hwait h1 hn hlt
  · -- the wait is over at some arrival, and there is a first such
    have hover : ∃ m : ℕ, 1 ≤ (m : ℚ) * p := by
      obtain ⟨m, hm⟩ := exists_nat_gt (1 / p)
      rw [div_lt_iff₀ hp0] at hm
      exact ⟨m, hm.le⟩
    classical
    refine ⟨((p / (2 - (Nat.find hover : ℕ) * p) : ℚ) : ℝ), ?_⟩
    intro n hn hge hle
    apply h.law_wait hp0 hp1 hwait (Nat.find_spec hover) ?_ (Nat.find_min' hover hge) hn hle
    intro k hk
    exact not_le.1 (Nat.find_min hover hk)
  · intro n hn hge
    have h1 : 1 ≤ n := by
      rcases Nat.eq_zero_or_pos n with rfl | hpos
      · norm_num at hge
        linarith
      · exact hpos
    apply h.certain h1 hn
    rw [thresholds, hwait, spacedProb_wait_of_ge hp1 hge, Rat.cast_one]

/-- An average that follows the queue at once, thresholds 1 and 4, `max_p` 1, and two
queued packets: the base probability is 1/3. -/
def twoWaiting : REDQueue where
  edp := { meanPktsize := 1000, thMin := 1, thMax := 4, qW := 1 }
  edv := { vA := 1 / 3, vB := -1 / 3, old := true, curMaxP := 1 }
  q := ⟨[{ uid := 10, size := 1000 }, { uid := 11, size := 1000 }]⟩
  idle := false

/-- A departure before each arrival but the first. -/
def steadyRounds (n : ℕ) : Round :=
  { departures := if n = 1 then [] else [0], pkt := { uid := n, size := 1000 }, now := 0 }

instance (p : ℚ) (a : REDQueue) : Decidable (AtBase p a) :=
  decidable_of_iff (a.reachesDropEarly ∧ a.earlyProb1 = some p ∧ a.qlen < a.hardLimit)
    ⟨fun h => ⟨h.1, h.2.1, h.2.2⟩, fun h => ⟨h.1, h.2, h.3⟩⟩

theorem spaced_twoWaiting : Spaced zeroLibm steadyRounds twoWaiting (1 / 3) 2 := by
  refine ⟨rfl, rfl, by decide, fun h => absurd h (by decide), ?_⟩
  have hfirst : AtBase (1 / 3) (twoWaiting.arrive (steadyRounds 1).pkt (steadyRounds 1).now) := by
    decide +kernel
  intro x k t hk hu
  cases hu with
  | start => exact hfirst
  | @kept k t t' hu ha =>
      obtain rfl : k = 0 := by omega
      cases hu
      -- the first arrival was kept, whatever its draw
      obtain ⟨u, hrun, -⟩ := ha
      have hkept :
          ¬u ≤ spacedProb twoWaiting.edp.wait (1 / 3) ((twoWaiting.edv.count : ℚ) + 1) := by
        intro hle
        obtain ⟨s', out, hdrop, -⟩ := enque_dropped zeroLibm (d := ⟨0, u, 0⟩) rfl (by decide)
          (fun h => absurd h (by decide)) hfirst hle
        have hnone := hrun.symm.trans hdrop
        simp at hnone
      have hstate := hrun.symm.trans
        (enque_kept zeroLibm (d := ⟨0, u, 0⟩) rfl (by decide) hfirst hkept)
      simp only [Except.ok.injEq, Prod.mk.injEq, and_true] at hstate
      subst hstate
      decide +kernel

/-- The first drop hits the second arrival with probability one half. -/
theorem early_drops_spaced_third :
    draws.real {x | DropsFirstAt zeroLibm steadyRounds twoWaiting x 2} = 1 / 2 := by
  have hlaw := ((early_drops_spaced zeroLibm steadyRounds twoWaiting (1 / 3) 2 spaced_twoWaiting
    (by norm_num) (by norm_num)).1 rfl).1 2 (by norm_num) le_rfl (by norm_num)
  rw [hlaw]
  norm_num

end ComputerNetworking.Queue
