import Mathlib.Probability.ProductMeasure
import Mathlib.MeasureTheory.Measure.Lebesgue.Basic

/-!
# First hits of independent uniform draws

An experiment makes one independent uniform draw from `[0, 1]` for each of the
trials 1, 2, 3, ...; trial `n` is a hit when its draw is at most the threshold
`q n`. The first hit falls on trial `n` with the probability of missing all
earlier trials times that of hitting this one (`draws_firstHit`).
-/

set_option autoImplicit false

namespace ComputerNetworking.Foundations

open MeasureTheory Set

/-- The uniform law on `[0, 1]`. -/
noncomputable def uniform : Measure ℝ := volume.restrict (Icc 0 1)

instance : IsProbabilityMeasure uniform := ⟨by simp [uniform]⟩

/-- Independent uniform draws. -/
noncomputable def draws : Measure (ℕ → ℝ) := Measure.infinitePi fun _ => uniform

instance : IsProbabilityMeasure draws :=
  inferInstanceAs (IsProbabilityMeasure (Measure.infinitePi fun _ : ℕ => uniform))

/-- The draws whose first hit is on trial `n`. -/
def firstHit (q : ℕ → ℝ) (n : ℕ) : Set (ℕ → ℝ) :=
  {x | (∀ k ∈ Finset.Ico 1 n, q k < x k) ∧ x n ≤ q n}

theorem uniform_Iic {a : ℝ} (h1 : a ≤ 1) : uniform (Iic a) = ENNReal.ofReal a := by
  have hset : Iic a ∩ Icc 0 1 = Icc 0 a := by
    ext x
    simp only [mem_inter_iff, mem_Iic, mem_Icc]
    constructor
    · rintro ⟨hx, h, -⟩
      exact ⟨h, hx⟩
    · rintro ⟨h, hx⟩
      exact ⟨hx, h, hx.trans h1⟩
  rw [uniform, Measure.restrict_apply measurableSet_Iic, hset, Real.volume_Icc, sub_zero]

theorem uniform_Ioi {a : ℝ} (h0 : 0 ≤ a) (h1 : a ≤ 1) :
    uniform (Ioi a) = ENNReal.ofReal (1 - a) := by
  rw [← compl_Iic, prob_compl_eq_one_sub measurableSet_Iic, uniform_Iic h1,
    ← ENNReal.ofReal_one, ENNReal.ofReal_sub 1 h0]

section Thresholds

variable {q : ℕ → ℝ} (hq : ∀ k, 0 ≤ q k ∧ q k ≤ 1)

include hq

/-- The law of the first hit. -/
theorem draws_firstHit {n : ℕ} (hn : 1 ≤ n) :
    draws.real (firstHit q n) = (∏ k ∈ Finset.Ico 1 n, (1 - q k)) * q n := by
  have hbox : firstHit q n = Set.pi (Finset.Icc 1 n)
      fun k => if k = n then Iic (q k) else Ioi (q k) := by
    ext x
    simp only [firstHit, mem_ofPred_eq, Finset.mem_Ico, Set.mem_pi, Finset.coe_Icc, mem_Icc]
    constructor
    · rintro ⟨hmiss, hhit⟩ k ⟨h1, hk⟩
      rcases eq_or_lt_of_le hk with rfl | hlt
      · simpa using hhit
      · simpa [hlt.ne] using hmiss k ⟨h1, hlt⟩
    · intro h
      refine ⟨?_, by simpa using h n ⟨hn, le_rfl⟩⟩
      rintro k ⟨h1, hlt⟩
      simpa [hlt.ne] using h k ⟨h1, hlt.le⟩
  have hfactor : ∀ k ∈ Finset.Icc 1 n, uniform (if k = n then Iic (q k) else Ioi (q k)) =
      ENNReal.ofReal (if k = n then q k else 1 - q k) := by
    intro k _
    split
    · exact uniform_Iic (hq k).2
    · exact uniform_Ioi (hq k).1 (hq k).2
  have hmeas : ∀ k ∈ Finset.Icc 1 n, MeasurableSet (if k = n then Iic (q k) else Ioi (q k)) := by
    intro k _
    split
    · exact measurableSet_Iic
    · exact measurableSet_Ioi
  have hpos : ∀ k ∈ Finset.Icc 1 n, 0 ≤ if k = n then q k else 1 - q k := by
    intro k _
    split
    · exact (hq k).1
    · exact sub_nonneg.2 (hq k).2
  rw [measureReal_def, draws, hbox, Measure.infinitePi_pi _ hmeas, Finset.prod_congr rfl hfactor,
    ← ENNReal.ofReal_prod_of_nonneg hpos, ENNReal.toReal_ofReal (Finset.prod_nonneg hpos)]
  -- the last factor is the hit, the others are the misses
  rw [← Finset.Ico_insert_right hn, Finset.prod_insert (by simp), if_pos rfl, mul_comm]
  congr 1
  apply Finset.prod_congr rfl
  intro k hk
  rw [if_neg (Finset.mem_Ico.1 hk).2.ne]

omit hq in
/-- The chance of missing the trials from `a` on telescopes when each factor is a
quotient of neighbours. -/
theorem prod_miss {f : ℕ → ℝ} {a n : ℕ} (ha : a ≤ n) (hf : ∀ k ∈ Finset.Icc a n, f k ≠ 0)
    (hmiss : ∀ k ∈ Finset.Ico a n, 1 - q k = f (k + 1) / f k) :
    ∏ k ∈ Finset.Ico a n, (1 - q k) = f n / f a := by
  induction n, ha using Nat.le_induction with
  | base =>
      rw [Finset.Ico_self, Finset.prod_empty, div_self]
      exact hf a (by simp)
  | succ n hn ih =>
      have hn0 : f n ≠ 0 := hf n (by simp [hn])
      rw [Finset.prod_Ico_succ_top hn, hmiss n (by simp [hn]), ih]
      · rw [div_mul_div_comm, mul_comm (f n), mul_div_mul_right _ _ hn0]
      · intro k hk
        rw [Finset.mem_Icc] at hk
        exact hf k (Finset.mem_Icc.2 ⟨hk.1, by omega⟩)
      · intro k hk
        rw [Finset.mem_Ico] at hk
        exact hmiss k (Finset.mem_Ico.2 ⟨hk.1, by omega⟩)

/-- The law of the first hit when no trial before `a` can hit and the chance of
missing telescopes from there. -/
theorem draws_firstHit_telescope {f : ℕ → ℝ} {a n : ℕ} (h1 : 1 ≤ a) (ha : a ≤ n)
    (hzero : ∀ k ∈ Finset.Ico 1 a, q k = 0) (hf : ∀ k ∈ Finset.Icc a n, f k ≠ 0)
    (hmiss : ∀ k ∈ Finset.Ico a n, 1 - q k = f (k + 1) / f k) :
    draws.real (firstHit q n) = f n / f a * q n := by
  have hbefore : ∏ k ∈ Finset.Ico 1 a, (1 - q k) = 1 := by
    apply Finset.prod_eq_one
    intro k hk
    rw [hzero k hk, sub_zero]
  rw [draws_firstHit hq (h1.trans ha), ← Finset.prod_Ico_consecutive _ h1 ha, hbefore, one_mul,
    prod_miss ha hf hmiss]

omit hq in
/-- A trial whose threshold is 1 is not missed. -/
theorem draws_hit_by {n : ℕ} (hn : 1 ≤ n) (hsure : q n = 1) :
    draws.real {x | ∃ k ∈ Finset.Icc 1 n, x ∈ firstHit q k} = 1 := by
  have hbox : Set.pi ({n} : Finset ℕ) (fun _ => Iic (1 : ℝ)) ⊆
      {x : ℕ → ℝ | ∃ k ∈ Finset.Icc 1 n, x ∈ firstHit q k} := by
    intro x hx
    have hlast : ∃ k, 1 ≤ k ∧ x k ≤ q k := by
      refine ⟨n, hn, ?_⟩
      rw [hsure]
      exact hx n (by simp)
    -- the first trial that is not missed comes no later than `n`
    classical
    obtain ⟨hone, hhit⟩ := Nat.find_spec hlast
    refine ⟨Nat.find hlast, ?_, ?_, hhit⟩
    · rw [Finset.mem_Icc]
      refine ⟨hone, Nat.find_min' hlast ⟨hn, ?_⟩⟩
      rw [hsure]
      exact hx n (by simp)
    · intro k hk
      rw [Finset.mem_Ico] at hk
      have hmiss := Nat.find_min hlast hk.2
      exact not_le.1 fun h => hmiss ⟨hk.1, h⟩
  have hmass : draws (Set.pi ({n} : Finset ℕ) (fun _ => Iic (1 : ℝ))) = 1 := by
    rw [draws, Measure.infinitePi_pi _ fun _ _ => measurableSet_Iic, Finset.prod_singleton,
      uniform_Iic le_rfl, ENNReal.ofReal_one]
  have hfull : draws {x | ∃ k ∈ Finset.Icc 1 n, x ∈ firstHit q k} = 1 := by
    apply le_antisymm prob_le_one
    rw [← hmass]
    exact measure_mono hbox
  rw [measureReal_def, hfull, ENNReal.toReal_one]

end Thresholds

end ComputerNetworking.Foundations
