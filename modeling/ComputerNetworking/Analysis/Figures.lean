import Mathlib.Tactic

/-!
# Figures of a trace

What the analysis programs share: divisions that end a program when the divisor
is zero, and times in the order in which a simulation writes them.
-/

set_option autoImplicit false

namespace ComputerNetworking.Analysis

/-- A division that ends the program if the divisor is zero. -/
def divide (a b : ℚ) : Option ℚ := if b = 0 then none else some (a / b)

theorem divide_isSome {a b : ℚ} : (divide a b).isSome ↔ b ≠ 0 := by
  rw [divide]
  by_cases h : b = 0
  · simp [h]
  · simp [h]

/-- A program goes on after a division that does not end it. -/
theorem bind_isSome {α β : Type} {x : Option α} {f : α → Option β} {P : Prop}
    (h : ∀ a, (f a).isSome ↔ P) : (x >>= f).isSome ↔ x.isSome ∧ P := by
  cases x with
  | none => simp
  | some a => simpa using h a

theorem divide_eq_iff {a b c : ℚ} :
    divide a b = divide a c ↔ b = c ∨ a = 0 ∧ b ≠ 0 ∧ c ≠ 0 := by
  rw [divide, divide]
  by_cases hb : b = 0
  · by_cases hc : c = 0
    · simp [hb, hc]
    · simp [hb, hc, Ne.symm hc]
  · by_cases hc : c = 0
    · simp [hb, hc]
    · rw [if_neg hb, if_neg hc, Option.some.injEq, div_eq_div_iff hb hc, mul_eq_mul_left_iff]
      constructor
      · rintro (heq | hzero)
        · exact Or.inl heq.symm
        · exact Or.inr ⟨hzero, hb, hc⟩
      · rintro (heq | ⟨hzero, -, -⟩)
        · exact Or.inl heq.symm
        · exact Or.inr hzero

/-- The times of a trace: from 0 on, each at least the one before. -/
structure InOrder (times : List ℚ) : Prop where
  nonneg : ∀ t ∈ times, 0 ≤ t
  sorted : times.Pairwise (· ≤ ·)

/-- The test by which a program keeps the earlier of two times. -/
theorem earlier_eq_min (s t : ℚ) : (if s > t then t else s) = min s t :=
  ((min_comm s t).trans (min_def_lt t s)).symm

theorem inOrder_nil : InOrder [] := ⟨by simp, List.Pairwise.nil⟩

theorem inOrder_concat_iff {times : List ℚ} {t : ℚ} :
    InOrder (times ++ [t]) ↔ InOrder times ∧ 0 ≤ t ∧ ∀ t' ∈ times, t' ≤ t := by
  constructor
  · rintro ⟨hnn, hs⟩
    obtain ⟨hsorted, -, hle⟩ := List.pairwise_append.mp hs
    refine ⟨⟨fun t' ht' => hnn t' (List.mem_append_left _ ht'), hsorted⟩,
      hnn t (List.mem_append_right _ List.mem_cons_self), fun t' ht' => ?_⟩
    exact hle t' ht' t List.mem_cons_self
  · rintro ⟨⟨hnn, hs⟩, h0, hle⟩
    refine ⟨fun t' ht' => ?_, List.pairwise_append.mpr ⟨hs, List.pairwise_singleton _ _, ?_⟩⟩
    · rcases List.mem_append.mp ht' with hold | hnew
      · exact hnn t' hold
      · rw [List.mem_singleton.mp hnew]
        exact h0
    · intro t' ht' t'' ht''
      rw [List.mem_singleton.mp ht'']
      exact hle t' ht'

/-- The earliest of the times that a program reads, whose start time is set to
1000000 at first. -/
def startOf (times : List ℚ) : ℚ := min 1000000 (times.head?.getD 1000000)

/-- The last of the times that a program reads. -/
def endOf (times : List ℚ) : ℚ := times.getLast?.getD 0

theorem startOf_concat {times : List ℚ} {t : ℚ} (h : InOrder (times ++ [t])) :
    startOf (times ++ [t]) = min (startOf times) t := by
  obtain ⟨-, -, hle⟩ := inOrder_concat_iff.mp h
  rw [startOf, startOf, List.head?_append]
  cases hhead : times.head? with
  | none =>
      show min 1000000 t = min (min 1000000 1000000) t
      rw [min_self]
  | some t' =>
      -- the first time is the earliest
      show min 1000000 t' = min (min 1000000 t') t
      exact (min_eq_left ((min_le_right _ _).trans (hle t' (List.mem_of_head? hhead)))).symm

theorem endOf_concat (times : List ℚ) (t : ℚ) : endOf (times ++ [t]) = t := by
  rw [endOf, List.getLast?_concat]
  rfl

end ComputerNetworking.Analysis
