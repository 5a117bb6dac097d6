import Mathlib.Tactic

/-!
# A window kept in a ring

A ring has as many slots as a power of two, and a number is cut by a mask to find
its slot. A ring that is long enough for a window of consecutive numbers keeps a
value for each of them: writing inside the window changes one value
(`Window.set`), writing just behind it makes it longer (`Window.write`), and the
window can be copied to a ring of another length (`Window.copy`).
-/

set_option autoImplicit false

namespace ComputerNetworking.Foundations

universe u

/-- Slots that are found by cutting numbers by a mask. -/
structure SlotRing (β : Type u) where
  mask : ℕ
  slots : ℕ → β

namespace SlotRing

variable {β : Type u} {r : SlotRing β} {lo hi n i j : ℕ} {f g : ℕ → β} {b : β}

/-- A ring with the same value in all slots. -/
def blank (mask : ℕ) (b : β) : SlotRing β := ⟨mask, fun _ => b⟩

/-- The slot of a number. -/
def slot (r : SlotRing β) (i : ℕ) : ℕ := i &&& r.mask

/-- The value in the slot of `i`. -/
def get (r : SlotRing β) (i : ℕ) : β := r.slots (r.slot i)

/-- Write the slot of `i`. -/
def set (r : SlotRing β) (i : ℕ) (b : β) : SlotRing β :=
  { r with slots := Function.update r.slots (r.slot i) b }

/-- Write the slots of the `n` numbers from `start` on, one after the other. -/
def write (r : SlotRing β) (g : ℕ → β) (start n : ℕ) : SlotRing β :=
  (List.range' start n).foldl (fun r i => r.set i (g i)) r

/-- The number of slots is a power of two. -/
def Sized (r : SlotRing β) : Prop := ∃ k, r.mask = 2 ^ k - 1

/-- The slots of the numbers from `lo` up to `hi` hold the values of `f`. -/
def Window (r : SlotRing β) (lo hi : ℕ) (f : ℕ → β) : Prop :=
  ∀ i, lo ≤ i → i < hi → r.get i = f i

@[simp] theorem set_mask : (r.set i b).mask = r.mask := rfl

@[simp] theorem blank_mask (m : ℕ) : (blank m b).mask = m := rfl

@[simp] theorem write_mask (start : ℕ) : (r.write g start n).mask = r.mask := by
  induction n generalizing r start with
  | zero => rfl
  | succ n ih =>
      rw [write, List.range'_succ, List.foldl_cons]
      exact ih (start + 1)

theorem get_set_self : (r.set i b).get i = b := by
  rw [get, set]
  exact Function.update_self (r.slot i) b r.slots

theorem get_set_of_ne (h : r.slot j ≠ r.slot i) : (r.set i b).get j = r.get j := by
  rw [get, set]
  exact Function.update_of_ne h b r.slots

theorem Sized.slot_eq (h : r.Sized) (i : ℕ) : r.slot i = i % (r.mask + 1) := by
  obtain ⟨k, hk⟩ := h
  have hpos : 0 < 2 ^ k := Nat.two_pow_pos k
  rw [slot, hk, Nat.and_two_pow_sub_one_eq_mod, Nat.sub_add_cancel hpos]

/-- Two numbers at a distance less than the number of slots have their own slots. -/
theorem Sized.slot_ne (h : r.Sized) (hij : i < j) (hlen : j ≤ i + r.mask) :
    r.slot i ≠ r.slot j := by
  rw [h.slot_eq, h.slot_eq]
  intro heq
  have hdvd : r.mask + 1 ∣ j - i := (Nat.modEq_iff_dvd' hij.le).mp heq
  have hle := Nat.le_of_dvd (Nat.sub_pos_of_lt hij) hdvd
  omega

theorem Sized.slot_ne_of_ne (h : r.Sized) (hij : i ≠ j) (hlo : j ≤ i + r.mask)
    (hhi : i ≤ j + r.mask) : r.slot i ≠ r.slot j := by
  rcases Nat.lt_or_gt_of_ne hij with hlt | hgt
  · exact h.slot_ne hlt hlo
  · exact (h.slot_ne hgt hhi).symm

theorem Window.mono {lo' hi' : ℕ} (h : r.Window lo hi f) (hlo : lo ≤ lo') (hhi : hi' ≤ hi) :
    r.Window lo' hi' f := by
  intro i hi₁ hi₂
  exact h i (hlo.trans hi₁) (hi₂.trans_le hhi)

theorem Window.congr (h : r.Window lo hi f) (hfg : ∀ i, lo ≤ i → i < hi → f i = g i) :
    r.Window lo hi g := by
  intro i hi₁ hi₂
  rw [h i hi₁ hi₂]
  exact hfg i hi₁ hi₂

/-- Writing inside the window changes one value of it. -/
theorem Window.set (h : r.Window lo hi f) (hsized : r.Sized) (hlen : hi ≤ lo + r.mask + 1)
    (hlo : lo ≤ j) (hhi : j < hi) : (r.set j b).Window lo hi (Function.update f j b) := by
  intro i hi₁ hi₂
  by_cases hij : i = j
  · rw [hij, get_set_self, Function.update_self]
  · rw [get_set_of_ne (hsized.slot_ne_of_ne hij (by omega) (by omega)), Function.update_of_ne hij]
    exact h i hi₁ hi₂

/-- Writing just behind the window makes it longer by one. -/
theorem Window.push (h : r.Window lo hi f) (hsized : r.Sized) (hlen : hi ≤ lo + r.mask) :
    (r.set hi (f hi)).Window lo (hi + 1) f := by
  intro i hi₁ hi₂
  by_cases hij : i = hi
  · rw [hij, get_set_self]
  · rw [get_set_of_ne (hsized.slot_ne_of_ne hij (by omega) (by omega))]
    exact h i hi₁ (by omega)

/-- Writing one number after the other behind the window. -/
theorem Window.write (h : r.Window lo hi f) (hsized : r.Sized) (hlen : hi + n ≤ lo + r.mask + 1)
    (hg : ∀ i, hi ≤ i → i < hi + n → g i = f i) : (r.write g hi n).Window lo (hi + n) f := by
  induction n generalizing r hi with
  | zero => exact h
  | succ n ih =>
      have hpush : (r.set hi (g hi)).Window lo (hi + 1) f := by
        rw [hg hi le_rfl (by omega)]
        exact h.push hsized (by omega)
      rw [SlotRing.write, List.range'_succ, List.foldl_cons]
      have hrest := ih hpush hsized (by rw [set_mask]; omega) fun i hi₁ hi₂ =>
        hg i (by omega) (by omega)
      rw [Nat.add_right_comm] at hrest
      exact hrest

/-- Copying a window to another ring that is long enough for it. -/
theorem Window.copy (h : r.Window lo (lo + n) f) (r' : SlotRing β) (hsized : r'.Sized)
    (hlen : n ≤ r'.mask + 1) : (r'.write r.get lo n).Window lo (lo + n) f := by
  have hempty : r'.Window lo lo f := by
    intro i hi₁ hi₂
    exact absurd hi₁ (Nat.not_le.mpr hi₂)
  exact hempty.write hsized (by omega) h

end SlotRing

end ComputerNetworking.Foundations
