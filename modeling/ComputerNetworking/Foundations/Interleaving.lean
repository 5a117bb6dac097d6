import Mathlib.Tactic
import Mathlib.Algebra.BigOperators.Group.List.Lemmas

/-!
# Quantities of interleaved sequences

A list of records that belong to keys is an interleaving of one list for each key.
A quantity of such lists is `PerKey` when a record adds to it what depends on the
earlier records of its own key alone. Then the quantity of the whole list is the sum
of the quantities of the lists of the keys, however they are interleaved
(`PerKey.sum_keys`).
-/

set_option autoImplicit false

namespace ComputerNetworking.Foundations

universe u v w

variable {α : Type u} {κ : Type v} {M : Type w} [AddCommMonoid M]

/-- Only the list of one key grows. -/
theorem sum_map_update {keys : List κ} (hnd : keys.Nodup) {k : κ} (hk : k ∈ keys) {f g : κ → M}
    {m : M} (hother : ∀ j, j ≠ k → g j = f j) (hself : g k = f k + m) :
    (keys.map g).sum = (keys.map f).sum + m := by
  induction keys with
  | nil => cases hk
  | cons j keys ih =>
      obtain ⟨hj, hnd'⟩ := List.nodup_cons.mp hnd
      rw [List.map_cons, List.map_cons, List.sum_cons, List.sum_cons]
      rcases List.mem_cons.mp hk with rfl | hk
      · have hrest : keys.map g = keys.map f := by
          apply List.map_congr_left
          intro i hi
          apply hother
          rintro rfl
          exact hj hi
        rw [hself, hrest, add_right_comm]
      · have hne : j ≠ k := by
          rintro rfl
          exact hj hk
        rw [hother j hne, ih hnd' hk, add_assoc]

variable [DecidableEq κ]

/-- The records of one key. -/
def ofKey (key : α → κ) (k : κ) (l : List α) : List α := l.filter fun a => key a = k

section OfKey

variable {key : α → κ} {k : κ} {l : List α} {a : α}

theorem mem_ofKey : a ∈ ofKey key k l ↔ a ∈ l ∧ key a = k := by
  simp [ofKey]

theorem ofKey_concat (key : α → κ) (k : κ) (l : List α) (a : α) :
    ofKey key k (l ++ [a]) = ofKey key k l ++ if key a = k then [a] else [] := by
  rw [ofKey, List.filter_append]
  by_cases h : key a = k <;> simp [ofKey, h]

theorem ofKey_ofKey (key : α → κ) (k : κ) (l : List α) :
    ofKey key k (ofKey key k l) = ofKey key k l := by
  simp [ofKey]

theorem ofKey_mono {l' : List α} (h : l' <+: l) : ofKey key k l' <+: ofKey key k l :=
  h.filter _

end OfKey

/-- What a record adds to `F` depends on the records of its key before it. -/
structure PerKey (key : α → κ) (F : List α → M) (gain : List α → α → M) : Prop where
  nil : F [] = 0
  concat : ∀ l a, F (l ++ [a]) = F l + gain (ofKey key (key a) l) a

variable {key : α → κ} {F : List α → M} {gain : List α → α → M}

/-- The quantity is the sum over the keys. -/
theorem PerKey.sum_keys (h : PerKey key F gain) {keys : List κ} (hnd : keys.Nodup) {l : List α}
    (hkeys : ∀ a ∈ l, key a ∈ keys) : F l = (keys.map fun k => F (ofKey key k l)).sum := by
  induction l using List.reverseRecOn with
  | nil =>
      have hnil : ∀ k, ofKey key k [] = [] := fun k => rfl
      simp [hnil, h.nil]
  | append_singleton l a ih =>
      have hold := ih fun b hb => hkeys b (List.mem_append_left _ hb)
      have ha : key a ∈ keys := hkeys a (List.mem_append_right _ List.mem_cons_self)
      rw [h.concat, hold]
      refine (sum_map_update hnd ha ?_ ?_).symm
      · intro j hj
        rw [ofKey_concat, if_neg (Ne.symm hj), List.append_nil]
      · rw [ofKey_concat, if_pos rfl, h.concat, ofKey_ofKey]

end ComputerNetworking.Foundations
