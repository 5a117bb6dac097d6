import Mathlib.Tactic
import Mathlib.Data.List.Sort
import Mathlib.Data.List.DropRight

/-!
# Finite sets listed in order

A list `Lists` a finite set of a linear order when it holds the members in
strictly increasing order; there is one such list for each set. The rules below
say what cutting, splicing, erasing and filtering do to the set that is listed,
where a walk over a sorted list stops, and how the number of values a function
takes on a set changes with one member.
-/

set_option autoImplicit false

namespace ComputerNetworking.Foundations

universe u v

variable {α : Type u} [LinearOrder α]

/-- `l` holds the members of `S` in increasing order, each once. -/
structure Lists (l : List α) (S : Finset α) : Prop where
  sorted : l.Pairwise (· < ·)
  mem_iff : ∀ x, x ∈ l ↔ x ∈ S

/-- The least member. -/
def first (S : Finset α) : Option α :=
  if h : S.Nonempty then some (S.min' h) else none

theorem first_empty : first (∅ : Finset α) = none := by
  rw [first, dif_neg Finset.not_nonempty_empty]

theorem first_eq_some {S : Finset α} {e : α} (he : e ∈ S) (hle : ∀ x ∈ S, e ≤ x) :
    first S = some e := by
  rw [first, dif_pos ⟨e, he⟩, Option.some.injEq]
  apply le_antisymm
  · exact S.min'_le e he
  · exact hle _ (S.min'_mem ⟨e, he⟩)

theorem first_eq_none_iff {S : Finset α} : first S = none ↔ S = ∅ := by
  rw [first]
  split
  · rename_i h
    simp [h.ne_empty]
  · rename_i h
    simpa using h

theorem mem_of_first_eq_some {S : Finset α} {e : α} (h : first S = some e) : e ∈ S := by
  rw [first] at h
  split at h
  · rename_i hS
    rw [← Option.some.inj h]
    exact S.min'_mem hS
  · cases h

theorem le_of_first_eq_some {S : Finset α} {e x : α} (h : first S = some e) (hx : x ∈ S) :
    e ≤ x := by
  rw [first] at h
  split at h
  · rw [← Option.some.inj h]
    exact S.min'_le x hx
  · cases h

namespace Lists

variable {l p s : List α} {S : Finset α} {e : α}

theorem nil : Lists ([] : List α) ∅ :=
  ⟨List.Pairwise.nil, fun x => by simp⟩

theorem singleton (e : α) : Lists [e] {e} :=
  ⟨List.pairwise_singleton _ e, fun x => by simp⟩

/-- A set has one listing. -/
theorem unique {l' : List α} (h : Lists l S) (h' : Lists l' S) : l = l' :=
  h.sorted.eq_of_mem_iff h'.sorted fun x => (h.mem_iff x).trans (h'.mem_iff x).symm

theorem toFinset_eq (h : Lists l S) : l.toFinset = S := by
  ext x
  rw [List.mem_toFinset, h.mem_iff]

theorem length_eq (h : Lists l S) : l.length = S.card := by
  rw [← h.toFinset_eq, List.toFinset_card_of_nodup h.sorted.nodup]

theorem perm_toList (h : Lists l S) : l.Perm S.toList := by
  apply (List.perm_ext_iff_of_nodup h.sorted.nodup S.nodup_toList).mpr
  intro x
  rw [h.mem_iff, Finset.mem_toList]

theorem eq_empty (h : Lists [] S) : S = ∅ := by
  rw [← h.toFinset_eq, List.toFinset_nil]

/-- The first listed is the least. -/
theorem head_le (h : Lists (e :: s) S) {x : α} (hx : x ∈ S) : e ≤ x := by
  rcases List.mem_cons.mp ((h.mem_iff x).mpr hx) with rfl | hs
  · exact le_refl x
  · exact (List.rel_of_pairwise_cons h.sorted hs).le

theorem first_eq (h : Lists l S) : first S = l.head? := by
  cases l with
  | nil => rw [h.eq_empty, first_empty, List.head?_nil]
  | cons e s =>
      rw [List.head?_cons]
      exact first_eq_some ((h.mem_iff e).mp List.mem_cons_self) fun x => h.head_le

/-- A new member between the two parts of a listing. -/
theorem splice (h : Lists (p ++ s) S) (hp : ∀ a ∈ p, a < e) (hs : ∀ b ∈ s, e < b) :
    Lists (p ++ e :: s) (insert e S) := by
  constructor
  · obtain ⟨h₁, h₂, h₁₂⟩ := List.pairwise_append.mp h.sorted
    apply List.pairwise_append.mpr
    refine ⟨h₁, List.pairwise_cons.mpr ⟨hs, h₂⟩, ?_⟩
    intro a ha b hb
    rcases List.mem_cons.mp hb with rfl | hb
    · exact hp a ha
    · exact h₁₂ a ha b hb
  · intro x
    have hx := h.mem_iff x
    rw [List.mem_append] at hx
    rw [List.mem_append, List.mem_cons, Finset.mem_insert, ← hx]
    tauto

theorem erase (h : Lists l S) (e : α) : Lists (l.erase e) (S.erase e) := by
  constructor
  · exact h.sorted.sublist List.erase_sublist
  · intro x
    rw [h.sorted.nodup.mem_erase_iff, Finset.mem_erase, h.mem_iff]

theorem filter (h : Lists l S) (q : α → Prop) [DecidablePred q] :
    Lists (l.filter q) (S.filter q) := by
  constructor
  · exact h.sorted.filter _
  · intro x
    rw [List.mem_filter, Finset.mem_filter, h.mem_iff, decide_eq_true_iff]

/-- What stands before and behind a member. -/
theorem around (h : Lists (p ++ e :: s) S) : (∀ a ∈ p, a < e) ∧ ∀ b ∈ s, e < b := by
  obtain ⟨-, h₂, h₁₂⟩ := List.pairwise_append.mp h.sorted
  exact ⟨fun a ha => h₁₂ a ha e List.mem_cons_self, fun b hb => List.rel_of_pairwise_cons h₂ hb⟩

end Lists

section Walks

omit [LinearOrder α] in
/-- A walk over a list sorted by `r` that goes on while `q` holds, where `q`
holds before every place it holds at, stops before the first place it fails at. -/
theorem not_of_mem_dropWhile {r : α → α → Prop} {q : α → Bool}
    (hq : ∀ a b, r a b → q b = true → q a = true) {l : List α} (hl : l.Pairwise r) {x : α}
    (hx : x ∈ l.dropWhile q) : q x = false := by
  induction l with
  | nil => cases hx
  | cons a l ih =>
      obtain ⟨ha, hl⟩ := List.pairwise_cons.mp hl
      cases hqa : q a with
      | true =>
          rw [List.dropWhile_cons_of_pos hqa] at hx
          exact ih hl hx
      | false =>
          rw [List.dropWhile_cons_of_neg (by simp [hqa])] at hx
          rcases List.mem_cons.mp hx with rfl | hx
          · exact hqa
          · -- were `q` to hold at `x`, it would hold at `a`
            cases hqx : q x with
            | false => rfl
            | true => exact absurd (hq a x (ha x hx) hqx) (by simp [hqa])

/-- The same for a walk from the last place backwards. -/
theorem not_of_mem_rdropWhile {q : α → Bool} (hq : ∀ a b, a < b → q a = true → q b = true)
    {l : List α} (hl : l.Pairwise (· < ·)) {x : α} (hx : x ∈ l.rdropWhile q) : q x = false := by
  rw [List.rdropWhile, List.mem_reverse] at hx
  have hrev : l.reverse.Pairwise (fun a b => b < a) := List.pairwise_reverse.mpr hl
  exact not_of_mem_dropWhile (fun a b hab => hq b a hab) hrev hx

omit [LinearOrder α] in
theorem rdropWhile_append_rtakeWhile (q : α → Bool) (l : List α) :
    l.rdropWhile q ++ l.rtakeWhile q = l := by
  rw [List.rdropWhile, List.rtakeWhile, ← List.reverse_append, List.takeWhile_append_dropWhile,
    List.reverse_reverse]

end Walks

section Values

variable {β : Type v} [DecidableEq β]

/-- How many values `f` takes on `S`. -/
def values (f : α → β) (S : Finset α) : Nat := (S.image f).card

omit [LinearOrder α] in
theorem values_empty (f : α → β) : values f ∅ = 0 := by
  rw [values, Finset.image_empty, Finset.card_empty]

omit [LinearOrder α] in
theorem values_eq_zero_iff {f : α → β} {S : Finset α} : values f S = 0 ↔ S = ∅ := by
  rw [values, Finset.card_eq_zero, Finset.image_eq_empty]

theorem values_insert_of_mem {f : α → β} {S : Finset α} {e : α}
    (h : ∃ x ∈ S, f x = f e) : values f (insert e S) = values f S := by
  obtain ⟨x, hx, hfx⟩ := h
  rw [values, values, Finset.image_insert, Finset.insert_eq_of_mem]
  exact Finset.mem_image.mpr ⟨x, hx, hfx⟩

theorem values_insert_of_not_mem {f : α → β} {S : Finset α} {e : α}
    (h : ¬∃ x ∈ S, f x = f e) : values f (insert e S) = values f S + 1 := by
  rw [values, values, Finset.image_insert, Finset.card_insert_of_notMem]
  intro hmem
  obtain ⟨x, hx, hfx⟩ := Finset.mem_image.mp hmem
  exact h ⟨x, hx, hfx⟩

/-- A member that shares its value leaves the number of values as it is. -/
theorem values_erase_of_mem {f : α → β} {S : Finset α} {e : α} (he : e ∈ S)
    (h : ∃ x ∈ S.erase e, f x = f e) : values f (S.erase e) = values f S := by
  have hins := values_insert_of_mem h
  rwa [Finset.insert_erase he, eq_comm] at hins

theorem values_erase_of_not_mem {f : α → β} {S : Finset α} {e : α} (he : e ∈ S)
    (h : ¬∃ x ∈ S.erase e, f x = f e) : values f (S.erase e) + 1 = values f S := by
  have hins := values_insert_of_not_mem h
  rwa [Finset.insert_erase he, eq_comm] at hins

omit [LinearOrder α] in
/-- Members that share one value take no second. -/
theorem values_le_one {f : α → β} {S : Finset α} {b : β} (h : ∀ x ∈ S, f x = b) :
    values f S ≤ 1 := by
  apply Finset.card_le_one.mpr
  intro c hc d hd
  obtain ⟨x, hx, rfl⟩ := Finset.mem_image.mp hc
  obtain ⟨y, hy, rfl⟩ := Finset.mem_image.mp hd
  rw [h x hx, h y hy]

end Values

end ComputerNetworking.Foundations
