import Mathlib.Tactic
import Mathlib.Data.Prod.Lex
import Mathlib.Logic.Relation

/-!
# Routes towards one destination

Every node may have a next hop towards the destination, and a rank that says how
good its route is, the smaller the better. Nodes advertise ranks to each other.
A state is `Sound` when every next hop other than the destination has a better
rank than the node, and no node has fallen behind a rank it has advertised. It
stays sound when ranks never get worse and a new next hop is one that has
advertised a better rank (`Sound.advance`), and in a sound state no walk along
next hops returns to where it started (`Sound.no_return`). `fresh` is the rank of
protocols with sequence numbers: the newer number wins, then the shorter distance.
-/

set_option autoImplicit false

namespace ComputerNetworking.Foundations

universe u v

/-- What the nodes know about one destination, and have said about it. -/
structure Routing (N : Type u) (R : Type v) where
  rank : N → R
  next : N → N → Prop
  advert : N → R → Prop

namespace Routing

variable {N : Type u} {R : Type v} [Preorder R] {dst : N} {s s' : Routing N R}

/-- The invariant of routing towards `dst`. -/
structure Sound (dst : N) (s : Routing N R) : Prop where
  next_better : ∀ y x, y ≠ dst → s.next y x → x = dst ∨ s.rank x < s.rank y
  advert_kept : ∀ x r, s.advert x r → x = dst ∨ s.rank x ≤ r

/-- What a step may do: improve ranks, keep a next hop with its rank or take one
from an advert of a better rank, and advertise what a node has. -/
structure Advance (dst : N) (s s' : Routing N R) : Prop where
  rank_le : ∀ x, x ≠ dst → s'.rank x ≤ s.rank x
  next_from : ∀ y x, y ≠ dst → s'.next y x → x = dst ∨
    (s.next y x ∧ s.rank y ≤ s'.rank y) ∨ ∃ r, s.advert x r ∧ r < s'.rank y
  advert_from : ∀ x r, s'.advert x r → x = dst ∨ s.advert x r ∨ s'.rank x ≤ r

/-- A step of one node: the others keep their ranks and their next hops. -/
theorem Advance.of_node {n : N} (hrank : s'.rank n ≤ s.rank n)
    (hnext : n ≠ dst → ∀ x, s'.next n x → x = dst ∨
      (s.next n x ∧ s.rank n ≤ s'.rank n) ∨ ∃ r, s.advert x r ∧ r < s'.rank n)
    (hranks : ∀ x, x ≠ n → s'.rank x = s.rank x)
    (hnexts : ∀ y x, y ≠ n → s'.next y x → s.next y x)
    (hadvert : ∀ x r, s'.advert x r → x = dst ∨ s.advert x r ∨ s'.rank x ≤ r) :
    Advance dst s s' := by
  refine ⟨?_, ?_, hadvert⟩
  · intro x _
    by_cases hx : x = n
    · rw [hx]
      exact hrank
    · rw [hranks x hx]
  · intro y x hy hyx
    by_cases hyn : y = n
    · subst hyn
      exact hnext hy x hyx
    · rw [hranks y hyn]
      exact Or.inr (Or.inl ⟨hnexts y x hyn hyx, le_refl _⟩)

theorem Sound.advance (h : Sound dst s) (hstep : Advance dst s s') : Sound dst s' := by
  constructor
  · intro y x hy hnext
    by_cases hx : x = dst
    · exact Or.inl hx
    · right
      rcases hstep.next_from y x hy hnext with hd | ⟨hold, hrank⟩ | ⟨r, had, hr⟩
      · exact absurd hd hx
      · have hlt := (h.next_better y x hy hold).resolve_left hx
        exact ((hstep.rank_le x hx).trans_lt hlt).trans_le hrank
      · have hle := (h.advert_kept x r had).resolve_left hx
        exact ((hstep.rank_le x hx).trans hle).trans_lt hr
  · intro x r had
    by_cases hx : x = dst
    · exact Or.inl hx
    · right
      rcases hstep.advert_from x r had with hd | hold | hle
      · exact absurd hd hx
      · exact (hstep.rank_le x hx).trans ((h.advert_kept x r hold).resolve_left hx)
      · exact hle

/-- One hop of a packet for `dst`, which goes no further at `dst`. -/
def Hop (dst : N) (s : Routing N R) (y x : N) : Prop := y ≠ dst ∧ s.next y x

/-- A walk ends at the destination or at a node of a better rank. -/
theorem Sound.walk (h : Sound dst s) {y x : N} (hw : Relation.TransGen (Hop dst s) y x) :
    x = dst ∨ s.rank x < s.rank y := by
  induction hw with
  | single hop => exact h.next_better _ _ hop.1 hop.2
  | tail hw hop ih =>
      rcases h.next_better _ _ hop.1 hop.2 with hd | hlt
      · exact Or.inl hd
      · exact Or.inr (hlt.trans (ih.resolve_left hop.1))

/-- No walk returns to where it started. -/
theorem Sound.no_return (h : Sound dst s) (y : N) : ¬Relation.TransGen (Hop dst s) y y := by
  intro hw
  rcases h.walk hw with hd | hlt
  · obtain ⟨z, hop, -⟩ := Relation.TransGen.head'_iff.mp hw
    exact hop.1 hd
  · exact lt_irrefl _ hlt

end Routing

/-- A sequence number and a distance; no route is worse than any. -/
abbrev Freshness := WithTop (ℕᵒᵈ ×ₗ ℕ)

/-- The rank of a route of sequence number `seq` over the distance `dist`. -/
def fresh (seq dist : ℕ) : Freshness := ((toLex (OrderDual.toDual seq, dist) : ℕᵒᵈ ×ₗ ℕ))

theorem fresh_lt_iff {s m s' m' : ℕ} : fresh s m < fresh s' m' ↔ s' < s ∨ s = s' ∧ m < m' := by
  rw [fresh, fresh, WithTop.coe_lt_coe, Prod.Lex.toLex_lt_toLex, OrderDual.toDual_lt_toDual,
    OrderDual.toDual_inj]

theorem fresh_le_iff {s m s' m' : ℕ} : fresh s m ≤ fresh s' m' ↔ s' < s ∨ s = s' ∧ m ≤ m' := by
  rw [fresh, fresh, WithTop.coe_le_coe, Prod.Lex.toLex_le_toLex, OrderDual.toDual_lt_toDual,
    OrderDual.toDual_inj]

/-- A better rank does not have an older sequence number. -/
theorem seq_le_of_fresh_le {s m s' m' : ℕ} (h : fresh s m ≤ fresh s' m') : s' ≤ s := by
  rcases fresh_le_iff.mp h with hlt | ⟨rfl, -⟩
  · exact hlt.le
  · exact le_refl s

theorem fresh_ne_top {s m : ℕ} : fresh s m ≠ ⊤ := WithTop.coe_ne_top

end ComputerNetworking.Foundations
