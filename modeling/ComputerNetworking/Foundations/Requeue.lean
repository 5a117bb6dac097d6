import Mathlib.Tactic

/-!
# Emptying a queue whose tokens may come back

The loop `while ((t = q.deque())) use(t)`, where the use of a token either lets it leave or
puts it, changed, at the end of the same queue. The loop ends if each token comes back
only finitely often (`drain_perm`); it goes on for ever if one of them always comes back
(`drain_endless`).
-/

set_option autoImplicit false

namespace ComputerNetworking.Foundations.Requeue

universe u v

variable {T : Type u} {X : Type v}

/-- What leaves the queue, in order; `none` if `fuel` turns do not empty it. -/
def drain (use : T → T ⊕ X) : ℕ → List T → Option (List X)
  | 0, _ => none
  | _ + 1, [] => some []
  | fuel + 1, t :: rest =>
      match use t with
      | .inl t' => drain use fuel (rest ++ [t'])
      | .inr x => (drain use fuel rest).map (x :: ·)

/-- The turns for tokens that come back `μ` times at most. -/
def turns (μ : T → ℕ) (q : List T) : ℕ := (q.map fun t => μ t + 1).sum

variable {use : T → T ⊕ X} {fuel : ℕ} {q rest : List T} {t t' : T} {x : X}

@[simp] theorem drain_zero (use : T → T ⊕ X) (q : List T) : drain use 0 q = none := rfl

@[simp] theorem drain_nil (use : T → T ⊕ X) (fuel : ℕ) : drain use (fuel + 1) [] = some [] := rfl

theorem drain_back (h : use t = .inl t') :
    drain use (fuel + 1) (t :: rest) = drain use fuel (rest ++ [t']) := by
  rw [drain, h]

theorem drain_leave (h : use t = .inr x) :
    drain use (fuel + 1) (t :: rest) = (drain use fuel rest).map (x :: ·) := by
  rw [drain, h]

@[simp] theorem turns_nil (μ : T → ℕ) : turns μ [] = 0 := rfl

@[simp] theorem turns_cons (μ : T → ℕ) (t : T) (rest : List T) :
    turns μ (t :: rest) = μ t + 1 + turns μ rest := by
  rw [turns, List.map_cons, List.sum_cons]
  rfl

theorem turns_concat (μ : T → ℕ) (t : T) (rest : List T) :
    turns μ (rest ++ [t]) = turns μ rest + (μ t + 1) := by
  rw [turns, List.map_append, List.sum_append, List.map_singleton, List.sum_singleton]
  rfl

/-- If no token comes back, each leaves in its turn. -/
theorem drain_map {f : T → X} (h : ∀ t ∈ q, use t = .inr (f t)) (hfuel : q.length < fuel) :
    drain use fuel q = some (q.map f) := by
  induction q generalizing fuel with
  | nil =>
      obtain ⟨fuel, rfl⟩ := Nat.exists_eq_add_one.mpr hfuel
      rfl
  | cons t rest ih =>
      obtain ⟨fuel, rfl⟩ := Nat.exists_eq_add_one.mpr (Nat.zero_lt_of_lt hfuel)
      rw [drain_leave (h t List.mem_cons_self)]
      have hrest :=
        ih (fun t' ht' => h t' (List.mem_cons_of_mem t ht')) (Nat.lt_of_succ_lt_succ hfuel)
      rw [hrest]
      rfl

/-- A token leaves as `f` says, or comes back with a smaller measure to leave like that. -/
def Nears (use : T → T ⊕ X) (μ : T → ℕ) (f : T → X) (t : T) : Prop :=
  use t = .inr (f t) ∨ ∃ t', use t = .inl t' ∧ μ t' < μ t ∧ f t' = f t

/-- If every token nears its exit, the queue empties, and each token has left once. -/
theorem drain_perm (μ : T → ℕ) {f : T → X} (Good : T → Prop)
    (hkeep : ∀ t t', Good t → use t = .inl t' → Good t') (hnear : ∀ t, Good t → Nears use μ f t)
    (hq : ∀ t ∈ q, Good t) (hfuel : turns μ q < fuel) :
    ∃ out, drain use fuel q = some out ∧ out.Perm (q.map f) := by
  induction fuel generalizing q with
  | zero => cases hfuel
  | succ fuel ih =>
      cases q with
      | nil => exact ⟨[], rfl, List.Perm.refl _⟩
      | cons t rest =>
          rw [turns_cons] at hfuel
          have ht := hq t List.mem_cons_self
          have hrest : ∀ t' ∈ rest, Good t' := fun t' ht' => hq t' (List.mem_cons_of_mem t ht')
          rcases hnear t ht with hleave | ⟨t', hback, hlt, hf⟩
          · obtain ⟨out, hout, hperm⟩ := ih hrest (by omega)
            refine ⟨f t :: out, ?_, hperm.cons (f t)⟩
            rw [drain_leave hleave, hout]
            rfl
          · have hgood : ∀ t'' ∈ rest ++ [t'], Good t'' := by
              intro t'' ht''
              rcases List.mem_append.mp ht'' with hold | hnew
              · exact hrest t'' hold
              · rw [List.mem_singleton.mp hnew]
                exact hkeep t t' ht hback
            obtain ⟨out, hout, hperm⟩ := ih hgood (by rw [turns_concat]; omega)
            refine ⟨out, by rw [drain_back hback, hout], hperm.trans ?_⟩
            rw [List.map_append, List.map_singleton, hf, List.map_cons]
            exact List.perm_append_singleton (f t) (rest.map f)

/-- A token that always comes back keeps the loop going. -/
theorem drain_endless (Bad : T → Prop) (hbad : ∀ t, Bad t → ∃ t', use t = .inl t' ∧ Bad t')
    (hq : ∃ t ∈ q, Bad t) (fuel : ℕ) : drain use fuel q = none := by
  induction fuel generalizing q with
  | zero => rfl
  | succ fuel ih =>
      obtain ⟨t, ht, hbadt⟩ := hq
      cases q with
      | nil => cases ht
      | cons s rest =>
          rcases List.mem_cons.mp ht with rfl | hrest
          · -- the token itself is in turn
            obtain ⟨t', hback, hbad'⟩ := hbad t hbadt
            rw [drain_back hback]
            exact ih ⟨t', List.mem_append_right _ List.mem_cons_self, hbad'⟩
          · cases huse : use s with
            | inl s' =>
                rw [drain_back huse]
                exact ih ⟨t, List.mem_append_left _ hrest, hbadt⟩
            | inr x =>
                rw [drain_leave huse, ih ⟨t, hrest, hbadt⟩]
                rfl

end ComputerNetworking.Foundations.Requeue
