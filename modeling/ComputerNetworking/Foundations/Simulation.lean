import ComputerNetworking.Foundations.Runs

/-!
# Machines that answer

A call of a fallible machine leaves a state and gives an answer, or fails for good; a call of an
abstract machine always leaves a state and gives an answer. The first simulates the second for
the legal calls if it answers the same and the states stay related. Then it does so over whole
runs (`simulates_run`).
-/

set_option autoImplicit false

namespace ComputerNetworking.Foundations

universe u v w x y

variable {S : Type u} {A : Type v} {I : Type w} {O : Type x} {E : Type y}

/-- The answers of a machine to a list of calls, and the state it ends in. -/
def answersAll (step : S → I → Except E (O × S)) : S → List I → Except E (List O × S)
  | s, [] => .ok ([], s)
  | s, i :: is =>
      match step s i with
      | .error e => .error e
      | .ok (o, s') =>
          match answersAll step s' is with
          | .error e => .error e
          | .ok (os, s'') => .ok (o :: os, s'')

/-- The same for an abstract machine. -/
def abstractAll (astep : A → I → O × A) : A → List I → List O × A
  | a, [] => ([], a)
  | a, i :: is =>
      let rest := abstractAll astep (astep a i).2 is
      ((astep a i).1 :: rest.1, rest.2)

/-- Each call is legal in the abstract state it finds. -/
def LegalAll (astep : A → I → O × A) (Legal : A → I → Prop) : A → List I → Prop
  | _, [] => True
  | a, i :: is => Legal a i ∧ LegalAll astep Legal (astep a i).2 is

instance LegalAll.decidable {astep : A → I → O × A} {Legal : A → I → Prop}
    [∀ a i, Decidable (Legal a i)] : ∀ (a : A) (is : List I), Decidable (LegalAll astep Legal a is)
  | _, [] => isTrue trivial
  | a, i :: is =>
      have : Decidable (LegalAll astep Legal (astep a i).2 is) := LegalAll.decidable _ is
      inferInstanceAs (Decidable (Legal a i ∧ LegalAll astep Legal (astep a i).2 is))

variable {step : S → I → Except E (O × S)} {astep : A → I → O × A} {Legal : A → I → Prop}

/-- A run of legal calls answers as the abstract one does and ends in a related state. -/
theorem simulates_run (R : S → A → Prop)
    (hstep : ∀ s a i, R s a → Legal a i →
      ∃ s', step s i = .ok ((astep a i).1, s') ∧ R s' (astep a i).2)
    {s : S} {a : A} {is : List I} (hs : R s a) (h : LegalAll astep Legal a is) :
    ∃ s', answersAll step s is = .ok ((abstractAll astep a is).1, s') ∧
      R s' (abstractAll astep a is).2 := by
  induction is generalizing s a with
  | nil => exact ⟨s, rfl, hs⟩
  | cons i is ih =>
      obtain ⟨hi, hrest⟩ := h
      obtain ⟨t, ht, hR⟩ := hstep s a i hs hi
      obtain ⟨s', hs', hR'⟩ := ih hR hrest
      refine ⟨s', ?_, hR'⟩
      rw [answersAll, ht]
      dsimp only
      rw [hs']
      rfl

/-- What every legal call adds at most once stays below a bound that leaves room for all. -/
theorem LegalAll.bounded {size : A → ℕ} {bound : ℕ}
    (hgrow : ∀ a i, size (astep a i).2 ≤ size a + 1) {a : A} {is : List I}
    (h : LegalAll astep Legal a is) (hsize : size a + is.length < bound) :
    LegalAll astep (fun a i => Legal a i ∧ size a < bound) a is := by
  induction is generalizing a with
  | nil => trivial
  | cons i is ih =>
      obtain ⟨hi, hrest⟩ := h
      rw [List.length_cons] at hsize
      have hnext := hgrow a i
      exact ⟨⟨hi, by omega⟩, ih hrest (by omega)⟩

end ComputerNetworking.Foundations
