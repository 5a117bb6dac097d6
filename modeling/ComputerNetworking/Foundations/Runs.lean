import Mathlib.Tactic

/-!
# Runs of a fallible machine

A machine is a step function `S → I → Except E S`: one call of an operation on
a state either fails for good or leaves the next state. `runAll` runs a list of
calls, `Along` says that a property holds of every call the run makes. The
rules below turn facts about one step into facts about all runs.
-/

set_option autoImplicit false

namespace ComputerNetworking.Foundations

universe u v w

variable {S : Type u} {I : Type v} {E : Type w}

/-- The state after a list of calls, or the first failure. -/
def runAll (step : S → I → Except E S) : S → List I → Except E S
  | s, [] => .ok s
  | s, i :: is =>
      match step s i with
      | .ok s' => runAll step s' is
      | .error e => .error e

/-- `P` holds of every call a run makes; nothing is asked after a failure. -/
def Along (step : S → I → Except E S) (P : S → I → Prop) : S → List I → Prop
  | _, [] => True
  | s, i :: is => P s i ∧ ∀ s', step s i = .ok s' → Along step P s' is

/-- `Q` holds of the state every call of a run leaves. -/
abbrev AfterEach (step : S → I → Except E S) (Q : S → Prop) (s : S) (is : List I) : Prop :=
  Along step (fun s i => ∀ s', step s i = .ok s' → Q s') s is

/-- What has succeeded has not failed. -/
theorem ok_not_error (s : S) : ¬∃ e : E, (.ok s : Except E S) = .error e := by
  rintro ⟨e, h⟩
  cases h

section Places

variable {P : List I → I → Prop}

theorem not_place_nil : ¬∃ pre i post, ([] : List I) = pre ++ i :: post ∧ P pre i := by
  rintro ⟨pre, i, post, h, -⟩
  exact List.append_ne_nil_of_right_ne_nil pre (List.cons_ne_nil i post) h.symm

/-- A place in a list of calls is its head or a place in its tail. -/
theorem place_cons_iff {i : I} {is : List I} :
    (∃ pre j post, i :: is = pre ++ j :: post ∧ P pre j) ↔
      P [] i ∨ ∃ pre j post, is = pre ++ j :: post ∧ P (i :: pre) j := by
  constructor
  · rintro ⟨pre, j, post, h, hP⟩
    cases pre with
    | nil =>
        obtain ⟨rfl, rfl⟩ := List.cons.inj h
        exact Or.inl hP
    | cons k pre =>
        obtain ⟨rfl, rfl⟩ := List.cons.inj h
        exact Or.inr ⟨pre, j, post, rfl, hP⟩
  · rintro (hP | ⟨pre, j, post, rfl, hP⟩)
    · exact ⟨[], i, is, rfl, hP⟩
    · exact ⟨i :: pre, j, post, rfl, hP⟩

end Places

section Rules

variable {step : S → I → Except E S}

@[simp] theorem runAll_nil (s : S) : runAll step s [] = .ok s := rfl

theorem runAll_cons_ok {s s' : S} {i : I} {is : List I} (h : step s i = .ok s') :
    runAll step s (i :: is) = runAll step s' is := by
  rw [runAll, h]

theorem runAll_cons_error {s : S} {i : I} {is : List I} {e : E} (h : step s i = .error e) :
    runAll step s (i :: is) = .error e := by
  rw [runAll, h]

/-- A run over two lists of calls is the second run from where the first ends. -/
theorem runAll_append {s s' : S} {is js : List I} (h : runAll step s is = .ok s') :
    runAll step s (is ++ js) = runAll step s' js := by
  induction is generalizing s with
  | nil =>
      rw [runAll_nil, Except.ok.injEq] at h
      rw [h, List.nil_append]
  | cons i is ih =>
      cases hs : step s i with
      | error e =>
          rw [runAll_cons_error hs] at h
          exact absurd h (by simp)
      | ok t =>
          rw [runAll_cons_ok hs] at h
          rw [List.cons_append, runAll_cons_ok hs]
          exact ih h

/-- A run ends in a state, or at the first call that fails. -/
theorem runAll_cases (step : S → I → Except E S) (s : S) (is : List I) :
    (∃ s', runAll step s is = .ok s') ∨
      ∃ pre i post s' e, is = pre ++ i :: post ∧ runAll step s pre = .ok s' ∧
        step s' i = .error e ∧ runAll step s is = .error e := by
  induction is generalizing s with
  | nil => exact Or.inl ⟨s, rfl⟩
  | cons i is ih =>
      cases hi : step s i with
      -- this call fails, or what the other calls do decides
      | error e => exact Or.inr ⟨[], i, is, s, e, rfl, rfl, hi, runAll_cons_error hi⟩
      | ok t =>
          rcases ih t with ⟨s', hs'⟩ | ⟨pre, j, post, s', e, rfl, hpre, hj, herr⟩
          · exact Or.inl ⟨s', by rw [runAll_cons_ok hi, hs']⟩
          · exact Or.inr ⟨i :: pre, j, post, s', e, rfl, by rw [runAll_cons_ok hi, hpre], hj,
              by rw [runAll_cons_ok hi, herr]⟩

/-- An invariant that the calls of a list keep holds where the list ends. -/
theorem runAll_invariant_mem (Inv : S → Prop) {s s' : S} {is : List I}
    (hstep : ∀ s, ∀ i ∈ is, ∀ s', Inv s → step s i = .ok s' → Inv s')
    (hs : Inv s) (h : runAll step s is = .ok s') : Inv s' := by
  induction is generalizing s with
  | nil =>
      rw [runAll_nil, Except.ok.injEq] at h
      exact h ▸ hs
  | cons i is ih =>
      cases ht : step s i with
      | error e =>
          rw [runAll_cons_error ht] at h
          exact absurd h (by simp)
      | ok t =>
          rw [runAll_cons_ok ht] at h
          refine ih ?_ (hstep s i List.mem_cons_self t hs ht) h
          intro u j hj
          exact hstep u j (List.mem_cons_of_mem i hj)

/-- An invariant of one step is an invariant of all runs. -/
theorem runAll_invariant (Inv : S → Prop)
    (hstep : ∀ s i s', Inv s → step s i = .ok s' → Inv s') {s s' : S} {is : List I}
    (hs : Inv s) (h : runAll step s is = .ok s') : Inv s' :=
  runAll_invariant_mem Inv (fun s i _ => hstep s i) hs h

/-- A failure that no step makes from an invariant state is made by no run. -/
theorem runAll_ne_error (Inv : S → Prop) {e : E}
    (hstep : ∀ s i s', Inv s → step s i = .ok s' → Inv s')
    (hne : ∀ s i, Inv s → step s i ≠ .error e) {s : S} {is : List I} (hs : Inv s) :
    runAll step s is ≠ .error e := by
  induction is generalizing s with
  | nil => simp
  | cons i is ih =>
      cases ht : step s i with
      | error e' =>
          rw [runAll_cons_error ht]
          intro h
          exact hne s i hs (ht.trans h)
      | ok t =>
          rw [runAll_cons_ok ht]
          exact ih (hstep s i t hs ht)

/-- A list of calls none of which is `Bad` succeeds, and one with a `Bad` call fails, when the
calls that succeed make none of the others `Bad` and none of them good. -/
theorem runAll_blame (Inv : S → Prop) (Bad : S → I → Prop)
    (hbad : ∀ s i, Inv s → Bad s i → ∃ e, step s i = .error e)
    (hgood : ∀ s i, Inv s → ¬Bad s i →
      ∃ s', step s i = .ok s' ∧ Inv s' ∧ ∀ j, Bad s' j ↔ Bad s j)
    {s : S} (is : List I) (hs : Inv s) :
    ((∃ i ∈ is, Bad s i) → ∃ e, runAll step s is = .error e) ∧
      ((∀ i ∈ is, ¬Bad s i) → ∃ s', runAll step s is = .ok s' ∧ Inv s') := by
  induction is generalizing s with
  | nil =>
      refine ⟨?_, fun _ => ⟨s, rfl, hs⟩⟩
      rintro ⟨i, hi, -⟩
      cases hi
  | cons i is ih =>
      by_cases hi : Bad s i
      · obtain ⟨e, he⟩ := hbad s i hs hi
        exact ⟨fun _ => ⟨e, runAll_cons_error he⟩,
          fun hall => absurd hi (hall i List.mem_cons_self)⟩
      · obtain ⟨t, ht, hInv, hsame⟩ := hgood s i hs hi
        obtain ⟨hfails, hlands⟩ := ih hInv
        rw [runAll_cons_ok ht]
        constructor
        · rintro ⟨j, hj, hbadj⟩
          rcases List.mem_cons.mp hj with rfl | hj
          · exact absurd hbadj hi
          · exact hfails ⟨j, hj, (hsame j).mpr hbadj⟩
        · intro hall
          apply hlands
          intro j hj hbadj
          exact hall j (List.mem_cons_of_mem i hj) ((hsame j).mp hbadj)

/-- What a call adds at most once, a list of calls adds at most once for each. -/
theorem runAll_growth (size : S → ℕ)
    (hstep : ∀ s i s', step s i = .ok s' → size s' ≤ size s + 1) {s s' : S} {is : List I}
    (h : runAll step s is = .ok s') : size s' ≤ size s + is.length := by
  induction is generalizing s with
  | nil =>
      rw [runAll_nil, Except.ok.injEq] at h
      rw [h]
      exact Nat.le_add_right _ _
  | cons i is ih =>
      cases ht : step s i with
      | error e =>
          rw [runAll_cons_error ht] at h
          cases h
      | ok t =>
          rw [runAll_cons_ok ht] at h
          have hone := hstep s i t ht
          have hrest := ih h
          rw [List.length_cons]
          omega

/-- A property of every call of a run holds of every call of its second part. -/
theorem Along.of_append {P : S → I → Prop} {s s' : S} {is : List I} (js : List I)
    (h : Along step P s (is ++ js)) (hrun : runAll step s is = .ok s') : Along step P s' js := by
  induction is generalizing s with
  | nil =>
      rw [runAll_nil, Except.ok.injEq] at hrun
      exact hrun ▸ h
  | cons i is ih =>
      cases ht : step s i with
      | error e =>
          rw [runAll_cons_error ht] at hrun
          exact absurd hrun (by simp)
      | ok t =>
          rw [runAll_cons_ok ht] at hrun
          exact ih (h.2 t ht) hrun

/-- Two properties of every call. -/
theorem along_and_iff {P Q : S → I → Prop} {s : S} {is : List I} :
    Along step (fun s i => P s i ∧ Q s i) s is ↔ Along step P s is ∧ Along step Q s is := by
  induction is generalizing s with
  | nil => exact ⟨fun _ => ⟨trivial, trivial⟩, fun _ => trivial⟩
  | cons i is ih =>
      constructor
      · rintro ⟨⟨hP, hQ⟩, hrest⟩
        exact ⟨⟨hP, fun s' hs' => (ih.mp (hrest s' hs')).1⟩,
          ⟨hQ, fun s' hs' => (ih.mp (hrest s' hs')).2⟩⟩
      · rintro ⟨⟨hP, hrestP⟩, hQ, hrestQ⟩
        exact ⟨⟨hP, hQ⟩, fun s' hs' => ih.mpr ⟨hrestP s' hs', hrestQ s' hs'⟩⟩

/-- If `P` makes a step keep the invariant and give `Q`, then along every run
whose calls meet `P` the calls give `Q`. -/
theorem Along.of_invariant {Inv : S → Prop} {P Q : S → I → Prop}
    (hstep : ∀ s i s', Inv s → P s i → step s i = .ok s' → Inv s')
    (hQ : ∀ s i, Inv s → P s i → Q s i) {s : S} {is : List I} (hs : Inv s)
    (h : Along step P s is) : Along step Q s is := by
  induction is generalizing s with
  | nil => trivial
  | cons i is ih =>
      obtain ⟨hP, hrest⟩ := h
      exact ⟨hQ s i hs hP, fun s' hs' => ih (hstep s i s' hs hP hs') (hrest s' hs')⟩

/-- What follows from an invariant that the calls of a list keep holds of them along the run. -/
theorem Along.of_kept_mem {Inv : S → Prop} {Q : S → I → Prop} {s : S} {is : List I}
    (hstep : ∀ s, ∀ i ∈ is, ∀ s', Inv s → step s i = .ok s' → Inv s')
    (hQ : ∀ s, ∀ i ∈ is, Inv s → Q s i) (hs : Inv s) : Along step Q s is := by
  induction is generalizing s with
  | nil => trivial
  | cons i is ih =>
      have hi : i ∈ i :: is := List.mem_cons_self
      refine ⟨hQ s i hi hs, fun s' hs' => ?_⟩
      apply ih
      · intro t j hj
        exact hstep t j (List.mem_cons_of_mem i hj)
      · intro t j hj
        exact hQ t j (List.mem_cons_of_mem i hj)
      · exact hstep s i hi s' hs hs'

/-- What follows from an invariant that every step keeps holds of the calls of all runs. -/
theorem Along.of_kept {Inv : S → Prop} {Q : S → I → Prop}
    (hstep : ∀ s i s', Inv s → step s i = .ok s' → Inv s') (hQ : ∀ s i, Inv s → Q s i)
    {s : S} (hs : Inv s) (is : List I) : Along step Q s is :=
  Along.of_kept_mem (fun s i _ => hstep s i) (fun s i _ => hQ s i) hs

/-- Two properties of the calls of a run that agree on invariant states, and keep
the invariant, hold along the run or fail along it together. -/
theorem along_congr_mem (Inv : S → Prop) {P Q : S → I → Prop} {s : S} {is : List I}
    (hstep : ∀ s, ∀ i ∈ is, ∀ s', Inv s → Q s i → step s i = .ok s' → Inv s')
    (hPQ : ∀ s, ∀ i ∈ is, Inv s → (P s i ↔ Q s i)) (hs : Inv s) :
    Along step P s is ↔ Along step Q s is := by
  induction is generalizing s with
  | nil => exact Iff.rfl
  | cons i is ih =>
      have hi : i ∈ i :: is := List.mem_cons_self
      rw [Along, Along, hPQ s i hi hs]
      apply and_congr_right
      intro hQ
      apply forall₂_congr
      intro s' hs'
      -- the tail's calls are calls of the whole list
      apply ih
      · intro t j hj
        exact hstep t j (List.mem_cons_of_mem i hj)
      · intro t j hj
        exact hPQ t j (List.mem_cons_of_mem i hj)
      · exact hstep s i hi s' hs hQ hs'

/-- The same for properties that agree on every call. -/
theorem along_congr (Inv : S → Prop) {P Q : S → I → Prop}
    (hstep : ∀ s i s', Inv s → Q s i → step s i = .ok s' → Inv s')
    (hPQ : ∀ s i, Inv s → (P s i ↔ Q s i)) {s : S} {is : List I} (hs : Inv s) :
    Along step P s is ↔ Along step Q s is :=
  along_congr_mem Inv (fun s i _ => hstep s i) (fun s i _ => hPQ s i) hs

/-- A run can be checked call by call. -/
instance Along.decidable {P : S → I → Prop} [∀ s i, Decidable (P s i)] :
    ∀ (s : S) (is : List I), Decidable (Along step P s is)
  | _, [] => isTrue trivial
  | s, i :: is =>
      match h : step s i with
      | .error e => decidable_of_iff (P s i) <| by
          rw [Along, h]
          exact ⟨fun hP => ⟨hP, fun s' hs' => by cases hs'⟩, And.left⟩
      | .ok s' =>
          have := Along.decidable (P := P) s' is
          decidable_of_iff (P s i ∧ Along step P s' is) <| by
            rw [Along, h]
            refine and_congr_right fun _ => ⟨?_, fun hrest => hrest s' rfl⟩
            rintro hrest s'' ⟨⟩
            exact hrest

/-- What holds after each call holds of the state a nonempty run ends in. -/
theorem AfterEach.of_runAll {Q : S → Prop} {s s' : S} {is : List I}
    (h : AfterEach step Q s is) (hne : is ≠ []) (hrun : runAll step s is = .ok s') : Q s' := by
  induction is generalizing s with
  | nil => exact absurd rfl hne
  | cons i is ih =>
      obtain ⟨hQ, hrest⟩ := h
      cases ht : step s i with
      | error e =>
          rw [runAll_cons_error ht] at hrun
          exact absurd hrun (by simp)
      | ok t =>
          rw [runAll_cons_ok ht] at hrun
          -- `Q` is asked of the state behind the last call
          cases is with
          | nil =>
              rw [runAll_nil, Except.ok.injEq] at hrun
              exact hrun ▸ hQ t ht
          | cons j js => exact ih (hrest t ht) (List.cons_ne_nil j js) hrun

end Rules

end ComputerNetworking.Foundations
