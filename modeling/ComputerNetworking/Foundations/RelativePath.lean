import Mathlib.Tactic

/-!
# Relative paths

A path is a list of steps, up to the parent or down into a named entry, walked from
a directory given by the names that lead to it from the root. At the root a step
up stays. Every path amounts to going up some levels and then entering some names
(`reach`, `walk_eq_apply`), so whether it stays below the directory it starts from
is a comparison of names (`below_walk_iff`).
-/

set_option autoImplicit false

namespace ComputerNetworking.Foundations

universe u

/-- One step of a path. -/
inductive PathStep (α : Type u) where
  | up
  | name (a : α)
  deriving DecidableEq, Repr

variable {α : Type u}

/-- The directory after one step. -/
def stepFrom (dir : List α) : PathStep α → List α
  | .up => dir.dropLast
  | .name a => dir ++ [a]

/-- The directory or file at the end of a path. -/
def walk (dir : List α) (path : List (PathStep α)) : List α := path.foldl stepFrom dir

theorem walk_append (dir : List α) (path path' : List (PathStep α)) :
    walk dir (path ++ path') = walk (walk dir path) path' :=
  List.foldl_append

theorem walk_name (dir : List α) (a : α) : walk dir [.name a] = dir ++ [a] := rfl

/-- Levels to go up, and names to enter from there. -/
structure Reach (α : Type u) where
  ups : Nat
  names : List α
  deriving DecidableEq, Repr

namespace Reach

/-- A further step: a step up takes back the last name, or leaves one more level. -/
def step (r : Reach α) : PathStep α → Reach α
  | .up =>
      match r.names with
      | [] => ⟨r.ups + 1, []⟩
      | a :: names => ⟨r.ups, (a :: names).dropLast⟩
  | .name a => ⟨r.ups, r.names ++ [a]⟩

/-- Where it leads from a directory. -/
def apply (r : Reach α) (dir : List α) : List α := dir.take (dir.length - r.ups) ++ r.names

end Reach

/-- What a path amounts to. -/
def reach (path : List (PathStep α)) : Reach α := path.foldl Reach.step ⟨0, []⟩

theorem Reach.apply_step (r : Reach α) (dir : List α) (s : PathStep α) :
    (r.step s).apply dir = stepFrom (r.apply dir) s := by
  rcases r with ⟨ups, names⟩
  cases s with
  | name a => exact (List.append_assoc _ names [a]).symm
  | up =>
      cases names with
      | nil =>
          -- at the root `dir.length - ups` is 0 and stays 0
          show dir.take (dir.length - (ups + 1)) ++ [] =
            (dir.take (dir.length - ups) ++ []).dropLast
          rw [List.append_nil, List.append_nil, List.dropLast_eq_take, List.take_take,
            List.length_take]
          congr 1
          omega
      | cons a names =>
          show _ ++ (a :: names).dropLast = (_ ++ (a :: names)).dropLast
          rw [List.dropLast_append_of_ne_nil (List.cons_ne_nil a names)]
          rfl

/-- A path leads from every directory to where its normal form leads. -/
theorem walk_eq_apply (dir : List α) (path : List (PathStep α)) :
    walk dir path = (reach path).apply dir := by
  -- generalised to any normal form reached so far, for the induction
  have hfold : ∀ (r : Reach α),
      path.foldl stepFrom (r.apply dir) = (path.foldl Reach.step r).apply dir := by
    induction path with
    | nil =>
        intro r
        rfl
    | cons s path ih =>
        intro r
        rw [List.foldl_cons, List.foldl_cons, ← Reach.apply_step, ih]
  have hstart : (⟨0, []⟩ : Reach α).apply dir = dir := by
    rw [Reach.apply, Nat.sub_zero, List.take_length, List.append_nil]
  have h := hfold ⟨0, []⟩
  rw [hstart] at h
  exact h

/-- A path leads to or below the directory it starts from exactly when it enters
again the names of all the levels that it leaves. -/
theorem below_walk_iff (dir : List α) (path : List (PathStep α)) :
    dir <+: walk dir path ↔
      dir.drop (dir.length - (reach path).ups) <+: (reach path).names := by
  have hsplit := List.take_append_drop (dir.length - (reach path).ups) dir
  rw [walk_eq_apply, Reach.apply]
  -- both sides begin with the levels that are not left
  conv_lhs => arg 1; rw [← hsplit]
  exact List.prefix_append_right_inj _

/-- A path without a step up stays below. -/
theorem reach_of_names (names : List α) : reach (names.map PathStep.name) = ⟨0, names⟩ := by
  have hfold : ∀ (r : Reach α),
      (names.map PathStep.name).foldl Reach.step r = ⟨r.ups, r.names ++ names⟩ := by
    induction names with
    | nil =>
        intro r
        rw [List.append_nil]
        rfl
    | cons a names ih =>
        intro r
        rw [List.map_cons, List.foldl_cons, ih]
        exact congrArg (Reach.mk r.ups) (List.append_assoc r.names [a] names)
  exact hfold ⟨0, []⟩

end ComputerNetworking.Foundations
