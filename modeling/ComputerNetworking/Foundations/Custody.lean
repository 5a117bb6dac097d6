import Mathlib.Tactic
import Mathlib.Data.List.Perm.Basic

/-!
# Custody of tokens passing through a buffer

Tokens arrive at a buffer one by one. Each is at any moment held, released to
the consumer, or discarded. A `Ledger` records the four lists; it is `Balanced`
when no token is lost or duplicated and the released tokens, followed by the
held ones, stand in their order of arrival. Four operations keep the balance:
accepting a token, refusing it, releasing the oldest held token, and accepting
a token at the price of evicting a held one. Where tokens of different classes
may overtake each other, the ledger of each class is balanced (`BalancedBy`).
-/

set_option autoImplicit false

namespace ComputerNetworking.Foundations

universe u v

variable {T : Type u}

/-- Where the tokens that arrived have gone, each list in time order. -/
structure Ledger (T : Type u) where
  arrived : List T
  held : List T
  released : List T
  discarded : List T

/-- No token is lost or duplicated, and none overtakes another. -/
structure Ledger.Balanced (l : Ledger T) : Prop where
  conserved : l.arrived.Perm (l.held ++ l.released ++ l.discarded)
  ordered : (l.released ++ l.held).Sublist l.arrived

namespace Ledger

/-- The ledger before any arrival. -/
def empty : Ledger T := ⟨[], [], [], []⟩

/-- The arrival `t` joins the held tokens. -/
def accept (l : Ledger T) (t : T) : Ledger T :=
  { l with arrived := l.arrived ++ [t], held := l.held ++ [t] }

/-- The arrival `t` is discarded at once. -/
def refuse (l : Ledger T) (t : T) : Ledger T :=
  { l with arrived := l.arrived ++ [t], discarded := l.discarded ++ [t] }

/-- The oldest held token, if there is one, is released. -/
def release (l : Ledger T) : Ledger T :=
  match l.held with
  | [] => l
  | t :: rest => { l with held := rest, released := l.released ++ [t] }

/-- The held token `v` is discarded. -/
def evict [DecidableEq T] (l : Ledger T) (v : T) : Ledger T :=
  { l with held := l.held.erase v, discarded := l.discarded ++ [v] }

theorem balanced_empty : (empty : Ledger T).Balanced :=
  ⟨List.Perm.refl _, List.Sublist.refl _⟩

theorem Balanced.accept {l : Ledger T} (h : l.Balanced) (t : T) : (l.accept t).Balanced := by
  constructor
  · -- the arrival stands last among the arrived and last among the held
    have hswap : (l.held ++ l.released ++ l.discarded ++ [t]).Perm
        (l.held ++ [t] ++ l.released ++ l.discarded) := by
      simp only [List.append_assoc]
      refine List.Perm.append_left _ ?_
      rw [← List.append_assoc]
      exact List.perm_append_comm
    exact (h.conserved.append_right [t]).trans hswap
  · show (l.released ++ (l.held ++ [t])).Sublist (l.arrived ++ [t])
    rw [← List.append_assoc]
    exact h.ordered.append (List.Sublist.refl _)

theorem Balanced.refuse {l : Ledger T} (h : l.Balanced) (t : T) : (l.refuse t).Balanced := by
  constructor
  · show (l.arrived ++ [t]).Perm (l.held ++ l.released ++ (l.discarded ++ [t]))
    rw [← List.append_assoc]
    exact h.conserved.append_right [t]
  · exact h.ordered.trans (List.sublist_append_left _ _)

theorem Balanced.release {l : Ledger T} (h : l.Balanced) : l.release.Balanced := by
  obtain ⟨arrived, held, released, discarded⟩ := l
  cases held with
  | nil => exact h
  | cons t rest =>
      constructor
      · have hswap : ((t :: rest) ++ released ++ discarded).Perm
            (rest ++ (released ++ [t]) ++ discarded) := by
          refine List.Perm.append_right _ ?_
          rw [← List.append_assoc]
          exact (List.perm_append_singleton t _).symm
        exact h.conserved.trans hswap
      · have hordered : (released ++ t :: rest).Sublist arrived := h.ordered
        show ((released ++ [t]) ++ rest).Sublist arrived
        rwa [List.append_assoc, List.singleton_append]

theorem Balanced.evict [DecidableEq T] {l : Ledger T} (h : l.Balanced) {v : T}
    (hv : v ∈ l.held) : (l.evict v).Balanced := by
  constructor
  · have hout : (l.held ++ l.released ++ l.discarded).Perm
        (l.held.erase v ++ l.released ++ (l.discarded ++ [v])) := by
      have hcons : (l.held ++ l.released ++ l.discarded).Perm
          (v :: (l.held.erase v ++ l.released ++ l.discarded)) := by
        simp only [List.append_assoc]
        exact (List.perm_cons_erase hv).append_right _
      refine hcons.trans ?_
      rw [← List.append_assoc]
      exact (List.perm_append_singleton v _).symm
    exact h.conserved.trans hout
  · -- evicting leaves a gap in the order, and no token overtakes another
    exact (List.Sublist.append_left List.erase_sublist _).trans h.ordered

/-- A balanced ledger with distinct arrivals has each of them in exactly one
place, once. -/
theorem Balanced.count_eq_one [DecidableEq T] {l : Ledger T} (h : l.Balanced)
    (hnd : l.arrived.Nodup) {t : T} (ht : t ∈ l.arrived) :
    l.held.count t + l.released.count t + l.discarded.count t = 1 := by
  have hcount := h.conserved.count_eq t
  rw [List.count_append, List.count_append] at hcount
  rw [← hcount]
  exact List.count_eq_one_of_mem hnd ht

section Classes

variable {K : Type v} [DecidableEq K] (key : T → K)

/-- The part of the ledger that is about the tokens of the class `k`. -/
def only (l : Ledger T) (k : K) : Ledger T where
  arrived := l.arrived.filter fun t => key t = k
  held := l.held.filter fun t => key t = k
  released := l.released.filter fun t => key t = k
  discarded := l.discarded.filter fun t => key t = k

/-- The ledger is balanced within every class; tokens of two classes may overtake each other. -/
def BalancedBy (l : Ledger T) : Prop := ∀ k, (l.only key k).Balanced

variable {key} {arrived held released discarded before after : List T} {t : T}

theorem BalancedBy.conserved [DecidableEq T] {l : Ledger T} (h : l.BalancedBy key) :
    l.arrived.Perm (l.held ++ l.released ++ l.discarded) := by
  rw [List.perm_iff_count]
  intro t
  have hcount := (h (key t)).conserved.count_eq t
  have hclass : ∀ m : List T, (m.filter fun u => key u = key t).count t = m.count t :=
    fun m => List.count_filter (decide_eq_true rfl)
  simp only [only, List.count_append, hclass] at hcount
  rw [List.count_append, List.count_append]
  exact hcount

theorem BalancedBy.accept (h : (⟨arrived, held, released, discarded⟩ : Ledger T).BalancedBy key)
    (t : T) :
    (⟨arrived ++ [t], held ++ [t], released, discarded⟩ : Ledger T).BalancedBy key := by
  intro k
  have hk := h k
  simp only [only, List.filter_append] at hk ⊢
  by_cases ht : key t = k
  · rw [List.filter_singleton, decide_eq_true ht]
    exact hk.accept t
  · rw [List.filter_singleton, decide_eq_false ht]
    simpa using hk

/-- The first token of its class leaves. -/
theorem BalancedBy.withdraw
    (h : (⟨arrived, before ++ t :: after, released, discarded⟩ : Ledger T).BalancedBy key)
    (hfirst : ∀ u ∈ before, key u ≠ key t) :
    (⟨arrived, before ++ after, released ++ [t], discarded⟩ : Ledger T).BalancedBy key := by
  intro k
  have hk := h k
  simp only [only, List.filter_append, List.filter_cons, List.filter_nil] at hk ⊢
  by_cases ht : key t = k
  · have hnone : before.filter (fun u => key u = k) = [] := by
      apply List.filter_eq_nil_iff.mpr
      intro u hu hk
      exact hfirst u hu ((of_decide_eq_true hk).trans ht.symm)
    rw [hnone, decide_eq_true ht] at hk ⊢
    exact hk.release
  · rw [decide_eq_false ht] at hk ⊢
    simpa using hk

/-- The oldest token is discarded. -/
theorem BalancedBy.evict [DecidableEq T]
    (h : (⟨arrived, t :: after, released, discarded⟩ : Ledger T).BalancedBy key) :
    (⟨arrived, after, released, discarded ++ [t]⟩ : Ledger T).BalancedBy key := by
  intro k
  have hk := h k
  simp only [only, List.filter_append, List.filter_cons, List.filter_nil] at hk ⊢
  by_cases ht : key t = k
  · rw [decide_eq_true ht] at hk ⊢
    have hout := hk.evict (v := t) List.mem_cons_self
    simp only [Ledger.evict, if_true, List.erase_cons_head] at hout ⊢
    exact hout
  · rw [decide_eq_false ht] at hk ⊢
    simpa using hk

/-- The oldest tokens are discarded one by one. -/
theorem BalancedBy.evictAll [DecidableEq T] {out rest : List T}
    (h : (⟨arrived, out ++ rest, released, discarded⟩ : Ledger T).BalancedBy key) :
    (⟨arrived, rest, released, discarded ++ out⟩ : Ledger T).BalancedBy key := by
  induction out generalizing discarded with
  | nil => rwa [List.append_nil]
  | cons t out ih =>
      have hrest := ih (h : (⟨arrived, t :: (out ++ rest), released, discarded⟩ :
        Ledger T).BalancedBy key).evict
      rwa [List.append_assoc, List.singleton_append] at hrest

/-- In which order tokens are discarded does not matter. -/
theorem BalancedBy.reorder (h : (⟨arrived, held, released, discarded⟩ : Ledger T).BalancedBy key)
    {discarded' : List T} (hperm : discarded.Perm discarded') :
    (⟨arrived, held, released, discarded'⟩ : Ledger T).BalancedBy key := by
  intro k
  obtain ⟨hconserved, hordered⟩ := h k
  exact ⟨hconserved.trans ((hperm.filter _).append_left _), hordered⟩

/-- The tokens that fail a test are discarded. -/
theorem BalancedBy.sieve (h : (⟨arrived, held, released, discarded⟩ : Ledger T).BalancedBy key)
    (test : T → Bool) :
    (⟨arrived, held.filter test, released, discarded ++ held.filter fun t => !test t⟩ :
      Ledger T).BalancedBy key := by
  intro k
  obtain ⟨hconserved, hordered⟩ := h k
  have hsplit : (held.filter fun t => key t = k).Perm
      ((held.filter test).filter (fun t => key t = k) ++
        (held.filter fun t => !test t).filter fun t => key t = k) := by
    rw [← List.filter_append]
    exact (List.filter_append_perm test held).symm.filter _
  constructor
  · simp only [only, List.filter_append] at hconserved hordered ⊢
    refine hconserved.trans (((hsplit.append_right _).append_right _).trans ?_)
    simp only [List.append_assoc]
    apply List.Perm.append_left
    rw [← List.append_assoc (List.filter _ released)]
    exact List.perm_append_comm
  · refine List.Sublist.trans ?_ hordered
    exact List.Sublist.append_left (List.filter_sublist.filter _) _

end Classes

end Ledger

end ComputerNetworking.Foundations
