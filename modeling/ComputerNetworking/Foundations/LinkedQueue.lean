import Mathlib.Tactic

/-!
# Queues of linked nodes

A queue is kept as a pointer to its first node, a pointer to its last node and a link from each
node to the next; `none` is the null pointer. `Seg` says over which nodes the links lead from
one pointer to another, and `Linked` that the two ends and the links stand for a list. Such a
list is determined by the links and names no node twice (`Seg.nodup`). The rules say what is
left to write when a node is appended, pushed in front or unlinked behind another
(`Linked.append`, `Linked.push`, `Linked.unlink`), and what a loop along the links finds
(`search_found`, `search_missing`).
-/

set_option autoImplicit false

namespace ComputerNetworking.Foundations.LinkedQueue

universe u

variable {P : Type u}

/-- From `first` the links lead over the nodes of the list, one by one, to `last`. -/
def Seg (next : P → Option P) : Option P → List P → Option P → Prop
  | first, [], last => first = last
  | first, p :: l, last => first = some p ∧ Seg next (next p) l last

/-- The pointers to both ends and the links stand for the list. -/
structure Linked (next : P → Option P) (head tail : Option P) (l : List P) : Prop where
  links : Seg next head l none
  tail_eq : tail = l.getLast?

variable {next next' : P → Option P} {first last head tail : Option P} {p q : P} {l m : List P}

/-! ## Segments -/

theorem seg_append_iff : Seg next first (l ++ m) last ↔
    ∃ mid, Seg next first l mid ∧ Seg next mid m last := by
  induction l generalizing first with
  | nil =>
      constructor
      · exact fun h => ⟨first, rfl, h⟩
      · rintro ⟨mid, rfl, h⟩
        exact h
  | cons p l ih =>
      rw [List.cons_append, Seg, ih]
      constructor
      · rintro ⟨hp, mid, hl, hm⟩
        exact ⟨mid, ⟨hp, hl⟩, hm⟩
      · rintro ⟨mid, ⟨hp, hl⟩, hm⟩
        exact ⟨hp, mid, hl, hm⟩

/-- A segment is cut at a node of it. -/
theorem seg_append_cons_iff : Seg next first (l ++ p :: m) last ↔
    Seg next first l (some p) ∧ Seg next (next p) m last := by
  rw [seg_append_iff]
  constructor
  · rintro ⟨mid, hl, rfl, hm⟩
    exact ⟨hl, hm⟩
  · rintro ⟨hl, hm⟩
    exact ⟨some p, hl, rfl, hm⟩

/-- Only the links of the nodes on the way matter. -/
theorem Seg.congr (h : Seg next first l last) (hnext : ∀ p ∈ l, next' p = next p) :
    Seg next' first l last := by
  induction l generalizing first with
  | nil => exact h
  | cons p l ih =>
      obtain ⟨hp, hl⟩ := h
      refine ⟨hp, ?_⟩
      rw [hnext p List.mem_cons_self]
      exact ih hl fun q hq => hnext q (List.mem_cons_of_mem p hq)

theorem Seg.unique (hl : Seg next first l none) (hm : Seg next first m none) : l = m := by
  induction l generalizing first m with
  | nil =>
      cases m with
      | nil => rfl
      | cons p m => cases (show first = none from hl).symm.trans hm.1
  | cons p l ih =>
      obtain ⟨hp, hl⟩ := hl
      cases m with
      | nil => cases hp.symm.trans (show first = none from hm)
      | cons q m =>
          obtain ⟨hq, hm⟩ := hm
          obtain rfl := Option.some.inj (hp.symm.trans hq)
          rw [ih hl hm]

/-- Links that end come by no node twice. -/
theorem Seg.nodup (h : Seg next first l none) : l.Nodup := by
  induction l generalizing first with
  | nil => exact List.nodup_nil
  | cons p l ih =>
      obtain ⟨-, hl⟩ := h
      refine List.nodup_cons.mpr ⟨fun hp => ?_, ih hl⟩
      obtain ⟨before, after, rfl⟩ := List.append_of_mem hp
      -- behind both places of `p` the links would go on alike
      have hsame := hl.unique (seg_append_cons_iff.mp hl).2
      have hlen := congrArg List.length hsame
      rw [List.length_append, List.length_cons] at hlen
      omega

theorem Seg.head_eq (h : Seg next first l none) : first = l.head? := by
  cases l with
  | nil => exact h
  | cons p l => exact h.1

/-! ## Queues -/

theorem linked_nil (next : P → Option P) : Linked next none none [] := ⟨rfl, rfl⟩

theorem Linked.nodup (h : Linked next head tail l) : l.Nodup := h.links.nodup

theorem Linked.unique (h : Linked next head tail l) (h' : Linked next head tail m) : l = m :=
  h.links.unique h'.links

theorem Linked.head_eq (h : Linked next head tail l) : head = l.head? := h.links.head_eq

/-- The tail is a node exactly if no node is behind it. -/
theorem Linked.tail_eq_iff (h : Linked next head tail (l ++ p :: m)) : tail = some p ↔ m = [] := by
  rw [h.tail_eq]
  constructor
  · intro hlast
    by_contra hm
    have hp : p ∈ m := by
      rw [List.getLast?_append_of_ne_nil _ (List.cons_ne_nil p m),
        List.getLast?_cons_of_ne_nil hm] at hlast
      exact List.mem_of_getLast? hlast
    have hnodup := (List.nodup_append.mp h.nodup).2.1
    exact (List.nodup_cons.mp hnodup).1 hp
  · rintro rfl
    exact List.getLast?_concat

/-- A node behind another one is not the head. -/
theorem Linked.head_ne (h : Linked next head tail (l ++ q :: p :: m)) : some p ≠ head := by
  rintro rfl
  obtain ⟨-, hq⟩ := seg_append_cons_iff.mp h.links
  have hp : Seg next (some p) (p :: m) none := ⟨rfl, hq.2⟩
  have hsame := h.links.unique hp
  have hlen := congrArg List.length hsame
  rw [List.length_append, List.length_cons, List.length_cons] at hlen
  omega

/-- A node that another one is in front of is linked from it. -/
theorem Linked.next_eq (h : Linked next head tail (l ++ q :: p :: m)) : next q = some p :=
  (seg_append_cons_iff.mp h.links).2.1

/-- The node that is the tail links to none. -/
theorem Linked.next_tail (h : Linked next head (some p) l) : next p = none := by
  obtain ⟨l', rfl⟩ := List.getLast?_eq_some_iff.mp h.tail_eq.symm
  exact (seg_append_cons_iff.mp h.links).2

theorem getLast?_cons_eq_or (p : P) (l : List P) :
    (p :: l).getLast? = l.getLast?.or (some p) := by
  rw [List.getLast?_cons]
  cases l.getLast? <;> rfl

section Writes

variable [DecidableEq P]

theorem Seg.update (h : Seg next first l last) (hp : p ∉ l) (link : Option P) :
    Seg (Function.update next p link) first l last := by
  apply h.congr
  intro q hq
  apply Function.update_of_ne
  rintro rfl
  exact hp hq

theorem Linked.update (h : Linked next head tail l) (hp : p ∉ l) (link : Option P) :
    Linked (Function.update next p link) head tail l :=
  ⟨h.links.update hp link, h.tail_eq⟩

theorem linked_singleton (next : P → Option P) (p : P) :
    Linked (Function.update next p none) (some p) (some p) [p] := by
  refine ⟨⟨rfl, ?_⟩, rfl⟩
  rw [Function.update_self]
  rfl

/-- The last node is linked to a new one, which ends the links. -/
theorem Linked.append (h : Linked next head (some q) l) (hp : p ∉ l) :
    Linked (Function.update (Function.update next q (some p)) p none) head (some p)
      (l ++ [p]) := by
  obtain ⟨l', rfl⟩ := List.getLast?_eq_some_iff.mp h.tail_eq.symm
  obtain ⟨hlinks, -⟩ := seg_append_cons_iff.mp h.links
  have hq : q ∉ l' := by
    have hnodup := List.nodup_append.mp h.nodup
    exact fun hmem => hnodup.2.2 q hmem q (List.mem_singleton_self q) rfl
  have hne : q ≠ p := by
    rintro rfl
    exact hp (List.mem_append_right _ (List.mem_singleton_self q))
  refine ⟨?_, List.getLast?_concat.symm⟩
  rw [seg_append_cons_iff, Function.update_self]
  refine ⟨?_, rfl⟩
  apply Seg.update _ hp
  rw [seg_append_cons_iff, Function.update_self]
  exact ⟨hlinks.update hq _, rfl⟩

/-- A new node is linked to the first one. -/
theorem Linked.push (h : Linked next head tail l) (hp : p ∉ l) :
    Linked (Function.update next p head) (some p) (if head = none then some p else tail)
      (p :: l) := by
  refine ⟨⟨rfl, ?_⟩, ?_⟩
  · rw [Function.update_self]
    exact h.links.update hp head
  · cases l with
    | nil => rw [if_pos (show head = none from h.links), List.getLast?_singleton]
    | cons q l =>
        rw [if_neg, h.tail_eq, List.getLast?_cons_cons]
        intro hnone
        cases hnone.symm.trans h.links.1

/-- The node behind `q` is left out. -/
theorem Linked.unlink (h : Linked next head tail (l ++ q :: p :: m)) :
    Linked (Function.update next q (next p)) head (l ++ q :: m).getLast? (l ++ q :: m) := by
  obtain ⟨hl, -, hm⟩ := seg_append_cons_iff.mp h.links
  have hnodup := List.nodup_append.mp h.nodup
  refine ⟨seg_append_cons_iff.mpr ⟨hl.update ?_ _, ?_⟩, rfl⟩
  · exact fun hq => hnodup.2.2 q hq q List.mem_cons_self rfl
  · rw [Function.update_self]
    apply hm.update
    exact fun hq => (List.nodup_cons.mp hnodup.2.1).1 (List.mem_cons_of_mem p hq)

end Writes

/-! ## Loops along the links -/

/-- A loop that stops at the first node that passes the test: this node, and the one before
it; `none` if `fuel` turns are not enough. -/
def search (next : P → Option P) (test : P → Bool) :
    ℕ → Option P → Option P → Option (Option P × Option P)
  | 0, _, _ => none
  | _ + 1, prev, none => some (none, prev)
  | fuel + 1, prev, some p =>
      if test p then some (some p, prev) else search next test fuel (some p) (next p)

/-- The nodes that do not pass the test are passed by. -/
theorem search_skip {test : P → Bool} (h : Seg next first l last)
    (htest : ∀ q ∈ l, test q = false) (fuel : ℕ) (prev : Option P) :
    search next test (fuel + l.length) prev first =
      search next test fuel (l.getLast?.or prev) last := by
  induction l generalizing first prev with
  | nil => exact congrArg _ (show first = last from h)
  | cons p l ih =>
      obtain ⟨rfl, hl⟩ := h
      have hp : ¬test p = true := Bool.eq_false_iff.mp (htest p List.mem_cons_self)
      show (if test p = true then _ else search next test (fuel + l.length) (some p) (next p)) = _
      rw [if_neg hp, ih hl fun q hq => htest q (List.mem_cons_of_mem p hq), getLast?_cons_eq_or,
        Option.or_assoc, Option.some_or]

/-- The first node that passes the test is found, and the one before it. -/
theorem search_found {test : P → Bool} (h : Seg next first (l ++ p :: m) last)
    (htest : ∀ q ∈ l, test q = false) (hp : test p = true) {fuel : ℕ}
    (hfuel : (l ++ p :: m).length < fuel) (prev : Option P) :
    search next test fuel prev first = some (some p, l.getLast?.or prev) := by
  rw [List.length_append] at hfuel
  obtain ⟨n, rfl⟩ : ∃ n, fuel = n + 1 + l.length := ⟨fuel - l.length - 1, by omega⟩
  rw [search_skip (seg_append_cons_iff.mp h).1 htest, search, if_pos hp]

theorem search_missing {test : P → Bool} (h : Seg next first l none)
    (htest : ∀ q ∈ l, test q = false) {fuel : ℕ} (hfuel : l.length < fuel) (prev : Option P) :
    search next test fuel prev first = some (none, l.getLast?.or prev) := by
  obtain ⟨n, rfl⟩ : ∃ n, fuel = n + 1 + l.length := ⟨fuel - l.length - 1, by omega⟩
  rw [search_skip h htest, search]

/-- The nodes that `n` turns along the links come by. -/
def follow (next : P → Option P) : ℕ → Option P → List P
  | 0, _ => []
  | _ + 1, none => []
  | n + 1, some p => p :: follow next n (next p)

theorem follow_eq (h : Seg next first l none) {n : ℕ} (hn : l.length ≤ n) :
    follow next n first = l := by
  induction l generalizing first n with
  | nil =>
      rw [show first = none from h]
      cases n <;> rfl
  | cons p l ih =>
      obtain ⟨rfl, hl⟩ := h
      obtain ⟨k, rfl⟩ := Nat.exists_eq_succ_of_ne_zero (Nat.ne_zero_of_lt hn)
      rw [follow, ih hl (Nat.le_of_succ_le_succ hn)]

end ComputerNetworking.Foundations.LinkedQueue
