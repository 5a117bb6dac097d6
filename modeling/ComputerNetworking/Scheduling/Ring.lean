import ComputerNetworking.Scheduling.Scheduler

/-!
# Rings of events

The events of a bucket are linked to a ring through `next_` and `prev_` of
`common/scheduler.h`. A ring is kept as the list that starts at its first event;
the successor of the last event is the first. In a sorted ring the neighbours of
an event tell whether another event has its time (`alone_iff`, `unshared_iff`).
-/

set_option autoImplicit false

namespace ComputerNetworking.Scheduling

open ComputerNetworking.Foundations

/-- The events of a ring behind `e`, up to the one before `e`. -/
def others (ring : List Event) (e : Event) : List Event :=
  (ring.dropWhile (· ≠ e)).tail ++ ring.takeWhile (· ≠ e)

/-- `e->next_`. -/
def next (ring : List Event) (e : Event) : Event := (others ring e).headD e

/-- `e->prev_`. -/
def prev (ring : List Event) (e : Event) : Event := (others ring e).getLastD e

variable {ring p s : List Event} {S : Finset Event} {e : Event}

theorem others_append (h : e ∉ p) : others (p ++ e :: s) e = s ++ p := by
  have hne : ∀ x ∈ p, decide (x ≠ e) = true := by
    intro x hx
    exact decide_eq_true fun hxe => h (hxe ▸ hx)
  rw [others, List.dropWhile_append_of_pos hne, List.takeWhile_append_of_pos hne,
    List.dropWhile_cons_of_neg (by simp), List.takeWhile_cons_of_neg (by simp), List.tail_cons,
    List.append_nil]

/-- The predecessor of the first event is the last. -/
theorem prev_head (head : Event) (rest : List Event) :
    prev (head :: rest) head = (head :: rest).getLastD head := by
  have ho : others ([] ++ head :: rest) head = rest ++ [] := others_append (by simp)
  rw [List.nil_append, List.append_nil] at ho
  rw [prev, ho, List.getLastD_cons]

/-- A sorted ring, cut at one of its events. -/
theorem cut_at (h : Lists ring S) (he : e ∈ S) :
    ∃ p s, ring = p ++ e :: s ∧ others ring e = s ++ p ∧ (∀ a ∈ p, a < e) ∧ ∀ b ∈ s, e < b := by
  obtain ⟨p, s, rfl⟩ := List.append_of_mem ((h.mem_iff e).mpr he)
  obtain ⟨hp, hs⟩ := h.around
  exact ⟨p, s, rfl, others_append fun hmem => (hp e hmem).false, hp, hs⟩

theorem headD_mem {l : List Event} (h : l ≠ []) : l.headD e ∈ l := by
  cases l with
  | nil => exact absurd rfl h
  | cons x l => exact List.mem_cons_self

theorem getLastD_mem {l : List Event} (h : l ≠ []) : l.getLastD e ∈ l := by
  obtain rfl | ⟨l, x, rfl⟩ := List.eq_nil_or_concat l
  · exact absurd rfl h
  · simp

theorem time_le_last {l : List Event} {m x : Event} (h : (l ++ [m]).Pairwise (· < ·))
    (hx : x ∈ l ++ [m]) : x.time ≤ m.time := by
  rcases List.mem_append.mp hx with hx | hx
  · exact Event.time_le_of_le ((List.pairwise_append.mp h).2.2 x hx m (by simp)).le
  · rw [List.mem_singleton.mp hx]

/-- An event behind `e` of its time: then the successor of `e` has it too. -/
theorem next_time (hs : s.Pairwise (· < ·)) (hes : ∀ b ∈ s, e < b) {x : Event} (hx : x ∈ s)
    (hxt : x.time = e.time) : ((s ++ p).headD e).time = e.time := by
  cases s with
  | nil => cases hx
  | cons n s =>
      -- `n` stands between `e` and `x`
      have hen := Event.time_le_of_le (hes n List.mem_cons_self).le
      have hnx : n.time ≤ x.time := by
        rcases List.mem_cons.mp hx with rfl | hx
        · exact le_refl _
        · exact Event.time_le_of_le (List.rel_of_pairwise_cons hs hx).le
      exact le_antisymm (hnx.trans hxt.le) hen

/-- An event before `e` of its time: then the predecessor of `e` has it too. -/
theorem prev_time (hp : p.Pairwise (· < ·)) (hpe : ∀ a ∈ p, a < e) {x : Event} (hx : x ∈ p)
    (hxt : x.time = e.time) : ((s ++ p).getLastD e).time = e.time := by
  obtain rfl | ⟨p, m, rfl⟩ := List.eq_nil_or_concat p
  · cases hx
  · have hlast : (s ++ p.concat m).getLastD e = m := by simp
    rw [hlast]
    rw [List.concat_eq_append] at hp hpe hx
    have hme := Event.time_le_of_le (hpe m (by simp)).le
    exact le_antisymm hme (hxt.symm.le.trans (time_le_last hp hx))

/-- `e` shares its time with another event of `S`. -/
def Shares (S : Finset Event) (e : Event) : Prop := ∃ x ∈ S.erase e, x.time = e.time

theorem shares_iff (h : Lists (p ++ e :: s) S) :
    Shares S e ↔ ∃ x ∈ s ++ p, x.time = e.time := by
  obtain ⟨hp, hs⟩ := h.around
  apply exists_congr
  intro x
  apply and_congr_left
  intro _
  rw [Finset.mem_erase, ← h.mem_iff]
  constructor
  · rintro ⟨hne, hx⟩
    rcases List.mem_append.mp hx with hx | hx
    · exact List.mem_append_right s hx
    · rcases List.mem_cons.mp hx with rfl | hx
      · exact absurd rfl hne
      · exact List.mem_append_left p hx
  · intro hx
    rcases List.mem_append.mp hx with hx | hx
    · exact ⟨(hs x hx).ne', by simp [hx]⟩
    · exact ⟨(hp x hx).ne, by simp [hx]⟩

theorem next_eq_self_iff (h : Lists (p ++ e :: s) S) :
    next (p ++ e :: s) e = e ↔ s ++ p = [] := by
  obtain ⟨hp, hs⟩ := h.around
  rw [next, others_append fun hmem => (hp e hmem).false]
  constructor
  · intro heq
    by_contra hne
    have hmem := headD_mem (e := e) hne
    rw [heq] at hmem
    rcases List.mem_append.mp hmem with hmem | hmem
    · exact (hs e hmem).false
    · exact (hp e hmem).false
  · intro hnil
    rw [hnil, List.headD_nil]

/-- What `cancel` asks of the neighbours. -/
theorem alone_iff (h : Lists ring S) (he : e ∈ S) :
    (next ring e = e ∨ ((next ring e).time ≠ e.time ∧ (prev ring e).time ≠ e.time)) ↔
      ¬Shares S e := by
  obtain ⟨p, s, rfl, hoth, hp, hs⟩ := cut_at h he
  obtain ⟨hps, hss, -⟩ := List.pairwise_append.mp h.sorted
  rw [shares_iff h, next_eq_self_iff h]
  by_cases hnil : s ++ p = []
  · simp [hnil]
  · rw [or_iff_right hnil, next, prev, hoth, ← not_or, not_iff_not]
    constructor
    · rintro (ht | ht)
      · exact ⟨_, headD_mem hnil, ht⟩
      · exact ⟨_, getLastD_mem hnil, ht⟩
    · rintro ⟨x, hx, hxt⟩
      rcases List.mem_append.mp hx with hx | hx
      · exact Or.inl (next_time (List.pairwise_cons.mp hss).2 hs hx hxt)
      · exact Or.inr (prev_time hps hp hx hxt)

/-- What `deque` asks of the event behind the first. -/
theorem head_alone_iff (h : Lists (e :: s) S) :
    (next (e :: s) e = e ∨ (next (e :: s) e).time ≠ e.time) ↔ ¬Shares S e := by
  have h' : Lists ([] ++ e :: s) S := h
  have hes := h'.around.2
  have hss := (List.pairwise_cons.mp h.sorted).2
  have hnext : next (e :: s) e = (s ++ []).headD e := by
    rw [next]
    exact congrArg (fun l => List.headD l e) (others_append (p := []) (by simp))
  rw [shares_iff h']
  by_cases hnil : s = []
  · subst hnil
    simp [hnext]
  · have hself : ¬next (e :: s) e = e := by
      intro heq
      exact hnil (by simpa using (next_eq_self_iff h').mp heq)
    rw [or_iff_right hself, hnext, not_iff_not]
    constructor
    · intro ht
      exact ⟨_, headD_mem (by simpa using hnil), ht⟩
    · rintro ⟨x, hx, hxt⟩
      exact next_time hss hes (by simpa using hx) hxt

/-- What `insert2` asks of the event it has put a new one in front of. -/
theorem unshared_iff (h : Lists (p ++ e :: s) S) (hne : s ++ p ≠ [])
    (hp : ∀ a ∈ p, a.time < e.time) :
    (e ≠ next (p ++ e :: s) e ∧ (next (p ++ e :: s) e).time ≠ e.time) ↔ ¬Shares S e := by
  have hself : e ≠ next (p ++ e :: s) e := fun heq => hne ((next_eq_self_iff h).mp heq.symm)
  obtain ⟨hpe, hes⟩ := h.around
  have hss := (List.pairwise_cons.mp (List.pairwise_append.mp h.sorted).2.1).2
  rw [and_iff_right hself, shares_iff h, next, others_append fun hmem => (hpe e hmem).false,
    not_iff_not]
  constructor
  · intro ht
    exact ⟨_, headD_mem hne, ht⟩
  · rintro ⟨x, hx, hxt⟩
    rcases List.mem_append.mp hx with hx | hx
    · exact next_time hss hes hx hxt
    · exact absurd hxt (hp x hx).ne

theorem others_eq (h : Lists (p ++ e :: s) S) : others (p ++ e :: s) e = s ++ p :=
  others_append fun hmem => (h.around.1 e hmem).false

/-- The predecessor's successor. -/
theorem next_prev (h : Lists ring S) (he : e ∈ S) : next ring (prev ring e) = e := by
  obtain ⟨p, s, rfl, hoth, -, -⟩ := cut_at h he
  obtain rfl | ⟨p, m, rfl⟩ := List.eq_nil_or_concat p
  · obtain rfl | ⟨s, m, rfl⟩ := List.eq_nil_or_concat s
    · have hprev : prev ([] ++ [e]) e = e := by
        rw [prev, hoth]
        rfl
      rw [hprev, next, hoth]
      rfl
    · -- the predecessor of the first is the last
      have hprev : prev ([] ++ e :: s.concat m) e = m := by
        rw [prev, hoth]
        simp
      have hring : [] ++ e :: s.concat m = (e :: s) ++ m :: [] := by simp
      rw [hprev, hring, next, others_eq (hring ▸ h)]
      rfl
  · have hprev : prev (p.concat m ++ e :: s) e = m := by
      rw [prev, hoth]
      simp
    have hring : p.concat m ++ e :: s = p ++ m :: e :: s := by simp
    rw [hprev, hring, next, others_eq (hring ▸ h)]
    rfl

/-- The successor's predecessor. -/
theorem prev_next (h : Lists ring S) (he : e ∈ S) : prev ring (next ring e) = e := by
  obtain ⟨p, s, rfl, hoth, -, -⟩ := cut_at h he
  cases s with
  | nil =>
      cases p with
      | nil =>
          have hnext : next ([] ++ [e]) e = e := by
            rw [next, hoth]
            rfl
          rw [hnext, prev, hoth]
          rfl
      | cons n p =>
          -- the successor of the last is the first
          have hnext : next (n :: p ++ [e]) e = n := by
            rw [next, hoth]
            rfl
          have hring : n :: p ++ [e] = [] ++ n :: (p ++ [e]) := by simp
          rw [hnext, hring, prev, others_eq (hring ▸ h)]
          simp
  | cons n s =>
      have hnext : next (p ++ e :: n :: s) e = n := by
        rw [next, hoth]
        rfl
      have hring : p ++ e :: n :: s = (p ++ [e]) ++ n :: s := by simp
      rw [hnext, hring, prev, others_eq (hring ▸ h)]
      simp

end ComputerNetworking.Scheduling
