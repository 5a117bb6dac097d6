import ComputerNetworking.Scheduling.Scheduler

/-!
# The list scheduler

`ListScheduler` of `common/scheduler.cc`: one list of events, into which an
event is put behind all that are not later. It implements the agenda.
-/

set_option autoImplicit false

namespace ComputerNetworking.Scheduling

open ComputerNetworking.Foundations

namespace ListScheduler

/-- `ListScheduler::insert`. -/
def insert (queue : List Event) (e : Event) : List Event :=
  queue.takeWhile (fun p => !(e.time < p.time)) ++
    e :: queue.dropWhile (fun p => !(e.time < p.time))

/-- `ListScheduler::cancel`. -/
def cancel (queue : List Event) (e : Event) : Except Failure (List Event) :=
  if e.uid ≤ 0 then .ok queue
  else if e ∈ queue then .ok (queue.erase e)
  else .error .abort

/-- `ListScheduler::lookup`. -/
def lookup (queue : List Event) (uid : ℤ) : Option Event :=
  queue.find? (·.uid = uid)

/-- `ListScheduler::deque`. -/
def deque : List Event → Option Event × List Event
  | [] => (none, [])
  | e :: next => (some e, next)

/-- The virtual functions. -/
def discipline : Discipline (List Event) where
  insert queue e _ := .ok (insert queue e)
  cancel := cancel
  lookup := lookup
  head queue := .ok (queue.head?, queue)
  deque queue _ _ := .ok (deque queue)

variable {queue : List Event} {S : Finset Event} {e : Event}

theorem lists_insert (h : Lists queue S) (hnew : ∀ x ∈ S, x.uid < e.uid) :
    Lists (insert queue e) (Insert.insert e S) := by
  apply Lists.splice
  · rwa [List.takeWhile_append_dropWhile]
  · intro a ha
    have hat : ¬e.time < a.time := by simpa using List.mem_takeWhile_imp ha
    have haS : a ∈ S := (h.mem_iff a).mp ((List.takeWhile_prefix _).subset ha)
    rcases (not_lt.mp hat).lt_or_eq with hlt | heq
    · exact Event.lt_iff.mpr (Or.inl hlt)
    · exact Event.lt_iff.mpr (Or.inr ⟨heq, hnew a haS⟩)
  · intro b hb
    have hearlier : ∀ x y : Event, x < y → (!(decide (e.time < y.time))) = true →
        (!(decide (e.time < x.time))) = true := by
      intro x y hxy hy
      have hle := Event.time_le_of_le hxy.le
      simp only [Bool.not_eq_true', decide_eq_false_iff_not, not_lt] at hy ⊢
      exact hle.trans hy
    have hbt := not_of_mem_dropWhile hearlier h.sorted hb
    simp only [Bool.not_eq_false', decide_eq_true_eq] at hbt
    exact Event.lt_iff.mpr (Or.inl hbt)

theorem lookup_eq (h : Lists queue S) (uid : ℤ) :
    lookup queue uid = first (S.filter (·.uid = uid)) := by
  rw [(h.filter (·.uid = uid)).first_eq, List.head?_filter]
  rfl

theorem lists_deque (h : Lists queue S) :
    (deque queue).1 = first S ∧ Lists (deque queue).2 (S \ (first S).toFinset) := by
  rw [h.first_eq]
  cases queue with
  | nil =>
      refine ⟨rfl, ?_⟩
      rw [h.eq_empty, Finset.empty_sdiff]
      exact Lists.nil
  | cons e next =>
      refine ⟨rfl, ?_⟩
      have herase := h.erase e
      rw [List.erase_cons_head] at herase
      rwa [List.head?_cons, Option.toFinset_some, Finset.sdiff_singleton_eq_erase]

/-- The list scheduler implements the agenda. -/
theorem implements : Implements discipline Lists where
  insert_ok w h _ hnew := ⟨_, rfl, lists_insert h hnew⟩
  cancel_ok := by
    intro q S e h he hpos
    refine ⟨q.erase e, ?_, h.erase e⟩
    show cancel q e = _
    rw [cancel, if_neg (not_le.mpr hpos), if_pos ((h.mem_iff e).mpr he)]
  lookup_eq uid h _ := lookup_eq h uid
  head_ok := by
    intro q S h
    refine ⟨q, ?_, h⟩
    rw [h.first_eq]
    rfl
  deque_ok := by
    intro q S w w' h
    obtain ⟨hans, hrest⟩ := lists_deque h
    refine ⟨(deque q).2, ?_, hrest⟩
    rw [← hans]
    rfl

end ListScheduler

end ComputerNetworking.Scheduling
