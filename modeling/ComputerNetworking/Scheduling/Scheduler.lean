import Mathlib.Tactic
import ComputerNetworking.Foundations.Runs
import ComputerNetworking.Foundations.Listing

/-!
# The event scheduler

`Scheduler` of `common/scheduler.cc`: the clock, the identifiers it gives to
events and the calls of its clients. The queue of events is left to a
`Discipline`, the virtual functions of the class. `agenda` is the discipline
that says what a queue is for: it holds a set of events and hands out the least
by time, the first scheduled first among equal times. A discipline `Implements`
it when each of its functions does to the events it holds what the agenda's
does; `Implements.runs` carries this from one function to all runs.
-/

set_option autoImplicit false

namespace ComputerNetworking.Scheduling

open ComputerNetworking.Foundations

/-- An event in a queue. -/
structure Event where
  time : ℚ
  uid : ℤ
deriving Repr

namespace Event

/-- Earlier events first, and the first scheduled first among equal times. -/
def rank (e : Event) : ℚ ×ₗ ℤ := toLex (e.time, e.uid)

theorem rank_injective : Function.Injective rank := by
  rintro ⟨t, u⟩ ⟨t', u'⟩ h
  obtain ⟨rfl, rfl⟩ := Prod.mk.inj (toLex.injective h)
  rfl

instance : LinearOrder Event := LinearOrder.lift' rank rank_injective

theorem lt_iff {a b : Event} : a < b ↔ a.time < b.time ∨ a.time = b.time ∧ a.uid < b.uid := by
  show toLex (a.time, a.uid) < toLex (b.time, b.uid) ↔ _
  rw [Prod.Lex.toLex_lt_toLex]

theorem time_le_of_le {a b : Event} (h : a ≤ b) : a.time ≤ b.time := by
  rcases h.lt_or_eq with hlt | rfl
  · rcases lt_iff.mp hlt with ht | ⟨ht, -⟩
    · exact ht.le
    · exact ht.le
  · exact le_refl _

end Event

/-- How a call ends that does not return. -/
inductive Failure where
  | assertion
  | nullPointer
  | abort
  | endless
deriving DecidableEq, Repr

/-- The bucket widths open to one call of `resize`: what the search counts ask
for, and what `newwidth` returns. -/
structure Widths where
  searched : { w : ℚ // 0 < w }
  fresh : { w : ℚ // 0 < w }

/-- The virtual functions of `Scheduler`. A call of `deque` may resize twice. -/
structure Discipline (Q : Type) where
  insert : Q → Event → Widths → Except Failure Q
  cancel : Q → Event → Except Failure Q
  lookup : Q → ℤ → Option Event
  head : Q → Except Failure (Option Event × Q)
  deque : Q → Widths → Widths → Except Failure (Option Event × Q)

/-- A scheduler, with a record of its calls. -/
structure Scheduler (Q : Type) where
  clock : ℚ := 0
  uid : ℤ := 1
  queue : Q
  /-- what the calls of `head` and `deque` returned -/
  answers : List (Option Event) := []
  scheduled : List Event := []
  dequed : List Event := []
  cancelled : List Event := []

/-- A call of a scheduler; `turn` is one turn of the loop of `run`. -/
inductive Call where
  | schedule (delay : { d : ℚ // 0 ≤ d }) (w : Widths)
  | cancel (uid : ℤ)
  | head
  | deque (w w' : Widths)
  | turn (w w' : Widths)

namespace Scheduler

variable {Q : Type}

/-- `Scheduler::schedule`. -/
def schedule (d : Discipline Q) (s : Scheduler Q) (delay : ℚ) (w : Widths) :
    Except Failure (Scheduler Q) :=
  if s.uid < 0 then .error .abort
  else
    let e : Event := { time := s.clock + delay, uid := s.uid }
    match d.insert s.queue e w with
    | .error f => .error f
    | .ok queue =>
        .ok { s with uid := s.uid + 1, queue, scheduled := s.scheduled ++ [e] }

/-- The branch of `Scheduler::command` for `cancel`. -/
def cancel (d : Discipline Q) (s : Scheduler Q) (uid : ℤ) : Except Failure (Scheduler Q) :=
  match d.lookup s.queue uid with
  | none => .ok s
  | some e =>
      match d.cancel s.queue e with
      | .error f => .error f
      | .ok queue => .ok { s with queue, cancelled := s.cancelled ++ [e] }

/-- A call of `head`. -/
def head (d : Discipline Q) (s : Scheduler Q) : Except Failure (Scheduler Q) :=
  match d.head s.queue with
  | .error f => .error f
  | .ok (e, queue) => .ok { s with queue, answers := s.answers ++ [e] }

/-- A call of `deque`. -/
def deque (d : Discipline Q) (s : Scheduler Q) (w w' : Widths) :
    Except Failure (Option Event × Scheduler Q) :=
  match d.deque s.queue w w' with
  | .error f => .error f
  | .ok (e, queue) =>
      .ok (e, { s with queue, answers := s.answers ++ [e], dequed := s.dequed ++ e.toList })

/-- `Scheduler::dispatch`, up to the call of the event's handler. -/
def dispatch (s : Scheduler Q) (t : ℚ) : Except Failure (Scheduler Q) :=
  if t < s.clock then .error .abort else .ok { s with clock := t }

/-- One turn of the loop of `Scheduler::run`. -/
def turn (d : Discipline Q) (s : Scheduler Q) (w w' : Widths) : Except Failure (Scheduler Q) :=
  match s.deque d w w' with
  | .error f => .error f
  | .ok (none, s) => .ok s
  | .ok (some p, s) => s.dispatch p.time

/-- One call. -/
def step (d : Discipline Q) (s : Scheduler Q) : Call → Except Failure (Scheduler Q)
  | .schedule delay w => s.schedule d delay w
  | .cancel uid => s.cancel d uid
  | .head => s.head d
  | .deque w w' =>
      match s.deque d w w' with
      | .error f => .error f
      | .ok (_, s) => .ok s
  | .turn w w' => s.turn d w w'

end Scheduler

/-- What a queue is for: the events it holds, of which it hands out the least. -/
def agenda : Discipline (Finset Event) where
  insert S e _ := .ok (insert e S)
  cancel S e := .ok (S.erase e)
  lookup S uid := first (S.filter (·.uid = uid))
  head S := .ok (first S, S)
  deque S _ _ := .ok (first S, S \ (first S).toFinset)

/-- The functions of `d` do to the events a queue holds what the agenda's do. -/
structure Implements {Q : Type} (d : Discipline Q) (Holds : Q → Finset Event → Prop) : Prop where
  insert_ok : ∀ {q S e} (w : Widths), Holds q S → 0 ≤ e.time → (∀ x ∈ S, x.uid < e.uid) →
    ∃ q', d.insert q e w = .ok q' ∧ Holds q' (insert e S)
  cancel_ok : ∀ {q S e}, Holds q S → e ∈ S → 0 < e.uid →
    ∃ q', d.cancel q e = .ok q' ∧ Holds q' (S.erase e)
  lookup_eq : ∀ {q S} (uid : ℤ), Holds q S → Set.InjOn Event.uid S →
    d.lookup q uid = first (S.filter (·.uid = uid))
  head_ok : ∀ {q S}, Holds q S → ∃ q', d.head q = .ok (first S, q') ∧ Holds q' S
  deque_ok : ∀ {q S} (w w' : Widths), Holds q S →
    ∃ q', d.deque q w w' = .ok (first S, q') ∧ Holds q' (S \ (first S).toFinset)

/-- The agenda of a running scheduler: no event lies in the past, identifiers
are not given twice, and what was scheduled was dequed, was cancelled or waits. -/
structure Orderly (a : Scheduler (Finset Event)) : Prop where
  uid_pos : 0 < a.uid
  uids : ∀ x ∈ a.queue, 0 < x.uid ∧ x.uid < a.uid
  uid_inj : Set.InjOn Event.uid a.queue
  clock_nonneg : 0 ≤ a.clock
  clock_le : ∀ x ∈ a.queue, a.clock ≤ x.time
  conserved : a.scheduled.Perm (a.dequed ++ a.cancelled ++ a.queue.toList)

theorem orderly_empty : Orderly { queue := ∅ } := by
  constructor <;> simp

namespace Orderly

variable {a : Scheduler (Finset Event)} {e : Event}

theorem perm_cons_erase {S : Finset Event} (he : e ∈ S) :
    S.toList.Perm (e :: (S.erase e).toList) := by
  have h := Finset.toList_insert (Finset.notMem_erase e S)
  rwa [Finset.insert_erase he] at h

theorem schedule (h : Orderly a) (t : ℚ) (ht : a.clock ≤ t) :
    Orderly { a with uid := a.uid + 1, queue := insert ⟨t, a.uid⟩ a.queue,
                     scheduled := a.scheduled ++ [⟨t, a.uid⟩] } := by
  have hnew : (⟨t, a.uid⟩ : Event) ∉ a.queue := fun hmem => (h.uids _ hmem).2.false
  constructor
  · exact h.uid_pos.trans (lt_add_one a.uid)
  · intro x hx
    rcases Finset.mem_insert.mp hx with rfl | hx
    · exact ⟨h.uid_pos, lt_add_one a.uid⟩
    · exact ⟨(h.uids x hx).1, (h.uids x hx).2.trans (lt_add_one a.uid)⟩
  · rw [Finset.coe_insert]
    apply (Set.injOn_insert hnew).mpr
    refine ⟨h.uid_inj, ?_⟩
    rintro ⟨x, hx, hxu⟩
    exact (h.uids x hx).2.ne hxu
  · exact h.clock_nonneg
  · intro x hx
    rcases Finset.mem_insert.mp hx with rfl | hx
    · exact ht
    · exact h.clock_le x hx
  · refine (h.conserved.append_right _).trans ?_
    rw [List.append_assoc]
    apply List.Perm.append_left
    exact (List.perm_append_singleton _ _).trans (Finset.toList_insert hnew).symm

/-- An event that leaves the queue, wherever it goes. -/
theorem erase (h : Orderly a) (e : Event) {answers : List (Option Event)}
    {dequed cancelled : List Event}
    (hgo : (dequed ++ cancelled).Perm (e :: (a.dequed ++ a.cancelled))) (he : e ∈ a.queue) :
    Orderly { a with queue := a.queue.erase e, answers, dequed, cancelled } := by
  constructor
  · exact h.uid_pos
  · intro x hx
    exact h.uids x (Finset.mem_of_mem_erase hx)
  · apply h.uid_inj.mono
    intro x hx
    exact Finset.mem_of_mem_erase (Finset.mem_coe.mp hx)
  · exact h.clock_nonneg
  · intro x hx
    exact h.clock_le x (Finset.mem_of_mem_erase hx)
  · refine h.conserved.trans ?_
    refine ((perm_cons_erase he).append_left _).trans ?_
    exact List.perm_middle.trans (hgo.append_right _).symm

/-- The least event leaves the queue, if there is one. -/
theorem deque (h : Orderly a) :
    Orderly { a with queue := a.queue \ (first a.queue).toFinset,
                     answers := a.answers ++ [first a.queue],
                     dequed := a.dequed ++ (first a.queue).toList } := by
  cases hf : first a.queue with
  | none =>
      have hempty := first_eq_none_iff.mp hf
      rw [Option.toFinset_none, Finset.sdiff_empty, Option.toList_none, List.append_nil]
      exact { h with }
  | some e =>
      rw [Option.toFinset_some, Finset.sdiff_singleton_eq_erase, Option.toList_some]
      refine h.erase e ?_ (mem_of_first_eq_some hf)
      rw [List.append_assoc]
      exact List.perm_middle

/-- The clock moves to the event that was dequed. -/
theorem dispatch (h : Orderly a) {t : ℚ} (ht : a.clock ≤ t) (hle : ∀ x ∈ a.queue, t ≤ x.time) :
    Orderly { a with clock := t } :=
  { h with clock_nonneg := h.clock_nonneg.trans ht, clock_le := hle }

end Orderly

section Refinement

variable {Q : Type} {d : Discipline Q} {Holds : Q → Finset Event → Prop}

/-- The same scheduler over the agenda that holds `S`. -/
def Scheduler.over (s : Scheduler Q) (S : Finset Event) : Scheduler (Finset Event) :=
  { clock := s.clock, uid := s.uid, queue := S, answers := s.answers, scheduled := s.scheduled,
    dequed := s.dequed, cancelled := s.cancelled }

/-- Every call of the two schedulers returns, and leaves them in step. -/
theorem Implements.step (hd : Implements d Holds) {s : Scheduler Q} {S : Finset Event}
    (hS : Holds s.queue S) (ha : Orderly (s.over S)) (c : Call) :
    ∃ s' S', s.step d c = .ok s' ∧ (s.over S).step agenda c = .ok (s'.over S') ∧
      Holds s'.queue S' ∧ Orderly (s'.over S') := by
  cases c with
  | schedule delay w =>
      have ht : s.clock ≤ s.clock + delay := by linarith [delay.2]
      have huid : ¬s.uid < 0 := not_lt.mpr (le_of_lt ha.uid_pos)
      obtain ⟨q, hq, hSq⟩ := hd.insert_ok (e := ⟨s.clock + delay, s.uid⟩) w hS
        (ha.clock_nonneg.trans ht) fun x hx => (ha.uids x hx).2
      refine ⟨{ s with uid := s.uid + 1, queue := q,
                       scheduled := s.scheduled ++ [⟨s.clock + delay, s.uid⟩] },
        insert (⟨s.clock + delay, s.uid⟩ : Event) S, ?_, ?_, hSq, ha.schedule _ ht⟩
      · simp only [Scheduler.step, Scheduler.schedule, if_neg huid, hq]
      · exact if_neg huid
  | cancel uid =>
      have hlook := hd.lookup_eq uid hS ha.uid_inj
      cases hf : first (S.filter (·.uid = uid)) with
      | none =>
          refine ⟨s, S, ?_, ?_, hS, ha⟩
          · simp only [Scheduler.step, Scheduler.cancel, hlook, hf]
          · simp only [Scheduler.step, Scheduler.cancel, Scheduler.over, agenda, hf]
      | some e =>
          have he : e ∈ S := (Finset.mem_filter.mp (mem_of_first_eq_some hf)).1
          obtain ⟨q, hq, hSq⟩ := hd.cancel_ok hS he (ha.uids e he).1
          refine ⟨{ s with queue := q, cancelled := s.cancelled ++ [e] }, S.erase e, ?_, ?_, hSq,
            ha.erase e ?_ he⟩
          · simp only [Scheduler.step, Scheduler.cancel, hlook, hf, hq]
          · simp only [Scheduler.step, Scheduler.cancel, Scheduler.over, agenda, hf]
          · rw [← List.append_assoc]
            exact List.perm_append_singleton e _
  | head =>
      obtain ⟨q, hq, hSq⟩ := hd.head_ok hS
      refine ⟨{ s with queue := q, answers := s.answers ++ [first S] }, S, ?_, ?_, hSq,
        { ha with }⟩
      · simp only [Scheduler.step, Scheduler.head, hq]
      · simp only [Scheduler.step, Scheduler.head, Scheduler.over, agenda]
  | deque w w' =>
      obtain ⟨q, hq, hSq⟩ := hd.deque_ok w w' hS
      refine ⟨{ s with queue := q, answers := s.answers ++ [first S],
                       dequed := s.dequed ++ (first S).toList },
        S \ (first S).toFinset, ?_, ?_, hSq, ha.deque⟩
      · simp only [Scheduler.step, Scheduler.deque, hq]
      · simp only [Scheduler.step, Scheduler.deque, Scheduler.over, agenda]
  | turn w w' =>
      obtain ⟨q, hq, hSq⟩ := hd.deque_ok w w' hS
      cases hf : first S with
      | none =>
          refine ⟨{ s with queue := q, answers := s.answers ++ [first S],
                           dequed := s.dequed ++ (first S).toList },
            S \ (first S).toFinset, ?_, ?_, hSq, ha.deque⟩
          · simp only [Scheduler.step, Scheduler.turn, Scheduler.deque, hq, hf]
          · simp only [Scheduler.step, Scheduler.turn, Scheduler.deque, Scheduler.over, agenda, hf]
      | some e =>
          -- no event of the agenda lies before the clock
          have hle : s.clock ≤ e.time := ha.clock_le e (mem_of_first_eq_some hf)
          have hlate : ∀ x ∈ S \ (first S).toFinset, e.time ≤ x.time := by
            intro x hx
            exact Event.time_le_of_le (le_of_first_eq_some hf (Finset.mem_sdiff.mp hx).1)
          refine ⟨{ s with clock := e.time, queue := q, answers := s.answers ++ [first S],
                           dequed := s.dequed ++ (first S).toList },
            S \ (first S).toFinset, ?_, ?_, hSq, ha.deque.dispatch hle hlate⟩
          · simp only [Scheduler.step, Scheduler.turn, Scheduler.deque, Scheduler.dispatch, hq, hf,
              if_neg (not_lt.mpr hle)]
          · simp only [Scheduler.step, Scheduler.turn, Scheduler.deque, Scheduler.dispatch,
              Scheduler.over, agenda, hf, if_neg (not_lt.mpr hle)]

/-- A discipline that implements the agenda runs as the agenda does: every call
returns, and the scheduler keeps the agenda's clock and record. -/
theorem Implements.runs (hd : Implements d Holds) (calls : List Call) {s : Scheduler Q}
    {S : Finset Event} (hS : Holds s.queue S) (ha : Orderly (s.over S)) :
    ∃ s' S', runAll (Scheduler.step d) s calls = .ok s' ∧
      runAll (Scheduler.step agenda) (s.over S) calls = .ok (s'.over S') ∧
      Holds s'.queue S' ∧ Orderly (s'.over S') := by
  induction calls generalizing s S with
  | nil => exact ⟨s, S, rfl, rfl, hS, ha⟩
  | cons c calls ih =>
      obtain ⟨t, T, ht, hT, hhold, horder⟩ := hd.step hS ha c
      rw [runAll_cons_ok ht, runAll_cons_ok hT]
      exact ih hhold horder

end Refinement

end ComputerNetworking.Scheduling
