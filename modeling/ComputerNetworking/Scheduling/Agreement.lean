import ComputerNetworking.Scheduling.ListScheduler
import ComputerNetworking.Scheduling.CalendarSearch

/-!
# The calendar and the list

Both disciplines implement the agenda, so a scheduler over the one and a
scheduler over the other return the same events for any calls
(`calendar_agrees`), whatever widths the calendar arrives at.
-/

set_option autoImplicit false

namespace ComputerNetworking.Scheduling

open ComputerNetworking.Foundations

/-- A new calendar holds no events. -/
theorem holds_create (adjust : ℕ) (minBinWidth : ℚ) (raw : CalendarScheduler) :
    CalendarScheduler.Holds (CalendarScheduler.create adjust minBinWidth raw) ∅ := by
  have hclock : (if adjust = 0 then
      { raw with adjustNewWidthInterval := adjust, minBinWidth, calClock := 0 }
    else
      { raw with adjustNewWidthInterval := adjust, minBinWidth, calClock := 0, avgGap := -2,
                 lastTime := -2, gapNum := 0, headSearch := 0, insertSearch := 0, roundNum := 0,
                 timeToNewwidth := adjust }).calClock = 0 := by
    split <;> rfl
  refine ⟨?_, CalendarScheduler.filed_reinit _ 4 1 _, ?_⟩
  · apply CalendarScheduler.ready_reinit (le_refl 4) one_pos rfl
    exact hclock.ge
  · intro x hx
    cases hx

/-- For any calls the calendar scheduler and the list scheduler return, with the
same answers. The events wait in the order of their times, those of one time in
the order they were scheduled in, and of those scheduled none is lost or
duplicated; a bucket of the calendar holds those of its days, and the next event
is the first that waits. -/
theorem calendar_agrees (adjust : ℕ) (minBinWidth : ℚ) (raw : CalendarScheduler)
    (calls : List Call) :
    ∃ (c : Scheduler CalendarScheduler) (l : Scheduler (List Event)),
      runAll (Scheduler.step CalendarScheduler.discipline)
        { queue := CalendarScheduler.create adjust minBinWidth raw } calls = .ok c ∧
      runAll (Scheduler.step ListScheduler.discipline) { queue := [] } calls = .ok l ∧
      c.answers = l.answers ∧ c.dequed = l.dequed ∧ c.cancelled = l.cancelled ∧
      c.scheduled = l.scheduled ∧ c.clock = l.clock ∧
      l.queue.Pairwise (fun a b => a.time < b.time ∨ a.time = b.time ∧ a.uid < b.uid) ∧
      l.scheduled.Perm (l.dequed ++ l.cancelled ++ l.queue) ∧
      (∀ i, (c.queue.buckets i).list = l.queue.filter fun x => c.queue.hash x.time = i) ∧
      ∀ w w', ∃ q, c.queue.deque w w' = .ok (l.queue.head?, q) := by
  obtain ⟨c, S, hc, hagenda, hheld, -⟩ := CalendarScheduler.implements.runs calls
    (s := { queue := CalendarScheduler.create adjust minBinWidth raw })
    (holds_create adjust minBinWidth raw) orderly_empty
  obtain ⟨l, T, hl, hagenda', hlists, horder⟩ := ListScheduler.implements.runs calls
    (s := { queue := [] }) Lists.nil orderly_empty
  -- the agenda runs in one way
  have hsame : c.over S = l.over T := Except.ok.inj (hagenda.symm.trans hagenda')
  have hST : S = T := congrArg Scheduler.queue hsame
  subst hST
  refine ⟨c, l, hc, hl, congrArg Scheduler.answers hsame, congrArg Scheduler.dequed hsame,
    congrArg Scheduler.cancelled hsame, congrArg Scheduler.scheduled hsame,
    congrArg Scheduler.clock hsame, ?_, ?_, ?_, ?_⟩
  · exact hlists.sorted.imp Event.lt_iff.mp
  · exact horder.conserved.trans (hlists.perm_toList.symm.append_left _)
  · intro i
    exact (hheld.filed.bucket i).unique (hlists.filter _)
  · intro w w'
    obtain ⟨q, hq, -⟩ := hheld.deque w w'
    exact ⟨q, by rw [hq, hlists.first_eq]⟩

end ComputerNetworking.Scheduling
