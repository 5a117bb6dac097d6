import ComputerNetworking.Queue.RedSpec
import ComputerNetworking.Foundations.Runs
import ComputerNetworking.Foundations.Custody

/-!
# Custody of the packets of a RED queue

`Traffic` is a RED queue with what its callers have seen: how many packets
arrived, which were returned by `deque`, and which were handed to `drop()` or to
the early-drop target. The `n`-th arrival is a packet object of its own, so it
gets uid `n`. Every call acts on the ledger of the traffic by one of the
operations of `Foundations.Custody`, so no packet is lost, duplicated or
overtaken, and the lookup of a victim never misses (`red_custody`).
-/

set_option autoImplicit false

namespace ComputerNetworking.Queue

open ComputerNetworking.Foundations

/-- A RED queue, the number of arrivals, and the packets that left it. -/
structure Traffic where
  queue : REDQueue
  arrivals : Nat := 0
  returned : List Packet := []
  handed : List (Fate × Packet) := []

namespace Traffic

/-- One call, with its result recorded. -/
def step (lm : Libm) (t : Traffic) : Op → Except Crash Traffic
  | .enque pkt d =>
      match t.queue.enque lm { pkt with uid := t.arrivals } d with
      | .error e => .error e
      | .ok (queue, out) =>
          .ok { t with queue, arrivals := t.arrivals + 1, handed := t.handed ++ out.toList }
  | .deque now =>
      let (out, queue) := t.queue.deque now
      .ok { t with queue, returned := t.returned ++ out.toList }

theorem step_enque (lm : Libm) (t : Traffic) (pkt : Packet) (d : Draw) :
    t.step lm (.enque pkt d) =
      match t.queue.enque lm { pkt with uid := t.arrivals } d with
      | .error e => .error e
      | .ok (queue, out) =>
          .ok { t with queue, arrivals := t.arrivals + 1, handed := t.handed ++ out.toList } := rfl

theorem step_deque (lm : Libm) (t : Traffic) (now : ℚ) :
    t.step lm (.deque now) = .ok
      { t with queue := (t.queue.deque now).2,
               returned := t.returned ++ (t.queue.deque now).1.toList } := rfl

def returnedUids (t : Traffic) : List Nat := t.returned.map Packet.uid

def handedUids (t : Traffic) : List Nat := t.handed.map fun x => x.2.uid

/-- The traffic as a ledger of uids. -/
def ledger (t : Traffic) : Ledger Nat :=
  ⟨List.range t.arrivals, t.queue.q.uids, t.returnedUids, t.handedUids⟩

/-- A departure releases the oldest held packet. -/
theorem ledger_deque (t : Traffic) (now : ℚ) :
    ledger { t with
      queue := (t.queue.deque now).2
      returned := t.returned ++ (t.queue.deque now).1.toList } = t.ledger.release := by
  cases hq : t.queue.q.packets with
  | nil =>
      have hd : t.queue.deque now =
          (none, { t.queue with idle := true, idletime := now }) := by
        rw [REDQueue.deque, PacketQueue.uids_deque_of_nil hq]
      simp only [hd, ledger, Ledger.release, PacketQueue.uids, hq, List.map_nil, returnedUids,
        Option.toList_none, List.append_nil]
      rfl
  | cons p rest =>
      have hd : t.queue.deque now =
          (some p, { t.queue with q := ⟨rest⟩, idle := false }) := by
        rw [REDQueue.deque, PacketQueue.deque_of_cons hq]
      simp only [hd, ledger, Ledger.release, PacketQueue.uids, hq, List.map_cons, returnedUids,
        Option.toList_some, List.map_append, List.map_nil]
      rfl

/-- An arrival is refused, accepted, or accepted while a held packet is evicted. -/
theorem ledger_enque {t : Traffic} {q : REDQueue} {out : Option (Fate × Packet)}
    (h : REDQueue.Moves t.queue.q.uids t.arrivals q.q.uids out) (hb : t.ledger.Balanced) :
    (ledger { t with
      queue := q
      arrivals := t.arrivals + 1
      handed := t.handed ++ out.toList }).Balanced := by
  have harr : List.range (t.arrivals + 1) = List.range t.arrivals ++ [t.arrivals] :=
    List.range_succ
  generalize hafter : q.q.uids = after at h
  -- one ledger operation, or two, for each way the packets move
  cases h with
  | refused fate pkt hu =>
      have heq : ledger { t with
          queue := q
          arrivals := t.arrivals + 1
          handed := t.handed ++ (some (fate, pkt)).toList } = t.ledger.refuse t.arrivals := by
        simp [ledger, Ledger.refuse, harr, hafter, returnedUids, handedUids, hu]
      rw [heq]
      exact hb.refuse t.arrivals
  | joined =>
      have heq : ledger { t with
          queue := q
          arrivals := t.arrivals + 1
          handed := t.handed ++ (none : Option (Fate × Packet)).toList } =
          t.ledger.accept t.arrivals := by
        simp [ledger, Ledger.accept, harr, hafter, returnedUids, handedUids]
      rw [heq]
      exact hb.accept t.arrivals
  | evicted fate victim hin =>
      have heq : ledger { t with
          queue := q
          arrivals := t.arrivals + 1
          handed := t.handed ++ (some (fate, victim)).toList } =
          (t.ledger.accept t.arrivals).evict victim.uid := by
        simp [ledger, Ledger.accept, Ledger.evict, harr, hafter, returnedUids, handedUids]
      rw [heq]
      exact (hb.accept t.arrivals).evict hin

/-- One call keeps the ledger balanced. -/
theorem step_balanced (lm : Libm) (t : Traffic) (op : Op) (t' : Traffic)
    (hb : t.ledger.Balanced) (h : t.step lm op = .ok t') : t'.ledger.Balanced := by
  cases op with
  | deque now =>
      simp only [step_deque, Except.ok.injEq] at h
      rw [← h, ledger_deque]
      exact hb.release
  | enque pkt d =>
      rw [step_enque] at h
      cases he : t.queue.enque lm { pkt with uid := t.arrivals } d with
      | error e =>
          rw [he] at h
          simp at h
      | ok r =>
          obtain ⟨q, out⟩ := r
          simp only [he, Except.ok.injEq] at h
          rw [← h]
          exact ledger_enque (REDQueue.enque_ok lm he).moves hb

/-- No call reaches the `abort()` of `PacketQueue::remove`. -/
theorem step_ne_abort (lm : Libm) (t : Traffic) (op : Op) : t.step lm op ≠ .error .abort := by
  cases op with
  | deque now => simp [step_deque]
  | enque pkt d =>
      rw [step_enque]
      cases he : t.queue.enque lm { pkt with uid := t.arrivals } d with
      | error e =>
          rw [((REDQueue.enque_error_iff lm).1 he).2]
          simp
      | ok r => simp

/-- Traffic of a queue in any state of its variables, from the empty queue on. -/
def start (s : REDQueue) : Traffic := { queue := { s with q := .empty } }

theorem start_balanced (s : REDQueue) : (start s).ledger.Balanced := Ledger.balanced_empty

end Traffic

open Traffic

/-- Every run of `enque` and `deque` calls on a RED queue from the empty queue: each
arrival is queued, returned or handed over, in one place and once, the returned
packets followed by the queued ones are in order of arrival, and the run does
not end in `abort()`. -/
theorem red_custody (lm : Libm) (s : REDQueue) (ops : List Op) :
    match runAll (Traffic.step lm) (start s) ops with
    | .ok t =>
        (∀ n < t.arrivals,
          t.queue.q.uids.count n + t.returnedUids.count n + t.handedUids.count n = 1) ∧
        (∀ n ≥ t.arrivals, n ∉ t.queue.q.uids ∧ n ∉ t.returnedUids ∧ n ∉ t.handedUids) ∧
        (t.returnedUids ++ t.queue.q.uids).Pairwise (· < ·)
    | .error e => e ≠ .abort := by
  cases hrun : runAll (Traffic.step lm) (start s) ops with
  | error e =>
      intro habort
      subst habort
      exact runAll_ne_error (fun _ => True) (fun _ _ _ _ _ => trivial)
        (fun t op _ => step_ne_abort lm t op) trivial hrun
  | ok t =>
      have hb : t.ledger.Balanced :=
        runAll_invariant (fun t => t.ledger.Balanced) (step_balanced lm) (start_balanced s) hrun
      refine ⟨?_, ?_, ?_⟩
      · intro n hn
        exact hb.count_eq_one List.nodup_range (List.mem_range.2 hn)
      · -- what is anywhere has arrived
        intro n hn
        have hnot : n ∉ t.queue.q.uids ++ t.returnedUids ++ t.handedUids := by
          intro hmem
          have harrived : n ∈ List.range t.arrivals := hb.conserved.mem_iff.2 hmem
          exact absurd (List.mem_range.1 harrived) (not_lt.2 hn)
        simpa [and_assoc] using hnot
      · exact List.pairwise_lt_range.sublist hb.ordered

end ComputerNetworking.Queue
