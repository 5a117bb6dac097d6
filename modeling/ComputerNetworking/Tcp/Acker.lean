import ComputerNetworking.Foundations.RingWindow

/-!
# The acker of a TCP sink

The acker notes in the ring `seen_` how many bytes of each segment have come in.
The slots behind the highest segment are cleared only when a higher one arrives,
and the ring is doubled until the new segment fits. `Holds a got` says that the
acker `a` stands for the byte counts `got` of the segments received so far;
`Holds.update` is that one segment is noted, and that what can be delivered are the
segments from the left edge of the window to the next gap.
-/

set_option autoImplicit false

namespace ComputerNetworking.Tcp

open ComputerNetworking.Foundations

/-- The fields of an acker; `wndmask_` is the mask of the ring. -/
structure Acker where
  next : ℕ := 0
  maxseen : ℕ := 0
  seen : SlotRing ℕ := .blank 63 0
  isDup : Bool := false

namespace Acker

/-- `wndmask_`. -/
def wndmask (a : Acker) : ℕ := a.seen.mask

/-- Increase the seen buffer: the window up to `maxseen_ + 1` is copied. -/
def resizeBuffers (a : Acker) (sz : ℕ) : Acker :=
  { a with seen := (SlotRing.blank (sz - 1) 0).write a.seen.get a.next (a.maxseen + 2 - a.next) }

/-- The loop that resizes the buffers until `seq` fits, for at most `fuel` turns. -/
def grow : ℕ → ℕ → Acker → Acker
  | 0, _, a => a
  | fuel + 1, seq, a =>
      if a.next + a.wndmask ≤ seq + 1 then grow fuel seq (a.resizeBuffers ((a.wndmask + 1) * 2))
      else a

/-- Record the highest packet: those between the old maximum and `seq` are unseen, and
so is the one immediately after it. -/
def record (a : Acker) (seq numBytes : ℕ) : Acker :=
  let cleared := a.seen.write (fun _ => 0) (a.maxseen + 1) (seq - (a.maxseen + 1))
  { a with maxseen := seq, seen := (cleared.set seq numBytes).set (seq + 1) 0 }

/-- The loop over the segments that can be delivered, each with its bytes. -/
def deliverable (seen : SlotRing ℕ) : ℕ → ℕ → List (ℕ × ℕ)
  | 0, _ => []
  | fuel + 1, next =>
      if seen.get next = 0 then []
      else (next, seen.get next) :: deliverable seen fuel (next + 1)

/-- Record a packet in the window, and move the left edge over what can be delivered. -/
def fillIn (a : Acker) (seq numBytes : ℕ) (justMarkedAsSeen : Bool) : Acker × List (ℕ × ℕ) :=
  let isDup := if a.seen.get seq ≠ 0 ∧ justMarkedAsSeen = false then true else a.isDup
  let seen := a.seen.set seq numBytes
  let delivered := deliverable seen (a.maxseen + 2 - a.next) a.next
  ({ a with isDup, seen, next := a.next + delivered.length }, delivered)

/-- `update` once the segment fits. -/
def takeIn (a : Acker) (seq numBytes : ℕ) : Acker × List (ℕ × ℕ) :=
  let justMarkedAsSeen := decide (a.maxseen < seq)
  let a := if a.maxseen < seq then a.record seq numBytes else a
  -- to the left edge of the receive window it must have been seen before
  let a := if seq < a.next then { a with isDup := true } else a
  if a.next ≤ seq ∧ seq ≤ a.maxseen then a.fillIn seq numBytes justMarkedAsSeen else (a, [])

/-- Update the receive window, and return what can be delivered to the application. -/
def update (a : Acker) (seq numBytes : ℕ) : Acker × List (ℕ × ℕ) :=
  { a.grow (seq + 1) seq with isDup := false }.takeIn seq numBytes

/-- The cumulative sequence number to put in the ack. -/
def seqno (a : Acker) : ℤ := a.next - 1

variable {a : Acker} {got : ℕ → ℕ} {seq numBytes : ℕ}

/-- The acker has noted `got i` bytes of each segment `i`. -/
structure Notes (a : Acker) (got : ℕ → ℕ) : Prop where
  sized : a.seen.Sized
  next_le : a.next ≤ a.maxseen + 1
  room : a.maxseen + 1 < a.next + a.wndmask
  window : a.seen.Window a.next (a.maxseen + 2) got
  delivered : ∀ i < a.next, got i ≠ 0
  unseen : ∀ i, a.maxseen < i → got i = 0

/-- It has delivered what it could. -/
structure Holds (a : Acker) (got : ℕ → ℕ) : Prop extends Notes a got where
  gap : got a.next = 0

theorem Notes.setDup (h : a.Notes got) (isDup : Bool) : Notes { a with isDup } got :=
  ⟨h.sized, h.next_le, h.room, h.window, h.delivered, h.unseen⟩

theorem holds_start : Holds {} fun _ => 0 := by
  refine ⟨⟨⟨6, rfl⟩, Nat.zero_le _, by decide, ?_, ?_, fun _ _ => rfl⟩, rfl⟩
  · intro i _ _
    rfl
  · intro i hi
    exact absurd hi (Nat.not_lt_zero i)

theorem resizeBuffers_wndmask (a : Acker) (sz : ℕ) : (a.resizeBuffers sz).wndmask = sz - 1 := by
  rw [wndmask, resizeBuffers, SlotRing.write_mask, SlotRing.blank_mask]

/-- Doubling the buffers keeps what is noted. -/
theorem Notes.resizeBuffers (h : a.Notes got) :
    (a.resizeBuffers ((a.wndmask + 1) * 2)).Notes got := by
  have hroom := h.room
  have hle := h.next_le
  have hmask := a.resizeBuffers_wndmask ((a.wndmask + 1) * 2)
  have hsized : ∃ k, (a.wndmask + 1) * 2 - 1 = 2 ^ k - 1 := by
    obtain ⟨k, hk⟩ := h.sized
    refine ⟨k + 1, ?_⟩
    rw [wndmask, hk, Nat.sub_add_cancel (Nat.two_pow_pos k), pow_succ]
  refine ⟨?_, hle, ?_, ?_, h.delivered, h.unseen⟩
  · obtain ⟨k, hk⟩ := hsized
    exact ⟨k, hmask.trans hk⟩
  · rw [hmask]
    show a.maxseen + 1 < a.next + ((a.wndmask + 1) * 2 - 1)
    omega
  · have hlen : a.next + (a.maxseen + 2 - a.next) = a.maxseen + 2 := by omega
    have hwindow := h.window
    rw [← hlen] at hwindow
    have hcopy := hwindow.copy (SlotRing.blank ((a.wndmask + 1) * 2 - 1) 0) hsized (by
      rw [SlotRing.blank_mask]
      omega)
    rw [hlen] at hcopy
    exact hcopy

/-- Growing keeps what is noted, and the edges. -/
theorem Notes.grow (h : a.Notes got) (fuel seq : ℕ) :
    (a.grow fuel seq).Notes got ∧ (a.grow fuel seq).next = a.next ∧
      (a.grow fuel seq).maxseen = a.maxseen := by
  induction fuel generalizing a with
  | zero => exact ⟨h, rfl, rfl⟩
  | succ fuel ih =>
      rw [Acker.grow]
      split
      · exact ih h.resizeBuffers
      · exact ⟨h, rfl, rfl⟩

/-- The turns are enough for `seq` to fit. -/
theorem lt_grow (fuel : ℕ) (h : seq + 1 < a.next + a.wndmask + fuel) :
    seq + 1 < (a.grow fuel seq).next + (a.grow fuel seq).wndmask := by
  induction fuel generalizing a with
  | zero => exact h
  | succ fuel ih =>
      rw [Acker.grow]
      split
      · apply ih
        rw [resizeBuffers_wndmask]
        show seq + 1 < a.next + ((a.wndmask + 1) * 2 - 1) + fuel
        omega
      · omega

theorem record_wndmask (a : Acker) (seq numBytes : ℕ) :
    (a.record seq numBytes).wndmask = a.wndmask := by
  rw [wndmask, record, SlotRing.set_mask, SlotRing.set_mask, SlotRing.write_mask, wndmask]

/-- Recording the highest packet. -/
theorem Notes.record (h : a.Notes got) (numBytes : ℕ) (hseq : a.maxseen < seq)
    (hfit : seq + 1 < a.next + a.wndmask) :
    (a.record seq numBytes).Notes (Function.update got seq numBytes) := by
  have hle := h.next_le
  have hmask : a.wndmask = a.seen.mask := rfl
  have hget : ∀ i, i ≠ seq → Function.update got seq numBytes i = got i := fun i hi =>
    Function.update_of_ne hi numBytes got
  -- up to the old maximum, then the unseen ones, then the packet and the one after it
  have hold : a.seen.Window a.next (a.maxseen + 1) (Function.update got seq numBytes) := by
    refine (h.window.mono le_rfl (Nat.le_succ _)).congr fun i _ hi => ?_
    exact (hget i (by omega)).symm
  have hclear := hold.write (g := fun _ => 0) (n := seq - (a.maxseen + 1)) h.sized (by omega) (by
    intro i hi₁ hi₂
    rw [hget i (by omega), h.unseen i hi₁])
  rw [Nat.add_sub_cancel' hseq] at hclear
  have hsized : (a.seen.write (fun _ => 0) (a.maxseen + 1) (seq - (a.maxseen + 1))).Sized := by
    rw [SlotRing.Sized, SlotRing.write_mask]
    exact h.sized
  have hpush := hclear.push hsized (by rw [SlotRing.write_mask]; omega)
  rw [Function.update_self] at hpush
  have hnext := hpush.push hsized (by rw [SlotRing.set_mask, SlotRing.write_mask]; omega)
  rw [hget (seq + 1) (by omega), h.unseen (seq + 1) (by omega)] at hnext
  refine ⟨hsized, ?_, ?_, hnext, ?_, ?_⟩
  · show a.next ≤ seq + 1
    omega
  · rw [record_wndmask]
    exact hfit
  · intro i hi
    have hi' : i < a.next := hi
    rw [hget i (by omega)]
    exact h.delivered i hi'
  · intro i hi
    have hi' : seq < i := hi
    rw [hget i (by omega)]
    exact h.unseen i (hseq.trans hi')

/-- The loop stops at the first segment that has not been received. -/
theorem deliverable_spec {seen : SlotRing ℕ} {next : ℕ} (fuel : ℕ)
    (h : seen.Window next (next + fuel) got) :
    ∃ n, deliverable seen fuel next = (List.range' next n).map (fun i => (i, got i)) ∧
      (∀ i ∈ List.range' next n, got i ≠ 0) ∧ (n = fuel ∨ got (next + n) = 0) := by
  induction fuel generalizing next with
  | zero => exact ⟨0, rfl, by simp, Or.inl rfl⟩
  | succ fuel ih =>
      have hget : seen.get next = got next := h next le_rfl (by omega)
      rw [deliverable]
      split
      · rename_i hzero
        exact ⟨0, rfl, by simp, Or.inr (hget.symm.trans hzero)⟩
      · rename_i hne
        have hrest : seen.Window (next + 1) (next + 1 + fuel) got :=
          h.mono (Nat.le_succ _) (by omega)
        obtain ⟨n, hn, hall, hstop⟩ := ih hrest
        refine ⟨n + 1, ?_, ?_, ?_⟩
        · rw [hn, List.range'_succ, List.map_cons, hget]
        · rw [List.range'_succ]
          rintro i hi
          rcases List.mem_cons.mp hi with rfl | hi
          · exact hget ▸ hne
          · exact hall i hi
        · rcases hstop with rfl | hstop
          · exact Or.inl rfl
          · rw [Nat.add_right_comm] at hstop
            exact Or.inr hstop

/-- Recording a packet in the window delivers up to the next gap. -/
theorem Notes.fillIn (h : a.Notes got) (numBytes : ℕ) (just : Bool) (hlo : a.next ≤ seq)
    (hhi : seq ≤ a.maxseen) :
    (a.fillIn seq numBytes just).1.Holds (Function.update got seq numBytes) ∧
      ∃ n, (a.fillIn seq numBytes just).1.next = a.next + n ∧
        (a.fillIn seq numBytes just).2 =
          (List.range' a.next n).map fun i => (i, Function.update got seq numBytes i) := by
  have hroom := h.room
  have hmask : a.wndmask = a.seen.mask := rfl
  have hwindow := h.window.set (b := numBytes) h.sized (by omega) hlo (by omega)
  have hunseen : ∀ i, a.maxseen < i → Function.update got seq numBytes i = 0 := by
    intro i hi
    rw [Function.update_of_ne (by omega)]
    exact h.unseen i hi
  have hlen : a.next + (a.maxseen + 2 - a.next) = a.maxseen + 2 := by omega
  obtain ⟨n, hn, hall, hstop⟩ := deliverable_spec (a.maxseen + 2 - a.next) (hlen ▸ hwindow)
  -- the slot after the highest packet is clear, so the loop stops before it
  have hle : a.next + n ≤ a.maxseen + 1 := by
    by_contra hlt
    refine hall (a.maxseen + 1) ?_ (hunseen _ (Nat.lt_succ_self _))
    rw [List.mem_range'_1]
    omega
  have hgap : Function.update got seq numBytes (a.next + n) = 0 := by
    rcases hstop with rfl | hstop
    · omega
    · exact hstop
  have hlength : (deliverable (a.seen.set seq numBytes) (a.maxseen + 2 - a.next) a.next).length =
      n := by
    rw [hn, List.length_map, List.length_range']
  have hnext : (a.fillIn seq numBytes just).1.next = a.next + n := by
    rw [Acker.fillIn, hlength]
  refine ⟨⟨⟨h.sized, ?_, ?_, ?_, ?_, hunseen⟩, ?_⟩, n, hnext, hn⟩
  · rw [hnext]
    exact hle
  · rw [hnext]
    show a.maxseen + 1 < a.next + n + a.wndmask
    omega
  · rw [hnext]
    exact hwindow.mono (Nat.le_add_right _ _) le_rfl
  · intro i hi
    rw [hnext] at hi
    by_cases hi' : i < a.next
    · rw [Function.update_of_ne (by omega)]
      exact h.delivered i hi'
    · refine hall i ?_
      rw [List.mem_range'_1]
      omega
  · rw [hnext]
    exact hgap

/-- What is noted after a segment of `numBytes` bytes came in: a segment that was delivered
is left as it is. -/
def note (a : Acker) (got : ℕ → ℕ) (seq numBytes : ℕ) : ℕ → ℕ :=
  if seq < a.next then got else Function.update got seq numBytes

theorem fillIn_isDup (a : Acker) (seq numBytes : ℕ) (just : Bool) :
    (a.fillIn seq numBytes just).1.isDup = true ↔
      (a.seen.get seq ≠ 0 ∧ just = false) ∨ a.isDup = true := by
  show (if a.seen.get seq ≠ 0 ∧ just = false then true else a.isDup) = true ↔ _
  split
  · rename_i h
    exact iff_of_true rfl (Or.inl h)
  · rename_i h
    exact (or_iff_right h).symm

theorem takeIn_of_delivered (hseq : seq < a.next) (hle : seq ≤ a.maxseen) :
    a.takeIn seq numBytes = ({ a with isDup := true }, []) := by
  have hout : ¬(a.next ≤ seq ∧ seq ≤ a.maxseen) := fun h => Nat.not_le.mpr hseq h.1
  simp only [takeIn, if_neg (Nat.not_lt.mpr hle), if_pos hseq, if_neg hout]

theorem takeIn_of_within (hlo : a.next ≤ seq) (hhi : seq ≤ a.maxseen) :
    a.takeIn seq numBytes = a.fillIn seq numBytes false := by
  have hmarked : ¬a.maxseen < seq := Nat.not_lt.mpr hhi
  simp only [takeIn, if_neg hmarked, if_neg (Nat.not_lt.mpr hlo), if_pos (And.intro hlo hhi),
    decide_eq_false hmarked]

theorem takeIn_of_highest (hlo : a.next ≤ seq) (hseq : a.maxseen < seq) :
    a.takeIn seq numBytes = (a.record seq numBytes).fillIn seq numBytes true := by
  have hlo' : ¬seq < (a.record seq numBytes).next := Nat.not_lt.mpr hlo
  have hin : (a.record seq numBytes).next ≤ seq ∧ seq ≤ (a.record seq numBytes).maxseen :=
    ⟨hlo, le_rfl⟩
  simp only [takeIn, if_pos hseq, if_neg hlo', if_pos hin, decide_eq_true hseq]

/-- The segment fits; it was not marked as a duplicate. -/
theorem Notes.takeIn (h : a.Notes got) (numBytes : ℕ) (hgap : got a.next = 0)
    (hfit : seq + 1 < a.next + a.wndmask) (hdup : a.isDup = false) :
    (a.takeIn seq numBytes).1.Holds (a.note got seq numBytes) ∧
      (∃ n, (a.takeIn seq numBytes).1.next = a.next + n ∧
        (a.takeIn seq numBytes).2 =
          (List.range' a.next n).map fun i => (i, a.note got seq numBytes i)) ∧
      ((a.takeIn seq numBytes).1.isDup = true ↔ got seq ≠ 0) := by
  have hle := h.next_le
  rw [note]
  by_cases hseq : seq < a.next
  · rw [takeIn_of_delivered hseq (by omega), if_pos hseq]
    exact ⟨⟨h.setDup true, hgap⟩, ⟨0, rfl, rfl⟩, iff_of_true rfl (h.delivered seq hseq)⟩
  · have hlo : a.next ≤ seq := Nat.not_lt.mp hseq
    rw [if_neg hseq]
    by_cases hmarked : a.maxseen < seq
    · rw [takeIn_of_highest hlo hmarked]
      -- what is recorded is found in the window again
      obtain ⟨hholds, hdelivered⟩ :=
        (h.record numBytes hmarked hfit).fillIn numBytes true hlo le_rfl
      rw [Function.update_idem] at hholds hdelivered
      refine ⟨hholds, hdelivered, ?_⟩
      rw [fillIn_isDup, h.unseen seq hmarked]
      simp [Acker.record, hdup]
    · have hhi : seq ≤ a.maxseen := Nat.not_lt.mp hmarked
      rw [takeIn_of_within hlo hhi]
      obtain ⟨hholds, hdelivered⟩ := h.fillIn numBytes false hlo hhi
      refine ⟨hholds, hdelivered, ?_⟩
      rw [fillIn_isDup, h.window seq hlo (by omega)]
      simp [hdup]

/-- One segment is noted, the segments from the left edge to the next gap are delivered, and
the segment is a duplicate if it had been received before. -/
theorem Holds.update (h : a.Holds got) (seq numBytes : ℕ) :
    (a.update seq numBytes).1.Holds (a.note got seq numBytes) ∧
      (∃ n, (a.update seq numBytes).1.next = a.next + n ∧
        (a.update seq numBytes).2 =
          (List.range' a.next n).map fun i => (i, a.note got seq numBytes i)) ∧
      ((a.update seq numBytes).1.isDup = true ↔ got seq ≠ 0) := by
  have hroom := h.room
  have hle := h.next_le
  obtain ⟨hgrown, hnext, -⟩ := h.toNotes.grow (seq + 1) seq
  have hfit := lt_grow (a := a) (seq + 1) (show seq + 1 < _ by omega)
  have hnote : ({ a.grow (seq + 1) seq with isDup := false } : Acker).note got seq numBytes =
      a.note got seq numBytes := by
    show (if seq < (a.grow (seq + 1) seq).next then got else _) = _
    rw [hnext]
    rfl
  obtain ⟨hholds, ⟨n, hn, hds⟩, hdup⟩ :=
    (hgrown.setDup false).takeIn numBytes (hnext ▸ h.gap) hfit rfl
  rw [hnote] at hholds hds
  refine ⟨hholds, ⟨n, ?_, ?_⟩, hdup⟩
  · exact hn.trans (congrArg (· + n) hnext)
  · exact hnext ▸ hds

end Acker

end ComputerNetworking.Tcp
