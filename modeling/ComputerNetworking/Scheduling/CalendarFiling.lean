import ComputerNetworking.Scheduling.Calendar

/-!
# How the calendar files its events

`Filed c S`: every bucket of `c` lists the events of `S` that fall on it, and the
counts are the numbers of distinct times. Filing, removing and moving events into
new buckets keep it (`Filed.file`, `Filed.take`, `Filed.rebuild`), and the
assertion of `newwidth` holds in it.
-/

set_option autoImplicit false

namespace ComputerNetworking.Scheduling

open ComputerNetworking.Foundations

namespace CalendarScheduler

/-- The events of `S` that fall on bucket `i`. -/
def slot (c : CalendarScheduler) (S : Finset Event) (i : ℕ) : Finset Event :=
  S.filter fun x => c.hash x.time = i

/-- The calendar holds the events of `S`, each in the bucket of its time, and
counts the distinct times. -/
structure Filed (c : CalendarScheduler) (S : Finset Event) : Prop where
  bucket : ∀ i, Lists (c.buckets i).list (c.slot S i)
  count : ∀ i, (c.buckets i).count = values Event.time (c.slot S i)
  statQsize_eq : c.statQsize = values Event.time S
  qsize_eq : c.qsize = S.card

variable {c : CalendarScheduler} {S : Finset Event} {e x : Event} {i : ℕ}

theorem mem_slot : x ∈ c.slot S i ↔ x ∈ S ∧ c.hash x.time = i := Finset.mem_filter

theorem slot_insert_self : c.slot (Insert.insert e S) (c.hash e.time) =
    Insert.insert e (c.slot S (c.hash e.time)) := by
  rw [slot, Finset.filter_insert, if_pos rfl]
  rfl

theorem slot_insert_of_ne (h : i ≠ c.hash e.time) : c.slot (Insert.insert e S) i = c.slot S i := by
  rw [slot, Finset.filter_insert, if_neg h.symm]
  rfl

theorem slot_erase_self : c.slot (S.erase e) (c.hash e.time) =
    (c.slot S (c.hash e.time)).erase e := by
  ext x
  simp only [mem_slot, Finset.mem_erase, and_assoc]

theorem slot_erase_of_ne (h : i ≠ c.hash e.time) : c.slot (S.erase e) i = c.slot S i := by
  ext x
  simp only [mem_slot, Finset.mem_erase]
  constructor
  · rintro ⟨⟨-, hx⟩, hi⟩
    exact ⟨hx, hi⟩
  · rintro ⟨hx, rfl⟩
    refine ⟨⟨?_, hx⟩, rfl⟩
    rintro rfl
    exact h rfl

/-- Events of one time fall on one bucket. -/
theorem exists_slot_iff : (∃ x ∈ c.slot S (c.hash e.time), x.time = e.time) ↔
    ∃ x ∈ S, x.time = e.time := by
  apply exists_congr
  intro x
  rw [mem_slot, and_right_comm]
  constructor
  · rintro ⟨h, -⟩
    exact h
  · rintro ⟨hx, ht⟩
    exact ⟨⟨hx, ht⟩, by rw [ht]⟩

theorem shares_slot_iff : Shares (c.slot S (c.hash e.time)) e ↔ Shares S e := by
  rw [Shares, ← slot_erase_self, exists_slot_iff]
  rfl

/-- What an event adds to the number of distinct times. -/
theorem values_insert_eq {unique : Bool} (hu : unique = true ↔ ¬∃ x ∈ S, x.time = e.time) :
    (values Event.time (Insert.insert e S) : ℤ) =
      values Event.time S + if unique = true then 1 else 0 := by
  by_cases h : ∃ x ∈ S, x.time = e.time
  · rw [if_neg fun hx => hu.mp hx h, values_insert_of_mem h, add_zero]
  · rw [if_pos (hu.mpr h), values_insert_of_not_mem h, Nat.cast_add, Nat.cast_one]

/-- What an event takes from the number of distinct times. -/
theorem values_erase_eq {alone : Bool} (he : e ∈ S) (ha : alone = true ↔ ¬Shares S e) :
    (values Event.time (S.erase e) : ℤ) =
      values Event.time S - if alone = true then 1 else 0 := by
  by_cases h : Shares S e
  · rw [if_neg fun hx => ha.mp hx h, values_erase_of_mem he h, sub_zero]
  · rw [if_pos (ha.mpr h), ← values_erase_of_not_mem he h, Nat.cast_add, Nat.cast_one,
      add_sub_cancel_right]

theorem Filed.congr {c' : CalendarScheduler} (h : Filed c S) (hh : c'.hash = c.hash)
    (hb : c'.buckets = c.buckets) (hs : c'.statQsize = c.statQsize) (hq : c'.qsize = c.qsize) :
    Filed c' S := by
  have hslot : c'.slot = c.slot := by
    funext S i
    rw [slot, slot, hh]
  constructor
  · rw [hb, hslot]
    exact h.bucket
  · rw [hb, hslot]
    exact h.count
  · rw [hs, h.statQsize_eq]
  · rw [hq, h.qsize_eq]

/-- The bucket of `e` gets a ring with `e` in it. -/
theorem Filed.place (h : Filed c S) (he : e ∉ S) {list : List Event} {unique : Bool}
    (hl : Lists list (Insert.insert e (c.slot S (c.hash e.time))))
    (hu : unique = true ↔ ¬∃ x ∈ S, x.time = e.time) :
    Filed (c.place (c.hash e.time) list unique) (Insert.insert e S) := by
  constructor
  · intro i
    by_cases hi : i = c.hash e.time
    · subst hi
      simp only [CalendarScheduler.place, Function.update_self]
      rwa [← slot_insert_self] at hl
    · simp only [CalendarScheduler.place, Function.update_of_ne hi]
      have hb := h.bucket i
      rwa [← slot_insert_of_ne hi] at hb
  · intro i
    by_cases hi : i = c.hash e.time
    · subst hi
      simp only [CalendarScheduler.place, Function.update_self]
      rw [h.count, ← values_insert_eq (hu.trans (not_congr exists_slot_iff.symm)),
        ← slot_insert_self]
      rfl
    · simp only [CalendarScheduler.place, Function.update_of_ne hi]
      rw [h.count, ← slot_insert_of_ne hi]
      rfl
  · show c.statQsize + _ = _
    rw [h.statQsize_eq, values_insert_eq hu]
  · show c.qsize + 1 = _
    rw [h.qsize_eq, Finset.card_insert_of_notMem he, Nat.cast_add, Nat.cast_one]

/-- The bucket of `e` gets its ring without `e`. -/
theorem Filed.remove (h : Filed c S) (he : e ∈ S) {list : List Event} {alone : Bool}
    (hl : Lists list ((c.slot S (c.hash e.time)).erase e))
    (ha : alone = true ↔ ¬Shares S e) :
    Filed (c.remove (c.hash e.time) list alone) (S.erase e) := by
  constructor
  · intro i
    by_cases hi : i = c.hash e.time
    · subst hi
      simp only [CalendarScheduler.remove, Function.update_self]
      rwa [← slot_erase_self] at hl
    · simp only [CalendarScheduler.remove, Function.update_of_ne hi]
      have hb := h.bucket i
      rwa [← slot_erase_of_ne hi] at hb
  · intro i
    by_cases hi : i = c.hash e.time
    · subst hi
      have hslot : e ∈ c.slot S (c.hash e.time) := mem_slot.mpr ⟨he, rfl⟩
      simp only [CalendarScheduler.remove, Function.update_self]
      rw [h.count, ← values_erase_eq hslot (ha.trans (not_congr shares_slot_iff.symm)),
        ← slot_erase_self]
      rfl
    · simp only [CalendarScheduler.remove, Function.update_of_ne hi]
      rw [h.count, ← slot_erase_of_ne hi]
      rfl
  · show c.statQsize - _ = _
    rw [h.statQsize_eq, values_erase_eq he ha]
  · show c.qsize - 1 = _
    have hcard := Finset.card_erase_add_one he
    rw [h.qsize_eq]
    omega

theorem shares_insert_iff (he : e ∉ S) :
    Shares (Insert.insert e S) e ↔ ∃ x ∈ S, x.time = e.time := by
  rw [Shares, Finset.erase_insert he]

/-- No event of an empty bucket has the time of `e`. -/
theorem Filed.unique_of_nil (h : Filed c S) (hl : (c.buckets (c.hash e.time)).list = []) :
    Lists [e] (Insert.insert e (c.slot S (c.hash e.time))) ∧ ¬∃ x ∈ S, x.time = e.time := by
  have hb := h.bucket (c.hash e.time)
  rw [hl] at hb
  rw [← exists_slot_iff (c := c), hb.eq_empty]
  refine ⟨Lists.singleton e, ?_⟩
  rintro ⟨x, hx, -⟩
  cases hx

/-- The walk of `insert2` from the head, also where it is skipped. -/
theorem insert2_ring {head : Event} {rest : List Event}
    (hl : (head :: rest).Pairwise (· < ·)) :
    (if e.time > (prev (head :: rest) head).time then (head :: rest) ++ [e]
      else (head :: rest).takeWhile (fun before => e.time > before.time) ++
        e :: (head :: rest).dropWhile (fun before => e.time > before.time)) =
    (head :: rest).takeWhile (fun before => e.time > before.time) ++
      e :: (head :: rest).dropWhile (fun before => e.time > before.time) := by
  split
  · rename_i hlast
    -- all the events are earlier than `e`, as the last one is
    have hall : ∀ x ∈ head :: rest, decide (e.time > x.time) = true := by
      intro x hx
      apply decide_eq_true
      refine lt_of_le_of_lt ?_ hlast
      rw [prev_head]
      obtain hnil | ⟨l, m, hlm⟩ := List.eq_nil_or_concat (head :: rest)
      · cases hnil
      · rw [hlm, List.concat_eq_append] at hl hx ⊢
        rw [List.getLastD_concat]
        exact time_le_last hl hx
    rw [List.takeWhile_eq_self_iff.mpr hall, List.dropWhile_eq_nil_iff.mpr hall]
  · rfl

/-- What stands behind the walk of `insert2` is not earlier than the event. -/
theorem le_of_mem_dropWhile {events : List Event} (hsorted : events.Pairwise (· < ·)) {b : Event}
    (hb : b ∈ events.dropWhile fun before => decide (e.time > before.time)) :
    e.time ≤ b.time := by
  have hearlier : ∀ x y : Event, x < y → decide (e.time > y.time) = true →
      decide (e.time > x.time) = true := by
    intro x y hxy hy
    exact decide_eq_true ((Event.time_le_of_le hxy.le).trans_lt (of_decide_eq_true hy))
  exact not_lt.mp (of_decide_eq_false (not_of_mem_dropWhile hearlier hsorted hb))

/-- What stands before the walk of `insert` is not later than the event. -/
theorem le_of_mem_rdropWhile {events : List Event} (hsorted : events.Pairwise (· < ·)) {a : Event}
    (ha : a ∈ events.rdropWhile fun after => decide (e.time < after.time)) :
    a.time ≤ e.time := by
  have hlater : ∀ x y : Event, x < y → decide (e.time < x.time) = true →
      decide (e.time < y.time) = true := by
    intro x y hxy hx
    exact decide_eq_true ((of_decide_eq_true hx).trans_le (Event.time_le_of_le hxy.le))
  exact not_lt.mp (of_decide_eq_false (not_of_mem_rdropWhile hlater hsorted ha))

/-- `insert2` files an event that was scheduled before those of its time. -/
theorem Filed.insert2 (h : Filed c S) (hold : ∀ x ∈ S, x.time = e.time → e.uid < x.uid) :
    Filed (c.insert2 e) (Insert.insert e S) := by
  have he : e ∉ S := fun hmem => (hold e hmem rfl).false
  have heslot : e ∉ c.slot S (c.hash e.time) := fun hmem => he (mem_slot.mp hmem).1
  have hb := h.bucket (c.hash e.time)
  rw [CalendarScheduler.insert2]
  cases hl : (c.buckets (c.hash e.time)).list with
  | nil =>
      obtain ⟨hlist, hu⟩ := h.unique_of_nil hl
      exact h.place he hlist (iff_of_true rfl hu)
  | cons head rest =>
      rw [hl] at hb
      simp only [insert2_ring hb.sorted]
      have hp : ∀ a ∈ (head :: rest).takeWhile (fun before => decide (e.time > before.time)),
          a.time < e.time := by
        intro a ha
        have hq := List.mem_takeWhile_imp ha
        exact of_decide_eq_true hq
      have hs : ∀ b ∈ (head :: rest).dropWhile (fun before => decide (e.time > before.time)),
          e < b := by
        intro b hb'
        have hbS := (mem_slot.mp ((hb.mem_iff b).mp ((List.dropWhile_suffix _).subset hb'))).1
        rcases (le_of_mem_dropWhile hb.sorted hb').lt_or_eq with hlt | heq
        · exact Event.lt_iff.mpr (Or.inl hlt)
        · exact Event.lt_iff.mpr (Or.inr ⟨heq, hold b hbS heq.symm⟩)
      have hlists := Lists.splice (by rwa [List.takeWhile_append_dropWhile])
        (fun a ha => Event.lt_iff.mpr (Or.inl (hp a ha))) hs
      apply h.place he hlists
      rw [decide_eq_true_iff, unshared_iff hlists ?_ hp, shares_insert_iff heslot,
        exists_slot_iff]
      intro hnil
      have hlen := congrArg List.length (List.takeWhile_append_dropWhile
        (p := fun before => decide (e.time > before.time)) (l := head :: rest))
      rw [List.append_eq_nil_iff] at hnil
      rw [hnil.1, hnil.2] at hlen
      simp at hlen

/-- The number of searches does not matter to what is filed. -/
theorem Filed.place_searched (h : Filed c S) (searches : ℕ) (he : e ∉ S) {list : List Event}
    {unique : Bool} (hl : Lists list (Insert.insert e (c.slot S (c.hash e.time))))
    (hu : unique = true ↔ ¬∃ x ∈ S, x.time = e.time) :
    Filed ({ c with insertSearch := searches }.place (c.hash e.time) list unique)
      (Insert.insert e S) :=
  (h.place he hl hu).congr rfl rfl rfl rfl

/-- `file` files the event scheduled last. -/
theorem Filed.file (h : Filed c S) (hnew : ∀ x ∈ S, x.uid < e.uid) :
    Filed (c.file e) (Insert.insert e S) := by
  have he : e ∉ S := fun hmem => (hnew e hmem).false
  have hb := h.bucket (c.hash e.time)
  rw [CalendarScheduler.file]
  cases hl : (c.buckets (c.hash e.time)).list with
  | nil =>
      obtain ⟨hlist, hu⟩ := h.unique_of_nil hl
      exact h.place he hlist (iff_of_true rfl hu)
  | cons head rest =>
      rw [hl] at hb
      by_cases hhead : e.time < head.time
      · simp only [if_pos hhead]
        have hbefore : ∀ b ∈ head :: rest, e.time < b.time := by
          intro b hb'
          exact hhead.trans_le (Event.time_le_of_le (hb.head_le ((hb.mem_iff b).mp hb')))
        have hlists : Lists ([] ++ e :: head :: rest) _ := Lists.splice hb
          (fun a ha => by cases ha) fun b hb' => Event.lt_iff.mpr (Or.inl (hbefore b hb'))
        apply h.place_searched _ he hlists
        rw [← exists_slot_iff (c := c)]
        apply iff_of_true rfl
        rintro ⟨x, hx, hxt⟩
        exact (hbefore x ((hb.mem_iff x).mpr hx)).ne' hxt
      · simp only [if_neg hhead]
        have hlater : ∀ b ∈ (head :: rest).rtakeWhile (fun a => decide (e.time < a.time)),
            e.time < b.time := by
          intro b hb'
          have hq := List.mem_rtakeWhile_imp hb'
          exact of_decide_eq_true hq
        have hupto : ∀ a ∈ (head :: rest).rdropWhile (fun a => decide (e.time < a.time)),
            a.time ≤ e.time := fun a ha => le_of_mem_rdropWhile hb.sorted ha
        have hsplit := rdropWhile_append_rtakeWhile (fun a => decide (e.time < a.time))
          (head :: rest)
        generalize (head :: rest).rtakeWhile (fun a => decide (e.time < a.time)) = later at *
        generalize (head :: rest).rdropWhile (fun a => decide (e.time < a.time)) = upto at *
        rw [← hsplit] at hb
        have hbefore : ∀ a ∈ upto, a < e := by
          intro a ha
          have haS := (mem_slot.mp ((hb.mem_iff a).mp (List.mem_append_left later ha))).1
          rcases (hupto a ha).lt_or_eq with hlt | heq
          · exact Event.lt_iff.mpr (Or.inl hlt)
          · exact Event.lt_iff.mpr (Or.inr ⟨heq, hnew a haS⟩)
        have hlists := Lists.splice hb hbefore
          fun b hb' => Event.lt_iff.mpr (Or.inl (hlater b hb'))
        apply h.place_searched _ he hlists
        rw [← exists_slot_iff (c := c)]
        obtain rfl | ⟨upto, after, rfl⟩ := List.eq_nil_or_concat upto
        · -- the first event is not later than `e`
          rw [List.nil_append] at hsplit
          exact absurd (hlater head (hsplit ▸ List.mem_cons_self)) hhead
        · rw [List.concat_eq_append] at hb hupto ⊢
          rw [List.getLast?_concat, Option.any_some, decide_eq_true_iff]
          constructor
          · rintro hlt ⟨x, hx, hxt⟩
            rcases List.mem_append.mp ((hb.mem_iff x).mpr hx) with hx | hx
            · have hle := time_le_last (List.pairwise_append.mp hb.sorted).1 hx
              exact (hle.trans_lt hlt).ne hxt
            · exact (hlater x hx).ne' hxt
          · intro hnone
            refine lt_of_le_of_ne (hupto after (by simp)) fun heq => ?_
            exact hnone ⟨after, (hb.mem_iff after).mp (by simp), heq⟩

/-- Events moved one by one, each in front of those of its time. -/
theorem Filed.foldl_insert2 {events : List Event} (h : Filed c S)
    (horder : events.Pairwise fun a b => a.time = b.time → b.uid < a.uid)
    (hold : ∀ b ∈ events, ∀ x ∈ S, x.time = b.time → b.uid < x.uid) :
    Filed (events.foldl CalendarScheduler.insert2 c) (S ∪ events.toFinset) := by
  induction events generalizing c S with
  | nil =>
      rw [List.toFinset_nil, Finset.union_empty]
      exact h
  | cons e events ih =>
      obtain ⟨he, horder⟩ := List.pairwise_cons.mp horder
      have hstep : Filed (c.insert2 e) (Insert.insert e S) :=
        h.insert2 (hold e List.mem_cons_self)
      rw [List.foldl_cons, List.toFinset_cons, Finset.union_insert, ← Finset.insert_union]
      apply ih hstep horder
      intro b hb x hx hxt
      rcases Finset.mem_insert.mp hx with rfl | hx
      · exact he b hb hxt
      · exact hold b (List.mem_cons_of_mem e hb) x hx hxt

theorem filed_reinit (c : CalendarScheduler) (nbuck : ℕ) (bwidth start : ℚ) :
    Filed (c.reinit nbuck bwidth start) ∅ := by
  constructor
  · intro i
    rw [slot, Finset.filter_empty]
    exact Lists.nil
  · intro i
    rw [slot, Finset.filter_empty, values_empty]
    rfl
  · rw [values_empty]
    rfl
  · rfl

/-- The events of all the buckets, each bucket from its end. -/
theorem mem_events (h : Filed c S) (hlt : ∀ x ∈ S, c.hash x.time < c.nbuckets) :
    x ∈ (List.range c.nbuckets).flatMap (fun i => (c.buckets i).list.reverse) ↔ x ∈ S := by
  rw [List.mem_flatMap]
  constructor
  · rintro ⟨i, -, hx⟩
    exact (mem_slot.mp (((h.bucket i).mem_iff x).mp (List.mem_reverse.mp hx))).1
  · intro hx
    refine ⟨c.hash x.time, List.mem_range.mpr (hlt x hx), ?_⟩
    rw [List.mem_reverse, (h.bucket _).mem_iff]
    exact mem_slot.mpr ⟨hx, rfl⟩

theorem events_pairwise (h : Filed c S) :
    ((List.range c.nbuckets).flatMap fun i => (c.buckets i).list.reverse).Pairwise
      fun a b => a.time = b.time → b.uid < a.uid := by
  apply List.pairwise_flatMap.mpr
  constructor
  · intro i _
    apply List.pairwise_reverse.mpr
    apply (h.bucket i).sorted.imp
    intro b a hba ht
    rcases Event.lt_iff.mp hba with hlt | ⟨-, hlt⟩
    · exact absurd ht hlt.ne'
    · exact hlt
  · apply List.pairwise_lt_range.imp
    intro i j hij a ha b hb ht
    -- events of one time fall on one bucket
    have hai := mem_slot.mp (((h.bucket i).mem_iff a).mp (List.mem_reverse.mp ha))
    have hbj := mem_slot.mp (((h.bucket j).mem_iff b).mp (List.mem_reverse.mp hb))
    rw [← hai.2, ← hbj.2, ht] at hij
    exact absurd hij (lt_irrefl _)

/-- Moving all events into new buckets loses none and keeps their order. -/
theorem Filed.rebuild (h : Filed c S) (hlt : ∀ x ∈ S, c.hash x.time < c.nbuckets)
    (newsize : ℕ) (bwidth start : ℚ) : Filed (c.rebuild newsize bwidth start) S := by
  have hmoved := (filed_reinit c newsize bwidth start).foldl_insert2 (events_pairwise h)
    fun b _ x hx => by cases hx
  have hall : ∅ ∪ ((List.range c.nbuckets).flatMap
      fun i => (c.buckets i).list.reverse).toFinset = S := by
    ext x
    rw [Finset.empty_union, List.mem_toFinset, mem_events h hlt]
  rw [hall] at hmoved
  exact hmoved.congr rfl rfl rfl rfl

/-- Events that do not all lie at one time: the last is later than the first. -/
theorem first_lt_last {head : Event} {rest : List Event} {T : Finset Event}
    (h : Lists (head :: rest) T) (hmany : 1 < values Event.time T) :
    0 < (prev (head :: rest) head).time - head.time := by
  rw [prev_head]
  obtain hnil | ⟨l, m, hlm⟩ := List.eq_nil_or_concat (head :: rest)
  · cases hnil
  · rw [List.concat_eq_append] at hlm
    rw [hlm, List.getLastD_concat]
    by_contra hle
    have hmh : m.time ≤ head.time := by linarith
    refine absurd (values_le_one (f := Event.time) (b := head.time) fun x hx => ?_)
      (not_le.mpr hmany)
    have hxl := (h.mem_iff x).mpr hx
    rw [hlm] at hxl
    have hsorted := h.sorted
    rw [hlm] at hsorted
    exact le_antisymm ((time_le_last hsorted hxl).trans hmh) (Event.time_le_of_le (h.head_le hx))

/-- `newwidth` returns: the samples it takes do not all lie at one time. -/
theorem Filed.newwidth (h : Filed c S) (fresh : ℚ) :
    ∃ n, c.newwidth fresh = .ok (fresh, { c with timeToNewwidth := n }) := by
  refine ⟨if c.adjustNewWidthInterval = 0 then c.timeToNewwidth else c.adjustNewWidthInterval, ?_⟩
  have hsame : (if c.adjustNewWidthInterval = 0 then c
      else { c with timeToNewwidth := c.adjustNewWidthInterval }) =
      { c with timeToNewwidth := if c.adjustNewWidthInterval = 0 then c.timeToNewwidth
                                 else c.adjustNewWidthInterval } := by
    split <;> rfl
  rw [CalendarScheduler.newwidth]
  simp only [hsame]
  generalize maxBucket _ = m
  split
  · rfl
  · split
    · rfl
    · rename_i hmany
      rw [h.count, not_le] at hmany
      cases hl : (c.buckets m).list with
      | nil =>
          -- an empty bucket has no samples
          have hb := h.bucket m
          rw [hl] at hb
          rw [hb.eq_empty, values_empty] at hmany
          cases hmany
      | cons head rest =>
          have hb := h.bucket m
          rw [hl] at hb
          have hone : (1 : ℤ) < 4 := by norm_num
          exact if_pos (first_lt_last hb (by exact_mod_cast hone.trans hmany))

end CalendarScheduler

end ComputerNetworking.Scheduling
