import Mathlib.Tactic

/-!
# The DSDV routing table

`rtable_ent` and `RoutingTable` of `dsdv/rtable.h` and `dsdv/rtable.cc`. The table
is an array of entries in the order of their destinations. Addresses, metrics
and sequence numbers are unbounded numbers, times are exact. An event is there
or not; of a pending trigger event the time is kept.
-/

set_option autoImplicit false

namespace ComputerNetworking.Dsdv

/-- `nsaddr_t`. -/
abbrev Addr := ℕ

/-- The metric of a destination that is not reached. -/
def BIG : ℕ := 250

/-- A data packet, as far as the agent reads it. -/
structure Packet where
  src : Addr
  dst : Addr
  ttl : ℤ
  numForwards : ℕ
deriving DecidableEq, Repr

/-- `rtable_ent`; the defaults are those of `bzero`. -/
structure RtableEnt where
  dst : Addr := 0
  hop : Addr := 0
  metric : ℕ := 0
  seqnum : ℕ := 0
  advertiseOkAt : ℚ := 0
  advertSeqnum : Bool := false
  advertMetric : Bool := false
  triggerEvent : Option ℚ := none
  lastAdvertisedMetric : ℕ := 0
  changedAt : ℚ := 0
  newSeqnumAt : ℚ := 0
  wst : ℚ := 0
  timeoutEvent : Bool := false
  /-- packets queued for `dst` -/
  q : Option (List Packet) := none

/-- How a call ends that does not return. -/
inductive Failure where
  | assertion
  | abort
  | endless
deriving DecidableEq, Repr

/-- The entries, by ascending destination. -/
abbrev RoutingTable := List RtableEnt

namespace RoutingTable

/-- `RoutingTable::GetEntry`. -/
def getEntry (t : RoutingTable) (dest : Addr) : Option RtableEnt := t.find? (·.dst = dest)

/-- The array that `AddEntry` leaves: `ent` in the place of the entry of its
destination, or in front of the first one of a larger destination. -/
def put (ent : RtableEnt) : RoutingTable → RoutingTable
  | [] => [ent]
  | e :: t =>
      if e.dst = ent.dst then ent :: t
      else if ent.dst < e.dst then ent :: e :: t
      else e :: put ent t

/-- `RoutingTable::AddEntry`. -/
def addEntry (t : RoutingTable) (ent : RtableEnt) : Except Failure RoutingTable :=
  if ent.metric ≤ BIG then .ok (put ent t) else .error .assertion

/-- Writes through the pointer that `getEntry` returns for `dest`. -/
def modify (t : RoutingTable) (dest : Addr) (f : RtableEnt → RtableEnt) : RoutingTable :=
  t.map fun e => if e.dst = dest then f e else e

/-- The table is sorted by destination, as the binary search of the source needs it. -/
def Sorted (t : RoutingTable) : Prop := t.Pairwise fun a b => a.dst < b.dst

variable {t : RoutingTable} {e ent : RtableEnt} {d : Addr} {f : RtableEnt → RtableEnt}

theorem dst_of_getEntry (h : getEntry t d = some e) : e.dst = d := by
  have hfound := List.find?_some h
  exact of_decide_eq_true hfound

theorem mem_of_getEntry (h : getEntry t d = some e) : e ∈ t := List.mem_of_find?_eq_some h

@[simp] theorem getEntry_nil (d : Addr) : getEntry [] d = none := rfl

theorem getEntry_cons (e : RtableEnt) (t : RoutingTable) (d : Addr) :
    getEntry (e :: t) d = if e.dst = d then some e else getEntry t d := by
  rw [getEntry, List.find?_cons]
  by_cases h : e.dst = d
  · simp [h]
  · simp [h, getEntry]

theorem getEntry_put (ent : RtableEnt) (t : RoutingTable) (d : Addr) :
    getEntry (put ent t) d = if ent.dst = d then some ent else getEntry t d := by
  induction t with
  | nil => exact getEntry_cons ent [] d
  | cons e t ih =>
      rw [put]
      split
      · rename_i heq
        rw [getEntry_cons, getEntry_cons, heq]
        split <;> rfl
      · rename_i hne
        split
        · exact getEntry_cons ent (e :: t) d
        · rw [getEntry_cons, getEntry_cons, ih]
          -- the entry that is passed is not the one that is written
          by_cases hd : e.dst = d
          · have hent : ¬ent.dst = d := fun h => hne (hd.trans h.symm)
            rw [if_pos hd, if_neg hent, if_pos hd]
          · rw [if_neg hd, if_neg hd]

theorem getEntry_map (f : RtableEnt → RtableEnt) (hf : ∀ e, (f e).dst = e.dst)
    (t : RoutingTable) (d : Addr) : getEntry (t.map f) d = (getEntry t d).map f := by
  induction t with
  | nil => rfl
  | cons e t ih =>
      rw [List.map_cons, getEntry_cons, getEntry_cons, hf, ih]
      split <;> rfl

theorem getEntry_modify (f : RtableEnt → RtableEnt) (hf : ∀ e, (f e).dst = e.dst)
    (t : RoutingTable) (dest d : Addr) :
    getEntry (modify t dest f) d = if d = dest then (getEntry t d).map f else getEntry t d := by
  have hdst : ∀ e, (if e.dst = dest then f e else e).dst = e.dst := by
    intro e
    split
    · exact hf e
    · rfl
  rw [modify, getEntry_map _ hdst]
  cases hg : getEntry t d with
  | none => simp
  | some e =>
      rw [Option.map_some, Option.map_some, dst_of_getEntry hg]
      split <;> rfl

/-- In a sorted table every entry is the one that is found. -/
theorem getEntry_of_mem (hs : Sorted t) (he : e ∈ t) : getEntry t e.dst = some e := by
  induction t with
  | nil => cases he
  | cons x t ih =>
      obtain ⟨hx, ht⟩ := List.pairwise_cons.mp hs
      rw [getEntry_cons]
      rcases List.mem_cons.mp he with rfl | he
      · exact if_pos rfl
      · rw [if_neg (hx e he).ne]
        exact ih ht he

theorem mem_put (h : e ∈ put ent t) : e = ent ∨ e ∈ t := by
  induction t with
  | nil => exact Or.inl (List.mem_singleton.mp h)
  | cons x t ih =>
      rw [put] at h
      split at h
      · rcases List.mem_cons.mp h with rfl | h
        · exact Or.inl rfl
        · exact Or.inr (List.mem_cons_of_mem x h)
      · split at h
        · exact List.mem_cons.mp h
        · rcases List.mem_cons.mp h with rfl | h
          · exact Or.inr List.mem_cons_self
          · exact (ih h).imp_right (List.mem_cons_of_mem x)

theorem Sorted.put (hs : Sorted t) (ent : RtableEnt) : Sorted (put ent t) := by
  induction t with
  | nil => exact List.pairwise_singleton _ ent
  | cons x t ih =>
      obtain ⟨hx, ht⟩ := List.pairwise_cons.mp hs
      rw [RoutingTable.put]
      split
      · rename_i heq
        exact List.pairwise_cons.mpr ⟨fun a ha => heq ▸ hx a ha, ht⟩
      · split
        · rename_i hlt
          refine List.pairwise_cons.mpr ⟨?_, hs⟩
          intro a ha
          rcases List.mem_cons.mp ha with rfl | ha
          · exact hlt
          · exact hlt.trans (hx a ha)
        · rename_i hne hle
          refine List.pairwise_cons.mpr ⟨?_, ih ht⟩
          intro a ha
          rcases mem_put ha with rfl | ha
          · exact lt_of_le_of_ne (not_lt.mp hle) hne
          · exact hx a ha

theorem Sorted.map (hs : Sorted t) (hf : ∀ e, (f e).dst = e.dst) : Sorted (t.map f) := by
  apply List.pairwise_map.mpr
  apply hs.imp
  intro a b hab
  rwa [hf, hf]

theorem Sorted.modify (hs : Sorted t) (hf : ∀ e, (f e).dst = e.dst) (d : Addr) :
    Sorted (modify t d f) := by
  apply hs.map
  intro e
  split
  · exact hf e
  · rfl

end RoutingTable

end ComputerNetworking.Dsdv
