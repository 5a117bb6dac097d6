import Mathlib.Tactic

/-!
# The AODV routing table

`aodv_rt_entry` and `aodv_rtable` of `aodv/aodv_rtable.h` and `aodv/aodv_rtable.cc`.
The table is the list of its entries, new ones in front. Sequence numbers are
unbounded, times are exact. The history of discovery latencies is left out: what
`PerHopTime` makes of it is given to the calls that use it.
-/

set_option autoImplicit false

namespace ComputerNetworking.Aodv

/-- `nsaddr_t`. -/
abbrev Addr := ℕ

/-- The hop count of a destination that is not reached. -/
def INFINITY2 : ℕ := 255

/-- `rt_flags`. -/
inductive RtFlags where
  | down
  | up
  | inRepair
deriving DecidableEq, Repr

/-- `aodv_rt_entry`; the defaults are those of the constructor. -/
structure RtEntry where
  rtDst : Addr
  rtSeqno : ℕ := 0
  rtHops : ℕ := INFINITY2
  rtLastHopCount : ℕ := INFINITY2
  rtNexthop : Addr := 0
  rtPclist : List Addr := []
  rtExpire : ℚ := 0
  rtFlags : RtFlags := .down
  rtReqTimeout : ℚ := 0
  rtReqCnt : ℕ := 0
  rtReqLastTtl : ℕ := 0
deriving DecidableEq, Repr

namespace RtEntry

/-- `aodv_rt_entry::pc_insert`. -/
def pcInsert (rt : RtEntry) (id : Addr) : RtEntry :=
  if id ∈ rt.rtPclist then rt else { rt with rtPclist := id :: rt.rtPclist }

/-- `aodv_rt_entry::pc_delete` for one precursor. -/
def pcDelete (rt : RtEntry) (id : Addr) : RtEntry := { rt with rtPclist := rt.rtPclist.erase id }

/-- `AODV::rt_update`. -/
def update (rt : RtEntry) (seqnum metric : ℕ) (nexthop : Addr) (expireTime : ℚ) : RtEntry :=
  { rt with rtSeqno := seqnum, rtHops := metric, rtFlags := .up, rtNexthop := nexthop,
            rtExpire := expireTime }

/-- `AODV::rt_down`. -/
def down (rt : RtEntry) : RtEntry :=
  if rt.rtFlags = .down then rt
  else
    { rt with rtLastHopCount := rt.rtHops, rtHops := INFINITY2, rtFlags := .down, rtNexthop := 0,
              rtExpire := 0 }

end RtEntry

/-- The entries, the youngest first. -/
abbrev RoutingTable := List RtEntry

namespace RoutingTable

/-- `aodv_rtable::rt_lookup`. -/
def rtLookup (t : RoutingTable) (id : Addr) : Option RtEntry := t.find? (·.rtDst = id)

/-- `aodv_rtable::rt_add`, which every caller calls only when there is no entry. -/
def rtAdd (t : RoutingTable) (id : Addr) : RoutingTable := { rtDst := id } :: t

/-- Writes through the pointer that `rtLookup` returns for `id`. -/
def modify (t : RoutingTable) (id : Addr) (f : RtEntry → RtEntry) : RoutingTable :=
  t.map fun rt => if rt.rtDst = id then f rt else rt

section Lookup

variable {t : RoutingTable} {id d : Addr} {rt : RtEntry} {f : RtEntry → RtEntry}

theorem rtLookup_cons_self (h : rt.rtDst = d) : rtLookup (rt :: t) d = some rt := by
  rw [rtLookup, List.find?_cons, decide_eq_true h]

theorem rtLookup_cons_of_ne (h : rt.rtDst ≠ d) : rtLookup (rt :: t) d = rtLookup t d := by
  rw [rtLookup, List.find?_cons, decide_eq_false h]
  rfl

theorem rtLookup_rtAdd (t : RoutingTable) (id d : Addr) :
    (t.rtAdd id).rtLookup d = if d = id then some { rtDst := id } else t.rtLookup d := by
  rw [rtAdd]
  split
  · next h => exact rtLookup_cons_self h.symm
  · next h => exact rtLookup_cons_of_ne (Ne.symm h)

/-- A write that keeps the destination changes the entry of its destination only. -/
theorem rtLookup_modify (hf : ∀ rt, (f rt).rtDst = rt.rtDst) (t : RoutingTable) (id d : Addr) :
    (t.modify id f).rtLookup d = if d = id then (t.rtLookup d).map f else t.rtLookup d := by
  induction t with
  | nil =>
      rw [modify, List.map_nil]
      split <;> rfl
  | cons rt t ih =>
      have hkey : (if rt.rtDst = id then f rt else rt).rtDst = rt.rtDst := by
        split
        · exact hf rt
        · rfl
      rw [modify, List.map_cons]
      by_cases hd : rt.rtDst = d
      · rw [rtLookup_cons_self (hkey.trans hd), rtLookup_cons_self hd, ← hd]
        split <;> rfl
      · rw [rtLookup_cons_of_ne fun h => hd (hkey.symm.trans h), rtLookup_cons_of_ne hd]
        exact ih

end Lookup

end RoutingTable

end ComputerNetworking.Aodv
