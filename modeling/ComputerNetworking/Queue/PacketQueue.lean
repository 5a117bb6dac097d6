import Mathlib.Tactic

/-!
# The packet queue under the queueing disciplines

`PacketQueue` of `queue/queue.h`, as the list of its packets from `head_` to
`tail_`. `len_` and `bytes_` are the length and the sum of the sizes. A packet
pointer is the packet's `uid`; two packets are the same object when their uids
are equal.
-/

set_option autoImplicit false

namespace ComputerNetworking.Queue

/-- A packet with the header fields the disciplines read: `hdr_cmn::size()`, the
`ect`, `ce` and `pri_` flags of `hdr_flags`, and `hdr_ip::flowid()`. -/
structure Packet where
  uid : Nat
  size : Nat
  ect : Bool := false
  ce : Bool := false
  pri : Nat := 0
  flowid : Int := 0
  deriving DecidableEq, Repr

/-- Ways the simulator process dies inside a queue operation. -/
inductive Crash where
  /-- `abort()` in `PacketQueue::remove`. -/
  | abort
  /-- An integer division by zero. -/
  | divideByZero
  deriving DecidableEq, Repr

structure PacketQueue where
  packets : List Packet
  deriving DecidableEq, Repr

namespace PacketQueue

def empty : PacketQueue := ⟨[]⟩

def length (q : PacketQueue) : Nat := q.packets.length

def byteLength (q : PacketQueue) : Nat := (q.packets.map Packet.size).sum

def enque (q : PacketQueue) (p : Packet) : PacketQueue := ⟨q.packets ++ [p]⟩

def deque (q : PacketQueue) : Option Packet × PacketQueue :=
  match q.packets with
  | [] => (none, q)
  | p :: rest => (some p, ⟨rest⟩)

/-- The loop returns the first packet at which `--n < 0`, so a negative `n`
gives the head. -/
def lookup (q : PacketQueue) (n : Int) : Option Packet := q.packets[n.toNat]?

/-- Unlinks the first packet that is `target`; reaches `abort()` at the end of
the list. -/
def remove (q : PacketQueue) (target : Packet) : Except Crash PacketQueue :=
  if q.packets.any fun p => p.uid == target.uid then
    .ok ⟨q.packets.eraseP fun p => p.uid == target.uid⟩
  else .error .abort

/-- The packets' identities, head first. -/
def uids (q : PacketQueue) : List Nat := q.packets.map Packet.uid

@[simp] theorem uids_enque (q : PacketQueue) (p : Packet) :
    (q.enque p).uids = q.uids ++ [p.uid] := by
  simp [uids, enque]

@[simp] theorem length_enque (q : PacketQueue) (p : Packet) :
    (q.enque p).length = q.length + 1 := by
  simp [length, enque]

theorem uids_deque_of_nil {q : PacketQueue} (h : q.packets = []) : q.deque = (none, q) := by
  simp only [deque, h]

theorem deque_of_cons {q : PacketQueue} {p : Packet} {rest : List Packet}
    (h : q.packets = p :: rest) : q.deque = (some p, ⟨rest⟩) := by
  simp only [deque, h]

theorem lookup_mem {q : PacketQueue} {n : Int} {p : Packet} (h : q.lookup n = some p) :
    p ∈ q.packets :=
  List.mem_of_getElem? h

/-- An index below the length finds a packet. -/
theorem lookup_isSome {q : PacketQueue} {n : Int} (h : n < q.length) (hq : 0 < q.length) :
    ∃ p, q.lookup n = some p := by
  have hlt : n.toNat < q.packets.length := by
    have hl : q.length = q.packets.length := rfl
    omega
  exact ⟨q.packets[n.toNat], List.getElem?_eq_getElem hlt⟩

/-- Removing a queued packet succeeds and takes exactly its uid out. -/
theorem remove_of_mem {q : PacketQueue} {p : Packet} (h : p ∈ q.packets) :
    ∃ q', q.remove p = .ok q' ∧ q'.uids = q.uids.erase p.uid := by
  have hany : (q.packets.any fun x => x.uid == p.uid) = true :=
    List.any_eq_true.2 ⟨p, h, beq_self_eq_true p.uid⟩
  refine ⟨⟨q.packets.eraseP fun x => x.uid == p.uid⟩, ?_, ?_⟩
  · rw [remove, if_pos hany]
  · show (q.packets.eraseP fun x => x.uid == p.uid).map Packet.uid =
      (q.packets.map Packet.uid).erase p.uid
    rw [List.erase_eq_eraseP', List.eraseP_map]
    rfl

end PacketQueue

end ComputerNetworking.Queue
