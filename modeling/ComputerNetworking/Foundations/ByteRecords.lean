import Mathlib.Tactic

/-!
# Records behind a count of one byte

A packet that holds a byte for the number of its records and then the bytes of each. A
reader of the count gets back the records that were written exactly if there are fewer
than 256 of them (`readCounted_eq_iff`). Words of 32 bits go out byte by byte, the highest
first (`wordOf_bytes`).
-/

set_option autoImplicit false

namespace ComputerNetworking.Foundations.ByteRecords

abbrev Byte := BitVec 8

abbrev Word := BitVec 32

section Words

/-- The word of four bytes, the highest first. -/
def wordOf (a b c d : Byte) : Word :=
  ((a.setWidth 32 <<< 8 ||| b.setWidth 32) <<< 8 ||| c.setWidth 32) <<< 8 ||| d.setWidth 32

/-- The byte of a word that starts at the bit `n`. -/
def byteAt (n : ℕ) (w : Word) : Byte := (w >>> n).setWidth 8

theorem wordOf_bytes (w : Word) :
    wordOf (byteAt 24 w) (byteAt 16 w) (byteAt 8 w) (byteAt 0 w) = w := by
  ext i hi
  simp only [wordOf, byteAt]
  interval_cases i <;> simp

/-- A mask of the lowest byte does not change what goes into a byte. -/
theorem setWidth_mask (w : Word) : (w &&& 0xFF#32).setWidth 8 = w.setWidth 8 := by
  ext i hi
  interval_cases i <;> simp

/-- The sign does not come into the low bytes of a word. -/
theorem setWidth_sshiftRight (w : Word) {n : ℕ} (hn : n ≤ 24) :
    (w.sshiftRight n).setWidth 8 = byteAt n w := by
  ext i hi
  have hlt : n + i < 32 := by omega
  have hword : ¬32 ≤ i := by omega
  simp [byteAt, BitVec.getLsbD_sshiftRight, hlt, hword]

end Words

section Records

variable {R : Type} {encode : R → List Byte} {decode : List Byte → Option (R × List Byte)}
  {rs : List R} {n : ℕ}

/-- `n` records from the front of some bytes. -/
def readRecords (decode : List Byte → Option (R × List Byte)) : ℕ → List Byte → Option (List R)
  | 0, _ => some []
  | n + 1, bytes =>
      match decode bytes with
      | none => none
      | some (r, rest) => (readRecords decode n rest).map (r :: ·)

/-- As many records as the first byte says. -/
def readCounted (decode : List Byte → Option (R × List Byte)) : List Byte → Option (List R)
  | [] => none
  | count :: bytes => readRecords decode count.toNat bytes

/-- The number of the records, and the records. -/
def writeCounted (encode : R → List Byte) (rs : List R) : List Byte :=
  BitVec.ofNat 8 rs.length :: rs.flatMap encode

/-- What `encode` writes in front of anything is what `decode` reads there. -/
def Reads (encode : R → List Byte) (decode : List Byte → Option (R × List Byte)) (r : R) : Prop :=
  ∀ rest, decode (encode r ++ rest) = some (r, rest)

theorem readRecords_flatMap (h : ∀ r ∈ rs, Reads encode decode r) (hn : n ≤ rs.length) :
    readRecords decode n (rs.flatMap encode) = some (rs.take n) := by
  induction rs generalizing n with
  | nil =>
      rw [Nat.le_zero.mp hn]
      rfl
  | cons r rs ih =>
      cases n with
      | zero => rfl
      | succ n =>
          have hrest :=
            ih (fun r' hr' => h r' (List.mem_cons_of_mem r hr')) (Nat.le_of_succ_le_succ hn)
          rw [List.flatMap_cons, readRecords, h r List.mem_cons_self (rs.flatMap encode)]
          dsimp only
          rw [hrest]
          rfl

/-- A reader gets the records up to the count, which is taken modulo 256. -/
theorem readCounted_writeCounted (h : ∀ r ∈ rs, Reads encode decode r) :
    readCounted decode (writeCounted encode rs) = some (rs.take (rs.length % 256)) := by
  have hcount : (BitVec.ofNat 8 rs.length).toNat = rs.length % 256 := BitVec.toNat_ofNat rs.length 8
  rw [writeCounted, readCounted, hcount]
  exact readRecords_flatMap h (Nat.mod_le rs.length 256)

theorem readCounted_eq_iff (h : ∀ r ∈ rs, Reads encode decode r) :
    readCounted decode (writeCounted encode rs) = some rs ↔ rs.length < 256 := by
  rw [readCounted_writeCounted h, Option.some.injEq, List.take_eq_self_iff]
  constructor
  · intro hle
    have hlt := Nat.mod_lt rs.length (show 256 > 0 by decide)
    omega
  · intro hlt
    exact (Nat.mod_eq_of_lt hlt).ge

end Records

end ComputerNetworking.Foundations.ByteRecords
