import ComputerNetworking.Queue.RedState

/-!
# Drop probabilities

`calculate_p_new`, `calculate_p_modifiedRed`, `calculate_p` and `modify_p` of
`queue/red.cc`. The modified function also rewrites `edv_.cur_max_p`, so it
returns the variables it leaves.
-/

set_option autoImplicit false

namespace ComputerNetworking.Queue

/-- `calculate_p_new`: the drop probability of default RED. -/
def calculatePNew (vAve thMax : ℚ) (gentle : Bool) (vA vB vC vD maxP : ℚ) : ℚ :=
  let p :=
    if gentle ∧ vAve ≥ thMax then vC * vAve + vD
    else if ¬gentle ∧ vAve ≥ thMax then 1
    else (vA * vAve + vB) * maxP
  if p > 1 then 1 else p

/-- `k1` and `k2`, between which the modified function leaves `max_p` alone. -/
def k1 (thMin bufferSize : ℚ) : ℚ := thMin + 4 / 10 * (bufferSize - thMin)

@[inherit_doc k1]
def k2 (thMin bufferSize : ℚ) : ℚ := thMin + 6 / 10 * (bufferSize - thMin)

/-- The increment `a`, capped at a quarter of `max_p`. -/
def raiseStep (maxP : ℚ) : ℚ := if 1 / 100 > maxP / 4 then maxP / 4 else 1 / 100

/-- `max_p` as `calculate_p_modifiedRed` adjusts it to the average. -/
def adjustMaxP (vAve thMin maxP bufferSize : ℚ) : ℚ :=
  if vAve < k1 thMin bufferSize then maxP * (9 / 10)
  else if vAve > k2 thMin bufferSize then maxP + raiseStep maxP
  else maxP

/-- Numerator of `temp_p`. -/
def cubicRise (vAve thMin maxP : ℚ) : ℚ := maxP * (vAve - thMin) ^ 3

/-- Denominator of `temp_p`: the cubic blend. -/
def cubicBlend (vAve thMin maxP bufferSize : ℚ) : ℚ :=
  (1 - maxP) * (bufferSize - thMin) ^ 3 + maxP * (vAve - maxP) ^ 3

/-- `temp_p`, from the adjusted `max_p`. -/
def tempP (vAve thMin maxP bufferSize : ℚ) : ℚ :=
  cubicRise vAve thMin maxP / cubicBlend vAve thMin maxP bufferSize

/-- `temp_p / (1 - (count * temp_p))` on doubles. A zero blend makes `temp_p`
infinite or NaN and the quotient NaN; a positive `temp_p` over zero is infinite,
and the clamp of the caller makes it 1. -/
def countCorrected (vAve thMin count maxP bufferSize : ℚ) : Option ℚ :=
  let temp := tempP vAve thMin maxP bufferSize
  if cubicBlend vAve thMin maxP bufferSize = 0 then none
  else if 1 - count * temp = 0 then some 1
  else some (temp / (1 - count * temp))

/-- `if (p > 1.0) p = 1.0`, which leaves NaN as it is. -/
def clampAbove : Option ℚ → Option ℚ
  | none => none
  | some p => some (if p > 1 then 1 else p)

/-- `calculate_p_modifiedRed`. -/
def calculatePModifiedRed (edv : Edv) (vAve _thMax thMin count maxP bufferSize : ℚ) :
    Option ℚ × Edv :=
  -- only the last branch rewrites `cur_max_p`
  if vAve < thMin then (clampAbove (some 0), edv)
  else if vAve ≥ bufferSize then (clampAbove (some 1), edv)
  else
    let maxP := adjustMaxP vAve thMin maxP bufferSize
    (clampAbove (countCorrected vAve thMin count maxP bufferSize), { edv with curMaxP := maxP })

/-- `calculate_p`. In default mode the last argument is handed on as it is. -/
def calculateP (edp : Edp) (edv : Edv) (vAve thMax : ℚ) (gentle : Bool)
    (vA vB vC vD maxPInv : ℚ) : Option ℚ × Edv :=
  if edp.isModifiedRed then
    calculatePModifiedRed edv vAve thMax edp.thMin edv.count maxPInv edp.bufferSize
  else (some (calculatePNew vAve thMax gentle vA vB vC vD maxPInv), edv)

/-- The spacing part of `modify_p`, for `count1` packets since the last drop. All
comparisons with NaN are false, so NaN becomes 1. -/
def spread (wait : Bool) (count1 : ℚ) : Option ℚ → ℚ
  | none => 1
  | some p =>
      if wait then
        if count1 * p < 1 then 0
        else if count1 * p < 2 then p / (2 - count1 * p)
        else 1
      else if count1 * p < 1 then p / (1 - count1 * p)
      else 1

/-- `count1` of `modify_p`; in byte mode an integer division. -/
def arrivalsSince (count countBytes : Int) (bytes : Bool) (meanPktsize : Nat) : Except Crash ℚ :=
  if bytes then
    if meanPktsize = 0 then .error .divideByZero
    else .ok ((countBytes.tdiv meanPktsize : Int) : ℚ)
  else .ok (count : ℚ)

/-- The part of `modify_p` after the spacing: the byte-mode scaling and the clamp. -/
def scaleToSize (bytes : Bool) (meanPktsize : Nat) (size : Nat) (p : ℚ) : ℚ :=
  let p := if bytes ∧ p < 1 then p * size / meanPktsize else p
  if p > 1 then 1 else p

/-- `modify_p`: uniform instead of geometric interdrop periods. -/
def modifyP (p : Option ℚ) (count countBytes : Int) (bytes : Bool) (meanPktsize : Nat)
    (wait : Bool) (size : Nat) : Except Crash ℚ :=
  match arrivalsSince count countBytes bytes meanPktsize with
  | .error e => .error e
  | .ok count1 => .ok (scaleToSize bytes meanPktsize size (spread wait count1 p))

end ComputerNetworking.Queue
