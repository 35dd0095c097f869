/-
# Timer set-up

The driver advances a song on overflows of timer A. A frequency in the range
of the timer sets it directly; a lower one is multiplied by the least time
base that brings it into the range, and the driver then counts that many
overflows for a tick.

Key definitions: `Tempo.counter`, `Tempo.timeBase?`, `Tempo.setup`.
-/
import Chiptune.Error

namespace Chiptune

/-- A timer A counter and a time base. -/
structure TimerSetup where
  counter : UInt16 := 0
  timeBase : UInt8 := 1
  deriving DecidableEq, Repr

namespace Tempo

/-- The highest frequency of timer A. -/
def highest : Binary64 := Binary64.ofNat 55560

/-- The lowest frequency of timer A. -/
def lowest : Binary64 := Binary64.ofFraction 217 4

/-- The exact position of the counter for a frequency, before rounding. -/
def counterPosition (hz : Binary64) : Binary64 :=
  Binary64.ofNat 1024
    - Binary64.ofNat 1 / hz / Binary64.ofNat 72 * Binary64.ofNat 4000000

/-- The timer A counter of a frequency. -/
def counter (hz : Binary64) : Except Error UInt16 :=
  let position := (counterPosition hz).round
  if Binary64.ofNat 0 ≤ position ∧ position ≤ Binary64.ofNat 1023 then
    match position with
    | .finite _ x => .ok x.floor.toUInt16
    | _ => .error (.timerOverflow position)
  else .error (.timerOverflow position)

/-- The least time base from 2 to 255 that brings a frequency up to the range
of the timer. -/
def timeBase? (hz : Binary64) : Option Nat :=
  (List.range' 2 254).find? fun i => lowest ≤ hz * Binary64.ofNat i

/-- The timer set-up of a tick frequency. -/
def setup (hz : Binary64) : Except Error TimerSetup := do
  if ¬ hz ≤ highest then .error (.unsupportedFrequency hz)
  else if hz < lowest then
    match timeBase? hz with
    | none => .error (.unsupportedFrequency hz)
    | some base =>
      let multiplied := hz * Binary64.ofNat base
      if highest < multiplied then .error (.unsupportedFrequency hz)
      else .ok ⟨← counter multiplied, base.toUInt8⟩
  else .ok ⟨← counter hz, 1⟩

end Tempo
end Chiptune
