/-
# Addresses

Addresses are 64-bit words. Stepping from one address to another one behind
it fails where the result is no such word. Distances are taken between
addresses as signed words, so that both ends of the address space lie side by
side; a distance that is no signed word itself is an overflow too.

Key definitions: `Address.advance`, `Address.distance`.
Key theorems: `Address.advance_eq_ok`, `Address.distance_eq_ok`.
-/
import Chiptune.Error

namespace Chiptune
namespace Address

/-- Addresses are below this number. -/
def limit : Nat := 0x10000000000000000

/-- Signed words are below this number, and at or above its negative. -/
def signedLimit : Int := 0x8000000000000000

/-- The address a number of bytes behind another one. -/
def advance (address count : Nat) : Except Error Nat :=
  if address + count < limit then .ok (address + count) else .error .addressOverflow

/-- An address as a signed word. -/
def signed (address : Nat) : Int := Int.bmod address limit

/-- The distance from one address to another. -/
def distance (origin target : Nat) : Except Error Int :=
  let d := signed target - signed origin
  if -signedLimit ≤ d ∧ d < signedLimit then .ok d else .error .addressOverflow

theorem advance_eq_ok {address count : Nat} (h : address + count < limit) :
    advance address count = .ok (address + count) := if_pos h

theorem signed_of_lt {address : Nat} (h : (address : Int) < signedLimit) :
    signed address = address := by
  unfold signed signedLimit limit at *
  rw [Int.bmod_def]
  omega

/-- Below the signed limit the distance is the difference. -/
theorem distance_eq_ok {origin target : Nat} (ho : (origin : Int) < signedLimit)
    (ht : (target : Int) < signedLimit) :
    distance origin target = .ok ((target : Int) - origin) := by
  unfold distance
  rw [signed_of_lt ho, signed_of_lt ht]
  apply if_pos
  unfold signedLimit at *
  omega

end Address
end Chiptune
