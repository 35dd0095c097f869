/-
# Binary64 numbers in exact arithmetic

A finite number of the 64-bit binary format is a sign and a whole number of
units, the unit being the least positive number `2 ^ -1074`. Magnitudes hold
53 bits, so from `2 ^ 53` units on they are multiples of a growing power of
two, their `spacing`. Every operation here computes its exact result as a
quotient of natural numbers and takes the nearest magnitude, a half going to
the even neighbour; a result of `2 ^ 1024` or more is infinite. Nothing rests
on machine arithmetic, so the operations can be reasoned about as functions
on natural numbers.

Key definitions: `Binary64.nearest`, `Binary64.Magnitude`, `Binary64`,
`Binary64.ofRatio`, `Binary64.round`.
Key theorems: `Binary64.spacing_dvd_nearest`.
-/

namespace Chiptune
namespace Binary64

/-- Units in the number one. -/
def unitsInOne : Nat := Nat.pow 2 1074

/-- Units in `2 ^ 1024`, the first magnitude out of range. -/
def unitLimit : Nat := Nat.pow 2 2098

/-- The distance in units between neighbouring magnitudes around `n` units. -/
def spacing (n : Nat) : Nat := Nat.pow 2 (n.log2 - 52)

/-- The quotient `num / den` as a whole number, a half going to the even
neighbour. -/
def roundHalfEven (num den : Nat) : Nat :=
  if 2 * (num % den) < den ∨ (2 * (num % den) = den ∧ num / den % 2 = 0) then num / den
  else num / den + 1

/-- The magnitude nearest to `num / den` units, were there no largest one. -/
def nearest (num den : Nat) : Nat :=
  roundHalfEven num (den * spacing (num / den)) * spacing (num / den)

theorem roundHalfEven_le (num den : Nat) : roundHalfEven num den ≤ num / den + 1 := by
  unfold roundHalfEven
  split <;> omega

/-- Counted in its spacing, a number of units has at most 53 bits. -/
theorem div_spacing_lt (n : Nat) : n / spacing n < Nat.pow 2 53 := by
  simp only [spacing, Nat.pow_eq]
  rcases Nat.eq_zero_or_pos n with rfl | hn
  · simp
  · rw [Nat.div_lt_iff_lt_mul (Nat.two_pow_pos _), ← Nat.pow_add]
    have h : n < 2 ^ (n.log2 + 1) := Nat.lt_log2_self
    exact Nat.lt_of_lt_of_le h (Nat.pow_le_pow_right (by decide) (by omega))

/-- A count of at most `2 ^ 53` spacings is a magnitude. -/
theorem spacing_dvd_mul (k t : Nat) (hk : k ≤ Nat.pow 2 53) :
    spacing (k * Nat.pow 2 t) ∣ k * Nat.pow 2 t := by
  simp only [spacing, Nat.pow_eq] at hk ⊢
  rcases Nat.eq_zero_or_pos k with rfl | hpos
  · simp
  have hne : k * 2 ^ t ≠ 0 := Nat.ne_of_gt (Nat.mul_pos hpos (Nat.two_pow_pos t))
  rcases Nat.lt_or_ge k (2 ^ 53) with hlt | hge
  · have hlog : (k * 2 ^ t).log2 < 53 + t := by
      rw [Nat.log2_lt hne, Nat.pow_add]
      exact Nat.mul_lt_mul_of_pos_right hlt (Nat.two_pow_pos t)
    exact Nat.dvd_trans (Nat.pow_dvd_pow 2 (by omega)) (Nat.dvd_mul_left _ _)
  · have heq : k * 2 ^ t = 2 ^ (53 + t) := by
      rw [Nat.le_antisymm hk hge, Nat.pow_add]
    rw [heq, Nat.log2_two_pow]
    exact Nat.pow_dvd_pow 2 (by omega)

/-- Rounding yields a magnitude: a multiple of its own spacing. -/
theorem spacing_dvd_nearest (num den : Nat) : spacing (nearest num den) ∣ nearest num den := by
  apply spacing_dvd_mul
  have h := roundHalfEven_le num (den * spacing (num / den))
  rw [← Nat.div_div_eq_div_mul] at h
  have := div_spacing_lt (num / den)
  omega

/-- A finite magnitude, as a number of units. -/
structure Magnitude where
  units : Nat
  spaced : spacing units ∣ units
  bounded : units < unitLimit
  deriving DecidableEq

theorem unitLimit_pos : 0 < unitLimit := by
  unfold unitLimit
  generalize 2098 = k
  exact Nat.two_pow_pos k

/-- The magnitude zero. -/
def Magnitude.zero : Magnitude := ⟨0, Nat.dvd_zero _, unitLimit_pos⟩

end Binary64

/-- A number of the 64-bit binary format; all not-a-number patterns are one. -/
inductive Binary64 where
  | nan
  | infinite (negative : Bool)
  | finite (negative : Bool) (magnitude : Binary64.Magnitude)
  deriving DecidableEq

namespace Binary64

/-- The number nearest to `num / den` units, with a sign. -/
def ofRatio (negative : Bool) (num den : Nat) : Binary64 :=
  if h : nearest num den < unitLimit then
    .finite negative ⟨nearest num den, spacing_dvd_nearest num den, h⟩
  else .infinite negative

/-- The number nearest to the fraction `num / den`. -/
def ofFraction (num den : Nat) : Binary64 := ofRatio false (num * unitsInOne) den

/-- The number nearest to a whole number. -/
def ofNat (n : Nat) : Binary64 := ofFraction n 1

/-- A zero with a sign. -/
def zero (negative : Bool) : Binary64 := .finite negative .zero

/-- The same number with the other sign. -/
def neg : Binary64 → Binary64
  | .nan => .nan
  | .infinite s => .infinite (!s)
  | .finite s x => .finite (!s) x

/-- The number of units of a finite number, with its sign. -/
def signedUnits (negative : Bool) (x : Magnitude) : Int :=
  if negative then -(x.units : Int) else x.units

/-- The product, rounded once. -/
def mul : Binary64 → Binary64 → Binary64
  | .nan, _ => .nan
  | _, .nan => .nan
  | .infinite s, .infinite t => .infinite (s != t)
  | .infinite s, .finite t y => if y.units = 0 then .nan else .infinite (s != t)
  | .finite s x, .infinite t => if x.units = 0 then .nan else .infinite (s != t)
  | .finite s x, .finite t y => ofRatio (s != t) (x.units * y.units) unitsInOne

/-- The quotient, rounded once; a nonzero number divided by zero is infinite. -/
def div : Binary64 → Binary64 → Binary64
  | .nan, _ => .nan
  | _, .nan => .nan
  | .infinite _, .infinite _ => .nan
  | .infinite s, .finite t _ => .infinite (s != t)
  | .finite s _, .infinite t => zero (s != t)
  | .finite s x, .finite t y =>
    if y.units = 0 then
      if x.units = 0 then .nan else .infinite (s != t)
    else ofRatio (s != t) (x.units * unitsInOne) y.units

/-- The difference, rounded once; equal numbers differ by positive zero. -/
def sub : Binary64 → Binary64 → Binary64
  | .nan, _ => .nan
  | _, .nan => .nan
  | .infinite s, .infinite t => if s = t then .nan else .infinite s
  | .infinite s, .finite _ _ => .infinite s
  | .finite _ _, .infinite t => .infinite (!t)
  | .finite s x, .finite t y =>
    let d := signedUnits s x - signedUnits t y
    if d = 0 then zero (s && !t) else ofRatio (decide (d < 0)) d.natAbs 1

/-- Order; not-a-number is below nothing and above nothing. -/
def le : Binary64 → Binary64 → Bool
  | .nan, _ => false
  | _, .nan => false
  | .infinite true, _ => true
  | _, .infinite false => true
  | .infinite false, _ => false
  | _, .infinite true => false
  | .finite s x, .finite t y => signedUnits s x ≤ signedUnits t y

/-- The nearest whole number, a half going away from zero; the sign stays. -/
def round : Binary64 → Binary64
  | .nan => .nan
  | .infinite s => .infinite s
  | .finite s x => ofRatio s ((2 * x.units + unitsInOne) / (2 * unitsInOne) * unitsInOne) 1

/-- The whole part of a finite magnitude. -/
def Magnitude.floor (x : Magnitude) : Nat := x.units / unitsInOne

/-- Whether the number is infinite. -/
def isInfinite : Binary64 → Bool
  | .infinite _ => true
  | _ => false

/-- Whether the number is zero, of either sign. -/
def isZero : Binary64 → Bool
  | .finite _ x => x.units = 0
  | _ => false

instance : Mul Binary64 := ⟨mul⟩
instance : Div Binary64 := ⟨div⟩
instance : Sub Binary64 := ⟨sub⟩
instance : Neg Binary64 := ⟨neg⟩
instance : LE Binary64 := ⟨fun a b => a.le b = true⟩
instance : LT Binary64 := ⟨fun a b => a.le b = true ∧ b.le a = false⟩

instance (a b : Binary64) : Decidable (a ≤ b) :=
  inferInstanceAs (Decidable (a.le b = true))

instance (a b : Binary64) : Decidable (a < b) :=
  inferInstanceAs (Decidable (a.le b = true ∧ b.le a = false))

end Binary64
end Chiptune
