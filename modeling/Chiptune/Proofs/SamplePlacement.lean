/-
# Samples start at the first unit that fits

Samples are placed one behind the other, and a sample that fits into a bank
starts at the first free unit from which all its units lie in one bank
(`SampleRom.FitsFrom`). A placement looks at the last unit that a sample would
reach if it was not moved, and moves it to the start of that unit's bank. No
unit in between will do: from each of them the sample would reach across the
same border. A sample larger than a bank is moved likewise, although it lies in
several banks wherever it starts.

A sample is moved by less than its own units, so all samples together take less
than twice the units that their data need (`SampleRom.place_firstFit`).

Key definitions: `SampleRom.InBank`, `SampleRom.FitsFrom`,
`SampleRom.FirstFit`, `SampleRom.fitted`.
Key theorems: `SampleRom.firstUnit_isLeast`, `SampleRom.fitsFrom_firstUnit`,
`SampleRom.FirstFit.cons`, `SampleRom.place_eq`, `SampleRom.place_firstFit`.
-/
import Chiptune.Proofs.SampleImage
import Mathlib.Algebra.GroupWithZero.Nat
import Mathlib.Order.Bounds.Defs

namespace Chiptune
namespace SampleRom

open Tracker

/-- A number of units, from one of them on, lie in one bank of 4096 units. -/
def InBank (first units : Nat) : Prop := first / 4096 = (first + units - 1) / 4096

/-- A sample that takes a number of units stands at the first place for it from
a unit on. -/
structure FitsFrom (start units : Nat) (p : PlacedSample) : Prop where
  le : start ≤ p.first
  ends : p.last + 1 = p.first + units
  bank : p.first / 4096 = p.last / 4096 ↔ units ≤ 4096
  least : units ≤ 4096 → IsLeast {unit | start ≤ unit ∧ InBank unit units} p.first
  gap : p.first < start + units

/-- Samples stand from a unit on, each at the first place for it behind those
before it. A sample takes a unit for each 256 bytes that are begun, and one if
it is empty. -/
structure FirstFit (start : Nat) (samples : List Sample) (placed : List PlacedSample) : Prop where
  contents : placed.map PlacedSample.sample = samples
  fits : ∀ i p, placed[i]? = some p →
    FitsFrom (endUnit start (placed.take i)) (max 1 ((p.sample.data.length + 255) / 256)) p
  span : endUnit start placed ≤
    start + (samples.map fun sample => 2 * max 1 ((sample.data.length + 255) / 256) - 1).sum

/-! ### One sample -/

theorem unitsOf_eq (sample : Sample) :
    unitsOf sample = max 1 ((sample.data.length + 255) / 256) := rfl

section Unit

variable {start units : Nat}

/-- A sample is moved by less than its units. -/
theorem firstUnit_lt (h : 0 < units) : firstUnit start units < start + units := by
  unfold firstUnit bankSize
  dsimp only
  split <;> omega

/-- A sample is not moved, or it is moved to a bank that it would reach into. -/
theorem firstUnit_cases (start units : Nat) :
    (InBank start units ∧ firstUnit start units = start) ∨
      (¬ InBank start units ∧ firstUnit start units = (start + units - 1) / bankSize * bankSize) := by
  by_cases h : InBank start units
  · exact .inl ⟨h, if_pos h⟩
  · exact .inr ⟨h, if_neg h⟩

theorem inBank_firstUnit (hpos : 0 < units) :
    InBank (firstUnit start units) units ↔ units ≤ 4096 := by
  rcases firstUnit_cases start units with ⟨hin, hfirst⟩ | ⟨hout, hfirst⟩
  · rw [hfirst]
    unfold InBank at *
    omega
  · rw [hfirst]
    unfold InBank bankSize at *
    omega

/-- A sample that fits into a bank starts at the first unit from which it lies
in one. -/
theorem firstUnit_isLeast (hpos : 0 < units) (hfits : units ≤ 4096) :
    IsLeast {unit | start ≤ unit ∧ InBank unit units} (firstUnit start units) := by
  refine ⟨⟨le_firstUnit hpos, (inBank_firstUnit hpos).mpr hfits⟩, ?_⟩
  rintro unit ⟨hstart, hin⟩
  rcases firstUnit_cases start units with ⟨-, hfirst⟩ | ⟨-, hfirst⟩
  · rwa [hfirst]
  · -- a unit before the border is in the bank before it, and the last unit is not
    rw [hfirst]
    unfold InBank bankSize at *
    omega

end Unit

/-- The sample with the units that it gets if `start` is the first free one. -/
def fitted (start : Nat) (sample : Sample) : PlacedSample :=
  ⟨sample, firstUnit start (unitsOf sample), firstUnit start (unitsOf sample) + unitsOf sample - 1⟩

theorem last_fitted (start : Nat) (sample : Sample) :
    (fitted start sample).last + 1 = firstUnit start (unitsOf sample) + unitsOf sample := by
  have hpos := unitsOf_pos sample
  unfold fitted
  dsimp only
  omega

theorem fitsFrom_firstUnit (start : Nat) (sample : Sample) :
    FitsFrom start (unitsOf sample) (fitted start sample) where
  le := le_firstUnit (unitsOf_pos sample)
  ends := last_fitted start sample
  bank := inBank_firstUnit (unitsOf_pos sample)
  least := firstUnit_isLeast (unitsOf_pos sample)
  gap := firstUnit_lt (unitsOf_pos sample)

/-! ### All samples -/

/-- The samples with the units that they get from the first free one on, however
large these are. -/
def fittedAll (start : Nat) : List Sample → List PlacedSample
  | [] => []
  | sample :: rest => fitted start sample :: fittedAll ((fitted start sample).last + 1) rest

namespace FirstFit

theorem nil (start : Nat) : FirstFit start [] [] where
  contents := rfl
  fits := by
    intro i p hp
    cases hp
  span := by simp [endUnit]

/-- One more sample before those that follow it. -/
theorem cons {start : Nat} {p : PlacedSample} {samples : List Sample} {placed : List PlacedSample}
    (hp : FitsFrom start (unitsOf p.sample) p) (h : FirstFit (p.last + 1) samples placed) :
    FirstFit start (p.sample :: samples) (p :: placed) where
  contents := by rw [List.map_cons, h.contents]
  fits := by
    intro i q hq
    cases i with
    | zero =>
      obtain rfl := Option.some.inj hq
      exact hp
    | succ i =>
      rw [List.take_succ_cons, endUnit_cons]
      exact h.fits i q hq
  span := by
    have hrest := h.span
    have hends := hp.ends
    have hgap := hp.gap
    rw [unitsOf_eq] at hends hgap
    rw [endUnit_cons, List.map_cons, List.sum_cons]
    omega

end FirstFit

theorem firstFit_fittedAll : ∀ (samples : List Sample) (start : Nat),
    FirstFit start samples (fittedAll start samples)
  | [], start => .nil start
  | sample :: rest, start =>
    .cons (p := fitted start sample) (fitsFrom_firstUnit start sample) (firstFit_fittedAll rest _)

/-- Samples are placed where they fit, or an address is out of range. -/
theorem place_eq : ∀ (samples : List Sample) (start : Nat), place start samples =
    if ∀ p ∈ fittedAll start samples, p.last + 1 < Address.limit then .ok (fittedAll start samples)
    else .error .addressOverflow
  | [], start => by simp [place, fittedAll]
  | sample :: rest, start => by
    have hle : start ≤ firstUnit start (unitsOf sample) := le_firstUnit (unitsOf_pos sample)
    have hlast := last_fitted start sample
    simp only [place, fittedAll, List.forall_mem_cons, hlast, place_eq rest]
    by_cases hlimit : firstUnit start (unitsOf sample) + unitsOf sample < Address.limit
    · rw [if_neg (by omega)]
      split
      · next hrest => rw [if_pos ⟨hlimit, hrest⟩]; rfl
      · next hrest => rw [if_neg fun h => hrest h.2]; rfl
    · rw [if_pos (by omega), if_neg fun h => hlimit h.1]

/-- **Samples are placed by first fit.** As long as all addresses are in range,
the samples keep their order and their data, each one starts at the first unit
behind the one before it where it fits, and it is moved by less than its own
size, which bounds the units of all of them. -/
theorem place_firstFit (start : Nat) (samples : List Sample) : ∃ placed,
    place start samples =
      (if ∀ p ∈ placed, p.last + 1 < 0x10000000000000000 then .ok placed
        else .error .addressOverflow) ∧
    FirstFit start samples placed :=
  ⟨fittedAll start samples, place_eq samples start, firstFit_fittedAll samples start⟩

/-- A sample of one byte more than a unit. -/
def overUnit : Sample := { data := List.replicate 257 0x80 }

/-- One unit before the border of a bank, a sample of two units is moved over the
border, and an empty one takes the unit behind it. -/
theorem place_firstFit_border :
    place 4095 [overUnit, {}] = .ok [⟨overUnit, 4096, 4097⟩, ⟨{}, 4098, 4098⟩] ∧
    FirstFit 4095 [overUnit, {}] [⟨overUnit, 4096, 4097⟩, ⟨{}, 4098, 4098⟩] := by
  have hlength : overUnit.data.length = 257 := List.length_replicate
  have hunits : unitsOf overUnit = 2 := by
    rw [unitsOf_eq, hlength]
    rfl
  have hcomputed : place 4095 [overUnit, {}] =
      .ok [⟨overUnit, 4096, 4097⟩, ⟨{}, 4098, 4098⟩] := by
    simp only [place, hunits]
    rfl
  obtain ⟨placed, hplace, hfit⟩ := place_firstFit 4095 [overUnit, {}]
  rw [hcomputed] at hplace
  split at hplace
  · obtain rfl := Except.ok.inj hplace
    exact ⟨hcomputed, hfit⟩
  · cases hplace

end SampleRom
end Chiptune
