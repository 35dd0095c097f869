/-
# The timer set-up of a frequency

A frequency that is not above the range of the timer is set up with the least
time base that brings it up to that range, and refused if none up to 255 does
(`Tempo.setup_leastBase`). It cannot leave the range at its upper end: a frequency
below the range is multiplied to less than 255 times the lowest one, which is
still a frequency of the timer.

The position of the counter falls with the period of the frequency, so it grows
with the frequency: rounding keeps the order in each operation. At the ends of the
range the position rounds to 0 and to 1023, so the counter never overflows.

Key definitions: `Tempo.InRange`, `Tempo.Reaches`, `Tempo.wholePosition`,
`Tempo.setupWith`.
Key theorems: `Tempo.counterPosition_mono`, `Tempo.counter_eq`,
`Tempo.mul_le_highest`, `Tempo.setup_cases`, `Tempo.setup_leastBase`.
-/
import Chiptune.Proofs.Rounding
import Chiptune.Tempo
import Mathlib.Data.Nat.Find
import Mathlib.Order.Bounds.Defs

namespace Chiptune
namespace Tempo

variable {hz hz' : Binary64} {base : Nat}

/-- A frequency of the timer. -/
def InRange (hz : Binary64) : Prop := lowest ≤ hz ∧ hz ≤ highest

/-- A time base brings a frequency up to the range of the timer. -/
def Reaches (hz : Binary64) (base : Nat) : Prop :=
  1 ≤ base ∧ base ≤ 255 ∧ lowest ≤ hz * Binary64.ofNat base

instance (hz : Binary64) : DecidablePred (Reaches hz) := fun base =>
  inferInstanceAs (Decidable (1 ≤ base ∧ base ≤ 255 ∧ lowest ≤ hz * Binary64.ofNat base))

/-! ### The counter -/

theorem positive_lowest : lowest.Positive := by decide +kernel

theorem positive_highest : highest.Positive := by decide +kernel

theorem InRange.positive (h : InRange hz) : hz.Positive :=
  positive_lowest.between positive_highest h.1 h.2

/-- The position grows with the frequency. -/
theorem counterPosition_mono (h : InRange hz) (h' : InRange hz') (hle : hz ≤ hz') :
    counterPosition hz ≤ counterPosition hz' := by
  have hone : (Binary64.ofNat 1).Positive := Binary64.positive_ofNat (by decide) (by decide)
  apply Binary64.sub_le_sub_left (Binary64.positive_ofNat (by decide) (by decide))
  apply Binary64.mul_le_mul_right (Binary64.positive_ofNat (by decide) (by decide))
  apply Binary64.div_le_div_right (Binary64.positive_ofNat (by decide) (by decide))
  exact Binary64.div_le_div_left hone h.positive h'.positive hle

/-- The rounded position is one of the timer's counters. -/
theorem round_counterPosition (h : InRange hz) :
    Binary64.ofNat 0 ≤ (counterPosition hz).round ∧
      (counterPosition hz).round ≤ Binary64.ofNat 1023 := by
  have hlowest : InRange lowest := by unfold InRange; decide +kernel
  have hhighest : InRange highest := by unfold InRange; decide +kernel
  have hfirst : Binary64.ofNat 0 ≤ (counterPosition lowest).round := by decide +kernel
  have hlast : (counterPosition highest).round ≤ Binary64.ofNat 1023 := by decide +kernel
  exact ⟨Binary64.le_trans hfirst (Binary64.round_le_round (counterPosition_mono hlowest h h.1)),
    Binary64.le_trans (Binary64.round_le_round (counterPosition_mono h hhighest h.2)) hlast⟩

/-- The rounded position as a whole number. -/
def wholePosition (hz : Binary64) : Nat :=
  (counterPosition hz).round.rank.toNat / Binary64.unitsInOne

theorem wholePosition_le (h : InRange hz) : wholePosition hz ≤ 1023 := by
  have hle := (Binary64.le_iff.mp (round_counterPosition h).2).2.2
  rw [Binary64.rank_ofNat (by decide)] at hle
  exact Nat.div_le_of_le_mul (by rw [Nat.mul_comm]; exact Int.toNat_le.mpr hle)

theorem wholePosition_mono (h : InRange hz) (h' : InRange hz') (hle : hz ≤ hz') :
    wholePosition hz ≤ wholePosition hz' := by
  have hround := Binary64.round_le_round (counterPosition_mono h h' hle)
  exact Nat.div_le_div_right (Int.toNat_le_toNat (Binary64.le_iff.mp hround).2.2)

/-- A frequency of the timer has a counter. -/
theorem counter_eq (h : InRange hz) : counter hz = .ok (wholePosition hz).toUInt16 := by
  obtain ⟨hfirst, hlast⟩ := round_counterPosition h
  obtain ⟨s, x, hx, hunits⟩ := Binary64.exists_finite_of_le hfirst hlast (by decide)
  unfold counter wholePosition
  dsimp only
  rw [if_pos ⟨hfirst, hlast⟩, hunits, hx, Int.toNat_natCast]
  dsimp only [Binary64.Magnitude.floor]

/-! ### The time base -/

theorem reaches_one_iff : Reaches hz 1 ↔ lowest ≤ hz := by
  simp [Reaches, Binary64.mul_one]

/-- Where the first time base is not enough, the frequency is below the range. -/
theorem lt_lowest (hhigh : hz ≤ highest) (hone : ¬ Reaches hz 1) : hz < lowest := by
  have hnot : ¬ lowest ≤ hz := fun hlow => hone (reaches_one_iff.mpr hlow)
  have hnan : lowest ≠ .nan := by decide +kernel
  exact Binary64.lt_iff.mpr ⟨Binary64.le_of_not_le hnan (Binary64.le_iff.mp hhigh).1 hnot, hnot⟩

/-- A frequency below the range is not multiplied beyond it. -/
theorem mul_le_highest (hlt : hz < lowest) (hpos : 1 ≤ base) (hlimit : base ≤ 255) :
    hz * Binary64.ofNat base ≤ highest := by
  have hbase : (Binary64.ofNat base).Positive :=
    Binary64.positive_ofNat hpos (Nat.le_trans hlimit (by decide))
  have hfactor : lowest * Binary64.ofNat base ≤ lowest * Binary64.ofNat 255 := by
    rw [Binary64.mul_comm lowest, Binary64.mul_comm lowest]
    exact Binary64.mul_le_mul_right positive_lowest (Binary64.ofNat_le_ofNat hlimit)
  have htop : lowest * Binary64.ofNat 255 ≤ highest := by decide +kernel
  have hbelow : hz * Binary64.ofNat base ≤ lowest * Binary64.ofNat base :=
    Binary64.mul_le_mul_right hbase (Binary64.lt_iff.mp hlt).1
  exact Binary64.le_trans hbelow (Binary64.le_trans hfactor htop)

/-- The search beyond the first time base finds the least one. -/
theorem timeBase?_eq_some (htwo : 2 ≤ base) (hleast : IsLeast {base | Reaches hz base} base) :
    timeBase? hz = some base := by
  obtain ⟨⟨-, hlimit, hlow⟩, hmin⟩ := hleast
  refine List.find?_range'_eq_some.mpr ⟨decide_eq_true hlow, ?_, ?_⟩
  · rw [List.mem_range'_1]
    omega
  · intro i hi hlt
    have hnot : ¬ lowest ≤ hz * Binary64.ofNat i := by
      intro hle
      have hbase : base ≤ i := hmin ⟨by omega, by omega, hle⟩
      omega
    simp [hnot]

theorem timeBase?_eq_none (h : ∀ base, ¬ Reaches hz base) : timeBase? hz = none := by
  refine List.find?_range'_eq_none.mpr fun i hi hlt => ?_
  have hnot : ¬ lowest ≤ hz * Binary64.ofNat i := fun hle => h i ⟨by omega, by omega, hle⟩
  simp [hnot]

/-! ### The set-up -/

/-- The set-up with a time base. -/
def setupWith (hz : Binary64) (base : Nat) : TimerSetup :=
  ⟨(wholePosition (hz * Binary64.ofNat base)).toUInt16, base.toUInt8⟩

/-- The time base brings the frequency into the range, and the set-up is that of
the frequency it is multiplied to. -/
theorem setup_of_isLeast (hhigh : hz ≤ highest) (hleast : IsLeast {base | Reaches hz base} base) :
    InRange (hz * Binary64.ofNat base) ∧ setup hz = .ok (setupWith hz base) := by
  obtain ⟨hone, hlimit, hlow⟩ := hleast.1
  unfold setup setupWith
  rw [if_neg (not_not_intro hhigh)]
  rcases Nat.eq_or_lt_of_le hone with rfl | htwo
  · rw [Binary64.mul_one] at hlow ⊢
    have hrange : InRange hz := ⟨hlow, hhigh⟩
    refine ⟨hrange, ?_⟩
    rw [if_neg fun hlt => (Binary64.lt_iff.mp hlt).2 hlow, counter_eq hrange]
    rfl
  · have hlt : hz < lowest := lt_lowest hhigh fun h => Nat.not_le.mpr htwo (hleast.2 h)
    have hrange : InRange (hz * Binary64.ofNat base) := ⟨hlow, mul_le_highest hlt hone hlimit⟩
    refine ⟨hrange, ?_⟩
    rw [if_pos hlt, timeBase?_eq_some htwo hleast]
    dsimp only
    rw [if_neg fun hgt => (Binary64.lt_iff.mp hgt).2 hrange.2, counter_eq hrange]
    rfl

theorem setup_of_not_reaches (h : ¬ (hz ≤ highest ∧ ∃ base, Reaches hz base)) :
    setup hz = .error (.unsupportedFrequency hz) := by
  unfold setup
  by_cases hhigh : hz ≤ highest
  · have hnone : ∀ base, ¬ Reaches hz base := fun base hbase => h ⟨hhigh, base, hbase⟩
    rw [if_neg (not_not_intro hhigh), if_pos (lt_lowest hhigh (hnone 1)), timeBase?_eq_none hnone]
  · rw [if_pos hhigh]

/-- A frequency is refused, or set up with its least time base. -/
theorem setup_cases (hz : Binary64) :
    (¬ (hz ≤ highest ∧ ∃ base, Reaches hz base) ∧ setup hz = .error (.unsupportedFrequency hz)) ∨
    ∃ base, hz ≤ highest ∧ IsLeast {base | Reaches hz base} base ∧
      InRange (hz * Binary64.ofNat base) ∧ setup hz = .ok (setupWith hz base) := by
  by_cases hreaches : hz ≤ highest ∧ ∃ base, Reaches hz base
  · obtain ⟨hhigh, hbase⟩ := hreaches
    have hleast : IsLeast {base | Reaches hz base} (Nat.find hbase) :=
      ⟨Nat.find_spec hbase, fun _ hother => Nat.find_min' hbase hother⟩
    exact .inr ⟨_, hhigh, hleast, setup_of_isLeast hhigh hleast⟩
  · exact .inl ⟨hreaches, setup_of_not_reaches hreaches⟩

theorem setup_eq_ok {timer : TimerSetup} (h : setup hz = .ok timer) :
    ∃ base, IsLeast {base | Reaches hz base} base ∧ InRange (hz * Binary64.ofNat base) ∧
      timer = setupWith hz base := by
  rcases setup_cases hz with ⟨-, herror⟩ | ⟨base, -, hleast, hrange, hok⟩
  · rw [herror] at h
    cases h
  · rw [hok] at h
    exact ⟨base, hleast, hrange, (Except.ok.inj h).symm⟩

theorem timeBase_setupWith (h : Reaches hz base) : (setupWith hz base).timeBase.toNat = base :=
  Nat.mod_eq_of_lt (Nat.lt_succ_of_le h.2.1)

theorem counter_setupWith (h : InRange (hz * Binary64.ofNat base)) :
    (setupWith hz base).counter.toNat = wholePosition (hz * Binary64.ofNat base) :=
  Nat.mod_eq_of_lt (Nat.lt_of_le_of_lt (wholePosition_le h) (by decide))

/-- **The time base of a set-up is the least one.** A frequency is set up or
refused as unsupported, and its counter never overflows. It is set up if it is not
above the range and some time base brings it up to the range; the least such time
base is taken, and the counter grows with the frequency it is multiplied to. -/
theorem setup_leastBase (hz : Binary64) :
    (setup hz = .error (.unsupportedFrequency hz) ∨ ∃ timer, setup hz = .ok timer) ∧
    ((∃ timer, setup hz = .ok timer) ↔ hz ≤ highest ∧ ∃ base, Reaches hz base) ∧
    ∀ timer, setup hz = .ok timer →
      IsLeast {base | Reaches hz base} timer.timeBase.toNat ∧
      (lowest ≤ hz → timer.timeBase = 1) ∧
      counter (hz * Binary64.ofNat timer.timeBase.toNat) = .ok timer.counter ∧
      timer.counter.toNat ≤ 0x3FF ∧
      ∀ hz' timer', setup hz' = .ok timer' →
        hz * Binary64.ofNat timer.timeBase.toNat ≤ hz' * Binary64.ofNat timer'.timeBase.toNat →
        timer.counter ≤ timer'.counter := by
  refine ⟨?_, ?_, ?_⟩
  · rcases setup_cases hz with ⟨-, herror⟩ | ⟨base, -, -, -, hok⟩
    · exact .inl herror
    · exact .inr ⟨_, hok⟩
  · rcases setup_cases hz with ⟨hnot, herror⟩ | ⟨base, hhigh, hleast, -, hok⟩
    · simp [hnot, herror]
    · exact ⟨fun _ => ⟨hhigh, base, hleast.1⟩, fun _ => ⟨_, hok⟩⟩
  · intro timer htimer
    obtain ⟨base, hleast, hrange, rfl⟩ := setup_eq_ok htimer
    rw [timeBase_setupWith hleast.1]
    refine ⟨hleast, ?_, counter_eq hrange, ?_, ?_⟩
    · intro hlow
      have hone : base ≤ 1 := hleast.2 (reaches_one_iff.mpr hlow)
      have hbase : base = 1 := Nat.le_antisymm hone hleast.1.1
      rw [hbase]
      rfl
    · rw [counter_setupWith hrange]
      exact wholePosition_le hrange
    · intro hz' timer' htimer' hle
      obtain ⟨base', hleast', hrange', rfl⟩ := setup_eq_ok htimer'
      rw [timeBase_setupWith hleast'.1] at hle
      rw [UInt16.le_iff_toNat_le, counter_setupWith hrange, counter_setupWith hrange']
      exact wholePosition_mono hrange hrange' hle

/-- Thirty ticks a second need a time base of two. -/
theorem setup_leastBase_thirty :
    setup (Binary64.ofNat 30) = .ok ⟨98, 2⟩ ∧ IsLeast {base | Reaches (Binary64.ofNat 30) base} 2 := by
  have hok : setup (Binary64.ofNat 30) = .ok ⟨98, 2⟩ := by decide +kernel
  exact ⟨hok, ((setup_leastBase (Binary64.ofNat 30)).2.2 _ hok).1⟩

end Tempo
end Chiptune
