/-
# Rounding keeps order

A quotient is rounded to a multiple of the spacing around it. The spacing grows
with the quotient, but only at powers of two, which are multiples of the spacings
on both sides. So a quotient below such a border is not rounded beyond it, one
above is not rounded below it, and between two borders the spacing stays the
same: rounding is monotone (`Binary64.nearest_mono`). A quotient that is a
magnitude is kept (`Binary64.nearest_exact`).

Numbers are compared by their units, with the first magnitude out of range for
the infinite ones (`Binary64.rank`), so each operation that rounds a monotone
function of its operands is monotone itself.

Key definitions: `Binary64.toMultiple`, `Binary64.rank`, `Binary64.Positive`.
Key theorems: `Binary64.roundHalfEven_mono`, `Binary64.nearest_mono`,
`Binary64.nearest_exact`, `Binary64.le_iff`, `Binary64.ofRatio_le_ofRatio`,
`Binary64.mul_le_mul_right`, `Binary64.div_le_div_right`,
`Binary64.div_le_div_left`, `Binary64.sub_le_sub_left`,
`Binary64.round_le_round`.
-/
import Chiptune.Binary64
import Mathlib.Algebra.GroupWithZero.Nat

namespace Chiptune
namespace Binary64

/-! ### Whole numbers -/

section Whole

variable {num den num' den' : Nat}

theorem div_le_roundHalfEven (num den : Nat) : num / den ≤ roundHalfEven num den := by
  unfold roundHalfEven
  split <;> omega

/-- A whole number is kept. -/
theorem roundHalfEven_mul (m : Nat) (hden : 0 < den) : roundHalfEven (m * den) den = m := by
  have hmod : m * den % den = 0 := Nat.mul_mod_left m den
  have hdiv : m * den / den = m := Nat.mul_div_cancel m hden
  unfold roundHalfEven
  rw [hmod, hdiv, if_pos (.inl (by omega))]

theorem div_le_div_of_mul_le (hden : 0 < den) (hden' : 0 < den') (h : num * den' ≤ num' * den) :
    num / den ≤ num' / den' := by
  rw [Nat.le_div_iff_mul_le hden']
  have hfloor : num / den * den ≤ num := Nat.div_mul_le_self num den
  have hchain : num / den * den' * den ≤ num' * den := by
    calc num / den * den' * den = num / den * den * den' := Nat.mul_right_comm ..
      _ ≤ num * den' := Nat.mul_le_mul_right den' hfloor
      _ ≤ num' * den := h
  exact Nat.le_of_mul_le_mul_right hchain hden

/-- Rounding to whole numbers is monotone. -/
theorem roundHalfEven_mono (hden : 0 < den) (hden' : 0 < den') (h : num * den' ≤ num' * den) :
    roundHalfEven num den ≤ roundHalfEven num' den' := by
  rcases Nat.lt_or_eq_of_le (div_le_div_of_mul_le hden hden' h) with hlt | heq
  · calc roundHalfEven num den ≤ num / den + 1 := roundHalfEven_le num den
      _ ≤ num' / den' := hlt
      _ ≤ roundHalfEven num' den' := div_le_roundHalfEven num' den'
  · -- the whole parts are the same, so the remainders decide
    have hnum := Nat.div_add_mod num den
    have hnum' := Nat.div_add_mod num' den'
    have hrest : num % den * den' ≤ num' % den' * den := by
      rw [← hnum, ← hnum', heq, Nat.add_mul, Nat.add_mul, Nat.mul_right_comm den,
        Nat.mul_right_comm den', Nat.mul_comm den den'] at h
      omega
    unfold roundHalfEven
    rw [heq]
    by_cases hdown : 2 * (num' % den') < den' ∨ (2 * (num' % den') = den' ∧ num' / den' % 2 = 0)
    · have hhalf : 2 * (num % den) * den' ≤ 2 * (num' % den') * den := by
        rw [Nat.mul_assoc, Nat.mul_assoc]
        exact Nat.mul_le_mul_left 2 hrest
      have hsame : 2 * (num % den) < den ∨ (2 * (num % den) = den ∧ num' / den' % 2 = 0) := by
        rcases hdown with hbelow | ⟨hmid, heven⟩
        · left
          have hlt : 2 * (num % den) * den' < den * den' := by
            calc 2 * (num % den) * den' ≤ 2 * (num' % den') * den := hhalf
              _ < den' * den := Nat.mul_lt_mul_of_pos_right hbelow hden
              _ = den * den' := Nat.mul_comm ..
          exact Nat.lt_of_mul_lt_mul_right hlt
        · rw [hmid, Nat.mul_comm den' den] at hhalf
          have hle := Nat.le_of_mul_le_mul_right hhalf hden'
          omega
      exact Nat.le_of_eq (by rw [if_pos hdown, if_pos hsame])
    · rw [if_neg hdown]
      split <;> omega

end Whole

/-! ### Magnitudes -/

section Magnitudes

variable {num den num' den' s b : Nat}

/-- The multiple of a number that is nearest to a quotient. -/
def toMultiple (s num den : Nat) : Nat := roundHalfEven num (den * s) * s

theorem spacing_pos (n : Nat) : 0 < spacing n := Nat.two_pow_pos _

theorem toMultiple_mono (hs : 0 < s) (hden : 0 < den) (hden' : 0 < den')
    (h : num * den' ≤ num' * den) : toMultiple s num den ≤ toMultiple s num' den' := by
  apply Nat.mul_le_mul_right
  apply roundHalfEven_mono (Nat.mul_pos hden hs) (Nat.mul_pos hden' hs)
  rw [← Nat.mul_assoc, ← Nat.mul_assoc]
  exact Nat.mul_le_mul_right s h

/-- A multiple is kept. -/
theorem toMultiple_exact (hs : 0 < s) (hden : 0 < den) (hb : s ∣ b) :
    toMultiple s (b * den) den = b := by
  obtain ⟨k, rfl⟩ := hb
  have hnum : s * k * den = k * (den * s) := by
    rw [Nat.mul_comm den s, ← Nat.mul_assoc, Nat.mul_comm k s]
  rw [toMultiple, hnum, roundHalfEven_mul k (Nat.mul_pos hden hs), Nat.mul_comm]

/-- A multiple below a quotient stays below it. -/
theorem le_toMultiple (hs : 0 < s) (hden : 0 < den) (hb : s ∣ b) (h : b * den ≤ num) :
    b ≤ toMultiple s num den := by
  calc b = toMultiple s (b * den) den := (toMultiple_exact hs hden hb).symm
    _ ≤ toMultiple s num den := toMultiple_mono hs hden hden (Nat.mul_le_mul_right den h)

theorem toMultiple_le (hs : 0 < s) (hden : 0 < den) (hb : s ∣ b) (h : num ≤ b * den) :
    toMultiple s num den ≤ b := by
  calc toMultiple s num den ≤ toMultiple s (b * den) den :=
        toMultiple_mono hs hden hden (Nat.mul_le_mul_right den h)
    _ = b := toMultiple_exact hs hden hb

/-- Where the spacing changes, there is a power of two between two numbers, and
it is a multiple of the spacings of both. -/
theorem exists_border {n k : Nat} (hle : n ≤ k) (hne : spacing n ≠ spacing k) :
    ∃ b, n < b ∧ b ≤ k ∧ spacing n ∣ b ∧ spacing k ∣ b := by
  have hk : k ≠ 0 := by
    rintro rfl
    exact hne (by rw [Nat.le_zero.mp hle])
  have hlog : n.log2 < k.log2 := by
    have hmono : n.log2 ≤ k.log2 := by
      rcases Nat.eq_zero_or_pos n with rfl | hn
      · simp
      · exact (Nat.le_log2 hk).mpr (Nat.le_trans (Nat.log2_self_le (by omega)) hle)
    refine Nat.lt_of_le_of_ne hmono fun heq => hne ?_
    rw [spacing, spacing, heq]
  refine ⟨Nat.pow 2 k.log2, ?_, Nat.log2_self_le hk, ?_, ?_⟩
  · rcases Nat.eq_zero_or_pos n with rfl | hn
    · exact Nat.two_pow_pos _
    · exact (Nat.log2_lt (by omega)).mp hlog
  · exact Nat.pow_dvd_pow 2 (by omega)
  · exact Nat.pow_dvd_pow 2 (by omega)

/-- **Rounding is monotone.** -/
theorem nearest_mono (hden : 0 < den) (hden' : 0 < den') (h : num * den' ≤ num' * den) :
    nearest num den ≤ nearest num' den' := by
  show toMultiple (spacing (num / den)) num den ≤ toMultiple (spacing (num' / den')) num' den'
  by_cases hsame : spacing (num / den) = spacing (num' / den')
  · rw [hsame]
    exact toMultiple_mono (spacing_pos _) hden hden' h
  · obtain ⟨b, hlt, hle, hdvd, hdvd'⟩ :=
      exists_border (div_le_div_of_mul_le hden hden' h) hsame
    have hbelow : num ≤ b * den := Nat.le_of_lt ((Nat.div_lt_iff_lt_mul hden).mp hlt)
    have habove : b * den' ≤ num' := (Nat.le_div_iff_mul_le hden').mp hle
    calc toMultiple (spacing (num / den)) num den ≤ b :=
          toMultiple_le (spacing_pos _) hden hdvd hbelow
      _ ≤ toMultiple (spacing (num' / den')) num' den' :=
          le_toMultiple (spacing_pos _) hden' hdvd' habove

/-- **Magnitudes are kept.** -/
theorem nearest_exact {n : Nat} (hn : spacing n ∣ n) (hden : 0 < den) : nearest (n * den) den = n := by
  show toMultiple (spacing (n * den / den)) (n * den) den = n
  rw [Nat.mul_div_cancel n hden]
  exact toMultiple_exact (spacing_pos n) hden hn

/-- Only the quotient counts. -/
theorem nearest_mul_mul {k : Nat} (hden : 0 < den) (hk : 0 < k) :
    nearest (num * k) (den * k) = nearest num den := by
  have hpos : 0 < den * k := Nat.mul_pos hden hk
  have hcross : num * k * den = num * (den * k) := by
    rw [Nat.mul_assoc, Nat.mul_comm k den]
  exact Nat.le_antisymm (nearest_mono hpos hden (Nat.le_of_eq hcross))
    (nearest_mono hden hpos (Nat.le_of_eq hcross.symm))

end Magnitudes

/-! ### Order -/

/-- A whole number with a sign. -/
def signed : Bool → Nat → Int
  | false, n => n
  | true, n => -n

/-- The place of a number in the order. The infinite ones are beyond all finite
ones, and not-a-number, which is not in the order, gets zero. -/
def rank : Binary64 → Int
  | .nan => 0
  | .infinite s => signed s unitLimit
  | .finite s x => signed s x.units

/-- A finite number above zero. -/
def Positive (a : Binary64) : Prop := 0 < a.rank ∧ a.rank < unitLimit

instance (a : Binary64) : Decidable a.Positive :=
  inferInstanceAs (Decidable (0 < a.rank ∧ a.rank < unitLimit))

section Order

variable {a b c : Binary64}

@[simp] theorem signed_false (n : Nat) : signed false n = n := rfl

@[simp] theorem signed_true (n : Nat) : signed true n = -n := rfl

theorem signedUnits_eq (s : Bool) (x : Magnitude) : signedUnits s x = signed s x.units := by
  cases s <;> rfl

theorem signed_lt {n k : Nat} (s : Bool) (h : n < k) : -(k : Int) < signed s n ∧ signed s n < k := by
  cases s <;> simp only [signed_false, signed_true] <;> omega

/-- Functions that are monotone and keep zero are monotone with signs. -/
theorem signed_le_signed {s t : Bool} {n k : Nat} {g : Nat → Nat} (hzero : g 0 = 0)
    (hg : ∀ {i j}, i ≤ j → g i ≤ g j) (h : signed s n ≤ signed t k) :
    signed s (g n) ≤ signed t (g k) := by
  cases s <;> cases t <;> simp only [signed_false, signed_true] at h ⊢
  case false.false =>
    have hle : g n ≤ g k := hg (by omega)
    omega
  case false.true =>
    -- a number without the sign is below one with it, so both are zero
    obtain rfl : n = 0 := by omega
    obtain rfl : k = 0 := by omega
    omega
  case true.false => omega
  case true.true =>
    have hle : g k ≤ g n := hg (by omega)
    omega

/-- **Numbers are compared by rank.** -/
theorem le_iff : a ≤ b ↔ a ≠ .nan ∧ b ≠ .nan ∧ a.rank ≤ b.rank := by
  have hpos := unitLimit_pos
  show a.le b = true ↔ _
  cases a with
  | nan => simp [le]
  | infinite s =>
    cases b with
    | nan => simp [le]
    | infinite t => cases s <;> cases t <;> grind [le, rank, signed_false, signed_true]
    | finite t y =>
      have hy := signed_lt t y.bounded
      cases s <;> grind [le, rank, signed_false, signed_true]
  | finite s x =>
    have hx := signed_lt s x.bounded
    cases b with
    | nan => simp [le]
    | infinite t => cases t <;> grind [le, rank, signed_false, signed_true]
    | finite t y => simp [le, rank, signedUnits_eq]

theorem neg_infinite_le (hb : b ≠ .nan) : .infinite true ≤ b := by
  show le _ b = true
  cases b with
  | nan => exact absurd rfl hb
  | infinite t => rfl
  | finite t y => rfl

theorem le_infinite (ha : a ≠ .nan) : a ≤ .infinite false := by
  show a.le _ = true
  cases a with
  | nan => exact absurd rfl ha
  | infinite s => cases s <;> rfl
  | finite s x => rfl

/-- Numbers in order are finite, or one of them is the first or the last of all. -/
theorem le_cases (h : a ≤ b) : (a = .infinite true ∧ b ≠ .nan) ∨ (b = .infinite false ∧ a ≠ .nan) ∨
    ∃ s x t y, a = .finite s x ∧ b = .finite t y ∧ signed s x.units ≤ signed t y.units := by
  obtain ⟨ha, hb, hrank⟩ := le_iff.mp h
  cases a with
  | nan => exact absurd rfl ha
  | infinite s =>
    cases s with
    | true => exact .inl ⟨rfl, hb⟩
    | false =>
      cases b with
      | nan => exact absurd rfl hb
      | infinite t =>
        cases t with
        | false => exact .inr (.inl ⟨rfl, ha⟩)
        | true => cases h
      | finite t y => cases h
  | finite s x =>
    cases b with
    | nan => exact absurd rfl hb
    | infinite t =>
      cases t with
      | false => exact .inr (.inl ⟨rfl, ha⟩)
      | true => cases h
    | finite t y => exact .inr (.inr ⟨s, x, t, y, rfl, rfl, hrank⟩)

protected theorem le_trans (h : a ≤ b) (h' : b ≤ c) : a ≤ c := by
  rw [le_iff] at h h' ⊢
  exact ⟨h.1, h'.2.1, Int.le_trans h.2.2 h'.2.2⟩

protected theorem le_of_not_le (ha : a ≠ .nan) (hb : b ≠ .nan) (h : ¬ a ≤ b) : b ≤ a := by
  rw [le_iff] at h ⊢
  refine ⟨hb, ha, Int.le_of_lt (Int.not_le.mp fun hle => h ⟨ha, hb, hle⟩)⟩

theorem lt_iff : a < b ↔ a ≤ b ∧ ¬ b ≤ a := by
  show (a.le b = true ∧ b.le a = false) ↔ (a.le b = true ∧ ¬ b.le a = true)
  rw [Bool.not_eq_true]

theorem Positive.exists_finite (h : a.Positive) : ∃ x : Magnitude, 0 < x.units ∧ a = .finite false x := by
  obtain ⟨hpos, hlt⟩ := h
  cases a with
  | nan => simp [rank] at hpos
  | infinite s => cases s <;> simp only [rank, signed_false, signed_true] at hpos hlt <;> omega
  | finite s x =>
    cases s with
    | false => exact ⟨x, Int.natCast_pos.mp hpos, rfl⟩
    | true =>
      simp only [rank, signed_true] at hpos
      omega

/-- What lies between positive numbers is positive. -/
theorem Positive.between (ha : a.Positive) (hc : c.Positive) (h : a ≤ b) (h' : b ≤ c) : b.Positive :=
  ⟨Int.lt_of_lt_of_le ha.1 (le_iff.mp h).2.2, Int.lt_of_le_of_lt (le_iff.mp h').2.2 hc.2⟩

end Order

/-! ### Nearest numbers -/

section Ratios

theorem unitsInOne_pos : 0 < unitsInOne := by
  unfold unitsInOne
  generalize 1074 = k
  exact Nat.two_pow_pos k

theorem ofRatio_ne_nan (s : Bool) (num den : Nat) : ofRatio s num den ≠ .nan := by
  unfold ofRatio
  split <;> simp

theorem rank_ofRatio (s : Bool) (num den : Nat) :
    (ofRatio s num den).rank = signed s (min (nearest num den) unitLimit) := by
  unfold ofRatio
  split
  · next h => rw [Nat.min_eq_left (Nat.le_of_lt h), rank]
  · next h => rw [Nat.min_eq_right (Nat.le_of_not_lt h), rank]

theorem nearest_zero {den : Nat} (hden : 0 < den) : nearest 0 den = 0 := by
  have h : nearest (0 * den) den = 0 := nearest_exact (Nat.dvd_zero _) hden
  rwa [Nat.zero_mul] at h

/-- Quotients are in the order of their nearest numbers. -/
theorem ofRatio_le_ofRatio {s t : Bool} {num den num' den' : Nat} (hden : 0 < den) (hden' : 0 < den')
    (h : signed s (num * den') ≤ signed t (num' * den)) :
    ofRatio s num den ≤ ofRatio t num' den' := by
  refine le_iff.mpr ⟨ofRatio_ne_nan _ _ _, ofRatio_ne_nan _ _ _, ?_⟩
  rw [rank_ofRatio, rank_ofRatio, ← nearest_mul_mul hden hden', ← nearest_mul_mul hden' hden,
    Nat.mul_comm den' den]
  have hpos : 0 < den * den' := Nat.mul_pos hden hden'
  refine @signed_le_signed s t _ _ (fun n => min (nearest n (den * den')) unitLimit) ?_ ?_ h
  · simp [nearest_zero hpos]
  · intro i j hij
    have hle := nearest_mono hpos hpos (Nat.mul_le_mul_right (den * den') hij)
    omega

/-- A finite number is kept. -/
theorem ofRatio_exact (s : Bool) (x : Magnitude) {den : Nat} (hden : 0 < den) :
    ofRatio s (x.units * den) den = .finite s x := by
  unfold ofRatio
  simp only [nearest_exact x.spaced hden, x.bounded, dif_pos]

end Ratios

/-! ### Operations -/

section Operations

variable {a b c : Binary64}

theorem infinite_mul_finite (s t : Bool) (y : Magnitude) :
    infinite s * finite t y = if y.units = 0 then .nan else .infinite (s != t) := rfl

theorem finite_mul_finite (s t : Bool) (x y : Magnitude) :
    finite s x * finite t y = ofRatio (s != t) (x.units * y.units) unitsInOne := by
  show mul (.finite s x) (.finite t y) = _
  rw [mul]

theorem infinite_div_finite (s t : Bool) (y : Magnitude) :
    infinite s / finite t y = .infinite (s != t) := rfl

theorem finite_div_finite {y : Magnitude} (s t : Bool) (x : Magnitude) (hy : 0 < y.units) :
    finite s x / finite t y = ofRatio (s != t) (x.units * unitsInOne) y.units :=
  if_neg (Nat.ne_of_gt hy)

theorem finite_sub_infinite (s t : Bool) (x : Magnitude) :
    finite s x - infinite t = .infinite (!t) := rfl

/-- An operation that keeps infinite numbers and rounds a monotone function of
the units of finite ones is monotone. -/
theorem map_le_map {f : Binary64 → Binary64} {g : Nat → Nat} {den : Nat} (hden : 0 < den)
    (hzero : g 0 = 0) (hg : ∀ {i j}, i ≤ j → g i ≤ g j)
    (hinf : ∀ s, f (.infinite s) = .infinite s)
    (hfin : ∀ s x, f (.finite s x) = ofRatio s (g x.units) den) (h : a ≤ b) : f a ≤ f b := by
  have hnan : ∀ c, c ≠ .nan → f c ≠ .nan := by
    intro c hc
    cases c with
    | nan => exact absurd rfl hc
    | infinite s => simp [hinf]
    | finite s x => simpa only [hfin] using ofRatio_ne_nan _ _ _
  rcases le_cases h with ⟨rfl, hb⟩ | ⟨rfl, ha⟩ | ⟨s, x, t, y, rfl, rfl, hle⟩
  · rw [hinf]
    exact neg_infinite_le (hnan b hb)
  · rw [hinf]
    exact le_infinite (hnan a ha)
  · rw [hfin, hfin]
    apply ofRatio_le_ofRatio hden hden
    apply @signed_le_signed s t _ _ (fun n => g n * den) _ _ hle
    · rw [hzero, Nat.zero_mul]
    · intro i j hij
      exact Nat.mul_le_mul_right den (hg hij)

protected theorem mul_le_mul_right (hc : c.Positive) (h : a ≤ b) : a * c ≤ b * c := by
  obtain ⟨z, hz, rfl⟩ := hc.exists_finite
  apply @map_le_map _ _ (· * .finite false z) (· * z.units) unitsInOne unitsInOne_pos
    (Nat.zero_mul _) (Nat.mul_le_mul_right z.units) _ _ h
  · intro s
    rw [infinite_mul_finite, if_neg (Nat.ne_of_gt hz), Bool.bne_false]
  · intro s x
    rw [finite_mul_finite, Bool.bne_false]

protected theorem div_le_div_right (hc : c.Positive) (h : a ≤ b) : a / c ≤ b / c := by
  obtain ⟨z, hz, rfl⟩ := hc.exists_finite
  apply @map_le_map _ _ (· / .finite false z) (· * unitsInOne) z.units hz
    (Nat.zero_mul _) (Nat.mul_le_mul_right unitsInOne) _ _ h
  · intro s
    rw [infinite_div_finite, Bool.bne_false]
  · intro s x
    rw [finite_div_finite s false x hz, Bool.bne_false]

theorem round_le_round (h : a ≤ b) : a.round ≤ b.round := by
  have hone := unitsInOne_pos
  apply @map_le_map _ _ round
    (fun n => (2 * n + unitsInOne) / (2 * unitsInOne) * unitsInOne) 1 (by decide) _ _
    (fun _ => rfl) (fun _ _ => rfl) h
  · rw [Nat.mul_zero, Nat.zero_add, Nat.div_eq_of_lt (by omega), Nat.zero_mul]
  · intro i j hij
    exact Nat.mul_le_mul_right _ (Nat.div_le_div_right (by omega))

/-- A larger divisor gives a smaller quotient. -/
protected theorem div_le_div_left (hc : c.Positive) (ha : a.Positive) (hb : b.Positive) (h : a ≤ b) :
    c / b ≤ c / a := by
  obtain ⟨x, hx, rfl⟩ := ha.exists_finite
  obtain ⟨y, hy, rfl⟩ := hb.exists_finite
  obtain ⟨z, -, rfl⟩ := hc.exists_finite
  have hunits : x.units ≤ y.units := Int.ofNat_le.mp (le_iff.mp h).2.2
  rw [finite_div_finite _ _ _ hx, finite_div_finite _ _ _ hy]
  apply ofRatio_le_ofRatio hy hx
  exact Int.ofNat_le.mpr (Nat.mul_le_mul_left _ hunits)

/-- The number nearest to a number of units. -/
def ofUnits (d : Int) : Binary64 := ofRatio (decide (d < 0)) d.natAbs 1

theorem ofUnits_le_ofUnits {d e : Int} (h : d ≤ e) : ofUnits d ≤ ofUnits e := by
  have hsigned : ∀ i : Int, signed (decide (i < 0)) (i.natAbs * 1) = i := by
    intro i
    by_cases hi : i < 0
    · rw [decide_eq_true hi, signed_true]
      omega
    · rw [decide_eq_false hi, signed_false]
      omega
  apply ofRatio_le_ofRatio (by decide) (by decide)
  rwa [hsigned, hsigned]

/-- A difference of finite numbers has the place of the number nearest to it. -/
theorem finite_sub_finite (s t : Bool) (x y : Magnitude) :
    finite s x - finite t y ≠ .nan ∧
      (finite s x - finite t y).rank = (ofUnits (signed s x.units - signed t y.units)).rank := by
  have hsub : finite s x - finite t y = if signedUnits s x - signedUnits t y = 0 then zero (s && !t)
      else ofUnits (signedUnits s x - signedUnits t y) := rfl
  rw [hsub, signedUnits_eq, signedUnits_eq]
  split
  · next h =>
    refine ⟨by simp [zero], ?_⟩
    rw [h, ofUnits, rank_ofRatio, Int.natAbs_zero, nearest_zero (by decide), Nat.zero_min]
    cases s && !t <;> rfl
  · exact ⟨ofRatio_ne_nan _ _ _, rfl⟩

/-- Taking away more leaves less. -/
protected theorem sub_le_sub_left (hc : c.Positive) (h : a ≤ b) : c - b ≤ c - a := by
  obtain ⟨z, -, rfl⟩ := hc.exists_finite
  have hnan : ∀ d, d ≠ .nan → finite false z - d ≠ .nan := by
    intro d hd
    cases d with
    | nan => exact absurd rfl hd
    | infinite t => simp [finite_sub_infinite]
    | finite t y => exact (finite_sub_finite ..).1
  rcases le_cases h with ⟨rfl, hb⟩ | ⟨rfl, ha⟩ | ⟨s, x, t, y, rfl, rfl, hle⟩
  · exact le_infinite (hnan b hb)
  · exact neg_infinite_le (hnan a ha)
  · obtain ⟨hx, hrankx⟩ := finite_sub_finite false s z x
    obtain ⟨hy, hranky⟩ := finite_sub_finite false t z y
    refine le_iff.mpr ⟨hy, hx, ?_⟩
    rw [hrankx, hranky]
    exact (le_iff.mp (ofUnits_le_ofUnits (Int.sub_le_sub_left hle _))).2.2

protected theorem mul_comm (a b : Binary64) : a * b = b * a := by
  show a.mul b = b.mul a
  cases a <;> cases b <;> simp only [mul, bne_comm, Nat.mul_comm]

/-! ### Whole numbers as numbers -/

theorem ofNat_le_ofNat {n k : Nat} (h : n ≤ k) : ofNat n ≤ ofNat k := by
  unfold ofNat ofFraction
  apply ofRatio_le_ofRatio (by decide) (by decide)
  exact Int.ofNat_le.mpr (Nat.mul_le_mul_right 1 (Nat.mul_le_mul_right unitsInOne h))

theorem mul_pow_lt_pow {n i j k : Nat} (hn : n ≤ Nat.pow 2 i) (h : i + j < k) :
    n * Nat.pow 2 j < Nat.pow 2 k := by
  simp only [Nat.pow_eq] at hn ⊢
  calc n * 2 ^ j ≤ 2 ^ i * 2 ^ j := Nat.mul_le_mul_right _ hn
    _ = 2 ^ (i + j) := (Nat.pow_add 2 i j).symm
    _ < 2 ^ k := Nat.pow_lt_pow_right (by decide) h

/-- Whole numbers of up to 53 bits are numbers. -/
theorem ofNat_exact {n : Nat} (hn : n ≤ Nat.pow 2 53) :
    ∃ x : Magnitude, x.units = n * unitsInOne ∧ ofNat n = .finite false x := by
  have hspaced : spacing (n * unitsInOne) ∣ n * unitsInOne := by
    unfold unitsInOne
    generalize 1074 = t
    exact spacing_dvd_mul n t hn
  have hbound : n * unitsInOne < unitLimit := by
    unfold unitsInOne unitLimit
    apply mul_pow_lt_pow hn
    decide
  refine ⟨⟨n * unitsInOne, hspaced, hbound⟩, rfl, ?_⟩
  have h := ofRatio_exact false ⟨n * unitsInOne, hspaced, hbound⟩ Nat.one_pos
  rwa [Nat.mul_one] at h

theorem rank_ofNat {n : Nat} (hn : n ≤ Nat.pow 2 53) : (ofNat n).rank = (n * unitsInOne : Nat) := by
  obtain ⟨x, hx, hnat⟩ := ofNat_exact hn
  rw [hnat, rank, signed_false, hx]

theorem positive_ofNat {n : Nat} (hpos : 0 < n) (hn : n ≤ Nat.pow 2 53) : (ofNat n).Positive := by
  obtain ⟨x, hx, hnat⟩ := ofNat_exact hn
  have hunits : 0 < x.units := hx ▸ Nat.mul_pos hpos unitsInOne_pos
  rw [hnat]
  exact ⟨Int.natCast_pos.mpr hunits, Int.ofNat_lt.mpr x.bounded⟩

/-- A number between zero and a whole number is finite, and its place in the order
is its units. -/
theorem exists_finite_of_le {n : Nat} (h : ofNat 0 ≤ a) (h' : a ≤ ofNat n) (hn : n ≤ Nat.pow 2 53) :
    ∃ s x, a = .finite s x ∧ a.rank = x.units := by
  have hzero := (le_iff.mp h).2.2
  rw [rank_ofNat (by decide), Nat.zero_mul] at hzero
  obtain ⟨y, -, hnat⟩ := ofNat_exact hn
  have hpos := unitLimit_pos
  rw [hnat] at h'
  rcases le_cases h' with ⟨rfl, -⟩ | ⟨hinf, -⟩ | ⟨s, x, -, -, rfl, -, -⟩
  · simp only [rank, signed_true] at hzero
    omega
  · cases hinf
  · cases s with
    | false => exact ⟨false, x, rfl, rfl⟩
    | true =>
      simp only [rank, signed_true] at hzero ⊢
      exact ⟨true, x, rfl, by omega⟩

protected theorem mul_one (a : Binary64) : a * ofNat 1 = a := by
  obtain ⟨x, hx, hone⟩ := @ofNat_exact 1 (by decide)
  rw [Nat.one_mul] at hx
  rw [hone]
  cases a with
  | nan => rfl
  | infinite s => rw [infinite_mul_finite, if_neg (hx ▸ Nat.ne_of_gt unitsInOne_pos), Bool.bne_false]
  | finite s y => rw [finite_mul_finite, hx, ofRatio_exact _ _ unitsInOne_pos, Bool.bne_false]

end Operations

end Binary64
end Chiptune
