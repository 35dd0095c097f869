/-
# Names of labels

The value of hexadecimal digits is read from the highest one on, so that zeros
in front do not change it and a padded number is read back whatever its width
(`Hex.value_paddedDigits`). No digit is the separator of two numbers, and
labels of different kinds differ in the first letter of their names, so the
name of a label tells which one it is (`Label.ofChars_name`), and no two
labels share a name (`Label.name_unambiguous`).

Key definitions: `Hex.value`, `Label.ofChars`.
Key theorems: `Hex.value_paddedDigits`, `Label.ofChars_name`,
`Label.name_unambiguous`.
-/
import Chiptune.Label

namespace Chiptune

namespace Hex

/-- The value of a digit. -/
def digitValue (c : Char) : Nat := if c.toNat < 58 then c.toNat - 48 else c.toNat - 55

/-- The value of digits, the highest first. -/
def value (digits : List Char) : Nat := digits.foldl (fun n c => 16 * n + digitValue c) 0

theorem digitValue_digit {n : Nat} (h : n < 16) : digitValue (digit n) = n := by
  have hdigits : ∀ n : Fin 16, digitValue (digit n) = n := by decide
  exact hdigits ⟨n, h⟩

theorem digit_ne_separator {n : Nat} (h : n < 16) : digit n ≠ ';' := by
  have hdigits : ∀ n : Fin 16, digit n ≠ ';' := by decide
  exact hdigits ⟨n, h⟩

theorem value_digits (n : Nat) : value (digits n) = n := by
  fun_induction digits n with
  | case1 n hsmall => simp [value, digitValue_digit hsmall]
  | case2 n hlarge ih =>
    rw [value, List.foldl_append]
    show 16 * value (digits (n / 16)) + digitValue (digit (n % 16)) = n
    rw [ih, digitValue_digit (Nat.mod_lt _ (by decide))]
    omega

/-- A number is read back from its digits, also with zeros in front. -/
theorem value_paddedDigits (width n : Nat) : value (paddedDigits width n) = n := by
  have hzeros : ∀ count : Nat, value (List.replicate count '0') = 0 := fun count => by
    induction count with
    | zero => rfl
    | succ count ih => exact ih
  calc value (paddedDigits width n)
      = (digits n).foldl (fun n c => 16 * n + digitValue c)
          (value (List.replicate (width - (digits n).length) '0')) := List.foldl_append
    _ = n := by rw [hzeros]; exact value_digits n

theorem separator_not_mem_paddedDigits (width n : Nat) : ∀ c ∈ paddedDigits width n, c ≠ ';' := by
  have hdigits : ∀ c ∈ digits n, c ≠ ';' := by
    fun_induction digits n with
    | case1 n hsmall => exact List.forall_mem_singleton.mpr (digit_ne_separator hsmall)
    | case2 n hlarge ih =>
      refine List.forall_mem_append.mpr ⟨ih, List.forall_mem_singleton.mpr ?_⟩
      exact digit_ne_separator (Nat.mod_lt _ (by decide))
  refine List.forall_mem_append.mpr ⟨fun c hc => ?_, hdigits⟩
  rw [List.eq_of_mem_replicate hc]
  decide

end Hex

namespace Label

/-- Two numbers with a separator between them. -/
def pairOfChars (cs : List Char) : Nat × Nat :=
  (Hex.value (cs.takeWhile (· != ';')), Hex.value ((cs.dropWhile (· != ';')).drop 1))

/-- The label of a name. Texts that are no names have some label. -/
def ofChars : List Char → Label
  | 'O' :: cs => .table (Hex.value (cs.drop 5))
  | 'I' :: _ => .instruments
  | 'S' :: cs => .subPattern (pairOfChars (cs.drop 7)).1 (pairOfChars (cs.drop 7)).2
  | 'E' :: cs => .mainList (Hex.value (cs.drop 2))
  | 'R' :: cs => .matrixRow (pairOfChars (cs.drop 5)).1 (pairOfChars (cs.drop 5)).2
  | _ => .header

theorem pairOfChars_paddedDigits (v w m n : Nat) :
    pairOfChars (Hex.paddedDigits v m ++ ';' :: Hex.paddedDigits w n) = (m, n) := by
  have hdigits : ∀ c ∈ Hex.paddedDigits v m, (c != ';') = true := fun c hc =>
    bne_iff_ne.mpr (Hex.separator_not_mem_paddedDigits v m c hc)
  rw [pairOfChars, List.takeWhile_append_of_pos hdigits, List.dropWhile_append_of_pos hdigits]
  simp [Hex.value_paddedDigits]

/-- **The name of a label tells the label.** -/
theorem ofChars_name (label : Label) : ofChars label.name.toList = label := by
  cases label with
  | table index => simp [name, Hex.padded, ofChars, Hex.value_paddedDigits]
  | subPattern channel index => simp [name, Hex.padded, ofChars, pairOfChars_paddedDigits]
  | mainList channel => simp [name, Hex.padded, ofChars, Hex.value_paddedDigits]
  | matrixRow channel row => simp [name, Hex.padded, ofChars, pairOfChars_paddedDigits]
  | instruments | header => rfl

/-- **Names are unambiguous**, for numbers of any width: labels with the same
name are the same label. -/
theorem name_unambiguous (s t : Label) : s.name = t.name ↔ s = t := by
  constructor
  · intro hname
    calc s = ofChars s.name.toList := (ofChars_name s).symm
      _ = ofChars t.name.toList := by rw [hname]
      _ = t := ofChars_name t
  · rintro rfl
    rfl

end Label
end Chiptune
