/-
# Labels of song data

A label names a place in the data of one song: a table of values, the
instrument records, the event list of a sub-pattern or of a whole channel,
the point of a channel's list that plays one row of the pattern matrix, or
the song header. Labels are ordered by kind, in the order given here, and
then by their numbers.

Key definitions: `Label`, `Label.key`, `Label.name`.
Key theorems: `Label.key_injective`.
-/
import Chiptune.Text.Hex
import Std.Data.TreeMap.Lemmas

namespace Chiptune

/-- A named place in the data of a song. -/
inductive Label where
  | table (index : Nat)
  | instruments
  | subPattern (channel index : Nat)
  | mainList (channel : Nat)
  | matrixRow (channel row : Nat)
  | header
  deriving DecidableEq, Repr

namespace Label

/-- The rank of the kind, then the numbers; labels are ordered by it. -/
def key : Label → List Nat
  | .table index => [0, index]
  | .instruments => [1]
  | .subPattern channel index => [2, channel, index]
  | .mainList channel => [3, channel]
  | .matrixRow channel row => [4, channel, row]
  | .header => [5]

theorem key_injective {a b : Label} (h : a.key = b.key) : a = b := by
  cases a <;> cases b <;> simp_all [key]

/-- The order of labels. -/
def order (a b : Label) : Ordering := compare a.key b.key

instance : Std.TransCmp order where
  eq_swap {a b} := @Std.OrientedCmp.eq_swap (List Nat) compare _ a.key b.key
  isLE_trans {a b c} := @Std.TransCmp.isLE_trans (List Nat) compare _ a.key b.key c.key

instance : Std.LawfulEqCmp order where
  compare_self {a} := @Std.ReflCmp.compare_self (List Nat) compare _ a.key
  eq_of_compare h := key_injective (Std.LawfulEqCmp.eq_of_compare h)

/-- The text of a label. -/
def name : Label → String
  | .table index => "ODATA:" ++ Hex.padded 2 index
  | .instruments => "INSTRUMENTS"
  | .subPattern channel index => "SUBEL:CH" ++ Hex.padded 1 channel ++ ";" ++ Hex.padded 2 index
  | .mainList channel => "EL:" ++ Hex.padded 2 channel
  | .matrixRow channel row => "ROW:CH" ++ Hex.padded 1 channel ++ ";" ++ Hex.padded 3 row
  | .header => "HEADER"

end Label
end Chiptune
