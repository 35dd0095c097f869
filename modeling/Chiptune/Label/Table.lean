/-
# The label table

Labels with the address they were defined at and the sites that refer to
them, in the order in which the references were made. A label is defined at
most once, and only defined labels can be referred to; an operation that
fails leaves the table as it was. The table is listed in the order of labels.

Key definitions: `LabelTable.define`, `LabelTable.reference`.
-/
import Chiptune.Error

namespace Chiptune

/-- What the table holds of a label. -/
structure Label.Entry where
  address : Nat
  references : Array Nat := #[]
  deriving DecidableEq, Repr

/-- Labels and their entries, in the order of labels. -/
structure LabelTable where
  entries : Std.TreeMap Label Label.Entry Label.order := ∅

namespace LabelTable

/-- The table without labels. -/
def empty : LabelTable := {}

/-- The entry of a label. -/
def get? (t : LabelTable) (label : Label) : Option Label.Entry := t.entries[label]?

/-- Whether a label is defined. -/
def contains (t : LabelTable) (label : Label) : Bool := t.entries.contains label

/-- The number of labels. -/
def size (t : LabelTable) : Nat := t.entries.size

/-- Whether no label is defined. -/
def isEmpty (t : LabelTable) : Bool := t.entries.isEmpty

/-- Labels and entries, in the order of labels. -/
def toList (t : LabelTable) : List (Label × Label.Entry) := t.entries.toList

/-- The address of a label. -/
def address (t : LabelTable) (label : Label) : Except Error Nat :=
  match t.get? label with
  | none => .error (.undefinedLabel label)
  | some entry => .ok entry.address

/-- Defines a new label at an address. -/
def define (t : LabelTable) (label : Label) (address : Nat) : Except Error LabelTable :=
  if t.contains label then .error (.duplicateLabel label)
  else .ok ⟨t.entries.insert label ⟨address, #[]⟩⟩

/-- Records a reference from `site` to a label and yields the address of the
label. -/
def reference (t : LabelTable) (label : Label) (site : Nat) : Except Error (Nat × LabelTable) :=
  match t.get? label with
  | none => .error (.undefinedLabel label)
  | some entry =>
    .ok (entry.address, ⟨t.entries.modify label fun e => ⟨e.address, e.references.push site⟩⟩)

end LabelTable
end Chiptune
