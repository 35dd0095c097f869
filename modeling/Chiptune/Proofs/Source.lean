/-
# Sources

A source is the data of a song before addresses are known: labels marked
between pieces of bytes, pointers to labels, and jumps to rows of the pattern
matrix. Offsets count from the start of the data. A jump is short, two bytes,
where its row was marked before it and within the reach of a signed byte, and
has an absolute operand otherwise; all other items have a size of their own.
So the offsets of a source do not depend on where its data are placed
(`Survey`), and the address of a label enters the data only as a word
(`Item.emit`).

What is told about the items of a source, each at its offset, is collected by
`walk`: the bytes, the sites that refer to a label, the operands that hold an
absolute address, and the fixups of the jumps.

Key definitions: `Item`, `Survey`, `Survey.run`, `addressIn`, `walk`, `Item.emit`,
`Item.sitesOf`, `Item.operands`, `Item.fixups`.
Key theorems: `walk_append`, `mem_walk`, `length_walk_emit`,
`Survey.run_marks_eq_none`, `Survey.run_mark`.
-/
import Chiptune.Proofs.Codec
import Chiptune.Song.Layout

namespace Chiptune

/-- An item of a source. -/
inductive Item where
  | mark (label : Label)
  | bytes (bytes : List UInt8)
  /-- The address of a label. -/
  | pointer (label : Label)
  /-- A position jump to a row of a channel. -/
  | jump (channel row : Nat)
  deriving DecidableEq

/-- Where a source has got to: the offset of the next byte and the offsets of
the labels marked so far. -/
structure Survey where
  offset : Nat := 0
  marks : Label → Option Nat := fun _ => none

namespace Survey

/-- The distance from the next byte to a label that was marked in reach of a
short jump. -/
def near? (s : Survey) (label : Label) : Option Int :=
  match s.marks label with
  | none => none
  | some o =>
    if -128 ≤ (o : Int) - s.offset ∧ (o : Int) - s.offset ≤ 127 then some (o - s.offset) else none

end Survey

/-- The address of a label in data at `base`, zero as long as the label has no
offset. -/
def addressIn (base : Nat) (marks : Label → Option Nat) (label : Label) : Nat :=
  ((marks label).map (base + ·)).getD 0

/-- The word that holds the address of a label in data at `base`. -/
def labelWord (base : Nat) (marks : Label → Option Nat) (label : Label) : UInt16 :=
  (addressIn base marks label).toUInt16

section AddressIn

variable {base o : Nat} {marks : Label → Option Nat} {label : Label}

theorem addressIn_of_some (h : marks label = some o) : addressIn base marks label = base + o := by
  rw [addressIn, h]
  rfl

theorem addressIn_of_none (h : marks label = none) : addressIn base marks label = 0 := by
  rw [addressIn, h]
  rfl

theorem toNat_labelWord (ho : marks label = some o) (hspace : base + o < 0x10000) :
    (labelWord base marks label).toNat = base + o := by
  rw [labelWord, addressIn_of_some ho]
  exact Word.toNat_toUInt16 hspace

end AddressIn

namespace Item

/-- The size of an item. -/
def size (s : Survey) : Item → Nat
  | .mark _ => 0
  | .bytes bs => bs.length
  | .pointer _ => 2
  | .jump channel row => if (s.near? (.matrixRow channel row)).isSome then 2 else 3

/-- The label that an item marks. -/
def mark? : Item → Option Label
  | .mark label => some label
  | _ => none

/-- The bytes of an item of data at `base`. -/
def emit (base : Nat) (marks : Label → Option Nat) (s : Survey) : Item → List UInt8
  | .mark _ => []
  | .bytes bs => bs
  | .pointer label => Word.address (addressIn base marks label)
  | .jump channel row =>
    match s.near? (.matrixRow channel row) with
    | some d => Instruction.encode (.positionJumpShort (Int8.ofInt d))
    | none => 0x0A :: Word.address (addressIn base marks (.matrixRow channel row))

/-- The label that an item refers to. -/
def target? : Item → Option Label
  | .pointer label => some label
  | .jump channel row => some (.matrixRow channel row)
  | _ => none

/-- Where an item that refers to a label does so: a jump behind its opcode. -/
def site (s : Survey) : Item → Nat
  | .jump _ _ => s.offset + 1
  | _ => s.offset

/-- The sites of an item that refer to a label. -/
def sitesOf (label : Label) (s : Survey) (item : Item) : List Nat :=
  if item.target? = some label then [item.site s] else []

/-- The operands of an item that hold an absolute address. -/
def operands (s : Survey) : Item → List Nat
  | .pointer _ => [s.offset]
  | .jump channel row =>
    if (s.near? (.matrixRow channel row)).isSome then [] else [s.offset + 1]
  | _ => []

/-- The fixups of the jumps of data at `base`. -/
def fixups (base : Nat) (s : Survey) : Item → List Fixup
  | .jump channel row => [⟨channel, row, base + (s.offset + 1)⟩]
  | _ => []

end Item

/-- A jump waits for the label of its row. -/
def Fixup.label (f : Fixup) : Label := .matrixRow f.channel f.row

namespace Survey

/-- The survey behind an item. A label keeps the offset of its first mark. -/
def step (s : Survey) (item : Item) : Survey where
  offset := s.offset + item.size s
  marks label := (s.marks label).or (if item.mark? = some label then some s.offset else none)

/-- The survey behind items. -/
def run (s : Survey) (items : List Item) : Survey := items.foldl step s

end Survey

/-- The survey of a whole source. -/
def survey (items : List Item) : Survey := Survey.run {} items

namespace Survey

variable {s : Survey} {label : Label}

@[simp] theorem run_nil (s : Survey) : s.run [] = s := rfl

@[simp] theorem run_cons (s : Survey) (item : Item) (items : List Item) :
    s.run (item :: items) = (s.step item).run items := rfl

@[simp] theorem run_append (s : Survey) (as bs : List Item) :
    s.run (as ++ bs) = (s.run as).run bs := List.foldl_append

/-- Marked labels keep their offsets. -/
theorem run_marks_of_some {o : Nat} {items : List Item} (h : s.marks label = some o) :
    (s.run items).marks label = some o := by
  induction items generalizing s with
  | nil => exact h
  | cons item items ih =>
    rw [run_cons]
    apply ih
    simp [step, h]

theorem step_marks_eq_none {item : Item} :
    (s.step item).marks label = none ↔ s.marks label = none ∧ item ≠ .mark label := by
  cases item with
  | mark x => simp [step, Item.mark?]
  | bytes bs => simp [step, Item.mark?]
  | pointer x => simp [step, Item.mark?]
  | jump channel row => simp [step, Item.mark?]

/-- A label has no offset as long as no item marks it. -/
theorem run_marks_eq_none {items : List Item} :
    (s.run items).marks label = none ↔ s.marks label = none ∧ Item.mark label ∉ items := by
  induction items generalizing s with
  | nil => simp
  | cons item items ih =>
    rw [run_cons, ih, step_marks_eq_none, and_assoc, List.mem_cons, not_or, ne_comm]

/-- The offset of a label is that of its first mark. -/
theorem run_mark {as bs : List Item} (hs : s.marks label = none) (ha : Item.mark label ∉ as) :
    (s.run (as ++ .mark label :: bs)).marks label = some (s.run as).offset := by
  have hnone : (s.run as).marks label = none := run_marks_eq_none.mpr ⟨hs, ha⟩
  rw [run_append, run_cons]
  apply run_marks_of_some
  simp [step, Item.mark?, hnone]

theorem step_marks {item : Item} (h : item.mark? = none) : (s.step item).marks = s.marks := by
  funext x
  simp [step, h]

theorem step_mark (hs : s.marks label = none) (x : Label) :
    (s.step (.mark label)).marks x = if x = label then some s.offset else s.marks x := by
  by_cases hx : x = label
  · subst hx
    simp [step, Item.mark?, hs]
  · simp [step, Item.mark?, hx, Ne.symm hx]

theorem near?_eq_none_of_marks (h : s.marks label = none) : s.near? label = none := by
  simp [near?, h]

end Survey

@[simp] theorem survey_append (as bs : List Item) : survey (as ++ bs) = (survey as).run bs :=
  Survey.run_append ..

theorem survey_marks_ne_none {items : List Item} {label : Label} :
    (survey items).marks label ≠ none ↔ .mark label ∈ items := by
  rw [survey, ne_eq, Survey.run_marks_eq_none]
  simp

/-! ### Walks -/

/-- What `f` tells about the items of a source, each at its place. -/
def walk {α : Type} (f : Survey → Item → List α) : Survey → List Item → List α
  | _, [] => []
  | s, item :: items => f s item ++ walk f (s.step item) items

section Walk

variable {α : Type} {f g : Survey → Item → List α}

@[simp] theorem walk_nil (f : Survey → Item → List α) (s : Survey) : walk f s [] = [] := rfl

@[simp] theorem walk_cons (f : Survey → Item → List α) (s : Survey) (item : Item)
    (items : List Item) : walk f s (item :: items) = f s item ++ walk f (s.step item) items := rfl

theorem walk_append (f : Survey → Item → List α) (s : Survey) (as bs : List Item) :
    walk f s (as ++ bs) = walk f s as ++ walk f (s.run as) bs := by
  induction as generalizing s with
  | nil => rfl
  | cons a as ih =>
    rw [List.cons_append, walk_cons, ih, walk_cons, List.append_assoc, Survey.run_cons]

/-- What a walk tells, it tells about an item at its place. -/
theorem mem_walk {x : α} {items : List Item} {s : Survey} : x ∈ walk f s items ↔
    ∃ as item bs, items = as ++ item :: bs ∧ x ∈ f (s.run as) item := by
  induction items generalizing s with
  | nil => simp
  | cons item items ih =>
    rw [walk_cons, List.mem_append, ih]
    constructor
    · rintro (h | ⟨as, i, bs, rfl, h⟩)
      · exact ⟨[], item, items, rfl, h⟩
      · exact ⟨item :: as, i, bs, rfl, h⟩
    · rintro ⟨as, i, bs, heq, h⟩
      cases as with
      | nil =>
        obtain ⟨rfl, rfl⟩ := List.cons.inj heq
        exact .inl h
      | cons a as =>
        obtain ⟨rfl, rfl⟩ := List.cons.inj heq
        exact .inr ⟨as, i, bs, rfl, h⟩

theorem walk_none : ∀ (s : Survey) (items : List Item), walk (fun _ _ => ([] : List α)) s items = []
  | _, [] => rfl
  | s, item :: items => walk_none (s.step item) items

/-- Walks that tell the same about every item of a source are equal. -/
theorem walk_congr {items : List Item} {s : Survey}
    (h : ∀ t : Survey, ∀ item ∈ items, f t item = g t item) : walk f s items = walk g s items := by
  induction items generalizing s with
  | nil => rfl
  | cons item items ih =>
    rw [walk_cons, walk_cons, h s item (List.mem_cons_self ..),
      ih fun t i hi => h t i (List.mem_cons_of_mem _ hi)]

end Walk

theorem Item.length_emit (base : Nat) (marks : Label → Option Nat) (s : Survey) (item : Item) :
    (item.emit base marks s).length = item.size s := by
  cases item with
  | mark label => rfl
  | bytes bs => rfl
  | pointer label => rfl
  | jump channel row =>
    cases h : s.near? (.matrixRow channel row) with
    | none => simp [emit, size, h]
    | some d => simp [emit, size, h, Instruction.encode]

/-- The bytes of an item depend on the offset of the label it refers to. -/
theorem Item.emit_congr {base : Nat} {marks marks' : Label → Option Nat} {s : Survey} {item : Item}
    (h : ∀ x, item.target? = some x → marks' x = marks x) :
    item.emit base marks' s = item.emit base marks s := by
  cases item with
  | mark label => rfl
  | bytes bs => rfl
  | pointer label => simp [emit, addressIn, h label rfl]
  | jump channel row => simp [emit, addressIn, h (.matrixRow channel row) rfl]

/-- Items other than jumps and pointers to a row do not depend on its offset. -/
theorem Item.emit_of_ne_jump {channel row : Nat} {marks marks' : Label → Option Nat} {item : Item}
    (hm : ∀ x, x ≠ .matrixRow channel row → marks' x = marks x) (hj : item ≠ .jump channel row)
    (hp : item ≠ .pointer (.matrixRow channel row)) (base : Nat) (s : Survey) :
    item.emit base marks' s = item.emit base marks s := by
  apply emit_congr
  intro x hx
  apply hm
  rintro rfl
  cases item with
  | mark y => cases hx
  | bytes bs => cases hx
  | pointer y => exact hp (congrArg _ (Option.some.inj hx))
  | jump c r =>
    obtain ⟨rfl, rfl⟩ := Label.matrixRow.inj (Option.some.inj hx)
    exact hj rfl

/-- The data of a source end at its last offset. -/
theorem length_walk_emit (base : Nat) (marks : Label → Option Nat) (s : Survey)
    (items : List Item) :
    s.offset + (walk (Item.emit base marks) s items).length = (s.run items).offset := by
  induction items generalizing s with
  | nil => rfl
  | cons item items ih =>
    calc s.offset + (walk (Item.emit base marks) s (item :: items)).length
        = s.offset + item.size s + (walk (Item.emit base marks) (s.step item) items).length := by
          rw [walk_cons, List.length_append, Item.length_emit, Nat.add_assoc]
      _ = ((s.step item).run items).offset := ih (s.step item)

theorem Survey.offset_le_run (s : Survey) (items : List Item) :
    s.offset ≤ (s.run items).offset := by
  rw [← length_walk_emit 0 s.marks]
  exact Nat.le_add_right ..

/-- Labels are marked at or before the end. -/
theorem Survey.marks_le_run {label : Label} {o : Nat} : ∀ {items : List Item} {s : Survey},
    (∀ x o, s.marks x = some o → o ≤ s.offset) → (s.run items).marks label = some o →
    o ≤ (s.run items).offset
  | [], _, hs, h => hs _ _ h
  | item :: items, s, hs, h => by
    rw [run_cons] at h ⊢
    refine marks_le_run (fun x o hx => ?_) h
    simp only [step, Option.or_eq_some_iff] at hx
    rcases hx with hx | ⟨-, hx⟩
    · exact Nat.le_add_right_of_le (hs x o hx)
    · split at hx
      · cases hx
        exact Nat.le_add_right _ _
      · cases hx

theorem survey_marks_le {items : List Item} {label : Label} {o : Nat}
    (h : (survey items).marks label = some o) : o ≤ (survey items).offset :=
  Survey.marks_le_run (fun _ _ h => by cases h) h

end Chiptune
