/-
# Reading instructions back

Readers take the data and a position, and yield what they read with the
position after it. They fail at the first position where a byte is missing;
the bytes before it stay read, so that position is also where the reading
stopped.

Key definitions: `Reader.byte`, `Reader.word`, `Reader.instruction`,
`Reader.all`, `Reader.list`.
Key theorems: `Reader.instruction_lt`.
-/
import Chiptune.Error
import Chiptune.Instruction

namespace Chiptune

/-- A step of a computation that succeeds. -/
theorem Except.bind_eq_ok {ε α β : Type} {r : Except ε α} {f : α → Except ε β} {b : β}
    (h : (r >>= f) = .ok b) : ∃ a, r = .ok a ∧ f a = .ok b := by
  cases r with
  | error e => cases h
  | ok a => exact ⟨a, rfl, h⟩

namespace Reader

/-- The byte at a position. -/
def byte (data : Array UInt8) (pos : Nat) : Except Nat (UInt8 × Nat) :=
  match data[pos]? with
  | some b => .ok (b, pos + 1)
  | none => .error pos

/-- The word at a position. -/
def word (data : Array UInt8) (pos : Nat) : Except Nat (UInt16 × Nat) := do
  let (low, pos) ← byte data pos
  let (high, pos) ← byte data pos
  .ok (Word.ofBytes low high, pos)

/-- An instruction with one operand byte. -/
def withByte (make : UInt8 → Instruction) (data : Array UInt8) (pos : Nat) :
    Except Nat (Instruction × Nat) := do
  let (operand, pos) ← byte data pos
  .ok (make operand, pos)

/-- An instruction with two operand bytes. -/
def withBytes (make : UInt8 → UInt8 → Instruction) (data : Array UInt8) (pos : Nat) :
    Except Nat (Instruction × Nat) := do
  let (first, pos) ← byte data pos
  let (second, pos) ← byte data pos
  .ok (make first second, pos)

/-- An instruction with a word operand. -/
def withWord (make : UInt16 → Instruction) (data : Array UInt8) (pos : Nat) :
    Except Nat (Instruction × Nat) := do
  let (operand, pos) ← word data pos
  .ok (make operand, pos)

/-- The operands of an opcode, from the position after it. -/
def operands (opcode : UInt8) (data : Array UInt8) (pos : Nat) : Except Nat (Instruction × Nat) :=
  if 0x80 ≤ opcode then
    withByte (.note (Instruction.lowSeven opcode.toNat)) data pos
  else if 0x10 ≤ opcode ∧ opcode < 0x20 then
    .ok (.waitNibble (Instruction.lowFour opcode.toNat), pos)
  else match opcode with
    | 0x00 => .ok (.endList, pos)
    | 0x01 => withByte .noteOff data pos
    | 0x02 => withByte .changeInstrument data pos
    | 0x03 => withByte .waitByte data pos
    | 0x04 => withWord .waitWord data pos
    | 0x05 => withByte .setVolume data pos
    | 0x06 => withByte .setPanning data pos
    | 0x07 => withBytes .writeRegisterA data pos
    | 0x08 => withBytes .writeRegisterB data pos
    | 0x09 => withWord .setTimer data pos
    | 0x0A => withWord .positionJump data pos
    | 0x0B => withByte (fun b => .positionJumpShort b.toInt8) data pos
    | 0x0C => withByte .pitchSlideUp data pos
    | 0x0D => withByte .pitchSlideDown data pos
    | 0x0E => withByte .portamento data pos
    | 0x20 => .ok (.returnFromSubPattern, pos)
    | 0x21 => withWord .jumpToSubPattern data pos
    | _ => .ok (.unknown opcode, pos)

/-- The instruction at a position. -/
def instruction (data : Array UInt8) (pos : Nat) : Except Nat (Instruction × Nat) := do
  let (opcode, pos) ← byte data pos
  operands opcode data pos

theorem byte_eq_ok {data : Array UInt8} {pos next : Nat} {b : UInt8}
    (h : byte data pos = .ok (b, next)) : data[pos]? = some b ∧ next = pos + 1 := by
  unfold byte at h
  split at h
  · next b' hb =>
    obtain ⟨rfl, rfl⟩ := Prod.mk.inj (Except.ok.inj h)
    exact ⟨hb, rfl⟩
  · cases h

theorem byte_lt {data : Array UInt8} {pos : Nat} {r : UInt8 × Nat}
    (h : byte data pos = .ok r) : pos < r.2 := by
  have := (byte_eq_ok (show byte data pos = .ok (r.1, r.2) from h)).2
  omega

theorem word_lt {data : Array UInt8} {pos : Nat} {r : UInt16 × Nat}
    (h : word data pos = .ok r) : pos < r.2 := by
  obtain ⟨low, hl, h⟩ := Except.bind_eq_ok h
  obtain ⟨high, hh, h⟩ := Except.bind_eq_ok h
  cases h
  exact Nat.lt_trans (byte_lt hl) (byte_lt hh)

theorem withByte_lt {make : UInt8 → Instruction} {data : Array UInt8} {pos : Nat}
    {r : Instruction × Nat} (h : withByte make data pos = .ok r) : pos < r.2 := by
  obtain ⟨operand, ho, h⟩ := Except.bind_eq_ok h
  cases h
  exact byte_lt ho

theorem withBytes_lt {make : UInt8 → UInt8 → Instruction} {data : Array UInt8} {pos : Nat}
    {r : Instruction × Nat} (h : withBytes make data pos = .ok r) : pos < r.2 := by
  obtain ⟨first, hf, h⟩ := Except.bind_eq_ok h
  obtain ⟨second, hs, h⟩ := Except.bind_eq_ok h
  cases h
  exact Nat.lt_trans (byte_lt hf) (byte_lt hs)

theorem withWord_lt {make : UInt16 → Instruction} {data : Array UInt8} {pos : Nat}
    {r : Instruction × Nat} (h : withWord make data pos = .ok r) : pos < r.2 := by
  obtain ⟨operand, ho, h⟩ := Except.bind_eq_ok h
  cases h
  exact word_lt ho

/-- Reading operands never moves back. -/
theorem operands_le {opcode : UInt8} {data : Array UInt8} {pos : Nat} {r : Instruction × Nat}
    (h : operands opcode data pos = .ok r) : pos ≤ r.2 := by
  have stay : ∀ {i : Instruction}, Except.ok (ε := Nat) (i, pos) = .ok r → pos ≤ r.2 :=
    fun h => by cases h; exact Nat.le_refl _
  unfold operands at h
  split at h
  · exact Nat.le_of_lt (withByte_lt h)
  split at h
  · exact stay h
  split at h <;>
    first
    | exact stay h
    | exact Nat.le_of_lt (withByte_lt h)
    | exact Nat.le_of_lt (withBytes_lt h)
    | exact Nat.le_of_lt (withWord_lt h)

/-- Reading an instruction moves the position on. -/
theorem instruction_lt {data : Array UInt8} {pos : Nat} {r : Instruction × Nat}
    (h : instruction data pos = .ok r) : pos < r.2 := by
  obtain ⟨opcode, hb, h⟩ := Except.bind_eq_ok h
  exact Nat.lt_of_lt_of_le (byte_lt hb) (operands_le h)

/-- All instructions from a position to the end of the data. -/
def all (data : Array UInt8) (pos : Nat) : Except Nat (List Instruction × Nat) :=
  if pos < data.size then
    match _h : instruction data pos with
    | .error e => .error e
    | .ok (i, next) => do
      let (rest, last) ← all data next
      .ok (i :: rest, last)
  else .ok ([], pos)
termination_by data.size - pos
decreasing_by
  have := instruction_lt _h
  omega

/-- The instructions of a list: from a position up to `stop` or the end of the
data, or through the first instruction that ends a list. -/
def list (data : Array UInt8) (stop pos : Nat) : Except Nat (List Instruction × Nat) :=
  if pos < stop ∧ pos < data.size then
    match _h : instruction data pos with
    | .error e => .error e
    | .ok (i, next) =>
      if i.endsList then .ok ([i], next)
      else do
        let (rest, last) ← list data stop next
        .ok (i :: rest, last)
  else .ok ([], pos)
termination_by data.size - pos
decreasing_by
  have := instruction_lt _h
  omega

end Reader
end Chiptune
