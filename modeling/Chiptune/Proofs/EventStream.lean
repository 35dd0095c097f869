/-
# Decoding undoes encoding

Events of a channel are emitted one behind the other (`Event.Emits`): each at
the address behind the bytes of the one before it, and with the label table
that it leaves. The bytes have no separators, yet all of them are read back,
and the instructions fall into one part for each event
(`Event.all_of_emits`).

A part says what its event says (`Event.Decodes`). A command with a payload
becomes one instruction with the same fields, and the waits stand behind it,
less what a note folds. A command that jumps or ends the list waits first.
References never move a label, so all targets are those of the table at the
start.

Key definitions: `Address.Apart`, `Event.Emits`, `Event.Payload`,
`Event.Departure`, `Event.Decodes`, `Event.DecodesAll`.
Key theorems: `Event.decodes_of_instructions`, `Event.decodesAll_of_emits`,
`Event.all_of_emits`.
-/
import Chiptune.Proofs.LabelTable
import Chiptune.Proofs.Ticks

namespace Chiptune

open Instruction (waits encodeAll)

namespace Address

/-- The distance from one address to another: their difference as signed 64-bit
words, itself such a word. -/
structure Apart (origin target : Nat) (distance : Int) : Prop where
  eq_sub : distance = Int.bmod target 0x10000000000000000 - Int.bmod origin 0x10000000000000000
  lower : -0x8000000000000000 ≤ distance
  upper : distance < 0x8000000000000000

theorem apart_of_distance {origin target : Nat} {d : Int} (h : distance origin target = .ok d) :
    Apart origin target d := by
  simp only [distance] at h
  split at h
  · next hword =>
    obtain rfl := Except.ok.inj h
    exact ⟨rfl, hword.1, hword.2⟩
  · cases h

end Address

namespace LabelTable

/-- The address of a label that is defined. -/
def address? (t : LabelTable) (label : Label) : Option Nat := (t.get? label).map Label.Entry.address

/-- A reference yields the address of its label, and all labels keep theirs. -/
theorem address?_of_reference {t u : LabelTable} {label : Label} {site target : Nat}
    (h : t.reference label site = .ok (target, u)) :
    t.address? label = some target ∧ u.address? = t.address? := by
  obtain ⟨e, he, rfl, hu⟩ := reference_eq_ok h
  refine ⟨by rw [address?, he]; rfl, funext fun x => ?_⟩
  rw [address?, address?, hu]
  by_cases hx : x = label
  · rw [if_pos hx, hx, he]
    rfl
  · rw [if_neg hx]

end LabelTable

namespace Event

/-! ### Events and their instructions -/

/-- `Emits channel address labels events codes`: the events compile one behind
the other from the address on, each to its own bytes. -/
inductive Emits (channel : Nat) : Nat → LabelTable → List Event → List (List UInt8) → Prop
  | nil {address labels} : Emits channel address labels [] []
  | cons {address labels labels' event events bytes codes} :
    event.compile channel address labels = (.ok bytes, labels') →
    Emits channel (address + bytes.length) labels' events codes →
    Emits channel address labels (event :: events) (bytes :: codes)

/-- The instruction of a command with a payload, and the ticks that it takes off
the waits behind it. -/
inductive Payload (timing : Nat) : Command → Instruction → Nat → Prop
  | note {pitch} {folded : Fin 128} : folded.val = timing % 128 →
    Payload timing (.note pitch) (.note folded pitch) 127
  | noteOff {folded : UInt8} : folded.toNat = timing % 256 →
    Payload timing .noteOff (.noteOff folded) 255
  | changeInstrument {instrument} :
    Payload timing (.changeInstrument instrument) (.changeInstrument instrument) 0
  | setVolume {volume} : Payload timing (.setVolume volume) (.setVolume volume) 0
  | setPanning {panning} : Payload timing (.setPanning panning) (.setPanning panning.toByte) 0
  | pitchSlideUp {speed} : Payload timing (.pitchSlide .up speed) (.pitchSlideUp speed) 0
  | pitchSlideDown {speed} : Payload timing (.pitchSlide .down speed) (.pitchSlideDown speed) 0
  | portamento {speed} : Payload timing (.portamento speed) (.portamento speed) 0
  | writeRegisterA {register data} :
    Payload timing (.writeRegisterA register data) (.writeRegisterA register data) 0
  | writeRegisterB {register data} :
    Payload timing (.writeRegisterB register data) (.writeRegisterB register data) 0
  | setTimer {counter} : Payload timing (.setTimer counter) (.setTimer counter) 0

/-- The instruction of a command that jumps or ends the list, where it stands at
an address. A row without an address is not placed yet. -/
inductive Departure (channel : Nat) (address? : Label → Option Nat) (address : Nat) :
    Command → Instruction → Prop
  | endList : Departure channel address? address .endList .endList
  | returnFromSubPattern :
    Departure channel address? address .returnFromSubPattern .returnFromSubPattern
  | subPattern {index target : Nat} {operand : UInt16} :
    address? (.subPattern channel index) = some target → operand.toNat = target % 0x10000 →
    Departure channel address? address (.jumpToSubPattern index) (.jumpToSubPattern operand)
  | ahead {row : Nat} : address? (.matrixRow channel row) = none →
    Departure channel address? address (.positionJump row) (.positionJump 0)
  | short {row target : Nat} {distance : Int} {offset : Int8} :
    address? (.matrixRow channel row) = some target →
    Address.Apart address target distance →
    -128 ≤ distance ∧ distance ≤ 127 → offset.toInt = distance →
    Departure channel address? address (.positionJump row) (.positionJumpShort offset)
  | long {row target : Nat} {distance : Int} {operand : UInt16} :
    address? (.matrixRow channel row) = some target →
    Address.Apart address target distance →
    ¬ (-128 ≤ distance ∧ distance ≤ 127) → operand.toNat = target % 0x10000 →
    Departure channel address? address (.positionJump row) (.positionJump operand)

/-- The instructions `is` are those of a wait, and nothing but waits. -/
structure Waited (ticks : Int) (is : List Instruction) : Prop where
  eq_waits : is = waits ticks
  waiting : ∀ i ∈ is, i.waitTicks?.isSome

/-- What the instructions of an event at an address are. -/
inductive Decodes (channel : Nat) (address? : Label → Option Nat) (address : Nat) :
    Event → List Instruction → Prop
  | wait {timing : Nat} {is} : Waited timing is → Decodes channel address? address ⟨.wait, timing⟩ is
  | payload {command timing i folded is} :
    Payload timing command i folded → Waited ((timing : Int) - folded) is →
    Decodes channel address? address ⟨command, timing⟩ (i :: is)
  | departure {command} {timing : Nat} {i is} :
    Waited timing is → Departure channel address? (address + (encodeAll is).length) command i →
    Decodes channel address? address ⟨command, timing⟩ (is ++ [i])

/-- One part for each event, one behind the other from an address on. -/
inductive DecodesAll (channel : Nat) (address? : Label → Option Nat) :
    Nat → List Event → List (List Instruction) → Prop
  | nil {address} : DecodesAll channel address? address [] []
  | cons {address event events is parts} :
    Decodes channel address? address event is →
    DecodesAll channel address? (address + (encodeAll is).length) events parts →
    DecodesAll channel address? address (event :: events) (is :: parts)

theorem waited_waits (ticks : Int) : Waited ticks (waits ticks) :=
  ⟨rfl, fun _ => Instruction.mem_waits⟩

theorem Decodes.whole {channel address timing : Nat} {address? : Label → Option Nat}
    {command : Command} {i : Instruction} (h : Payload timing command i 0) :
    Decodes channel address? address ⟨command, timing⟩ (i :: waits timing) :=
  .payload h (by simpa using waited_waits timing)

/-! ### One event -/

variable {channel address : Nat} {t u : LabelTable}

/-- A jump to a row is the departure that its distance asks for. -/
theorem departure_of_rowJump {row offset : Nat} {i : Instruction}
    (h : rowJump channel row address offset t = (.ok i, u)) :
    Departure channel t.address? (address + offset) (.positionJump row) i ∧
      u.address? = t.address? := by
  rcases rowJump_eq_ok h with ⟨hc, rfl, rfl⟩ | ⟨target, d, -, href, hd, rfl⟩
  · rw [LabelTable.contains_eq_isSome, Option.isSome_eq_false_iff, Option.isNone_iff_eq_none] at hc
    exact ⟨.ahead (by rw [LabelTable.address?, hc]; rfl), rfl⟩
  · obtain ⟨htarget, hu⟩ := LabelTable.address?_of_reference href
    have happart := Address.apart_of_distance hd
    refine ⟨?_, hu⟩
    unfold jump
    split
    · next hnear => exact .short htarget happart hnear (Int8.toInt_ofInt_of_le hnear.1 (by omega))
    · next hfar => exact .long htarget happart hfar UInt16.toNat_ofNat'

/-- **An event becomes what it decodes to**, and no label moves. -/
theorem decodes_of_instructions {event : Event} {is : List Instruction}
    (h : event.instructions channel address t = (.ok is, u)) :
    Decodes channel t.address? address event is ∧ u.address? = t.address? := by
  have hcode := instructions_eq_ok h
  obtain ⟨command, timing⟩ := event
  have hwaited := waited_waits timing
  cases command with
  | jumpToSubPattern index =>
    obtain ⟨target, href, rfl⟩ := hcode
    obtain ⟨htarget, hu⟩ := LabelTable.address?_of_reference href
    exact ⟨.departure hwaited (.subPattern htarget UInt16.toNat_ofNat'), hu⟩
  | positionJump row =>
    obtain ⟨i, hi, rfl⟩ := hcode
    obtain ⟨hdeparture, hu⟩ := departure_of_rowJump hi
    exact ⟨.departure hwaited hdeparture, hu⟩
  | wait =>
    obtain ⟨rfl, rfl⟩ := hcode
    exact ⟨.wait hwaited, rfl⟩
  | endList =>
    obtain ⟨rfl, rfl⟩ := hcode
    exact ⟨.departure hwaited .endList, rfl⟩
  | returnFromSubPattern =>
    obtain ⟨rfl, rfl⟩ := hcode
    exact ⟨.departure hwaited .returnFromSubPattern, rfl⟩
  | note pitch =>
    obtain ⟨rfl, rfl⟩ := hcode
    exact ⟨.payload (.note rfl) (waited_waits _), rfl⟩
  | noteOff =>
    obtain ⟨rfl, rfl⟩ := hcode
    exact ⟨.payload (.noteOff UInt8.toNat_ofNat') (waited_waits _), rfl⟩
  | pitchSlide direction speed =>
    obtain ⟨rfl, rfl⟩ := hcode
    cases direction <;> exact ⟨.whole (by constructor), rfl⟩
  | _ =>
    obtain ⟨rfl, rfl⟩ := hcode
    exact ⟨.whole (by constructor), rfl⟩

/-- The instructions of an event can be read back. -/
theorem Decodes.canonical {address? : Label → Option Nat} {event : Event} {is : List Instruction}
    (h : Decodes channel address? address event is) : ∀ i ∈ is, i.Canonical := by
  have hwaits : ∀ {ticks is}, Waited ticks is → ∀ i ∈ is, i.Canonical := fun hw i hi =>
    Instruction.canonical_of_waitTicks? (hw.waiting i hi)
  cases h with
  | wait hw => exact hwaits hw
  | payload hp hw =>
    refine List.forall_mem_cons.mpr ⟨?_, hwaits hw⟩
    cases hp <;> trivial
  | departure hw hd =>
    refine List.forall_mem_append.mpr ⟨hwaits hw, List.forall_mem_singleton.mpr ?_⟩
    cases hd <;> trivial

/-! ### All events -/

/-- Events are emitted as the bytes of their parts. -/
theorem decodesAll_of_emits {labels : LabelTable} {events : List Event} {codes : List (List UInt8)}
    (h : Emits channel address labels events codes) :
    ∃ parts, codes = parts.map encodeAll ∧
      DecodesAll channel labels.address? address events parts := by
  induction h with
  | nil => exact ⟨[], rfl, .nil⟩
  | @cons address labels labels' event events bytes codes hcompile _ ih =>
    obtain ⟨is, hi, rfl⟩ := Except.map_eq_ok (event.instructions channel address labels) hcompile
    obtain ⟨hpart, hlabels⟩ := decodes_of_instructions hi
    obtain ⟨parts, rfl, hparts⟩ := ih
    rw [hlabels] at hparts
    exact ⟨is :: parts, rfl, .cons hpart hparts⟩

theorem DecodesAll.canonical {address? : Label → Option Nat} {events : List Event}
    {parts : List (List Instruction)} (h : DecodesAll channel address? address events parts) :
    ∀ i ∈ parts.flatten, i.Canonical := by
  induction h with
  | nil =>
    intro i hi
    cases hi
  | cons hpart _ ih =>
    rw [List.flatten_cons]
    exact List.forall_mem_append.mpr ⟨hpart.canonical, ih⟩

/-- **Decoding undoes encoding.** All bytes of events that compile one behind
the other are read back, as one part for each event. -/
theorem all_of_emits {labels : LabelTable} {events : List Event} {codes : List (List UInt8)}
    (h : Emits channel address labels events codes) :
    ∃ parts, Reader.all codes.flatten.toArray 0 = .ok (parts.flatten, codes.flatten.length) ∧
      codes = parts.map encodeAll ∧ DecodesAll channel labels.address? address events parts := by
  obtain ⟨parts, hcodes, hparts⟩ := decodesAll_of_emits h
  have hbytes : codes.flatten = encodeAll parts.flatten := by
    rw [hcodes, ← List.flatMap_def, encodeAll, List.flatten_eq_flatMap, List.flatMap_assoc]
    rfl
  have hholds : Reader.Holds codes.flatten.toArray 0 (encodeAll parts.flatten) := by
    rw [← hbytes]
    exact List.prefix_refl _
  have hread := Reader.all_of_holds hparts.canonical hholds (by simp [hbytes])
  exact ⟨parts, by simpa using hread, hcodes, hparts⟩

/-- Events that compile to bytes altogether are emitted as parts of them. -/
theorem emits_of_compileAll {labels : LabelTable} {events : List Event} {bytes : List UInt8}
    (h : compileAll channel address labels events = .ok bytes) :
    ∃ codes, bytes = codes.flatten ∧ Emits channel address labels events codes := by
  induction events generalizing address labels bytes with
  | nil =>
    obtain rfl := Except.ok.inj h
    exact ⟨[], rfl, .nil⟩
  | cons event rest ih =>
    obtain ⟨code, hcode, h⟩ := Except.bind_eq_ok h
    obtain ⟨next, hnext, h⟩ := Except.bind_eq_ok h
    obtain ⟨others, hothers, h⟩ := Except.bind_eq_ok h
    obtain rfl := Except.ok.inj h
    obtain rfl := Address.eq_of_advance hnext
    obtain ⟨codes, rfl, hcodes⟩ := ih hothers
    exact ⟨code :: codes, rfl, .cons (Prod.ext hcode rfl) hcodes⟩

/-- A sub-pattern at the end of the driver's address space, a row behind it and a
row far before it. -/
def crossing : LabelTable :=
  ⟨.ofList [(.subPattern 0 0, ⟨0xFFF0, #[]⟩), (.matrixRow 0 1, ⟨0x10008, #[]⟩),
    (.matrixRow 0 3, ⟨0x20, #[]⟩)] Label.order⟩

/-- Notes, and jumps of all forms. -/
def crossingEvents : List Event :=
  [⟨.wait, 3⟩, ⟨.note 65, 300⟩, ⟨.noteOff, 300⟩, ⟨.jumpToSubPattern 0, 300⟩, ⟨.positionJump 1, 20⟩,
    ⟨.positionJump 2, 70000⟩, ⟨.positionJump 3, 0⟩, ⟨.pitchSlide .down 4, 6⟩, ⟨.endList, 0⟩]

/-- The jumps of `crossingEvents` are read back behind their waits. Of the rows
that are placed, the jump to the first one starts 9 bytes behind it. -/
theorem all_of_emits_crossing : ∃ codes parts,
    Emits 0 0x10000 crossing crossingEvents codes ∧
    Reader.all codes.flatten.toArray 0 = .ok (parts.flatten, codes.flatten.length) ∧
    codes = parts.map encodeAll ∧
    DecodesAll 0 crossing.address? 0x10000 crossingEvents parts ∧
    parts.flatten = [.waitNibble 2, .note 44 65, .waitByte 172, .noteOff 44, .waitByte 44,
      .waitWord 300, .jumpToSubPattern 0xFFF0, .waitByte 19, .positionJumpShort (-9),
      .waitWord 4464, .waitWord 4465, .positionJump 0, .positionJump 0x20, .pitchSlideDown 4,
      .waitNibble 5, .endList] := by
  obtain ⟨bytes, hbytes⟩ : ∃ bytes, compileAll 0 0x10000 crossing crossingEvents = .ok bytes :=
    Except.exists_of_isOk (by decide +kernel)
  obtain ⟨codes, rfl, hcodes⟩ := emits_of_compileAll hbytes
  obtain ⟨parts, hread, hparts⟩ := all_of_emits hcodes
  have hcode : ((compileAll 0 0x10000 crossing crossingEvents).toOption.bind fun bytes =>
      (Reader.all bytes.toArray 0).toOption.map Prod.fst) = some parts.flatten := by
    simp only [hbytes, Except.toOption, Option.bind_some, hread, Option.map_some]
  exact ⟨codes, parts, hcodes, hread, hparts.1, hparts.2,
    Option.some.inj (hcode.symm.trans (by decide +kernel))⟩

end Event
end Chiptune
