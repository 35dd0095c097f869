/-
# Listings of compiled songs

A listing describes the data of a song: its header, its labels by name, and
the instructions of its lists in the order of their addresses, read back from
the bytes. A list is read up to the next block that starts after it; rows of
the pattern matrix lie within lists and do not start blocks.

Key definitions: `Listing`, `Listing.ofSong`, `Listing.toJson`,
`Instruction.toJson`.
-/
import Chiptune.Song.Layout

namespace Chiptune

namespace Instruction

/-- An instruction as JSON: its name and its operands. Waits are given by their
ticks alone. -/
def toJson (i : Instruction) : Json :=
  let named (name : String) (operands : List (String × Nat)) : Json :=
    .object (("cmd", .string name) :: operands.map fun o => (o.1, .nat o.2))
  match i with
  | .endList => named "end_of_event_list" []
  | .note ticks pitch => named "note" [("note", pitch.toNat), ("ticks", ticks.val)]
  | .noteOff ticks => named "note_off" [("ticks", ticks.toNat)]
  | .changeInstrument instrument => named "change_instrument" [("instrument", instrument.toNat)]
  | .waitNibble operand => named "wait" [("ticks", operand.val + 1)]
  | .waitByte operand => named "wait" [("ticks", operand.toNat + 1)]
  | .waitWord ticks => named "wait" [("ticks", ticks.toNat)]
  | .setVolume volume => named "set_channel_volume" [("volume", volume.toNat)]
  | .setPanning panning => named "set_panning" [("panning", panning.toNat)]
  | .writeRegisterA address data =>
    named "port_write_a" [("address", address.toNat), ("data", data.toNat)]
  | .writeRegisterB address data =>
    named "port_write_b" [("address", address.toNat), ("data", data.toNat)]
  | .setTimer counter => named "set_timer_a" [("counter", counter.toNat)]
  | .positionJump address => named "position_jump" [("address", address.toNat)]
  | .positionJumpShort offset =>
    .object [("cmd", .string "position_jump_short"), ("offset", .int offset.toInt)]
  | .pitchSlideUp speed => named "pitch_slide_up" [("speed", speed.toNat)]
  | .pitchSlideDown speed => named "pitch_slide_down" [("speed", speed.toNat)]
  | .portamento speed => named "portamento" [("speed", speed.toNat)]
  | .returnFromSubPattern => named "return_from_sub_pattern" []
  | .jumpToSubPattern address => named "jump_to_sub_pattern" [("address", address.toNat)]
  | .unknown opcode => named "unknown" [("opcode", opcode.toNat)]

end Instruction

/-- A list of a song, read back. -/
structure ListedTrack where
  label : Label
  address : Nat
  instructions : List Instruction
  deriving DecidableEq, Repr

/-- A description of a compiled song. -/
structure Listing where
  base : Nat
  size : Nat
  headerAddress : Nat
  header : SongHeader
  /-- Entries by the names of their labels, in the order of names. -/
  labels : Std.TreeMap String Label.Entry
  /-- In the order of addresses. -/
  lists : List ListedTrack

namespace Listing

/-- Whether a label starts a block. -/
def startsBlock : Label → Bool
  | .matrixRow _ _ => false
  | _ => true

/-- Whether a label is that of a list. -/
def isList : Label → Bool
  | .subPattern _ _ => true
  | .mainList _ => true
  | _ => false

/-- The start of the first block after an address, or `stop` if there is none. -/
def blockEnd (starts : List Nat) (address stop : Nat) : Nat :=
  ((starts.filter (address < ·)).min?).getD stop

/-- Reads the lists of a song back. -/
def readLists (song : CompiledSong) (starts : List Nat) :
    List (Label × Label.Entry) → Except Error (List ListedTrack)
  | [] => .ok []
  | (label, entry) :: rest => do
    if isList label then
      let stop := blockEnd starts entry.address song.stop
      match Reader.list song.data (stop - song.base) (entry.address - song.base) with
      | .error position => .error (.endOfData position)
      | .ok (instructions, _) =>
        .ok (⟨label, entry.address, instructions⟩ :: (← readLists song starts rest))
    else readLists song starts rest

/-- The entries of labels by their names. -/
def byName (entries : List (Label × Label.Entry)) : Std.TreeMap String Label.Entry :=
  .ofList (entries.map fun e => (e.1.name, e.2))

/-- The listing of a song. -/
def ofSong (song : CompiledSong) : Except Error Listing :=
  match SongHeader.read song.data (song.headerAddress - song.base) with
  | .error position => .error (.endOfData position)
  | .ok (header, _) => do
    let entries := song.labels.toList
    let starts := (entries.filter fun e => startsBlock e.1).map fun e => e.2.address
    let lists ← readLists song starts entries
    .ok { base := song.base
          size := song.data.size
          headerAddress := song.headerAddress
          header := header
          labels := byName entries
          lists := lists.mergeSort fun a b => a.address ≤ b.address }

/-- The fields of a header as JSON. -/
def headerFields (h : SongHeader) : List (String × Json) :=
  [ ("channels", .list (.option fun w => .nat w.toNat) h.channels.toList)
  , ("timer_a_counter", .nat h.timerCounter.toNat)
  , ("time_base", .nat h.timeBase.toNat)
  , ("instruments", .nat h.instruments.toNat) ]

/-- The entry of a label as JSON. -/
def entryJson (e : Label.Entry) : Json :=
  .object [("address", .nat e.address), ("references", .list .nat e.references.toList)]

/-- A list as JSON. -/
def trackJson (t : ListedTrack) : Json :=
  .object [ ("symbol", .string t.label.name)
          , ("address", .nat t.address)
          , ("commands", .list Instruction.toJson t.instructions) ]

/-- A listing as JSON. -/
def toJson (l : Listing) : Json :=
  .object [ ("base", .nat l.base)
          , ("size", .nat l.size)
          , ("header", .object (("address", .nat l.headerAddress) :: headerFields l.header))
          , ("symbols", .object (l.labels.toList.map fun e => (e.1, entryJson e.2)))
          , ("lists", .list trackJson l.lists) ]

end Listing
end Chiptune
