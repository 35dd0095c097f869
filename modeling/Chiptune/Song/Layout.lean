/-
# Song data

A song is laid out in one pass: its tables, its instrument records, for each
channel its sub-patterns and then its main list, and last the header. Every
block has a label. Within a list, each jump to a sub-pattern plays the next
row of the pattern matrix and is labelled as that row.

A position jump to a row that is not placed yet is emitted with a zero
operand and kept as a pending fixup. As soon as the row is placed, the
operands of its fixups are filled in, in the order of the jumps. A fixup left
when all channels are placed is an error; the one with the least channel and
row is reported.

Addresses are stored in 16 bits, so a song must end at or below `2 ^ 16`, and
at or below the limit that is asked for. This is known only at the end; on the
way there all addresses are 64-bit words, those behind the lists included, and
placing something beyond them fails at once.

Key definitions: `Layout`, `Layout.placeRow`, `Layout.placeEvents`,
`Layout.headerOf`, `Layout.placeBody`, `Song.compile`.
-/
import Chiptune.Song.Basic
import Chiptune.Song.Header

namespace Chiptune

/-- A position jump whose row is not placed yet. -/
structure Fixup where
  channel : Nat
  row : Nat
  /-- The address of the operand. -/
  site : Nat
  deriving DecidableEq, Repr

/-- The data of a song placed so far. -/
structure Layout where
  base : Nat
  bytes : Array UInt8 := #[]
  labels : LabelTable := {}
  /-- In the order of the jumps. -/
  pending : List Fixup := []

namespace Layout

/-- The address of the next byte. -/
def address (l : Layout) : Nat := l.base + l.bytes.size

/-- The address of the next byte, if there is one. -/
def here (l : Layout) : Except Error Nat := Address.advance l.base l.bytes.size

/-- Defines a label at the next byte. -/
def define (l : Layout) (label : Label) : Except Error Layout := do
  let labels ← l.labels.define label (← l.here)
  .ok { l with labels := labels }

/-- Appends bytes. -/
def append (l : Layout) (bytes : List UInt8) : Layout :=
  { l with bytes := l.bytes ++ bytes }

/-- Places tables, the first one with an index. -/
def placeTables (l : Layout) (index : Nat) : List Table → Except Error Layout
  | [] => .ok l
  | table :: rest => do
    let l ← l.define (.table index)
    placeTables (l.append table.encode) (index + 1) rest

/-- Places an instrument record. -/
def placeRecord (l : Layout) (record : InstrumentRecord) : Except Error Layout := do
  let (code, labels) := record.compile l.labels (← l.here)
  .ok ({ l with labels := labels }.append (← code))

/-- Places instrument records. -/
def placeRecords (l : Layout) : List InstrumentRecord → Except Error Layout
  | [] => .ok l
  | record :: rest => do placeRecords (← l.placeRecord record) rest

/-- Stores an address at an offset of the data. -/
def store (bytes : Array UInt8) (offset target : Nat) : Array UInt8 :=
  let word := target.toUInt16
  (bytes.setIfInBounds offset word.toUInt8).setIfInBounds (offset + 1) (word >>> 8).toUInt8

/-- Fills in the operands of fixups with the address of their label. -/
def fill (l : Layout) (label : Label) : List Fixup → Except Error Layout
  | [] => .ok l
  | fixup :: rest => do
    let (target, labels) ← l.labels.reference label fixup.site
    fill { l with labels := labels, bytes := store l.bytes (fixup.site - l.base) target } label rest

/-- Whether a fixup waits for a row. -/
def awaits (channel row : Nat) (fixup : Fixup) : Bool :=
  fixup.channel == channel && fixup.row == row

/-- Places a row of the pattern matrix and fills in the jumps to it. -/
def placeRow (l : Layout) (channel row : Nat) : Except Error Layout := do
  let label := Label.matrixRow channel row
  let placed ← l.define label
  let (due, left) := placed.pending.partition (awaits channel row)
  fill { placed with pending := left } label due

/-- The fixup of an event that is emitted as `bytes`, if its row is not placed
yet: the operand is the last two bytes. -/
def fixupOf (labels : LabelTable) (channel address : Nat) (event : Event) (bytes : List UInt8) :
    Except Error (List Fixup) :=
  match event.command with
  | .positionJump row =>
    if labels.contains (.matrixRow channel row) then .ok []
    else do
      let stop ← Address.advance address bytes.length
      .ok [⟨channel, row, stop - 2⟩]
  | _ => .ok []

/-- Places an event. -/
def placeEvent (l : Layout) (channel : Nat) (event : Event) : Except Error Layout := do
  let address ← l.here
  let (code, labels) := event.compile channel address l.labels
  let bytes ← code
  let fixups ← fixupOf labels channel address event bytes
  .ok ({ l with labels := labels, pending := l.pending ++ fixups }.append bytes)

/-- Whether a command plays a row of the pattern matrix. -/
def playsRow : Command → Bool
  | .jumpToSubPattern _ => true
  | _ => false

/-- Places events; `row` is the next row of the pattern matrix. -/
def placeEvents (l : Layout) (channel row : Nat) : List Event → Except Error Layout
  | [] => .ok l
  | event :: rest => do
    if playsRow event.command then
      let l ← l.placeRow channel row
      let l ← l.placeEvent channel event
      placeEvents l channel (row + 1) rest
    else
      let l ← l.placeEvent channel event
      placeEvents l channel row rest

/-- Places a list of a channel; the index counts sub-patterns. There has to be
an address behind the list. -/
def placeList (l : Layout) (channel index : Nat) (list : EventList) : Except Error Layout := do
  let l ← l.define (list.label channel index)
  let l ← l.placeEvents channel 0 list.events
  let _ ← l.here
  .ok l

/-- Places sub-patterns of a channel, the first one with an index. -/
def placeSubPatterns (l : Layout) (channel index : Nat) : List EventList → Except Error Layout
  | [] => .ok l
  | list :: rest => do
    let l ← l.placeList channel index list
    placeSubPatterns l channel (index + 1) rest

/-- Places the lists of channels, the first one with an index. -/
def placeChannels (l : Layout) (channel : Nat) : List (Option ChannelTrack) → Except Error Layout
  | [] => .ok l
  | none :: rest => placeChannels l (channel + 1) rest
  | some track :: rest => do
    let l ← l.placeSubPatterns channel 0 track.subPatterns
    let l ← l.placeList channel 0 track.events
    placeChannels l (channel + 1) rest

/-- The earlier of two fixups: by channel, then by row. -/
def earlier (a b : Fixup) : Fixup :=
  if b.channel < a.channel ∨ (b.channel = a.channel ∧ b.row < a.row) then b else a

/-- Fails if a fixup is left. -/
def checkResolved (l : Layout) : Except Error Unit :=
  match l.pending with
  | [] => .ok ()
  | fixup :: rest =>
    let least := rest.foldl earlier fixup
    .error (.unresolvedJump least.channel least.row)

/-- The addresses of the main lists of channels, and the label table with the
references that the header at an address makes to them. -/
def headerPointers (labels : LabelTable) (address channel : Nat) :
    List (Option ChannelTrack) → Except Error (List (Option UInt16) × LabelTable)
  | [] => .ok ([], labels)
  | none :: rest => do
    let (pointers, labels) ← headerPointers labels address (channel + 1) rest
    .ok (none :: pointers, labels)
  | some _ :: rest => do
    let site ← Address.advance address (2 * channel)
    let (target, labels) ← labels.reference (.mainList channel) site
    let (pointers, labels) ← headerPointers labels address (channel + 1) rest
    .ok (some target.toUInt16 :: pointers, labels)

/-- The offset of the pointer to the instrument records in a header. -/
def instrumentsOffset : Nat := 2 * channelCount + 3

/-- The header of a song at an address, and the label table with the references
that it makes. -/
def headerOf (labels : LabelTable) (start : Nat) (song : Song) :
    Except Error (SongHeader × LabelTable) := do
  let (pointers, labels) ← headerPointers labels start 0 song.channels.toList
  let site ← Address.advance start instrumentsOffset
  let (instruments, labels) ← labels.reference .instruments site
  .ok ({ channels := Vector.ofFn fun i => (pointers[i.val]?).join
         timerCounter := song.timer.counter
         timeBase := song.timer.timeBase
         instruments := instruments.toUInt16 }, labels)

/-- Places the header. -/
def placeHeader (l : Layout) (song : Song) : Except Error Layout := do
  let start ← l.here
  let l ← l.define .header
  let (header, labels) ← headerOf l.labels start song
  .ok ({ l with labels := labels }.append header.encode)

/-- Places everything before the header. -/
def placeBody (song : Song) (base : Nat) : Except Error Layout := do
  let l ← placeTables { base := base } 0 song.tables
  let l ← l.define .instruments
  let l ← l.placeRecords song.instruments
  let l ← l.placeChannels 0 song.channels.toList
  l.checkResolved
  .ok l

end Layout

/-- A song with its data. -/
structure CompiledSong where
  /-- The address of the first byte. -/
  base : Nat
  data : Array UInt8
  headerAddress : Nat
  labels : LabelTable

/-- The address after the last byte. -/
def CompiledSong.stop (song : CompiledSong) : Nat := song.base + song.data.size

namespace Song

/-- Addresses are below this number. -/
def addressSpace : Nat := 0x10000

/-- The limit on the size of sound data unless another one is given. -/
def defaultLimit : Nat := 30720

/-- The data of a song at an address; it has to end at or below the limit. -/
def compile (song : Song) (base limit : Nat) : Except Error CompiledSong := do
  let body ← Layout.placeBody song base
  let placed ← body.placeHeader song
  let stop ← placed.here
  let bound := min limit addressSpace
  if bound < stop then .error (.dataOverflow stop bound)
  else .ok ⟨base, placed.bytes, body.address, placed.labels⟩

end Song
end Chiptune
