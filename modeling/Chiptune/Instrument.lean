/-
# Instrument records and their tables

The driver keeps instruments as records of 32 bytes. An FM record packs the
operator parameters into register values. An SSG record points to up to three
envelope tables. One further record, for all ADPCM-A channels, points to the
list of sample addresses. Tables are stored apart from the records and are
found through labels.

Key definitions: `Table`, `Table.encode`, `InstrumentRecord`,
`InstrumentRecord.ofTracker`, `InstrumentRecord.compile`.
-/
import Chiptune.Address
import Chiptune.Label.Table
import Chiptune.Tracker.Module
import Chiptune.Word

namespace Chiptune

open Tracker

/-- A table that instrument records point to. -/
inductive Table where
  | envelope (values : List UInt8) (loopPoint : Option UInt8)
  /-- First and last address of each sample. -/
  | sampleList (addresses : List (Nat × Nat))
  deriving DecidableEq, Repr

namespace Table

/-- The table of an envelope, which has room for 255 values. -/
def ofEnvelope (e : Envelope) : Table := .envelope (e.values.take 255) e.loopPoint

/-- The loop point that means no loop. -/
def noLoop : UInt8 := 0xFF

/-- The bytes of a table: counts are stored modulo 256. -/
def encode : Table → List UInt8
  | .envelope values loopPoint => values.length.toUInt8 :: loopPoint.getD noLoop :: values
  | .sampleList addresses =>
    addresses.length.toUInt8 :: addresses.flatMap fun a => Word.address a.1 ++ Word.address a.2

end Table

/-- An instrument as the driver keeps it; tables are given by their index. -/
inductive InstrumentRecord where
  | fm (instrument : FmInstrument)
  | ssg (tone noise : Bool) (volume arpeggio mixing : Option Nat)
  | adpcmA (sampleList : Nat)
  deriving DecidableEq, Repr

namespace InstrumentRecord

/-- The size of a record. -/
def size : Nat := 32

/-- The index of the table of an envelope, and the tables with it at the end. -/
def addEnvelope (tables : List Table) : Option Envelope → Option Nat × List Table
  | none => (none, tables)
  | some e => (some tables.length, tables ++ [.ofEnvelope e])

/-- The record of an instrument, and the tables with those that it needs. -/
def ofTracker (tables : List Table) : Instrument → InstrumentRecord × List Table
  | .fm instrument => (.fm instrument, tables)
  | .ssg instrument =>
    let (volume, tables) := addEnvelope tables instrument.volume
    let (arpeggio, tables) := addEnvelope tables instrument.arpeggio
    let (mixing, tables) := addEnvelope tables instrument.mixing
    (.ssg instrument.tone instrument.noise volume arpeggio mixing, tables)

/-- The records of instruments, and the tables with those that they need. -/
def ofTrackerAll (tables : List Table) : List Instrument → List InstrumentRecord × List Table
  | [] => ([], tables)
  | instrument :: rest =>
    let (record, tables) := ofTracker tables instrument
    let (records, tables) := ofTrackerAll tables rest
    (record :: records, tables)

/-- The register values of an operator. -/
def operatorBytes (op : FmOperator) : List UInt8 :=
  [ (op.dt &&& 7) <<< 4 ||| (op.mul &&& 0x0F)
  , op.tl &&& 0x7F
  , (op.ks &&& 3) <<< 6 ||| (op.ar &&& 0x1F)
  , (op.am &&& 1) <<< 7 ||| (op.dr &&& 0x1F)
  , op.sr &&& 0x1F
  , (op.sl &&& 0x0F) <<< 4 ||| (op.rr &&& 0x0F)
  , op.ssgEg &&& 0x0F ]

/-- The register values of an FM instrument. -/
def fmBytes (fm : FmInstrument) : List UInt8 :=
  ((fm.feedback &&& 7) <<< 3 ||| (fm.algorithm &&& 7))
    :: ((fm.ams &&& 3) <<< 4 ||| (fm.fms &&& 7))
    :: fm.operators.toList.flatMap operatorBytes

/-- The mixer byte of an SSG instrument. -/
def mixerByte (tone noise : Bool) : UInt8 :=
  (if tone then 1 else 0) ||| (if noise then 2 else 0)

/-- The pointers to tables, the first one `offset` bytes behind an address, and
zero where there is none. Each refers to the label of its table; references
made before one that fails remain in the label table. -/
def pointers (labels : LabelTable) (address offset : Nat) :
    List (Option Nat) → Except Error (List UInt8) × LabelTable
  | [] => (.ok [], labels)
  | none :: rest =>
    let (bytes, labels) := pointers labels address (offset + 2) rest
    (bytes.map (Word.address 0 ++ ·), labels)
  | some index :: rest =>
    match Address.advance address offset >>= labels.reference (.table index) with
    | .error e => (.error e, labels)
    | .ok (target, labels) =>
      let (bytes, labels) := pointers labels address (offset + 2) rest
      (bytes.map (Word.address target ++ ·), labels)

/-- A record filled up with zeros. -/
def padded (bytes : List UInt8) : List UInt8 :=
  bytes ++ List.replicate (size - bytes.length) 0

/-- The bytes of a record at an address. -/
def compile (labels : LabelTable) (address : Nat) :
    InstrumentRecord → Except Error (List UInt8) × LabelTable
  | .fm instrument => (.ok (padded (fmBytes instrument)), labels)
  | .ssg tone noise volume arpeggio mixing =>
    let (bytes, labels) := pointers labels address 1 [volume, arpeggio, mixing]
    (bytes.map fun bs => padded (mixerByte tone noise :: bs), labels)
  | .adpcmA sampleList =>
    let (bytes, labels) := pointers labels address 0 [some sampleList]
    (bytes.map padded, labels)

end InstrumentRecord
end Chiptune
