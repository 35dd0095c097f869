import Chiptune.Address
import Chiptune.Binary64
import Chiptune.Binary64.Decimal
import Chiptune.Error
import Chiptune.Event
import Chiptune.Instruction
import Chiptune.Instruction.Reader
import Chiptune.Instrument
import Chiptune.Json.Basic
import Chiptune.Json.Decoder
import Chiptune.Json.Parser
import Chiptune.Json.Printer
import Chiptune.Json.Record
import Chiptune.Json.Token
import Chiptune.Label
import Chiptune.Label.Table
import Chiptune.Main
import Chiptune.Proofs.AcceptedRows
import Chiptune.Proofs.Assembled
import Chiptune.Proofs.Blocks
import Chiptune.Proofs.ChannelState
import Chiptune.Proofs.Chunks
import Chiptune.Proofs.ClampedNotes
import Chiptune.Proofs.Codec
import Chiptune.Proofs.Deduplication
import Chiptune.Proofs.EventCode
import Chiptune.Proofs.EventStream
import Chiptune.Proofs.Header
import Chiptune.Proofs.HeaderRoundTrip
import Chiptune.Proofs.InstrumentTable
import Chiptune.Proofs.LabelDiscipline
import Chiptune.Proofs.LabelHistory
import Chiptune.Proofs.LabelName
import Chiptune.Proofs.LabelTable
import Chiptune.Proofs.ListCode
import Chiptune.Proofs.ListOrder
import Chiptune.Proofs.ListSlice
import Chiptune.Proofs.Listing
import Chiptune.Proofs.ModuleLabels
import Chiptune.Proofs.ModuleSong
import Chiptune.Proofs.Navigation
import Chiptune.Proofs.PatternExit
import Chiptune.Proofs.PatternList
import Chiptune.Proofs.PendingJumps
import Chiptune.Proofs.Places
import Chiptune.Proofs.PlayingTime
import Chiptune.Proofs.PositionJump
import Chiptune.Proofs.References
import Chiptune.Proofs.Relocation
import Chiptune.Proofs.Rounding
import Chiptune.Proofs.Rows
import Chiptune.Proofs.SampleBank
import Chiptune.Proofs.SampleImage
import Chiptune.Proofs.SampleList
import Chiptune.Proofs.SamplePlacement
import Chiptune.Proofs.Schedule
import Chiptune.Proofs.SizeBudget
import Chiptune.Proofs.SongSource
import Chiptune.Proofs.SongWalk
import Chiptune.Proofs.Source
import Chiptune.Proofs.SourceCheck
import Chiptune.Proofs.Ticks
import Chiptune.Proofs.TimerRange
import Chiptune.Proofs.WaitCode
import Chiptune.SampleRom
import Chiptune.Song.Assembly
import Chiptune.Song.Basic
import Chiptune.Song.Header
import Chiptune.Song.Layout
import Chiptune.Song.Listing
import Chiptune.SoundBank
import Chiptune.SubPattern
import Chiptune.Tempo
import Chiptune.Text.Hex
import Chiptune.Tool
import Chiptune.Tool.Arguments
import Chiptune.Tracker.Decoding
import Chiptune.Tracker.Module
import Chiptune.Voice
import Chiptune.Word
