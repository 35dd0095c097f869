/-
# The song of a module

On each driver channel, the song of a module has a track exactly if the
matrix has a column for the tracker channel: its main list jumps once for each
row of the column, and its sub-patterns are the lists of the column's patterns
(`Song.ofModule_channel`). So only main lists of such a song play rows of the
pattern matrix.

Key definitions: `Song.TrackOf`.
Key theorems: `Song.mainList_events`, `Song.convertPatterns_getElem?`,
`Song.ofModule_channel`, `Song.ofModule_rowsInMain`.
-/
import Chiptune.Proofs.PatternList
import Chiptune.Proofs.Rows
import Chiptune.Song.Assembly

namespace Chiptune

open Tracker

/-! ### Channel orders -/

theorem trackerChannel_driverChannel (channel : Fin channelCount) :
    trackerChannel (driverChannel channel) = channel := by
  revert channel
  decide

theorem driverChannel_trackerChannel (channel : Fin channelCount) :
    driverChannel (trackerChannel channel) = channel := by
  revert channel
  decide

theorem get_toDriverOrder {α : Type} (channels : Vector α channelCount)
    (channel : Fin channelCount) :
    (toDriverOrder channels).get (driverChannel channel) = channels.get channel := by
  show (toDriverOrder channels)[(driverChannel channel).val] = channels[channel.val]
  simp [toDriverOrder, trackerChannel_driverChannel]

theorem InstrumentRecord.length_ofTrackerAll : ∀ (instruments : List Instrument)
    (tables : List Table), (ofTrackerAll tables instruments).1.length = instruments.length
  | [], _ => rfl
  | _ :: rest, _ => congrArg (· + 1) (length_ofTrackerAll rest _)

namespace Song

variable {m : Module} {channel : Nat} {sampler : UInt8}

/-! ### Main lists -/

section Main

variable {column : List UInt8}

/-- The events before the first row of a main list. -/
def selectEvents (channel : Nat) (sampler : UInt8) : List Event :=
  match voiceKind channel with
  | .adpcmA => [⟨.changeInstrument sampler, 0⟩]
  | _ => []

/-- The event for a row with a pattern number. -/
def rowEvent (column : List UInt8) (number : UInt8) : Event :=
  ⟨.jumpToSubPattern ((patternNumbers column).idxOf number), 0⟩

theorem mainList_events : (mainList channel sampler column).events =
    selectEvents channel sampler ++ (column.map (rowEvent column) ++ [⟨.endList, 0⟩]) :=
  List.append_assoc ..

theorem take_mainList {r : Nat} (hr : r ≤ column.length) :
    (mainList channel sampler column).events.take ((selectEvents channel sampler).length + r) =
      selectEvents channel sampler ++ (column.take r).map (rowEvent column) := by
  rw [mainList_events, List.take_length_add_append,
    List.take_append_of_le_length (by simpa using hr), List.map_take]

theorem getElem?_mainList {r : Nat} {number : UInt8} (hr : column[r]? = some number) :
    (mainList channel sampler column).events[(selectEvents channel sampler).length + r]? =
      some (rowEvent column number) := by
  have hlt := (List.getElem?_eq_some_iff.mp hr).1
  rw [mainList_events, List.getElem?_append_right (Nat.le_add_right _ _), Nat.add_sub_cancel_left,
    List.getElem?_append_left (by simpa using hlt), List.getElem?_map, hr]
  rfl

theorem mem_selectEvents {e : Event} (h : e ∈ selectEvents channel sampler) :
    e = ⟨.changeInstrument sampler, 0⟩ := by
  unfold selectEvents at h
  split at h
  · exact List.mem_singleton.mp h
  · cases h

theorem rowCount_selectEvents : Event.rowCount (selectEvents channel sampler) = 0 :=
  Event.rowCount_eq_zero fun e he => by rw [mem_selectEvents he]; rfl

theorem rowCount_rowEvents (numbers : List UInt8) :
    Event.rowCount (numbers.map (rowEvent column)) = numbers.length := by
  rw [Event.rowCount, List.countP_map]
  exact List.countP_eq_length.mpr fun _ _ => rfl

theorem rowCount_mainList :
    Event.rowCount (mainList channel sampler column).events = column.length := by
  rw [mainList_events, Event.rowCount_append, Event.rowCount_append, rowCount_selectEvents,
    rowCount_rowEvents, Nat.zero_add]
  rfl

theorem command_ne_positionJump_mainList :
    ∀ e ∈ (mainList channel sampler column).events, ∀ r, e.command ≠ .positionJump r := by
  intro e he r
  rw [mainList_events, List.mem_append, List.mem_append] at he
  rcases he with he | he | he
  · rw [mem_selectEvents he]
    exact nofun
  · obtain ⟨number, -, rfl⟩ := List.mem_map.mp he
    exact nofun
  · rw [List.mem_singleton.mp he]
    exact nofun

end Main

/-! ### Sub-patterns -/

theorem mem_patternNumbers {column : List UInt8} {p : UInt8} :
    p ∈ patternNumbers column ↔ p ∈ column := by
  have hall : p ∈ (List.range 256).map Nat.toUInt8 :=
    List.mem_map.mpr ⟨p.toNat, List.mem_range.mpr p.toNat_lt, by simp⟩
  rw [patternNumbers, List.mem_filter, and_iff_right hall, List.contains_iff_mem]

theorem convertPatterns_cons_eq_ok {number : UInt8} {rest : List UInt8} {clamped : Bool}
    {r : List EventList × Bool} (h : convertPatterns m channel clamped (number :: rest) = .ok r) :
    ∃ pattern list clamped' more, m.pattern? channel number = some pattern ∧
      (SubPattern.ofPattern channel m.timeInfo false pattern).1 = .ok list ∧
      convertPatterns m channel clamped' rest = .ok more ∧ r.1 = list :: more.1 := by
  unfold convertPatterns at h
  split at h
  · cases h
  · next pattern hpattern =>
    obtain ⟨list, hlist, h⟩ := Except.bind_eq_ok h
    obtain ⟨more, hmore, h⟩ := Except.bind_eq_ok h
    obtain rfl := Except.ok.inj h
    exact ⟨pattern, list, _, more, hpattern,
      (SubPattern.ofPattern_clamped channel m.timeInfo false clamped pattern).trans hlist, hmore, rfl⟩

/-- The sub-patterns are the lists of the patterns, in the order of the
numbers. -/
theorem convertPatterns_getElem? {numbers : List UInt8} {clamped : Bool}
    {r : List EventList × Bool} (h : convertPatterns m channel clamped numbers = .ok r) {i : Nat}
    {number : UInt8} (hi : numbers[i]? = some number) :
    ∃ pattern list, m.pattern? channel number = some pattern ∧
      (SubPattern.ofPattern channel m.timeInfo false pattern).1 = .ok list ∧
      r.1[i]? = some list := by
  induction numbers generalizing clamped r i with
  | nil => simp at hi
  | cons first rest ih =>
    obtain ⟨pattern, list, _, more, hpattern, hlist, hmore, hr⟩ := convertPatterns_cons_eq_ok h
    rw [hr]
    cases i with
    | zero =>
      obtain rfl : first = number := Option.some.inj hi
      exact ⟨pattern, list, hpattern, hlist, rfl⟩
    | succ i => exact ih hmore hi

theorem length_convertPatterns {numbers : List UInt8} {clamped : Bool}
    {r : List EventList × Bool} (h : convertPatterns m channel clamped numbers = .ok r) :
    r.1.length = numbers.length := by
  induction numbers generalizing clamped r with
  | nil =>
    obtain rfl := Except.ok.inj h
    rfl
  | cons first rest ih =>
    obtain ⟨-, list, _, more, -, -, hmore, hr⟩ := convertPatterns_cons_eq_ok h
    rw [hr, List.length_cons, List.length_cons, ih hmore]

theorem exists_pattern_of_mem {numbers : List UInt8} {clamped : Bool}
    {r : List EventList × Bool} (h : convertPatterns m channel clamped numbers = .ok r)
    {list : EventList} (hl : list ∈ r.1) :
    ∃ pattern, (SubPattern.ofPattern channel m.timeInfo false pattern).1 = .ok list := by
  induction numbers generalizing clamped r with
  | nil =>
    obtain rfl := Except.ok.inj h
    cases hl
  | cons first rest ih =>
    obtain ⟨pattern, list', _, more, -, hlist, hmore, hr⟩ := convertPatterns_cons_eq_ok h
    rw [hr] at hl
    rcases List.mem_cons.mp hl with rfl | hl
    · exact ⟨pattern, hlist⟩
    · exact ih hmore hl

/-! ### Tracks -/

/-- The track of a column of a module on a tracker channel. -/
def TrackOf (m : Module) (channel : Nat) (column : List UInt8) (track : ChannelTrack) : Prop :=
  track.events = mainList channel m.instruments.length.toUInt8 column ∧
    ∃ clamped, convertPatterns m channel false (patternNumbers column) =
      .ok (track.subPatterns, clamped)

/-- The tracks of columns, each by its own column. -/
theorem tracksFrom_getElem? : ∀ {columns : List (Option (List UInt8))} {channel : Nat}
    {tracks : List (Option (ChannelTrack × Bool))},
    tracksFrom m sampler channel columns = .ok tracks → ∀ i : Nat,
    match (columns[i]?).join with
    | none => (tracks[i]?).join = none
    | some column => ∃ t, (tracks[i]?).join = some t ∧ track m sampler (channel + i) column = .ok t
  | [], channel, tracks, h, i => by
    obtain rfl := Except.ok.inj h
    rfl
  | none :: rest, channel, tracks, h, i => by
    obtain ⟨more, hmore, h⟩ := Except.bind_eq_ok h
    obtain rfl := Except.ok.inj h
    cases i with
    | zero => rfl
    | succ i =>
      have hi := tracksFrom_getElem? hmore i
      rwa [Nat.add_right_comm] at hi
  | some column :: rest, channel, tracks, h, i => by
    obtain ⟨first, hfirst, h⟩ := Except.bind_eq_ok h
    obtain ⟨more, hmore, h⟩ := Except.bind_eq_ok h
    obtain rfl := Except.ok.inj h
    cases i with
    | zero => exact ⟨first, rfl, hfirst⟩
    | succ i =>
      have hi := tracksFrom_getElem? hmore i
      rwa [Nat.add_right_comm] at hi

theorem track_eq_ok {column : List UInt8} {t : ChannelTrack × Bool}
    (h : track m m.instruments.length.toUInt8 channel column = .ok t) :
    TrackOf m channel column t.1 := by
  obtain ⟨⟨lists, clamped⟩, hlists, h⟩ := Except.bind_eq_ok h
  obtain rfl := Except.ok.inj h
  exact ⟨rfl, clamped, hlists⟩

/-- What a song is made of. -/
theorem ofModule_eq_ok {vromStart : Nat} {song : Song} (h : ofModule m vromStart = .ok song) :
    m.instruments.length ≤ instrumentLimit ∧ ∃ tracks,
      tracksFrom m m.instruments.length.toUInt8 0 (m.matrix.take channelCount) = .ok tracks ∧
      song.channels = toDriverOrder (Vector.ofFn fun i => (tracks[i.val]?).join.map Prod.fst) := by
  obtain ⟨timer, -, h⟩ := Except.bind_eq_ok h
  obtain ⟨samples, -, h⟩ := Except.bind_eq_ok h
  split at h
  · cases h
  · next hle =>
    simp only at h
    obtain ⟨tracks, htracks, h⟩ := Except.bind_eq_ok h
    obtain rfl := Except.ok.inj h
    rw [InstrumentRecord.length_ofTrackerAll] at htracks
    exact ⟨Nat.le_of_not_lt hle, tracks, htracks, rfl⟩

/-- What the samples, the instrument records and the tables of a song are. -/
theorem ofModule_parts {vromStart : Nat} {song : Song} (h : ofModule m vromStart = .ok song) :
    SampleRom.place vromStart m.samples = .ok song.samples ∧
      ∃ records tables, InstrumentRecord.ofTrackerAll [] m.instruments = (records, tables) ∧
        song.instruments = records ++ [.adpcmA tables.length] ∧
        song.tables = tables ++ [.sampleList (song.samples.map fun p => (p.first, p.last))] := by
  obtain ⟨timer, -, h⟩ := Except.bind_eq_ok h
  obtain ⟨samples, hsamples, h⟩ := Except.bind_eq_ok h
  split at h
  · cases h
  · simp only at h
    obtain ⟨tracks, -, h⟩ := Except.bind_eq_ok h
    obtain rfl := Except.ok.inj h
    exact ⟨hsamples, _, _, rfl, rfl, rfl⟩

/-- **Each channel plays its column.** -/
theorem ofModule_channel {vromStart : Nat} {song : Song} (h : ofModule m vromStart = .ok song)
    (channel : Fin channelCount) :
    match (m.matrix[channel.val]?).join with
    | none => song.channels.get (driverChannel channel) = none
    | some column => ∃ track, song.channels.get (driverChannel channel) = some track ∧
        TrackOf m channel column track := by
  obtain ⟨-, tracks, htracks, hchannels⟩ := ofModule_eq_ok h
  have htrack := tracksFrom_getElem? htracks channel
  rw [List.getElem?_take_of_lt channel.isLt, Nat.zero_add] at htrack
  have hget : song.channels.get (driverChannel channel) =
      (tracks[channel.val]?).join.map Prod.fst := by
    rw [hchannels, get_toDriverOrder]
    exact Vector.getElem_ofFn channel.isLt
  rw [hget]
  cases hc : (m.matrix[channel.val]?).join with
  | none =>
    rw [hc] at htrack
    exact congrArg (Option.map Prod.fst) htrack
  | some column =>
    rw [hc] at htrack
    obtain ⟨t, ht, htrack⟩ := htrack
    exact ⟨t.1, congrArg (Option.map Prod.fst) ht, track_eq_ok htrack⟩

theorem ofModule_track {vromStart : Nat} {song : Song} (h : ofModule m vromStart = .ok song)
    {d : Fin channelCount} {track : ChannelTrack} (ht : song.channels.get d = some track) :
    ∃ column, (m.matrix[(trackerChannel d).val]?).join = some column ∧
      TrackOf m (trackerChannel d) column track := by
  have hchannel := ofModule_channel h (trackerChannel d)
  simp only [driverChannel_trackerChannel, ht] at hchannel
  cases hc : (m.matrix[(trackerChannel d).val]?).join with
  | none =>
    rw [hc] at hchannel
    cases hchannel
  | some column =>
    rw [hc] at hchannel
    obtain ⟨track', heq, htrack⟩ := hchannel
    obtain rfl := Option.some.inj heq
    exact ⟨column, rfl, htrack⟩

theorem ofModule_kind {vromStart : Nat} {song : Song} (h : ofModule m vromStart = .ok song)
    {d : Fin channelCount} {track : ChannelTrack} (ht : song.channels.get d = some track) :
    track.events.kind = .main := by
  obtain ⟨column, -, hmain, -⟩ := ofModule_track h ht
  rw [hmain]
  rfl

/-- Only main lists of the song of a module play rows. -/
theorem ofModule_rowsInMain {vromStart : Nat} {song : Song} (h : ofModule m vromStart = .ok song) :
    song.RowsInMain := by
  intro entry hentry track ht list hl event he
  obtain ⟨d, hd, rfl⟩ := Vector.getElem_of_mem (Vector.mem_toList_iff.mp hentry)
  obtain ⟨column, -, -, clamped, hlists⟩ := ofModule_track (d := ⟨d, hd⟩) h ht
  obtain ⟨pattern, hlist⟩ := exists_pattern_of_mem hlists hl
  exact (SubPattern.ofPattern_eq_ok hlist).2.2 event he

end Song
end Chiptune
