/-
# Navigating a sound bank

The songs of modules are found from the data of a bank alone. The index leads
to the headers, a header leads to the main lists of exactly those channels
that have a column in the pattern matrix, a main list jumps once for each row
of the column, each jump leads to the code of the row's pattern, and the
position jumps in it lead back to the jumps of their rows
(`SoundBank.image_navigable`).

The data of a song stand in those of the bank where the song was compiled to
(`Song.StandsIn`), so what the song's data hold is read at its address.

Key definitions: `Song.PlaysColumn`, `SongHeader.Plays`, `Song.StandsIn`.
Key theorems: `Song.StandsIn.read_list`, `Song.StandsIn.read_header`,
`Song.StandsIn.playsColumn`, `SoundBank.compileFrom_getElem?`,
`SoundBank.image_navigable`.
-/
import Chiptune.Proofs.Header
import Chiptune.Proofs.ListCode
import Chiptune.Proofs.ModuleSong
import Chiptune.SoundBank
import Mathlib.Data.List.Basic

namespace Chiptune

open Tracker

/-! ### What is found from a header -/

namespace Song

/-- The instructions before the first row of a tracker channel: ADPCM-A
channels select the record behind those of the module's instruments. -/
def selection (m : Module) (channel : Nat) : List Instruction :=
  match voiceKind channel with
  | .adpcmA => [.changeInstrument m.instruments.length.toUInt8]
  | _ => []

/-- The instructions for rows of a tracker channel, whose sub-patterns have the
addresses `targets`. -/
def rowsCode (m : Module) (channel : Nat) (targets : List UInt16) : List Instruction :=
  selection m channel ++ targets.map .jumpToSubPattern

/-- The address of the jump for a row in a main list at `start`. -/
def rowAddress (m : Module) (channel : Nat) (start : UInt16) (targets : List UInt16)
    (row : Nat) : UInt16 :=
  (start.toNat + (Instruction.encodeAll (rowsCode m channel (targets.take row))).length).toUInt16

/-- From the address `start` on, the data play a column of a module: a list
with a jump for each row, each of which leads to the code of the row's
pattern, with the addresses of rows in its position jumps. -/
structure PlaysColumn (data : Array UInt8) (m : Module) (channel : Nat) (column : List UInt8)
    (start : UInt16) (targets : List UInt16) : Prop where
  rows : targets.length = column.length
  main : Reader.list data data.size start.toNat = .ok (rowsCode m channel targets ++ [.endList],
    start.toNat + (Instruction.encodeAll (rowsCode m channel targets ++ [.endList])).length)
  fits : start.toNat + (Instruction.encodeAll (rowsCode m channel targets ++ [.endList])).length ≤
    addressSpace
  patterns : ∀ {r : Nat} {number : UInt8} {target : UInt16},
    column[r]? = some number → targets[r]? = some target →
    ∃ pattern list next, m.pattern? channel number = some pattern ∧
      (SubPattern.ofPattern channel m.timeInfo false pattern).1 = .ok list ∧
      (∀ e ∈ list.events, ∀ row, e.command = .positionJump row → row < column.length) ∧
      Reader.list data data.size target.toNat = .ok (Instruction.throughEnd
        (list.events.flatMap (Event.decoded (rowAddress m channel start targets))), next)

end Song

/-- The data play a module from a header on: the header points to a list for
exactly those channels that have a column, and the list plays the column. -/
structure SongHeader.Plays (header : SongHeader) (data : Array UInt8) (m : Module) : Prop where
  instruments : m.instruments.length ≤ Song.instrumentLimit
  channels : ∀ d : Fin channelCount, (header.channels.get d).isSome = true ↔
    ∃ channel, driverChannel channel = d ∧ (m.matrix[channel.val]?).join.isSome = true
  columns : ∀ {channel : Fin channelCount} {column : List UInt8} {start : UInt16},
    (m.matrix[channel.val]?).join = some column →
    header.channels.get (driverChannel channel) = some start →
    ∃ targets, Song.PlaysColumn data m channel column start targets

/-! ### Songs in data -/

namespace Song

variable {song : Song} {l : Layout} {data : Array UInt8}

/-- The data hold a song where it was compiled to. -/
structure StandsIn (song : Song) (l : Layout) (data : Array UInt8) : Prop where
  assembled : l.Assembled song.source
  pending : l.pending = []
  base_pos : 0 < l.base
  space : l.base + (survey song.source).offset ≤ addressSpace
  part : ∃ before after, data.toList = before ++ (l.bytes.toList ++ after) ∧ before.length = l.base

theorem getElem?_toList_channels {d : Fin channelCount} {track : ChannelTrack}
    (h : song.channels.get d = some track) : song.channels.toList[d.val]? = some (some track) := by
  rw [Vector.getElem?_toList, ← h]
  exact Vector.getElem?_eq_getElem d.isLt

/-- The main list of a channel. -/
def mainPlace {d : Fin channelCount} {track : ChannelTrack} (h : song.channels.get d = some track) :
    song.ListPlace where
  channel := d
  track := track
  which := none
  list := track.events
  track_eq := getElem?_toList_channels h
  list_eq := rfl

/-- A sub-pattern of a channel. -/
def subPlace {d : Fin channelCount} {track : ChannelTrack} (h : song.channels.get d = some track)
    {index : Nat} {list : EventList} (hl : track.subPatterns[index]? = some list) :
    song.ListPlace where
  channel := d
  track := track
  which := some index
  list := list
  track_eq := getElem?_toList_channels h
  list_eq := hl

theorem label_mainPlace {d : Fin channelCount} {track : ChannelTrack}
    (h : song.channels.get d = some track) (hkind : track.events.kind = .main) :
    (mainPlace h).label = .mainList d := by
  simp [ListPlace.label, mainPlace, EventList.label, hkind]

theorem label_subPlace {d : Fin channelCount} {track : ChannelTrack}
    (h : song.channels.get d = some track) {index : Nat} {list : EventList}
    (hl : track.subPatterns[index]? = some list) (hkind : list.kind = .sub) :
    (subPlace h hl).label = .subPattern d index := by
  simp [ListPlace.label, subPlace, EventList.label, hkind]

theorem headerAt_channels (song : Song) (base : Nat) (d : Fin channelCount) :
    (song.headerAt base).channels.get d =
      (song.channels.get d).map fun _ => song.addressAt base (.mainList d) :=
  Vector.getElem_ofFn d.isLt

namespace StandsIn

theorem holds (h : song.StandsIn l data) {pos : Nat} {bs : List UInt8}
    (hh : Reader.Holds l.bytes pos bs) : Reader.Holds data (l.base + pos) bs := by
  obtain ⟨before, after, hdata, hlen⟩ := h.part
  rw [← hlen]
  exact hh.shift hdata

theorem toNat_addressAt (h : song.StandsIn l data) {label : Label} {o : Nat}
    (ho : (survey song.source).marks label = some o) :
    (song.addressAt l.base label).toNat = l.base + o := by
  apply toNat_labelWord ho
  have hlt := marks_lt ho
  have hspace := h.space
  unfold addressSpace at hspace
  omega

/-- **A list is read from the address of its label.** -/
theorem read_list (h : song.StandsIn l data) (p : song.ListPlace) (hahead : p.JumpsAhead)
    (hend : ∃ e ∈ p.list.events, e.command.endsList = true) :
    let code := Instruction.throughEnd
      (p.list.events.flatMap (Event.resolved (song.addressAt l.base) p.channel))
    let start := (song.addressAt l.base p.label).toNat
    Reader.list data data.size start = .ok (code, start + (Instruction.encodeAll code).length) := by
  simp only [h.toNat_addressAt (p.marks_label h.assembled)]
  exact Reader.list_size_of_holds Event.canonical_of_mem_code
    (h.holds (p.holds h.assembled hahead)) (Event.exists_endsList_code hend)

theorem header_lt (h : song.StandsIn l data) :
    l.base + (survey song.bodySource).offset < addressSpace := by
  have hmarks : (survey song.source).marks .header = some (survey song.bodySource).offset :=
    h.assembled.marks_eq rfl
  have hlt := marks_lt hmarks
  have hspace := h.space
  omega

/-- **The header is read from its address**, if main lists have the kind of
such. -/
theorem read_header (h : song.StandsIn l data)
    (hkind : ∀ (d : Fin channelCount) (track : ChannelTrack), song.channels.get d = some track →
      track.events.kind = .main) :
    SongHeader.read data (l.base + (survey song.bodySource).offset) =
      .ok (song.headerAt l.base, l.base + (survey song.bodySource).offset + 31) := by
  apply SongHeader.read_of_holds
  · intro d hzero
    rw [headerAt_channels] at hzero
    obtain ⟨track, ht, hzero⟩ := Option.map_eq_some_iff.mp hzero
    have haddress := h.toNat_addressAt ((mainPlace ht).marks_label h.assembled)
    rw [label_mainPlace ht (hkind d track ht)] at haddress
    rw [hzero, UInt16.toNat_zero] at haddress
    have hpos := h.base_pos
    omega
  · exact h.holds (header_holds h.assembled)

end StandsIn

/-! ### The code of main lists -/

section Main

variable {m : Module} {channel : Nat} {column : List UInt8} {address : Label → UInt16} {d : Nat}

/-- The address that the jump for a row with a pattern number leads to. -/
def rowTarget (address : Label → UInt16) (d : Nat) (column : List UInt8) (number : UInt8) : UInt16 :=
  address (.subPattern d ((patternNumbers column).idxOf number))

theorem code_selectEvents : (selectEvents channel m.instruments.length.toUInt8).flatMap
    (Event.resolved address d) = selection m channel := by
  unfold selectEvents selection
  cases voiceKind channel with
  | adpcmA => simp [Event.resolved, Event.decoded, Event.body]
  | fm => rfl
  | ssg => rfl

theorem code_rowEvents (numbers : List UInt8) :
    (numbers.map (rowEvent column)).flatMap (Event.resolved address d) =
      (numbers.map (rowTarget address d column)).map .jumpToSubPattern := by
  have hrow : ∀ number, (rowEvent column number).resolved address d =
      [.jumpToSubPattern (rowTarget address d column number)] := by
    intro number
    simp [rowEvent, rowTarget, Event.resolved, Event.body]
  rw [List.flatMap_map, List.map_map, List.map_eq_flatMap]
  exact List.flatMap_congr fun number _ => hrow number

theorem code_mainList : (mainList channel m.instruments.length.toUInt8 column).events.flatMap
    (Event.resolved address d) =
      rowsCode m channel (column.map (rowTarget address d column)) ++ [.endList] := by
  rw [mainList_events, List.flatMap_append, List.flatMap_append, code_selectEvents, code_rowEvents,
    rowsCode, List.append_assoc]
  simp [Event.resolved, Event.decoded, Event.body]

theorem throughEnd_rowsCode (targets : List UInt16) :
    Instruction.throughEnd (rowsCode m channel targets ++ [.endList]) =
      rowsCode m channel targets ++ [.endList] := by
  apply Instruction.throughEnd_append
  intro i hi
  rcases List.mem_append.mp hi with hi | hi
  · unfold selection at hi
    split at hi
    · rw [List.mem_singleton.mp hi]
      rfl
    · cases hi
  · obtain ⟨target, -, rfl⟩ := List.mem_map.mp hi
    rfl

end Main

/-! ### Columns -/

namespace StandsIn

variable {m : Module} {channel : Nat} {column : List UInt8} {d : Fin channelCount}
  {track : ChannelTrack}

/-- The addresses of the rows of a column. -/
theorem addressAt_row (h : song.StandsIn l data) (hrows : song.RowsInMain)
    (ht : song.channels.get d = some track)
    (hmain : track.events = mainList channel m.instruments.length.toUInt8 column) {r : Nat}
    (hr : r < column.length) :
    song.addressAt l.base (.matrixRow d r) =
      rowAddress m channel (song.addressAt l.base (.mainList d))
        (column.map (rowTarget (song.addressAt l.base) d column)) r := by
  let select := selectEvents channel m.instruments.length.toUInt8
  have hevent : track.events.events[select.length + r]? = some (rowEvent column column[r]) := by
    rw [hmain]
    exact getElem?_mainList (List.getElem?_eq_getElem hr)
  let q : song.Place := { mainPlace ht with
    index := select.length + r
    event := rowEvent column column[r]
    event_eq := hevent }
  have hbefore : q.eventsBefore = select ++ (column.take r).map (rowEvent column) := by
    show track.events.events.take (select.length + r) = _
    rw [hmain]
    exact take_mainList (Nat.le_of_lt hr)
  have hrow : q.row = r := by
    rw [Place.row, hbefore, Event.rowCount_append, rowCount_selectEvents, rowCount_rowEvents,
      List.length_take_of_le (Nat.le_of_lt hr), Nat.zero_add]
  have hjump : ∀ e ∈ q.list.events, ∀ r, e.command ≠ .positionJump r := by
    show ∀ e ∈ track.events.events, _
    rw [hmain]
    exact command_ne_positionJump_mainList
  have hmarks := q.marks_row hrows rfl
  rw [hrow, q.offset_eq l.base hjump, hbefore, List.flatMap_append, code_selectEvents,
    code_rowEvents] at hmarks
  have hoffset : (survey song.source).marks (.matrixRow d r) =
      some ((survey (mainPlace ht).sourceBefore).offset + (Instruction.encodeAll (rowsCode m channel
        ((column.map (rowTarget (song.addressAt l.base) d column)).take r))).length) := by
    rw [← List.map_take]
    exact hmarks
  have hstart := h.toNat_addressAt ((mainPlace ht).marks_label h.assembled)
  rw [label_mainPlace ht (by rw [hmain]; rfl)] at hstart
  calc song.addressAt l.base (.matrixRow d r)
      = (song.addressAt l.base (.matrixRow d r)).toNat.toUInt16 := UInt16.ofNat_toNat.symm
    _ = rowAddress m channel (song.addressAt l.base (.mainList d))
        (column.map (rowTarget (song.addressAt l.base) d column)) r := by
        rw [h.toNat_addressAt hoffset, rowAddress, hstart, Nat.add_assoc]

/-- The main list of a column is read from the address in the header. -/
theorem read_main (h : song.StandsIn l data) (ht : song.channels.get d = some track)
    (hmain : track.events = mainList channel m.instruments.length.toUInt8 column) :
    let code := rowsCode m channel (column.map (rowTarget (song.addressAt l.base) d column))
      ++ [.endList]
    let start := (song.addressAt l.base (.mainList d)).toNat
    Reader.list data data.size start = .ok (code, start + (Instruction.encodeAll code).length) ∧
      start + (Instruction.encodeAll code).length ≤ addressSpace := by
  have hlabel := label_mainPlace ht (by rw [hmain]; rfl)
  have hcode : (mainPlace ht).list.events.flatMap
      (Event.resolved (song.addressAt l.base) (mainPlace ht).channel) = rowsCode m channel
        (column.map (rowTarget (song.addressAt l.base) d column)) ++ [.endList] := by
    show track.events.events.flatMap (Event.resolved (song.addressAt l.base) d) = _
    rw [hmain]
    exact code_mainList
  have hahead : (mainPlace ht).JumpsAhead := by
    apply ListPlace.jumpsAhead_of_ne
    show ∀ e ∈ track.events.events, _
    rw [hmain]
    exact command_ne_positionJump_mainList
  have hend : ∃ e ∈ (mainPlace ht).list.events, e.command.endsList = true := by
    refine ⟨⟨.endList, 0⟩, ?_, rfl⟩
    show _ ∈ track.events.events
    rw [hmain, mainList_events]
    simp
  have hread := h.read_list (mainPlace ht) hahead hend
  rw [hlabel, hcode, throughEnd_rowsCode] at hread
  refine ⟨hread, ?_⟩
  have hholds := (mainPlace ht).holds h.assembled hahead
  rw [hcode] at hholds
  have hle := hholds.le_size (Instruction.encodeAll_ne_nil (List.mem_append_right _
    (List.mem_singleton_self _)))
  have hstart := h.toNat_addressAt ((mainPlace ht).marks_label h.assembled)
  rw [hlabel] at hstart
  have hspace := h.space
  rw [← h.assembled.size] at hspace
  omega

/-- Position jumps of a column's patterns lead to rows of the column. -/
theorem row_lt_length (h : song.StandsIn l data) (hrows : song.RowsInMain)
    (ht : song.channels.get d = some track)
    (hmain : track.events = mainList channel m.instruments.length.toUInt8 column)
    (p : song.ListPlace) (hp : p.channel = d) {e : Event} (he : e ∈ p.list.events) {row : Nat}
    (hrow : e.command = .positionJump row) : row < column.length := by
  obtain ⟨k, hk⟩ := List.getElem?_of_mem he
  let jump : song.Place := { p with index := k, event := e, event_eq := hk }
  obtain ⟨q, ⟨hchannel, hwhich, hplays, rfl⟩, -⟩ :=
    jump.exists_target hrows h.assembled h.pending hrow
  have htrack := q.track_eq
  have hlist := q.list_eq
  rw [hchannel, hp, getElem?_toList_channels ht] at htrack
  rw [hwhich, ← Option.some.inj (Option.some.inj htrack), ChannelTrack.list?, hmain] at hlist
  have hlt := q.row_lt_rowCount hplays
  rwa [← Option.some.inj hlist, rowCount_mainList] at hlt

/-- The sub-pattern of a row is read from the address in the row's jump. -/
theorem read_pattern (h : song.StandsIn l data) (hrows : song.RowsInMain)
    (ht : song.channels.get d = some track) {index : Nat} {list : EventList}
    (hl : track.subPatterns[index]? = some list) (hkind : list.kind = .sub)
    (hend : ∃ e ∈ list.events, e.command.endsList = true) :
    let code := Instruction.throughEnd (list.events.flatMap
      (Event.decoded fun row => song.addressAt l.base (.matrixRow d row)))
    let start := (song.addressAt l.base (.subPattern d index)).toNat
    Reader.list data data.size start = .ok (code, start + (Instruction.encodeAll code).length) := by
  have hmem := List.mem_of_getElem? (getElem?_toList_channels ht)
  have hplays : ∀ e ∈ list.events, Layout.playsRow e.command = false :=
    hrows _ hmem track rfl list (List.mem_of_getElem? hl)
  have hahead := (subPlace ht hl).jumpsAhead_of_playsRow hrows hplays
  have hcode : list.events.flatMap (Event.resolved (song.addressAt l.base) d) =
      list.events.flatMap (Event.decoded fun row => song.addressAt l.base (.matrixRow d row)) :=
    List.flatMap_congr fun e he => Event.resolved_eq_decoded (hplays e he)
  have hread := h.read_list (subPlace ht hl) hahead hend
  rw [label_subPlace ht hl hkind] at hread
  rw [← hcode]
  exact hread

/-- **The data play each column of a module.** -/
theorem playsColumn (h : song.StandsIn l data) (hrows : song.RowsInMain)
    (ht : song.channels.get d = some track) (htrack : TrackOf m channel column track) :
    PlaysColumn data m channel column (song.addressAt l.base (.mainList d))
      (column.map (rowTarget (song.addressAt l.base) d column)) := by
  obtain ⟨hmain, clamped, hlists⟩ := htrack
  obtain ⟨hread, hfits⟩ := h.read_main ht hmain
  refine ⟨List.length_map _, hread, hfits, ?_⟩
  intro r number target hr htarget
  have hmem : number ∈ patternNumbers column := mem_patternNumbers.mpr (List.mem_of_getElem? hr)
  obtain ⟨pattern, list, hpattern, hlist, hl⟩ :=
    convertPatterns_getElem? hlists (List.getElem?_idxOf hmem)
  obtain ⟨hkind, hend, -⟩ := SubPattern.ofPattern_eq_ok hlist
  have hlt : ∀ e ∈ list.events, ∀ row, e.command = .positionJump row → row < column.length :=
    fun e he row hrow => h.row_lt_length hrows ht hmain (subPlace ht hl) rfl he hrow
  have hcode : list.events.flatMap (Event.decoded fun row =>
      song.addressAt l.base (.matrixRow d row)) = list.events.flatMap (Event.decoded
        (rowAddress m channel (song.addressAt l.base (.mainList d))
          (column.map (rowTarget (song.addressAt l.base) d column)))) :=
    List.flatMap_congr fun e he => Event.decoded_congr fun row hrow =>
      h.addressAt_row hrows ht hmain (hlt e he row hrow)
  rw [List.getElem?_map, hr] at htarget
  obtain rfl := Option.some.inj htarget
  have hpatternRead := h.read_pattern hrows ht hl hkind hend
  rw [hcode] at hpatternRead
  exact ⟨pattern, list, _, hpattern, hlist, hlt, hpatternRead⟩

/-- The data play a module from the header of its song on. -/
theorem plays (h : song.StandsIn l data) {vromStart : Nat} (hm : ofModule m vromStart = .ok song) :
    (song.headerAt l.base).Plays data m where
  instruments := (ofModule_eq_ok hm).1
  channels d := by
    rw [headerAt_channels, Option.isSome_map]
    constructor
    · intro hsome
      obtain ⟨track, ht⟩ := Option.isSome_iff_exists.mp hsome
      obtain ⟨column, hcolumn, -⟩ := ofModule_track hm ht
      exact ⟨trackerChannel d, driverChannel_trackerChannel d, by rw [hcolumn]; rfl⟩
    · rintro ⟨channel, rfl, hsome⟩
      obtain ⟨column, hcolumn⟩ := Option.isSome_iff_exists.mp hsome
      have hchannel := ofModule_channel hm channel
      rw [hcolumn] at hchannel
      obtain ⟨track, ht, -⟩ := hchannel
      rw [ht]
      rfl
  columns {channel column start} hcolumn hstart := by
    have hchannel := ofModule_channel hm channel
    rw [hcolumn] at hchannel
    obtain ⟨track, ht, htrack⟩ := hchannel
    rw [headerAt_channels, ht] at hstart
    obtain rfl := Option.some.inj hstart
    exact ⟨_, h.playsColumn (ofModule_rowsInMain hm) ht htrack⟩

end StandsIn

/-- A compiled song stands in data that hold its bytes at its address. -/
theorem compile_standsIn {base limit : Nat} {c : CompiledSong} {before after : List UInt8}
    (h : song.compile base limit = .ok c) (hpos : 0 < base)
    (hdata : data.toList = before ++ (c.data.toList ++ after)) (hbefore : before.length = base) :
    ∃ l : Layout, song.StandsIn l data ∧
      c.headerAddress = l.base + (survey song.bodySource).offset := by
  obtain ⟨l, rfl, ha, hpending, hle, rfl⟩ := compile_assembled h
  exact ⟨l, ⟨ha, hpending, hpos, Nat.le_trans hle (Nat.min_le_right _ _),
    ⟨before, after, hdata, hbefore⟩⟩, rfl⟩

end Song

/-! ### Banks -/

namespace SoundBank

theorem length_songsFrom {modules : List Module} {vromStart : Nat} {songs : List Song}
    (h : songsFrom vromStart modules = .ok songs) : songs.length = modules.length := by
  induction modules generalizing vromStart songs with
  | nil =>
    obtain rfl := Except.ok.inj h
    rfl
  | cons m rest ih =>
    obtain ⟨song, -, h⟩ := Except.bind_eq_ok h
    obtain ⟨others, hothers, h⟩ := Except.bind_eq_ok h
    obtain rfl := Except.ok.inj h
    exact congrArg (· + 1) (ih hothers)

/-- The songs of a bank are those of the modules. -/
theorem songsFrom_getElem? {modules : List Module} {vromStart : Nat} {songs : List Song}
    (h : songsFrom vromStart modules = .ok songs) {i : Nat} {m : Module}
    (hi : modules[i]? = some m) :
    ∃ song start, songs[i]? = some song ∧ Song.ofModule m start = .ok song := by
  induction modules generalizing vromStart songs i with
  | nil => simp at hi
  | cons first rest ih =>
    obtain ⟨song, hsong, h⟩ := Except.bind_eq_ok h
    obtain ⟨others, hothers, h⟩ := Except.bind_eq_ok h
    obtain rfl := Except.ok.inj h
    cases i with
    | zero =>
      obtain rfl : first = m := Option.some.inj hi
      exact ⟨song, vromStart, rfl, hsong⟩
    | succ i => exact ih hothers hi

/-- The bytes of compiled songs. -/
def bytes (songs : List CompiledSong) : List UInt8 := songs.flatMap fun song => song.data.toList

theorem length_compileFrom {limit base : Nat} {songs : List Song} {compiled : List CompiledSong}
    (h : compileFrom limit base songs = .ok compiled) : compiled.length = songs.length := by
  induction songs generalizing base compiled with
  | nil =>
    obtain rfl := Except.ok.inj h
    rfl
  | cons song rest ih =>
    obtain ⟨c, -, h⟩ := Except.bind_eq_ok h
    obtain ⟨others, hothers, h⟩ := Except.bind_eq_ok h
    obtain rfl := Except.ok.inj h
    exact congrArg (· + 1) (ih hothers)

/-- Each song is compiled to the address behind the songs before it. -/
theorem compileFrom_getElem? {limit base : Nat} {songs : List Song} {compiled : List CompiledSong}
    (h : compileFrom limit base songs = .ok compiled) {i : Nat} {song : Song}
    (hi : songs[i]? = some song) : ∃ c, compiled[i]? = some c ∧
      song.compile (base + (bytes (compiled.take i)).length) limit = .ok c := by
  induction songs generalizing base compiled i with
  | nil => simp at hi
  | cons first rest ih =>
    obtain ⟨c, hc, h⟩ := Except.bind_eq_ok h
    obtain ⟨others, hothers, h⟩ := Except.bind_eq_ok h
    obtain rfl := Except.ok.inj h
    cases i with
    | zero =>
      obtain rfl : first = song := Option.some.inj hi
      exact ⟨c, rfl, hc⟩
    | succ i =>
      obtain ⟨c', hi', hc'⟩ := ih hothers hi
      refine ⟨c', hi', ?_⟩
      rw [CompiledSong.stop, Song.compile_base hc] at hc'
      rwa [List.take_succ_cons, bytes, List.flatMap_cons, List.length_append, Array.length_toList,
        ← Nat.add_assoc]

theorem length_index (songs : List CompiledSong) : (index songs).length = 2 * songs.length + 1 := by
  simp [index, List.length_flatMap, List.map_const', Nat.mul_comm]

variable {bank : SoundBank} {image : List UInt8} {compiled : List CompiledSong} {i : Nat}
  {c : CompiledSong}

theorem image_eq_ok (h : bank.image = .ok image) : bank.songs.length ≤ songLimit ∧ ∃ compiled,
    compileFrom bank.limit bank.indexSize bank.songs = .ok compiled ∧
    image = index compiled ++ bytes compiled := by
  obtain ⟨compiled, hc, h⟩ := Except.bind_eq_ok h
  unfold compileSongs at hc
  split at hc
  · cases hc
  · next hle => exact ⟨Nat.le_of_not_lt hle, compiled, hc, (Except.ok.inj h).symm⟩

theorem flatMap_eq_of_getElem? {α β : Type} {as : List α} {a : α} (f : α → List β)
    (hi : as[i]? = some a) :
    as.flatMap f = (as.take i).flatMap f ++ (f a ++ (as.drop (i + 1)).flatMap f) := by
  have hsplit := congrArg (List.flatMap f) (eq_take_append_cons hi)
  rwa [List.flatMap_append, List.flatMap_cons] at hsplit

/-- The index holds the address of each header. -/
theorem index_holds {data : Array UInt8} {rest : List UInt8}
    (hdata : data.toList = index compiled ++ rest) (hi : compiled[i]? = some c) :
    Reader.Holds data (1 + 2 * i) (Word.address c.headerAddress) := by
  let words (song : CompiledSong) : List UInt8 := Word.address song.headerAddress
  have hlen : (compiled.length.toUInt8 :: (compiled.take i).flatMap words).length = 1 + 2 * i := by
    have hle := Nat.le_of_lt (List.getElem?_eq_some_iff.mp hi).1
    simp [words, List.length_flatMap, List.map_const', hle]
    omega
  have hsplit : data.toList = (compiled.length.toUInt8 :: (compiled.take i).flatMap words) ++
      (words c ++ ((compiled.drop (i + 1)).flatMap words ++ rest)) := by
    rw [hdata, index, flatMap_eq_of_getElem? words hi]
    simp
  rw [← hlen]
  exact Reader.holds_of_toList_eq hsplit

/-- Each song of a bank stands in the data of the bank. -/
theorem exists_standsIn {songs : List Song} {limit : Nat} {song : Song}
    (h : compileFrom limit (2 * songs.length + 1) songs = .ok compiled)
    (hi : songs[i]? = some song) : ∃ (c : CompiledSong) (l : Layout), compiled[i]? = some c ∧
      song.StandsIn l (index compiled ++ bytes compiled).toArray ∧
      c.headerAddress = l.base + (survey song.bodySource).offset := by
  obtain ⟨c, hc, hcompile⟩ := compileFrom_getElem? h hi
  have hdata : (index compiled ++ bytes compiled).toArray.toList =
      (index compiled ++ bytes (compiled.take i)) ++
        (c.data.toList ++ bytes (compiled.drop (i + 1))) := by
    rw [List.toList_toArray, bytes, flatMap_eq_of_getElem? _ hc, ← List.append_assoc]
    rfl
  have hbefore : (index compiled ++ bytes (compiled.take i)).length =
      2 * songs.length + 1 + (bytes (compiled.take i)).length := by
    rw [List.length_append, length_index, length_compileFrom h]
  have hpos : 0 < 2 * songs.length + 1 + (bytes (compiled.take i)).length := by omega
  obtain ⟨l, hstands, hheader⟩ := Song.compile_standsIn hcompile hpos hdata hbefore
  exact ⟨c, l, hc, hstands, hheader⟩

/-- **The songs of modules are found from the data of their bank.** The first
byte is the number of songs. For each module the index has the address of a
header, from which the data play the module. -/
theorem image_navigable {modules : List Module} {limit vromStart : Nat}
    (h : ofModules modules limit vromStart = .ok bank) (himage : bank.image = .ok image) :
    (∃ count, Reader.byte image.toArray 0 = .ok (count, 1) ∧ count.toNat = modules.length) ∧
    ∀ (i : Nat) (m : Module), modules[i]? = some m → ∃ (offset : UInt16) (header : SongHeader),
      Reader.word image.toArray (1 + 2 * i) = .ok (offset, 1 + 2 * i + 2) ∧
      SongHeader.read image.toArray offset.toNat = .ok (header, offset.toNat + 31) ∧
      header.Plays image.toArray m := by
  unfold ofModules at h
  split at h
  · cases h
  obtain ⟨songs, hsongs, h⟩ := Except.bind_eq_ok h
  obtain rfl := Except.ok.inj h
  obtain ⟨hle, compiled, hcompiled, rfl⟩ := image_eq_ok himage
  constructor
  · have hlength : compiled.length = songs.length := length_compileFrom hcompiled
    have hmodules := length_songsFrom hsongs
    have hcount : songs.length ≤ 255 := hle
    refine ⟨compiled.length.toUInt8, rfl, ?_⟩
    simp only [Nat.toUInt8, UInt8.toNat_ofNat']
    omega
  · intro i m hi
    obtain ⟨song, start, hsong, hm⟩ := songsFrom_getElem? hsongs hi
    obtain ⟨c, l, hc, hstands, hheader⟩ := exists_standsIn hcompiled hsong
    have hword : Reader.word (index compiled ++ bytes compiled).toArray (1 + 2 * i) =
        .ok (c.headerAddress.toUInt16, 1 + 2 * i + 2) :=
      Reader.word_of_holds (index_holds (List.toList_toArray ..) hc)
    refine ⟨c.headerAddress.toUInt16, song.headerAt l.base, hword, ?_, hstands.plays hm⟩
    rw [hheader, Word.toNat_toUInt16 hstands.header_lt]
    exact hstands.read_header fun d track ht => Song.ofModule_kind hm ht

/-- A module with an FM and an ADPCM-A channel. The second pattern of the FM
channel jumps to the last row. -/
def circling : Module where
  matrix := [some [1, 0, 1], none, none, none, none, none, none, some [0]]
  patterns := [[⟨[.ofNote 1 4, {}]⟩, ⟨[.ofNote 2 4, { effects := [⟨Effect.positionJump, some 2⟩] }]⟩],
    [], [], [], [], [], [], [⟨[.ofNote 0 0]⟩]]

theorem image_navigable_circling : ∃ bank image,
    ofModules [circling, circling] Song.defaultLimit 0 = .ok bank ∧ bank.image = .ok image ∧
    (∃ count, Reader.byte image.toArray 0 = .ok (count, 1) ∧
      count.toNat = [circling, circling].length) ∧
    ∀ (i : Nat) (m : Module), [circling, circling][i]? = some m →
      ∃ (offset : UInt16) (header : SongHeader),
        Reader.word image.toArray (1 + 2 * i) = .ok (offset, 1 + 2 * i + 2) ∧
        SongHeader.read image.toArray offset.toNat = .ok (header, offset.toNat + 31) ∧
        header.Plays image.toArray m := by
  obtain ⟨image, h⟩ : ∃ image,
      (ofModules [circling, circling] Song.defaultLimit 0 >>= SoundBank.image) = .ok image :=
    Except.exists_of_isOk (by decide +kernel)
  obtain ⟨bank, hbank, himage⟩ := Except.bind_eq_ok h
  exact ⟨bank, image, hbank, himage, image_navigable hbank himage⟩

end SoundBank
end Chiptune
