/-
# The source of a song

The source of a song lists its tables, its instrument records, the lists of
its channels, the main list of each behind its sub-patterns, and its header.
Placing a part of the song extends the layout by the source of that part
(`Layout.Extends`), so a compiled song holds exactly the data of its source
(`Song.compile_assembled`).

The distance of a jump is computed on signed words, and is that of the offsets
only below the signed limit. Layouts and sources grow, so `Layout.Extends` asks
for this of the end of one of the two.

Key definitions: `Event.source`, `Song.source`, `Layout.Extends`,
`Layout.placeParts`.
Key theorems: `Layout.Extends.trans`, `Layout.placeEvent_extends`,
`Layout.placeBody_extends`, `Layout.placeHeader_extends`,
`Song.compile_assembled`.
-/
import Chiptune.Proofs.Assembled
import Chiptune.Proofs.HeaderRoundTrip

namespace Chiptune

/-! ### Events -/

namespace Event

/-- The source of an event of a channel. -/
def source (channel : Nat) (event : Event) : List Item :=
  let body := Instruction.encodeAll event.body
  match event.command with
  | .jumpToSubPattern index => [.bytes (body ++ [0x21]), .pointer (.subPattern channel index)]
  | .positionJump row => [.bytes body, .jump channel row]
  | _ => [.bytes body]

/-- The source of events of a channel; `row` is the next row of the pattern
matrix. -/
def sourceAll (channel row : Nat) : List Event → List Item
  | [] => []
  | event :: rest =>
    if Layout.playsRow event.command then
      .mark (.matrixRow channel row) :: (event.source channel ++ sourceAll channel (row + 1) rest)
    else event.source channel ++ sourceAll channel row rest

end Event

/-! ### Blocks -/

/-- The source of a list of a channel. -/
def EventList.source (channel index : Nat) (list : EventList) : List Item :=
  .mark (list.label channel index) :: Event.sourceAll channel 0 list.events

/-- The source of sub-patterns of a channel, the first one with an index. -/
def EventList.sourceAll (channel index : Nat) : List EventList → List Item
  | [] => []
  | list :: rest => list.source channel index ++ sourceAll channel (index + 1) rest

/-- The source of the lists of a channel. -/
def ChannelTrack.source (channel : Nat) (track : ChannelTrack) : List Item :=
  EventList.sourceAll channel 0 track.subPatterns ++ track.events.source channel 0

/-- The source of the lists of channels, the first one with an index. -/
def ChannelTrack.sourceAll (channel : Nat) : List (Option ChannelTrack) → List Item
  | [] => []
  | none :: rest => sourceAll (channel + 1) rest
  | some track :: rest => track.source channel ++ sourceAll (channel + 1) rest

/-- The source of tables, the first one with an index. -/
def Table.sourceAll (index : Nat) : List Table → List Item
  | [] => []
  | table :: rest => .mark (.table index) :: .bytes table.encode :: sourceAll (index + 1) rest

/-- The source of a pointer to a table. -/
def Table.pointer : Option Nat → Item
  | none => .bytes (Word.address 0)
  | some index => .pointer (.table index)

/-- The source of an instrument record. -/
def InstrumentRecord.source : InstrumentRecord → List Item
  | .fm instrument => [.bytes (padded (fmBytes instrument))]
  | .ssg tone noise volume arpeggio mixing =>
    .bytes [mixerByte tone noise] :: ([volume, arpeggio, mixing].map Table.pointer
      ++ [.bytes (List.replicate 25 0)])
  | .adpcmA sampleList => [.pointer (.table sampleList), .bytes (List.replicate 30 0)]

namespace Song

/-- The source of the header's pointers to main lists, the first one of a
channel with an index. -/
def headerPointers (channel : Nat) : List (Option ChannelTrack) → List Item
  | [] => []
  | none :: rest => .bytes (Word.bytes 0) :: headerPointers (channel + 1) rest
  | some _ :: rest => .pointer (.mainList channel) :: headerPointers (channel + 1) rest

/-- The source of everything before the header. -/
def bodySource (song : Song) : List Item :=
  Table.sourceAll 0 song.tables ++ (.mark .instruments :: (song.instruments.flatMap
    InstrumentRecord.source ++ ChannelTrack.sourceAll 0 song.channels.toList))

/-- The source of the header. -/
def headerSource (song : Song) : List Item :=
  .mark .header :: (headerPointers 0 song.channels.toList
    ++ [.bytes (Word.bytes song.timer.counter ++ [song.timer.timeBase]), .pointer .instruments])

/-- The source of a song. -/
def source (song : Song) : List Item := song.bodySource ++ song.headerSource

end Song

/-- Every label of a song is marked before the end of its data. -/
theorem Song.marks_lt {song : Song} {label : Label} {o : Nat}
    (h : (survey song.source).marks label = some o) : o < (survey song.source).offset := by
  have hsource : song.source = (song.bodySource ++ (.mark .header ::
      (headerPointers 0 song.channels.toList
        ++ [.bytes (Word.bytes song.timer.counter ++ [song.timer.timeBase])])))
      ++ [.pointer .instruments] := by
    simp [source, headerSource]
  rw [hsource, survey_append] at h ⊢
  have hle := survey_marks_le ((congrFun (Survey.step_marks rfl) label).symm.trans h)
  exact Nat.lt_of_le_of_lt hle (Nat.lt_add_of_pos_right (Nat.succ_pos 1))

/-! ### Layouts that extend one another -/

namespace Layout

variable {l l' : Layout} {items : List Item}

/-- A layout that holds the data of another one followed by those of a source,
as long as its addresses, or those of the source, are signed words. -/
structure Extends (l l' : Layout) (items : List Item) : Prop where
  base : l'.base = l.base
  size : l.bytes.size ≤ l'.bytes.size
  assembled : ∀ {before : List Item}, (l'.address : Int) < Address.signedLimit ∨
      ((l.base + (survey (before ++ items)).offset : Nat) : Int) < Address.signedLimit →
    l.Assembled before → l'.Assembled (before ++ items)

namespace Extends

theorem refl (l : Layout) : l.Extends l [] where
  base := rfl
  size := Nat.le_refl _
  assembled _ h := by rwa [List.append_nil]

theorem address_le (h : l.Extends l' items) : l.address ≤ l'.address := by
  unfold Layout.address
  rw [h.base]
  exact Nat.add_le_add_left h.size _

theorem trans {m : Layout} {more : List Item} (h : l.Extends m items) (h' : m.Extends l' more) :
    l.Extends l' (items ++ more) where
  base := h'.base.trans h.base
  size := Nat.le_trans h.size h'.size
  assembled {before} hs hb := by
    have hm := h'.address_le
    have hgrows := Survey.offset_le_run (survey (before ++ items)) more
    rw [← survey_append] at hgrows
    rw [← List.append_assoc] at hs ⊢
    refine h'.assembled ?_ (h.assembled (by omega) hb)
    rwa [h.base]

theorem append (l : Layout) (bs : List UInt8) : l.Extends (l.append bs) [.bytes bs] where
  base := rfl
  size := by simp
  assembled _ h := h.append bs

theorem define {label : Label} (hrow : ∀ c r, label ≠ .matrixRow c r)
    (h : l.define label = .ok l') : l.Extends l' [.mark label] where
  base := by obtain ⟨u, -, rfl⟩ := define_eq_ok h; rfl
  size := by obtain ⟨u, -, rfl⟩ := define_eq_ok h; exact Nat.le_refl _
  assembled _ hb := hb.define hrow h

theorem pointer {label : Label} {target : Nat} {u : LabelTable}
    (h : l.labels.reference label l.address = .ok (target, u)) :
    l.Extends (Layout.append { l with labels := u } (Word.address target)) [.pointer label] where
  base := rfl
  size := by simp
  assembled _ hb := hb.pointer h

end Extends

theorem here_eq_ok {n : Nat} (h : l.here = .ok n) : n = l.address := Address.eq_of_advance h

theorem append_append (l : Layout) (as bs : List UInt8) :
    (l.append as).append bs = l.append (as ++ bs) := by
  unfold append
  congr 1
  apply Array.toList_inj.mp
  simp

@[simp] theorem append_address (l : Layout) (bs : List UInt8) :
    (l.append bs).address = l.address + bs.length := by
  simp [address, Nat.add_assoc]

theorem Extends.jump {channel row address offset : Nat} {i : Instruction} {u : LabelTable}
    (haddr : address + offset = l.address)
    (h : Event.rowJump channel row address offset l.labels = (.ok i, u)) :
    l.Extends (Layout.append { l with labels := u, pending := l.pending ++
      (if l.labels.contains (.matrixRow channel row) then [] else [⟨channel, row, l.address + 1⟩]) }
      i.encode) [.jump channel row] where
  base := rfl
  size := by simp
  assembled {before} hs hb := by
    refine hb.jump ?_ haddr h
    have hgrows := Survey.offset_le_run (survey before) [.jump channel row]
    rw [← survey_append] at hgrows
    have haddress := hb.address
    unfold Layout.address at hs haddress ⊢
    simp only [append_base, append_size] at hs
    omega

end Layout

/-! ### Placing events -/

namespace Layout

variable {l l' : Layout} {channel : Nat}

theorem placeEvent_eq_ok {event : Event} (h : l.placeEvent channel event = .ok l') :
    ∃ is u fixups, event.instructions channel l.address l.labels = (.ok is, u) ∧
      fixupOf u channel l.address event (Instruction.encodeAll is) = .ok fixups ∧
      l' = Layout.append { l with labels := u, pending := l.pending ++ fixups }
        (Instruction.encodeAll is) := by
  obtain ⟨address, hhere, h⟩ := Except.bind_eq_ok h
  obtain rfl := here_eq_ok hhere
  simp only [Event.compile] at h
  obtain ⟨bytes, hcode, h⟩ := Except.bind_eq_ok h
  obtain ⟨fixups, hfix, h⟩ := Except.bind_eq_ok h
  cases hi : event.instructions channel l.address l.labels with
  | mk code u =>
    rw [hi] at hcode hfix h
    cases code with
    | error e => cases hcode
    | ok is =>
      obtain rfl := Except.ok.inj hcode
      exact ⟨is, u, fixups, rfl, hfix, (Except.ok.inj h).symm⟩

/-- Placing an event extends the layout by its source. -/
theorem placeEvent_extends {event : Event} (h : l.placeEvent channel event = .ok l') :
    l.Extends l' (event.source channel) := by
  obtain ⟨is, u, fixups, hi, hfix, rfl⟩ := placeEvent_eq_ok h
  have hcode := Event.instructions_eq_ok hi
  obtain ⟨command, timing⟩ := event
  cases command with
  | jumpToSubPattern index =>
    obtain ⟨target, hr, rfl⟩ := hcode
    obtain rfl := Except.ok.inj hfix
    let opening := Instruction.encodeAll (Instruction.waits timing) ++ [0x21]
    have hr' : (l.append opening).labels.reference (.subPattern channel index)
        (l.append opening).address = .ok (target, u) := by
      rw [append_address, List.length_append]
      exact hr
    have hlayout : Layout.append { l with labels := u, pending := l.pending ++ [] }
        (Instruction.encodeAll (Instruction.waits timing ++ [.jumpToSubPattern target.toUInt16])) =
        Layout.append { l.append opening with labels := u } (Word.address target) := by
      rw [List.append_nil]
      refine .trans (congrArg _ ?_) (append_append { l with labels := u } opening _).symm
      simp [opening, Instruction.encode, Word.address]
    rw [show Event.body ⟨.jumpToSubPattern index, timing⟩ = Instruction.waits timing from rfl, hlayout]
    exact (Extends.append l opening).trans (Extends.pointer hr')
  | positionJump row =>
    obtain ⟨i, hj, rfl⟩ := hcode
    let opening := Instruction.encodeAll (Instruction.waits timing)
    have haddr : l.address + opening.length = (l.append opening).address := (append_address ..).symm
    have hfixups : fixups = if l.labels.contains (.matrixRow channel row) then []
        else [⟨channel, row, (l.append opening).address + 1⟩] := by
      rcases Event.rowJump_eq_ok hj with ⟨hc, rfl, rfl⟩ | ⟨target, d, hc, hr, -⟩
      · simp only [fixupOf, hc, Bool.false_eq_true, if_false] at hfix ⊢
        obtain ⟨stop, hstop, hfix⟩ := Except.bind_eq_ok hfix
        rw [← Except.ok.inj hfix, Address.eq_of_advance hstop]
        simp [opening, Event.body, Instruction.encode, Nat.add_assoc]
        omega
      · obtain ⟨e, -, -, hu⟩ := LabelTable.reference_eq_ok hr
        have hcu : u.contains (.matrixRow channel row) = true := by
          rw [LabelTable.contains_eq_isSome, hu, if_pos rfl]
          rfl
        simp only [fixupOf, hcu, if_true] at hfix
        rw [hc, ← Except.ok.inj hfix]
        rfl
    have hlayout : Layout.append { l with labels := u, pending := l.pending ++ fixups }
        (Instruction.encodeAll (Instruction.waits timing ++ [i])) =
        Layout.append { l.append opening with labels := u, pending := l.pending ++ fixups }
          i.encode := by
      refine .trans (congrArg _ ?_)
        (append_append { l with labels := u, pending := l.pending ++ fixups } opening _).symm
      simp [opening]
    rw [show Event.body ⟨.positionJump row, timing⟩ = Instruction.waits timing from rfl, hlayout,
      hfixups]
    exact (Extends.append l opening).trans (Extends.jump haddr hj)
  | _ =>
    obtain ⟨rfl, rfl⟩ := hcode
    obtain rfl := Except.ok.inj hfix
    rw [List.append_nil]
    exact Extends.append l _

theorem placeRow_extends {row : Nat} (h : l.placeRow channel row = .ok l') :
    l.Extends l' [.mark (.matrixRow channel row)] := by
  obtain ⟨placed, hp, hf⟩ := Except.bind_eq_ok h
  obtain ⟨u, hu, rfl⟩ := define_eq_ok hp
  have hself := (LabelTable.define_eq_ok hu).2 (.matrixRow channel row)
  rw [if_pos rfl] at hself
  rw [List.partition_eq_filter_filter] at hf
  obtain ⟨hbase, -, hbytes, -⟩ := fill_eq_ok hself hf
  refine ⟨hbase, Nat.le_of_eq ?_, fun _ hb => hb.placeRow h⟩
  rw [hbytes, size_foldl_store]

/-- Placing events extends the layout by their source. -/
theorem placeEvents_extends : ∀ {events : List Event} {l : Layout} {row : Nat},
    l.placeEvents channel row events = .ok l' → l.Extends l' (Event.sourceAll channel row events)
  | [], l, row, h => by
    obtain rfl := Except.ok.inj h
    exact .refl l
  | event :: rest, l, row, h => by
    unfold placeEvents at h
    unfold Event.sourceAll
    split at h
    · next hp =>
      obtain ⟨m, hm, h⟩ := Except.bind_eq_ok h
      obtain ⟨n, hn, h⟩ := Except.bind_eq_ok h
      rw [if_pos hp]
      exact (placeRow_extends hm).trans ((placeEvent_extends hn).trans (placeEvents_extends h))
    · next hp =>
      obtain ⟨n, hn, h⟩ := Except.bind_eq_ok h
      rw [if_neg hp]
      exact (placeEvent_extends hn).trans (placeEvents_extends h)

/-! ### Placing blocks -/

theorem label_ne_matrixRow (list : EventList) (channel index : Nat) :
    ∀ c r, list.label channel index ≠ .matrixRow c r := by
  intro c r
  unfold EventList.label
  split <;> exact nofun

theorem placeList_extends {index : Nat} {list : EventList}
    (h : l.placeList channel index list = .ok l') : l.Extends l' (list.source channel index) := by
  obtain ⟨m, hm, h⟩ := Except.bind_eq_ok h
  obtain ⟨n, hn, h⟩ := Except.bind_eq_ok h
  obtain ⟨_, -, h⟩ := Except.bind_eq_ok h
  obtain rfl := Except.ok.inj h
  exact (Extends.define (label_ne_matrixRow list channel index) hm).trans (placeEvents_extends hn)

theorem placeSubPatterns_extends : ∀ {lists : List EventList} {l : Layout} {index : Nat},
    l.placeSubPatterns channel index lists = .ok l' →
    l.Extends l' (EventList.sourceAll channel index lists)
  | [], l, index, h => by
    obtain rfl := Except.ok.inj h
    exact .refl l
  | list :: rest, l, index, h => by
    obtain ⟨m, hm, h⟩ := Except.bind_eq_ok h
    exact (placeList_extends hm).trans (placeSubPatterns_extends h)

theorem placeChannels_extends : ∀ {tracks : List (Option ChannelTrack)} {l : Layout} {channel : Nat},
    l.placeChannels channel tracks = .ok l' →
    l.Extends l' (ChannelTrack.sourceAll channel tracks)
  | [], l, channel, h => by
    obtain rfl := Except.ok.inj h
    exact .refl l
  | none :: rest, l, channel, h => by
    change l.placeChannels (channel + 1) rest = .ok l' at h
    show l.Extends l' (ChannelTrack.sourceAll (channel + 1) rest)
    exact placeChannels_extends h
  | some track :: rest, l, channel, h => by
    obtain ⟨m, hm, h⟩ := Except.bind_eq_ok h
    obtain ⟨n, hn, h⟩ := Except.bind_eq_ok h
    exact ((placeSubPatterns_extends hm).trans (placeList_extends hn)).trans
      (placeChannels_extends h)

theorem placeTables_extends : ∀ {tables : List Table} {l : Layout} {index : Nat},
    l.placeTables index tables = .ok l' → l.Extends l' (Table.sourceAll index tables)
  | [], l, index, h => by
    obtain rfl := Except.ok.inj h
    exact .refl l
  | table :: rest, l, index, h => by
    obtain ⟨m, hm, h⟩ := Except.bind_eq_ok h
    have hrow : ∀ c r, Label.table index ≠ .matrixRow c r := fun _ _ => nofun
    exact (Extends.define hrow hm).trans ((Extends.append m table.encode).trans
      (placeTables_extends h))

/-- Appending pointers to tables. -/
theorem pointers_extends : ∀ {indices : List (Option Nat)} {l : Layout} {address offset : Nat}
    {bs : List UInt8} {u : LabelTable}, address + offset = l.address →
    InstrumentRecord.pointers l.labels address offset indices = (.ok bs, u) →
    bs.length = 2 * indices.length ∧
      l.Extends (Layout.append { l with labels := u } bs) (indices.map Table.pointer)
  | [], l, address, offset, bs, u, _, h => by
    obtain ⟨hbs, rfl⟩ := Prod.mk.inj h
    obtain rfl := Except.ok.inj hbs
    have hself : Layout.append { l with labels := l.labels } [] = l := by
      simp [Layout.append]
    rw [hself]
    exact ⟨rfl, .refl l⟩
  | none :: rest, l, address, offset, bs, u, haddr, h => by
    obtain ⟨ps, hp, rfl⟩ := Except.map_eq_ok (InstrumentRecord.pointers l.labels _ _ rest) h
    have haddr' : address + (offset + 2) = (l.append (Word.address 0)).address := by
      rw [append_address, ← haddr, Word.address_length, Nat.add_assoc]
    obtain ⟨hlen, hext⟩ := pointers_extends haddr' hp
    refine ⟨by simp [hlen]; omega, ?_⟩
    rw [← append_append]
    exact (Extends.append l _).trans hext
  | some index :: rest, l, address, offset, bs, u, haddr, h => by
    unfold InstrumentRecord.pointers at h
    split at h
    · cases h
    · next target u₁ hr =>
      obtain ⟨site, hsite, hr⟩ := Except.bind_eq_ok hr
      rw [Address.eq_of_advance hsite, haddr] at hr
      obtain ⟨ps, hp, rfl⟩ := Except.map_eq_ok (InstrumentRecord.pointers u₁ _ _ rest) h
      have haddr' : address + (offset + 2) =
          (Layout.append { l with labels := u₁ } (Word.address target)).address := by
        rw [append_address, Word.address_length, ← Nat.add_assoc, haddr]
        rfl
      obtain ⟨hlen, hext⟩ := pointers_extends haddr' hp
      refine ⟨by simp [hlen]; omega, ?_⟩
      rw [← append_append]
      exact (Extends.pointer hr).trans hext

/-- Appending an instrument record. -/
theorem record_extends {record : InstrumentRecord} {bs : List UInt8} {u : LabelTable}
    (h : record.compile l.labels l.address = (.ok bs, u)) :
    l.Extends (Layout.append { l with labels := u } bs) record.source := by
  cases record with
  | fm instrument =>
    obtain ⟨hbs, rfl⟩ := Prod.mk.inj h
    obtain rfl := Except.ok.inj hbs
    exact Extends.append l _
  | ssg tone noise volume arpeggio mixing =>
    obtain ⟨ps, hp, rfl⟩ := Except.map_eq_ok
      (InstrumentRecord.pointers l.labels l.address 1 [volume, arpeggio, mixing]) h
    have haddr : l.address + 1 = (l.append [InstrumentRecord.mixerByte tone noise]).address := by
      rw [append_address]
      rfl
    obtain ⟨hlen, hext⟩ := pointers_extends haddr hp
    have hpad : InstrumentRecord.padded (InstrumentRecord.mixerByte tone noise :: ps) =
        [InstrumentRecord.mixerByte tone noise] ++ (ps ++ List.replicate 25 0) := by
      simp [InstrumentRecord.padded, InstrumentRecord.size, hlen]
    rw [hpad, ← append_append, ← append_append]
    exact (Extends.append l _).trans (hext.trans (Extends.append _ _))
  | adpcmA sampleList =>
    obtain ⟨ps, hp, rfl⟩ := Except.map_eq_ok
      (InstrumentRecord.pointers l.labels l.address 0 [some sampleList]) h
    obtain ⟨hlen, hext⟩ := pointers_extends (Nat.add_zero _) hp
    have hpad : InstrumentRecord.padded ps = ps ++ List.replicate 30 0 := by
      simp [InstrumentRecord.padded, InstrumentRecord.size, hlen]
    rw [hpad, ← append_append]
    exact hext.trans (Extends.append _ _)

theorem placeRecord_eq_ok {record : InstrumentRecord} (h : l.placeRecord record = .ok l') :
    ∃ code u, l.here = .ok l.address ∧ record.compile l.labels l.address = (.ok code, u) ∧
      l' = Layout.append { l with labels := u } code := by
  obtain ⟨address, hhere, h⟩ := Except.bind_eq_ok h
  obtain rfl := here_eq_ok hhere
  obtain ⟨code, hcode, h⟩ := Except.bind_eq_ok h
  exact ⟨code, _, hhere, Prod.ext hcode rfl, (Except.ok.inj h).symm⟩

theorem placeRecord_extends {record : InstrumentRecord} (h : l.placeRecord record = .ok l') :
    l.Extends l' record.source := by
  obtain ⟨code, u, -, hcompile, rfl⟩ := placeRecord_eq_ok h
  exact record_extends hcompile

theorem placeRecords_extends : ∀ {records : List InstrumentRecord} {l : Layout},
    l.placeRecords records = .ok l' → l.Extends l' (records.flatMap InstrumentRecord.source)
  | [], l, h => by
    obtain rfl := Except.ok.inj h
    exact .refl l
  | record :: rest, l, h => by
    obtain ⟨m, hm, h⟩ := Except.bind_eq_ok h
    exact (placeRecord_extends hm).trans (placeRecords_extends h)

/-- Appending the header's pointers to main lists. -/
theorem headerPointers_extends : ∀ {tracks : List (Option ChannelTrack)} {l : Layout}
    {start channel : Nat} {pointers : List (Option UInt16)} {u : LabelTable},
    start + 2 * channel = l.address →
    headerPointers l.labels start channel tracks = .ok (pointers, u) →
    pointers.length = tracks.length ∧
      l.Extends (Layout.append { l with labels := u }
        (pointers.flatMap fun c => Word.bytes (c.getD 0))) (Song.headerPointers channel tracks)
  | [], l, start, channel, pointers, u, _, h => by
    obtain ⟨rfl, rfl⟩ := Prod.mk.inj (Except.ok.inj h)
    have hself : Layout.append { l with labels := l.labels } [] = l := by
      simp [Layout.append]
    exact ⟨rfl, hself.symm ▸ .refl l⟩
  | none :: rest, l, start, channel, pointers, u, haddr, h => by
    obtain ⟨⟨ps, u'⟩, hp, h⟩ := Except.bind_eq_ok h
    obtain ⟨rfl, rfl⟩ := Prod.mk.inj (Except.ok.inj h)
    have haddr' : start + 2 * (channel + 1) = (l.append (Word.bytes 0)).address := by
      rw [append_address, ← haddr]
      rfl
    obtain ⟨hlen, hext⟩ := headerPointers_extends haddr' hp
    refine ⟨by simp [hlen], ?_⟩
    rw [List.flatMap_cons, ← append_append]
    exact (Extends.append l _).trans hext
  | some track :: rest, l, start, channel, pointers, u, haddr, h => by
    obtain ⟨site, hsite, h⟩ := Except.bind_eq_ok h
    obtain ⟨⟨target, u₁⟩, hr, h⟩ := Except.bind_eq_ok h
    obtain ⟨⟨ps, u'⟩, hp, h⟩ := Except.bind_eq_ok h
    obtain ⟨rfl, rfl⟩ := Prod.mk.inj (Except.ok.inj h)
    rw [Address.eq_of_advance hsite, haddr] at hr
    have haddr' : start + 2 * (channel + 1) =
        (Layout.append { l with labels := u₁ } (Word.address target)).address := by
      rw [append_address, Word.address_length, Nat.mul_succ, ← Nat.add_assoc, haddr]
      rfl
    obtain ⟨hlen, hext⟩ := headerPointers_extends haddr' hp
    refine ⟨by simp [hlen], ?_⟩
    rw [List.flatMap_cons, ← append_append]
    exact (Extends.pointer hr).trans hext

theorem toList_ofFn_join {pointers : List (Option UInt16)} (h : pointers.length = channelCount) :
    (Vector.ofFn fun i : Fin channelCount => (pointers[i.val]?).join).toList = pointers := by
  apply List.ext_getElem
  · simp [h]
  · intro i h1 h2
    simp [h2]

/-- The header stands behind its label. -/
theorem placeHeader_eq_ok {song : Song} (h : l.placeHeader song = .ok l') :
    ∃ m header u, l.here = .ok l.address ∧ l.define .header = .ok m ∧
      headerOf m.labels l.address song = .ok (header, u) ∧
      l' = Layout.append { m with labels := u } header.encode := by
  obtain ⟨start, hstart, h⟩ := Except.bind_eq_ok h
  obtain rfl := here_eq_ok hstart
  obtain ⟨m, hm, h⟩ := Except.bind_eq_ok h
  obtain ⟨⟨header, u⟩, hheader, h⟩ := Except.bind_eq_ok h
  exact ⟨m, header, u, hstart, hm, hheader, (Except.ok.inj h).symm⟩

theorem placeHeader_extends {song : Song} (h : l.placeHeader song = .ok l') :
    l'.pending = l.pending ∧ l.Extends l' song.headerSource := by
  obtain ⟨m, header, u, -, hm, hheader, rfl⟩ := placeHeader_eq_ok h
  obtain ⟨⟨pointers, u₁⟩, hp, hheader⟩ := Except.bind_eq_ok hheader
  obtain ⟨site, hsite, hheader⟩ := Except.bind_eq_ok hheader
  obtain ⟨⟨instruments, u₂⟩, hr, hheader⟩ := Except.bind_eq_ok hheader
  obtain ⟨rfl, rfl⟩ := Prod.mk.inj (Except.ok.inj hheader)
  have hdef := Extends.define (fun _ _ => nofun : ∀ c r, Label.header ≠ .matrixRow c r) hm
  obtain ⟨haddr, hpending⟩ : l.address + 2 * 0 = m.address ∧ m.pending = l.pending := by
    obtain ⟨u, -, rfl⟩ := define_eq_ok hm
    exact ⟨rfl, rfl⟩
  obtain ⟨hlen, hext⟩ := headerPointers_extends haddr hp
  rw [Vector.length_toList] at hlen
  let listed := Layout.append { m with labels := u₁ } (pointers.flatMap fun c => Word.bytes (c.getD 0))
  let timed := listed.append (Word.bytes song.timer.counter ++ [song.timer.timeBase])
  have hsite' : site = timed.address := by
    have hflat : (pointers.flatMap fun c => Word.bytes (c.getD 0)).length = 26 := by
      rw [SongHeader.length_entries, hlen]
      rfl
    rw [Address.eq_of_advance hsite]
    show _ = (Layout.append (Layout.append _ _) _).address
    rw [append_address, append_address, hflat]
    exact congrArg (· + 29) haddr
  have hr' : timed.labels.reference .instruments timed.address = .ok (instruments, u₂) := hsite' ▸ hr
  have hencode : SongHeader.encode
      { channels := Vector.ofFn fun i => (pointers[i.val]?).join
        timerCounter := song.timer.counter
        timeBase := song.timer.timeBase
        instruments := instruments.toUInt16 } =
      (pointers.flatMap fun c => Word.bytes (c.getD 0)) ++
        ((Word.bytes song.timer.counter ++ [song.timer.timeBase]) ++ Word.address instruments) := by
    simp only [SongHeader.encode, toList_ofFn_join hlen, List.append_assoc]
    rfl
  rw [hencode, ← append_append, ← append_append]
  exact ⟨hpending, hdef.trans (hext.trans ((Extends.append _ _).trans (Extends.pointer hr')))⟩

/-! ### The data of a song -/

/-- Places everything before the header, whether or not fixups are left. -/
def placeParts (song : Song) (base : Nat) : Except Error Layout := do
  let l ← placeTables { base := base } 0 song.tables
  let l ← l.define .instruments
  let l ← l.placeRecords song.instruments
  l.placeChannels 0 song.channels.toList

theorem placeBody_eq (song : Song) (base : Nat) : placeBody song base =
    (placeParts song base >>= fun l => l.checkResolved >>= fun _ => .ok l) := by
  simp only [placeBody, placeParts, bind_assoc]

theorem placeParts_extends {song : Song} {base : Nat} (h : placeParts song base = .ok l') :
    Extends { base := base } l' song.bodySource := by
  obtain ⟨l₁, h₁, h⟩ := Except.bind_eq_ok h
  obtain ⟨l₂, h₂, h⟩ := Except.bind_eq_ok h
  obtain ⟨l₃, h₃, h⟩ := Except.bind_eq_ok h
  have hdef := Extends.define (fun _ _ => nofun : ∀ c r, Label.instruments ≠ .matrixRow c r) h₂
  exact (placeTables_extends h₁).trans (hdef.trans ((placeRecords_extends h₃).trans
    (placeChannels_extends h)))

theorem placeBody_extends {song : Song} {base : Nat} (h : placeBody song base = .ok l') :
    l'.pending = [] ∧ Extends { base := base } l' song.bodySource := by
  rw [placeBody_eq] at h
  obtain ⟨l, hl, h⟩ := Except.bind_eq_ok h
  obtain ⟨_, hc, h⟩ := Except.bind_eq_ok h
  obtain rfl := Except.ok.inj h
  refine ⟨?_, placeParts_extends hl⟩
  unfold checkResolved at hc
  split at hc
  · assumption
  · cases hc

end Layout

theorem Layout.address_lt_signedLimit {l : Layout} {limit : Nat}
    (h : l.address ≤ min limit Song.addressSpace) : (l.address : Int) < Address.signedLimit := by
  unfold Song.addressSpace at h
  unfold Address.signedLimit
  omega

/-- A song that compiles has a body and a header, which end in the driver's
address space. -/
theorem Song.compile_eq_ok {song : Song} {base limit : Nat} {c : CompiledSong}
    (h : song.compile base limit = .ok c) :
    ∃ body placed, Layout.placeBody song base = .ok body ∧ body.placeHeader song = .ok placed ∧
      body.address ≤ placed.address ∧ placed.address ≤ min limit addressSpace ∧
      c = ⟨base, placed.bytes, body.address, placed.labels⟩ := by
  obtain ⟨body, hbody, h⟩ := Except.bind_eq_ok h
  obtain ⟨placed, hplaced, h⟩ := Except.bind_eq_ok h
  obtain ⟨stop, hstop, h⟩ := Except.bind_eq_ok h
  obtain rfl := Layout.here_eq_ok hstop
  have hgrows := (Layout.placeHeader_extends hplaced).2.address_le
  simp only at h
  split at h
  · cases h
  · next hle =>
    exact ⟨body, placed, hbody, hplaced, hgrows, Nat.le_of_not_lt hle, (Except.ok.inj h).symm⟩

/-- **A compiled song is its source at an address.** The data end within the
limit, every jump has found its row, and the header stands behind the rest. -/
theorem Song.compile_assembled {song : Song} {base limit : Nat} {c : CompiledSong}
    (h : song.compile base limit = .ok c) :
    ∃ l : Layout, l.base = base ∧ l.Assembled song.source ∧ l.pending = [] ∧
      base + (survey song.source).offset ≤ min limit addressSpace ∧
      c = ⟨base, l.bytes, base + (survey song.bodySource).offset, l.labels⟩ := by
  obtain ⟨body, placed, hbody, hplaced, hgrows, hle, rfl⟩ := compile_eq_ok h
  obtain ⟨hresolved, hbody⟩ := Layout.placeBody_extends hbody
  obtain ⟨hpending, hheader⟩ := Layout.placeHeader_extends hplaced
  have hbase : placed.base = base := hheader.base.trans hbody.base
  have hsmall : (placed.address : Int) < Address.signedLimit := Layout.address_lt_signedLimit hle
  have hall := (hbody.trans hheader).assembled (.inl hsmall) (Layout.assembled_nil base)
  have hpart := hbody.assembled (.inl (Layout.address_lt_signedLimit (Nat.le_trans hgrows hle)))
    (Layout.assembled_nil base)
  refine ⟨placed, hbase, hall, hpending.trans hresolved, ?_, ?_⟩
  · rwa [hall.address, hbase] at hle
  · rw [hpart.address, hbody.base]
    rfl

theorem Song.compile_base {song : Song} {base limit : Nat} {c : CompiledSong}
    (h : song.compile base limit = .ok c) : c.base = base := by
  obtain ⟨body, placed, -, -, -, -, rfl⟩ := compile_eq_ok h
  rfl

/-- A small song. Its sub-pattern jumps to a row that is placed later, and its
main list jumps back to a row in reach. -/
def Song.turning : Song where
  channels := (Vector.replicate channelCount none).set 2 (some
    { events := ⟨.main, [⟨.jumpToSubPattern 0, 0⟩, ⟨.positionJump 0, 300⟩,
        ⟨.jumpToSubPattern 0, 0⟩, ⟨.endList, 0⟩]⟩
      subPatterns := [⟨.sub, [⟨.note 60, 140⟩, ⟨.positionJump 1, 0⟩]⟩] })
  instruments := [.adpcmA 0]
  tables := [.sampleList []]

end Chiptune
