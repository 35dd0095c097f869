/-
# Places in the data of a song

A list of a song stands behind the tables, the instrument records, the lists
of the channels before its own and those lists of its track that are placed
first; an event stands behind the events before it in its list. The layout
that was made up to there has the address of the list or the event
(`Song.Place.before`, `Song.Place.address`), and the same holds of the source:
the data of the song continue there with the source of the list or the event.

Key definitions: `Song.ListPlace`, `Song.Place`, `Song.Place.before`,
`Song.Place.address`, `Song.Place.sourceBefore`.
Key theorems: `Song.ListPlace.source_eq`, `Song.Place.source_eq`,
`Song.Place.address_eq`.
-/
import Chiptune.Proofs.SongSource

namespace Chiptune

namespace Event

/-- The number of rows of the pattern matrix that events play. -/
def rowCount (events : List Event) : Nat := events.countP fun e => Layout.playsRow e.command

/-- The mark of the row that an event plays. -/
def rowMark (channel row : Nat) (event : Event) : List Item :=
  if Layout.playsRow event.command then [.mark (.matrixRow channel row)] else []

end Event

namespace ChannelTrack

/-- A list of a track: a sub-pattern by its index, or the main list. -/
def list? (track : ChannelTrack) : Option Nat → Option EventList
  | some index => track.subPatterns[index]?
  | none => some track.events

/-- The lists of a track that stand before one of them. -/
def listsBefore (track : ChannelTrack) : Option Nat → List EventList
  | some index => track.subPatterns.take index
  | none => track.subPatterns

end ChannelTrack

namespace Song

variable {song : Song}

/-- A list of a song: that of a track with `which` as its index, none for the
main list. -/
structure ListPlace (song : Song) where
  channel : Nat
  track : ChannelTrack
  which : Option Nat
  list : EventList
  track_eq : song.channels.toList[channel]? = some (some track)
  list_eq : track.list? which = some list

/-- An event of a song. -/
structure Place (song : Song) extends ListPlace song where
  index : Nat
  event : Event
  event_eq : list.events[index]? = some event

namespace ListPlace

/-- The label of the list. -/
def label (p : song.ListPlace) : Label := p.list.label p.channel (p.which.getD 0)

/-- The layout of a song at `base` up to a list. -/
def before (p : song.ListPlace) (base : Nat) : Except Error Layout := do
  let l ← Layout.placeTables { base := base } 0 song.tables
  let l ← l.define .instruments
  let l ← l.placeRecords song.instruments
  let l ← l.placeChannels 0 (song.channels.toList.take p.channel)
  l.placeSubPatterns p.channel 0 (p.track.listsBefore p.which)

/-- The source of a song up to a list. -/
def sourceBefore (p : song.ListPlace) : List Item :=
  Table.sourceAll 0 song.tables ++ (.mark .instruments ::
    (song.instruments.flatMap InstrumentRecord.source ++
      (ChannelTrack.sourceAll 0 (song.channels.toList.take p.channel) ++
        EventList.sourceAll p.channel 0 (p.track.listsBefore p.which))))

end ListPlace

namespace Place

/-- The events before one in its list. -/
def eventsBefore (p : song.Place) : List Event := p.list.events.take p.index

/-- The rows of the pattern matrix that a list plays before an event. -/
def row (p : song.Place) : Nat := Event.rowCount p.eventsBefore

/-- The layout of a song at `base` up to an event. -/
def before (p : song.Place) (base : Nat) : Except Error Layout := do
  let l ← p.toListPlace.before base
  let l ← l.define p.label
  l.placeEvents p.channel 0 p.eventsBefore

/-- The address of an event in the layout of a song at `base`. -/
def address (p : song.Place) (base : Nat) : Except Error Nat := (p.before base).map Layout.address

/-- The source of a song up to an event. -/
def sourceBefore (p : song.Place) : List Item :=
  p.toListPlace.sourceBefore ++ (.mark p.label :: Event.sourceAll p.channel 0 p.eventsBefore)

end Place
end Song

/-! ### The source at a place -/

theorem eq_take_append_cons {α : Type} {as : List α} {i : Nat} {a : α} (h : as[i]? = some a) :
    as = as.take i ++ a :: as.drop (i + 1) := by
  obtain ⟨hlt, rfl⟩ := List.getElem?_eq_some_iff.mp h
  rw [List.getElem_cons_drop, List.take_append_drop]

namespace Event

@[simp] theorem rowCount_append (as bs : List Event) :
    rowCount (as ++ bs) = rowCount as + rowCount bs := List.countP_append

theorem rowCount_cons (event : Event) (rest : List Event) :
    rowCount (event :: rest) = rowCount [event] + rowCount rest := rowCount_append [event] rest

theorem sourceAll_cons (channel row : Nat) (event : Event) (rest : List Event) :
    sourceAll channel row (event :: rest) = event.rowMark channel row ++
      (event.source channel ++ sourceAll channel (row + rowCount [event]) rest) := by
  rw [sourceAll, rowMark]
  by_cases h : Layout.playsRow event.command = true
  · simp [h, rowCount]
  · simp [h, rowCount]

theorem sourceAll_append (channel row : Nat) (as bs : List Event) :
    sourceAll channel row (as ++ bs) =
      sourceAll channel row as ++ sourceAll channel (row + rowCount as) bs := by
  induction as generalizing row with
  | nil => rfl
  | cons a as ih =>
    rw [List.cons_append, sourceAll_cons, ih, sourceAll_cons, rowCount_cons a as,
      List.append_assoc, List.append_assoc, Nat.add_assoc]

end Event

theorem EventList.sourceAll_append (channel index : Nat) (as bs : List EventList) :
    sourceAll channel index (as ++ bs) =
      sourceAll channel index as ++ sourceAll channel (index + as.length) bs := by
  induction as generalizing index with
  | nil => rfl
  | cons a as ih =>
    show source channel index a ++ sourceAll channel (index + 1) (as ++ bs) =
      (source channel index a ++ sourceAll channel (index + 1) as) ++ _
    rw [ih, List.append_assoc, List.length_cons, Nat.add_assoc, Nat.add_comm 1]

theorem ChannelTrack.sourceAll_append : ∀ (as : List (Option ChannelTrack)) (channel : Nat)
    (bs : List (Option ChannelTrack)), sourceAll channel (as ++ bs) =
      sourceAll channel as ++ sourceAll (channel + as.length) bs
  | [], _, _ => rfl
  | none :: as, channel, bs => by
    show sourceAll (channel + 1) (as ++ bs) = sourceAll (channel + 1) as ++ _
    rw [sourceAll_append as, List.length_cons, Nat.add_assoc, Nat.add_comm 1]
  | some track :: as, channel, bs => by
    show track.source channel ++ sourceAll (channel + 1) (as ++ bs) =
      (track.source channel ++ sourceAll (channel + 1) as) ++ _
    rw [sourceAll_append as, List.append_assoc, List.length_cons, Nat.add_assoc, Nat.add_comm 1]

namespace Song

variable {song : Song}

theorem ListPlace.channels_eq (p : song.ListPlace) : song.channels.toList =
    song.channels.toList.take p.channel ++ some p.track :: song.channels.toList.drop (p.channel + 1) :=
  eq_take_append_cons p.track_eq

theorem Place.events_eq (p : song.Place) :
    p.list.events = p.eventsBefore ++ p.event :: p.list.events.drop (p.index + 1) :=
  eq_take_append_cons p.event_eq

theorem ListPlace.length_take (p : song.ListPlace) :
    (song.channels.toList.take p.channel).length = p.channel :=
  List.length_take_of_le (Nat.le_of_lt (List.getElem?_eq_some_iff.mp p.track_eq).1)

theorem ListPlace.track_source_eq (p : song.ListPlace) : ∃ after, p.track.source p.channel =
    EventList.sourceAll p.channel 0 (p.track.listsBefore p.which) ++
      (p.list.source p.channel (p.which.getD 0) ++ after) := by
  obtain ⟨channel, track, which, list, htrack, hlist⟩ := p
  cases which with
  | none =>
    obtain rfl : track.events = list := Option.some.inj hlist
    exact ⟨[], by rw [List.append_nil]; rfl⟩
  | some index =>
    have hlen : (track.subPatterns.take index).length = index :=
      List.length_take_of_le (Nat.le_of_lt (List.getElem?_eq_some_iff.mp hlist).1)
    have hsplit := congrArg (EventList.sourceAll channel 0) (eq_take_append_cons hlist)
    rw [EventList.sourceAll_append, hlen, Nat.zero_add, EventList.sourceAll] at hsplit
    rw [ChannelTrack.source, hsplit, List.append_assoc, List.append_assoc]
    exact ⟨_, rfl⟩

/-- The data continue with the source of a list at its place. -/
theorem ListPlace.source_eq (p : song.ListPlace) : ∃ after,
    song.source = p.sourceBefore ++ (p.list.source p.channel (p.which.getD 0) ++ after) := by
  obtain ⟨after, htrack⟩ := p.track_source_eq
  have hsplit := congrArg (ChannelTrack.sourceAll 0) p.channels_eq
  rw [ChannelTrack.sourceAll_append, p.length_take, Nat.zero_add, ChannelTrack.sourceAll,
    htrack] at hsplit
  rw [source, bodySource, hsplit]
  simp only [sourceBefore, List.append_assoc, List.cons_append]
  exact ⟨_, rfl⟩

/-- The data continue with the source of an event at its place. -/
theorem Place.source_eq (p : song.Place) : ∃ after,
    song.source = p.sourceBefore ++
      (p.event.rowMark p.channel p.row ++ (p.event.source p.channel ++ after)) := by
  obtain ⟨after, h⟩ := p.toListPlace.source_eq
  rw [EventList.source, p.events_eq, Event.sourceAll_append, Nat.zero_add, Event.sourceAll_cons] at h
  rw [h]
  simp only [sourceBefore, ListPlace.label, row, List.append_assoc, List.cons_append]
  exact ⟨_, rfl⟩

end Song

/-! ### The layout at a place -/

namespace Layout

theorem placeEvents_append (channel row : Nat) (l : Layout) (as bs : List Event) :
    l.placeEvents channel row (as ++ bs) = (do
      let m ← l.placeEvents channel row as
      m.placeEvents channel (row + Event.rowCount as) bs) := by
  induction as generalizing l row with
  | nil => rfl
  | cons a as ih =>
    rw [List.cons_append, placeEvents, placeEvents, Event.rowCount_cons a as, ← Nat.add_assoc]
    by_cases h : playsRow a.command = true
    · have hcount : Event.rowCount [a] = 1 := by simp [Event.rowCount, h]
      simp only [if_pos h, bind_assoc, ih, hcount]
    · have hcount : Event.rowCount [a] = 0 := by simp [Event.rowCount, h]
      simp only [if_neg h, bind_assoc, ih, hcount, Nat.add_zero]

theorem placeSubPatterns_append (channel index : Nat) (l : Layout) (as bs : List EventList) :
    l.placeSubPatterns channel index (as ++ bs) = (do
      let m ← l.placeSubPatterns channel index as
      m.placeSubPatterns channel (index + as.length) bs) := by
  induction as generalizing l index with
  | nil => rfl
  | cons a as ih =>
    rw [List.cons_append, placeSubPatterns, placeSubPatterns]
    simp only [bind_assoc, ih, List.length_cons, Nat.add_assoc, Nat.add_comm 1]

theorem placeChannels_append : ∀ (as : List (Option ChannelTrack)) (l : Layout) (channel : Nat)
    (bs : List (Option ChannelTrack)), l.placeChannels channel (as ++ bs) = (do
      let m ← l.placeChannels channel as
      m.placeChannels (channel + as.length) bs)
  | [], _, _, _ => rfl
  | none :: as, l, channel, bs => by
    rw [List.cons_append, placeChannels, placeChannels]
    simp only [placeChannels_append as, List.length_cons, Nat.add_assoc, Nat.add_comm 1]
  | some track :: as, l, channel, bs => by
    rw [List.cons_append, placeChannels, placeChannels]
    simp only [bind_assoc, placeChannels_append as, List.length_cons, Nat.add_assoc, Nat.add_comm 1]

end Layout

namespace Song

variable {song : Song}

/-- The layout of a track goes through each of its lists. -/
theorem ListPlace.track_before_eq_ok (p : song.ListPlace) {l m n : Layout}
    (hsub : l.placeSubPatterns p.channel 0 p.track.subPatterns = .ok m)
    (hmain : m.placeList p.channel 0 p.track.events = .ok n) :
    ∃ l' m' rest, l.placeSubPatterns p.channel 0 (p.track.listsBefore p.which) = .ok l' ∧
      l'.placeList p.channel (p.which.getD 0) p.list = .ok m' ∧ m'.Extends n rest := by
  obtain ⟨channel, track, which, list, htrack, hlist⟩ := p
  cases which with
  | none =>
    obtain rfl : track.events = list := Option.some.inj hlist
    exact ⟨m, n, [], hsub, hmain, .refl n⟩
  | some index =>
    have hlen : (track.subPatterns.take index).length = index :=
      List.length_take_of_le (Nat.le_of_lt (List.getElem?_eq_some_iff.mp hlist).1)
    have hsplit := (congrArg (l.placeSubPatterns channel 0) (eq_take_append_cons hlist)).symm.trans hsub
    rw [Layout.placeSubPatterns_append, hlen, Nat.zero_add] at hsplit
    obtain ⟨l', hl', h⟩ := Except.bind_eq_ok hsplit
    obtain ⟨m', hm', h⟩ := Except.bind_eq_ok h
    exact ⟨l', m', _, hl', hm',
      (Layout.placeSubPatterns_extends h).trans (Layout.placeList_extends hmain)⟩

/-- The layout of a song goes through each of its lists. -/
theorem ListPlace.before_eq_ok (p : song.ListPlace) {base : Nat} {body : Layout}
    (h : Layout.placeBody song base = .ok body) :
    ∃ l m rest, p.before base = .ok l ∧
      l.placeList p.channel (p.which.getD 0) p.list = .ok m ∧ m.Extends body rest := by
  obtain ⟨l₁, h₁, h⟩ := Except.bind_eq_ok h
  obtain ⟨l₂, h₂, h⟩ := Except.bind_eq_ok h
  obtain ⟨l₃, h₃, h⟩ := Except.bind_eq_ok h
  obtain ⟨l₄, h₄, h⟩ := Except.bind_eq_ok h
  obtain ⟨_, -, h⟩ := Except.bind_eq_ok h
  obtain rfl := Except.ok.inj h
  have hsplit := (congrArg (l₃.placeChannels 0) p.channels_eq).symm.trans h₄
  rw [Layout.placeChannels_append, p.length_take, Nat.zero_add] at hsplit
  obtain ⟨l, hl, h⟩ := Except.bind_eq_ok hsplit
  obtain ⟨m, hm, h⟩ := Except.bind_eq_ok h
  obtain ⟨n, hn, h⟩ := Except.bind_eq_ok h
  obtain ⟨l', m', rest, hl', hm', hrest⟩ := p.track_before_eq_ok hm hn
  refine ⟨l', m', _, ?_, hm', hrest.trans (Layout.placeChannels_extends h)⟩
  rw [before, Except.bind_of_ok h₁, Except.bind_of_ok h₂, Except.bind_of_ok h₃,
    Except.bind_of_ok hl, hl']

theorem ListPlace.before_extends (p : song.ListPlace) {base : Nat} {l : Layout}
    (h : p.before base = .ok l) : Layout.Extends { base := base } l p.sourceBefore := by
  obtain ⟨l₁, h₁, h⟩ := Except.bind_eq_ok h
  obtain ⟨l₂, h₂, h⟩ := Except.bind_eq_ok h
  obtain ⟨l₃, h₃, h⟩ := Except.bind_eq_ok h
  obtain ⟨l₄, h₄, h⟩ := Except.bind_eq_ok h
  have hdef := Layout.Extends.define
    (fun _ _ => nofun : ∀ c r, Label.instruments ≠ .matrixRow c r) h₂
  exact (Layout.placeTables_extends h₁).trans (hdef.trans ((Layout.placeRecords_extends h₃).trans
    ((Layout.placeChannels_extends h₄).trans (Layout.placeSubPatterns_extends h))))

/-- The layout of a song goes through each of its events. -/
theorem Place.before_eq_ok (p : song.Place) {base : Nat} {body : Layout}
    (h : Layout.placeBody song base = .ok body) :
    ∃ l rest, p.before base = .ok l ∧ l.Extends body rest := by
  obtain ⟨l, m, rest, hl, hm, hrest⟩ := p.toListPlace.before_eq_ok h
  obtain ⟨l', hl', hm⟩ := Except.bind_eq_ok hm
  obtain ⟨m', hm', hm⟩ := Except.bind_eq_ok hm
  obtain ⟨_, -, hm⟩ := Except.bind_eq_ok hm
  obtain rfl := Except.ok.inj hm
  rw [p.events_eq, Layout.placeEvents_append] at hm'
  obtain ⟨n, hn, hm'⟩ := Except.bind_eq_ok hm'
  refine ⟨n, _, ?_, (Layout.placeEvents_extends hm').trans hrest⟩
  rw [before, Except.bind_of_ok hl]
  exact (Except.bind_of_ok hl').trans hn

theorem Place.before_extends (p : song.Place) {base : Nat} {l : Layout}
    (h : p.before base = .ok l) : Layout.Extends { base := base } l p.sourceBefore := by
  obtain ⟨m, hm, h⟩ := Except.bind_eq_ok h
  obtain ⟨n, hn, h⟩ := Except.bind_eq_ok h
  exact (p.toListPlace.before_extends hm).trans
    ((Layout.Extends.define (Layout.label_ne_matrixRow p.list _ _) hn).trans
      (Layout.placeEvents_extends h))

/-- The address of an event is the offset of its source. -/
theorem Place.address_eq (p : song.Place) {base limit : Nat} {c : CompiledSong}
    (h : song.compile base limit = .ok c) :
    p.address base = .ok (base + (survey p.sourceBefore).offset) := by
  obtain ⟨body, placed, hbody, -, hgrows, hle, -⟩ := Song.compile_eq_ok h
  obtain ⟨l, rest, hl, hrest⟩ := p.before_eq_ok hbody
  have hext := p.before_extends hl
  have hsmall : (l.address : Int) < Address.signedLimit :=
    Layout.address_lt_signedLimit (Nat.le_trans hrest.address_le (Nat.le_trans hgrows hle))
  have ha := hext.assembled (.inl hsmall) (Layout.assembled_nil base)
  have hbase : l.base = base := hext.base
  rw [address, hl, ← hbase]
  exact congrArg Except.ok ha.address

end Song
end Chiptune
