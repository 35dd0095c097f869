/-
# Rows of the pattern matrix

Events that jump to a sub-pattern play rows, one after the other, and each
marks its row. As long as only main lists play rows (`Song.RowsInMain`), a row
of a channel with a number is marked once, by the event of the channel's main
list that plays it, and before an event of a channel those rows are marked
that its list plays before it.

Key definitions: `Song.RowsInMain`.
Key theorems: `Event.mark_mem_sourceAll`, `Song.Place.mark_mem_sourceBefore`,
`Song.RowsInMain.exists_place`, `Song.Place.row_lt_row`,
`Song.Place.marks_row`.
-/
import Chiptune.Proofs.Places

namespace Chiptune

/-- Only main lists play rows of the pattern matrix. -/
def Song.RowsInMain (song : Song) : Prop :=
  ∀ entry ∈ song.channels.toList, ∀ track ∈ entry, ∀ list ∈ track.subPatterns,
    ∀ event ∈ list.events, Layout.playsRow event.command = false

instance (song : Song) : Decidable song.RowsInMain :=
  inferInstanceAs (Decidable (∀ entry ∈ song.channels.toList, ∀ track ∈ entry,
    ∀ list ∈ track.subPatterns, ∀ event ∈ list.events, Layout.playsRow event.command = false))

/-! ### Where rows are marked -/

section Marks

variable {channel row : Nat}

theorem Event.mark_notMem_source {label : Label} {event : Event} :
    .mark label ∉ event.source channel := by
  obtain ⟨command, timing⟩ := event
  cases command <;> simp [Event.source]

/-- Events mark the rows that they play, one after the other. -/
theorem Event.mark_mem_sourceAll {c r : Nat} {events : List Event} :
    .mark (.matrixRow c r) ∈ Event.sourceAll channel row events ↔
      c = channel ∧ row ≤ r ∧ r < row + Event.rowCount events := by
  induction events generalizing row with
  | nil => simp [Event.sourceAll, Event.rowCount]
  | cons event rest ih =>
    rw [Event.sourceAll_cons, Event.rowCount_cons, List.mem_append, List.mem_append, ih,
      or_iff_right mark_notMem_source, Event.rowMark]
    by_cases h : Layout.playsRow event.command = true
    · simp [h, Event.rowCount]
      omega
    · simp [h, Event.rowCount]

theorem EventList.mark_mem_source {c r index : Nat} {list : EventList} :
    .mark (.matrixRow c r) ∈ list.source channel index ↔
      c = channel ∧ r < Event.rowCount list.events := by
  have hlabel := (Layout.label_ne_matrixRow list channel index c r).symm
  rw [EventList.source, List.mem_cons, or_iff_right (by simpa using hlabel),
    Event.mark_mem_sourceAll]
  simp

theorem EventList.mark_mem_sourceAll {c r index : Nat} {lists : List EventList} :
    .mark (.matrixRow c r) ∈ EventList.sourceAll channel index lists ↔
      c = channel ∧ ∃ list ∈ lists, r < Event.rowCount list.events := by
  induction lists generalizing index with
  | nil => simp [EventList.sourceAll]
  | cons list rest ih =>
    rw [EventList.sourceAll, List.mem_append, mark_mem_source, ih, ← and_or_left]
    simp

theorem ChannelTrack.mark_mem_sourceAll {c r : Nat} :
    ∀ {tracks : List (Option ChannelTrack)} {channel : Nat},
      .mark (.matrixRow c r) ∈ ChannelTrack.sourceAll channel tracks →
        ∃ i track, tracks[i]? = some (some track) ∧ c = channel + i ∧
          .mark (.matrixRow c r) ∈ track.source c
  | [], channel, h => by cases h
  | none :: rest, channel, h => by
    have hrest : .mark (.matrixRow c r) ∈ ChannelTrack.sourceAll (channel + 1) rest := h
    obtain ⟨i, track, ht, rfl, hm⟩ := mark_mem_sourceAll hrest
    exact ⟨i + 1, track, ht, by omega, hm⟩
  | some track :: rest, channel, h => by
    rcases List.mem_append.mp h with h | h
    · have hc : c = channel := by
        rcases List.mem_append.mp h with h | h
        · exact (EventList.mark_mem_sourceAll.mp h).1
        · exact (EventList.mark_mem_source.mp h).1
      exact ⟨0, track, rfl, hc, hc ▸ h⟩
    · obtain ⟨i, track, ht, rfl, hm⟩ := mark_mem_sourceAll h
      exact ⟨i + 1, track, ht, by omega, hm⟩

theorem Table.mark_notMem_sourceAll {c r : Nat} : ∀ {tables : List Table} {index : Nat},
    .mark (.matrixRow c r) ∉ Table.sourceAll index tables
  | [], index => by simp [Table.sourceAll]
  | table :: rest, index => by simpa [Table.sourceAll] using mark_notMem_sourceAll

theorem InstrumentRecord.mark_notMem_source {label : Label} {record : InstrumentRecord} :
    .mark label ∉ record.source := by
  have hpointer : ∀ index, .mark label ≠ Table.pointer index := by
    intro index
    cases index <;> exact nofun
  cases record <;> simp [InstrumentRecord.source, hpointer]

theorem Song.mark_notMem_headerPointers {label : Label} :
    ∀ {tracks : List (Option ChannelTrack)} {channel : Nat},
      .mark label ∉ Song.headerPointers channel tracks
  | [], channel => by simp [Song.headerPointers]
  | none :: rest, channel => by simpa [Song.headerPointers] using mark_notMem_headerPointers
  | some track :: rest, channel => by simpa [Song.headerPointers] using mark_notMem_headerPointers

end Marks

/-! ### Rows and their places -/

namespace Event

theorem rowCount_eq_zero {events : List Event}
    (h : ∀ event ∈ events, Layout.playsRow event.command = false) : rowCount events = 0 :=
  List.countP_eq_zero.mpr fun event he => by simp [h event he]

theorem rowCount_take_le {events : List Event} {i j : Nat} (h : i ≤ j) :
    rowCount (events.take i) ≤ rowCount (events.take j) :=
  ((List.take_prefix_take_left h).sublist).countP_le

theorem rowCount_take_succ {events : List Event} {i : Nat} {event : Event}
    (h : events[i]? = some event) :
    rowCount (events.take (i + 1)) = rowCount (events.take i) + rowCount [event] := by
  rw [List.take_add_one, h, rowCount_append]
  rfl

/-- Each row that events play is played by one of them. -/
theorem exists_row {events : List Event} {r : Nat} (h : r < rowCount events) :
    ∃ k event, events[k]? = some event ∧ Layout.playsRow event.command = true ∧
      rowCount (events.take k) = r := by
  induction events generalizing r with
  | nil => exact absurd h (Nat.not_lt_zero r)
  | cons event rest ih =>
    rw [rowCount_cons] at h
    by_cases hp : Layout.playsRow event.command = true
    · have hone : rowCount [event] = 1 := by simp [rowCount, hp]
      cases r with
      | zero => exact ⟨0, event, rfl, hp, rfl⟩
      | succ r =>
        have hlt : r < rowCount rest := by omega
        obtain ⟨k, e, hk, he, hr⟩ := ih hlt
        refine ⟨k + 1, e, hk, he, ?_⟩
        rw [List.take_succ_cons, rowCount_cons, hr, hone, Nat.add_comm]
    · have hzero : rowCount [event] = 0 := by simp [rowCount, hp]
      have hlt : r < rowCount rest := by omega
      obtain ⟨k, e, hk, he, hr⟩ := ih hlt
      refine ⟨k + 1, e, hk, he, ?_⟩
      rw [List.take_succ_cons, rowCount_cons, hr, hzero, Nat.zero_add]

end Event

namespace Song

variable {song : Song}

theorem RowsInMain.rowCount_eq_zero (h : song.RowsInMain) {track : ChannelTrack}
    (ht : some track ∈ song.channels.toList) {list : EventList} (hl : list ∈ track.subPatterns) :
    Event.rowCount list.events = 0 :=
  Event.rowCount_eq_zero (h (some track) ht track rfl list hl)

theorem RowsInMain.mark_mem_track (h : song.RowsInMain) {track : ChannelTrack}
    (ht : some track ∈ song.channels.toList) {channel r : Nat}
    (hm : .mark (.matrixRow channel r) ∈ track.source channel) :
    r < Event.rowCount track.events.events := by
  rcases List.mem_append.mp hm with hm | hm
  · obtain ⟨list, hl, hlt⟩ := (EventList.mark_mem_sourceAll.mp hm).2
    rw [h.rowCount_eq_zero ht hl] at hlt
    exact absurd hlt (Nat.not_lt_zero r)
  · exact (EventList.mark_mem_source.mp hm).2

/-- Before a list, no row of its channel is marked. -/
theorem ListPlace.mark_notMem_sourceBefore (p : song.ListPlace) (h : song.RowsInMain) {r : Nat} :
    .mark (.matrixRow p.channel r) ∉ p.sourceBefore := by
  intro hm
  simp only [sourceBefore, List.mem_append, List.mem_cons, List.mem_flatMap] at hm
  rcases hm with hm | hm | ⟨record, -, hm⟩ | hm | hm
  · exact Table.mark_notMem_sourceAll hm
  · cases hm
  · exact InstrumentRecord.mark_notMem_source hm
  · obtain ⟨i, track, ht, hc, -⟩ := ChannelTrack.mark_mem_sourceAll hm
    have hlt := (List.getElem?_eq_some_iff.mp ht).1
    rw [p.length_take] at hlt
    omega
  · obtain ⟨list, hl, hlt⟩ := (EventList.mark_mem_sourceAll.mp hm).2
    have hmem : list ∈ p.track.subPatterns := by
      cases hw : p.which with
      | none =>
        rw [hw] at hl
        exact hl
      | some index =>
        rw [hw] at hl
        exact List.mem_of_mem_take hl
    rw [h.rowCount_eq_zero (List.mem_of_getElem? p.track_eq) hmem] at hlt
    exact Nat.not_lt_zero r hlt

/-- Before an event, the rows are marked that its list plays before it. -/
theorem Place.mark_mem_sourceBefore (p : song.Place) (h : song.RowsInMain) {r : Nat} :
    .mark (.matrixRow p.channel r) ∈ p.sourceBefore ↔ r < p.row := by
  have hlabel : Item.mark (.matrixRow p.channel r) ≠ .mark p.label := by
    intro he
    exact Layout.label_ne_matrixRow p.list p.channel _ p.channel r (Item.mark.inj he).symm
  rw [sourceBefore, List.mem_append, or_iff_right (p.toListPlace.mark_notMem_sourceBefore h),
    List.mem_cons, or_iff_right hlabel, Event.mark_mem_sourceAll]
  simp [row]

/-- A row that a song marks is played by an event of its channel's main list. -/
theorem RowsInMain.exists_place (h : song.RowsInMain) {channel r : Nat}
    (hm : .mark (.matrixRow channel r) ∈ song.source) :
    ∃ q : song.Place, q.channel = channel ∧ q.which = none ∧
      Layout.playsRow q.event.command = true ∧ q.row = r := by
  simp only [source, bodySource, headerSource, List.mem_append, List.mem_cons, List.mem_flatMap] at hm
  rcases hm with (hm | hm | ⟨record, -, hm⟩ | hm) | hm | hm | hm
  · exact absurd hm Table.mark_notMem_sourceAll
  · cases hm
  · exact absurd hm InstrumentRecord.mark_notMem_source
  · obtain ⟨i, track, ht, hc, hm⟩ := ChannelTrack.mark_mem_sourceAll hm
    obtain rfl : channel = i := by omega
    obtain ⟨k, event, hk, he, hr⟩ :=
      Event.exists_row (h.mark_mem_track (List.mem_of_getElem? ht) hm)
    exact ⟨⟨⟨channel, track, none, track.events, ht, rfl⟩, k, event, hk⟩, rfl, rfl, he, hr⟩
  · cases hm
  · exact absurd hm mark_notMem_headerPointers
  · simp at hm

/-- The event of a row stands before another event exactly if both are of the
main list, in this order. -/
theorem Place.row_lt_row (h : song.RowsInMain) (p q : song.Place) (hc : q.channel = p.channel)
    (hq : q.which = none) (hplays : Layout.playsRow q.event.command = true) :
    q.row < p.row ↔ p.which = none ∧ q.index < p.index := by
  have htrack : q.track = p.track := by
    have ht := q.track_eq
    rw [hc, p.track_eq] at ht
    exact (Option.some.inj (Option.some.inj ht)).symm
  cases hw : p.which with
  | some index =>
    -- a sub-pattern plays no rows
    have hl := p.list_eq
    rw [hw] at hl
    have hzero := h.rowCount_eq_zero (List.mem_of_getElem? p.track_eq) (List.mem_of_getElem? hl)
    have hle : p.row ≤ Event.rowCount p.list.events :=
      (List.take_sublist p.index p.list.events).countP_le
    simp
    omega
  | none =>
    have hlist : q.list = p.list := by
      have hl := q.list_eq
      have hl' := p.list_eq
      rw [hq, htrack] at hl
      rw [hw] at hl'
      exact Option.some.inj (hl.symm.trans hl')
    have hone : Event.rowCount [q.event] = 1 := by simp [Event.rowCount, hplays]
    have hsucc := Event.rowCount_take_succ q.event_eq
    rw [hlist, hone] at hsucc
    unfold row eventsBefore
    rw [hlist]
    constructor
    · intro hlt
      refine ⟨rfl, Nat.lt_of_not_le fun hle => ?_⟩
      exact absurd hlt (Nat.not_lt.mpr (Event.rowCount_take_le hle))
    · rintro ⟨-, hlt⟩
      have hle : Event.rowCount (p.list.events.take (q.index + 1)) ≤
          Event.rowCount (p.list.events.take p.index) := Event.rowCount_take_le hlt
      omega

/-- The offset of a row is that of the event that plays it. -/
theorem Place.marks_row (q : song.Place) (h : song.RowsInMain)
    (hplays : Layout.playsRow q.event.command = true) :
    (survey song.source).marks (.matrixRow q.channel q.row) = some (survey q.sourceBefore).offset := by
  obtain ⟨after, hsource⟩ := q.source_eq
  rw [Event.rowMark, if_pos hplays] at hsource
  have hnew : .mark (.matrixRow q.channel q.row) ∉ q.sourceBefore := fun hm =>
    Nat.lt_irrefl _ ((q.mark_mem_sourceBefore h).mp hm)
  rw [hsource]
  exact Survey.run_mark rfl hnew

theorem Place.row_lt_rowCount (q : song.Place) (hplays : Layout.playsRow q.event.command = true) :
    q.row < Event.rowCount q.list.events := by
  have hone : Event.rowCount [q.event] = 1 := by simp [Event.rowCount, hplays]
  have hsucc := Event.rowCount_take_succ q.event_eq
  have hle : Event.rowCount (q.list.events.take (q.index + 1)) ≤ Event.rowCount q.list.events :=
    (List.take_sublist _ _).countP_le
  unfold row eventsBefore
  omega

/-- The row of a position jump has the offset of the event that plays it. -/
theorem Place.exists_target (p : song.Place) (h : song.RowsInMain) {l : Layout}
    (ha : l.Assembled song.source) (hpending : l.pending = []) {r : Nat}
    (hp : p.event.command = .positionJump r) :
    ∃ q : song.Place, (q.channel = p.channel ∧ q.which = none ∧
        Layout.playsRow q.event.command = true ∧ q.row = r) ∧
      (survey song.source).marks (.matrixRow p.channel r) = some (survey q.sourceBefore).offset := by
  have hjump : .jump p.channel r ∈ song.source := by
    obtain ⟨after, hsource⟩ := p.source_eq
    rw [hsource]
    simp [Event.source, hp]
  obtain ⟨o, ho⟩ := ha.exists_offset hpending hjump rfl
  have hmem : .mark (.matrixRow p.channel r) ∈ song.source :=
    survey_marks_ne_none.mp (by rw [ho]; exact Option.some_ne_none o)
  obtain ⟨q, hchannel, hwhich, hplays, hrow⟩ := h.exists_place hmem
  have hq := q.marks_row h hplays
  rw [hchannel, hrow] at hq
  exact ⟨q, ⟨hchannel, hwhich, hplays, hrow⟩, hq⟩

end Song

end Chiptune
