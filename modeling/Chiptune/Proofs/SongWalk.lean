/-
# What a walk tells about a song

A walk over the source of a song goes through its tables, its instrument
records, its lists and its header. What it tells about the lists it tells
about one of them at its place (`Song.mem_walk_lists`), and if marks and plain
bytes do not matter to it, about an event at its place
(`Song.mem_walk_source`).

Key definitions: `TargetsOnly`, `Song.sourceBeforeRecords`,
`Song.sourceBeforeLists`.
Key theorems: `Event.mem_walk_sourceAll`, `Song.mem_walk_lists`,
`Song.mem_walk_bodySource`, `Song.mem_walk_source`.
-/
import Chiptune.Proofs.Places

namespace Chiptune

section Parts

variable {α : Type} {f : Survey → Item → List α} {x : α} {channel : Nat}

/-- What is told about blocks that follow one another is told about one of
them. A block depends on `place`, what the blocks before it add up to. -/
theorem mem_walk_blocks {β : Type} {source : Nat → List β → List Item} (block : Nat → β → List Item)
    (place : Nat → List β → Nat) (hnil : ∀ n, source n [] = [])
    (hcons : ∀ n b rest, source n (b :: rest) = block n b ++ source (place n [b]) rest)
    (hfirst : ∀ n, place n [] = n)
    (hplace : ∀ n b rest, place n (b :: rest) = place (place n [b]) rest) :
    ∀ {bs : List β} {s : Survey} {n : Nat}, x ∈ walk f s (source n bs) ↔
      ∃ k b, bs[k]? = some b ∧
        x ∈ walk f (s.run (source n (bs.take k))) (block (place n (bs.take k)) b) := by
  intro bs
  induction bs with
  | nil => simp [hnil]
  | cons first rest ih =>
    intro s n
    rw [hcons, walk_append, List.mem_append, ih]
    constructor
    · rintro (h | ⟨k, b, hb, h⟩)
      · refine ⟨0, first, rfl, ?_⟩
        rwa [List.take_zero, hnil, hfirst]
      · refine ⟨k + 1, b, hb, ?_⟩
        rwa [List.take_succ_cons, hcons, hplace n first (rest.take k), Survey.run_append]
    · rintro ⟨k, b, hb, h⟩
      cases k with
      | zero =>
        obtain rfl := Option.some.inj hb
        rw [List.take_zero, hnil, hfirst] at h
        exact .inl h
      | succ k =>
        rw [List.take_succ_cons, hcons, hplace n first (rest.take k), Survey.run_append] at h
        exact .inr ⟨k, b, hb, h⟩

/-- What is told about events is told about one of them, with the mark of the
row that it plays. -/
theorem Event.mem_walk_sourceAll {events : List Event} {s : Survey} {row : Nat} :
    x ∈ walk f s (Event.sourceAll channel row events) ↔ ∃ k event, events[k]? = some event ∧
      x ∈ walk f (s.run (Event.sourceAll channel row (events.take k)))
        (event.rowMark channel (row + Event.rowCount (events.take k)) ++ event.source channel) := by
  refine mem_walk_blocks (fun row event => event.rowMark channel row ++ event.source channel)
    (fun row events => row + Event.rowCount events) (fun _ => rfl) ?_ (fun _ => rfl) ?_
  · intro row event rest
    rw [Event.sourceAll_cons, List.append_assoc]
  · intro row event rest
    rw [Event.rowCount_cons, Nat.add_assoc]

theorem length_take_of_getElem? {β : Type} {bs : List β} {k : Nat} {b : β} (h : bs[k]? = some b) :
    (bs.take k).length = k :=
  List.length_take_of_le (Nat.le_of_lt (List.getElem?_eq_some_iff.mp h).1)

theorem EventList.mem_walk_sourceAll {lists : List EventList} {s : Survey} {index : Nat} :
    x ∈ walk f s (EventList.sourceAll channel index lists) ↔ ∃ i list, lists[i]? = some list ∧
      x ∈ walk f (s.run (EventList.sourceAll channel index (lists.take i)))
        (list.source channel (index + i)) := by
  rw [mem_walk_blocks (EventList.source channel) (fun index lists => index + lists.length)
    (fun _ => rfl) (fun _ _ _ => rfl) (fun _ => rfl)
    (fun index _ rest => by simp only [List.length_cons, List.length_nil]; omega)]
  refine exists_congr fun i => exists_congr fun list => and_congr_right fun hl => ?_
  rw [length_take_of_getElem? hl]

/-- What is told about a track is told about one of its lists. -/
theorem ChannelTrack.mem_walk_source {track : ChannelTrack} {s : Survey} :
    x ∈ walk f s (track.source channel) ↔ ∃ which list, track.list? which = some list ∧
      x ∈ walk f (s.run (EventList.sourceAll channel 0 (track.listsBefore which)))
        (list.source channel (which.getD 0)) := by
  rw [ChannelTrack.source, walk_append, List.mem_append, EventList.mem_walk_sourceAll]
  constructor
  · rintro (⟨i, list, hl, h⟩ | h)
    · rw [Nat.zero_add] at h
      exact ⟨some i, list, hl, h⟩
    · exact ⟨none, track.events, rfl, h⟩
  · rintro ⟨_ | i, list, hl, h⟩
    · obtain rfl : track.events = list := Option.some.inj hl
      exact .inr h
    · refine .inl ⟨i, list, hl, ?_⟩
      rw [Nat.zero_add]
      exact h

/-- What is told about the lists of channels is told about one of the tracks. -/
theorem ChannelTrack.mem_walk_sourceAll {tracks : List (Option ChannelTrack)} {s : Survey} :
    x ∈ walk f s (ChannelTrack.sourceAll channel tracks) ↔
      ∃ i track, tracks[i]? = some (some track) ∧
        x ∈ walk f (s.run (ChannelTrack.sourceAll channel (tracks.take i)))
          (track.source (channel + i)) := by
  let block (channel : Nat) (entry : Option ChannelTrack) : List Item :=
    entry.elim [] (ChannelTrack.source channel)
  have hcons : ∀ channel entry rest, ChannelTrack.sourceAll channel (entry :: rest) =
      block channel entry ++ ChannelTrack.sourceAll (channel + 1) rest := by
    intro channel entry rest
    cases entry <;> rfl
  rw [mem_walk_blocks block (fun channel tracks => channel + tracks.length)
    (fun _ => rfl) hcons (fun _ => rfl)
    (fun channel _ rest => by simp only [List.length_cons, List.length_nil]; omega)]
  constructor
  · rintro ⟨i, entry, he, h⟩
    rw [length_take_of_getElem? he] at h
    cases entry with
    | none => cases h
    | some track => exact ⟨i, track, he, h⟩
  · rintro ⟨i, track, ht, h⟩
    refine ⟨i, some track, ht, ?_⟩
    rwa [length_take_of_getElem? ht]

end Parts

/-! ### Songs -/

namespace Song

variable {α : Type} {f : Survey → Item → List α} {x : α}

/-- The source of a song up to its instrument records. -/
def sourceBeforeRecords (song : Song) : List Item :=
  Table.sourceAll 0 song.tables ++ [.mark .instruments]

/-- The source of a song up to its lists. -/
def sourceBeforeLists (song : Song) : List Item :=
  song.sourceBeforeRecords ++ song.instruments.flatMap InstrumentRecord.source

theorem bodySource_eq (song : Song) : song.bodySource =
    song.sourceBeforeLists ++ ChannelTrack.sourceAll 0 song.channels.toList := by
  simp [bodySource, sourceBeforeLists, sourceBeforeRecords]

theorem ListPlace.sourceBefore_eq {song : Song} (p : song.ListPlace) :
    p.sourceBefore = song.sourceBeforeLists ++
      (ChannelTrack.sourceAll 0 (song.channels.toList.take p.channel) ++
        EventList.sourceAll p.channel 0 (p.track.listsBefore p.which)) := by
  simp [sourceBefore, sourceBeforeLists, sourceBeforeRecords]

/-- What is told about the lists of a song is told about one of them at its
place. -/
theorem mem_walk_lists (song : Song) :
    x ∈ walk f (survey song.sourceBeforeLists) (ChannelTrack.sourceAll 0 song.channels.toList) ↔
      ∃ p : song.ListPlace,
        x ∈ walk f (survey p.sourceBefore) (p.list.source p.channel (p.which.getD 0)) := by
  rw [ChannelTrack.mem_walk_sourceAll]
  constructor
  · rintro ⟨i, track, ht, h⟩
    obtain ⟨which, list, hl, h⟩ := ChannelTrack.mem_walk_source.mp h
    rw [Nat.zero_add] at h
    let p : song.ListPlace := ⟨i, track, which, list, ht, hl⟩
    refine ⟨p, ?_⟩
    rw [p.sourceBefore_eq, survey_append, Survey.run_append]
    exact h
  · rintro ⟨p, h⟩
    rw [p.sourceBefore_eq, survey_append, Survey.run_append] at h
    refine ⟨p.channel, p.track, p.track_eq, ChannelTrack.mem_walk_source.mpr
      ⟨p.which, p.list, p.list_eq, ?_⟩⟩
    rwa [Nat.zero_add]

end Song

/-- Only items that refer to a label matter. -/
structure TargetsOnly {α : Type} (f : Survey → Item → List α) : Prop where
  mark : ∀ s label, f s (.mark label) = []
  bytes : ∀ s bs, f s (.bytes bs) = []

section TargetsOnly

variable {α : Type} {f : Survey → Item → List α} {x : α}

theorem TargetsOnly.walk_tables (hf : TargetsOnly f) : ∀ (tables : List Table) (index : Nat)
    (s : Survey), walk f s (Table.sourceAll index tables) = []
  | [], _, _ => rfl
  | table :: rest, index, s => by
    rw [Table.sourceAll, walk_cons, walk_cons, hf.mark, hf.bytes, hf.walk_tables rest]
    rfl

theorem TargetsOnly.walk_rowMark (hf : TargetsOnly f) (event : Event) (channel row : Nat)
    (s : Survey) : walk f s (event.rowMark channel row) = [] := by
  unfold Event.rowMark
  split
  · exact (congrArg (· ++ []) (hf.mark s _))
  · rfl

/-- What is told about a list of a song is told about one of its events at its
place. -/
theorem TargetsOnly.mem_walk_events (hf : TargetsOnly f) {song : Song} :
    (∃ p : song.ListPlace,
      x ∈ walk f (survey p.sourceBefore) (p.list.source p.channel (p.which.getD 0))) ↔
      ∃ p : song.Place, x ∈ walk f ((survey p.sourceBefore).run (p.event.rowMark p.channel p.row))
        (p.event.source p.channel) := by
  have hlist : ∀ p : song.ListPlace,
      x ∈ walk f (survey p.sourceBefore) (p.list.source p.channel (p.which.getD 0)) ↔
        ∃ k event, p.list.events[k]? = some event ∧
          x ∈ walk f ((survey p.sourceBefore).run
            (.mark p.label :: Event.sourceAll p.channel 0 (p.list.events.take k)))
            (event.rowMark p.channel (Event.rowCount (p.list.events.take k)) ++
              event.source p.channel) := by
    intro p
    rw [EventList.source, walk_cons, hf.mark, List.nil_append, Event.mem_walk_sourceAll]
    simp only [Nat.zero_add]
    rfl
  constructor
  · rintro ⟨p, h⟩
    obtain ⟨k, event, he, h⟩ := (hlist p).mp h
    rw [walk_append, hf.walk_rowMark, List.nil_append] at h
    refine ⟨⟨p, k, event, he⟩, ?_⟩
    rw [Song.Place.sourceBefore, survey_append]
    exact h
  · rintro ⟨p, h⟩
    rw [Song.Place.sourceBefore, survey_append] at h
    refine ⟨p.toListPlace, (hlist p.toListPlace).mpr ⟨p.index, p.event, p.event_eq, ?_⟩⟩
    rw [walk_append, hf.walk_rowMark, List.nil_append]
    exact h

/-- What is told about the data before the header is told about the instrument
records or about an event at its place. -/
theorem Song.mem_walk_bodySource (hf : TargetsOnly f) (song : Song) :
    x ∈ walk f {} song.bodySource ↔
      x ∈ walk f (survey song.sourceBeforeRecords)
        (song.instruments.flatMap InstrumentRecord.source) ∨
      ∃ p : song.Place, x ∈ walk f ((survey p.sourceBefore).run (p.event.rowMark p.channel p.row))
        (p.event.source p.channel) := by
  have hbefore : walk f {} song.sourceBeforeRecords = [] := by
    rw [sourceBeforeRecords, walk_append, hf.walk_tables, walk_cons, hf.mark]
    rfl
  rw [bodySource_eq, walk_append, sourceBeforeLists, walk_append, hbefore, List.nil_append,
    List.mem_append, ← sourceBeforeLists, ← hf.mem_walk_events, ← mem_walk_lists]
  rfl

/-- **What is told about a song** is told about its instrument records, about
an event at its place or about its header. -/
theorem Song.mem_walk_source (hf : TargetsOnly f) (song : Song) :
    x ∈ walk f {} song.source ↔
      x ∈ walk f (survey song.sourceBeforeRecords)
        (song.instruments.flatMap InstrumentRecord.source) ∨
      (∃ p : song.Place, x ∈ walk f ((survey p.sourceBefore).run (p.event.rowMark p.channel p.row))
        (p.event.source p.channel)) ∨
      x ∈ walk f (survey song.bodySource) song.headerSource := by
  rw [source, walk_append, List.mem_append, mem_walk_bodySource hf, or_assoc]
  rfl

end TargetsOnly
end Chiptune
