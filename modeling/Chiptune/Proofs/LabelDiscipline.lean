/-
# Label discipline

A song is disciplined if its lists are what they are used as, only main lists
play rows, and indices of tables and sub-patterns are those of the song
(`Song.Disciplined`). Such a song marks every label once and refers only to
labels that are marked before, so it fails to compile only for a jump to a row
that its channel does not play, the first one by channel and row, and for its
size.

Key definitions: `marked`, `Song.Disciplined`, `Song.JumpsPast`.
Key theorems: `Song.Disciplined.nodup_marked`, `Song.Disciplined.check_source`,
`Song.Disciplined.exists_unresolved`, `Song.Disciplined.compile_of_jumpsPast`,
`Song.Disciplined.compile_of_not_jumpsPast`.
-/
import Chiptune.Proofs.References
import Chiptune.Proofs.SourceCheck

namespace Chiptune

/-- The labels that items mark. -/
def marked (items : List Item) : List Label := items.filterMap Item.mark?

@[simp] theorem marked_append (as bs : List Item) : marked (as ++ bs) = marked as ++ marked bs :=
  List.filterMap_append

@[simp] theorem marked_mark (label : Label) (items : List Item) :
    marked (.mark label :: items) = label :: marked items := rfl

theorem mem_marked {items : List Item} {label : Label} :
    label ∈ marked items ↔ .mark label ∈ items := by
  rw [marked, List.mem_filterMap]
  constructor
  · rintro ⟨item, hi, hm⟩
    cases item with
    | mark x => exact Option.some.inj hm ▸ hi
    | bytes bs => cases hm
    | pointer x => cases hm
    | jump c r => cases hm
  · intro h
    exact ⟨_, h, rfl⟩

theorem walk_mark? : ∀ (items : List Item) (s : Survey),
    walk (fun _ item => item.mark?.toList) s items = marked items
  | [], _ => rfl
  | item :: items, s => by
    rw [walk_cons, walk_mark? items]
    cases item <;> rfl

theorem marked_eq_nil {items : List Item} (h : ∀ label, .mark label ∉ items) : marked items = [] :=
  List.eq_nil_iff_forall_not_mem.mpr fun label hl => h label (mem_marked.mp hl)

/-- A label that was marked has an offset. -/
theorem exists_offset_of_marked {items : List Item} {label : Label} (h : label ∈ marked items) :
    ∃ o, (survey items).marks label = some o :=
  Option.ne_none_iff_exists'.mp (survey_marks_ne_none.mpr (mem_marked.mp h))

/-! ### The labels of the parts of a song -/

theorem Table.marked_sourceAll : ∀ (tables : List Table) (index : Nat),
    marked (sourceAll index tables) = (List.range' index tables.length).map .table
  | [], _ => rfl
  | _ :: rest, index => congrArg (Label.table index :: ·) (marked_sourceAll rest (index + 1))

theorem InstrumentRecord.marked_sources (records : List InstrumentRecord) :
    marked (records.flatMap source) = [] := by
  apply marked_eq_nil
  intro label h
  obtain ⟨record, -, h⟩ := List.mem_flatMap.mp h
  exact mark_notMem_source h

theorem Event.marked_sourceAll (channel : Nat) : ∀ (events : List Event) (row : Nat),
    marked (sourceAll channel row events) =
      (List.range' row (rowCount events)).map (.matrixRow channel)
  | [], _ => rfl
  | event :: rest, row => by
    rw [sourceAll_cons, marked_append, marked_append, marked_eq_nil fun _ => mark_notMem_source,
      marked_sourceAll channel rest, rowCount_cons event rest]
    by_cases hp : Layout.playsRow event.command = true
    · have hone : rowCount [event] = 1 := by simp [rowCount, hp]
      rw [hone, Nat.add_comm 1, List.range'_succ, rowMark, if_pos hp]
      rfl
    · have hzero : rowCount [event] = 0 := by simp [rowCount, hp]
      rw [hzero, Nat.zero_add, rowMark, if_neg hp]
      rfl

theorem EventList.marked_sourceAll (channel : Nat) : ∀ {lists : List EventList} (index : Nat),
    (∀ list ∈ lists, list.kind = .sub) →
    (∀ list ∈ lists, ∀ event ∈ list.events, Layout.playsRow event.command = false) →
    marked (sourceAll channel index lists) =
      (List.range' index lists.length).map (.subPattern channel)
  | [], _, _, _ => rfl
  | list :: rest, index, hkind, hrows => by
    have hlabel : list.label channel index = .subPattern channel index := by
      rw [label, hkind list (List.mem_cons_self ..)]
    have hzero := Event.rowCount_eq_zero (hrows list (List.mem_cons_self ..))
    have hrest := marked_sourceAll channel (index + 1)
      (fun l hl => hkind l (List.mem_cons_of_mem _ hl))
      fun l hl => hrows l (List.mem_cons_of_mem _ hl)
    rw [sourceAll, source, marked_append, marked_mark, Event.marked_sourceAll, hzero, hrest, hlabel,
      List.length_cons, List.range'_succ]
    rfl

/-- The labels of a track. -/
def ChannelTrack.labels (channel : Nat) (track : ChannelTrack) : List Label :=
  (List.range' 0 track.subPatterns.length).map (.subPattern channel) ++
    (.mainList channel ::
      (List.range' 0 (Event.rowCount track.events.events)).map (.matrixRow channel))

/-- The channel that a label belongs to. -/
def Label.channel? : Label → Option Nat
  | .subPattern channel _ | .mainList channel | .matrixRow channel _ => some channel
  | _ => none

theorem ChannelTrack.channel?_of_mem_labels {channel : Nat} {track : ChannelTrack} {label : Label}
    (h : label ∈ track.labels channel) : label.channel? = some channel := by
  simp only [labels, List.mem_append, List.mem_cons, List.mem_map] at h
  rcases h with ⟨i, -, rfl⟩ | rfl | ⟨i, -, rfl⟩ <;> rfl

theorem ChannelTrack.nodup_labels (channel : Nat) (track : ChannelTrack) :
    (track.labels channel).Nodup := by
  have hsub : Function.Injective (Label.subPattern channel) :=
    fun _ _ h => (Label.subPattern.inj h).2
  have hrow : Function.Injective (Label.matrixRow channel) :=
    fun _ _ h => (Label.matrixRow.inj h).2
  rw [labels, List.nodup_append, List.nodup_cons]
  refine ⟨List.Nodup.map hsub List.nodup_range',
    ⟨by simp, List.Nodup.map hrow List.nodup_range'⟩, ?_⟩
  intro a ha b hb
  obtain ⟨i, -, rfl⟩ := List.mem_map.mp ha
  rcases List.mem_cons.mp hb with rfl | hb
  · exact nofun
  · obtain ⟨j, -, rfl⟩ := List.mem_map.mp hb
    exact nofun

/-! ### Disciplined songs -/

/-- A track whose lists are what they are used as, with sub-patterns that play
no rows and a main list that jumps to its sub-patterns. -/
structure ChannelTrack.Disciplined (track : ChannelTrack) : Prop where
  main : track.events.kind = .main
  sub : ∀ list ∈ track.subPatterns, list.kind = .sub
  rows : ∀ list ∈ track.subPatterns, ∀ event ∈ list.events, Layout.playsRow event.command = false
  jumps : ∀ event ∈ track.events.events, ∀ index, event.command = .jumpToSubPattern index →
    index < track.subPatterns.length

/-- A song of disciplined tracks whose records point to its tables. -/
structure Song.Disciplined (song : Song) : Prop where
  tables : ∀ record ∈ song.instruments, ∀ p ∈ record.tablePointers, p.2 < song.tables.length
  tracks : ∀ track, some track ∈ song.channels.toList → track.Disciplined

namespace ChannelTrack

theorem Disciplined.marked_source {track : ChannelTrack} (h : track.Disciplined) (channel : Nat) :
    marked (track.source channel) = track.labels channel := by
  rw [source, marked_append, EventList.marked_sourceAll channel 0 h.sub h.rows, EventList.source,
    marked_mark, Event.marked_sourceAll, EventList.label, h.main]
  rfl

variable {tracks : List (Option ChannelTrack)}

theorem mem_marked_sourceAll (h : ∀ track, some track ∈ tracks → track.Disciplined)
    {channel : Nat} {label : Label} : label ∈ marked (sourceAll channel tracks) ↔
      ∃ i track, tracks[i]? = some (some track) ∧
        label ∈ ChannelTrack.labels (channel + i) track := by
  rw [← walk_mark? _ {}, mem_walk_sourceAll]
  refine exists_congr fun i => exists_congr fun track => and_congr_right fun ht => ?_
  rw [walk_mark?, (h track (List.mem_of_getElem? ht)).marked_source]

/-- Tracks mark every label once. -/
theorem nodup_marked_sourceAll (h : ∀ track, some track ∈ tracks → track.Disciplined)
    (channel : Nat) : (marked (sourceAll channel tracks)).Nodup := by
  induction tracks generalizing channel with
  | nil => exact List.nodup_nil
  | cons entry rest ih =>
    have hrest : ∀ track, some track ∈ rest → track.Disciplined :=
      fun t ht => h t (List.mem_cons_of_mem _ ht)
    cases entry with
    | none => exact ih hrest (channel + 1)
    | some track =>
      rw [sourceAll, marked_append, (h track (List.mem_cons_self ..)).marked_source,
        List.nodup_append]
      refine ⟨nodup_labels channel track, ih hrest (channel + 1), ?_⟩
      rintro a ha b hb rfl
      obtain ⟨i, track', -, hb⟩ := (mem_marked_sourceAll hrest).mp hb
      have hc := (channel?_of_mem_labels ha).symm.trans (channel?_of_mem_labels hb)
      have := Option.some.inj hc
      omega

end ChannelTrack

namespace Song

variable {song : Song}

theorem marked_bodySource (song : Song) : marked song.bodySource =
    (List.range' 0 song.tables.length).map .table ++
      (.instruments :: marked (ChannelTrack.sourceAll 0 song.channels.toList)) := by
  rw [bodySource, marked_append, marked_mark, marked_append, Table.marked_sourceAll,
    InstrumentRecord.marked_sources, List.nil_append]

theorem marked_source (song : Song) : marked song.source = marked song.bodySource ++ [.header] := by
  have hheader : marked (headerPointers 0 song.channels.toList ++
      [.bytes (Word.bytes song.timer.counter ++ [song.timer.timeBase]),
        .pointer .instruments]) = [] := by
    apply marked_eq_nil
    intro label hl
    rcases List.mem_append.mp hl with hl | hl
    · exact mark_notMem_headerPointers hl
    · simp at hl
  rw [source, headerSource, marked_append, marked_mark, hheader]

namespace Disciplined

variable (h : song.Disciplined)

include h

theorem mem_marked_bodySource {label : Label} :
    label ∈ marked song.bodySource ↔ (∃ i < song.tables.length, label = .table i) ∨
      label = .instruments ∨ ∃ (c : Nat) (track : ChannelTrack),
        song.channels.toList[c]? = some (some track) ∧ label ∈ track.labels c := by
  rw [marked_bodySource, List.mem_append, List.mem_cons,
    ChannelTrack.mem_marked_sourceAll h.tracks]
  simp [eq_comm]

/-- **A disciplined song marks every label once.** -/
theorem nodup_marked : (marked song.source).Nodup := by
  have htracks : ∀ label ∈ marked (ChannelTrack.sourceAll 0 song.channels.toList),
      label.channel? ≠ none := by
    intro label hl
    obtain ⟨i, track, -, hl⟩ := (ChannelTrack.mem_marked_sourceAll h.tracks).mp hl
    rw [ChannelTrack.channel?_of_mem_labels hl]
    exact Option.some_ne_none _
  have hbody : (marked song.bodySource).Nodup := by
    rw [marked_bodySource, List.nodup_append, List.nodup_cons]
    refine ⟨List.Nodup.map (fun _ _ h => Label.table.inj h) List.nodup_range',
      ⟨fun hi => htracks _ hi rfl, ChannelTrack.nodup_marked_sourceAll h.tracks 0⟩, ?_⟩
    rintro a ha b hb rfl
    obtain ⟨i, -, rfl⟩ := List.mem_map.mp ha
    rcases List.mem_cons.mp hb with hb | hb
    · cases hb
    · exact htracks _ hb rfl
  rw [marked_source, List.nodup_append]
  refine ⟨hbody, List.nodup_singleton _, ?_⟩
  rintro a ha b hb rfl
  obtain rfl := List.mem_singleton.mp hb
  rcases h.mem_marked_bodySource.mp ha with ⟨i, -, hi⟩ | hi | ⟨c, track, -, hl⟩
  · cases hi
  · cases hi
  · cases ChannelTrack.channel?_of_mem_labels hl

end Disciplined

end Song

/-! ### Pointers have their labels -/

theorem targetsOnly_undefined : TargetsOnly Item.undefined := ⟨fun _ _ => rfl, fun _ _ => rfl⟩

/-- Pointers to labels that were marked before are none to undefined ones. -/
theorem walk_undefined_eq_nil {items : List Item} {s : Survey}
    (h : ∀ label, .pointer label ∈ items → ∃ o, s.marks label = some o) :
    walk Item.undefined s items = [] := by
  rw [List.eq_nil_iff_forall_not_mem]
  intro label hl
  obtain ⟨as, item, bs, rfl, hi⟩ := mem_walk.mp hl
  cases item with
  | pointer x =>
    obtain ⟨o, ho⟩ := h x (by simp)
    rw [Item.undefined, Survey.run_marks_of_some ho] at hi
    cases hi
  | mark x => cases hi
  | bytes bs => cases hi
  | jump c r => cases hi

/-- A source has no faults if it marks every label once and points to none that
is not marked before. -/
theorem check_eq_ok {items : List Item} (hnodup : (marked items).Nodup)
    (hdefined : walk Item.undefined {} items = []) : Survey.check {} items = .ok () := by
  rw [Survey.check, firstOf_eq_ok, List.eq_nil_iff_forall_not_mem]
  intro e he
  obtain ⟨as, item, bs, rfl, hi⟩ := mem_walk.mp he
  cases item with
  | mark label =>
    rw [Item.faults] at hi
    split at hi
    · next hsome =>
      rw [Option.isSome_iff_ne_none] at hsome
      have hbefore := mem_marked.mpr (survey_marks_ne_none.mp hsome)
      rw [marked_append, marked_mark, List.nodup_append] at hnodup
      exact hnodup.2.2 label hbefore label (List.mem_cons_self ..) rfl
    · cases hi
  | pointer label =>
    obtain ⟨x, hx, -⟩ := List.mem_map.mp hi
    have hmem := mem_walk.mpr ⟨as, .pointer label, bs, rfl, hx⟩
    rw [hdefined] at hmem
    cases hmem
  | bytes bs => cases hi
  | jump c r => cases hi

theorem Event.pointer_mem_source {channel : Nat} {event : Event} {label : Label}
    (h : .pointer label ∈ event.source channel) :
    ∃ index, event.command = .jumpToSubPattern index ∧ label = .subPattern channel index := by
  obtain ⟨command, timing⟩ := event
  cases command with
  | jumpToSubPattern index => exact ⟨index, rfl, by simpa [source] using h⟩
  | _ => simp [source] at h

theorem InstrumentRecord.pointer_mem_source {record : InstrumentRecord} {label : Label}
    (h : .pointer label ∈ record.source) : ∃ p ∈ record.tablePointers, label = .table p.2 := by
  cases record with
  | fm instrument => simp [source] at h
  | ssg tone noise volume arpeggio mixing =>
    cases volume <;> cases arpeggio <;> cases mixing <;>
      simp_all [source, tablePointers, Table.pointer]
  | adpcmA sampleList => simpa [source, tablePointers] using h

namespace Song

theorem pointer_mem_headerPointers {label : Label} :
    ∀ {tracks : List (Option ChannelTrack)} {channel : Nat},
      .pointer label ∈ headerPointers channel tracks →
        ∃ i track, tracks[i]? = some (some track) ∧ label = .mainList (channel + i)
  | [], _, h => by cases h
  | none :: rest, channel, h => by
    have hrest : .pointer label ∈ headerPointers (channel + 1) rest := by
      simpa [headerPointers] using h
    obtain ⟨i, track, ht, rfl⟩ := pointer_mem_headerPointers hrest
    exact ⟨i + 1, track, ht, by rw [Nat.add_right_comm, Nat.add_assoc]⟩
  | some track :: rest, channel, h => by
    rcases List.mem_cons.mp h with h | h
    · exact ⟨0, track, rfl, Item.pointer.inj h⟩
    · obtain ⟨i, track, ht, rfl⟩ := pointer_mem_headerPointers h
      exact ⟨i + 1, track, ht, by rw [Nat.add_right_comm, Nat.add_assoc]⟩

namespace Disciplined

variable {song : Song} (h : song.Disciplined)

include h

theorem walk_undefined_records : walk Item.undefined (survey song.sourceBeforeRecords)
    (song.instruments.flatMap InstrumentRecord.source) = [] := by
  apply walk_undefined_eq_nil
  intro label hl
  obtain ⟨record, hr, hl⟩ := List.mem_flatMap.mp hl
  obtain ⟨p, hp, rfl⟩ := InstrumentRecord.pointer_mem_source hl
  apply exists_offset_of_marked
  rw [sourceBeforeRecords, marked_append, Table.marked_sourceAll]
  apply List.mem_append_left
  simpa using h.tables record hr p hp

theorem walk_undefined_event (p : song.Place) : walk Item.undefined
    ((survey p.sourceBefore).run (p.event.rowMark p.channel p.row))
    (p.event.source p.channel) = [] := by
  apply walk_undefined_eq_nil
  intro label hl
  obtain ⟨index, hcommand, rfl⟩ := Event.pointer_mem_source hl
  have htrack := h.tracks p.track (List.mem_of_getElem? p.track_eq)
  have hevent := List.mem_of_getElem? p.event_eq
  -- only a main list jumps, and its sub-patterns stand before it
  have hlists : p.track.listsBefore p.which = p.track.subPatterns ∧
      index < p.track.subPatterns.length := by
    have hlist := p.list_eq
    cases hw : p.which with
    | none =>
      rw [hw] at hlist
      have hmain : p.track.events = p.list := Option.some.inj hlist
      exact ⟨rfl, htrack.jumps p.event (hmain ▸ hevent) index hcommand⟩
    | some i =>
      rw [hw] at hlist
      have hrow := htrack.rows p.list (List.mem_of_getElem? hlist) p.event hevent
      rw [hcommand] at hrow
      cases hrow
  have hmarked : .subPattern p.channel index ∈ marked p.sourceBefore := by
    rw [Place.sourceBefore, p.toListPlace.sourceBefore_eq, hlists.1, marked_append, marked_append,
      marked_append, EventList.marked_sourceAll p.channel 0 htrack.sub htrack.rows]
    simp [hlists.2]
  obtain ⟨o, ho⟩ := exists_offset_of_marked hmarked
  exact ⟨o, Survey.run_marks_of_some ho⟩

theorem walk_undefined_header :
    walk Item.undefined (survey song.bodySource) song.headerSource = [] := by
  apply walk_undefined_eq_nil
  intro label hl
  apply exists_offset_of_marked
  rw [h.mem_marked_bodySource]
  simp only [headerSource, List.mem_cons, List.mem_append] at hl
  rcases hl with hl | hl | hl | hl | hl
  · cases hl
  · obtain ⟨c, track, ht, rfl⟩ := pointer_mem_headerPointers hl
    rw [Nat.zero_add]
    exact .inr (.inr ⟨c, track, ht, by simp [ChannelTrack.labels]⟩)
  · cases hl
  · exact .inr (.inl (Item.pointer.inj hl))
  · cases hl

/-- **A disciplined song has no faults.** -/
theorem check_source : Survey.check {} song.source = .ok () := by
  refine check_eq_ok h.nodup_marked ?_
  rw [List.eq_nil_iff_forall_not_mem]
  intro label hl
  rcases (mem_walk_source targetsOnly_undefined song).mp hl with hl | ⟨p, hl⟩ | hl
  · rw [h.walk_undefined_records] at hl
    cases hl
  · rw [h.walk_undefined_event] at hl
    cases hl
  · rw [h.walk_undefined_header] at hl
    cases hl

/-- Such a song fails to compile only for jumps to rows that no list has, and
for its size. -/
theorem outcome_compile {base : Nat}
    (hfits : ((base + song.bodySize : Nat) : Int) < Address.signedLimit) (limit : Nat) :
    outcome (song.compile base limit) = (Layout.resolve (song.unresolved base) >>= fun _ =>
      checkEnd (base + song.bodySize + 31) limit) := by
  have hcheck := h.check_source
  rw [source, Survey.check_append] at hcheck
  obtain ⟨_, hbody, hheader⟩ := Except.bind_eq_ok hcheck
  rw [Song.outcome_compile hfits, Except.bind_of_ok hbody]
  refine congrArg _ (funext fun _ => ?_)
  exact Except.bind_of_ok hheader

end Disciplined
end Song

/-! ### Unresolved jumps -/

/-- A fixup stands at or before another one by channel and row. -/
def Fixup.Precedes (f g : Fixup) : Prop :=
  f.channel < g.channel ∨ (f.channel = g.channel ∧ f.row ≤ g.row)

namespace Layout

theorem earlier_precedes (f g : Fixup) :
    (earlier f g).Precedes f ∧ (earlier f g).Precedes g ∧ (earlier f g = f ∨ earlier f g = g) := by
  unfold earlier Fixup.Precedes
  split <;> simp <;> omega

theorem foldl_earlier (rest : List Fixup) (f : Fixup) :
    rest.foldl earlier f ∈ f :: rest ∧ ∀ g ∈ f :: rest, (rest.foldl earlier f).Precedes g := by
  induction rest generalizing f with
  | nil => simp [Fixup.Precedes]
  | cons g rest ih =>
    obtain ⟨hf, hg, hor⟩ := earlier_precedes f g
    obtain ⟨hmem, hleast⟩ := ih (earlier f g)
    have htrans : ∀ x : Fixup, (earlier f g).Precedes x →
        (rest.foldl earlier (earlier f g)).Precedes x := by
      intro x hx
      have hfirst := hleast _ (List.mem_cons_self ..)
      unfold Fixup.Precedes at *
      omega
    rw [List.foldl_cons]
    constructor
    · rcases List.mem_cons.mp hmem with heq | hmem
      · rw [heq]
        rcases hor with hor | hor <;> simp [hor]
      · simp [hmem]
    · intro x hx
      rcases List.mem_cons.mp hx with rfl | hx
      · exact htrans x hf
      · rcases List.mem_cons.mp hx with rfl | hx
        · exact htrans x hg
        · exact hleast x (List.mem_cons_of_mem _ hx)

/-- The first fixup by channel and row is the one reported. -/
theorem resolve_of_ne_nil {fixups : List Fixup} (h : fixups ≠ []) :
    ∃ f ∈ fixups, resolve fixups = .error (.unresolvedJump f.channel f.row) ∧
      ∀ g ∈ fixups, f.Precedes g := by
  cases fixups with
  | nil => exact absurd rfl h
  | cons f rest =>
    obtain ⟨hmem, hleast⟩ := foldl_earlier rest f
    exact ⟨_, hmem, rfl, hleast⟩

end Layout

theorem targetsOnly_fixups (base : Nat) : TargetsOnly (Item.fixups base) :=
  ⟨fun _ _ => rfl, fun _ _ => rfl⟩

theorem InstrumentRecord.walk_fixups_sources (base : Nat) (s : Survey)
    (records : List InstrumentRecord) :
    walk (Item.fixups base) s (records.flatMap source) = [] := by
  have hpointer : ∀ index channel row, Item.jump channel row ≠ Table.pointer index := by
    intro index channel row
    cases index <;> exact nofun
  rw [List.eq_nil_iff_forall_not_mem]
  intro f hf
  obtain ⟨as, item, bs, heq, hf⟩ := mem_walk.mp hf
  cases item with
  | jump channel row =>
    have hmem : .jump channel row ∈ records.flatMap source := by simp [heq]
    obtain ⟨record, -, hr⟩ := List.mem_flatMap.mp hmem
    cases record <;> simp [source, hpointer] at hr
  | mark label => cases hf
  | bytes bytes => cases hf
  | pointer label => cases hf

/-- The jump of an event has a fixup. -/
theorem Event.mem_walk_fixups {base channel : Nat} {event : Event} {s : Survey} {c r : Nat} :
    (∃ f ∈ walk (Item.fixups base) s (event.source channel), f.channel = c ∧ f.row = r) ↔
      channel = c ∧ event.command = .positionJump r := by
  obtain ⟨command, timing⟩ := event
  cases command <;> simp [source, Item.fixups]

namespace Song

/-- A list of a channel jumps to a row that the channel does not play. -/
def JumpsPast (song : Song) (channel row : Nat) : Prop :=
  ∃ p : song.Place, p.channel = channel ∧ p.event.command = .positionJump row ∧
    Event.rowCount p.track.events.events ≤ row

theorem Disciplined.matrixRow_mem_marked {song : Song} (h : song.Disciplined) (p : song.Place)
    {row : Nat} : .matrixRow p.channel row ∈ marked song.bodySource ↔
      row < Event.rowCount p.track.events.events := by
  have hlabels : ∀ {c : Nat} {track : ChannelTrack}, .matrixRow p.channel row ∈ track.labels c ↔
      c = p.channel ∧ row < Event.rowCount track.events.events := by
    intro c track
    simp [ChannelTrack.labels, and_comm]
  simp only [h.mem_marked_bodySource, hlabels, reduceCtorEq, and_false, exists_false, false_or]
  constructor
  · rintro ⟨c, track, ht, rfl, hlt⟩
    obtain rfl := Option.some.inj (Option.some.inj (ht.symm.trans p.track_eq))
    exact hlt
  · intro hlt
    exact ⟨p.channel, p.track, p.track_eq, rfl, hlt⟩

/-- **Jumps are left exactly where a list jumps to a row that its channel does
not play.** -/
theorem Disciplined.exists_unresolved {song : Song} (h : song.Disciplined) {base c r : Nat} :
    (∃ f ∈ song.unresolved base, f.channel = c ∧ f.row = r) ↔ song.JumpsPast c r := by
  have hmarks : ∀ p : song.Place, ∀ row,
      ((survey song.bodySource).marks (.matrixRow p.channel row)).isNone = true ↔
        Event.rowCount p.track.events.events ≤ row := by
    intro p row
    rw [Option.isNone_iff_eq_none, ← not_ne_iff, survey_marks_ne_none, ← mem_marked,
      h.matrixRow_mem_marked, Nat.not_lt]
  have hplace : ∀ f, f ∈ walk (Item.fixups base) {} song.bodySource ↔ ∃ p : song.Place,
      f ∈ walk (Item.fixups base) ((survey p.sourceBefore).run (p.event.rowMark p.channel p.row))
        (p.event.source p.channel) := by
    intro f
    rw [mem_walk_bodySource (targetsOnly_fixups base), InstrumentRecord.walk_fixups_sources]
    simp
  constructor
  · rintro ⟨f, hf, rfl, rfl⟩
    obtain ⟨hf, hnone⟩ := List.mem_filter.mp hf
    obtain ⟨p, hp⟩ := (hplace f).mp hf
    obtain ⟨hchannel, hcommand⟩ := Event.mem_walk_fixups.mp ⟨f, hp, rfl, rfl⟩
    rw [Fixup.label, ← hchannel, hmarks] at hnone
    exact ⟨p, hchannel, hcommand, hnone⟩
  · rintro ⟨p, rfl, hcommand, hle⟩
    obtain ⟨f, hf, hchannel, hrow⟩ := Event.mem_walk_fixups.mpr ⟨rfl, hcommand⟩
    refine ⟨f, List.mem_filter.mpr ⟨(hplace f).mpr ⟨p, hf⟩, ?_⟩, hchannel, hrow⟩
    rw [Fixup.label, hchannel, hrow, hmarks]
    exact hle

/-- A jump that is left is reported by its channel and row, the first one. -/
theorem Disciplined.compile_of_jumpsPast {song : Song} (h : song.Disciplined) {base : Nat}
    (hfits : ((base + song.bodySize : Nat) : Int) < Address.signedLimit) (limit : Nat) {c r : Nat}
    (hpast : song.JumpsPast c r) : ∃ channel row, song.JumpsPast channel row ∧
      song.compile base limit = .error (.unresolvedJump channel row) ∧
      ∀ c r, song.JumpsPast c r → channel < c ∨ (channel = c ∧ row ≤ r) := by
  obtain ⟨f, hf, -, -⟩ := h.exists_unresolved.mpr hpast
  obtain ⟨least, hmem, hresolve, hleast⟩ := Layout.resolve_of_ne_nil (List.ne_nil_of_mem hf)
  refine ⟨least.channel, least.row, h.exists_unresolved.mp ⟨least, hmem, rfl, rfl⟩, ?_, ?_⟩
  · apply eq_error_of_outcome
    rw [h.outcome_compile hfits, hresolve]
    rfl
  · intro c r hcr
    obtain ⟨g, hg, rfl, rfl⟩ := h.exists_unresolved.mpr hcr
    exact hleast g hg

theorem Disciplined.compile_of_not_jumpsPast {song : Song} (h : song.Disciplined) {base : Nat}
    (hfits : ((base + song.bodySize : Nat) : Int) < Address.signedLimit) (limit : Nat)
    (hpast : ∀ c r, ¬ song.JumpsPast c r) :
    outcome (song.compile base limit) = checkEnd (base + song.bodySize + 31) limit := by
  have hnil : song.unresolved base = [] := by
    rw [List.eq_nil_iff_forall_not_mem]
    intro f hf
    exact hpast _ _ (h.exists_unresolved.mp ⟨f, hf, rfl, rfl⟩)
  rw [h.outcome_compile hfits, hnil]
  rfl

end Song
end Chiptune
