/-
# The code of event lists

In the data of a song an event list is the code of its events, one behind the
other: the bodies of the events, and the jumps with the addresses of their
labels (`Event.resolved`). Position jumps have an absolute operand as long as
their rows are not marked before the end of the list; this holds of all
sub-patterns. The label of a list has the offset of its code.

Key definitions: `Event.decoded`, `Event.resolved`,
`Song.ListPlace.JumpsAhead`.
Key theorems: `Event.walk_emit_sourceAll`, `Song.ListPlace.marks_label`,
`Song.ListPlace.holds`.
-/
import Chiptune.Proofs.Rows

namespace Chiptune

namespace Event

variable {base channel : Nat} {marks : Label → Option Nat} {event : Event}

/-- The instructions of an event that plays no row, by the addresses of the
rows of the pattern matrix. -/
def decoded (rowAddress : Nat → UInt16) (event : Event) : List Instruction :=
  match event.command with
  | .positionJump row => event.body ++ [.positionJump (rowAddress row)]
  | _ => event.body

/-- The instructions of an event whose jumps are absolute. -/
def resolved (address : Label → UInt16) (channel : Nat) (event : Event) : List Instruction :=
  match event.command with
  | .jumpToSubPattern index =>
    event.body ++ [.jumpToSubPattern (address (.subPattern channel index))]
  | _ => event.decoded fun row => address (.matrixRow channel row)

/-- Only the rows matter that an event jumps to. -/
theorem decoded_congr {f g : Nat → UInt16}
    (h : ∀ row, event.command = .positionJump row → f row = g row) :
    event.decoded f = event.decoded g := by
  unfold decoded
  split
  · next row hrow => rw [h row hrow]
  · rfl

theorem resolved_eq_decoded {address : Label → UInt16}
    (h : Layout.playsRow event.command = false) :
    event.resolved address channel = event.decoded fun row => address (.matrixRow channel row) := by
  unfold resolved
  split
  · next index hindex =>
    rw [hindex] at h
    cases h
  · rfl

theorem canonical_of_mem_resolved {address : Label → UInt16} {i : Instruction}
    (h : i ∈ event.resolved address channel) : i.Canonical := by
  have hsnoc : ∀ {j : Instruction}, i ∈ event.body ++ [j] → j.Canonical → i.Canonical := by
    intro j hj hc
    rcases List.mem_append.mp hj with hj | hj
    · exact canonical_of_mem_body hj
    · exact List.mem_singleton.mp hj ▸ hc
  unfold resolved decoded at h
  split at h
  · exact hsnoc h trivial
  · split at h
    · exact hsnoc h trivial
    · exact canonical_of_mem_body h

/-- The code of an event that leaves its list ends the list. -/
theorem exists_endsList_resolved {address : Label → UInt16} (h : event.command.endsList = true) :
    ∃ i ∈ event.resolved address channel, i.endsList = true := by
  obtain ⟨command, timing⟩ := event
  cases command with
  | positionJump row =>
    exact ⟨.positionJump (address (.matrixRow channel row)), by simp [resolved, decoded], rfl⟩
  | endList => exact ⟨.endList, by simp [resolved, decoded, body], rfl⟩
  | returnFromSubPattern => exact ⟨.returnFromSubPattern, by simp [resolved, decoded, body], rfl⟩
  | _ => cases h

theorem canonical_of_mem_code {address : Label → UInt16} {events : List Event} :
    ∀ i ∈ events.flatMap (resolved address channel), i.Canonical := by
  intro i hi
  obtain ⟨e, -, hi⟩ := List.mem_flatMap.mp hi
  exact canonical_of_mem_resolved hi

theorem exists_endsList_code {address : Label → UInt16} {events : List Event}
    (h : ∃ e ∈ events, e.command.endsList = true) :
    ∃ i ∈ events.flatMap (resolved address channel), i.endsList = true := by
  obtain ⟨e, he, hends⟩ := h
  obtain ⟨i, hi, hends⟩ := exists_endsList_resolved hends
  exact ⟨i, List.mem_flatMap.mpr ⟨e, he, hi⟩, hends⟩

theorem walk_emit_source {s : Survey}
    (hfar : ∀ row, event.command = .positionJump row → s.marks (.matrixRow channel row) = none) :
    walk (Item.emit base marks) s (event.source channel) =
      Instruction.encodeAll (event.resolved (labelWord base marks) channel) := by
  obtain ⟨command, timing⟩ := event
  cases command with
  | jumpToSubPattern index =>
    simp only [source, resolved, walk_cons, walk_nil, Item.emit, Instruction.encodeAll_append,
      List.append_assoc, List.append_nil]
    rfl
  | positionJump row =>
    let t := s.step (.bytes (Instruction.encodeAll (Instruction.waits timing)))
    have hnear : t.near? (.matrixRow channel row) = none :=
      Survey.near?_eq_none_of_marks
        ((congrFun (Survey.step_marks rfl) _).trans (hfar row rfl))
    have hjump : (Item.jump channel row).emit base marks t =
        (Instruction.positionJump (labelWord base marks (.matrixRow channel row))).encode := by
      simp only [Item.emit, hnear]
      rfl
    rw [show source channel ⟨.positionJump row, timing⟩ =
      [.bytes (Instruction.encodeAll (Instruction.waits timing)), .jump channel row] from rfl,
      walk_cons, walk_cons, walk_nil, hjump, List.append_nil]
    simp [resolved, decoded, body, Item.emit]
  | _ => simp [source, resolved, decoded, Item.emit]

/-- Events become their code, one behind the other. -/
theorem walk_emit_sourceAll : ∀ {events : List Event} {s : Survey} {row : Nat},
    (∀ e ∈ events, ∀ r, e.command = .positionJump r →
      (s.run (sourceAll channel row events)).marks (.matrixRow channel r) = none) →
    walk (Item.emit base marks) s (sourceAll channel row events) =
      Instruction.encodeAll (events.flatMap (resolved (labelWord base marks) channel))
  | [], s, row, _ => rfl
  | event :: rest, s, row, h => by
    rw [sourceAll_cons] at h ⊢
    have hmark : walk (Item.emit base marks) s (event.rowMark channel row) = [] := by
      unfold rowMark
      split <;> rfl
    -- a row that is not marked behind the list is not marked before either
    have hbefore : ∀ r, event.command = .positionJump r →
        (s.run (event.rowMark channel row)).marks (.matrixRow channel r) = none := by
      intro r hr
      have hnone := h event (List.mem_cons_self ..) r hr
      rw [Survey.run_append] at hnone
      exact (Survey.run_marks_eq_none.mp hnone).1
    have hrest : ∀ e ∈ rest, ∀ r, e.command = .positionJump r →
        (((s.run (event.rowMark channel row)).run (event.source channel)).run
          (sourceAll channel (row + rowCount [event]) rest)).marks (.matrixRow channel r) = none := by
      intro e he r hr
      have hnone := h e (List.mem_cons_of_mem _ he) r hr
      rwa [Survey.run_append, Survey.run_append] at hnone
    rw [walk_append, hmark, List.nil_append, walk_append, walk_emit_source hbefore,
      walk_emit_sourceAll hrest, List.flatMap_cons, Instruction.encodeAll_append]

end Event

/-! ### Lists of a song -/

/-- The address of a label in the data of a song at `base`. -/
def Song.addressAt (song : Song) (base : Nat) : Label → UInt16 :=
  labelWord base (survey song.source).marks

/-- A label has the offset of its mark. -/
theorem Layout.Assembled.marks_eq {l : Layout} {items as bs : List Item} {label : Label}
    (ha : l.Assembled items) (h : items = as ++ .mark label :: bs) :
    (survey items).marks label = some (survey as).offset := by
  have hnew : .mark label ∉ as := by
    intro hm
    have hnodup := ha.nodup
    rw [h, List.filterMap_append, List.nodup_append] at hnodup
    exact hnodup.2.2 label (List.mem_filterMap.mpr ⟨_, hm, rfl⟩) label (List.mem_cons_self ..) rfl
  rw [h]
  exact Survey.run_mark rfl hnew

namespace Song.ListPlace

variable {song : Song} {l : Layout}

theorem source_eq_mark (p : song.ListPlace) : ∃ after, song.source =
    p.sourceBefore ++ .mark p.label :: (Event.sourceAll p.channel 0 p.list.events ++ after) := by
  obtain ⟨after, h⟩ := p.source_eq
  exact ⟨after, h⟩

/-- The label of a list has the offset of the list. -/
theorem marks_label (p : song.ListPlace) (ha : l.Assembled song.source) :
    (survey song.source).marks p.label = some (survey p.sourceBefore).offset := by
  obtain ⟨after, hsource⟩ := p.source_eq_mark
  exact ha.marks_eq hsource

/-- The position jumps of a list lead to rows that are not marked up to its
end. -/
def JumpsAhead (p : song.ListPlace) : Prop :=
  ∀ e ∈ p.list.events, ∀ r, e.command = .positionJump r →
    .mark (.matrixRow p.channel r) ∉ p.sourceBefore ++ p.list.source p.channel (p.which.getD 0)

theorem jumpsAhead_of_ne (p : song.ListPlace)
    (h : ∀ e ∈ p.list.events, ∀ r, e.command ≠ .positionJump r) : p.JumpsAhead :=
  fun e he r hr => absurd hr (h e he r)

/-- All position jumps of a list without rows lead ahead, if only main lists
play rows. -/
theorem jumpsAhead_of_playsRow (p : song.ListPlace) (hrows : song.RowsInMain)
    (h : ∀ e ∈ p.list.events, Layout.playsRow e.command = false) : p.JumpsAhead := by
  intro e _ r _ hm
  rcases List.mem_append.mp hm with hm | hm
  · exact p.mark_notMem_sourceBefore hrows hm
  · have hlt := (EventList.mark_mem_source.mp hm).2
    rw [Event.rowCount_eq_zero h] at hlt
    exact Nat.not_lt_zero r hlt

/-- A list whose position jumps lead ahead becomes the code of its events. -/
theorem walk_emit_source (p : song.ListPlace) (hahead : p.JumpsAhead) (base : Nat)
    (marks : Label → Option Nat) :
    walk (Item.emit base marks) (survey p.sourceBefore)
        (p.list.source p.channel (p.which.getD 0)) =
      Instruction.encodeAll
        (p.list.events.flatMap (Event.resolved (labelWord base marks) p.channel)) := by
  have hnone : ∀ e ∈ p.list.events, ∀ r, e.command = .positionJump r →
      (((survey p.sourceBefore).step (.mark p.label)).run
        (Event.sourceAll p.channel 0 p.list.events)).marks (.matrixRow p.channel r) = none := by
    intro e he r hr
    have hnew := Survey.run_marks_eq_none.mpr
      ⟨(rfl : ({} : Survey).marks (.matrixRow p.channel r) = none), hahead e he r hr⟩
    rwa [Survey.run_append] at hnew
  rw [EventList.source, walk_cons, ← Event.walk_emit_sourceAll hnone]
  rfl

/-- **The data hold the code of each list** whose position jumps lead ahead. -/
theorem holds (p : song.ListPlace) (ha : l.Assembled song.source) (hahead : p.JumpsAhead) :
    Reader.Holds l.bytes (survey p.sourceBefore).offset (Instruction.encodeAll
      (p.list.events.flatMap (Event.resolved (song.addressAt l.base) p.channel))) := by
  obtain ⟨after, hsource⟩ := p.source_eq
  rw [addressAt, ← p.walk_emit_source hahead]
  exact ha.holds hsource

end Song.ListPlace

/-- An event of a list without position jumps stands behind the code of the
events before it. -/
theorem Song.Place.offset_eq {song : Song} (p : song.Place) (base : Nat)
    (hjump : ∀ e ∈ p.list.events, ∀ r, e.command ≠ .positionJump r) :
    (survey p.sourceBefore).offset = (survey p.toListPlace.sourceBefore).offset +
      (Instruction.encodeAll
        (p.eventsBefore.flatMap (Event.resolved (song.addressAt base) p.channel))).length := by
  let s := (survey p.toListPlace.sourceBefore).step (.mark p.label)
  have hnone : ∀ e ∈ p.eventsBefore, ∀ r, e.command = .positionJump r →
      (s.run (Event.sourceAll p.channel 0 p.eventsBefore)).marks (.matrixRow p.channel r) = none :=
    fun e he r hr => absurd hr (hjump e (List.mem_of_mem_take he) r)
  have hlen := length_walk_emit base (survey song.source).marks s
    (Event.sourceAll p.channel 0 p.eventsBefore)
  rw [Event.walk_emit_sourceAll hnone] at hlen
  rw [sourceBefore, survey_append, Survey.run_cons]
  exact hlen.symm
end Chiptune
