/-
# The order of lists

The labels of lists rise along the source of a song: every list has an event
that leaves it, so that its code is not empty, and the next list starts behind
it (`Song.rising_source`).

Key definitions: `Item.listStart`, `ListsRise`.
Key theorems: `ListsRise.append`, `EventList.rising_source`, `Song.rising_source`,
`ListsRise.marks_lt`.
-/
import Chiptune.Proofs.LabelDiscipline
import Chiptune.Song.Listing

namespace Chiptune

open Listing (isList)

/-- The label of a list with its offset, where an item marks one. -/
def Item.listStart (s : Survey) : Item → List (Label × Nat)
  | .mark label => if isList label then [(label, s.offset)] else []
  | _ => []

theorem map_walk_listStart : ∀ (items : List Item) (s : Survey),
    (walk Item.listStart s items).map Prod.fst = (marked items).filter isList
  | [], _ => rfl
  | item :: items, s => by
    rw [walk_cons, List.map_append, map_walk_listStart items]
    cases item with
    | mark label =>
      rw [marked_mark, List.filter_cons, Item.listStart]
      split <;> rfl
    | _ => rfl

/-- Items that mark no list start none. -/
theorem walk_listStart_eq_nil {items : List Item} {s : Survey}
    (h : ∀ label ∈ marked items, isList label = false) : walk Item.listStart s items = [] := by
  have hmap := map_walk_listStart items s
  rw [List.filter_eq_nil_iff.mpr fun label hl => by simp [h label hl]] at hmap
  exact List.map_eq_nil_iff.mp hmap

theorem Survey.le_of_mem_listStart {items : List Item} {s : Survey} {x : Label × Nat}
    (h : x ∈ walk Item.listStart s items) : s.offset ≤ x.2 := by
  obtain ⟨as, item, bs, -, h⟩ := mem_walk.mp h
  cases item with
  | mark label =>
    rw [Item.listStart] at h
    split at h
    · rw [List.mem_singleton.mp h]
      exact s.offset_le_run as
    · cases h
  | _ => cases h

/-- A list that starts has the offset of its mark. -/
theorem Layout.Assembled.marks_of_mem_listStart {l : Layout} {items : List Item}
    (ha : l.Assembled items) {x : Label × Nat} (h : x ∈ walk Item.listStart {} items) :
    (survey items).marks x.1 = some x.2 := by
  obtain ⟨as, item, bs, hsplit, h⟩ := mem_walk.mp h
  cases item with
  | mark label =>
    rw [Item.listStart] at h
    split at h
    · rw [List.mem_singleton.mp h]
      exact ha.marks_eq hsplit
    · cases h
  | _ => cases h

/-! ### Lists that rise -/

/-- The lists of items start one behind the other, and before the end. -/
structure ListsRise (s : Survey) (items : List Item) : Prop where
  pairwise : (walk Item.listStart s items).Pairwise fun x y => x.2 < y.2
  lt_offset : ∀ x ∈ walk Item.listStart s items, x.2 < (s.run items).offset

namespace ListsRise

variable {s : Survey} {as bs items : List Item}

theorem of_marked (h : ∀ label ∈ marked items, isList label = false) : ListsRise s items := by
  have hnil := walk_listStart_eq_nil (s := s) h
  constructor
  · rw [hnil]
    exact List.Pairwise.nil
  · rw [hnil]
    intro x hx
    cases hx

theorem append (hx : ListsRise s as) (hy : ListsRise (s.run as) bs) : ListsRise s (as ++ bs) where
  pairwise := by
    rw [walk_append, List.pairwise_append]
    refine ⟨hx.pairwise, hy.pairwise, fun x h y h' => ?_⟩
    exact Nat.lt_of_lt_of_le (hx.lt_offset x h) (Survey.le_of_mem_listStart h')
  lt_offset := by
    rw [walk_append, Survey.run_append]
    refine List.forall_mem_append.mpr ⟨fun x h => ?_, hy.lt_offset⟩
    exact Nat.lt_of_lt_of_le (hx.lt_offset x h) (Survey.offset_le_run _ _)

/-- Labels of lists have rising offsets. -/
theorem marks_lt {l : Layout} (h : ListsRise {} items) (ha : l.Assembled items) :
    ((marked items).filter isList).Pairwise fun x y =>
      ∃ o o', (survey items).marks x = some o ∧ (survey items).marks y = some o' ∧ o < o' := by
  rw [← map_walk_listStart items {}, List.pairwise_map]
  refine h.pairwise.imp_of_mem fun hx hy hlt => ?_
  exact ⟨_, _, ha.marks_of_mem_listStart hx, ha.marks_of_mem_listStart hy, hlt⟩

end ListsRise

/-! ### The lists of a song -/

/-- An event of the list leaves it. -/
def EventList.Ends (list : EventList) : Prop := ∃ e ∈ list.events, e.command.endsList = true

theorem Event.offset_lt_run_source {event : Event} (h : event.command.endsList = true)
    (s : Survey) (channel : Nat) : s.offset < (s.run (event.source channel)).offset := by
  have hbytes : ∀ {i : Instruction}, event.source channel =
      [.bytes (Instruction.encodeAll (Instruction.waits event.timing ++ [i]))] →
      s.offset < (s.run (event.source channel)).offset := by
    intro i hsource
    rw [hsource]
    exact Nat.lt_add_of_pos_right (List.length_pos_iff.mpr
      (Instruction.encodeAll_ne_nil (List.mem_append_right _ (List.mem_singleton_self i))))
  obtain ⟨command, timing⟩ := event
  cases command with
  | positionJump row =>
    refine Nat.lt_of_le_of_lt (Nat.le_add_right _ _) (Nat.lt_add_of_pos_right ?_)
    rw [Item.size]
    split <;> exact Nat.succ_pos _
  | endList | returnFromSubPattern => exact hbytes rfl
  | _ => cases h

namespace EventList

variable {channel index : Nat} {list : EventList}

theorem isList_label : isList (list.label channel index) = true := by
  unfold label
  cases list.kind <;> rfl

theorem offset_lt_run_source (h : list.Ends) (s : Survey) :
    s.offset < (s.run (list.source channel index)).offset := by
  obtain ⟨e, he, hends⟩ := h
  obtain ⟨before, after, hsource⟩ : ∃ before after,
      list.source channel index = before ++ (e.source channel ++ after) := by
    obtain ⟨as, bs, hsplit⟩ := List.append_of_mem he
    rw [source, hsplit, Event.sourceAll_append, Event.sourceAll_cons, ← List.append_assoc,
      ← List.cons_append]
    exact ⟨_, _, rfl⟩
  rw [hsource, Survey.run_append, Survey.run_append]
  calc s.offset
      ≤ (s.run before).offset := Survey.offset_le_run _ _
    _ < ((s.run before).run (e.source channel)).offset := Event.offset_lt_run_source hends _ _
    _ ≤ _ := Survey.offset_le_run _ _

/-- A list starts once, and its code stands behind the start. -/
theorem rising_source (h : list.Ends) (s : Survey) : ListsRise s (list.source channel index) := by
  have hrows : ∀ label ∈ marked (Event.sourceAll channel 0 list.events), isList label = false := by
    rw [Event.marked_sourceAll]
    intro label hl
    obtain ⟨row, -, rfl⟩ := List.mem_map.mp hl
    rfl
  have hwalk : walk Item.listStart s (list.source channel index) =
      [(list.label channel index, s.offset)] := by
    rw [source, walk_cons, walk_listStart_eq_nil hrows, Item.listStart, if_pos isList_label]
    rfl
  constructor
  · rw [hwalk]
    exact List.pairwise_singleton _ _
  · rw [hwalk]
    exact List.forall_mem_singleton.mpr (offset_lt_run_source h s)

theorem rising_sourceAll : ∀ {lists : List EventList} (index : Nat) (s : Survey),
    (∀ list ∈ lists, list.Ends) → ListsRise s (sourceAll channel index lists)
  | [], _, _, _ => .of_marked fun label hl => by cases hl
  | list :: rest, index, s, h =>
    (rising_source (h list (List.mem_cons_self ..)) s).append
      (rising_sourceAll (index + 1) _ fun l hl => h l (List.mem_cons_of_mem _ hl))

end EventList

theorem ChannelTrack.rising_sourceAll : ∀ {tracks : List (Option ChannelTrack)} (channel : Nat)
    (s : Survey), (∀ track, some track ∈ tracks →
      (∀ list ∈ track.subPatterns, list.Ends) ∧ track.events.Ends) →
    ListsRise s (sourceAll channel tracks)
  | [], _, _, _ => .of_marked fun label hl => by cases hl
  | none :: rest, channel, s, h =>
    rising_sourceAll (channel + 1) s fun t ht => h t (List.mem_cons_of_mem _ ht)
  | some track :: rest, channel, s, h => by
    obtain ⟨hsub, hmain⟩ := h track (List.mem_cons_self ..)
    have htrack : ListsRise s (track.source channel) :=
      (EventList.rising_sourceAll 0 s hsub).append (EventList.rising_source hmain _)
    refine htrack.append ?_
    exact rising_sourceAll (channel + 1) _ fun t ht => h t (List.mem_cons_of_mem _ ht)

/-- **The lists of a song rise**, if all of them end. -/
theorem Song.rising_source {song : Song} (h : ∀ p : song.ListPlace, p.list.Ends) :
    ListsRise {} song.source := by
  have hbefore : ∀ label ∈ marked song.sourceBeforeLists, isList label = false := by
    intro label hl
    rw [sourceBeforeLists, sourceBeforeRecords, marked_append, marked_append,
      Table.marked_sourceAll, InstrumentRecord.marked_sources, List.append_nil] at hl
    rcases List.mem_append.mp hl with hl | hl
    · obtain ⟨index, -, rfl⟩ := List.mem_map.mp hl
      rfl
    · rw [List.mem_singleton.mp hl]
      rfl
  have hheader : ∀ label ∈ marked song.headerSource, isList label = false := by
    have hsource := marked_source song
    rw [source, marked_append, List.append_cancel_left_eq] at hsource
    rw [hsource]
    exact List.forall_mem_singleton.mpr rfl
  have htracks : ∀ track, some track ∈ song.channels.toList →
      (∀ list ∈ track.subPatterns, list.Ends) ∧ track.events.Ends := by
    intro track ht
    obtain ⟨channel, hc⟩ := List.getElem?_of_mem ht
    refine ⟨fun list hl => ?_, h ⟨channel, track, none, track.events, hc, rfl⟩⟩
    obtain ⟨index, hi⟩ := List.getElem?_of_mem hl
    exact h ⟨channel, track, some index, list, hc, hi⟩
  rw [source, bodySource_eq]
  exact ((ListsRise.of_marked hbefore).append (ChannelTrack.rising_sourceAll 0 _ htracks)).append
    (ListsRise.of_marked hheader)

end Chiptune
