/-
# When commands are placed

A list has no clock. Each of its events is followed by a number of ticks, and
what tells when a command is given is the sum of the ticks before it. A row
gives its commands when the rows before it have passed: its group of events
stands in the list where the ticks so far are those of the rows before
(`SubPattern.Schedule`). Within a group only the last event waits. A row
without commands adds its ticks to the event before it, whichever row that
came from, so the time of a group is found again only at the next group that
has commands.

Key definitions: `SubPattern.settingAt`, `SubPattern.Schedule`.
Key theorems: `SubPattern.Schedule.pass`, `SubPattern.Schedule.play`,
`SubPattern.schedule_walk`, `SubPattern.ofPattern_schedule`.
-/
import Chiptune.Proofs.PlayingTime

namespace Chiptune
namespace SubPattern

open Tracker

/-- What is set before a row, where `setting` is set before the first one. -/
def settingAt (channel : Nat) (setting : Setting) (rows : List Row) (i : Nat) : Setting :=
  (rows.take i).foldl (Setting.after (voiceKind channel)) setting

/-- What stands behind the commands of rows: a return, unless one of the rows
leaves the pattern. -/
def closing (rows : List Row) : List Event :=
  if rows.any leaves then [] else [⟨.returnFromSubPattern, 0⟩]

/-- The ticks of events. -/
def eventTicks (events : List Event) : Nat := (events.map Event.timing).sum

/-- Events that give the commands of rows in time. The rows begin with the one
at `index`, when `setting` is set and `elapsed` ticks have passed; there is a
group of events for each row that is played. -/
structure Schedule (channel : Nat) (time : TimeInfo) (index : Nat) (setting : Setting)
    (elapsed : Nat) (rows : List Row) (first : Event) (groups : List (List Event))
    (events : List Event) : Prop where
  rows_eq : groups.length = (playedRows rows).length
  events_eq : events = first :: (groups.flatten ++ closing rows)
  commands : ∀ {i : Nat} {row : Row} {group : List Event}, rows[i]? = some row →
    groups[i]? = some group →
    rowCommands channel (settingAt channel setting rows i) row = .ok (group.map Event.command)
  /-- A group begins when the rows before it have passed. -/
  starts : ∀ {i : Nat} {group : List Event}, groups[i]? = some group → group ≠ [] →
    eventTicks (first :: (groups.take i).flatten) = elapsed + rowsTicks time index i
  /-- Only the last event of a group waits. -/
  waits : ∀ group ∈ groups, ∀ e ∈ group.dropLast, e.timing = 0

@[simp] theorem eventTicks_cons (event : Event) (events : List Event) :
    eventTicks (event :: events) = event.timing + eventTicks events := by
  simp [eventTicks]

@[simp] theorem eventTicks_append (as bs : List Event) :
    eventTicks (as ++ bs) = eventTicks as + eventTicks bs := by
  simp [eventTicks]

/-- Commands that do not wait take no time. -/
@[simp] theorem eventTicks_commands (commands : List Command) :
    eventTicks (commands.map fun c => ⟨c, 0⟩) = 0 := by
  induction commands with
  | nil => rfl
  | cons command rest ih => rw [List.map_cons, eventTicks_cons, ih]

theorem playedRows_cons {row : Row} (h : leaves row = false) (rest : List Row) :
    playedRows (row :: rest) = row :: playedRows rest := by
  rw [playedRows, h]
  rfl

theorem closing_cons {row : Row} (h : leaves row = false) (rest : List Row) :
    closing (row :: rest) = closing rest := by
  rw [closing, closing, List.any_cons, h, Bool.false_or]

/-- The commands of a group are those it was made of. -/
theorem command_group (before : List Command) {command : Command} {last : Event}
    (h : last.command = command) :
    (before.map (fun c => (⟨c, 0⟩ : Event)) ++ [last]).map Event.command = before ++ [command] := by
  have hbefore : (before.map fun c => (⟨c, 0⟩ : Event)).map Event.command = before := by
    rw [List.map_map]
    exact List.map_id before
  rw [List.map_append, hbefore, List.map_singleton, h]

/-- All events of a group but the last one do not wait. -/
theorem timing_group (before : List Command) (last : Event) :
    ∀ e ∈ (before.map (fun c => (⟨c, 0⟩ : Event)) ++ [last]).dropLast, e.timing = 0 := by
  intro e he
  rw [List.dropLast_concat] at he
  obtain ⟨command, -, rfl⟩ := List.mem_map.mp he
  rfl

namespace Schedule

variable {channel index elapsed : Nat} {time : TimeInfo} {setting : Setting} {row : Row}
  {rest : List Row} {before : List Command} {command : Command} {last next : Event}
  {groups : List (List Event)} {events : List Event}

theorem nil : Schedule channel time index setting last.timing [] last []
    [last, ⟨.returnFromSubPattern, 0⟩] where
  rows_eq := rfl
  events_eq := rfl
  commands := by
    intro i row group hrow
    cases hrow
  starts := by
    intro i group hgroup
    cases hgroup
  waits := by
    intro group hgroup
    cases hgroup

/-- A row without commands lets its ticks pass. -/
theorem pass (hrow : rowCommands channel setting row = .ok []) (hstays : leaves row = false)
    (h : Schedule channel time (index + 1) (setting.after (voiceKind channel) row)
      (elapsed + rowTicks time index) rest last groups events) :
    Schedule channel time index setting elapsed (row :: rest) last ([] :: groups) events where
  rows_eq := by
    rw [playedRows_cons hstays, List.length_cons, List.length_cons, h.rows_eq]
  events_eq := by
    rw [closing_cons hstays, List.flatten_cons, List.nil_append]
    exact h.events_eq
  commands := by
    intro i r group hr hgroup
    cases i with
    | zero =>
      obtain rfl : row = r := Option.some.inj hr
      obtain rfl : [] = group := Option.some.inj hgroup
      exact hrow
    | succ i => exact h.commands hr hgroup
  starts := by
    intro i group hgroup hne
    cases i with
    | zero => exact absurd (Option.some.inj hgroup).symm hne
    | succ i =>
      have hstart := h.starts hgroup hne
      rwa [rowsTicks_succ, ← Nat.add_assoc]
  waits := by
    intro group hgroup e he
    rcases List.mem_cons.mp hgroup with rfl | hgroup
    · cases he
    · exact h.waits group hgroup e he

/-- A row with commands is due where the events before it end, and its last
event waits until the next row with commands. -/
theorem play (hrow : rowCommands channel setting row = .ok (before ++ [command]))
    (hstays : leaves row = false) (hnext : next.command = command)
    (h : Schedule channel time (index + 1) (setting.after (voiceKind channel) row)
      (rowTicks time index) rest next groups events) :
    Schedule channel time index setting last.timing (row :: rest) last
      ((before.map (fun c => ⟨c, 0⟩) ++ [next]) :: groups)
      (last :: before.map (fun c => ⟨c, 0⟩) ++ events) where
  rows_eq := by
    rw [playedRows_cons hstays, List.length_cons, List.length_cons, h.rows_eq]
  events_eq := by
    rw [closing_cons hstays, h.events_eq]
    simp
  commands := by
    intro i r group hr hgroup
    cases i with
    | zero =>
      obtain rfl : row = r := Option.some.inj hr
      obtain rfl := Option.some.inj hgroup
      rw [command_group before hnext]
      exact hrow
    | succ i => exact h.commands hr hgroup
  starts := by
    intro i group hgroup hne
    cases i with
    | zero => rfl
    | succ i =>
      have hstart := h.starts hgroup hne
      rw [eventTicks_cons] at hstart
      rw [rowsTicks_succ, List.take_succ_cons, List.flatten_cons, eventTicks_cons,
        eventTicks_append, eventTicks_append, eventTicks_commands, eventTicks_cons, ← hstart]
      simp [eventTicks]
  waits := by
    intro group hgroup
    rcases List.mem_cons.mp hgroup with rfl | hgroup
    · exact timing_group before next
    · exact h.waits group hgroup

/-- A row that leaves the pattern is the last one. -/
theorem leave (hrow : rowCommands channel setting row = .ok (before ++ [command]))
    (hleaves : leaves row = true) (hnext : next.command = command) :
    Schedule channel time index setting last.timing (row :: rest) last
      [before.map (fun c => ⟨c, 0⟩) ++ [next]]
      (last :: before.map (fun c => ⟨c, 0⟩) ++ [next]) where
  rows_eq := by rw [playedRows, if_pos hleaves, List.length_singleton, List.length_singleton]
  events_eq := by simp [closing, hleaves]
  commands := by
    intro i r group hr hgroup
    cases i with
    | zero =>
      obtain rfl : row = r := Option.some.inj hr
      obtain rfl := Option.some.inj hgroup
      rw [command_group before hnext]
      exact hrow
    | succ i => cases hgroup
  starts := by
    intro i group hgroup hne
    cases i with
    | zero => rfl
    | succ i => cases hgroup
  waits := by
    intro group hgroup
    rw [List.mem_singleton.mp hgroup]
    exact timing_group before next

end Schedule

/-- The events of rows give the commands of the rows in time. -/
theorem schedule_walk {channel : Nat} {time : TimeInfo} {c : Bool} : ∀ {rows : List Row}
    {index : Nat} {setting : Setting} {last : Event} {clamped : Bool} {events : List Event},
    walk channel time index setting last clamped rows = (.ok events, c) →
    ∃ ticks groups, Schedule channel time index setting last.timing rows ⟨last.command, ticks⟩
      groups events
  | [], index, setting, last, clamped, events, h => by
    obtain ⟨hevents, -⟩ := Prod.mk.inj h
    obtain rfl := Except.ok.inj hevents
    exact ⟨last.timing, [], .nil⟩
  | row :: rest, index, setting, last, clamped, events, h => by
    obtain ⟨commands, hcommands, hcase⟩ := walk_cons_eq_ok h
    rcases hcase with ⟨rfl, clamped', hrest⟩ | ⟨before, command, rfl, more, rfl, hmore⟩
    · obtain ⟨ticks, groups, hgroups⟩ := schedule_walk hrest
      have hstays : leaves row = false := (any_endsList_rowCommands hcommands).symm
      exact ⟨ticks, [] :: groups, .pass hcommands hstays hgroups⟩
    · refine ⟨last.timing, ?_⟩
      split at hmore
      · next hleaves =>
        subst hmore
        exact ⟨_, .leave hcommands hleaves rfl⟩
      · next hstays =>
        obtain ⟨clamped', hrest⟩ := hmore
        obtain ⟨ticks, groups, hgroups⟩ := schedule_walk hrest
        exact ⟨_, .play hcommands (by simpa using hstays) rfl hgroups⟩

/-- **Every command is given at the time of its row.** The list of a pattern
starts with a wait, the commands of its rows follow in order, each row's group
at the ticks of the rows before it, and all events together take the ticks of
the rows that are played. -/
theorem ofPattern_schedule {channel : Nat} {time : TimeInfo} {clamped : Bool} {pattern : Pattern}
    {list : EventList} (h : (ofPattern channel time clamped pattern).1 = .ok list) :
    ∃ ticks groups,
      Schedule channel time 0 {} 0 pattern.rows ⟨.wait, ticks⟩ groups list.events ∧
      eventTicks list.events = duration time 0 pattern.rows := by
  obtain ⟨events, hwalk, rfl⟩ := Except.map_eq_ok
    (walk channel time 0 {} ⟨.wait, 0⟩ clamped pattern.rows) (Prod.ext h rfl)
  obtain ⟨ticks, groups, hgroups⟩ := schedule_walk hwalk
  have htotal := sum_timing_walk hwalk
  rw [Nat.zero_add] at htotal
  exact ⟨ticks, groups, hgroups, htotal⟩

/-- A pattern with rows that repeat a volume, and with rows behind a jump. -/
def repeating : Pattern :=
  ⟨[{ volume := some 10 }, { volume := some 10 },
    { note := some 1, octave := some 4, instrument := some 2 },
    { effects := [⟨Effect.positionJump, some 0⟩] }, {}]⟩

/-- The second row of `repeating` gives no command and adds its ticks to the
first one; the last row is not played. -/
theorem ofPattern_schedule_repeating : ∃ ticks groups,
    (ofPattern 4 { evenTicks := 6, oddTicks := 5 } false repeating).1 =
      .ok ⟨.sub, [⟨.wait, 0⟩, ⟨.setVolume 160, 11⟩, ⟨.changeInstrument 2, 0⟩, ⟨.note 25, 6⟩,
        ⟨.positionJump 0, 5⟩]⟩ ∧
    Schedule 4 { evenTicks := 6, oddTicks := 5 } 0 {} 0 repeating.rows ⟨.wait, ticks⟩ groups
      [⟨.wait, 0⟩, ⟨.setVolume 160, 11⟩, ⟨.changeInstrument 2, 0⟩, ⟨.note 25, 6⟩,
        ⟨.positionJump 0, 5⟩] := by
  have hlist : (ofPattern 4 { evenTicks := 6, oddTicks := 5 } false repeating).1 =
      .ok ⟨.sub, [⟨.wait, 0⟩, ⟨.setVolume 160, 11⟩, ⟨.changeInstrument 2, 0⟩, ⟨.note 25, 6⟩,
        ⟨.positionJump 0, 5⟩]⟩ := rfl
  obtain ⟨ticks, groups, hgroups, -⟩ := ofPattern_schedule hlist
  exact ⟨ticks, groups, hlist, hgroups⟩

end SubPattern
end Chiptune
