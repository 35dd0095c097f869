/-
# What a channel is set to

The driver keeps the volume and the instrument of a channel until a command
changes them (`ChannelState.run`). A pattern gives such a command only in a row
with another value than the last one before it, so how a channel is set at a row
depends on all commands up to there. When the note of a row is due, the channel
is set to the last volume and the last instrument of the rows through this one,
as if every row had given its own (`SubPattern.ofPattern_tracks`). A channel
that was set before the pattern keeps what the rows do not give, and ADPCM-A
channels always keep their instrument.

Behind a row, what it has set for the rows that follow (`Setting`) and what its
commands have set on the channel agree, whatever the channel was set to before
the pattern (`Setting.onto`). This is kept by each row (`SubPattern.run_row`).

Key definitions: `ChannelState.run`, `SubPattern.lastGiven`, `Setting.onto`,
`SubPattern.Tracks`.
Key theorems: `SubPattern.run_row`, `SubPattern.Schedule.run_groups`,
`SubPattern.ofPattern_tracks`.
-/
import Chiptune.Proofs.Schedule
import Mathlib.Data.List.Induction

namespace Chiptune

open Tracker

/-! ### Channels of the driver -/

/-- Whether a command sets the volume or the instrument of its channel. -/
def Command.sets : Command → Bool
  | .setVolume _ => true
  | .changeInstrument _ => true
  | _ => false

/-- The pitch of a note. -/
def Command.pitch? : Command → Option UInt8
  | .note pitch => some pitch
  | _ => none

/-- What a channel is set to. -/
structure ChannelState where
  volume : Option UInt8 := none
  instrument : Option UInt8 := none
  deriving DecidableEq, Repr

namespace ChannelState

/-- What a channel is set to after a command. -/
def step (state : ChannelState) : Command → ChannelState
  | .setVolume volume => { state with volume := some volume }
  | .changeInstrument instrument => { state with instrument := some instrument }
  | _ => state

/-- What a channel is set to after commands. -/
def run (state : ChannelState) (commands : List Command) : ChannelState := commands.foldl step state

@[simp] theorem run_nil (state : ChannelState) : state.run [] = state := rfl

@[simp] theorem run_singleton (state : ChannelState) (command : Command) :
    state.run [command] = state.step command := rfl

@[simp] theorem run_append (state : ChannelState) (as bs : List Command) :
    state.run (as ++ bs) = (state.run as).run bs := List.foldl_append

theorem step_of_sets {command : Command} (state : ChannelState) (h : command.sets = false) :
    state.step command = state := by
  cases command with
  | setVolume | changeInstrument => cases h
  | _ => rfl

theorem run_of_sets {commands : List Command} (state : ChannelState)
    (h : ∀ command ∈ commands, command.sets = false) : state.run commands = state := by
  induction commands with
  | nil => rfl
  | cons command rest ih =>
    obtain ⟨hcommand, hrest⟩ := List.forall_mem_cons.mp h
    show (state.step command).run rest = state
    rw [step_of_sets state hcommand, ih hrest]

end ChannelState

namespace SubPattern

/-! ### What rows give -/

/-- The last value that items give. -/
def lastGiven {α : Type} (value? : α → Option UInt8) (items : List α) : Option UInt8 :=
  (items.filterMap value?).getLast?

section Given

variable {α : Type} (value? : α → Option UInt8)

@[simp] theorem lastGiven_nil : lastGiven value? [] = none := rfl

theorem lastGiven_append (as bs : List α) :
    lastGiven value? (as ++ bs) = (lastGiven value? bs).or (lastGiven value? as) := by
  simp [lastGiven, List.getLast?_append]

theorem lastGiven_snoc (items : List α) (item : α) :
    lastGiven value? (items ++ [item]) = (value? item).or (lastGiven value? items) := by
  rw [lastGiven_append]
  cases h : value? item <;> simp [lastGiven, h]

end Given

/-- What a channel is set to by rows, if it was set to `start` before them: what
they give last. -/
def givenState (kind : VoiceKind) (rows : List Row) (start : ChannelState) : ChannelState where
  volume := ((lastGiven Row.volume rows).map kind.volume).or start.volume
  instrument := (if kind = .adpcmA then none else lastGiven Row.instrument rows).or start.instrument

/-- What every row keeps holds of what is set after any number of rows. -/
theorem settingAt_induction {channel : Nat} {P : Setting → List Row → Prop} (hnil : P {} [])
    (hrow : ∀ {setting rows}, P setting rows → ∀ row,
      P (setting.after (voiceKind channel) row) (rows ++ [row])) (rows : List Row) (i : Nat) :
    P (settingAt channel {} rows i) (rows.take i) := by
  unfold settingAt
  induction rows.take i using List.reverseRecOn with
  | nil => exact hnil
  | append_singleton rows row ih =>
    rw [List.foldl_append]
    exact hrow ih row

theorem volume_settingAt (channel : Nat) (rows : List Row) (i : Nat) :
    (settingAt channel {} rows i).volume = lastGiven Row.volume (rows.take i) := by
  refine settingAt_induction (P := fun s rows => s.volume = lastGiven Row.volume rows) rfl ?_ rows i
  intro setting rows ih row
  rw [lastGiven_snoc, ← ih]
  rfl

theorem instrument_settingAt (channel : Nat) (rows : List Row) (i : Nat) :
    (settingAt channel {} rows i).instrument =
      if voiceKind channel = .adpcmA then none else lastGiven Row.instrument (rows.take i) := by
  refine settingAt_induction (P := fun s rows => s.instrument =
    if voiceKind channel = .adpcmA then none else lastGiven Row.instrument rows) (by simp) ?_ rows i
  intro setting rows ih row
  rw [lastGiven_snoc]
  show (if voiceKind channel = .adpcmA then _ else _) = _
  split
  · next hkind => rw [ih, if_pos hkind]
  · next hkind => rw [ih, if_neg hkind]

/-! ### Commands of a row -/

/-- What a channel is set to where rows have set `setting`, if it was set to
`start` before them. -/
def Setting.onto (kind : VoiceKind) (setting : Setting) (start : ChannelState) : ChannelState where
  volume := (setting.volume.map kind.volume).or start.volume
  instrument := setting.instrument.or start.instrument

theorem run_volumeCommand (kind : VoiceKind) (setting : Setting) (start : ChannelState) (row : Row) :
    (setting.onto kind start).run (volumeCommand kind setting row) =
      Setting.onto kind { setting with volume := row.volume.or setting.volume } start := by
  unfold volumeCommand
  split
  · next hrow => rw [hrow]; rfl
  · next volume hrow =>
    rw [hrow]
    split
    · next hsame => rw [← hsame]; simp
    · rfl

theorem run_instrumentCommand (kind : VoiceKind) (setting : Setting) (start : ChannelState)
    (row : Row) : (setting.onto kind start).run (instrumentCommand kind setting row) =
      Setting.onto kind { setting with instrument :=
        if kind = .adpcmA then setting.instrument else row.instrument.or setting.instrument } start := by
  unfold instrumentCommand
  split
  · next hrow => rw [hrow]; simp
  · next instrument hrow =>
    rw [hrow]
    split
    · next hkeeps =>
      -- nothing is given, because it is set already or the channel keeps its own
      rcases hkeeps with hsame | hkind
      · rw [← hsame]; simp
      · simp [hkind]
    · next hnew =>
      rw [not_or] at hnew
      simp [hnew.2, Setting.onto, ChannelState.step]

theorem mem_volumeCommand {kind : VoiceKind} {setting : Setting} {row : Row} {command : Command} :
    command ∈ volumeCommand kind setting row ↔ ∃ volume, row.volume = some volume ∧
      setting.volume ≠ some volume ∧ command = .setVolume (kind.volume volume) := by
  unfold volumeCommand
  split
  · next hrow => simp [hrow]
  · next volume hrow => simp [hrow]

theorem mem_instrumentCommand {kind : VoiceKind} {setting : Setting} {row : Row}
    {command : Command} : command ∈ instrumentCommand kind setting row ↔
      ∃ instrument, kind ≠ .adpcmA ∧ row.instrument = some instrument ∧
        setting.instrument ≠ some instrument ∧ command = .changeInstrument instrument := by
  unfold instrumentCommand
  split
  · next hrow => simp [hrow]
  · next instrument hrow =>
    split
    · next hkeeps => grind
    · next hnew => grind

section Row

variable {channel : Nat} {setting : Setting} {row : Row} {cs : List Command}

theorem mem_noteCommand {bank : UInt8} {command : Command}
    (h : noteCommand channel bank row = .ok cs) (hc : command ∈ cs) : ∃ pitch, command = .note pitch := by
  unfold noteCommand at h
  split at h
  · obtain rfl := Except.ok.inj h
    cases hc
  · split at h
    · cases h
    · next pitch _ =>
      obtain rfl := Except.ok.inj h
      exact ⟨pitch, List.mem_singleton.mp hc⟩

theorem sets_effectCommands {effects : List Effect} (h : effectCommands channel effects = .ok cs) :
    ∀ command ∈ cs, command.sets = false ∧ command.pitch? = none := by
  intro command hc
  obtain ⟨fx, -, value, -, hcommand⟩ := mem_effectCommands h command hc
  unfold effectCommand? at hcommand
  repeat' split at hcommand
  all_goals cases hcommand <;> exact ⟨rfl, rfl⟩

/-- The commands of a row, in order. -/
theorem rowCommands_parts (h : rowCommands channel setting row = .ok cs) : ∃ note effects,
    noteCommand channel (bankAfter setting.bank row.effects) row = .ok note ∧
    effectCommands channel row.effects = .ok effects ∧
    cs = (if row.isNoteOff then [.noteOff] else []) ++ volumeCommand (voiceKind channel) setting row
      ++ instrumentCommand (voiceKind channel) setting row ++ note ++ effects := by
  obtain ⟨note, hnote, h⟩ := Except.bind_eq_ok h
  obtain ⟨effects, heffects, h⟩ := Except.bind_eq_ok h
  exact ⟨note, effects, hnote, heffects, (Except.ok.inj h).symm⟩

/-- What a row does before its note. -/
theorem pitch?_of_mem_first {command : Command} (h : command ∈
    (if row.isNoteOff then [.noteOff] else []) ++ volumeCommand (voiceKind channel) setting row
      ++ instrumentCommand (voiceKind channel) setting row) : command.pitch? = none := by
  simp only [List.mem_append] at h
  rcases h with (h | h) | h
  · split at h
    · rw [List.mem_singleton.mp h]
      rfl
    · cases h
  · obtain ⟨volume, -, -, rfl⟩ := mem_volumeCommand.mp h
    rfl
  · obtain ⟨instrument, -, -, -, rfl⟩ := mem_instrumentCommand.mp h
    rfl

/-- **A row keeps its channel in step**: before its note, its commands set what
the rows behind it take as set. Its note and its effects set nothing. -/
theorem run_row (h : rowCommands channel setting row = .ok cs) : ∃ first rest, cs = first ++ rest ∧
    (∀ command ∈ first, command.pitch? = none) ∧ (∀ command ∈ rest, command.sets = false) ∧
    ∀ start, (setting.onto (voiceKind channel) start).run first =
      (setting.after (voiceKind channel) row).onto (voiceKind channel) start := by
  obtain ⟨note, effects, hnote, heffects, rfl⟩ := rowCommands_parts h
  refine ⟨_, note ++ effects, List.append_assoc .., fun _ => pitch?_of_mem_first,
    fun command hc => ?_, fun start => ?_⟩
  · rcases List.mem_append.mp hc with hc | hc
    · obtain ⟨pitch, rfl⟩ := mem_noteCommand hnote hc
      rfl
    · exact (sets_effectCommands heffects command hc).1
  · have hoff : (setting.onto (voiceKind channel) start).run
        (if row.isNoteOff then [.noteOff] else []) = setting.onto (voiceKind channel) start := by
      split <;> rfl
    rw [ChannelState.run_append, ChannelState.run_append, hoff, run_volumeCommand]
    exact run_instrumentCommand (voiceKind channel)
      { setting with volume := row.volume.or setting.volume } start row

/-- The commands of a row that set something are those for its volume and its
instrument. -/
theorem mem_rowCommands_of_sets (h : rowCommands channel setting row = .ok cs) {command : Command}
    (hsets : command.sets = true) : command ∈ cs ↔
      command ∈ volumeCommand (voiceKind channel) setting row ∨
        command ∈ instrumentCommand (voiceKind channel) setting row := by
  obtain ⟨note, effects, hnote, heffects, rfl⟩ := rowCommands_parts h
  have hoff : command ∉ (if row.isNoteOff then [.noteOff] else [] : List Command) := by
    intro hc
    split at hc
    · rw [List.mem_singleton.mp hc] at hsets
      cases hsets
    · cases hc
  have hnotes : command ∉ note := by
    intro hc
    obtain ⟨pitch, rfl⟩ := mem_noteCommand hnote hc
    cases hsets
  have heffect : command ∉ effects := by
    intro hc
    rw [(sets_effectCommands heffects command hc).1] at hsets
    cases hsets
  simp [hoff, hnotes, heffect]

theorem setVolume_mem_rowCommands (h : rowCommands channel setting row = .ok cs) {x : UInt8} :
    .setVolume x ∈ cs ↔ ∃ volume, row.volume = some volume ∧ setting.volume ≠ some volume ∧
      x = (voiceKind channel).volume volume := by
  rw [mem_rowCommands_of_sets h rfl, mem_volumeCommand, mem_instrumentCommand]
  simp

theorem changeInstrument_mem_rowCommands (h : rowCommands channel setting row = .ok cs) {n : UInt8} :
    .changeInstrument n ∈ cs ↔ voiceKind channel ≠ .adpcmA ∧ row.instrument = some n ∧
      setting.instrument ≠ some n := by
  rw [mem_rowCommands_of_sets h rfl, mem_volumeCommand, mem_instrumentCommand]
  simp

/-- ADPCM-A channels keep their instrument. -/
theorem ne_changeInstrument_rowCommands (hkind : voiceKind channel = .adpcmA)
    (h : rowCommands channel setting row = .ok cs) :
    ∀ command ∈ cs, ∀ n, command ≠ .changeInstrument n := by
  rintro _ hc n rfl
  exact ((changeInstrument_mem_rowCommands h).mp hc).1 hkind

end Row

/-! ### Rows of a pattern -/

theorem settingAt_succ {channel i : Nat} {setting : Setting} {rows : List Row} {row : Row}
    (h : rows[i]? = some row) : settingAt channel setting rows (i + 1) =
      (settingAt channel setting rows i).after (voiceKind channel) row := by
  rw [settingAt, List.take_add_one, h, List.foldl_append]
  rfl

theorem length_playedRows_le (rows : List Row) : (playedRows rows).length ≤ rows.length := by
  induction rows with
  | nil => exact Nat.le_refl _
  | cons row rest ih =>
    rw [playedRows]
    split
    · simp
    · simpa using ih

section Groups

variable {channel index elapsed : Nat} {time : TimeInfo} {setting : Setting} {rows : List Row}
  {first : Event} {groups : List (List Event)} {events : List Event}

/-- Each group is that of a row. -/
theorem Schedule.exists_row (h : Schedule channel time index setting elapsed rows first groups events)
    {i : Nat} (hi : i < groups.length) : ∃ row group, rows[i]? = some row ∧ groups[i]? = some group ∧
      rowCommands channel (settingAt channel setting rows i) row = .ok (group.map Event.command) := by
  have hrows : i < rows.length := by
    have hle := length_playedRows_le rows
    have hlen := h.rows_eq
    omega
  have hrow := List.getElem?_eq_getElem hrows
  have hgroup := List.getElem?_eq_getElem hi
  exact ⟨rows[i], groups[i], hrow, hgroup, h.commands hrow hgroup⟩

/-- Before each group, the channel is in step with the rows so far. -/
theorem Schedule.run_groups
    (h : Schedule channel time index setting elapsed rows first groups events)
    (hfirst : first.command.sets = false) (start : ChannelState) : ∀ {i : Nat}, i ≤ groups.length →
    (setting.onto (voiceKind channel) start).run
        (first.command :: (groups.take i).flatten.map Event.command) =
      (settingAt channel setting rows i).onto (voiceKind channel) start
  | 0, _ => ChannelState.step_of_sets _ hfirst
  | i + 1, hi => by
    obtain ⟨row, group, hrow, hgroup, hcommands⟩ := h.exists_row hi
    obtain ⟨before, rest, hcs, -, hrest, hrun⟩ := run_row hcommands
    rw [List.take_add_one, hgroup, List.flatten_append, List.map_append, ← List.cons_append,
      ChannelState.run_append, h.run_groups hfirst start (Nat.le_of_lt hi), settingAt_succ hrow]
    show ChannelState.run _ ((group ++ []).map Event.command) = _
    -- the note and the effects of the row leave the channel as the row has set it
    rw [List.append_nil, hcs, ChannelState.run_append, hrun, ChannelState.run_of_sets _ hrest]

/-- The row with an index, with the commands `group` behind the commands
`before`, keeps a channel in step with the rows. -/
structure Tracks (kind : VoiceKind) (rows : List Row) (i : Nat) (row : Row)
    (before group : List Command) : Prop where
  /-- Behind the commands that set something, and before the note, the channel is
  set to what is given last. -/
  settled : ∃ first rest, group = first ++ rest ∧ (∀ command ∈ first, command.pitch? = none) ∧
    (∀ command ∈ rest, command.sets = false) ∧
    ∀ start : ChannelState, start.run (before ++ first) = givenState kind (rows.take (i + 1)) start
  /-- Only another volume than the last one is set. -/
  volume : ∀ x, .setVolume x ∈ group ↔ ∃ volume, row.volume = some volume ∧
    lastGiven Row.volume (rows.take i) ≠ some volume ∧ x = kind.volume volume
  instrument : ∀ n, .changeInstrument n ∈ group ↔ kind ≠ .adpcmA ∧ row.instrument = some n ∧
    lastGiven Row.instrument (rows.take i) ≠ some n

theorem Schedule.tracks (h : Schedule channel time index {} elapsed rows first groups events)
    (hfirst : first.command.sets = false) {i : Nat} {row : Row} {group : List Event}
    (hrow : rows[i]? = some row) (hgroup : groups[i]? = some group) :
    Tracks (voiceKind channel) rows i row
      (first.command :: (groups.take i).flatten.map Event.command) (group.map Event.command) := by
  have hcommands := h.commands hrow hgroup
  refine ⟨?_, fun x => ?_, fun n => ?_⟩
  · obtain ⟨before, rest, hcs, hbefore, hrest, hrun⟩ := run_row hcommands
    refine ⟨before, rest, hcs, hbefore, hrest, fun start => ?_⟩
    have hle : i ≤ groups.length := Nat.le_of_lt (List.getElem?_eq_some_iff.mp hgroup).1
    have hstart : Setting.onto (voiceKind channel) {} start = start := by simp [Setting.onto]
    have hgroups := h.run_groups hfirst start hle
    rw [hstart] at hgroups
    rw [ChannelState.run_append, hgroups, hrun, ← settingAt_succ hrow, Setting.onto, givenState,
      volume_settingAt, instrument_settingAt]
  · rw [setVolume_mem_rowCommands hcommands, volume_settingAt]
  · rw [changeInstrument_mem_rowCommands hcommands, instrument_settingAt]
    refine and_congr_right fun hkind => ?_
    rw [if_neg hkind]

end Groups

/-- **Leaving out what repeats keeps every channel in step.** At each row that is
played, the commands so far set what the rows so far give last, and a row sets
only what differs from that. ADPCM-A channels keep their instrument. -/
theorem ofPattern_tracks {channel : Nat} {time : TimeInfo} {clamped : Bool} {pattern : Pattern}
    {list : EventList} (h : (ofPattern channel time clamped pattern).1 = .ok list) :
    ∃ ticks groups,
      Schedule channel time 0 {} 0 pattern.rows ⟨.wait, ticks⟩ groups list.events ∧
      (∀ i row group, pattern.rows[i]? = some row → groups[i]? = some group →
        Tracks (voiceKind channel) pattern.rows i row
          (.wait :: (groups.take i).flatten.map Event.command) (group.map Event.command)) ∧
      (voiceKind channel = .adpcmA → ∀ e ∈ list.events, ∀ n, e.command ≠ .changeInstrument n) := by
  obtain ⟨events, hwalk, rfl⟩ := Except.map_eq_ok
    (walk channel time 0 {} ⟨.wait, 0⟩ clamped pattern.rows) (Prod.ext h rfl)
  obtain ⟨ticks, groups, hgroups⟩ := schedule_walk hwalk
  refine ⟨ticks, groups, hgroups, fun i row group hrow hgroup => hgroups.tracks rfl hrow hgroup,
    fun hkind => ?_⟩
  exact forall_mem_walk (ne_changeInstrument_rowCommands hkind) (by simp) hwalk (by simp)

/-- In `repeating`, the note of the third row sounds with the volume of the first
one and the instrument of its own. -/
theorem ofPattern_tracks_repeating : ∃ ticks groups list,
    (ofPattern 4 {} false repeating).1 = .ok list ∧
    Schedule 4 {} 0 {} 0 repeating.rows ⟨.wait, ticks⟩ groups list.events ∧
    ∃ group first rest, groups[2]? = some group ∧ group.map Event.command = first ++ rest ∧
      .note 25 ∈ rest ∧
      ChannelState.run {} (.wait :: (groups.take 2).flatten.map Event.command ++ first) =
        ⟨some 160, some 2⟩ := by
  obtain ⟨list, hlist⟩ : ∃ list, (ofPattern 4 {} false repeating).1 = .ok list :=
    Except.exists_of_isOk rfl
  obtain ⟨ticks, groups, hgroups, htracks, -⟩ := ofPattern_tracks hlist
  have hlen : 2 < groups.length := hgroups.rows_eq ▸ (by decide : 2 < (playedRows repeating.rows).length)
  obtain ⟨row, group, hrow, hgroup, hcommands⟩ := hgroups.exists_row hlen
  obtain ⟨first, rest, hcs, hfirst, -, hrun⟩ := (htracks 2 row group hrow hgroup).settled
  refine ⟨ticks, groups, list, hlist, hgroups, group, first, rest, hgroup, hcs, ?_, hrun {}⟩
  obtain rfl := Option.some.inj hrow
  have hplayed : group.map Event.command = [.changeInstrument 2, .note 25] :=
    (Except.ok.inj hcommands).symm
  have hnote : .note 25 ∈ first ++ rest := by simp [← hcs, hplayed]
  rcases List.mem_append.mp hnote with hc | hc
  · cases hfirst _ hc
  · exact hc

end SubPattern
end Chiptune
