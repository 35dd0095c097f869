/-
# Notes below the range of a channel

SSG channels begin at octave 2, and a lower note is played as the lowest one. A
song tells whether this happened. It is told by rows, in the conversion of each
pattern, and handed on from pattern to pattern and from channel to channel. In
the end it is told exactly if a row with such a note is played: in an SSG
channel, in a pattern of its column, before the rows behind a position jump. And
each such row plays the lowest note (`Song.ofModule_clamped`).

Key definitions: `SubPattern.BelowRange`, `Song.LowRow`, `Song.PlaysLowest`.
Key theorems: `SubPattern.clamps_iff`, `SubPattern.snd_walk`,
`Song.clamped_convertPatterns`, `Song.clamped_iff`, `Song.ofModule_clamped`.
-/
import Chiptune.Proofs.AcceptedRows
import Chiptune.Proofs.Deduplication

namespace Chiptune

open Tracker

namespace SubPattern

/-! ### Rows -/

/-- A row plays a note below the range of SSG channels. -/
def BelowRange (row : Row) : Prop :=
  ∃ note octave, Plays row note octave ∧ soundingOctave note octave < VoiceKind.lowestOctave

theorem note?_of_low {note octave : UInt8}
    (h : soundingOctave note octave < VoiceKind.lowestOctave) :
    VoiceKind.note? .ssg note octave = some ⟨0, true⟩ := by
  have hlt : soundingOctave note octave < 256 := Nat.lt_trans h (by decide)
  rw [note?_eq, if_pos hlt]
  exact if_pos h

theorem clamped_exactNote? {value : Nat} {converted : DriverNote}
    (h : VoiceKind.exactNote? value = some converted) : converted.clamped = false := by
  unfold VoiceKind.exactNote? at h
  split at h
  · rw [← Option.some.inj h]
  · cases h

/-- Only low notes of SSG channels are clamped. -/
theorem clamped_note? {kind : VoiceKind} {note octave : UInt8} {converted : DriverNote}
    (h : kind.note? note octave = some converted) : converted.clamped = true ↔
      kind = .ssg ∧ soundingOctave note octave < VoiceKind.lowestOctave := by
  rw [note?_eq] at h
  split at h
  · cases kind with
    | fm | adpcmA => simp [clamped_exactNote? h]
    | ssg =>
      unfold VoiceKind.plainNote? at h
      by_cases hlow : soundingOctave note octave < VoiceKind.lowestOctave
      · rw [if_pos hlow] at h
        simp [← Option.some.inj h, hlow]
      · rw [if_neg hlow] at h
        simp [clamped_exactNote? h, hlow]
  · cases h

theorem clamps_iff {kind : VoiceKind} {row : Row} :
    clamps kind row = true ↔ kind = .ssg ∧ BelowRange row := by
  unfold clamps BelowRange
  simp only [← played?_eq_some]
  cases played? row with
  | none => simp
  | some played =>
    obtain ⟨note, octave⟩ := played
    cases hnote : kind.note? note octave with
    | none =>
      have hlow : ¬ (kind = .ssg ∧ soundingOctave note octave < VoiceKind.lowestOctave) := by
        rintro ⟨rfl, h⟩
        rw [note?_of_low h] at hnote
        cases hnote
      simpa [hnote] using hlow
    | some converted => simpa [hnote] using clamped_note? hnote

/-- A row with a note below the range plays the lowest note. -/
theorem noteCommand_of_below {channel : Nat} {row : Row} (hkind : voiceKind channel = .ssg)
    (h : BelowRange row) (bank : UInt8) : noteCommand channel bank row = .ok [.note 0] := by
  obtain ⟨note, octave, hplays, hlow⟩ := h
  have hpitch : pitch? .ssg bank note octave = some 0 := by
    unfold pitch?
    rw [note?_of_low hlow]
    rfl
  unfold noteCommand
  simp only [played?_eq_some.mpr hplays, hkind, hpitch]

/-! ### Patterns -/

section Walk

variable {channel : Nat} {time : TimeInfo}

/-- A conversion tells whether a note was clamped before, or in a row that is
played. -/
theorem snd_walk {c : Bool} : ∀ {rows : List Row} {index : Nat} {setting : Setting} {last : Event}
    {clamped : Bool} {events : List Event},
    walk channel time index setting last clamped rows = (.ok events, c) →
    c = (clamped || (playedRows rows).any (clamps (voiceKind channel)))
  | [], index, setting, last, clamped, events, h => by
    obtain ⟨-, rfl⟩ := Prod.mk.inj h
    simp [playedRows]
  | row :: rest, index, setting, last, clamped, events, h => by
    unfold walk at h
    simp only at h
    split at h
    · cases h
    · next commands hcommands =>
      have hany := any_endsList_rowCommands hcommands
      split at h
      · next hnone =>
        -- a row without commands stays in the pattern
        have hstays : leaves row = false := by
          rw [← hany, List.getLast?_eq_none_iff.mp hnone]
          rfl
        split at h
        · rw [snd_walk h, playedRows_cons hstays, List.any_cons, Bool.or_assoc]
        · cases h
      · split at h
        · split at h
          · next hleaves =>
            obtain ⟨-, rfl⟩ := Prod.mk.inj h
            simp [playedRows, hleaves]
          · next hstays =>
            obtain ⟨more, hmore, -⟩ := Except.map_eq_ok (walk channel time (index + 1) _ _ _ rest) h
            rw [snd_walk hmore, playedRows_cons (by simpa using hstays), List.any_cons, Bool.or_assoc]
        · cases h

/-- The same of the conversion of a pattern. -/
theorem snd_ofPattern {clamped c : Bool} {pattern : Pattern} {list : EventList}
    (h : ofPattern channel time clamped pattern = (.ok list, c)) : c = true ↔ clamped = true ∨
      ∃ row ∈ playedRows pattern.rows, clamps (voiceKind channel) row = true := by
  obtain ⟨events, hwalk, -⟩ := Except.map_eq_ok
    (walk channel time 0 {} ⟨.wait, 0⟩ clamped pattern.rows) h
  rw [snd_walk hwalk, Bool.or_eq_true, List.any_eq_true]

end Walk

end SubPattern

namespace Song

open SubPattern

/-! ### Modules -/

/-- A row with a note below the range is played: that with an index in the
pattern with a number, which is in the column of an SSG channel. -/
structure LowRow (m : Module) (channel : Nat) (number : UInt8) (pattern : Pattern) (i : Nat) : Prop where
  ssg : 4 ≤ channel ∧ channel ≤ 6
  column : ∃ column, (m.matrix[channel]?).join = some column ∧ number ∈ column
  found : m.pattern? channel number = some pattern
  low : ∃ row, (playedRows pattern.rows)[i]? = some row ∧ BelowRange row

/-- In the list that a song plays for a pattern, the row with an index plays the
lowest note. -/
def PlaysLowest (song : Song) (m : Module) (channel : Nat) (number : UInt8) (pattern : Pattern)
    (i : Nat) : Prop :=
  ∃ (column : List UInt8) (track : ChannelTrack) (list : EventList) (ticks : Nat)
      (groups : List (List Event)) (group : List Event),
    (m.matrix[channel]?).join = some column ∧ song.trackerTrack? channel = some track ∧
    track.inlined? (rowEvent column number) = some list.events ∧
    Schedule channel m.timeInfo 0 {} 0 pattern.rows ⟨.wait, ticks⟩ groups list.events ∧
    groups[i]? = some group ∧ (group.map Event.command).filterMap Command.pitch? = [0]

section Module

variable {m : Module} {channel : Nat} {sampler : UInt8}

/-- Patterns tell whether a note was clamped before, or in one of them. -/
theorem clamped_convertPatterns {numbers : List UInt8} {clamped : Bool} {r : List EventList × Bool}
    (h : convertPatterns m channel clamped numbers = .ok r) : r.2 = true ↔ clamped = true ∨
      ∃ number ∈ numbers, ∃ pattern, m.pattern? channel number = some pattern ∧
        ∃ row ∈ playedRows pattern.rows, clamps (voiceKind channel) row = true := by
  induction numbers generalizing clamped r with
  | nil =>
    obtain rfl := Except.ok.inj h
    simp
  | cons number rest ih =>
    unfold convertPatterns at h
    split at h
    · cases h
    · next pattern hpattern =>
      cases hfirst : ofPattern channel m.timeInfo clamped pattern with
      | mk result flag =>
        rw [hfirst] at h
        obtain ⟨list, hlist, h⟩ := Except.bind_eq_ok h
        obtain ⟨more, hmore, h⟩ := Except.bind_eq_ok h
        obtain rfl := Except.ok.inj h
        rw [hlist] at hfirst
        rw [ih hmore, snd_ofPattern hfirst]
        simp [hpattern, or_assoc]

theorem clamped_track {column : List UInt8} {t : ChannelTrack × Bool}
    (h : track m sampler channel column = .ok t) : t.2 = true ↔
      ∃ number ∈ column, ∃ pattern, m.pattern? channel number = some pattern ∧
        ∃ row ∈ playedRows pattern.rows, clamps (voiceKind channel) row = true := by
  obtain ⟨r, hr, h⟩ := Except.bind_eq_ok h
  obtain rfl := Except.ok.inj h
  have hpatterns := clamped_convertPatterns hr
  simpa [mem_patternNumbers] using hpatterns

/-- Tracks tell whether a note was clamped in one of them. -/
theorem clamped_tracksFrom {columns : List (Option (List UInt8))}
    {tracks : List (Option (ChannelTrack × Bool))} (h : tracksFrom m sampler 0 columns = .ok tracks) :
    tracks.any (fun t => t.any Prod.snd) = true ↔
      ∃ channel column t, (columns[channel]?).join = some column ∧
        track m sampler channel column = .ok t ∧ t.2 = true := by
  have hget : tracks.any (fun t => t.any Prod.snd) = true ↔
      ∃ (channel : Nat) (t : ChannelTrack × Bool), (tracks[channel]?).join = some t ∧ t.2 = true := by
    rw [List.any_eq_true]
    constructor
    · rintro ⟨entry, hentry, hclamped⟩
      obtain ⟨channel, hchannel⟩ := List.getElem?_of_mem hentry
      cases entry with
      | none => cases hclamped
      | some t => exact ⟨channel, t, by rw [hchannel]; rfl, hclamped⟩
    · rintro ⟨channel, t, hchannel, ht⟩
      exact ⟨some t, List.mem_of_getElem? (Option.join_eq_some_iff.mp hchannel), ht⟩
  rw [hget]
  constructor
  · rintro ⟨channel, t, hchannel, ht⟩
    have htrack := tracksFrom_getElem? h channel
    cases hcolumn : (columns[channel]?).join with
    | none =>
      rw [hcolumn, hchannel] at htrack
      cases htrack
    | some column =>
      rw [hcolumn, Nat.zero_add] at htrack
      obtain ⟨t', ht', htrack⟩ := htrack
      rw [hchannel] at ht'
      obtain rfl := Option.some.inj ht'
      exact ⟨channel, column, t, hcolumn, htrack, ht⟩
  · rintro ⟨channel, column, t, hcolumn, htrack, ht⟩
    have hchannel := tracksFrom_getElem? h channel
    rw [hcolumn, Nat.zero_add] at hchannel
    obtain ⟨t', ht', htrack'⟩ := hchannel
    rw [htrack] at htrack'
    obtain rfl := Except.ok.inj htrack'
    exact ⟨channel, t, ht', ht⟩

end Module

section Flag

variable {m : Module} {vromStart : Nat} {song : Song} {channel i : Nat} {number : UInt8}
  {pattern : Pattern}

theorem voiceKind_eq_ssg : voiceKind channel = .ssg ↔ 4 ≤ channel ∧ channel ≤ 6 := by
  unfold voiceKind
  grind

theorem ofModule_tracks (h : ofModule m vromStart = .ok song) : ∃ tracks,
    tracksFrom m m.instruments.length.toUInt8 0 (m.matrix.take channelCount) = .ok tracks ∧
      song.clamped = tracks.any fun t => t.any Prod.snd := by
  obtain ⟨timer, -, h⟩ := Except.bind_eq_ok h
  obtain ⟨samples, -, h⟩ := Except.bind_eq_ok h
  split at h
  · cases h
  · simp only at h
    obtain ⟨tracks, htracks, h⟩ := Except.bind_eq_ok h
    obtain rfl := Except.ok.inj h
    rw [InstrumentRecord.length_ofTrackerAll] at htracks
    exact ⟨tracks, htracks, rfl⟩

/-- A song tells that a note was clamped exactly if a row with a note below the
range is played. -/
theorem clamped_iff (h : ofModule m vromStart = .ok song) :
    song.clamped = true ↔ ∃ channel number pattern i, LowRow m channel number pattern i := by
  obtain ⟨tracks, htracks, hclamped⟩ := ofModule_tracks h
  rw [hclamped, clamped_tracksFrom htracks]
  constructor
  · rintro ⟨channel, column, t, hcolumn, htrack, ht⟩
    obtain ⟨number, hnumber, pattern, hpattern, row, hrow, hrowclamped⟩ := (clamped_track htrack).mp ht
    obtain ⟨hkind, hbelow⟩ := clamps_iff.mp hrowclamped
    obtain ⟨i, hi⟩ := List.getElem?_of_mem hrow
    have hssg := voiceKind_eq_ssg.mp hkind
    rw [List.getElem?_take_of_lt (Nat.lt_of_le_of_lt hssg.2 (by decide))] at hcolumn
    exact ⟨channel, number, pattern, i, hssg, ⟨column, hcolumn, hnumber⟩, hpattern, row, hi, hbelow⟩
  · rintro ⟨channel, number, pattern, i, hssg, ⟨column, hcolumn, hnumber⟩, hpattern, row, hi, hbelow⟩
    have hget : ((m.matrix.take channelCount)[channel]?).join = some column := by
      rwa [List.getElem?_take_of_lt (Nat.lt_of_le_of_lt hssg.2 (by decide))]
    have htrack := tracksFrom_getElem? htracks channel
    rw [hget, Nat.zero_add] at htrack
    obtain ⟨t, -, ht⟩ := htrack
    have hrow : clamps (voiceKind channel) row = true :=
      clamps_iff.mpr ⟨voiceKind_eq_ssg.mpr hssg, hbelow⟩
    exact ⟨channel, column, t, hget, ht,
      (clamped_track ht).mpr ⟨number, hnumber, pattern, hpattern, row, List.mem_of_getElem? hi, hrow⟩⟩

theorem playsLowest_of_lowRow (h : ofModule m vromStart = .ok song)
    (hlow : LowRow m channel number pattern i) : song.PlaysLowest m channel number pattern i := by
  obtain ⟨hssg, ⟨column, hcolumn, hnumber⟩, hpattern, row, hrow, hbelow⟩ := hlow
  have hlt : channel < channelCount := Nat.lt_of_le_of_lt hssg.2 (by decide)
  have hchannel := ofModule_channel h ⟨channel, hlt⟩
  simp only [hcolumn] at hchannel
  obtain ⟨track, htrack, hof⟩ := hchannel
  rw [← trackerTrack?_eq] at htrack
  obtain ⟨list, ⟨pattern', hpattern', hlist⟩, hinlined⟩ := hof.inlined?_rowEvent hnumber
  obtain rfl : pattern = pattern' := Option.some.inj (hpattern.symm.trans hpattern')
  obtain ⟨events, hwalk, rfl⟩ := Except.map_eq_ok
    (SubPattern.walk channel m.timeInfo 0 {} ⟨.wait, 0⟩ false pattern.rows) (Prod.ext hlist rfl)
  obtain ⟨ticks, groups, hgroups⟩ := schedule_walk hwalk
  have hi : i < groups.length := by
    rw [hgroups.rows_eq]
    exact (List.getElem?_eq_some_iff.mp hrow).1
  have hgroup := List.getElem?_eq_getElem hi
  obtain ⟨notes, hnotes, hpitches⟩ :=
    pitches_rowCommands (hgroups.commands (getElem?_playedRows.mp hrow).1 hgroup)
  rw [noteCommand_of_below (voiceKind_eq_ssg.mpr hssg) hbelow] at hnotes
  obtain rfl := Except.ok.inj hnotes
  exact ⟨column, track, ⟨.sub, events⟩, ticks, groups, groups[i], hcolumn, htrack, hinlined, hgroups,
    hgroup, hpitches⟩

end Flag

/-- **A song tells exactly when notes are clamped.** It does if a row with a note
below the range is played on an SSG channel, and each of these rows plays the
lowest note. -/
theorem ofModule_clamped {m : Module} {vromStart : Nat} {song : Song}
    (h : ofModule m vromStart = .ok song) :
    (song.clamped = true ↔ ∃ channel number pattern i, LowRow m channel number pattern i) ∧
    ∀ channel number pattern i, LowRow m channel number pattern i →
      song.PlaysLowest m channel number pattern i :=
  ⟨clamped_iff h, fun _ _ _ _ => playsLowest_of_lowRow h⟩

/-- A module with the note C of octave 1 on its second SSG channel, in the second
row of a pattern that is played twice. -/
def murmuring : Module where
  matrix := [none, none, none, none, none, some [1, 1]]
  patterns := [[], [], [], [], [], [⟨[]⟩, ⟨[.ofNote 3 4, .ofNote 12 0]⟩]]

theorem ofModule_clamped_murmuring : ∃ song, ofModule murmuring 0 = .ok song ∧ song.clamped = true ∧
    song.PlaysLowest murmuring 5 1 ⟨[.ofNote 3 4, .ofNote 12 0]⟩ 1 := by
  obtain ⟨song, h⟩ : ∃ song, ofModule murmuring 0 = .ok song :=
    Except.exists_of_isOk (by decide +kernel)
  have hlow : LowRow murmuring 5 1 ⟨[.ofNote 3 4, .ofNote 12 0]⟩ 1 :=
    ⟨by decide, ⟨[1, 1], rfl, by decide⟩, rfl, .ofNote 12 0, rfl, 12, 0, ⟨rfl, by decide, rfl⟩, by decide⟩
  exact ⟨song, h, (ofModule_clamped h).1.mpr ⟨5, 1, _, 1, hlow⟩, (ofModule_clamped h).2 5 1 _ 1 hlow⟩

end Song
end Chiptune
