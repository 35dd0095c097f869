/-
# Samples and their banks

On an ADPCM-A channel a note is the number of a sample, counted in banks of
twelve. The bank is what the effects of the rows so far select last, wherever
they stand in the row of the note, and also in rows that give no command
(`SubPattern.selectedBank`). The note of a row is the number of its sample, and
a pattern is refused at the first row whose number does not fit into a byte; a
note C in the last octave is refused on these channels as well, although its
octave does not matter (`SubPattern.ofPattern_samples`).

Rows are converted one after the other: behind rows that stay in the pattern, a
conversion goes on from what they have set (`SubPattern.walk_append_rows`), so
that what a row is refused for, its pattern is refused for.

Key definitions: `SubPattern.selectedBank`, `SubPattern.sampleNumber`,
`SubPattern.OutOfRange`, `SubPattern.FailsAt`.
Key theorems: `SubPattern.bank_settingAt`, `SubPattern.pitch?_adpcmA`,
`SubPattern.walk_append_rows`, `SubPattern.failsAt_iff`,
`SubPattern.ofPattern_samples`.
-/
import Chiptune.Proofs.ChannelState

namespace Chiptune

open Tracker

theorem Except.map_eq_error {α β : Type} {f : α → β} {r : Except Error α} {e : Error} :
    r.map f = .error e ↔ r = .error e := by
  cases r with
  | error e' => simp [Except.map]
  | ok a => simp [Except.map]

theorem Except.map_nil_append (r : Except Error (List Event)) : r.map ([] ++ ·) = r := by
  cases r <;> rfl

theorem Except.map_append_map (r : Except Error (List Event)) (as bs : List Event) :
    (r.map (bs ++ ·)).map (as ++ ·) = r.map (as ++ bs ++ ·) := by
  cases r with
  | error e => rfl
  | ok events => simp [Except.map]

namespace SubPattern

/-! ### Banks -/

/-- The bank that an effect selects. -/
def bank? (fx : Effect) : Option UInt8 := if fx.code = Effect.setSampleBank then fx.value else none

/-- The bank that is selected after rows. -/
def selectedBank (rows : List Row) : UInt8 := (lastGiven bank? (rows.flatMap Row.effects)).getD 0

theorem bankAfter_eq (bank : UInt8) (effects : List Effect) :
    bankAfter bank effects = (lastGiven bank? effects).getD bank := by
  unfold bankAfter
  induction effects using List.reverseRecOn with
  | nil => rfl
  | append_singleton effects fx ih =>
    rw [List.foldl_append, lastGiven_snoc, bank?, ih]
    show (if fx.code = Effect.setSampleBank then _ else _) = _
    split
    · cases fx.value <;> rfl
    · rfl

theorem bankAfter_selectedBank (rows : List Row) (row : Row) :
    bankAfter (selectedBank rows) row.effects = selectedBank (rows ++ [row]) := by
  rw [bankAfter_eq, selectedBank, selectedBank, List.flatMap_append, List.flatMap_singleton,
    lastGiven_append]
  cases lastGiven bank? row.effects <;> rfl

theorem bank_settingAt (channel : Nat) (rows : List Row) (i : Nat) :
    (settingAt channel {} rows i).bank = selectedBank (rows.take i) := by
  refine settingAt_induction (P := fun s rows => s.bank = selectedBank rows) rfl ?_ rows i
  intro setting rows ih row
  rw [← bankAfter_selectedBank, ← ih]
  rfl

/-! ### Notes of ADPCM-A channels -/

/-- The number of the sample of a note: the note C is the first of its bank. -/
def sampleNumber (note bank : UInt8) : Nat := (if note = 12 then 0 else note.toNat) + 12 * bank.toNat

/-- Whether a note of an ADPCM-A channel is refused. -/
def OutOfRange (note octave bank : UInt8) : Prop :=
  255 < sampleNumber note bank ∨ note = 12 ∧ octave = 255

instance (note octave bank : UInt8) : Decidable (OutOfRange note octave bank) :=
  inferInstanceAs (Decidable (255 < sampleNumber note bank ∨ note = 12 ∧ octave = 255))

theorem note?_adpcmA (note octave : UInt8) : VoiceKind.note? .adpcmA note octave =
    if note = 12 ∧ octave = 255 then none else some ⟨if note = 12 then 0 else note, false⟩ := by
  have hlt := note.toNat_lt
  unfold VoiceKind.note? VoiceKind.plainNote? VoiceKind.exactNote?
  by_cases hc : note = 12
  · by_cases ho : octave = 255
    · simp [hc, ho]
    · simp [hc, ho]
  · simp [hc, hlt]

theorem pitch?_adpcmA (bank note octave : UInt8) : pitch? .adpcmA bank note octave =
    if OutOfRange note octave bank then none else some (sampleNumber note bank).toUInt8 := by
  have hvalue : (if note = 12 then 0 else note : UInt8).toNat + bank.toNat * 12 =
      sampleNumber note bank := by
    rw [sampleNumber, Nat.mul_comm]
    split <;> rfl
  unfold pitch?
  rw [note?_adpcmA]
  by_cases hc : note = 12 ∧ octave = 255
  · -- the octave above the last one, which has no number
    rw [if_pos hc, if_pos (.inr hc)]
    rfl
  · rw [if_neg hc]
    show (if _ < 256 then some _ else none) = _
    rw [hvalue]
    by_cases hlt : sampleNumber note bank < 256
    · have hin : ¬ OutOfRange note octave bank := by
        rintro (hbig | hlast)
        · omega
        · exact hc hlast
      rw [if_pos hlt, if_neg hin]
    · rw [if_neg hlt, if_pos (.inl (by omega))]

section Row

variable {channel : Nat} {setting : Setting} {row : Row} {note octave : UInt8}

/-- The note of a row on an ADPCM-A channel. -/
theorem noteCommand_adpcmA (hkind : voiceKind channel = .adpcmA) (hnote : row.note = some note)
    (hoff : note ≠ Row.noteOff) (hoctave : row.octave = some octave) (bank : UInt8) :
    noteCommand channel bank row =
      if OutOfRange note octave bank then .error (.noteOutOfRange channel note octave)
      else .ok [.note (sampleNumber note bank).toUInt8] := by
  have hplayed : played? row = some (note, octave) := by
    simp [played?, hnote, hoctave, Row.isNoteOff, hoff]
  unfold noteCommand
  rw [hplayed, hkind]
  simp only [pitch?_adpcmA]
  by_cases hrange : OutOfRange note octave bank
  · simp [hrange]
  · simp [hrange]

/-- Effects are never refused for a note. -/
theorem effectCommands_ne_noteOutOfRange {c : Nat} {n o : UInt8} : ∀ {effects : List Effect},
    effectCommands channel effects ≠ .error (.noteOutOfRange c n o)
  | [], h => by cases h
  | fx :: rest, h => by
    unfold effectCommands at h
    split at h
    · exact effectCommands_ne_noteOutOfRange h
    · split at h
      · exact effectCommands_ne_noteOutOfRange h
      · split at h
        · cases h
        · cases hrest : effectCommands channel rest with
          | error e =>
            rw [hrest] at h
            obtain rfl := Except.error.inj h
            exact effectCommands_ne_noteOutOfRange hrest
          | ok more =>
            rw [hrest] at h
            cases h

/-- A row is refused for a note if its note is. -/
theorem rowCommands_eq_noteOutOfRange {c : Nat} {n o : UInt8} :
    rowCommands channel setting row = .error (.noteOutOfRange c n o) ↔
      noteCommand channel (bankAfter setting.bank row.effects) row = .error (.noteOutOfRange c n o) := by
  unfold rowCommands
  cases noteCommand channel (bankAfter setting.bank row.effects) row with
  | error e => rfl
  | ok note =>
    refine ⟨fun h => ?_, fun h => by cases h⟩
    cases heffects : effectCommands channel row.effects with
    | error e =>
      rw [heffects] at h
      obtain rfl := Except.error.inj h
      exact absurd heffects effectCommands_ne_noteOutOfRange
    | ok effects =>
      rw [heffects] at h
      cases h

end Row

/-! ### Rows of a pattern -/

section Walk

variable {channel : Nat} {time : TimeInfo}

/-- A row that stays in the pattern is refused, or the conversion goes on behind
it from some event, whatever the rows behind it are. -/
theorem walk_cons_of_stays {row : Row} (hstays : leaves row = false) (index : Nat)
    (setting : Setting) (last : Event) (clamped : Bool) :
    (∃ e, ∀ rest, (walk channel time index setting last clamped (row :: rest)).1 = .error e) ∨
    ∃ before next clamped', ∀ rest,
      (walk channel time index setting last clamped (row :: rest)).1 =
        (walk channel time (index + 1) (setting.after (voiceKind channel) row) next clamped'
          rest).1.map (before ++ ·) := by
  cases hcommands : rowCommands channel setting row with
  | error e => exact .inl ⟨e, fun rest => by simp only [walk, hcommands]⟩
  | ok commands =>
    cases hlast : commands.getLast? with
    | none =>
      by_cases hticks : last.timing + rowTicks time index < tickLimit
      · refine .inr ⟨[], { last with timing := last.timing + rowTicks time index },
          clamped || clamps (voiceKind channel) row, fun rest => ?_⟩
        simp only [walk, hcommands, hlast, if_pos hticks]
        exact (Except.map_nil_append _).symm
      · refine .inl ⟨.tickOverflow channel, fun rest => ?_⟩
        simp only [walk, hcommands, hlast, if_neg hticks]
    | some command =>
      by_cases hticks : rowTicks time index < tickLimit
      · refine .inr ⟨last :: commands.dropLast.map fun c => ⟨c, 0⟩, ⟨command, rowTicks time index⟩,
          clamped || clamps (voiceKind channel) row, fun rest => ?_⟩
        simp only [walk, hcommands, hlast, if_pos hticks, hstays]
        rfl
      · refine .inl ⟨.tickOverflow channel, fun rest => ?_⟩
        simp only [walk, hcommands, hlast, if_neg hticks]

/-- Behind rows that stay in the pattern, a conversion goes on from what they
have set. -/
theorem walk_append_rows : ∀ {rows : List Row} {index : Nat} {setting : Setting} {last : Event}
    {clamped : Bool} {events : List Event}, (∀ row ∈ rows, leaves row = false) →
    (walk channel time index setting last clamped rows).1 = .ok events →
    ∃ before next clamped', ∀ rest,
      (walk channel time index setting last clamped (rows ++ rest)).1 =
        (walk channel time (index + rows.length)
          (rows.foldl (Setting.after (voiceKind channel)) setting) next clamped' rest).1.map (before ++ ·)
  | [], index, setting, last, clamped, events, _, _ =>
    ⟨[], last, clamped, fun rest => (Except.map_nil_append _).symm⟩
  | row :: rows, index, setting, last, clamped, events, hstays, h => by
    obtain ⟨hrow, hrows⟩ := List.forall_mem_cons.mp hstays
    rcases walk_cons_of_stays hrow index setting last clamped with
      ⟨e, he⟩ | ⟨first, second, clamped₁, hsecond⟩
    · rw [he rows] at h
      cases h
    · rw [hsecond rows] at h
      obtain ⟨more, hmore, -⟩ := Except.map_eq_ok (walk channel time (index + 1) _ second clamped₁ rows)
        (Prod.ext h rfl)
      obtain ⟨before, next, clamped₂, hnext⟩ := walk_append_rows hrows (congrArg Prod.fst hmore)
      refine ⟨first ++ before, next, clamped₂, fun rest => ?_⟩
      rw [List.cons_append, hsecond, hnext, Except.map_append_map, List.length_cons,
        Nat.add_comm rows.length, ← Nat.add_assoc]
      rfl

/-- What a row is refused for, the rows from it on are refused for. -/
theorem walk_cons_of_error {index : Nat} {setting : Setting} {row : Row} {e : Error}
    (h : rowCommands channel setting row = .error e) (last : Event) (clamped : Bool) (rest : List Row) :
    (walk channel time index setting last clamped (row :: rest)).1 = .error e := by
  simp only [walk, h]

/-- A single row is refused for a note only if its note is. -/
theorem walk_singleton_eq_noteOutOfRange {index : Nat} {setting : Setting} {last : Event} {clamped : Bool}
    {row : Row} {c : Nat} {n o : UInt8} :
    (walk channel time index setting last clamped [row]).1 = .error (.noteOutOfRange c n o) ↔
      rowCommands channel setting row = .error (.noteOutOfRange c n o) := by
  refine ⟨fun h => ?_, fun h => walk_cons_of_error h last clamped []⟩
  cases hcommands : rowCommands channel setting row with
  | error e =>
    rw [walk_cons_of_error hcommands] at h
    rw [Except.error.inj h]
  | ok commands =>
    simp only [walk, hcommands] at h
    repeat' split at h
    all_goals cases h

end Walk

/-- The conversion of a pattern fails at the row with an index: the rows before
it are converted, with it they are not, and for this error the pattern is
refused. -/
structure FailsAt (channel : Nat) (time : TimeInfo) (clamped : Bool) (pattern : Pattern) (i : Nat)
    (e : Error) : Prop where
  before : ∃ list, (ofPattern channel time clamped ⟨pattern.rows.take i⟩).1 = .ok list
  through : (ofPattern channel time clamped ⟨pattern.rows.take (i + 1)⟩).1 = .error e
  whole : (ofPattern channel time clamped pattern).1 = .error e

section Samples

variable {channel i : Nat} {time : TimeInfo} {clamped : Bool} {pattern : Pattern} {row : Row}
  {note octave : UInt8}

theorem ofPattern_eq_error {e : Error} : (ofPattern channel time clamped pattern).1 = .error e ↔
    (walk channel time 0 {} ⟨.wait, 0⟩ clamped pattern.rows).1 = .error e :=
  Except.map_eq_error

theorem bankAfter_settingAt (hrow : pattern.rows[i]? = some row) :
    bankAfter (settingAt channel {} pattern.rows i).bank row.effects =
      selectedBank (pattern.rows.take (i + 1)) := by
  rw [bank_settingAt, bankAfter_selectedBank, List.take_add_one, hrow]
  rfl

/-- A pattern fails at a row for a note exactly if the row is refused for it, in
the bank that is selected up to it. -/
theorem failsAt_iff {c : Nat} {n o : UInt8} (hrow : pattern.rows[i]? = some row)
    (hplayed : ∀ r ∈ pattern.rows.take i, leaves r = false)
    (hbefore : ∃ list, (ofPattern channel time clamped ⟨pattern.rows.take i⟩).1 = .ok list) :
    FailsAt channel time clamped pattern i (.noteOutOfRange c n o) ↔
      noteCommand channel (selectedBank (pattern.rows.take (i + 1))) row =
        .error (.noteOutOfRange c n o) := by
  obtain ⟨list, hlist⟩ := hbefore
  obtain ⟨events, hwalk, -⟩ := Except.map_eq_ok
    (walk channel time 0 {} ⟨.wait, 0⟩ clamped (pattern.rows.take i)) (Prod.ext hlist rfl)
  obtain ⟨before, next, clamped', hrest⟩ := walk_append_rows hplayed (congrArg Prod.fst hwalk)
  have htake : pattern.rows.take (i + 1) = pattern.rows.take i ++ [row] := by
    rw [List.take_add_one, hrow]
    rfl
  have hsplit : pattern.rows = pattern.rows.take i ++ row :: pattern.rows.drop (i + 1) := by
    obtain ⟨hlt, rfl⟩ := List.getElem?_eq_some_iff.mp hrow
    rw [← List.drop_eq_getElem_cons hlt, List.take_append_drop]
  have hnote : rowCommands channel (settingAt channel {} pattern.rows i) row =
        .error (.noteOutOfRange c n o) ↔
      noteCommand channel (selectedBank (pattern.rows.take (i + 1))) row =
        .error (.noteOutOfRange c n o) := by
    rw [rowCommands_eq_noteOutOfRange, bankAfter_settingAt hrow]
  rw [← hnote]
  constructor
  · intro h
    -- a row that ends its rows can also fail for its ticks, but not with this error
    have hthrough := ofPattern_eq_error.mp h.through
    rw [htake, hrest] at hthrough
    exact walk_singleton_eq_noteOutOfRange.mp (Except.map_eq_error.mp hthrough)
  · intro hrefused
    refine ⟨⟨list, hlist⟩, ofPattern_eq_error.mpr ?_, ofPattern_eq_error.mpr ?_⟩
    · rw [htake, hrest]
      exact Except.map_eq_error.mpr (walk_cons_of_error hrefused ..)
    · rw [hsplit, hrest]
      exact Except.map_eq_error.mpr (walk_cons_of_error hrefused ..)

theorem lt_length_playedRows : ∀ {rows : List Row} {i : Nat}, i < rows.length →
    (∀ r ∈ rows.take i, leaves r = false) → i < (playedRows rows).length
  | [], i, hi, _ => absurd hi (Nat.not_lt_zero i)
  | row :: rest, 0, _, _ => by
    rw [playedRows]
    split <;> simp
  | row :: rest, i + 1, hi, h => by
    obtain ⟨hrow, hrest⟩ := List.forall_mem_cons.mp h
    rw [playedRows_cons hrow, List.length_cons]
    exact Nat.succ_lt_succ (lt_length_playedRows (Nat.lt_of_succ_lt_succ hi) hrest)

/-- The pitches of a row are those of its note. -/
theorem pitches_rowCommands {setting : Setting} {cs : List Command}
    (h : rowCommands channel setting row = .ok cs) : ∃ notes,
      noteCommand channel (bankAfter setting.bank row.effects) row = .ok notes ∧
      cs.filterMap Command.pitch? = notes.filterMap Command.pitch? := by
  obtain ⟨notes, effects, hnotes, heffects, rfl⟩ := rowCommands_parts h
  have hfirst := List.filterMap_eq_nil_iff.mpr fun _ => @pitch?_of_mem_first channel setting row _
  have hlast := List.filterMap_eq_nil_iff.mpr fun command hc =>
    (sets_effectCommands heffects command hc).2
  refine ⟨notes, hnotes, ?_⟩
  rw [List.filterMap_append, List.filterMap_append, hfirst, hlast, List.nil_append, List.append_nil]

/-- **Notes of ADPCM-A channels are the numbers of samples** in the bank that is
selected last, and a pattern is refused at the first row whose note is out of
range. -/
theorem ofPattern_samples (hkind : voiceKind channel = .adpcmA) (hrow : pattern.rows[i]? = some row)
    (hplayed : ∀ r ∈ pattern.rows.take i, leaves r = false) (hnote : row.note = some note)
    (hoff : note ≠ Row.noteOff) (hoctave : row.octave = some octave) :
    (∀ list, (ofPattern channel time clamped pattern).1 = .ok list →
      ∃ ticks groups group pitch,
        Schedule channel time 0 {} 0 pattern.rows ⟨.wait, ticks⟩ groups list.events ∧
        groups[i]? = some group ∧ (group.map Event.command).filterMap Command.pitch? = [pitch] ∧
        pitch.toNat = sampleNumber note (selectedBank (pattern.rows.take (i + 1)))) ∧
    ((∃ list, (ofPattern channel time clamped ⟨pattern.rows.take i⟩).1 = .ok list) →
      ∀ c n o, FailsAt channel time clamped pattern i (.noteOutOfRange c n o) ↔
        (c = channel ∧ n = note ∧ o = octave) ∧
          OutOfRange note octave (selectedBank (pattern.rows.take (i + 1)))) := by
  have hcommand := noteCommand_adpcmA hkind hnote hoff hoctave
    (selectedBank (pattern.rows.take (i + 1)))
  constructor
  · intro list hlist
    obtain ⟨events, hwalk, rfl⟩ := Except.map_eq_ok
      (walk channel time 0 {} ⟨.wait, 0⟩ clamped pattern.rows) (Prod.ext hlist rfl)
    obtain ⟨ticks, groups, hgroups⟩ := schedule_walk hwalk
    have hi : i < groups.length := by
      rw [hgroups.rows_eq]
      exact lt_length_playedRows (List.getElem?_eq_some_iff.mp hrow).1 hplayed
    have hgroup := List.getElem?_eq_getElem hi
    obtain ⟨notes, hnotes, hpitches⟩ := pitches_rowCommands (hgroups.commands hrow hgroup)
    rw [bankAfter_settingAt hrow, hcommand] at hnotes
    split at hnotes
    · cases hnotes
    · next hrange =>
      obtain rfl := Except.ok.inj hnotes
      refine ⟨ticks, groups, groups[i], _, hgroups, hgroup, hpitches, ?_⟩
      have hlt : ¬ 255 < sampleNumber note (selectedBank (pattern.rows.take (i + 1))) :=
        fun hbig => hrange (.inl hbig)
      exact Nat.mod_eq_of_lt (by omega)
  · intro hbefore c n o
    rw [failsAt_iff hrow hplayed hbefore, hcommand]
    split
    · next hrange => simp [hrange, eq_comm]
    · next hrange => simp [hrange]

end Samples

/-- A pattern that selects a bank in a row of its own, another one behind a
panning in the row of a note, and then plays the note C of the last octave. -/
def banked : Pattern :=
  ⟨[{ effects := [⟨Effect.setSampleBank, some 2⟩] },
    { note := some 3, octave := some 0,
      effects := [⟨Effect.setPanning, some 0x11⟩, ⟨Effect.setSampleBank, some 21⟩] },
    .ofNote 12 255]⟩

/-- The first two rows of `banked` play the last sample that there is, and its
last row is refused. -/
theorem ofPattern_samples_banked : (∃ list ticks groups group,
      (ofPattern 7 {} false ⟨banked.rows.take 2⟩).1 = .ok list ∧
      Schedule 7 {} 0 {} 0 (banked.rows.take 2) ⟨.wait, ticks⟩ groups list.events ∧
      groups[1]? = some group ∧ (group.map Event.command).filterMap Command.pitch? = [255]) ∧
    FailsAt 7 {} false banked 2 (.noteOutOfRange 7 12 255) := by
  obtain ⟨list, hlist⟩ : ∃ list, (ofPattern 7 {} false ⟨banked.rows.take 2⟩).1 = .ok list :=
    Except.exists_of_isOk rfl
  have hkind : voiceKind 7 = .adpcmA := rfl
  constructor
  · have hrow : (Pattern.mk (banked.rows.take 2)).rows[1]? = some banked.rows[1] := rfl
    obtain ⟨ticks, groups, group, pitch, hgroups, hgroup, hpitches, hpitch⟩ :=
      (ofPattern_samples hkind hrow (by decide) rfl (by decide) rfl).1 list hlist
    obtain rfl : pitch = 255 := UInt8.toNat_inj.mp hpitch
    exact ⟨list, ticks, groups, group, hlist, hgroups, hgroup, hpitches⟩
  · have hrow : banked.rows[2]? = some (.ofNote 12 255) := rfl
    exact ((ofPattern_samples hkind hrow (by decide) rfl (by decide) rfl).2 ⟨list, hlist⟩ 7 12 255).mpr
      (by decide)

end SubPattern
end Chiptune
