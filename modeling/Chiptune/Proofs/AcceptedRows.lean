/-
# Which patterns are converted

A row is refused for a note that no byte can hold, for an effect that the driver
does not have, or for too many ticks. Ticks are counted from the last row that
gave a command on (`SubPattern.waited`), so whether a row is accepted also
depends on what the rows before it repeat. A pattern is converted exactly if all
rows that are played are accepted, and otherwise it is refused for the first row
that is not (`SubPattern.ofPattern_accepted`). Rows behind those that are played
do not matter.

The proof follows the conversion from row to row. As long as rows are accepted
and stay in the pattern, the conversion stands before the next one with what the
rows before have set, and with their ticks since the last command
(`SubPattern.Stands`).

Key definitions: `SubPattern.NoteFits`, `SubPattern.Mapped`,
`SubPattern.waited`, `SubPattern.Accepted`, `SubPattern.Refused`,
`SubPattern.Stands`.
Key theorems: `SubPattern.note?_eq`, `SubPattern.noteFits_iff`,
`SubPattern.exists_effectCommands`, `SubPattern.exists_rowCommands`,
`SubPattern.Stands.step`, `SubPattern.Stands.refuse`,
`SubPattern.walk_playedRows`, `SubPattern.ofPattern_accepted`.
-/
import Chiptune.Proofs.PatternExit
import Chiptune.Proofs.SampleBank
import Mathlib.Algebra.GroupWithZero.Nat
import Mathlib.Data.Nat.Find

namespace Chiptune
namespace SubPattern

open Tracker

/-! ### Notes -/

/-- A row plays a note of an octave. -/
def Plays (row : Row) (note octave : UInt8) : Prop :=
  row.note = some note ∧ note ≠ Row.noteOff ∧ row.octave = some octave

/-- The number of a note in its octave: the twelfth note is the first one of the
octave above. -/
def degree (note : UInt8) : Nat := if note = 12 then 0 else note.toNat

/-- The octave that a note sounds in. -/
def soundingOctave (note octave : UInt8) : Nat := octave.toNat + if note = 12 then 1 else 0

/-- A note fits into a byte of the driver. -/
def NoteFits (kind : VoiceKind) (bank note octave : UInt8) : Prop :=
  soundingOctave note octave < 256 ∧
    match kind with
    | .fm => soundingOctave note octave < 16
    | .ssg => soundingOctave note octave < VoiceKind.lowestOctave ∨
        (soundingOctave note octave - VoiceKind.lowestOctave) * 12 + degree note < 256
    | .adpcmA => degree note + 12 * bank.toNat < 256

theorem played?_eq_some {row : Row} {note octave : UInt8} :
    played? row = some (note, octave) ↔ Plays row note octave := by
  unfold played? Plays Row.isNoteOff
  cases row.note with
  | none => simp
  | some n =>
    cases row.octave with
    | none => simp
    | some o => by_cases hoff : n = Row.noteOff <;> grind

theorem note?_eq (kind : VoiceKind) (note octave : UInt8) : kind.note? note octave =
    if soundingOctave note octave < 256 then
      kind.plainNote? (degree note) (soundingOctave note octave) else none := by
  have hlt := octave.toNat_lt
  unfold VoiceKind.note? degree soundingOctave
  by_cases hc : note = 12
  · have hlast : octave = 255 ↔ ¬ octave.toNat + 1 < 256 := by
      rw [← UInt8.toNat_inj]
      show octave.toNat = 255 ↔ _
      omega
    by_cases ho : octave = 255
    · simp [hc, ho]
    · rw [hlast, not_not] at ho
      simp [hc, hlast, ho]
  · simp [hc, hlt]

theorem degree_lt (note : UInt8) : degree note < 256 := by
  have hlt := note.toNat_lt
  unfold degree
  split <;> omega

/-- The octave of an FM note takes the four bits above the note. -/
theorem or_shiftLeft_lt {n o : Nat} (hn : n < 256) : n ||| o <<< 4 < 256 ↔ o < 16 := by
  have hshift : o <<< 4 = o * 16 := Nat.shiftLeft_eq o 4
  constructor
  · intro h
    have hle : o <<< 4 ≤ n ||| o <<< 4 := Nat.right_le_or
    omega
  · intro ho
    have hlt : o <<< 4 < 2 ^ 8 := by omega
    exact Nat.or_lt_two_pow hn hlt

theorem noteFits_iff (kind : VoiceKind) (bank note octave : UInt8) :
    NoteFits kind bank note octave ↔ (pitch? kind bank note octave).isSome := by
  have hdegree := degree_lt note
  unfold NoteFits pitch?
  rw [note?_eq]
  by_cases ho : soundingOctave note octave < 256
  · rw [if_pos ho, and_iff_right ho]
    cases kind with
    | fm =>
      have hfm := or_shiftLeft_lt (o := soundingOctave note octave) hdegree
      by_cases h : degree note ||| soundingOctave note octave <<< 4 < 256
      · simp [VoiceKind.plainNote?, VoiceKind.exactNote?, h, hfm.mp h]
      · simp [VoiceKind.plainNote?, VoiceKind.exactNote?, h, mt hfm.mpr h]
    | ssg =>
      by_cases hlow : soundingOctave note octave < VoiceKind.lowestOctave
      · simp [VoiceKind.plainNote?, hlow]
      · by_cases h : (soundingOctave note octave - VoiceKind.lowestOctave) * 12 + degree note < 256
        · simp [VoiceKind.plainNote?, VoiceKind.exactNote?, hlow, h]
        · simp [VoiceKind.plainNote?, VoiceKind.exactNote?, hlow, h]
    | adpcmA =>
      have hbyte : (degree note).toUInt8.toNat = degree note := Nat.mod_eq_of_lt hdegree
      by_cases h : degree note + bank.toNat * 12 < 256
      · simp [VoiceKind.plainNote?, VoiceKind.exactNote?, hdegree, hbyte, h, Nat.mul_comm 12]
      · simp [VoiceKind.plainNote?, VoiceKind.exactNote?, hdegree, hbyte, h, Nat.mul_comm 12]
  · simp [ho]

/-! ### Effects -/

/-- The codes of the effects that rows may have. -/
def mappedCodes : List UInt8 :=
  [Effect.pitchSlideUp, Effect.pitchSlideDown, Effect.portamento, Effect.setPanning,
    Effect.positionJump, Effect.setSampleBank]

/-- Rows may have an effect; without a value, any. -/
def Mapped (fx : Effect) : Prop := fx.value = none ∨ fx.code ∈ mappedCodes

/-- The first one of effects that rows may not have, with its value. -/
def FirstUnmapped (effects : List Effect) (fx : Effect) (value : UInt8) : Prop :=
  ∃ before after, effects = before ++ fx :: after ∧ (∀ other ∈ before, Mapped other) ∧
    fx.value = some value ∧ fx.code ∉ mappedCodes

section Effects

variable {channel : Nat} {fx : Effect} {effects : List Effect}

theorem effectCommand?_isSome (code value : UInt8) : (effectCommand? code value).isSome ↔
    code ∈ mappedCodes ∧ code ≠ Effect.setSampleBank := by
  unfold effectCommand? mappedCodes
  have hbank : ∀ x ∈ [Effect.pitchSlideUp, Effect.pitchSlideDown, Effect.portamento,
      Effect.setPanning, Effect.positionJump], x ≠ Effect.setSampleBank := by decide +kernel
  grind

/-- An effect that rows may have puts its commands before those behind it. -/
theorem effectCommands_of_mapped (h : Mapped fx) : ∃ first, ∀ rest,
    effectCommands channel (fx :: rest) = (effectCommands channel rest).map (first ++ ·) := by
  by_cases hsilent : Silent fx
  · refine ⟨[], fun rest => ?_⟩
    have hskip : effectCommands channel (fx :: rest) = effectCommands channel rest := by
      rw [effectCommands]
      rcases hsilent with hvalue | hbank
      · rw [hvalue]
      · cases fx.value with
        | none => rfl
        | some value => simp [hbank]
    rw [hskip]
    cases effectCommands channel rest <;> rfl
  · obtain ⟨hnone, hbank⟩ := not_or.mp hsilent
    obtain ⟨value, hvalue⟩ := Option.ne_none_iff_exists'.mp hnone
    have hcode : fx.code ∈ mappedCodes := h.resolve_left hnone
    obtain ⟨command, hcommand⟩ := Option.isSome_iff_exists.mp
      ((effectCommand?_isSome fx.code value).mpr ⟨hcode, hbank⟩)
    refine ⟨[command], fun rest => ?_⟩
    rw [effectCommands, hvalue]
    simp only [if_neg hbank, hcommand]
    cases effectCommands channel rest <;> rfl

/-- Effects that rows may have are converted. -/
theorem exists_effectCommands (h : ∀ fx ∈ effects, Mapped fx) :
    ∃ cs, effectCommands channel effects = .ok cs := by
  induction effects with
  | nil => exact ⟨[], rfl⟩
  | cons fx rest ih =>
    obtain ⟨hfx, hrest⟩ := List.forall_mem_cons.mp h
    obtain ⟨cs, hcs⟩ := ih hrest
    obtain ⟨first, hfirst⟩ := @effectCommands_of_mapped channel fx hfx
    exact ⟨first ++ cs, by rw [hfirst, hcs]; rfl⟩

/-- Effects are refused for the first one that rows may not have. -/
theorem effectCommands_of_firstUnmapped {value : UInt8} (h : FirstUnmapped effects fx value) :
    effectCommands channel effects = .error (.unmappedEffect channel fx.code value) := by
  obtain ⟨before, after, rfl, hbefore, hvalue, hcode⟩ := h
  induction before with
  | nil =>
    have hbank : fx.code ≠ Effect.setSampleBank := by
      intro hbank
      exact hcode (by simp [mappedCodes, hbank])
    have hnone : effectCommand? fx.code value = none := by
      rw [← Option.not_isSome_iff_eq_none, effectCommand?_isSome]
      exact fun h => hcode h.1
    rw [List.nil_append, effectCommands, hvalue]
    simp only [if_neg hbank, hnone]
  | cons other before ih =>
    obtain ⟨hother, hbefore⟩ := List.forall_mem_cons.mp hbefore
    obtain ⟨first, hfirst⟩ := @effectCommands_of_mapped channel other hother
    rw [List.cons_append, hfirst, ih hbefore]
    rfl

theorem exists_firstUnmapped (h : ¬ ∀ fx ∈ effects, Mapped fx) :
    ∃ fx value, FirstUnmapped effects fx value := by
  induction effects with
  | nil => exact absurd (by simp) h
  | cons fx rest ih =>
    by_cases hfx : Mapped fx
    · have hrest : ¬ ∀ fx ∈ rest, Mapped fx := fun hrest => h (List.forall_mem_cons.mpr ⟨hfx, hrest⟩)
      obtain ⟨other, value, before, after, rfl, hbefore, hother⟩ := ih hrest
      exact ⟨other, value, fx :: before, after, rfl, List.forall_mem_cons.mpr ⟨hfx, hbefore⟩, hother⟩
    · obtain ⟨hvalue, hcode⟩ := not_or.mp hfx
      obtain ⟨value, hvalue'⟩ := Option.ne_none_iff_exists'.mp hvalue
      exact ⟨fx, value, [], rest, rfl, by simp, hvalue', hcode⟩

end Effects

/-! ### Ticks since the last command -/

/-- A row gives a command behind other rows: it stops or plays a note, gives
another volume or instrument than the last one, or has an effect. -/
def GivesBehind (kind : VoiceKind) (before : List Row) (row : Row) : Prop :=
  row.isNoteOff = true ∨
    (∃ volume ∈ row.volume, lastGiven Row.volume before ≠ some volume) ∨
    (kind ≠ .adpcmA ∧ ∃ instrument ∈ row.instrument,
      lastGiven Row.instrument before ≠ some instrument) ∨
    (played? row).isSome = true ∨ ∃ fx ∈ row.effects, ¬ Silent fx

instance (kind : VoiceKind) (before : List Row) : DecidablePred (GivesBehind kind before) := fun row =>
  inferInstanceAs (Decidable (row.isNoteOff = true ∨
    (∃ volume ∈ row.volume, lastGiven Row.volume before ≠ some volume) ∨
    (kind ≠ .adpcmA ∧ ∃ instrument ∈ row.instrument,
      lastGiven Row.instrument before ≠ some instrument) ∨
    (played? row).isSome = true ∨ ∃ fx ∈ row.effects, ¬ Silent fx))

/-- The row with an index gives a command. -/
def Gives (kind : VoiceKind) (rows : List Row) (i : Nat) : Prop :=
  ∃ row ∈ rows[i]?, GivesBehind kind (rows.take i) row

instance (kind : VoiceKind) (rows : List Row) : DecidablePred (Gives kind rows) := fun i =>
  inferInstanceAs (Decidable (∃ row ∈ rows[i]?, GivesBehind kind (rows.take i) row))

/-- The last row through one with an index that gives a command, or the first
row if there is none. -/
def lastGiving (kind : VoiceKind) (rows : List Row) (i : Nat) : Nat :=
  Nat.findGreatest (Gives kind rows) i

/-- The ticks from the last row that gives a command through the row with an
index. -/
def waited (kind : VoiceKind) (time : TimeInfo) (rows : List Row) (i : Nat) : Nat :=
  rowsTicks time (lastGiving kind rows i) (i + 1 - lastGiving kind rows i)

/-- The ticks from the last row that gives a command up to the row with an
index. -/
def waitedBefore (kind : VoiceKind) (time : TimeInfo) (rows : List Row) : Nat → Nat
  | 0 => 0
  | i + 1 => waited kind time rows i

section Waited

variable {kind : VoiceKind} {time : TimeInfo} {rows : List Row} {i : Nat}

theorem rowsTicks_concat (time : TimeInfo) (index count : Nat) :
    rowsTicks time index (count + 1) = rowsTicks time index count + rowTicks time (index + count) := by
  simp [rowsTicks, rowTicks, List.range'_concat]

/-- Behind a command, ticks are counted anew. -/
theorem waited_of_gives (h : Gives kind rows i) : waited kind time rows i = rowTicks time i := by
  have hlast : lastGiving kind rows i = i := Nat.findGreatest_eq h
  rw [waited, hlast, Nat.add_sub_cancel_left, rowsTicks_one]

theorem waited_of_not_gives (h : ¬ Gives kind rows i) :
    waited kind time rows i = waitedBefore kind time rows i + rowTicks time i := by
  cases i with
  | zero =>
    have hlast : lastGiving kind rows 0 = 0 := Nat.findGreatest_zero
    rw [waited, hlast, rowsTicks_one, waitedBefore, Nat.zero_add]
  | succ i =>
    have hlast : lastGiving kind rows (i + 1) = lastGiving kind rows i := Nat.findGreatest_of_not h
    have hle : lastGiving kind rows i ≤ i := Nat.findGreatest_le i
    have hcount : i + 1 + 1 - lastGiving kind rows i = (i + 1 - lastGiving kind rows i) + 1 := by omega
    have hindex : lastGiving kind rows i + (i + 1 - lastGiving kind rows i) = i + 1 := by omega
    rw [waited, hlast, hcount, rowsTicks_concat, hindex, waitedBefore, waited]

end Waited

/-! ### Rows -/

/-- A row is accepted. -/
structure Accepted (channel : Nat) (time : TimeInfo) (rows : List Row) (i : Nat) (row : Row) : Prop where
  note : ∀ note octave, Plays row note octave →
    NoteFits (voiceKind channel) (selectedBank (rows.take (i + 1))) note octave
  effects : ∀ fx ∈ row.effects, Mapped fx
  ticks : rowsTicks time i 1 < tickLimit
  waited : waited (voiceKind channel) time rows i < tickLimit

/-- A row is refused: for its note, or for the first effect that it may not have,
or for its ticks. -/
inductive Refused (channel : Nat) (time : TimeInfo) (rows : List Row) (i : Nat) (row : Row) :
    Error → Prop where
  | note {note octave : UInt8} (plays : Plays row note octave)
      (large : ¬ NoteFits (voiceKind channel) (selectedBank (rows.take (i + 1))) note octave) :
      Refused channel time rows i row (.noteOutOfRange channel note octave)
  | effect {fx : Effect} {value : UInt8}
      (fits : ∀ note octave, Plays row note octave →
        NoteFits (voiceKind channel) (selectedBank (rows.take (i + 1))) note octave)
      (unmapped : FirstUnmapped row.effects fx value) :
      Refused channel time rows i row (.unmappedEffect channel fx.code value)
  | ticks
      (fits : ∀ note octave, Plays row note octave →
        NoteFits (voiceKind channel) (selectedBank (rows.take (i + 1))) note octave)
      (mapped : ∀ fx ∈ row.effects, Mapped fx)
      (long : tickLimit ≤ rowsTicks time i 1 ∨ tickLimit ≤ waited (voiceKind channel) time rows i) :
      Refused channel time rows i row (.tickOverflow channel)

section Row

variable {channel i : Nat} {time : TimeInfo} {pattern : Pattern} {row : Row} {cs : List Command}

theorem accepted_or_refused (channel : Nat) (time : TimeInfo) (rows : List Row) (i : Nat) (row : Row) :
    Accepted channel time rows i row ∨ ∃ e, Refused channel time rows i row e := by
  by_cases hnote : ∀ note octave, Plays row note octave →
      NoteFits (voiceKind channel) (selectedBank (rows.take (i + 1))) note octave
  · by_cases heffects : ∀ fx ∈ row.effects, Mapped fx
    · by_cases hticks :
          rowsTicks time i 1 < tickLimit ∧ waited (voiceKind channel) time rows i < tickLimit
      · exact .inl ⟨hnote, heffects, hticks.1, hticks.2⟩
      · exact .inr ⟨_, .ticks hnote heffects (by omega)⟩
    · obtain ⟨fx, value, hfx⟩ := exists_firstUnmapped heffects
      exact .inr ⟨_, .effect hnote hfx⟩
  · simp only [not_forall] at hnote
    obtain ⟨note, octave, hplays, hlarge⟩ := hnote
    exact .inr ⟨_, .note hplays hlarge⟩

theorem noteCommand_of_fits {bank : UInt8} (h : ∀ note octave, Plays row note octave →
    NoteFits (voiceKind channel) bank note octave) : ∃ notes, noteCommand channel bank row = .ok notes := by
  unfold noteCommand
  cases hplayed : played? row with
  | none => exact ⟨[], rfl⟩
  | some played =>
    obtain ⟨note, octave⟩ := played
    have hfits := h note octave (played?_eq_some.mp hplayed)
    obtain ⟨pitch, hpitch⟩ := Option.isSome_iff_exists.mp ((noteFits_iff ..).mp hfits)
    exact ⟨[.note pitch], by simp only [hpitch]⟩

theorem noteCommand_of_not_fits {bank note octave : UInt8} (hplays : Plays row note octave)
    (h : ¬ NoteFits (voiceKind channel) bank note octave) :
    noteCommand channel bank row = .error (.noteOutOfRange channel note octave) := by
  have hnone : pitch? (voiceKind channel) bank note octave = none := by
    rwa [noteFits_iff, Option.not_isSome_iff_eq_none] at h
  unfold noteCommand
  simp only [played?_eq_some.mpr hplays, hnone]

theorem noteCommand_ne_nil {bank : UInt8} {notes : List Command}
    (h : noteCommand channel bank row = .ok notes) : notes ≠ [] ↔ (played? row).isSome = true := by
  unfold noteCommand at h
  split at h
  · next hplayed => simp [← Except.ok.inj h, hplayed]
  · next hplayed =>
    split at h
    · cases h
    · simp [← Except.ok.inj h, hplayed]

theorem volumeCommand_ne_nil {kind : VoiceKind} {setting : Setting} :
    volumeCommand kind setting row ≠ [] ↔ ∃ volume ∈ row.volume, setting.volume ≠ some volume := by
  unfold volumeCommand
  cases row.volume with
  | none => simp
  | some volume => simp

theorem instrumentCommand_ne_nil {kind : VoiceKind} {setting : Setting} :
    instrumentCommand kind setting row ≠ [] ↔
      kind ≠ .adpcmA ∧ ∃ instrument ∈ row.instrument, setting.instrument ≠ some instrument := by
  unfold instrumentCommand
  cases row.instrument with
  | none => simp
  | some instrument =>
    by_cases hkind : kind = .adpcmA
    · simp [hkind]
    · simp [hkind]

theorem effectCommands_ne_nil {effects : List Effect} (h : effectCommands channel effects = .ok cs) :
    cs ≠ [] ↔ ∃ fx ∈ effects, ¬ Silent fx := by
  constructor
  · intro hne
    by_contra hsilent
    exact hne (effectCommands_eq_nil (by simpa using hsilent) h)
  · rintro ⟨fx, hfx, hloud⟩ rfl
    exact hloud (silent_of_effectCommands h fx hfx)

/-- What a row gives are its commands. -/
theorem gives_iff (hrow : pattern.rows[i]? = some row)
    (h : rowCommands channel (settingAt channel {} pattern.rows i) row = .ok cs) :
    Gives (voiceKind channel) pattern.rows i ↔ cs ≠ [] := by
  obtain ⟨notes, effects, hnotes, heffects, rfl⟩ := rowCommands_parts h
  have hbehind : Gives (voiceKind channel) pattern.rows i ↔
      GivesBehind (voiceKind channel) (pattern.rows.take i) row := by
    simp [Gives, hrow]
  have hvolume : volumeCommand (voiceKind channel) (settingAt channel {} pattern.rows i) row ≠ [] ↔
      ∃ volume ∈ row.volume, lastGiven Row.volume (pattern.rows.take i) ≠ some volume := by
    rw [volumeCommand_ne_nil, volume_settingAt]
  have hinstrument :
      instrumentCommand (voiceKind channel) (settingAt channel {} pattern.rows i) row ≠ [] ↔
        voiceKind channel ≠ .adpcmA ∧ ∃ instrument ∈ row.instrument,
          lastGiven Row.instrument (pattern.rows.take i) ≠ some instrument := by
    rw [instrumentCommand_ne_nil]
    refine and_congr_right fun hkind => ?_
    rw [instrument_settingAt, if_neg hkind]
  have hoff : (if row.isNoteOff then [.noteOff] else [] : List Command) ≠ [] ↔
      row.isNoteOff = true := by
    by_cases h : row.isNoteOff = true <;> simp [h]
  have happend : ∀ as bs : List Command, as ++ bs ≠ [] ↔ as ≠ [] ∨ bs ≠ [] := by
    intro as bs
    cases as <;> simp
  rw [hbehind, GivesBehind, ← hvolume, ← hinstrument, ← noteCommand_ne_nil hnotes,
    ← effectCommands_ne_nil heffects]
  simp only [happend, hoff, or_assoc]

/-- A row with a note and effects that it may have is converted. -/
theorem exists_rowCommands (hrow : pattern.rows[i]? = some row)
    (hnote : ∀ note octave, Plays row note octave →
      NoteFits (voiceKind channel) (selectedBank (pattern.rows.take (i + 1))) note octave)
    (heffects : ∀ fx ∈ row.effects, Mapped fx) :
    ∃ cs, rowCommands channel (settingAt channel {} pattern.rows i) row = .ok cs := by
  obtain ⟨notes, hnotes⟩ := noteCommand_of_fits hnote
  obtain ⟨effects, heffects⟩ := @exists_effectCommands channel _ heffects
  rw [rowCommands, bankAfter_settingAt hrow, hnotes, heffects]
  exact ⟨_, rfl⟩

/-- An accepted row leaves the pattern, or the conversion goes on behind it with
the ticks since the last command. -/
theorem walk_of_accepted (hrow : pattern.rows[i]? = some row)
    (h : Accepted channel time pattern.rows i row) {last : Event}
    (hlast : last.timing = waitedBefore (voiceKind channel) time pattern.rows i) (clamped : Bool) :
    ∃ before next clamped', next.timing = waited (voiceKind channel) time pattern.rows i ∧ ∀ rest,
      (walk channel time i (settingAt channel {} pattern.rows i) last clamped (row :: rest)).1 =
        if leaves row then .ok (before ++ [next])
        else (walk channel time (i + 1) (settingAt channel {} pattern.rows (i + 1)) next clamped'
          rest).1.map (before ++ ·) := by
  obtain ⟨cs, hcs⟩ := exists_rowCommands hrow h.note h.effects
  have hgives := gives_iff hrow hcs
  have hticks := h.ticks
  have hwaited := h.waited
  rw [rowsTicks_one] at hticks
  rw [settingAt_succ hrow]
  rcases List.eq_nil_or_concat cs with rfl | ⟨first, command, rfl⟩
  · -- no command: the ticks of the row are added to those before
    have hsum : waited (voiceKind channel) time pattern.rows i =
        waitedBefore (voiceKind channel) time pattern.rows i + rowTicks time i :=
      waited_of_not_gives (mt hgives.mp (by simp))
    have hstays : leaves row = false := (any_endsList_rowCommands hcs).symm
    rw [hsum] at hwaited ⊢
    refine ⟨[], { last with timing := last.timing + rowTicks time i },
      clamped || clamps (voiceKind channel) row, by rw [hlast], fun rest => ?_⟩
    rw [← hlast] at hwaited
    simp only [walk, hcs, List.getLast?_nil, if_pos hwaited, hstays]
    exact (Except.map_nil_append _).symm
  · rw [List.concat_eq_append] at hcs hgives
    refine ⟨last :: first.map fun c => ⟨c, 0⟩, ⟨command, rowTicks time i⟩,
      clamped || clamps (voiceKind channel) row, (waited_of_gives (hgives.mpr (by simp))).symm,
      fun rest => ?_⟩
    simp only [walk, hcs, List.getLast?_concat, List.dropLast_concat, if_pos hticks]
    by_cases hleaves : leaves row = true
    · rw [if_pos hleaves, if_pos hleaves]
    · rw [if_neg hleaves, if_neg hleaves]

/-- What a row is refused for, the rows from it on are refused for. -/
theorem walk_of_refused (hrow : pattern.rows[i]? = some row) {e : Error}
    (h : Refused channel time pattern.rows i row e) {last : Event}
    (hlast : last.timing = waitedBefore (voiceKind channel) time pattern.rows i) (clamped : Bool)
    (rest : List Row) :
    (walk channel time i (settingAt channel {} pattern.rows i) last clamped (row :: rest)).1 =
      .error e := by
  cases h with
  | note hplays hlarge =>
    refine walk_cons_of_error ?_ last clamped rest
    rw [rowCommands, bankAfter_settingAt hrow, noteCommand_of_not_fits hplays hlarge]
    rfl
  | effect hfits hunmapped =>
    obtain ⟨notes, hnotes⟩ := noteCommand_of_fits hfits
    refine walk_cons_of_error ?_ last clamped rest
    rw [rowCommands, bankAfter_settingAt hrow, hnotes, effectCommands_of_firstUnmapped hunmapped]
    rfl
  | ticks hfits hmapped hlong =>
    obtain ⟨cs, hcs⟩ := exists_rowCommands hrow hfits hmapped
    have hgives := gives_iff hrow hcs
    rw [rowsTicks_one] at hlong
    rcases List.eq_nil_or_concat cs with rfl | ⟨first, command, rfl⟩
    · rw [waited_of_not_gives (mt hgives.mp (by simp)), ← hlast] at hlong
      have hlimit : ¬ last.timing + rowTicks time i < tickLimit := by omega
      simp only [walk, hcs, List.getLast?_nil, if_neg hlimit]
    · rw [List.concat_eq_append] at hcs hgives
      rw [waited_of_gives (hgives.mpr (by simp)), or_self] at hlong
      simp only [walk, hcs, List.getLast?_concat, if_neg (Nat.not_lt.mpr hlong)]

end Row

/-! ### Rows of a pattern -/

/-- The rows that are played are those up to the first one that leaves. -/
theorem getElem?_playedRows : ∀ {rows : List Row} {i : Nat} {row : Row},
    (playedRows rows)[i]? = some row ↔ rows[i]? = some row ∧ ∀ r ∈ rows.take i, leaves r = false
  | [], i, row => by simp [playedRows]
  | first :: rest, 0, row => by
    rw [playedRows]
    split <;> simp
  | first :: rest, i + 1, row => by
    by_cases hleaves : leaves first = true
    · simp [playedRows, hleaves]
    · rw [playedRows_cons (by simpa using hleaves)]
      simp [getElem?_playedRows, hleaves]

/-- Rows behind those that are played do not matter. -/
theorem walk_playedRows {channel : Nat} {time : TimeInfo} : ∀ (rows : List Row) (index : Nat)
    (setting : Setting) (last : Event) (clamped : Bool),
    walk channel time index setting last clamped (playedRows rows) =
      walk channel time index setting last clamped rows
  | [], _, _, _, _ => rfl
  | row :: rest, index, setting, last, clamped => by
    by_cases hleaves : leaves row = true
    · rw [playedRows, if_pos hleaves]
      cases hcs : rowCommands channel setting row with
      | error e => simp only [walk, hcs]
      | ok cs =>
        -- the row has a command, so the rows behind it are not looked at
        have hany := any_endsList_rowCommands hcs
        rcases List.eq_nil_or_concat cs with rfl | ⟨first, command, rfl⟩
        · rw [hleaves] at hany
          cases hany
        · rw [List.concat_eq_append] at hcs
          simp only [walk, hcs, List.getLast?_concat, hleaves, if_true]
    · rw [playedRows_cons (by simpa using hleaves)]
      simp only [walk, walk_playedRows rest]

section Pattern

variable {channel i : Nat} {time : TimeInfo} {clamped : Bool} {pattern : Pattern} {row : Row}

/-- The conversion of a pattern stands before the row with an index, with the
ticks since the last command. -/
def Stands (channel : Nat) (time : TimeInfo) (clamped : Bool) (pattern : Pattern) (i : Nat) : Prop :=
  ∃ before last clamped', last.timing = waitedBefore (voiceKind channel) time pattern.rows i ∧
    (walk channel time 0 {} ⟨.wait, 0⟩ clamped pattern.rows).1 =
      (walk channel time i (settingAt channel {} pattern.rows i) last clamped'
        (pattern.rows.drop i)).1.map (before ++ ·)

theorem drop_of_getElem? (hrow : pattern.rows[i]? = some row) :
    pattern.rows.drop i = row :: pattern.rows.drop (i + 1) := by
  obtain ⟨hlt, rfl⟩ := List.getElem?_eq_some_iff.mp hrow
  exact List.drop_eq_getElem_cons hlt

namespace Stands

theorem zero : Stands channel time clamped pattern 0 :=
  ⟨[], ⟨.wait, 0⟩, clamped, rfl, (Except.map_nil_append _).symm⟩

theorem step (h : Stands channel time clamped pattern i) (hrow : pattern.rows[i]? = some row)
    (haccepted : Accepted channel time pattern.rows i row) (hstays : leaves row = false) :
    Stands channel time clamped pattern (i + 1) := by
  obtain ⟨before, last, clamped₁, hlast, hwalk⟩ := h
  obtain ⟨more, next, clamped₂, hnext, hrest⟩ := walk_of_accepted hrow haccepted hlast clamped₁
  refine ⟨before ++ more, next, clamped₂, hnext, ?_⟩
  rw [hwalk, drop_of_getElem? hrow, hrest, hstays, ← Except.map_append_map]
  rfl

theorem leave (h : Stands channel time clamped pattern i) (hrow : pattern.rows[i]? = some row)
    (haccepted : Accepted channel time pattern.rows i row) (hleaves : leaves row = true) :
    ∃ events, (walk channel time 0 {} ⟨.wait, 0⟩ clamped pattern.rows).1 = .ok events := by
  obtain ⟨before, last, clamped₁, hlast, hwalk⟩ := h
  obtain ⟨more, next, clamped₂, hnext, hrest⟩ := walk_of_accepted hrow haccepted hlast clamped₁
  refine ⟨before ++ (more ++ [next]), ?_⟩
  rw [hwalk, drop_of_getElem? hrow, hrest, if_pos hleaves]
  rfl

/-- Behind the last row, the pattern is converted. -/
theorem finish (h : Stands channel time clamped pattern pattern.rows.length) :
    ∃ events, (walk channel time 0 {} ⟨.wait, 0⟩ clamped pattern.rows).1 = .ok events := by
  obtain ⟨before, last, clamped₁, -, hwalk⟩ := h
  refine ⟨before ++ [last, ⟨.returnFromSubPattern, 0⟩], ?_⟩
  rw [hwalk, List.drop_length]
  rfl

theorem refuse (h : Stands channel time clamped pattern i) (hrow : pattern.rows[i]? = some row)
    {e : Error} (hrefused : Refused channel time pattern.rows i row e) :
    (walk channel time 0 {} ⟨.wait, 0⟩ clamped pattern.rows).1 = .error e := by
  obtain ⟨before, last, clamped₁, hlast, hwalk⟩ := h
  rw [hwalk, drop_of_getElem? hrow, walk_of_refused hrow hrefused hlast]
  rfl

end Stands

theorem stays_of_le {i j : Nat} (hij : j ≤ i) (h : ∀ r ∈ pattern.rows.take i, leaves r = false) :
    ∀ r ∈ pattern.rows.take j, leaves r = false :=
  fun r hr => h r (List.take_subset_take_left pattern.rows hij hr)

/-- Behind accepted rows that stay in the pattern, the conversion stands before
the next one. -/
theorem stands_of_accepted (hi : i ≤ pattern.rows.length)
    (hstays : ∀ r ∈ pattern.rows.take i, leaves r = false)
    (haccepted : ∀ j < i, ∀ r, pattern.rows[j]? = some r → Accepted channel time pattern.rows j r) :
    Stands channel time clamped pattern i := by
  induction i with
  | zero => exact .zero
  | succ i ih =>
    have hrow := List.getElem?_eq_getElem hi
    have hmem : pattern.rows[i] ∈ pattern.rows.take (i + 1) :=
      List.mem_take_iff_getElem.mpr ⟨i, by omega, rfl⟩
    have hstands := ih (by omega) (stays_of_le (by omega) hstays) fun j hj => haccepted j (by omega)
    exact hstands.step hrow (haccepted i (by omega) _ hrow) (hstays _ hmem)

/-- If all rows that are played are accepted, the pattern is converted. -/
theorem exists_walk_of_accepted (h : ∀ i row, (playedRows pattern.rows)[i]? = some row →
    Accepted channel time pattern.rows i row) :
    ∃ events, (walk channel time 0 {} ⟨.wait, 0⟩ clamped pattern.rows).1 = .ok events := by
  have hstands : ∀ {i : Nat}, i ≤ pattern.rows.length →
      (∀ r ∈ pattern.rows.take i, leaves r = false) → Stands channel time clamped pattern i := by
    intro i hi hstays
    refine stands_of_accepted hi hstays fun j hj r hr => h j r ?_
    exact getElem?_playedRows.mpr ⟨hr, stays_of_le (by omega) hstays⟩
  cases hfirst : pattern.rows.findIdx? leaves with
  | none =>
    have hall := List.findIdx?_eq_none_iff.mp hfirst
    have hstays : ∀ r ∈ pattern.rows.take pattern.rows.length, leaves r = false := by
      rwa [List.take_length]
    exact (hstands (Nat.le_refl _) hstays).finish
  | some i =>
    obtain ⟨hlt, hleaves, hbefore⟩ := List.findIdx?_eq_some_iff_getElem.mp hfirst
    have hrow := List.getElem?_eq_getElem hlt
    have hstays : ∀ r ∈ pattern.rows.take i, leaves r = false := by
      intro r hr
      obtain ⟨j, hj, rfl⟩ := List.mem_take_iff_getElem.mp hr
      simpa using hbefore j (by omega)
    have haccepted := h i _ (getElem?_playedRows.mpr ⟨hrow, hstays⟩)
    exact (hstands (Nat.le_of_lt hlt) hstays).leave hrow haccepted hleaves

/-- Otherwise there is a first row that is refused. -/
theorem exists_first_refused (h : ¬ ∀ i row, (playedRows pattern.rows)[i]? = some row →
    Accepted channel time pattern.rows i row) :
    ∃ i row e, (playedRows pattern.rows)[i]? = some row ∧
      (∀ j < i, ∀ r, pattern.rows[j]? = some r → Accepted channel time pattern.rows j r) ∧
      Refused channel time pattern.rows i row e := by
  classical
  have hex : ∃ i, ∃ row, (playedRows pattern.rows)[i]? = some row ∧
      ¬ Accepted channel time pattern.rows i row := by
    simpa [not_forall] using h
  obtain ⟨row, hrow, hnot⟩ := Nat.find_spec hex
  obtain ⟨e, he⟩ := (accepted_or_refused channel time pattern.rows (Nat.find hex) row).resolve_left hnot
  refine ⟨Nat.find hex, row, e, hrow, fun j hj r hr => ?_, he⟩
  have hstays := stays_of_le (Nat.le_of_lt hj) (getElem?_playedRows.mp hrow).2
  by_contra haccepted
  exact Nat.find_min hex hj ⟨r, getElem?_playedRows.mpr ⟨hr, hstays⟩, haccepted⟩

theorem walk_of_first_refused {e : Error} (hrow : (playedRows pattern.rows)[i]? = some row)
    (hbefore : ∀ j < i, ∀ r, pattern.rows[j]? = some r → Accepted channel time pattern.rows j r)
    (h : Refused channel time pattern.rows i row e) :
    (walk channel time 0 {} ⟨.wait, 0⟩ clamped pattern.rows).1 = .error e := by
  obtain ⟨hrow, hstays⟩ := getElem?_playedRows.mp hrow
  have hlt := (List.getElem?_eq_some_iff.mp hrow).1
  exact (stands_of_accepted (Nat.le_of_lt hlt) hstays hbefore).refuse hrow h

end Pattern

/-- **Which patterns are converted.** A pattern is converted exactly if all rows
that are played are accepted, and otherwise it is refused for the first row that
is not. Rows behind those that are played change neither the list nor the error,
and no note in them counts as clamped. -/
theorem ofPattern_accepted (channel : Nat) (time : TimeInfo) (clamped : Bool) (pattern : Pattern) :
    ((∃ list, (ofPattern channel time clamped pattern).1 = .ok list) ↔
      ∀ i row, (playedRows pattern.rows)[i]? = some row → Accepted channel time pattern.rows i row) ∧
    (∀ e, (ofPattern channel time clamped pattern).1 = .error e ↔
      ∃ i row, (playedRows pattern.rows)[i]? = some row ∧
        (∀ j < i, ∀ r, pattern.rows[j]? = some r → Accepted channel time pattern.rows j r) ∧
        Refused channel time pattern.rows i row e) ∧
    ∀ other : Pattern, playedRows other.rows = playedRows pattern.rows →
      ofPattern channel time clamped other = ofPattern channel time clamped pattern := by
  refine ⟨⟨fun ⟨list, hlist⟩ => ?_, fun h => ?_⟩, fun e => ⟨fun he => ?_, ?_⟩, fun other hother => ?_⟩
  · by_contra hnot
    obtain ⟨i, row, e, hrow, hbefore, hrefused⟩ := exists_first_refused hnot
    rw [ofPattern_eq_error.mpr (walk_of_first_refused hrow hbefore hrefused)] at hlist
    cases hlist
  · obtain ⟨events, hwalk⟩ := @exists_walk_of_accepted channel time clamped pattern h
    exact ⟨⟨.sub, events⟩, congrArg (Except.map fun es => (⟨.sub, es⟩ : EventList)) hwalk⟩
  · rw [ofPattern_eq_error] at he
    by_cases hall : ∀ i row, (playedRows pattern.rows)[i]? = some row →
        Accepted channel time pattern.rows i row
    · obtain ⟨events, hwalk⟩ := @exists_walk_of_accepted channel time clamped pattern hall
      rw [hwalk] at he
      cases he
    · obtain ⟨i, row, e', hrow, hbefore, hrefused⟩ := exists_first_refused hall
      rw [walk_of_first_refused hrow hbefore hrefused] at he
      obtain rfl := Except.error.inj he
      exact ⟨i, row, hrow, hbefore, hrefused⟩
  · rintro ⟨i, row, hrow, hbefore, hrefused⟩
    exact ofPattern_eq_error.mpr (walk_of_first_refused hrow hbefore hrefused)
  · unfold ofPattern
    rw [← walk_playedRows other.rows, hother, walk_playedRows]

/-- Two rows with the same volume. -/
def lingering : Pattern := ⟨[{ volume := some 10 }, { volume := some 10 }]⟩

/-- With `2 ^ 31` ticks for a row, `lingering` is refused for its second row: it
gives no command, so its ticks are added to those of the first one. -/
theorem ofPattern_accepted_lingering :
    Refused 0 { evenTicks := 0x80000000, oddTicks := 0x80000000 } lingering.rows 1
      { volume := some 10 } (.tickOverflow 0) ∧
    (ofPattern 0 { evenTicks := 0x80000000, oddTicks := 0x80000000 } false lingering).1 =
      .error (.tickOverflow 0) := by
  have hsilent : ∀ note octave, ¬ Plays { volume := some 10 } note octave := by
    rintro note octave ⟨hnote, -⟩
    cases hnote
  have hfirst : ∀ j < 1, ∀ r, lingering.rows[j]? = some r →
      Accepted 0 { evenTicks := 0x80000000, oddTicks := 0x80000000 } lingering.rows j r := by
    intro j hj r hr
    obtain rfl : j = 0 := by omega
    obtain rfl : { volume := some 10 } = r := Option.some.inj hr
    exact ⟨fun note octave h => absurd h (hsilent note octave), by simp, by decide, by decide⟩
  have hsecond : Refused 0 { evenTicks := 0x80000000, oddTicks := 0x80000000 } lingering.rows 1
      { volume := some 10 } (.tickOverflow 0) :=
    .ticks (fun note octave h => absurd h (hsilent note octave)) (by simp) (.inr (by decide))
  exact ⟨hsecond, ((ofPattern_accepted 0 _ false lingering).2.1 _).mpr ⟨1, _, rfl, hfirst, hsecond⟩⟩

end SubPattern
end Chiptune
