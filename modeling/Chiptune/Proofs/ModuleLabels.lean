/-
# The labels of a module's song

The song of a module is disciplined: its records point to tables that were
made for them, and each row of a column jumps to a sub-pattern of its channel.
Position jumps stand in sub-patterns, and a channel plays as many rows as its
column has. So the song of a module compiles unless it is too large or jumps
to a row that no column has (`Song.compile_ofModule`).

Key definitions: `Song.DanglingJump`.
Key theorems: `InstrumentRecord.tablePointers_ofTrackerAll`,
`Song.ofModule_disciplined`, `Song.jumpsPast_iff_danglingJump`,
`Song.compile_ofModule`.
-/
import Chiptune.Proofs.LabelDiscipline
import Chiptune.Proofs.Navigation

namespace Chiptune

/-! ### Instrument records -/

namespace InstrumentRecord

open Tracker

theorem addEnvelope_length (tables : List Table) (e : Option Envelope) :
    tables.length ≤ (addEnvelope tables e).2.length ∧
      ∀ i ∈ (addEnvelope tables e).1.toList, i < (addEnvelope tables e).2.length := by
  cases e <;> simp [addEnvelope]

/-- The record of an instrument points to tables that are there. -/
theorem tablePointers_ofTracker (tables : List Table) (instrument : Instrument) :
    tables.length ≤ (ofTracker tables instrument).2.length ∧
      ∀ p ∈ (ofTracker tables instrument).1.tablePointers,
        p.2 < (ofTracker tables instrument).2.length := by
  cases instrument with
  | fm instrument => exact ⟨Nat.le_refl _, nofun⟩
  | ssg instrument =>
    obtain ⟨hvolume, hvolume'⟩ := addEnvelope_length tables instrument.volume
    obtain ⟨harpeggio, harpeggio'⟩ :=
      addEnvelope_length (addEnvelope tables instrument.volume).2 instrument.arpeggio
    obtain ⟨hmixing, hmixing'⟩ := addEnvelope_length
      (addEnvelope (addEnvelope tables instrument.volume).2 instrument.arpeggio).2 instrument.mixing
    refine ⟨Nat.le_trans hvolume (Nat.le_trans harpeggio hmixing), fun p hp => ?_⟩
    simp only [ofTracker, tablePointers, List.mem_append, List.mem_map] at hp
    rcases hp with ⟨i, hi, rfl⟩ | ⟨i, hi, rfl⟩ | ⟨i, hi, rfl⟩
    · exact Nat.lt_of_lt_of_le (hvolume' i hi) (Nat.le_trans harpeggio hmixing)
    · exact Nat.lt_of_lt_of_le (harpeggio' i hi) hmixing
    · exact hmixing' i hi

theorem tablePointers_ofTrackerAll : ∀ (instruments : List Instrument) (tables : List Table),
    tables.length ≤ (ofTrackerAll tables instruments).2.length ∧
      ∀ record ∈ (ofTrackerAll tables instruments).1, ∀ p ∈ record.tablePointers,
        p.2 < (ofTrackerAll tables instruments).2.length
  | [], _ => ⟨Nat.le_refl _, nofun⟩
  | instrument :: rest, tables => by
    obtain ⟨hfirst, hpointers⟩ := tablePointers_ofTracker tables instrument
    obtain ⟨hrest, hrecords⟩ := tablePointers_ofTrackerAll rest (ofTracker tables instrument).2
    refine ⟨Nat.le_trans hfirst hrest, fun record hr p hp => ?_⟩
    rcases List.mem_cons.mp hr with rfl | hr
    · exact Nat.lt_of_lt_of_le (hpointers p hp) hrest
    · exact hrecords record hr p hp

end InstrumentRecord

/-! ### Songs -/

namespace Song

open Tracker

variable {m : Module} {vromStart : Nat} {song : Song}

theorem TrackOf.disciplined {channel : Nat} {column : List UInt8} {track : ChannelTrack}
    (h : TrackOf m channel column track) : track.Disciplined := by
  obtain ⟨hmain, clamped, hlists⟩ := h
  have hsub : ∀ list ∈ track.subPatterns, list.kind = .sub ∧
      ∀ event ∈ list.events, Layout.playsRow event.command = false := by
    intro list hl
    obtain ⟨pattern, hlist⟩ := exists_pattern_of_mem hlists hl
    obtain ⟨hkind, -, hrows⟩ := SubPattern.ofPattern_eq_ok hlist
    exact ⟨hkind, hrows⟩
  refine ⟨by rw [hmain]; rfl, fun l hl => (hsub l hl).1, fun l hl => (hsub l hl).2, ?_⟩
  intro event he index hcommand
  rw [length_convertPatterns hlists]
  rw [hmain, mainList_events, List.mem_append, List.mem_append] at he
  rcases he with he | he | he
  · rw [mem_selectEvents he] at hcommand
    cases hcommand
  · obtain ⟨number, hnumber, rfl⟩ := List.mem_map.mp he
    obtain rfl := Command.jumpToSubPattern.inj hcommand
    exact List.idxOf_lt_length_of_mem (mem_patternNumbers.mpr hnumber)
  · rw [List.mem_singleton.mp he] at hcommand
    cases hcommand

theorem exists_fin_of_getElem? {c : Nat} {track : ChannelTrack}
    (h : song.channels.toList[c]? = some (some track)) :
    ∃ d : Fin channelCount, d.val = c ∧ song.channels.get d = some track := by
  obtain ⟨hlt, hget⟩ := List.getElem?_eq_some_iff.mp h
  rw [Vector.length_toList] at hlt
  refine ⟨⟨c, hlt⟩, rfl, ?_⟩
  rw [Vector.getElem_toList] at hget
  exact hget

/-- **Songs of modules are disciplined.** -/
theorem ofModule_disciplined (h : ofModule m vromStart = .ok song) : song.Disciplined where
  tables := by
    obtain ⟨-, records, tables, hall, hinstruments, htables⟩ := ofModule_parts h
    have hrecords := (InstrumentRecord.tablePointers_ofTrackerAll m.instruments []).2
    rw [hall] at hrecords
    intro record hr p hp
    rw [htables, List.length_append]
    rw [hinstruments] at hr
    rcases List.mem_append.mp hr with hr | hr
    · exact Nat.lt_add_right _ (hrecords record hr p hp)
    · obtain rfl := List.mem_singleton.mp hr
      obtain rfl := List.mem_singleton.mp hp
      exact Nat.lt_add_one _
  tracks := by
    intro track ht
    obtain ⟨c, hc⟩ := List.getElem?_of_mem ht
    obtain ⟨d, -, hd⟩ := exists_fin_of_getElem? hc
    obtain ⟨column, -, htrack⟩ := ofModule_track h hd
    exact htrack.disciplined

/-- A sub-pattern of a driver channel jumps to a row that the column of the
channel does not have. -/
def DanglingJump (song : Song) (m : Module) (channel row : Nat) : Prop :=
  ∃ (d : Fin channelCount) (track : ChannelTrack) (column : List UInt8), d.val = channel ∧
    song.channels.get d = some track ∧ (m.matrix[(trackerChannel d).val]?).join = some column ∧
    column.length ≤ row ∧
    ∃ list ∈ track.subPatterns, ∃ event ∈ list.events, event.command = .positionJump row

/-- The main lists of a module's song do not jump to rows, and play those of
their columns. -/
theorem jumpsPast_iff_danglingJump (h : ofModule m vromStart = .ok song) {channel row : Nat} :
    song.JumpsPast channel row ↔ song.DanglingJump m channel row := by
  constructor
  · rintro ⟨p, rfl, hcommand, hle⟩
    obtain ⟨d, hd, hget⟩ := exists_fin_of_getElem? p.track_eq
    obtain ⟨column, hcolumn, hmain, -⟩ := ofModule_track h hget
    rw [hmain, rowCount_mainList] at hle
    have hlist := p.list_eq
    have hevent := List.mem_of_getElem? p.event_eq
    refine ⟨d, p.track, column, hd, hget, hcolumn, hle, ?_⟩
    cases hw : p.which with
    | none =>
      rw [hw] at hlist
      have hlist' : p.track.events = p.list := Option.some.inj hlist
      rw [← hlist', hmain] at hevent
      exact absurd hcommand (command_ne_positionJump_mainList p.event hevent row)
    | some i =>
      rw [hw] at hlist
      exact ⟨p.list, List.mem_of_getElem? hlist, p.event, hevent, hcommand⟩
  · rintro ⟨d, track, column, rfl, hget, hcolumn, hle, list, hl, event, he, hcommand⟩
    obtain ⟨column', hcolumn', hmain, -⟩ := ofModule_track h hget
    obtain rfl := Option.some.inj (hcolumn.symm.trans hcolumn')
    obtain ⟨i, hi⟩ := List.getElem?_of_mem hl
    obtain ⟨k, hk⟩ := List.getElem?_of_mem he
    refine ⟨⟨subPlace hget hi, k, event, hk⟩, rfl, hcommand, ?_⟩
    show Event.rowCount track.events.events ≤ row
    rw [hmain, rowCount_mainList]
    exact hle

/-- **The song of a module keeps label discipline.** It compiles, or fails for
its size or for a jump to a row that no column has; a jump is the reason
exactly if there is such a one, and the first by channel and row is reported. -/
theorem compile_ofModule (h : ofModule m vromStart = .ok song) {base : Nat}
    (hfits : ((base + song.bodySize : Nat) : Int) < Address.signedLimit) (limit : Nat) :
    ((∃ c, song.compile base limit = .ok c ∧ c.data.size = song.bodySize + 31) ∨
      (∃ channel row, song.compile base limit = .error (.unresolvedJump channel row)) ∨
      ∃ stop bound, song.compile base limit = .error (.dataOverflow stop bound)) ∧
    ((∃ channel row, song.compile base limit = .error (.unresolvedJump channel row)) ↔
      ∃ channel row, song.DanglingJump m channel row) ∧
    ∀ channel row, song.compile base limit = .error (.unresolvedJump channel row) →
      song.DanglingJump m channel row ∧
        ∀ c r, song.DanglingJump m c r → channel < c ∨ (channel = c ∧ row ≤ r) := by
  have hsong := ofModule_disciplined h
  by_cases hpast : ∃ c r, song.JumpsPast c r
  · obtain ⟨c, r, hcr⟩ := hpast
    obtain ⟨channel, row, hleast, hcompile, hfirst⟩ := hsong.compile_of_jumpsPast hfits limit hcr
    simp only [jumpsPast_iff_danglingJump h] at hleast hfirst
    refine ⟨.inr (.inl ⟨channel, row, hcompile⟩), ?_, ?_⟩
    · exact ⟨fun _ => ⟨channel, row, hleast⟩, fun _ => ⟨channel, row, hcompile⟩⟩
    · intro channel' row' herror
      obtain ⟨rfl, rfl⟩ := Error.unresolvedJump.inj (Except.error.inj (hcompile.symm.trans herror))
      exact ⟨hleast, hfirst⟩
  · have houtcome := hsong.compile_of_not_jumpsPast hfits limit fun c r hcr => hpast ⟨c, r, hcr⟩
    have hnone : ∀ channel row, song.compile base limit ≠ .error (.unresolvedJump channel row) := by
      intro channel row herror
      rw [herror, checkEnd] at houtcome
      split at houtcome <;> cases houtcome
    refine ⟨?_, ⟨?_, ?_⟩, ?_⟩
    · rw [checkEnd] at houtcome
      split at houtcome
      · exact .inr (.inr ⟨_, _, eq_error_of_outcome houtcome⟩)
      · obtain ⟨c, hc⟩ := exists_of_outcome houtcome
        exact .inl ⟨c, hc, compile_size hc⟩
    · rintro ⟨channel, row, herror⟩
      exact absurd herror (hnone channel row)
    · rintro ⟨c, r, hcr⟩
      exact absurd ⟨c, r, (jumpsPast_iff_danglingJump h).mpr hcr⟩ hpast
    · intro channel row herror
      exact absurd herror (hnone channel row)

/-- A module with jumps past the columns of two channels: the first jumps to
row 3 and then to row 2 of its two rows, the other one to row 1 of its only
row. -/
def straying : Module where
  matrix := [some [0, 1], none, none, none, some [0]]
  patterns := [[⟨[{ effects := [⟨Effect.positionJump, some 3⟩] }]⟩,
      ⟨[{ effects := [⟨Effect.positionJump, some 2⟩] }]⟩], [], [], [],
    [⟨[{ effects := [⟨Effect.positionJump, some 1⟩] }]⟩]]

theorem compile_ofModule_straying : ∃ song, ofModule straying 0 = .ok song ∧
    ((100 + song.bodySize : Nat) : Int) < Address.signedLimit ∧
    song.compile 100 defaultLimit = .error (.unresolvedJump 6 2) ∧
    song.DanglingJump straying 6 2 ∧
    ∀ c r, song.DanglingJump straying c r → 6 < c ∨ (6 = c ∧ 2 ≤ r) := by
  obtain ⟨song, h⟩ : ∃ song, ofModule straying 0 = .ok song :=
    Except.exists_of_isOk (by decide +kernel)
  have hsize : (ofModule straying 0).map bodySize = .ok 56 := by decide +kernel
  have hcompile : (ofModule straying 0 >>= fun song => outcome (song.compile 100 defaultLimit)) =
      .error (.unresolvedJump 6 2) := by decide +kernel
  rw [h] at hsize hcompile
  have hfits : ((100 + song.bodySize : Nat) : Int) < Address.signedLimit := by
    rw [Except.ok.inj hsize]
    decide
  have herror := eq_error_of_outcome hcompile
  exact ⟨song, h, hfits, herror, (compile_ofModule h hfits defaultLimit).2.2 6 2 herror⟩

end Song
end Chiptune
