/-
# Rows that share a sub-pattern

The rows of a column with the same pattern share a sub-pattern. The
sub-patterns of a track are the lists of the distinct patterns of its column,
each converted on its own, and every one is used. Playing the main list, with
the events of a sub-pattern in the place of each jump to it
(`ChannelTrack.played?`), is playing the patterns of the column one after the
other (`Song.ofModule_playsMatrix`).

Key definitions: `ChannelTrack.inlined?`, `ChannelTrack.played?`,
`Song.Converts`, `Song.ColumnTrack`, `Song.PlaysMatrix`.
Key theorems: `Song.pairwise_patternNumbers`,
`Song.TrackOf.inlineAll?_rowEvents`, `Song.TrackOf.columnTrack`,
`Song.ofModule_playsMatrix`.
-/
import Chiptune.Proofs.Navigation
import Mathlib.Data.List.Forall2

namespace Chiptune

open Tracker

/-! ### Sub-patterns in the place of jumps -/

namespace ChannelTrack

/-- What an event plays: a jump to a sub-pattern the events of the list, any
other event itself. -/
def inlined? (track : ChannelTrack) (event : Event) : Option (List Event) :=
  match event.command with
  | .jumpToSubPattern index => (track.subPatterns[index]?).map EventList.events
  | _ => some [event]

/-- What events play one after the other; nothing if a sub-pattern is missing. -/
def inlineAll? (track : ChannelTrack) : List Event → Option (List Event)
  | [] => some []
  | event :: rest => do
    let first ← track.inlined? event
    let more ← track.inlineAll? rest
    some (first ++ more)

/-- What the main list of a track plays. -/
def played? (track : ChannelTrack) : Option (List Event) := track.inlineAll? track.events.events

variable {track : ChannelTrack}

theorem inlineAll?_append {as bs xs ys : List Event} (ha : track.inlineAll? as = some xs)
    (hb : track.inlineAll? bs = some ys) : track.inlineAll? (as ++ bs) = some (xs ++ ys) := by
  induction as generalizing xs with
  | nil =>
    obtain rfl := Option.some.inj ha
    exact hb
  | cons event rest ih =>
    simp only [inlineAll?, Option.bind_eq_bind, Option.bind_eq_some_iff] at ha
    obtain ⟨first, hfirst, more, hmore, ha⟩ := ha
    obtain rfl := Option.some.inj ha
    simp [inlineAll?, hfirst, ih hmore]

/-- Events that jump to no sub-pattern play themselves. -/
theorem inlineAll?_of_playsRow {events : List Event}
    (h : ∀ event ∈ events, Layout.playsRow event.command = false) :
    track.inlineAll? events = some events := by
  induction events with
  | nil => rfl
  | cons event rest ih =>
    have hself : track.inlined? event = some [event] := by
      have hevent := h event (List.mem_cons_self ..)
      obtain ⟨command, timing⟩ := event
      cases command with
      | jumpToSubPattern index => cases hevent
      | _ => rfl
    simp [inlineAll?, hself, ih fun e he => h e (List.mem_cons_of_mem _ he)]

end ChannelTrack

/-! ### Tracks -/

namespace Song

/-- A list is that of the pattern with a number of a tracker channel, converted
on its own. -/
def Converts (m : Module) (channel : Nat) (number : UInt8) (list : EventList) : Prop :=
  ∃ pattern, m.pattern? channel number = some pattern ∧
    (SubPattern.ofPattern channel m.timeInfo false pattern).1 = .ok list

/-- A track that plays a column of a tracker channel of a module, with the
lists of its patterns shared. -/
structure ColumnTrack (m : Module) (channel : Nat) (column : List UInt8) (track : ChannelTrack) :
    Prop where
  /-- There is one sub-pattern for each pattern of the column, by rising number. -/
  subPatterns : ∃ numbers : List UInt8, numbers.Pairwise (· < ·) ∧
    (∀ number, number ∈ numbers ↔ number ∈ column) ∧
    List.Forall₂ (Converts m channel) numbers track.subPatterns
  used : ∀ index < track.subPatterns.length,
    ∃ event ∈ track.events.events, event.command = .jumpToSubPattern index
  /-- ADPCM-A channels first select the record behind those of the instruments. -/
  played : ∃ lists, List.Forall₂ (Converts m channel) column lists ∧
    track.played? = some (selectEvents channel m.instruments.length.toUInt8 ++
      (lists.flatMap EventList.events ++ [⟨.endList, 0⟩]))

variable {m : Module} {channel : Nat} {column : List UInt8} {track : ChannelTrack}

theorem pairwise_patternNumbers (column : List UInt8) :
    (patternNumbers column).Pairwise (· < ·) := by
  apply List.Pairwise.filter
  rw [List.pairwise_map]
  refine List.Pairwise.imp_of_mem ?_ List.pairwise_lt_range
  intro i j hi hj hlt
  rw [List.mem_range] at hi hj
  have htoNat : ∀ {n : Nat}, n < 256 → n.toUInt8.toNat = n := UInt8.toNat_ofNat_of_lt
  rwa [UInt8.lt_iff_toNat_lt, htoNat hi, htoNat hj]

theorem forall₂_convertPatterns {numbers : List UInt8} {clamped : Bool}
    {r : List EventList × Bool} (h : convertPatterns m channel clamped numbers = .ok r) :
    List.Forall₂ (Converts m channel) numbers r.1 := by
  induction numbers generalizing clamped r with
  | nil =>
    obtain rfl := Except.ok.inj h
    exact .nil
  | cons number rest ih =>
    obtain ⟨pattern, list, _, more, hpattern, hlist, hmore, hr⟩ := convertPatterns_cons_eq_ok h
    rw [hr]
    exact .cons ⟨pattern, hpattern, hlist⟩ (ih hmore)

/-- A row plays the list of its pattern. -/
theorem TrackOf.inlined?_rowEvent (h : TrackOf m channel column track) {number : UInt8}
    (hn : number ∈ column) : ∃ list, Converts m channel number list ∧
      track.inlined? (rowEvent column number) = some list.events := by
  obtain ⟨-, clamped, hlists⟩ := h
  have hmem := mem_patternNumbers.mpr hn
  have hget : (patternNumbers column)[(patternNumbers column).idxOf number]? = some number := by
    rw [List.getElem?_eq_getElem (List.idxOf_lt_length_of_mem hmem), List.getElem_idxOf]
  obtain ⟨pattern, list, hpattern, hlist, hindex⟩ := convertPatterns_getElem? hlists hget
  refine ⟨list, ⟨pattern, hpattern, hlist⟩, ?_⟩
  simp only [ChannelTrack.inlined?, rowEvent, hindex]
  rfl

theorem TrackOf.inlineAll?_rowEvents (h : TrackOf m channel column track) {numbers : List UInt8}
    (hn : ∀ number ∈ numbers, number ∈ column) :
    ∃ lists, List.Forall₂ (Converts m channel) numbers lists ∧
      track.inlineAll? (numbers.map (rowEvent column)) = some (lists.flatMap EventList.events) := by
  induction numbers with
  | nil => exact ⟨[], .nil, rfl⟩
  | cons number rest ih =>
    obtain ⟨list, hlist, hfirst⟩ := h.inlined?_rowEvent (hn number (List.mem_cons_self ..))
    obtain ⟨lists, hlists, hrest⟩ := ih fun n hr => hn n (List.mem_cons_of_mem _ hr)
    refine ⟨list :: lists, .cons hlist hlists, ?_⟩
    simp [ChannelTrack.inlineAll?, hfirst, hrest]

/-- Every sub-pattern is that of a row. -/
theorem TrackOf.exists_rowEvent (h : TrackOf m channel column track) {index : Nat}
    (hi : index < track.subPatterns.length) :
    ∃ number ∈ column, (rowEvent column number).command = .jumpToSubPattern index := by
  obtain ⟨-, clamped, hlists⟩ := h
  rw [length_convertPatterns hlists] at hi
  have hnodup : (patternNumbers column).Nodup :=
    (pairwise_patternNumbers column).imp fun h => UInt8.ne_of_lt h
  refine ⟨(patternNumbers column)[index], mem_patternNumbers.mp (List.getElem_mem hi), ?_⟩
  rw [rowEvent, hnodup.idxOf_getElem index hi]

theorem TrackOf.columnTrack (h : TrackOf m channel column track) :
    ColumnTrack m channel column track where
  subPatterns := by
    obtain ⟨-, clamped, hlists⟩ := h
    exact ⟨patternNumbers column, pairwise_patternNumbers column, fun _ => mem_patternNumbers,
      forall₂_convertPatterns hlists⟩
  used := by
    intro index hi
    obtain ⟨number, hn, hcommand⟩ := h.exists_rowEvent hi
    refine ⟨_, ?_, hcommand⟩
    rw [h.1, mainList_events]
    exact List.mem_append_right _ (List.mem_append_left _ (List.mem_map_of_mem hn))
  played := by
    obtain ⟨lists, hlists, hrows⟩ := h.inlineAll?_rowEvents fun _ hn => hn
    refine ⟨lists, hlists, ?_⟩
    rw [ChannelTrack.played?, h.1, mainList_events]
    have hselect : track.inlineAll? (selectEvents channel m.instruments.length.toUInt8) = some _ :=
      ChannelTrack.inlineAll?_of_playsRow fun e he => by rw [mem_selectEvents he]; rfl
    exact ChannelTrack.inlineAll?_append hselect (ChannelTrack.inlineAll?_append hrows rfl)

/-! ### Songs -/

/-- A song plays the pattern matrix of a module: the tracker channels with a
column have tracks that play it, and the record behind those of the module's
instruments is the one for samples. -/
structure PlaysMatrix (song : Song) (m : Module) : Prop where
  present : ∀ channel : Fin channelCount,
    (song.trackerTrack? channel).isSome = (m.matrix[channel.val]?).join.isSome
  tracks : ∀ (channel : Fin channelCount) (column : List UInt8) (track : ChannelTrack),
    (m.matrix[channel.val]?).join = some column → song.trackerTrack? channel = some track →
    ColumnTrack m channel column track
  sampler : ∃ table, song.instruments[m.instruments.length.toUInt8.toNat]? = some (.adpcmA table)

theorem trackerTrack?_eq (song : Song) (channel : Fin channelCount) :
    song.trackerTrack? channel = song.channels.get (driverChannel channel) := by
  rw [trackerTrack?, dif_pos channel.isLt]
  rfl

section Matrix

variable (m : Module) (matrix : List (Option (List UInt8)))

/-- The conversion of patterns does not depend on the matrix. -/
theorem convertPatterns_matrix (channel : Nat) : ∀ (clamped : Bool) (numbers : List UInt8),
    convertPatterns { m with matrix := matrix } channel clamped numbers =
      convertPatterns m channel clamped numbers
  | _, [] => rfl
  | clamped, number :: rest => by
    simp only [convertPatterns, convertPatterns_matrix channel _ rest]
    rfl

theorem tracksFrom_matrix (sampler : UInt8) : ∀ (channel : Nat)
    (columns : List (Option (List UInt8))),
    tracksFrom { m with matrix := matrix } sampler channel columns =
      tracksFrom m sampler channel columns
  | _, [] => rfl
  | channel, none :: rest => by
    simp only [tracksFrom, tracksFrom_matrix sampler (channel + 1) rest]
  | channel, some column :: rest => by
    simp only [tracksFrom, track, tracksFrom_matrix sampler (channel + 1) rest,
      convertPatterns_matrix]

/-- Columns past those of the channels do not matter. -/
theorem ofModule_matrix (h : matrix.take channelCount = m.matrix.take channelCount)
    (vromStart : Nat) : ofModule { m with matrix := matrix } vromStart = ofModule m vromStart := by
  simp only [ofModule, tracksFrom_matrix, h]

end Matrix

/-- **The song of a module plays its pattern matrix,** of which only the columns
of the channels matter. -/
theorem ofModule_playsMatrix {vromStart : Nat} {song : Song} (h : ofModule m vromStart = .ok song) :
    song.PlaysMatrix m ∧ ∀ matrix, matrix.take channelCount = m.matrix.take channelCount →
      ofModule { m with matrix := matrix } vromStart = .ok song := by
  refine ⟨⟨?_, ?_, ?_⟩, fun matrix hmatrix => (ofModule_matrix m matrix hmatrix vromStart).trans h⟩
  · intro channel
    have hchannel := ofModule_channel h channel
    rw [trackerTrack?_eq]
    cases hc : (m.matrix[channel.val]?).join with
    | none =>
      rw [hc] at hchannel
      exact congrArg Option.isSome hchannel
    | some column =>
      rw [hc] at hchannel
      obtain ⟨track, ht, -⟩ := hchannel
      exact congrArg Option.isSome ht
  · intro channel column track hcolumn ht
    have hchannel := ofModule_channel h channel
    rw [hcolumn] at hchannel
    obtain ⟨track', ht', htrack⟩ := hchannel
    rw [trackerTrack?_eq, ht'] at ht
    obtain rfl := Option.some.inj ht
    exact htrack.columnTrack
  · obtain ⟨hle, -⟩ := ofModule_eq_ok h
    obtain ⟨-, records, tables, hall, hinstruments, -⟩ := ofModule_parts h
    have hlength : records.length = m.instruments.length := by
      rw [← InstrumentRecord.length_ofTrackerAll m.instruments [], hall]
    have hbyte : m.instruments.length.toUInt8.toNat = m.instruments.length :=
      UInt8.toNat_ofNat_of_lt (Nat.lt_of_le_of_lt hle (by decide))
    refine ⟨tables.length, ?_⟩
    rw [hbyte, hinstruments, ← hlength]
    simp

theorem ofModule_playsMatrix_circling : ∃ song track, ofModule SoundBank.circling 0 = .ok song ∧
    song.trackerTrack? 0 = some track ∧ ColumnTrack SoundBank.circling 0 [1, 0, 1] track ∧
    song.PlaysMatrix SoundBank.circling := by
  obtain ⟨song, h⟩ : ∃ song, ofModule SoundBank.circling 0 = .ok song :=
    Except.exists_of_isOk (by decide +kernel)
  have hplays := (ofModule_playsMatrix h).1
  let first : Fin channelCount := ⟨0, by decide⟩
  obtain ⟨track, ht⟩ : ∃ track, song.trackerTrack? 0 = some track :=
    Option.isSome_iff_exists.mp (hplays.present first)
  exact ⟨song, track, h, ht, hplays.tracks first [1, 0, 1] track rfl ht, hplays⟩

end Song
end Chiptune
