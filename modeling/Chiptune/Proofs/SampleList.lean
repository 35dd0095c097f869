/-
# The sample list

The last instrument record of a module's song points to the list of its
samples: a count and, for each sample, the words of its first and last unit in
V-ROM. The count is one byte, so a list that is read back has as many samples as
the remainder of their number by 256 (`Reader.sampleList_of_holds`), and units
are words, so they are read back modulo `2 ^ 16`. Nothing refuses a song with
more samples or with samples farther up: the list tells all samples exactly if
there are fewer than 256 and all of them stand below unit `2 ^ 16`
(`Song.ofModule_listsSamples`), and one of 256 samples is read as empty
(`Song.not_listsSamples_crowded`).

Key definitions: `Reader.unitPairs`, `Reader.sampleList`,
`CompiledSong.ListsSamples`.
Key theorems: `Reader.sampleList_of_holds`, `Song.sampleRecord_holds`,
`Song.listsSamples_wrapped`, `Song.ofModule_listsSamples`.
-/
import Chiptune.Proofs.InstrumentTable
import Chiptune.Proofs.SampleImage

namespace Chiptune

open Tracker

/-! ### Reading the list -/

namespace Reader

variable {data : Array UInt8} {pos : Nat}

/-- A number of pairs of words. -/
def unitPairs (data : Array UInt8) (pos : Nat) : Nat → Except Nat (List (Nat × Nat) × Nat)
  | 0 => .ok ([], pos)
  | n + 1 => do
    let (first, pos) ← word data pos
    let (last, pos) ← word data pos
    let (rest, pos) ← unitPairs data pos n
    .ok ((first.toNat, last.toNat) :: rest, pos)

/-- The first and last units of the samples of a list: a count, and as many
pairs. -/
def sampleList (data : Array UInt8) (pos : Nat) : Except Nat (List (Nat × Nat) × Nat) := do
  let (count, pos) ← byte data pos
  unitPairs data pos count.toNat

/-- Units are read back modulo `2 ^ 16`. -/
theorem unitPairs_of_holds : ∀ {units : List (Nat × Nat)} {pos : Nat},
    Holds data pos (units.flatMap fun u => Word.address u.1 ++ Word.address u.2) →
    ∃ stop, unitPairs data pos units.length =
      .ok (units.map fun u => (u.1 % 0x10000, u.2 % 0x10000), stop)
  | [], pos, _ => ⟨pos, rfl⟩
  | u :: units, pos, h => by
    rw [List.flatMap_cons, List.append_assoc, holds_append, holds_append] at h
    obtain ⟨hfirst, hlast, hrest⟩ := h
    obtain ⟨stop, hpairs⟩ := unitPairs_of_holds hrest
    have hword : ∀ n : Nat, n.toUInt16.toNat = n % 0x10000 := fun n => UInt16.toNat_ofNat'
    refine ⟨stop, (Except.bind_of_ok (word_of_holds hfirst)).trans ?_⟩
    refine (Except.bind_of_ok (word_of_holds hlast)).trans ((Except.bind_of_ok hpairs).trans ?_)
    simp only [hword]
    rfl

/-- **A sample list is read back**, as far as its count and its words tell. -/
theorem sampleList_of_holds {units : List (Nat × Nat)}
    (h : Holds data pos (Table.sampleList units).encode) :
    ∃ stop, sampleList data pos =
      .ok ((units.take (units.length % 256)).map fun u => (u.1 % 0x10000, u.2 % 0x10000), stop) := by
  rw [Table.encode] at h
  have hbyte := byte_of_holds h
  have hcount : units.length.toUInt8.toNat = (units.take (units.length % 256)).length := by
    have htoNat : units.length.toUInt8.toNat = units.length % 256 := UInt8.toNat_ofNat'
    rw [htoNat, List.length_take]
    exact (Nat.min_eq_left (Nat.mod_le _ _)).symm
  -- the pairs that the count tells are the first ones
  have hpairs : Holds data (pos + 1) ((units.take (units.length % 256)).flatMap
      fun u => Word.address u.1 ++ Word.address u.2) := by
    have hall := (holds_cons.mp h).2
    rw [← List.take_append_drop (units.length % 256) units, List.flatMap_append, holds_append] at hall
    exact hall.1
  obtain ⟨stop, hread⟩ := unitPairs_of_holds hpairs
  rw [← hcount] at hread
  exact ⟨stop, (Except.bind_of_ok hbyte).trans hread⟩

end Reader

/-! ### The list of a song -/

/-- The last record of the instrument table, which follows those of the
module's instruments, points to a list that is read as these units. -/
def CompiledSong.ListsSamples (c : CompiledSong) (m : Module) (units : List (Nat × Nat)) : Prop :=
  ∃ header stop address next,
    SongHeader.read c.data (c.headerAddress - c.base) = .ok (header, stop) ∧
    c.word? (header.instruments.toNat + 32 * m.instruments.length) = some address ∧
    c.base ≤ address ∧ Reader.sampleList c.data (address - c.base) = .ok (units, next)

/-- What is listed is read back in one way. -/
theorem CompiledSong.ListsSamples.unique {c : CompiledSong} {m : Module}
    {units units' : List (Nat × Nat)} (h : c.ListsSamples m units) (h' : c.ListsSamples m units') :
    units = units' := by
  obtain ⟨header, stop, address, next, hheader, haddress, -, hlist⟩ := h
  obtain ⟨header', stop', address', next', hheader', haddress', -, hlist'⟩ := h'
  obtain ⟨rfl, -⟩ := Prod.mk.inj (Except.ok.inj (hheader.symm.trans hheader'))
  obtain rfl := Option.some.inj (haddress.symm.trans haddress')
  exact (Prod.mk.inj (Except.ok.inj (hlist.symm.trans hlist'))).1

/-- The first and last unit of a placed sample. -/
def PlacedSample.unitPair (p : PlacedSample) : Nat × Nat := (p.first, p.last)

/-- Samples do not end before they begin. -/
theorem SampleRom.Rising.first_le_last {start : Nat} {placed : List PlacedSample}
    (h : Rising start placed) : ∀ p ∈ placed, p.first ≤ p.last := by
  induction placed generalizing start with
  | nil => exact nofun
  | cons p rest ih =>
    intro q hq
    rcases List.mem_cons.mp hq with rfl | hq
    · exact h.2.1
    · exact ih h.2.2.2 q hq

namespace Song

variable {m : Module} {vromStart base limit : Nat} {song : Song} {c : CompiledSong}

/-- The last record of a module's song points to its sample list. -/
theorem sampleRecord_holds (h : ofModule m vromStart = .ok song)
    (hc : song.compile base limit = .ok c) :
    ∃ pos, c.word? (song.recordsAt base + 32 * m.instruments.length) = some (c.base + pos) ∧
      Reader.Holds c.data pos (Table.sampleList (song.samples.map PlacedSample.unitPair)).encode := by
  obtain ⟨-, records, tables, hall, hinstruments, htables⟩ := ofModule_parts h
  have hlength := InstrumentRecord.length_ofTrackerAll m.instruments []
  rw [hall] at hlength
  have hrecord : song.instruments[m.instruments.length]? = some (.adpcmA tables.length) := by
    rw [hinstruments, ← hlength, List.getElem?_concat_length]
  have htable : song.tables[tables.length]? =
      some (.sampleList (song.samples.map PlacedSample.unitPair)) := by
    rw [htables, List.getElem?_concat_length]
    rfl
  obtain ⟨l, rfl, ha, -, hle, rfl⟩ := compile_assembled hc
  obtain ⟨hmarks, hholds⟩ := table_holds ha htable
  obtain ⟨s, hword⟩ := record_holds ha hrecord
  rw [InstrumentRecord.source, walk_cons, Reader.holds_append] at hword
  have htarget := toNat_addressAt hle hmarks
  refine ⟨song.tableOffset tables.length, ?_, hholds⟩
  rw [recordsAt, Nat.add_assoc, ← htarget]
  exact CompiledSong.word?_of_holds (c := ⟨_, _, _, _⟩) hword.1

/-- What the sample list of a module's song tells. -/
theorem listsSamples_wrapped (h : ofModule m vromStart = .ok song)
    (hc : song.compile base limit = .ok c) :
    c.ListsSamples m ((song.samples.take (song.samples.length % 256)).map
      fun p => (p.first % 0x10000, p.last % 0x10000)) := by
  obtain ⟨header, stop, hread, hstart⟩ := ofModule_read_header h hc
  obtain ⟨pos, hword, hholds⟩ := sampleRecord_holds h hc
  obtain ⟨next, hlist⟩ := Reader.sampleList_of_holds hholds
  rw [List.length_map, ← List.map_take, List.map_map] at hlist
  rw [← hstart] at hword
  refine ⟨header, stop, c.base + pos, next, hread, hword, Nat.le_add_right .., ?_⟩
  rw [Nat.add_sub_cancel_left]
  exact hlist

/-- Wrapped units are the units exactly if there is room for all of them. -/
theorem wrapped_eq_iff {samples : List PlacedSample} (hfirst : ∀ p ∈ samples, p.first ≤ p.last) :
    ((samples.take (samples.length % 256)).map fun p => (p.first % 0x10000, p.last % 0x10000)) =
      samples.map PlacedSample.unitPair ↔
    samples.length < 256 ∧ ∀ p ∈ samples, p.last < 0x10000 := by
  constructor
  · intro heq
    have hlength := congrArg List.length heq
    rw [List.length_map, List.length_map, List.length_take] at hlength
    have hcount : samples.length < 256 := by omega
    refine ⟨hcount, fun p hp => ?_⟩
    rw [Nat.mod_eq_of_lt hcount, List.take_length] at heq
    have hpair : (p.first % 0x10000, p.last % 0x10000) = (p.first, p.last) :=
      List.map_inj_left.mp heq p hp
    have hlast := (Prod.mk.inj hpair).2
    omega
  · rintro ⟨hcount, hlast⟩
    rw [Nat.mod_eq_of_lt hcount, List.take_length]
    apply List.map_congr_left
    intro p hp
    have hle := hfirst p hp
    have hlt := hlast p hp
    rw [Nat.mod_eq_of_lt (Nat.lt_of_le_of_lt hle hlt), Nat.mod_eq_of_lt hlt]
    rfl

/-- **When the sample list describes every sample.** It does exactly if there are
fewer than 256 samples and they stand below unit `2 ^ 16`; else it has fewer
samples, or other units. -/
theorem ofModule_listsSamples (h : ofModule m vromStart = .ok song)
    (hc : song.compile base limit = .ok c) :
    c.ListsSamples m ((song.samples.take (song.samples.length % 256)).map
      fun p => (p.first % 0x10000, p.last % 0x10000)) ∧
    (c.ListsSamples m (song.samples.map PlacedSample.unitPair) ↔
      song.samples.length < 256 ∧ ∀ p ∈ song.samples, p.last < 0x10000) := by
  have hlists := listsSamples_wrapped h hc
  have hrising := SampleRom.place_rising (ofModule_parts h).1
  refine ⟨hlists, ?_⟩
  rw [← wrapped_eq_iff hrising.first_le_last]
  constructor
  · exact fun hall => hlists.unique hall
  · intro heq
    rwa [heq] at hlists

theorem ofModule_listsSamples_drumming : ∃ song c,
    ofModule SoundBank.drumming 4095 = .ok song ∧ song.compile 16 defaultLimit = .ok c ∧
    song.samples.map PlacedSample.unitPair = [(4096, 4097), (4098, 4098)] ∧
    c.ListsSamples SoundBank.drumming (song.samples.map PlacedSample.unitPair) := by
  obtain ⟨song, h⟩ : ∃ song, ofModule SoundBank.drumming 4095 = .ok song :=
    Except.exists_of_isOk (by decide +kernel)
  have hcompiles : (ofModule SoundBank.drumming 4095 >>= fun song =>
      song.compile 16 defaultLimit).isOk = true := by decide +kernel
  have hunits : ((ofModule SoundBank.drumming 4095).toOption.map fun song =>
      song.samples.map PlacedSample.unitPair) = some [(4096, 4097), (4098, 4098)] := by
    decide +kernel
  rw [h] at hcompiles hunits
  obtain ⟨c, hc⟩ := Except.exists_of_isOk hcompiles
  have hpairs : song.samples.map PlacedSample.unitPair = [(4096, 4097), (4098, 4098)] :=
    Option.some.inj hunits
  have hcount := congrArg List.length hpairs
  refine ⟨song, c, h, hc, hpairs, (ofModule_listsSamples h hc).2.mpr ⟨?_, fun p hp => ?_⟩⟩
  · rw [List.length_map] at hcount
    rw [hcount]
    decide
  · have hmem := List.mem_map_of_mem (f := PlacedSample.unitPair) hp
    rw [hpairs] at hmem
    have hlast : ∀ u ∈ [(4096, 4097), (4098, 4098)], u.2 < 0x10000 := by decide
    exact hlast p.unitPair hmem

/-- A module with more samples than a byte can count. -/
def crowded : Module where
  samples := List.replicate 256 {}

/-- The list of 256 samples is read as empty. -/
theorem not_listsSamples_crowded : ∃ song c, ofModule crowded 0 = .ok song ∧
    song.compile 16 defaultLimit = .ok c ∧ song.samples.length = 256 ∧
    c.ListsSamples crowded [] ∧
    ¬ c.ListsSamples crowded (song.samples.map PlacedSample.unitPair) := by
  obtain ⟨song, h⟩ : ∃ song, ofModule crowded 0 = .ok song :=
    Except.exists_of_isOk (by decide +kernel)
  have hchecked : (ofModule crowded 0 >>= checkLabels).isOk = true := by decide +kernel
  have hsizes : ((ofModule crowded 0).toOption.map fun song => (song.size, song.samples.length)) =
      some (1088, 256) := by decide +kernel
  rw [h] at hchecked hsizes
  have hsize : song.size = 1088 := congrArg Prod.fst (Option.some.inj hsizes)
  have hcount : song.samples.length = 256 := congrArg Prod.snd (Option.some.inj hsizes)
  -- evaluating the layout of this many bytes takes long, its size does not
  obtain ⟨c, hc⟩ : ∃ c, song.compile 16 defaultLimit = .ok c :=
    exists_compile hchecked (by rw [hsize]; decide)
  have hlists := listsSamples_wrapped h hc
  rw [hcount] at hlists
  refine ⟨song, c, h, hc, hcount, hlists, fun hall => ?_⟩
  have hempty := congrArg List.length (hlists.unique hall)
  rw [List.length_map, List.length_map, hcount] at hempty
  cases hempty

end Song
end Chiptune
