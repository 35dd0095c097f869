/-
# The instrument table of a module's song

An instrument record points to the tables of its envelopes. The indices of
these tables are handed out one by one while the instruments of a module are
converted, so they rise along the module, and each envelope has a table of its
own (`InstrumentRecord.ofTrackerAll_points`,
`InstrumentRecord.ofTrackerAll_rising`). In the data of a song, tables stand one
behind the other, and the records stand behind them in steps of 32 bytes
(`Song.table_holds`, `Song.record_holds`). So the pointers of a record lead to
the tables of its own envelopes, and no two of these tables overlap
(`Song.ofModule_instrumentTable`).

Key definitions: `EnvelopeSlot`, `InstrumentRecord.table?`,
`InstrumentRecord.Points`, `Song.tableOffset`, `CompiledSong.EnvelopeAt`,
`CompiledSong.InstrumentTable`.
Key theorems: `InstrumentRecord.ofTrackerAll_points`,
`InstrumentRecord.ofTrackerAll_rising`, `Song.table_holds`,
`Song.record_holds`, `Song.read_header`, `Song.ofModule_slot`,
`Song.ofModule_disjoint`, `Song.ofModule_instrumentTable`.
-/
import Chiptune.Proofs.ModuleLabels
import Chiptune.Proofs.SizeBudget
import Mathlib.Algebra.GroupWithZero.Nat

namespace Chiptune

open Tracker

/-! ### Envelopes of instruments -/

/-- What an envelope of an SSG instrument shapes. -/
inductive EnvelopeSlot where
  | volume
  | arpeggio
  | mixing
  deriving DecidableEq, Repr

namespace EnvelopeSlot

/-- Where the pointer to the table of an envelope stands in a record. -/
def offset : EnvelopeSlot → Nat
  | .volume => 1
  | .arpeggio => 3
  | .mixing => 5

/-- The envelope of an instrument. -/
def envelope (s : SsgInstrument) : EnvelopeSlot → Option Envelope
  | .volume => s.volume
  | .arpeggio => s.arpeggio
  | .mixing => s.mixing

end EnvelopeSlot

/-- An envelope of a module. -/
structure EnvelopePlace (m : Module) where
  index : Nat
  instrument : SsgInstrument
  slot : EnvelopeSlot
  envelope : Envelope
  instrument_eq : m.instruments[index]? = some (.ssg instrument)
  envelope_eq : slot.envelope instrument = some envelope

namespace InstrumentRecord

variable {tables tables' : List Table}

/-- The index of the table of an envelope. -/
def table? (slot : EnvelopeSlot) : InstrumentRecord → Option Nat
  | .ssg _ _ volume arpeggio mixing =>
    match slot with
    | .volume => volume
    | .arpeggio => arpeggio
    | .mixing => mixing
  | _ => none

/-- The index leads to the table of an envelope, and there is none if there is
no envelope. -/
def Points (tables : List Table) (index : Option Nat) (e : Option Envelope) : Prop :=
  index.map (tables[·]?) = e.map fun e => some (.ofEnvelope e)

/-- More tables change nothing for those that are there. -/
theorem Points.mono {index : Option Nat} {e : Option Envelope} (h : Points tables index e)
    (hp : tables <+: tables') : Points tables' index e := by
  obtain ⟨rest, rfl⟩ := hp
  cases index with
  | none => exact h
  | some i =>
    cases e with
    | none => cases h
    | some e =>
      have hi : tables[i]? = some (.ofEnvelope e) := Option.some.inj h
      have hlt := (List.getElem?_eq_some_iff.mp hi).1
      show some (tables ++ rest)[i]? = _
      rw [List.getElem?_append_left hlt, hi]
      rfl

theorem addEnvelope_points (tables : List Table) (e : Option Envelope) :
    tables <+: (addEnvelope tables e).2 ∧
      Points (addEnvelope tables e).2 (addEnvelope tables e).1 e := by
  cases e with
  | none => exact ⟨List.prefix_rfl, rfl⟩
  | some e => exact ⟨List.prefix_append .., by simp [addEnvelope, Points]⟩

theorem addEnvelope_bounds {e : Option Envelope} {k : Nat}
    (h : (addEnvelope tables e).1 = some k) :
    tables.length ≤ k ∧ k < (addEnvelope tables e).2.length := by
  cases e with
  | none => cases h
  | some e =>
    obtain rfl := Option.some.inj h
    simp [addEnvelope]

/-- The record of an instrument points to the tables of its envelopes. -/
theorem ofTracker_points (tables : List Table) (s : SsgInstrument) :
    tables <+: (ofTracker tables (.ssg s)).2 ∧
      ∃ volume arpeggio mixing,
        (ofTracker tables (.ssg s)).1 = .ssg s.tone s.noise volume arpeggio mixing ∧
        ∀ slot : EnvelopeSlot, Points (ofTracker tables (.ssg s)).2
          ((ofTracker tables (.ssg s)).1.table? slot) (slot.envelope s) := by
  obtain ⟨hp₁, hvolume⟩ := addEnvelope_points tables s.volume
  obtain ⟨hp₂, harpeggio⟩ := addEnvelope_points (addEnvelope tables s.volume).2 s.arpeggio
  obtain ⟨hp₃, hmixing⟩ := addEnvelope_points
    (addEnvelope (addEnvelope tables s.volume).2 s.arpeggio).2 s.mixing
  refine ⟨hp₁.trans (hp₂.trans hp₃), _, _, _, rfl, fun slot => ?_⟩
  cases slot with
  | volume => exact hvolume.mono (hp₂.trans hp₃)
  | arpeggio => exact harpeggio.mono hp₃
  | mixing => exact hmixing

/-- The tables of an instrument are new, and no two slots share one. -/
theorem ofTracker_bounds {instrument : Instrument} {slot : EnvelopeSlot} {k : Nat}
    (h : (ofTracker tables instrument).1.table? slot = some k) :
    (tables.length ≤ k ∧ k < (ofTracker tables instrument).2.length) ∧
      ∀ slot', (ofTracker tables instrument).1.table? slot' = some k → slot' = slot := by
  cases instrument with
  | fm instrument => cases h
  | ssg s =>
    have hlength₁ := (addEnvelope_length tables s.volume).1
    have hlength₂ := (addEnvelope_length (addEnvelope tables s.volume).2 s.arpeggio).1
    have hlength₃ := (addEnvelope_length
      (addEnvelope (addEnvelope tables s.volume).2 s.arpeggio).2 s.mixing).1
    -- the ranges of indices that the three slots can have follow one another
    have hrange : ∀ {slot : EnvelopeSlot}, (ofTracker tables (.ssg s)).1.table? slot = some k →
        match slot with
        | .volume => tables.length ≤ k ∧ k < (addEnvelope tables s.volume).2.length
        | .arpeggio => (addEnvelope tables s.volume).2.length ≤ k ∧
            k < (addEnvelope (addEnvelope tables s.volume).2 s.arpeggio).2.length
        | .mixing => (addEnvelope (addEnvelope tables s.volume).2 s.arpeggio).2.length ≤ k ∧
            k < (ofTracker tables (.ssg s)).2.length := by
      intro slot hslot
      cases slot with
      | volume | arpeggio | mixing => exact addEnvelope_bounds hslot
    have hlength : (ofTracker tables (.ssg s)).2.length = (addEnvelope
      (addEnvelope (addEnvelope tables s.volume).2 s.arpeggio).2 s.mixing).2.length := rfl
    have hk := hrange h
    constructor
    · cases slot with
      | volume | arpeggio | mixing =>
        simp only at hk
        omega
    · intro slot' h'
      have hk' := hrange h'
      cases slot <;> cases slot' <;> simp only [reduceCtorEq] at hk hk' ⊢ <;> omega

/-- **Each record of a module points to the tables of its own envelopes.** -/
theorem ofTrackerAll_points : ∀ (instruments : List Instrument) (tables : List Table),
    tables <+: (ofTrackerAll tables instruments).2 ∧
      ∀ {i : Nat} {s : SsgInstrument}, instruments[i]? = some (.ssg s) →
        ∃ volume arpeggio mixing,
          (ofTrackerAll tables instruments).1[i]? =
            some (.ssg s.tone s.noise volume arpeggio mixing) ∧
          ∀ slot : EnvelopeSlot, Points (ofTrackerAll tables instruments).2
            (table? slot (.ssg s.tone s.noise volume arpeggio mixing)) (slot.envelope s)
  | [], _ => ⟨List.prefix_rfl, nofun⟩
  | instrument :: rest, tables => by
    have hfirst : tables <+: (ofTracker tables instrument).2 := by
      cases instrument with
      | fm instrument => exact List.prefix_rfl
      | ssg s => exact (ofTracker_points tables s).1
    obtain ⟨hkept, hrest⟩ := ofTrackerAll_points rest (ofTracker tables instrument).2
    refine ⟨hfirst.trans hkept, fun {i s} hi => ?_⟩
    cases i with
    | zero =>
      obtain rfl : instrument = .ssg s := Option.some.inj hi
      obtain ⟨-, volume, arpeggio, mixing, hrecord, hpoints⟩ := ofTracker_points tables s
      rw [hrecord] at hpoints
      exact ⟨volume, arpeggio, mixing, congrArg some hrecord, fun slot => (hpoints slot).mono hkept⟩
    | succ i => exact hrest hi

/-- **The tables of a module's envelopes rise**, so each envelope has a table of
its own. -/
theorem ofTrackerAll_rising : ∀ (instruments : List Instrument) (tables : List Table),
    (∀ record ∈ (ofTrackerAll tables instruments).1, ∀ slot k, record.table? slot = some k →
      tables.length ≤ k ∧ ∀ slot', record.table? slot' = some k → slot' = slot) ∧
    (ofTrackerAll tables instruments).1.Pairwise fun a b =>
      ∀ slot slot' k k', a.table? slot = some k → b.table? slot' = some k' → k < k'
  | [], _ => ⟨nofun, .nil⟩
  | instrument :: rest, tables => by
    have hgrows := (tablePointers_ofTracker tables instrument).1
    obtain ⟨hrecords, hpairwise⟩ := ofTrackerAll_rising rest (ofTracker tables instrument).2
    constructor
    · intro record hr slot k hk
      rcases List.mem_cons.mp hr with rfl | hr
      · obtain ⟨hbounds, hslot⟩ := ofTracker_bounds hk
        exact ⟨hbounds.1, hslot⟩
      · obtain ⟨hle, hslot⟩ := hrecords record hr slot k hk
        exact ⟨Nat.le_trans hgrows hle, hslot⟩
    · refine .cons (fun record hr slot slot' k k' hk hk' => ?_) hpairwise
      exact Nat.lt_of_lt_of_le (ofTracker_bounds hk).1.2 (hrecords record hr slot' k' hk').1

end InstrumentRecord

/-! ### Tables and records in the data -/

theorem Table.sourceAll_append (as bs : List Table) (index : Nat) :
    sourceAll index (as ++ bs) = sourceAll index as ++ sourceAll (index + as.length) bs := by
  induction as generalizing index with
  | nil => rfl
  | cons a as ih =>
    rw [List.cons_append, sourceAll, ih, sourceAll, List.length_cons, Nat.add_assoc,
      Nat.add_comm 1]
    rfl

theorem Table.offset_run_sourceAll (tables : List Table) (index : Nat) (s : Survey) :
    (s.run (sourceAll index tables)).offset =
      s.offset + (tables.map fun t => t.encode.length).sum := by
  induction tables generalizing index s with
  | nil => rfl
  | cons table rest ih =>
    rw [sourceAll, Survey.run_cons, Survey.run_cons, ih, List.map_cons, List.sum_cons,
      ← Nat.add_assoc]
    rfl

namespace Song

variable {song : Song} {l : Layout} {base limit : Nat} {c : CompiledSong}

/-- Where a table stands in the data of a song. -/
def tableOffset (song : Song) (k : Nat) : Nat :=
  ((song.tables.take k).map fun t => t.encode.length).sum

/-- A table ends before the next ones begin. -/
theorem tableOffset_add_le {k k' : Nat} {table : Table} (hk : song.tables[k]? = some table)
    (hlt : k < k') : song.tableOffset k + table.encode.length ≤ song.tableOffset k' := by
  have hsplit : song.tables.take k' = song.tables.take k ++
      (table :: (song.tables.take k').drop (k + 1)) := by
    have htake : (song.tables.take k')[k]? = some table := by
      rw [List.getElem?_take_of_lt hlt, hk]
    have heq := eq_take_append_cons htake
    rwa [List.take_take, Nat.min_eq_left (Nat.le_of_lt hlt)] at heq
  unfold tableOffset
  rw [hsplit, List.map_append, List.sum_append, List.map_cons, List.sum_cons]
  omega

/-- **A table stands at its label.** -/
theorem table_holds (ha : l.Assembled song.source) {k : Nat} {table : Table}
    (hk : song.tables[k]? = some table) :
    (survey song.source).marks (.table k) = some (song.tableOffset k) ∧
      Reader.Holds l.bytes (song.tableOffset k) table.encode := by
  have hlength : (song.tables.take k).length = k := length_take_of_getElem? hk
  have hoffset : (survey (Table.sourceAll 0 (song.tables.take k))).offset = song.tableOffset k := by
    rw [survey, Table.offset_run_sourceAll]
    exact Nat.zero_add _
  obtain ⟨after, hsource⟩ : ∃ after, song.source = Table.sourceAll 0 (song.tables.take k) ++
      .mark (.table k) :: ([.bytes table.encode] ++ after) := by
    have htables : Table.sourceAll 0 song.tables = Table.sourceAll 0 (song.tables.take k) ++
        (.mark (.table k) :: .bytes table.encode ::
          Table.sourceAll (k + 1) (song.tables.drop (k + 1))) := by
      conv_lhs => rw [eq_take_append_cons hk, Table.sourceAll_append, hlength, Nat.zero_add]
      rfl
    rw [source, bodySource, htables, List.append_assoc, List.append_assoc]
    exact ⟨_, rfl⟩
  have hholds := ha.holds (hsource.trans (List.append_cons ..))
  rw [survey_append, walk_cons, walk_nil, List.append_nil] at hholds
  have hmarks := ha.marks_eq hsource
  rw [hoffset] at hmarks
  refine ⟨hmarks, ?_⟩
  rw [← hoffset]
  exact hholds

/-- Records stand behind one another from the label of the records on. -/
theorem record_holds (ha : l.Assembled song.source) {i : Nat} {record : InstrumentRecord}
    (hi : song.instruments[i]? = some record) :
    ∃ s : Survey, Reader.Holds l.bytes ((survey song.sourceBeforeRecords).offset + 32 * i)
      (walk (Item.emit l.base (survey song.source).marks) s record.source) := by
  let before := song.sourceBeforeRecords ++
    (song.instruments.take i).flatMap InstrumentRecord.source
  have hoffset : (survey before).offset = (survey song.sourceBeforeRecords).offset + 32 * i := by
    rw [survey_append, InstrumentRecord.offset_run_sources, length_take_of_getElem? hi]
  obtain ⟨after, hsource⟩ : ∃ after, song.source = before ++ (record.source ++ after) := by
    have hrecords : song.instruments.flatMap InstrumentRecord.source =
        (song.instruments.take i).flatMap InstrumentRecord.source ++
          (record.source ++ (song.instruments.drop (i + 1)).flatMap InstrumentRecord.source) := by
      conv_lhs => rw [eq_take_append_cons hi, List.flatMap_append, List.flatMap_cons]
    rw [source, bodySource_eq, sourceBeforeLists, hrecords]
    simp only [before, List.append_assoc]
    exact ⟨_, rfl⟩
  have hholds := ha.holds hsource
  rw [hoffset] at hholds
  exact ⟨survey before, hholds⟩

theorem offset_sourceBeforeLists (song : Song) : (survey song.sourceBeforeLists).offset =
    (survey song.sourceBeforeRecords).offset + 32 * song.instruments.length := by
  rw [sourceBeforeLists, survey_append, InstrumentRecord.offset_run_sources]

/-- **The header of a compiled song is read back**, if its main lists have the
kind of such and stand behind a record. -/
theorem read_header (h : song.compile base limit = .ok c) (hrecords : song.instruments ≠ [])
    (hkind : ∀ (d : Fin channelCount) (track : ChannelTrack), song.channels.get d = some track →
      track.events.kind = .main) :
    SongHeader.read c.data (c.headerAddress - c.base) =
      .ok (song.headerAt base, c.headerAddress - c.base + 31) := by
  obtain ⟨l, rfl, ha, -, hle, rfl⟩ := compile_assembled h
  simp only [Nat.add_sub_cancel_left]
  apply SongHeader.read_of_holds
  · intro d hzero
    rw [headerAt_channels] at hzero
    obtain ⟨track, ht, hzero⟩ := Option.map_eq_some_iff.mp hzero
    have hmarks := (mainPlace ht).marks_label ha
    have haddress := toNat_addressAt hle hmarks
    rw [label_mainPlace ht (hkind d track ht), hzero, UInt16.toNat_zero] at haddress
    -- the records stand before the list
    have hgrows := Survey.offset_le_run (survey song.sourceBeforeLists)
      (ChannelTrack.sourceAll 0 (song.channels.toList.take (mainPlace ht).channel) ++
        EventList.sourceAll (mainPlace ht).channel 0
          ((mainPlace ht).track.listsBefore (mainPlace ht).which))
    rw [← survey_append, ← ListPlace.sourceBefore_eq, offset_sourceBeforeLists] at hgrows
    have hpos := List.length_pos_iff.mpr hrecords
    omega
  · exact header_holds ha

end Song

/-! ### The instrument table -/

/-- The table of an envelope at an address: the number of its values, of which
255 have room, its loop point, and the values. -/
structure CompiledSong.EnvelopeAt (c : CompiledSong) (address : Nat) (e : Envelope) : Prop where
  count : (c.byte? address).map UInt8.toNat = some (min e.values.length 255)
  loopPoint : c.byte? (address + 1) = some (e.loopPoint.getD 0xFF)
  values : ∀ k < min e.values.length 255, c.byte? (address + 2 + k) = e.values[k]?

/-- A compiled song has the instrument table of a module at an address. -/
structure CompiledSong.InstrumentTable (c : CompiledSong) (m : Module) (start : Nat) : Prop where
  /-- The table has one record for each instrument and one more: it ends where
  the next label stands, and there is no label in it. -/
  next : ∃ label,
    c.labels.address label = .ok (start + 32 * (m.instruments.length + 1))
  between : ∀ label address, c.labels.address label = .ok address →
    address ≤ start ∨ start + 32 * (m.instruments.length + 1) ≤ address
  inside : c.base ≤ start ∧ start + 32 * (m.instruments.length + 1) ≤ c.headerAddress
  flags : ∀ i s, m.instruments[i]? = some (.ssg s) →
    (c.byte? (start + 32 * i)).map UInt8.toNat = some (s.tone.toNat + 2 * s.noise.toNat)
  pointers : ∀ i s (slot : EnvelopeSlot), m.instruments[i]? = some (.ssg s) →
    ∃ address, c.word? (start + 32 * i + slot.offset) = some address ∧
      (slot.envelope s = none → address = 0) ∧
      (c.base ≠ 0 → address = 0 → slot.envelope s = none) ∧
      ∀ e, slot.envelope s = some e → c.EnvelopeAt address e
  /-- Tables of different envelopes do not overlap. -/
  disjoint : ∀ p q : EnvelopePlace m, (p.index, p.slot) ≠ (q.index, q.slot) →
    ∀ a b, c.word? (start + 32 * p.index + p.slot.offset) = some a →
      c.word? (start + 32 * q.index + q.slot.offset) = some b →
      a + 2 + min p.envelope.values.length 255 ≤ b ∨ b + 2 + min q.envelope.values.length 255 ≤ a

namespace CompiledSong

variable {c : CompiledSong} {pos : Nat}

theorem byte?_of_holds_getElem? {bs : List UInt8} (h : Reader.Holds c.data pos bs) {k : Nat}
    (hk : k < bs.length) : c.byte? (c.base + pos + k) = bs[k]? := by
  obtain ⟨rest, hrest⟩ := h
  have hget : c.data[pos + k]? = (bs ++ rest)[k]? := by
    rw [hrest, List.getElem?_drop, Array.getElem?_toList]
  rw [byte?, if_pos (by omega), show c.base + pos + k - c.base = pos + k by omega, hget,
    List.getElem?_append_left hk]

/-- The encoded table of an envelope. -/
theorem envelopeAt_of_holds {e : Envelope} (h : Reader.Holds c.data pos (Table.ofEnvelope e).encode) :
    c.EnvelopeAt (c.base + pos) e := by
  have hlength : (e.values.take 255).length = min e.values.length 255 := by
    rw [List.length_take, Nat.min_comm]
  have hcount := byte?_of_holds h
  obtain ⟨-, hrest⟩ := Reader.holds_cons.mp h
  have hloop := byte?_of_holds hrest
  obtain ⟨-, hvalues⟩ := Reader.holds_cons.mp hrest
  refine ⟨?_, hloop, fun k hk => ?_⟩
  · rw [hcount, hlength, Option.map_some]
    have hlt : min e.values.length 255 < 256 := by omega
    exact congrArg some (UInt8.toNat_ofNat_of_lt' hlt)
  · have hbyte := byte?_of_holds_getElem? hvalues (hlength ▸ hk)
    rw [List.getElem?_take_of_lt (by omega)] at hbyte
    exact hbyte

end CompiledSong

theorem Table.length_encode_ofEnvelope (e : Envelope) :
    (ofEnvelope e).encode.length = 2 + min e.values.length 255 := by
  rw [ofEnvelope, encode, List.length_cons, List.length_cons, List.length_take]
  omega

/-- The word of a pointer to a table, zero if there is none. -/
def Table.pointerWord (base : Nat) (marks : Label → Option Nat) (index : Option Nat) : UInt16 :=
  index.elim 0 fun k => labelWord base marks (.table k)

theorem Table.emit_pointer (base : Nat) (marks : Label → Option Nat) (s : Survey)
    (index : Option Nat) :
    (pointer index).emit base marks s = Word.bytes (pointerWord base marks index) := by
  cases index <;> rfl

theorem InstrumentRecord.toNat_mixerByte (tone noise : Bool) :
    (mixerByte tone noise).toNat = tone.toNat + 2 * noise.toNat := by
  cases tone <;> cases noise <;> rfl

/-- The bytes of an SSG record: its flags, and the pointers of its slots. -/
theorem InstrumentRecord.holds_ssg {data : Array UInt8} {pos base : Nat}
    {marks : Label → Option Nat} {s : Survey} {tone noise : Bool}
    {volume arpeggio mixing : Option Nat}
    (h : Reader.Holds data pos (walk (Item.emit base marks) s
      (InstrumentRecord.ssg tone noise volume arpeggio mixing).source)) :
    Reader.Holds data pos [mixerByte tone noise] ∧ ∀ slot : EnvelopeSlot,
      Reader.Holds data (pos + slot.offset) (Word.bytes (Table.pointerWord base marks
        (table? slot (.ssg tone noise volume arpeggio mixing)))) := by
  have hwalk : walk (Item.emit base marks) s
      (InstrumentRecord.ssg tone noise volume arpeggio mixing).source =
      [mixerByte tone noise] ++ (Word.bytes (Table.pointerWord base marks volume) ++
        (Word.bytes (Table.pointerWord base marks arpeggio) ++
          (Word.bytes (Table.pointerWord base marks mixing) ++ List.replicate 25 0))) := by
    simp only [source, List.map_cons, List.map_nil, List.cons_append, List.nil_append, walk_cons,
      walk_nil, Table.emit_pointer]
    rfl
  rw [hwalk, Reader.holds_append, Reader.holds_append, Reader.holds_append,
    Reader.holds_append] at h
  obtain ⟨hflags, hvolume, harpeggio, hmixing, -⟩ := h
  refine ⟨hflags, fun slot => ?_⟩
  cases slot with
  | volume => exact hvolume
  | arpeggio => exact harpeggio
  | mixing => exact hmixing

/-- A label that a part of a source does not mark stands before or behind it. -/
theorem Layout.Assembled.marks_outside {l : Layout} {items as is bs : List Item} {label : Label}
    (ha : l.Assembled items) (h : items = as ++ (is ++ bs)) (hnone : .mark label ∉ is)
    {o : Nat} (ho : (survey items).marks label = some o) :
    o ≤ (survey as).offset ∨ (survey (as ++ is)).offset ≤ o := by
  have hmem : .mark label ∈ items :=
    survey_marks_ne_none.mp (by rw [ho]; exact Option.some_ne_none o)
  rw [h, List.mem_append, List.mem_append, or_iff_right hnone] at hmem
  rcases hmem with hmem | hmem
  · obtain ⟨before, after, hsplit⟩ := List.append_of_mem hmem
    have hitems : items = before ++ .mark label :: (after ++ (is ++ bs)) := by simp [h, hsplit]
    have hmarks := ha.marks_eq hitems
    obtain rfl : o = (survey before).offset := Option.some.inj (ho.symm.trans hmarks)
    rw [hsplit, survey_append]
    exact .inl (Survey.offset_le_run _ _)
  · obtain ⟨before, after, hsplit⟩ := List.append_of_mem hmem
    have hitems : items = (as ++ is ++ before) ++ .mark label :: after := by simp [h, hsplit]
    have hmarks := ha.marks_eq hitems
    obtain rfl : o = (survey (as ++ is ++ before)).offset := Option.some.inj (ho.symm.trans hmarks)
    rw [survey_append]
    exact .inr (Survey.offset_le_run _ _)

/-- The source of lists begins with the label of the first one. -/
theorem ChannelTrack.sourceAll_eq_mark : ∀ (tracks : List (Option ChannelTrack)) (channel : Nat),
    sourceAll channel tracks = [] ∨ ∃ label rest, sourceAll channel tracks = .mark label :: rest
  | [], _ => .inl rfl
  | none :: rest, channel => sourceAll_eq_mark rest (channel + 1)
  | some track :: rest, channel => by
    right
    rw [sourceAll, source]
    cases track.subPatterns with
    | nil => exact ⟨_, _, rfl⟩
    | cons list lists => exact ⟨_, _, rfl⟩

namespace Song

variable {song : Song} {base limit : Nat} {c : CompiledSong} {m : Module} {vromStart : Nat}

/-- The address of the instrument records of a song at `base`. -/
def recordsAt (song : Song) (base : Nat) : Nat := base + (survey song.sourceBeforeRecords).offset

/-- What an SSG record holds: its flags, and the addresses of its tables. -/
theorem ssgRecord_holds (h : song.compile base limit = .ok c) {i : Nat} {tone noise : Bool}
    {volume arpeggio mixing : Option Nat}
    (hi : song.instruments[i]? = some (.ssg tone noise volume arpeggio mixing)) :
    c.byte? (song.recordsAt base + 32 * i) = some (InstrumentRecord.mixerByte tone noise) ∧
      ∀ slot : EnvelopeSlot,
        (∀ k, InstrumentRecord.table? slot (.ssg tone noise volume arpeggio mixing) = some k →
          k < song.tables.length) →
        c.word? (song.recordsAt base + 32 * i + slot.offset) =
          some ((InstrumentRecord.table? slot (.ssg tone noise volume arpeggio mixing)).elim 0
            fun k => base + song.tableOffset k) := by
  obtain ⟨l, rfl, ha, -, hle, rfl⟩ := compile_assembled h
  obtain ⟨s, hholds⟩ := record_holds ha hi
  obtain ⟨hflags, hslots⟩ := InstrumentRecord.holds_ssg hholds
  constructor
  · rw [recordsAt, Nat.add_assoc]
    exact CompiledSong.byte?_of_holds (c := ⟨_, _, _, _⟩) hflags
  · intro slot hslot
    have hword : (Table.pointerWord l.base (survey song.source).marks
        (InstrumentRecord.table? slot (.ssg tone noise volume arpeggio mixing))).toNat =
        (InstrumentRecord.table? slot (.ssg tone noise volume arpeggio mixing)).elim 0
          fun k => l.base + song.tableOffset k := by
      cases hk : InstrumentRecord.table? slot (.ssg tone noise volume arpeggio mixing) with
      | none => rfl
      | some k =>
        have hmarks := (table_holds ha (List.getElem?_eq_getElem (hslot k hk))).1
        exact toNat_addressAt hle hmarks
    rw [← hword, recordsAt, Nat.add_assoc, Nat.add_assoc, ← Nat.add_assoc _ (32 * i)]
    exact CompiledSong.word?_of_holds (c := ⟨_, _, _, _⟩) (hslots slot)

/-- The record of an SSG instrument of a module points to the tables of its
envelopes. -/
theorem ofModule_ssgRecord (h : ofModule m vromStart = .ok song) {i : Nat} {s : SsgInstrument}
    (hi : m.instruments[i]? = some (.ssg s)) :
    ∃ volume arpeggio mixing,
      song.instruments[i]? = some (.ssg s.tone s.noise volume arpeggio mixing) ∧
      (InstrumentRecord.ofTrackerAll [] m.instruments).1[i]? =
        some (.ssg s.tone s.noise volume arpeggio mixing) ∧
      ∀ slot : EnvelopeSlot, InstrumentRecord.Points song.tables
        (InstrumentRecord.table? slot (.ssg s.tone s.noise volume arpeggio mixing))
        (slot.envelope s) := by
  obtain ⟨-, records, tables, hall, hinstruments, htables⟩ := ofModule_parts h
  obtain ⟨-, hrecords⟩ := InstrumentRecord.ofTrackerAll_points m.instruments []
  obtain ⟨volume, arpeggio, mixing, hrecord, hpoints⟩ := hrecords hi
  refine ⟨volume, arpeggio, mixing, ?_, hrecord, fun slot => (hpoints slot).mono ?_⟩
  · rw [hall] at hrecord
    rw [hinstruments, List.getElem?_append_left (List.getElem?_eq_some_iff.mp hrecord).1, hrecord]
  · rw [hall, htables]
    exact List.prefix_append ..

/-- An envelope has a table of its own, to which its record points. -/
theorem exists_table (h : ofModule m vromStart = .ok song) (hc : song.compile base limit = .ok c)
    (p : EnvelopePlace m) :
    ∃ record k, (InstrumentRecord.ofTrackerAll [] m.instruments).1[p.index]? = some record ∧
      record.table? p.slot = some k ∧ song.tables[k]? = some (.ofEnvelope p.envelope) ∧
      c.word? (song.recordsAt base + 32 * p.index + p.slot.offset) =
        some (base + song.tableOffset k) := by
  obtain ⟨volume, arpeggio, mixing, hrecord, hall, hpoints⟩ := ofModule_ssgRecord h p.instrument_eq
  have hslot := hpoints p.slot
  have hword := (ssgRecord_holds hc hrecord).2 p.slot
  rw [p.envelope_eq] at hslot
  cases hk : InstrumentRecord.table? p.slot
      (.ssg p.instrument.tone p.instrument.noise volume arpeggio mixing) with
  | none =>
    rw [hk] at hslot
    cases hslot
  | some k =>
    rw [hk] at hslot hword
    have htable : song.tables[k]? = some (.ofEnvelope p.envelope) := Option.some.inj hslot
    refine ⟨_, k, hall, hk, htable, hword fun k' hk' => ?_⟩
    obtain rfl := Option.some.inj hk'
    exact (List.getElem?_eq_some_iff.mp htable).1

/-- Different envelopes have different tables. -/
theorem table_ne {p q : EnvelopePlace m} (hpq : (p.index, p.slot) ≠ (q.index, q.slot))
    {r r' : InstrumentRecord} {k k' : Nat}
    (hr : (InstrumentRecord.ofTrackerAll [] m.instruments).1[p.index]? = some r)
    (hr' : (InstrumentRecord.ofTrackerAll [] m.instruments).1[q.index]? = some r')
    (hk : r.table? p.slot = some k) (hk' : r'.table? q.slot = some k') : k ≠ k' := by
  obtain ⟨hslots, hrising⟩ := InstrumentRecord.ofTrackerAll_rising m.instruments []
  rw [List.pairwise_iff_getElem] at hrising
  obtain ⟨hlt, hget⟩ := List.getElem?_eq_some_iff.mp hr
  obtain ⟨hlt', hget'⟩ := List.getElem?_eq_some_iff.mp hr'
  rcases Nat.lt_trichotomy p.index q.index with hi | hi | hi
  · have hless := hrising _ _ hlt hlt' hi p.slot q.slot k k'
    rw [hget, hget'] at hless
    exact Nat.ne_of_lt (hless hk hk')
  · rintro rfl
    obtain rfl : r = r' := by rw [hi, hr'] at hr; exact (Option.some.inj hr).symm
    have hslot := (hslots r (List.mem_of_getElem? hr) p.slot k hk).2 q.slot hk'
    exact hpq (by rw [hi, hslot])
  · have hless := hrising _ _ hlt' hlt hi q.slot p.slot k' k
    rw [hget, hget'] at hless
    exact Nat.ne_of_gt (hless hk' hk)

/-- The records of a song end where the next label stands, and there is no label
between them. -/
theorem records_bounds (hc : song.compile base limit = .ok c) :
    (∃ label, c.labels.address label =
      .ok (song.recordsAt base + 32 * song.instruments.length)) ∧
    (∀ label address, c.labels.address label = .ok address → address ≤ song.recordsAt base ∨
      song.recordsAt base + 32 * song.instruments.length ≤ address) ∧
    song.recordsAt base + 32 * song.instruments.length ≤ c.headerAddress := by
  have hend := offset_sourceBeforeLists song
  have haddress : ∀ {label o}, (survey song.source).marks label = some o →
      c.labels.address label = .ok (base + o) := compile_address hc
  obtain ⟨l, rfl, ha, -, -, rfl⟩ := compile_assembled hc
  unfold recordsAt
  refine ⟨?_, ?_, ?_⟩
  · obtain ⟨label, rest, hnext⟩ : ∃ label rest,
        ChannelTrack.sourceAll 0 song.channels.toList ++ song.headerSource = .mark label :: rest := by
      rcases ChannelTrack.sourceAll_eq_mark song.channels.toList 0 with hnil | ⟨label, rest, hmark⟩
      · exact ⟨.header, _, by rw [hnil]; rfl⟩
      · exact ⟨label, _, by rw [hmark]; rfl⟩
    have hsource : song.source = song.sourceBeforeLists ++ .mark label :: rest := by
      rw [source, bodySource_eq, List.append_assoc, hnext]
    refine ⟨label, ?_⟩
    rw [haddress (ha.marks_eq hsource), hend, Nat.add_assoc]
  · intro label address h
    have hsource : song.source = song.sourceBeforeRecords ++
        (song.instruments.flatMap InstrumentRecord.source ++
          (ChannelTrack.sourceAll 0 song.channels.toList ++ song.headerSource)) := by
      rw [source, bodySource_eq, sourceBeforeLists, List.append_assoc, List.append_assoc]
    have hnone : ∀ label, .mark label ∉ song.instruments.flatMap InstrumentRecord.source := by
      intro label hmem
      obtain ⟨record, -, hrecord⟩ := List.mem_flatMap.mp hmem
      exact InstrumentRecord.mark_notMem_source hrecord
    rw [LabelTable.address, ha.labels] at h
    cases ho : (survey song.source).marks label with
    | none =>
      rw [ho] at h
      cases h
    | some o =>
      rw [ho] at h
      obtain rfl : l.base + o = address := Except.ok.inj h
      have houtside := ha.marks_outside hsource (hnone _) ho
      rw [← sourceBeforeLists, hend] at houtside
      omega
  · have hgrows := Survey.offset_le_run (survey song.sourceBeforeLists)
      (ChannelTrack.sourceAll 0 song.channels.toList)
    rw [← survey_append, ← bodySource_eq, hend] at hgrows
    simp only
    omega

theorem length_instruments (h : ofModule m vromStart = .ok song) :
    song.instruments.length = m.instruments.length + 1 := by
  obtain ⟨-, records, tables, hall, hinstruments, -⟩ := ofModule_parts h
  have hlength := InstrumentRecord.length_ofTrackerAll m.instruments []
  rw [hall] at hlength
  rw [hinstruments, List.length_append, hlength]
  rfl

/-- The header of a module's song points to the instrument records. -/
theorem ofModule_read_header (h : ofModule m vromStart = .ok song)
    (hc : song.compile base limit = .ok c) :
    ∃ header stop, SongHeader.read c.data (c.headerAddress - c.base) = .ok (header, stop) ∧
      header.instruments.toNat = song.recordsAt base := by
  have hrecords : song.instruments ≠ [] := by
    rw [← List.length_pos_iff, length_instruments h]
    exact Nat.succ_pos _
  refine ⟨_, _, read_header hc hrecords fun _ _ => ofModule_kind h, ?_⟩
  obtain ⟨l, rfl, ha, -, hle, rfl⟩ := compile_assembled hc
  exact toNat_addressAt hle (marks_instruments ha)

/-- A slot of a record holds the address of the table of its envelope, or
zero. -/
theorem ofModule_slot (h : ofModule m vromStart = .ok song) (hc : song.compile base limit = .ok c)
    {i : Nat} {s : SsgInstrument} (hi : m.instruments[i]? = some (.ssg s)) (slot : EnvelopeSlot) :
    ∃ address, c.word? (song.recordsAt base + 32 * i + slot.offset) = some address ∧
      (slot.envelope s = none → address = 0) ∧
      (c.base ≠ 0 → address = 0 → slot.envelope s = none) ∧
      ∀ e, slot.envelope s = some e → c.EnvelopeAt address e := by
  have hbase := compile_base hc
  cases he : slot.envelope s with
  | none =>
    obtain ⟨volume, arpeggio, mixing, hrecord, -, hpoints⟩ := ofModule_ssgRecord h hi
    have hslot := hpoints slot
    rw [he] at hslot
    have hk := Option.map_eq_none_iff.mp hslot
    have hword := (ssgRecord_holds hc hrecord).2 slot (by rw [hk]; exact nofun)
    rw [hk] at hword
    exact ⟨0, hword, fun _ => rfl, fun _ _ => rfl, nofun⟩
  | some e =>
    obtain ⟨record, k, -, -, htable, hword⟩ := exists_table h hc ⟨i, s, slot, e, hi, he⟩
    have hholds : Reader.Holds c.data (song.tableOffset k) (Table.ofEnvelope e).encode := by
      obtain ⟨l, rfl, ha, -, -, rfl⟩ := compile_assembled hc
      exact (table_holds ha htable).2
    refine ⟨base + song.tableOffset k, hword, nofun, fun hne hzero => ?_, ?_⟩
    · rw [hbase] at hne
      omega
    · rintro e' he'
      obtain rfl := Option.some.inj he'
      rw [← hbase]
      exact CompiledSong.envelopeAt_of_holds hholds

/-- The tables of different envelopes do not overlap. -/
theorem ofModule_disjoint (h : ofModule m vromStart = .ok song)
    (hc : song.compile base limit = .ok c) {p q : EnvelopePlace m}
    (hpq : (p.index, p.slot) ≠ (q.index, q.slot)) {a b : Nat}
    (ha : c.word? (song.recordsAt base + 32 * p.index + p.slot.offset) = some a)
    (hb : c.word? (song.recordsAt base + 32 * q.index + q.slot.offset) = some b) :
    a + 2 + min p.envelope.values.length 255 ≤ b ∨
      b + 2 + min q.envelope.values.length 255 ≤ a := by
  obtain ⟨r, k, hr, hk, htable, hword⟩ := exists_table h hc p
  obtain ⟨r', k', hr', hk', htable', hword'⟩ := exists_table h hc q
  obtain rfl := Option.some.inj (hword.symm.trans ha)
  obtain rfl := Option.some.inj (hword'.symm.trans hb)
  have hsize := Table.length_encode_ofEnvelope p.envelope
  have hsize' := Table.length_encode_ofEnvelope q.envelope
  rcases Nat.lt_or_gt_of_ne (table_ne hpq hr hr' hk hk') with hlt | hlt
  · have hle := tableOffset_add_le htable hlt
    omega
  · have hle := tableOffset_add_le htable' hlt
    omega

/-- **Instrument pointers lead to the right envelopes.** The header of a compiled
song of a module points to the instrument table of the module. -/
theorem ofModule_instrumentTable (h : ofModule m vromStart = .ok song)
    (hc : song.compile base limit = .ok c) :
    ∃ header stop, SongHeader.read c.data (c.headerAddress - c.base) = .ok (header, stop) ∧
      c.base = base ∧ c.InstrumentTable m header.instruments.toNat := by
  obtain ⟨header, stop, hread, hstart⟩ := ofModule_read_header h hc
  obtain ⟨hnext, hbetween, hinside⟩ := records_bounds hc
  rw [length_instruments h] at hnext hbetween hinside
  have hbase := compile_base hc
  refine ⟨header, stop, hread, hbase, ?_⟩
  rw [hstart]
  exact
    { next := hnext
      between := hbetween
      inside := ⟨by rw [hbase]; exact Nat.le_add_right _ _, hinside⟩
      flags := fun i s hi => by
        obtain ⟨volume, arpeggio, mixing, hrecord, -⟩ := ofModule_ssgRecord h hi
        rw [(ssgRecord_holds hc hrecord).1, Option.map_some, InstrumentRecord.toNat_mixerByte]
      pointers := fun i s slot hi => ofModule_slot h hc hi slot
      disjoint := fun p q hpq a b ha hb => ofModule_disjoint h hc hpq ha hb }

/-- A module with envelopes in some slots, one of them with more values than a
table has room for. -/
def shaping : Module where
  instruments :=
    [.ssg { tone := true, volume := some ⟨[15, 12, 9], some 1⟩, mixing := some ⟨[1], none⟩ },
      .fm {}, .ssg { noise := true, arpeggio := some ⟨List.replicate 300 7, none⟩ }]

theorem ofModule_instrumentTable_shaping : ∃ song c header stop, ofModule shaping 0 = .ok song ∧
    song.compile 16 defaultLimit = .ok c ∧
    SongHeader.read c.data (c.headerAddress - c.base) = .ok (header, stop) ∧
    c.base = 16 ∧ c.InstrumentTable shaping header.instruments.toNat := by
  obtain ⟨song, h⟩ : ∃ song, ofModule shaping 0 = .ok song :=
    Except.exists_of_isOk (by decide +kernel)
  have hchecked : (ofModule shaping 0 >>= checkLabels).isOk = true := by decide +kernel
  have hsizes : (ofModule shaping 0).toOption.map Song.size = some 425 := by decide +kernel
  rw [h] at hchecked hsizes
  have hsize : song.size = 425 := Option.some.inj hsizes
  -- evaluating the layout of this many bytes takes long, its size does not
  obtain ⟨c, hc⟩ : ∃ c, song.compile 16 defaultLimit = .ok c :=
    exists_compile hchecked (by rw [hsize]; decide)
  obtain ⟨header, stop, htable⟩ := ofModule_instrumentTable h hc
  exact ⟨song, c, header, stop, h, hc, htable⟩

end Song
end Chiptune
