/-
# The references of a compiled song

The label table of a compiled song tells where addresses stand in its data.
These places are the operands of the song (`Song.Operand`): the header's
pointers, the table pointers of instrument records, and the operands of jumps
to sub-patterns and to rows. The references of the labels are exactly the
operands, each one is listed once, and it holds the address of its label, a
short jump its distance from there (`Song.compile_labelsExact`).

Sites rise along the source of a song (`pairwise_walk_refs`), so no two
references, of one label or of two, have the same site.

Key definitions: `Item.refs`, `Song.Operand`, `Song.Operand.site`,
`Song.Operand.Holds`, `CompiledSong.LabelsExact`.
Key theorems: `pairwise_walk_refs`, `Song.mem_walk_refs`,
`Song.Operand.site_eq`, `Song.Operand.holds`, `Song.compile_reference?`,
`Song.compile_labelsExact`.
-/
import Chiptune.Proofs.ListCode
import Chiptune.Proofs.PositionJump
import Chiptune.Proofs.SongWalk
import Mathlib.Data.List.Nodup

namespace Chiptune

/-! ### References of a source -/

/-- The reference that an item makes: the label and its site. -/
def Item.refs (s : Survey) : Item → List (Label × Nat)
  | .pointer label => [(label, s.offset)]
  | .jump channel row => [(.matrixRow channel row, s.offset + 1)]
  | _ => []

theorem Item.sitesOf_eq (label : Label) (s : Survey) (item : Item) :
    item.sitesOf label s = ((item.refs s).filter fun x => x.1 = label).map Prod.snd := by
  cases item with
  | mark x => simp [sitesOf, target?, refs]
  | bytes bs => simp [sitesOf, target?, refs]
  | pointer x => by_cases hx : x = label <;> simp [sitesOf, target?, site, refs, hx]
  | jump c r => by_cases hx : Label.matrixRow c r = label <;> simp [sitesOf, target?, site, refs, hx]

/-- An item refers to a label from inside its bytes. -/
theorem Item.mem_refs_bounds {s : Survey} {item : Item} {x : Label × Nat} (h : x ∈ item.refs s) :
    s.offset ≤ x.2 ∧ x.2 < s.offset + item.size s := by
  cases item with
  | mark y => cases h
  | bytes bs => cases h
  | pointer y =>
    obtain rfl := List.mem_singleton.mp h
    simp [size]
  | jump c r =>
    obtain rfl := List.mem_singleton.mp h
    simp only [size]
    split <;> omega

theorem walk_sitesOf (label : Label) : ∀ (items : List Item) (s : Survey),
    walk (Item.sitesOf label) s items =
      ((walk Item.refs s items).filter fun x => x.1 = label).map Prod.snd
  | [], _ => rfl
  | item :: items, s => by
    rw [walk_cons, walk_cons, walk_sitesOf label items, Item.sitesOf_eq, List.filter_append,
      List.map_append]

theorem mem_walk_refs_bounds {items : List Item} {s : Survey} {x : Label × Nat}
    (h : x ∈ walk Item.refs s items) : s.offset ≤ x.2 ∧ x.2 < (s.run items).offset := by
  induction items generalizing s with
  | nil => cases h
  | cons item items ih =>
    have hgrows := Survey.offset_le_run (s.step item) items
    have hstep : (s.step item).offset = s.offset + item.size s := rfl
    rw [Survey.run_cons]
    rcases List.mem_append.mp h with h | h
    · have hitem := Item.mem_refs_bounds h
      omega
    · have hrest := ih h
      omega

/-- **Sites rise along a source.** -/
theorem pairwise_walk_refs : ∀ (items : List Item) (s : Survey),
    (walk Item.refs s items).Pairwise fun a b => a.2 < b.2
  | [], _ => List.Pairwise.nil
  | item :: items, s => by
    rw [walk_cons, List.pairwise_append]
    refine ⟨?_, pairwise_walk_refs items _, fun a ha b hb => ?_⟩
    · cases item <;> simp [Item.refs]
    · exact Nat.lt_of_lt_of_le (Item.mem_refs_bounds ha).2 (mem_walk_refs_bounds hb).1

theorem pairwise_walk_sitesOf (label : Label) (items : List Item) (s : Survey) :
    (walk (Item.sitesOf label) s items).Pairwise (· < ·) := by
  rw [walk_sitesOf, List.pairwise_map]
  exact (pairwise_walk_refs items s).filter _

theorem mem_walk_sitesOf {label : Label} {items : List Item} {s : Survey} {o : Nat} :
    o ∈ walk (Item.sitesOf label) s items ↔ (label, o) ∈ walk Item.refs s items := by
  rw [walk_sitesOf]
  simp

/-- A site is listed once among those of all labels. -/
theorem sitesOf_unique {label label' : Label} {items : List Item} {s : Survey} {i j o : Nat}
    (hi : (walk (Item.sitesOf label) s items)[i]? = some o)
    (hj : (walk (Item.sitesOf label') s items)[j]? = some o) : label' = label ∧ j = i := by
  have hmem := mem_walk_sitesOf.mp (List.mem_of_getElem? hi)
  have hmem' := mem_walk_sitesOf.mp (List.mem_of_getElem? hj)
  have hnodup : ((walk Item.refs s items).map Prod.snd).Nodup := by
    rw [List.nodup_iff_pairwise_ne, List.pairwise_map]
    exact (pairwise_walk_refs items s).imp Nat.ne_of_lt
  obtain rfl : label' = label := congrArg Prod.fst (List.inj_on_of_nodup_map hnodup hmem' hmem rfl)
  have hsites : (walk (Item.sitesOf label') s items).Nodup :=
    (pairwise_walk_sitesOf label' items s).imp Nat.ne_of_lt
  exact ⟨rfl, (List.getElem?_inj (List.getElem?_eq_some_iff.mp hj).1 hsites).mp (hj.trans hi.symm)⟩

theorem targetsOnly_refs : TargetsOnly Item.refs := ⟨fun _ _ => rfl, fun _ _ => rfl⟩

/-! ### Operands of a song -/

/-- The table pointers of a record: where they stand in it, and the index of
their table. -/
def InstrumentRecord.tablePointers : InstrumentRecord → List (Nat × Nat)
  | .fm _ => []
  | .ssg _ _ volume arpeggio mixing =>
    volume.toList.map (1, ·) ++ (arpeggio.toList.map (3, ·) ++ mixing.toList.map (5, ·))
  | .adpcmA sampleList => [(0, sampleList)]

namespace Song

/-- A place in the data of a song that holds the address of a label: the entry
of a channel in the header, its pointer to the instrument records, a table
pointer of a record, the operand of a jump to a sub-pattern, or that of a
position jump. -/
inductive Operand (song : Song) where
  | mainList (channel : Nat) (track : ChannelTrack)
      (track_eq : song.channels.toList[channel]? = some (some track))
  | instruments
  | table (i : Nat) (record : InstrumentRecord) (record_eq : song.instruments[i]? = some record)
      (offset index : Nat) (pointer_mem : (offset, index) ∈ record.tablePointers)
  | subPattern (p : song.Place) (index : Nat)
      (command_eq : p.event.command = .jumpToSubPattern index)
  | matrixRow (p : song.Place) (row : Nat) (command_eq : p.event.command = .positionJump row)

namespace Operand

variable {song : Song}

/-- The label whose address an operand holds. -/
def label : song.Operand → Label
  | .mainList channel _ _ => .mainList channel
  | .instruments => .instruments
  | .table _ _ _ _ index _ => .table index
  | .subPattern p index _ => .subPattern p.channel index
  | .matrixRow p row _ => .matrixRow p.channel row

/-- The address of an operand. That of a jump stands behind the waits of its
event and its opcode. -/
def site (c : CompiledSong) : song.Operand → Except Error Nat
  | .mainList channel _ _ => .ok (c.headerAddress + 2 * channel)
  | .instruments => .ok (c.headerAddress + 29)
  | .table i _ _ offset _ _ => (c.labels.address .instruments).map (· + 32 * i + offset)
  | .subPattern p _ _ | .matrixRow p _ _ => (p.address c.base).map
      (· + (Instruction.encodeAll (Instruction.waits p.event.timing)).length + 1)

end Operand
end Song

/-- The byte at an address of a compiled song. -/
def CompiledSong.byte? (c : CompiledSong) (address : Nat) : Option UInt8 :=
  if c.base ≤ address then c.data[address - c.base]? else none

/-- The word at an address of a compiled song, with the low byte first. -/
def CompiledSong.word? (c : CompiledSong) (address : Nat) : Option Nat := do
  let low ← c.byte? address
  let high ← c.byte? (address + 1)
  some (low.toNat + 256 * high.toNat)

/-- What a song's operand at `site` holds if the address of its label is
`target`: the word of this address. A position jump may be short instead, and
then holds the signed distance from its opcode, which is the byte before. -/
def Song.Operand.Holds {song : Song} (c : CompiledSong) (site target : Nat) : song.Operand → Prop
  | .mainList .. | .instruments | .table .. => c.word? site = some target
  | .subPattern .. => c.byte? (site - 1) = some 0x21 ∧ c.word? site = some target
  | .matrixRow .. =>
    (c.byte? (site - 1) = some 0x0A ∧ c.word? site = some target) ∨
      (c.byte? (site - 1) = some 0x0B ∧
        ∃ b, c.byte? site = some b ∧ (site : Int) - 1 + b.toInt8.toInt = target)

/-- A reference of a label in the table of a compiled song, by its index. -/
def CompiledSong.reference? (c : CompiledSong) (label : Label) (i : Nat) : Option Nat := do
  let entry ← c.labels.get? label
  entry.references[i]?

/-- The label table of a compiled song is an exact list of its operands: labels
are below the end of the address space, every reference is an operand in the
data that holds the address of its label, and every operand is a reference of
its label, and of no other, once. -/
structure CompiledSong.LabelsExact (song : Song) (c : CompiledSong) : Prop where
  addresses : ∀ label entry, c.labels.get? label = some entry → entry.address < Song.addressSpace
  sound : ∀ label entry r, c.labels.get? label = some entry → r ∈ entry.references →
    c.base ≤ r ∧ r < c.stop ∧ ∃ x : song.Operand,
      x.label = label ∧ x.site c = .ok r ∧ x.Holds c r entry.address
  complete : ∀ x : song.Operand, ∃ r i, x.site c = .ok r ∧ c.reference? x.label i = some r ∧
    ∀ label j, c.reference? label j = some r → label = x.label ∧ j = i

/-! ### The references of a song are its operands -/

theorem InstrumentRecord.length_padded {bytes : List UInt8} (h : bytes.length ≤ 32) :
    (padded bytes).length = 32 := by
  simp [padded, size]
  omega

theorem InstrumentRecord.length_fmBytes (instrument : Tracker.FmInstrument) :
    (fmBytes instrument).length = 30 := by
  have hops : (instrument.operators.toList.map fun op => (operatorBytes op).length).sum = 28 := by
    rw [show (fun op => (operatorBytes op).length) = fun _ => 7 from rfl, List.map_const',
      List.sum_replicate_nat, Vector.length_toList]
  simp only [fmBytes, List.length_cons, List.length_flatMap, hops]

/-- A record takes 32 bytes. -/
theorem InstrumentRecord.offset_run_source (s : Survey) (record : InstrumentRecord) :
    (s.run record.source).offset = s.offset + 32 := by
  cases record with
  | fm instrument =>
    have hlen : (padded (fmBytes instrument)).length = 32 :=
      length_padded (by rw [length_fmBytes]; decide)
    simp [source, Survey.step, Item.size, hlen]
  | ssg tone noise volume arpeggio mixing =>
    cases volume <;> cases arpeggio <;> cases mixing <;>
      simp [source, Survey.step, Item.size, Table.pointer]
  | adpcmA sampleList => simp [source, Survey.step, Item.size]

theorem InstrumentRecord.offset_run_sources (records : List InstrumentRecord) (s : Survey) :
    (s.run (records.flatMap source)).offset = s.offset + 32 * records.length := by
  induction records generalizing s with
  | nil => rfl
  | cons record rest ih =>
    rw [List.flatMap_cons, Survey.run_append, ih, offset_run_source, List.length_cons]
    omega

/-- The references of a record are its table pointers. -/
theorem InstrumentRecord.walk_refs_source (s : Survey) (record : InstrumentRecord) :
    walk Item.refs s record.source =
      record.tablePointers.map fun p => (.table p.2, s.offset + p.1) := by
  cases record with
  | fm instrument => rfl
  | ssg tone noise volume arpeggio mixing =>
    cases volume <;> cases arpeggio <;> cases mixing <;>
      simp [source, tablePointers, Survey.step, Item.size, Item.refs, Table.pointer]
  | adpcmA sampleList => simp [source, tablePointers, Item.refs]

theorem InstrumentRecord.mem_walk_refs {records : List InstrumentRecord} {s : Survey}
    {x : Label × Nat} : x ∈ walk Item.refs s (records.flatMap source) ↔
      ∃ i record, records[i]? = some record ∧ ∃ p ∈ record.tablePointers,
        (.table p.2, s.offset + 32 * i + p.1) = x := by
  rw [mem_walk_blocks (fun _ => source) (fun n _ => n) (fun _ => rfl)
    (fun _ _ _ => List.flatMap_cons) (fun _ => rfl) (fun _ _ _ => rfl)]
  · refine exists_congr fun i => exists_congr fun record => and_congr_right fun hr => ?_
    rw [walk_refs_source, List.mem_map, offset_run_sources, length_take_of_getElem? hr]
  · exact 0

namespace Song

theorem headerPointers_cons (channel : Nat) (entry : Option ChannelTrack)
    (rest : List (Option ChannelTrack)) : headerPointers channel (entry :: rest) =
      [entry.elim (.bytes (Word.bytes 0)) fun _ => .pointer (.mainList channel)] ++
        headerPointers (channel + 1) rest := by
  cases entry <;> rfl

theorem offset_run_headerPointers (tracks : List (Option ChannelTrack)) (channel : Nat)
    (s : Survey) : (s.run (headerPointers channel tracks)).offset = s.offset + 2 * tracks.length := by
  induction tracks generalizing channel s with
  | nil => rfl
  | cons entry rest ih =>
    rw [headerPointers_cons, Survey.run_append, ih, List.length_cons]
    have hentry : (s.run [entry.elim (.bytes (Word.bytes 0)) fun _ => .pointer (.mainList channel)]).offset
        = s.offset + 2 := by
      cases entry <;> rfl
    omega

/-- The references of the header are its entries for channels and its pointer
to the instrument records. -/
theorem mem_walk_refs_header {song : Song} {s : Survey} {x : Label × Nat} :
    x ∈ walk Item.refs s song.headerSource ↔
      (∃ channel track, song.channels.toList[channel]? = some (some track) ∧
        (.mainList channel, s.offset + 2 * channel) = x) ∨ (.instruments, s.offset + 29) = x := by
  have hpointers : x ∈ walk Item.refs (s.step (.mark .header)) (headerPointers 0 song.channels.toList)
      ↔ ∃ channel track, song.channels.toList[channel]? = some (some track) ∧
        (.mainList channel, s.offset + 2 * channel) = x := by
    rw [mem_walk_blocks
      (fun channel (entry : Option ChannelTrack) =>
        [entry.elim (.bytes (Word.bytes 0)) fun _ => .pointer (.mainList channel)])
      (fun channel tracks => channel + tracks.length) (fun _ => rfl) headerPointers_cons
      (fun _ => rfl) (fun channel _ rest => by simp only [List.length_cons, List.length_nil]; omega)]
    refine exists_congr fun channel => ?_
    constructor
    · rintro ⟨entry, he, hx⟩
      cases entry with
      | none => cases hx
      | some track =>
        refine ⟨track, he, ?_⟩
        simpa [Item.refs, offset_run_headerPointers, length_take_of_getElem? he, Survey.step,
          Item.size, eq_comm] using hx
    · rintro ⟨track, ht, rfl⟩
      refine ⟨some track, ht, ?_⟩
      simp [Item.refs, offset_run_headerPointers, length_take_of_getElem? ht, Survey.step, Item.size]
  rw [headerSource, walk_cons, targetsOnly_refs.mark, List.nil_append, walk_append, List.mem_append,
    hpointers]
  refine or_congr_right ?_
  have hcount : song.channels.toList.length = 13 := Vector.length_toList ..
  simp [Item.refs, Survey.step, Item.size, offset_run_headerPointers, hcount, eq_comm]

end Song

/-- The reference of an event stands behind its body and an opcode. -/
theorem Event.mem_walk_refs {channel : Nat} {event : Event} {s : Survey} {x : Label × Nat} :
    x ∈ walk Item.refs s (event.source channel) ↔
      (∃ index, event.command = .jumpToSubPattern index ∧
        (.subPattern channel index,
          s.offset + (Instruction.encodeAll (Instruction.waits event.timing)).length + 1) = x) ∨
      ∃ row, event.command = .positionJump row ∧
        (.matrixRow channel row,
          s.offset + (Instruction.encodeAll (Instruction.waits event.timing)).length + 1) = x := by
  obtain ⟨command, timing⟩ := event
  cases command with
  | jumpToSubPattern index =>
    simp only [source, body, walk_cons, walk_nil, Item.refs, Survey.step, Item.size,
      List.length_append, List.length_singleton]
    simp [Nat.add_assoc, eq_comm]
  | positionJump row =>
    simp only [source, body, walk_cons, walk_nil, Item.refs, Survey.step, Item.size]
    simp [eq_comm]
  | _ => simp [source, Item.refs]

namespace Song

variable {song : Song}

/-- Where an operand stands in the data of a song. -/
def Operand.offset : song.Operand → Nat
  | .mainList channel _ _ => (survey song.bodySource).offset + 2 * channel
  | .instruments => (survey song.bodySource).offset + 29
  | .table i _ _ offset _ _ => (survey song.sourceBeforeRecords).offset + 32 * i + offset
  | .subPattern p _ _ | .matrixRow p _ _ => (survey p.sourceBefore).offset +
      (Instruction.encodeAll (Instruction.waits p.event.timing)).length + 1

theorem Place.offset_run_rowMark (p : song.Place) :
    ((survey p.sourceBefore).run (p.event.rowMark p.channel p.row)).offset =
      (survey p.sourceBefore).offset := by
  unfold Event.rowMark
  split <;> rfl

/-- **The references of a song are its operands.** -/
theorem mem_walk_refs {x : Label × Nat} :
    x ∈ walk Item.refs {} song.source ↔ ∃ op : song.Operand, (op.label, op.offset) = x := by
  rw [mem_walk_source targetsOnly_refs, InstrumentRecord.mem_walk_refs, mem_walk_refs_header]
  simp only [Event.mem_walk_refs, Place.offset_run_rowMark]
  constructor
  · rintro (⟨i, record, hr, ptr, hp, rfl⟩ | ⟨p, (⟨index, hi, rfl⟩ | ⟨row, hr, rfl⟩)⟩ |
      (⟨channel, track, ht, rfl⟩ | rfl))
    · exact ⟨.table i record hr ptr.1 ptr.2 hp, rfl⟩
    · exact ⟨.subPattern p index hi, rfl⟩
    · exact ⟨.matrixRow p row hr, rfl⟩
    · exact ⟨.mainList channel track ht, rfl⟩
    · exact ⟨.instruments, rfl⟩
  · rintro ⟨op, rfl⟩
    cases op with
    | table i record hr offset index hp => exact .inl ⟨i, record, hr, (offset, index), hp, rfl⟩
    | subPattern p index hi => exact .inr (.inl ⟨p, .inl ⟨index, hi, rfl⟩⟩)
    | matrixRow p row hr => exact .inr (.inl ⟨p, .inr ⟨row, hr, rfl⟩⟩)
    | mainList channel track ht => exact .inr (.inr (.inl ⟨channel, track, ht, rfl⟩))
    | instruments => exact .inr (.inr (.inr rfl))

end Song

/-! ### What operands hold -/

namespace CompiledSong

variable {c : CompiledSong} {pos : Nat}

theorem byte?_of_holds {b : UInt8} {bs : List UInt8} (h : Reader.Holds c.data pos (b :: bs)) :
    c.byte? (c.base + pos) = some b := by
  rw [byte?, if_pos (Nat.le_add_right ..), Nat.add_sub_cancel_left]
  exact (Reader.holds_cons.mp h).1

theorem word?_of_holds {w : UInt16} (h : Reader.Holds c.data pos (Word.bytes w)) :
    c.word? (c.base + pos) = some w.toNat := by
  have hlow := byte?_of_holds h
  have hhigh := byte?_of_holds (Reader.holds_cons.mp h).2
  have hword := Word.toNat_ofBytes w.toUInt8 (w >>> 8).toUInt8
  rw [Word.ofBytes_bytes] at hword
  rw [word?, hlow, Nat.add_assoc, hhigh, hword]
  rfl

end CompiledSong

/-- A pointer is the word of its label's address. -/
theorem Layout.Assembled.holds_pointer {l : Layout} {items : List Item} (ha : l.Assembled items)
    {label : Label} {o target : Nat} (hmem : (label, o) ∈ walk Item.refs {} items)
    (hrow : ∀ c r, label ≠ .matrixRow c r) (htarget : (survey items).marks label = some target) :
    Reader.Holds l.bytes o (Word.address (l.base + target)) := by
  obtain ⟨as, item, bs, hsplit, hitem⟩ := mem_walk.mp hmem
  rw [← survey] at hitem
  cases item with
  | mark x => cases hitem
  | bytes bs => cases hitem
  | pointer x =>
    obtain ⟨rfl, rfl⟩ := Prod.mk.inj (List.mem_singleton.mp hitem)
    have hsplit' : items = as ++ ([.pointer label] ++ bs) := hsplit
    have hholds := ha.holds hsplit'
    rw [walk_cons, walk_nil, List.append_nil] at hholds
    simpa only [Item.emit, addressIn_of_some htarget] using hholds
  | jump c r => exact absurd (Prod.mk.inj (List.mem_singleton.mp hitem)).1 (hrow c r)

/-- A jump to a sub-pattern is its opcode and the word of the sub-pattern's
address, behind its waits. -/
theorem Song.Place.holds_subPatternJump {song : Song} {l : Layout} (p : song.Place)
    (ha : l.Assembled song.source) {index target : Nat}
    (hp : p.event.command = .jumpToSubPattern index)
    (htarget : (survey song.source).marks (.subPattern p.channel index) = some target) :
    Reader.Holds l.bytes ((survey p.sourceBefore).offset +
      (Instruction.encodeAll (Instruction.waits p.event.timing)).length)
      (0x21 :: Word.address (l.base + target)) := by
  obtain ⟨after, hsource⟩ := p.source_eq
  rw [← List.append_assoc (p.event.rowMark p.channel p.row)] at hsource
  have hholds := ha.holds hsource
  have hmark : p.event.rowMark p.channel p.row = [.mark (.matrixRow p.channel p.row)] := by
    simp [Event.rowMark, hp, Layout.playsRow]
  have hevent : p.event.source p.channel =
      [.bytes (Instruction.encodeAll (Instruction.waits p.event.timing) ++ [0x21]),
        .pointer (.subPattern p.channel index)] := by
    simp only [Event.source, Event.body, hp]
  rw [hmark, hevent] at hholds
  simp only [List.singleton_append, walk_cons, walk_nil, Item.emit,
    addressIn_of_some htarget, List.nil_append, List.append_nil, List.append_assoc] at hholds
  exact (Reader.holds_append.mp hholds).2

namespace Song

variable {song : Song} {base limit : Nat} {c : CompiledSong}

/-- A label of a compiled song has the address of its mark. -/
theorem compile_address (h : song.compile base limit = .ok c) {label : Label} {o : Nat}
    (ho : (survey song.source).marks label = some o) :
    c.labels.address label = .ok (base + o) := by
  obtain ⟨l, rfl, ha, -, -, rfl⟩ := compile_assembled h
  rw [LabelTable.address, ha.labels, ho]
  rfl

/-- Addresses of a song that ends in the driver's address space are words. -/
theorem toNat_addressAt (hle : base + (survey song.source).offset ≤ min limit addressSpace)
    {label : Label} {o : Nat} (ho : (survey song.source).marks label = some o) :
    (song.addressAt base label).toNat = base + o := by
  have hlt := marks_lt ho
  have hmin := Nat.le_trans hle (Nat.min_le_right _ _)
  unfold addressSpace at hmin
  exact toNat_labelWord ho (by omega)

theorem marks_instruments {l : Layout} (ha : l.Assembled song.source) :
    (survey song.source).marks .instruments = some (survey song.sourceBeforeRecords).offset := by
  have hmarks : (survey song.source).marks .instruments =
      some (survey (Table.sourceAll 0 song.tables)).offset := by
    apply ha.marks_eq
    rw [source, bodySource, List.append_assoc]
    rfl
  rw [hmarks, sourceBeforeRecords, survey_append]
  rfl

/-- The address of an operand is that of its place in the data. -/
theorem Operand.site_eq (h : song.compile base limit = .ok c) (x : song.Operand) :
    x.site c = .ok (base + x.offset) := by
  obtain ⟨l, rfl, ha, -, -, rfl⟩ := compile_assembled h
  cases x with
  | mainList channel track ht => exact congrArg Except.ok (Nat.add_assoc ..)
  | instruments => exact congrArg Except.ok (Nat.add_assoc ..)
  | table i record hr offset index hp =>
    rw [site, compile_address h (marks_instruments ha)]
    exact congrArg Except.ok (by simp only [Operand.offset]; omega)
  | subPattern p index hp =>
    rw [site, p.address_eq h]
    exact congrArg Except.ok (by simp only [Operand.offset]; omega)
  | matrixRow p row hp =>
    rw [site, p.address_eq h]
    exact congrArg Except.ok (by simp only [Operand.offset]; omega)

/-- **An operand holds the address of its label.** -/
theorem Operand.holds (h : song.compile base limit = .ok c) (x : song.Operand) {target : Nat}
    (htarget : (survey song.source).marks x.label = some target) :
    x.Holds c (base + x.offset) (base + target) := by
  obtain ⟨l, rfl, ha, -, hle, rfl⟩ := compile_assembled h
  have hspace : l.base + target < 0x10000 := by
    have hlt := marks_lt htarget
    have hmin := Nat.le_trans hle (Nat.min_le_right _ _)
    unfold addressSpace at hmin
    omega
  have hmem : (x.label, x.offset) ∈ walk Item.refs {} song.source := mem_walk_refs.mpr ⟨x, rfl⟩
  -- the pointers outside lists, which are no rows
  have hpointer : (∀ c r, x.label ≠ .matrixRow c r) →
      CompiledSong.word? ⟨l.base, l.bytes, l.base + (survey song.bodySource).offset, l.labels⟩
        (l.base + x.offset) = some (l.base + target) := by
    intro hrow
    rw [← Word.toNat_toUInt16 hspace]
    exact CompiledSong.word?_of_holds (ha.holds_pointer hmem hrow htarget)
  cases x with
  | mainList channel track ht => exact hpointer fun _ _ => nofun
  | instruments => exact hpointer fun _ _ => nofun
  | table i record hr offset index hp => exact hpointer fun _ _ => nofun
  | subPattern p index hp =>
    exact ⟨CompiledSong.byte?_of_holds (p.holds_subPatternJump ha hp htarget),
      hpointer fun _ _ => nofun⟩
  | matrixRow p row hp =>
    obtain ⟨i, -, -, hholds, hjump, -⟩ := p.exists_jump ha
      (show p.event = ⟨.positionJump row, p.event.timing⟩ by rw [← hp]) htarget hspace
    rw [Instruction.encodeAll_append, Reader.holds_append] at hholds
    have hcode := hholds.2
    cases i with
    | positionJump w =>
      obtain hw : (w.toNat : Int) = (l.base + target : Nat) := Option.some.inj hjump
      refine .inl ⟨CompiledSong.byte?_of_holds hcode, ?_⟩
      rw [← Int.ofNat.inj hw]
      exact CompiledSong.word?_of_holds (Reader.holds_append.mp (Reader.holds_cons.mp hcode).2).1
    | positionJumpShort d =>
      have hd := Option.some.inj hjump
      refine .inr ⟨CompiledSong.byte?_of_holds hcode, d.toUInt8,
        CompiledSong.byte?_of_holds (Reader.holds_cons.mp hcode).2, ?_⟩
      rw [Int8.toInt8_toUInt8, ← hd]
      simp only [Operand.offset]
      omega
    | _ => cases hjump

/-- The labels of a compiled song have the addresses of their marks, below the
end of the address space. -/
theorem compile_get? (h : song.compile base limit = .ok c) {label : Label} {entry : Label.Entry}
    (he : c.labels.get? label = some entry) :
    entry.address < addressSpace ∧ ∃ o, (survey song.source).marks label = some o ∧
      entry = ⟨base + o, ((walk (Item.sitesOf label) {} song.source).map (base + ·)).toArray⟩ := by
  obtain ⟨l, rfl, ha, -, hle, rfl⟩ := compile_assembled h
  rw [ha.labels, Option.map_eq_some_iff] at he
  obtain ⟨o, ho, rfl⟩ := he
  have hmin := Nat.le_trans hle (Nat.min_le_right _ _)
  exact ⟨Nat.lt_of_lt_of_le (Nat.add_lt_add_left (marks_lt ho) _) hmin, o, ho, rfl⟩

/-- The references of a label are its sites in the source. -/
theorem compile_reference? (h : song.compile base limit = .ok c) {label : Label} {i r : Nat} :
    c.reference? label i = some r ↔
      ∃ o, (walk (Item.sitesOf label) {} song.source)[i]? = some o ∧ r = base + o := by
  constructor
  · intro hr
    obtain ⟨entry, he, hr⟩ := Option.bind_eq_some_iff.mp hr
    obtain ⟨-, o, -, rfl⟩ := compile_get? h he
    simp only [List.getElem?_toArray, List.getElem?_map, Option.map_eq_some_iff] at hr
    obtain ⟨o, ho, rfl⟩ := hr
    exact ⟨o, ho, rfl⟩
  · rintro ⟨o, ho, rfl⟩
    obtain ⟨l, rfl, ha, hpending, -, rfl⟩ := compile_assembled h
    -- a label with a site is marked, or a fixup would be left
    obtain ⟨as, item, bs, hsplit, hitem⟩ := mem_walk.mp (List.mem_of_getElem? ho)
    have htarget : item.target? = some label := by
      by_contra hne
      simp [Item.sitesOf, hne] at hitem
    obtain ⟨target, hmarks⟩ := ha.exists_offset hpending (by rw [hsplit]; simp) htarget
    rw [CompiledSong.reference?, ha.labels, hmarks]
    simp [ho]

/-- **The label table of a compiled song is an exact list of its operands.** -/
theorem compile_labelsExact (h : song.compile base limit = .ok c) :
    c.base = base ∧ c.LabelsExact song := by
  have hbase := compile_base h
  have hstop : c.stop = base + (survey song.source).offset := by
    obtain ⟨l, rfl, ha, -, -, rfl⟩ := compile_assembled h
    rw [CompiledSong.stop, ha.size]
  refine ⟨hbase, fun label entry he => (compile_get? h he).1, ?_, ?_⟩
  · intro label entry r he hr
    obtain ⟨-, target, htarget, rfl⟩ := compile_get? h he
    obtain ⟨o, ho, rfl⟩ := List.mem_map.mp (List.mem_toArray.mp hr)
    have hmem := mem_walk_sitesOf.mp ho
    obtain ⟨x, hx⟩ := mem_walk_refs.mp hmem
    obtain ⟨rfl, rfl⟩ := Prod.mk.inj hx
    refine ⟨by omega, ?_, x, rfl, x.site_eq h, x.holds h htarget⟩
    rw [hstop]
    exact Nat.add_lt_add_left (mem_walk_refs_bounds hmem).2 _
  · intro x
    have hsite := mem_walk_sitesOf.mpr (mem_walk_refs.mpr ⟨x, rfl⟩)
    obtain ⟨i, hi⟩ := List.getElem?_of_mem hsite
    refine ⟨base + x.offset, i, x.site_eq h, (compile_reference? h).mpr ⟨x.offset, hi, rfl⟩, ?_⟩
    intro label j hj
    obtain ⟨o, hj, ho⟩ := (compile_reference? h).mp hj
    obtain rfl : x.offset = o := Nat.add_left_cancel ho
    exact sitesOf_unique hi hj

theorem compile_labelsExact_turning : ∃ c, turning.compile 3 defaultLimit = .ok c ∧
    c.base = 3 ∧ c.LabelsExact turning := by
  obtain ⟨c, h⟩ : ∃ c, turning.compile 3 defaultLimit = .ok c :=
    Except.exists_of_isOk (by decide +kernel)
  exact ⟨c, h, compile_labelsExact h⟩

end Song
end Chiptune
