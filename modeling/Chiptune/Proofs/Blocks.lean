/-
# The blocks of a song

The data of a song are blocks, one behind the other: its tables, its instrument
records, the lists of its channels and its header. Each block begins at its
label and is made of pieces, the code that was emitted for a table, a record,
an event or the header when the block was placed (`Song.emission`).

Data that are placed are not touched again, with one exception: the operand of
a position jump whose row was not placed yet, which is filled in later. So the
data of a compiled song are the pieces as they were emitted, apart from the
last two bytes of these jumps (`Piece.stored`), and the blocks cover them
without a gap (`Song.compile_tiled`).

Key definitions: `Piece`, `Block`, `Song.emission`, `Piece.stored`,
`CompiledSong.Tiled`, `Layout.Underway`, `Covers`, `Tiles`.
Key theorems: `Layout.Underway.code_eq`, `Tiles.append`,
`Layout.eventPieces_covers`, `Song.emission_tiles`, `Song.compile_tiled`.
-/
import Chiptune.Proofs.References
import Chiptune.Proofs.SourceCheck
import Mathlib.Algebra.GroupWithZero.Nat

namespace Chiptune

/-! ### Emission -/

/-- Code that was emitted in one go. -/
structure Piece where
  code : List UInt8
  /-- The row that the jump at the end of the code waits for. -/
  awaits : Option Label := none
  deriving DecidableEq, Repr

/-- Pieces behind a label. -/
structure Block where
  label : Label
  pieces : List Piece
  deriving DecidableEq, Repr

/-- The size of a piece. -/
def Piece.size (p : Piece) : Nat := p.code.length

/-- The size of a block. -/
def Block.size (b : Block) : Nat := (b.pieces.map Piece.size).sum

/-- The bytes of a piece in finished data: those that were emitted, with the
address of the row in the place of the last two if the piece waited for one. -/
def Piece.stored (address : Label → Nat) (p : Piece) : List UInt8 :=
  match p.awaits with
  | none => p.code
  | some row => p.code.take (p.code.length - 2) ++ Word.address (address row)

/-- The bytes of a block in finished data. -/
def Block.stored (address : Label → Nat) (b : Block) : List UInt8 :=
  b.pieces.flatMap (Piece.stored address)

/-- The blocks of tables, the first one with an index. -/
def Table.blocks (index : Nat) : List Table → List Block
  | [] => []
  | table :: rest => ⟨.table index, [⟨table.encode, none⟩]⟩ :: blocks (index + 1) rest

namespace Layout

/-- The pieces of instrument records. -/
def recordPieces (l : Layout) : List InstrumentRecord → Except Error (List Piece)
  | [] => .ok []
  | record :: rest => do
    let code ← (record.compile l.labels (← l.here)).1
    let placed ← l.placeRecord record
    .ok (⟨code, none⟩ :: (← recordPieces placed rest))

/-- The row that an event waits for: that of a position jump, unless it is
placed. -/
def awaited (l : Layout) (channel : Nat) (event : Event) : Option Label :=
  match event.command with
  | .positionJump row =>
    if l.labels.contains (.matrixRow channel row) then none else some (.matrixRow channel row)
  | _ => none

/-- The piece of an event. -/
def eventPiece (l : Layout) (channel : Nat) (event : Event) : Except Error Piece := do
  let code ← (event.compile channel (← l.here) l.labels).1
  .ok ⟨code, l.awaited channel event⟩

/-- The pieces of events; `row` is the next row of the pattern matrix. -/
def eventPieces (l : Layout) (channel row : Nat) : List Event → Except Error (List Piece)
  | [] => .ok []
  | event :: rest => do
    if playsRow event.command then
      let l ← l.placeRow channel row
      let piece ← l.eventPiece channel event
      let l ← l.placeEvent channel event
      .ok (piece :: (← eventPieces l channel (row + 1) rest))
    else
      let piece ← l.eventPiece channel event
      let l ← l.placeEvent channel event
      .ok (piece :: (← eventPieces l channel row rest))

/-- The block of a list of a channel. -/
def listBlock (l : Layout) (channel index : Nat) (list : EventList) : Except Error Block := do
  let l ← l.define (list.label channel index)
  .ok ⟨list.label channel index, ← l.eventPieces channel 0 list.events⟩

/-- The blocks of sub-patterns of a channel, the first one with an index. -/
def subPatternBlocks (l : Layout) (channel index : Nat) : List EventList → Except Error (List Block)
  | [] => .ok []
  | list :: rest => do
    let block ← l.listBlock channel index list
    let l ← l.placeList channel index list
    .ok (block :: (← subPatternBlocks l channel (index + 1) rest))

/-- The blocks of the lists of channels, the first one with an index. -/
def channelBlocks (l : Layout) (channel : Nat) :
    List (Option ChannelTrack) → Except Error (List Block)
  | [] => .ok []
  | none :: rest => channelBlocks l (channel + 1) rest
  | some track :: rest => do
    let subPatterns ← l.subPatternBlocks channel 0 track.subPatterns
    let l ← l.placeSubPatterns channel 0 track.subPatterns
    let main ← l.listBlock channel 0 track.events
    let l ← l.placeList channel 0 track.events
    .ok (subPatterns ++ main :: (← channelBlocks l (channel + 1) rest))

/-- The block of the header. -/
def headerBlock (l : Layout) (song : Song) : Except Error Block := do
  let start ← l.here
  let l ← l.define .header
  let (header, _) ← headerOf l.labels start song
  .ok ⟨.header, [⟨header.encode, none⟩]⟩

end Layout

namespace Song

/-- What is emitted for a song at an address, block by block. -/
def emission (song : Song) (base : Nat) : Except Error (List Block) := do
  let l ← Layout.placeTables { base := base } 0 song.tables
  let l ← l.define .instruments
  let records ← l.recordPieces song.instruments
  let l ← l.placeRecords song.instruments
  let lists ← l.channelBlocks 0 song.channels.toList
  let l ← l.placeChannels 0 song.channels.toList
  let header ← l.headerBlock song
  .ok (Table.blocks 0 song.tables ++ (⟨.instruments, records⟩ :: (lists ++ [header])))

/-- The labels of the lists of a channel: the sub-patterns, then the main
list. -/
def listLabels (channel : Nat) (track : Option ChannelTrack) : List Label :=
  track.elim [] fun t =>
    t.subPatterns.mapIdx (fun index list => list.label channel index)
      ++ [t.events.label channel 0]

/-- The labels of the blocks of a song. -/
def blockLabels (song : Song) : List Label :=
  song.tables.mapIdx (fun index _ => .table index) ++
    (.instruments :: ((song.channels.toList.mapIdx listLabels).flatten ++ [.header]))

end Song

/-- The address of a label, zero if it has none. -/
def CompiledSong.addressOf (c : CompiledSong) (label : Label) : Nat :=
  ((c.labels.get? label).map Label.Entry.address).getD 0

/-- The data of a compiled song are its blocks, in order and without a gap;
their pieces are as they were emitted, apart from the operands of jumps that
waited for their rows. -/
structure CompiledSong.Tiled (song : Song) (c : CompiledSong) (blocks : List Block) : Prop where
  labels : blocks.map Block.label = song.blockLabels
  data : c.data.toList = blocks.flatMap (Block.stored c.addressOf)
  starts : ∀ k block, blocks[k]? = some block →
    c.labels.address block.label = .ok (c.base + ((blocks.take k).map Block.size).sum)
  /-- Only position jumps with an absolute operand wait, and all of them find
  their rows. -/
  jumps : ∀ block ∈ blocks, ∀ p ∈ block.pieces, ∀ row, p.awaits = some row →
    (∃ waits, p.code = waits ++ (Instruction.positionJump 0).encode) ∧
      c.labels.address row = .ok (c.addressOf row)
  records : ∃ pieces, blocks[song.tables.length]? = some ⟨.instruments, pieces⟩ ∧
    pieces.length = song.instruments.length ∧
    ∀ p ∈ pieces, p.size = InstrumentRecord.size ∧ p.awaits = none
  header : ∃ header : SongHeader,
    blocks.getLast? = some ⟨.header, [⟨header.encode, none⟩]⟩ ∧ header.encode.length = 31
  headerAddress : c.labels.address .header = .ok c.headerAddress
  stop : c.headerAddress + 31 = c.stop

/-! ### Layouts underway -/

namespace Layout

variable {base : Nat} {whole before as bs items : List Item} {l l' : Layout}

/-- A layout at `base` on the way to the data of a whole source: it holds those
of the items before, and other items come next. -/
structure Underway (base : Nat) (whole : List Item) (l : Layout) (before next : List Item) :
    Prop where
  base_eq : l.base = base
  assembled : l.Assembled before
  next : before ++ next <+: whole
  small : ((base + (survey whole).offset : Nat) : Int) < Address.signedLimit

namespace Underway

theorem assembled_append (hu : Underway base whole l before (as ++ bs)) (hx : l.Extends l' as) :
    l'.Assembled (before ++ as) := by
  obtain ⟨rest, hrest⟩ := hu.next
  have hgrows := Survey.offset_le_run (survey (before ++ as)) (bs ++ rest)
  have hsmall := hu.small
  rw [← survey_append, ← List.append_assoc, List.append_assoc before, hrest] at hgrows
  refine hx.assembled (.inr ?_) hu.assembled
  rw [hu.base_eq]
  omega

/-- Placing what comes next. -/
theorem step (hu : Underway base whole l before (as ++ bs)) (hx : l.Extends l' as) :
    Underway base whole l' (before ++ as) bs where
  base_eq := hx.base.trans hu.base_eq
  assembled := hu.assembled_append hx
  next := by
    rw [List.append_assoc]
    exact hu.next
  small := hu.small

/-- Labels keep their offsets to the end. -/
theorem marks (hu : Underway base whole l before items) {x : Label} {o : Nat}
    (h : (survey before).marks x = some o) : (survey whole).marks x = some o := by
  obtain ⟨rest, rfl⟩ := hu.next
  rw [List.append_assoc, survey_append]
  exact Survey.run_marks_of_some h

/-- A label that comes next has the offset of the end. -/
theorem marks_next {label : Label} (hu : Underway base whole l before (.mark label :: items))
    (hx : l.Extends l' [.mark label]) :
    (survey whole).marks label = some (survey before).offset := by
  have hu' : Underway base whole l before ([.mark label] ++ items) := hu
  have hnext := hu'.step hx
  exact hnext.marks (hnext.assembled.marks_eq rfl)

/-- **Code that is appended is that of the source**, as far as labels have their
offsets by then. -/
theorem code_eq (hu : Underway base whole l before (as ++ bs)) (hx : l.Extends l' as)
    {code : List UInt8} (hcode : l'.bytes.toList = l.bytes.toList ++ code) :
    code = walk (Item.emit base (survey (before ++ as)).marks) (survey before) as := by
  have hbytes := (hu.assembled_append hx).bytes
  rw [hcode, walk_append, hx.base, hu.base_eq] at hbytes
  have hlength : l.bytes.toList.length =
      (walk (Item.emit base (survey (before ++ as)).marks) {} before).length := by
    rw [Array.length_toList, hu.assembled.size, survey, ← length_walk_emit]
    exact Nat.zero_add _
  exact (List.append_inj hbytes hlength).2

/-- **Code stays as it was appended** if the rows that it jumps to have their
offsets by then. -/
theorem code_final (hu : Underway base whole l before (as ++ bs)) (hx : l.Extends l' as)
    {code : List UInt8} (hcode : l'.bytes.toList = l.bytes.toList ++ code)
    (hrows : ∀ c r, .jump c r ∈ as → (survey (before ++ as)).marks (.matrixRow c r) ≠ none) :
    code = walk (Item.emit base (survey whole).marks) (survey before) as := by
  have hnext := hu.step hx
  rw [hu.code_eq hx hcode]
  apply walk_congr
  intro t item hi
  apply Item.emit_congr
  intro x hx'
  have hmarked : (survey (before ++ as)).marks x ≠ none := by
    cases item with
    | mark y => cases hx'
    | bytes bytes => cases hx'
    | pointer y =>
      obtain rfl : y = x := Option.some.inj hx'
      exact hnext.assembled.closed y (List.mem_append_right _ hi)
    | jump c r =>
      obtain rfl := Option.some.inj hx'
      exact hrows c r hi
  obtain ⟨o, ho⟩ := Option.ne_none_iff_exists'.mp hmarked
  rw [ho, hnext.marks ho]

end Underway
end Layout

/-! ### Pieces that cover a source -/

/-- A piece that waits ends with an absolute position jump whose operand is
zero, to a row that the source jumps to. -/
def Piece.Fits (whole : List Item) (p : Piece) : Prop :=
  ∀ row, p.awaits = some row → (∃ waits, p.code = waits ++ (Instruction.positionJump 0).encode) ∧
    ∃ item ∈ whole, item.target? = some row

theorem Piece.Fits.of_none {whole : List Item} (code : List UInt8) : Piece.Fits whole ⟨code, none⟩ :=
  fun _ h => by cases h

theorem Piece.Fits.length_stored {whole : List Item} {p : Piece} (h : p.Fits whole)
    (address : Label → Nat) : (p.stored address).length = p.size := by
  unfold Piece.stored Piece.size
  split
  · rfl
  · next row hrow =>
    obtain ⟨⟨waits, hcode⟩, -⟩ := h row hrow
    simp [hcode, Instruction.encode]

/-- The pieces, as they are stored, are the data of items of a source. -/
structure Covers (base : Nat) (whole : List Item) (s : Survey) (items : List Item)
    (pieces : List Piece) : Prop where
  stored : pieces.flatMap (Piece.stored (addressIn base (survey whole).marks)) =
    walk (Item.emit base (survey whole).marks) s items
  fits : ∀ p ∈ pieces, p.Fits whole

namespace Covers

variable {base : Nat} {whole as bs items : List Item} {s : Survey} {ps qs pieces : List Piece}

theorem nil : Covers base whole s [] [] := ⟨rfl, fun _ h => by cases h⟩

theorem append (hp : Covers base whole s as ps) (hq : Covers base whole (s.run as) bs qs) :
    Covers base whole s (as ++ bs) (ps ++ qs) where
  stored := by rw [List.flatMap_append, walk_append, hp.stored, hq.stored]
  fits p h := (List.mem_append.mp h).elim (hp.fits p) (hq.fits p)

theorem single {code : List UInt8}
    (h : code = walk (Item.emit base (survey whole).marks) s items) :
    Covers base whole s items [⟨code, none⟩] where
  stored := by rw [List.flatMap_singleton, ← h]; rfl
  fits p hp := List.mem_singleton.mp hp ▸ Piece.Fits.of_none code

/-- A jump to a row without an offset is stored with the address that the row
gets. -/
theorem jump_ahead {channel row : Nat} {waits : List UInt8}
    (hnew : s.marks (.matrixRow channel row) = none) (hmem : .jump channel row ∈ whole) :
    Covers base whole s [.bytes waits, .jump channel row]
      [⟨waits ++ (Instruction.positionJump 0).encode, some (.matrixRow channel row)⟩] where
  stored := by
    have hnear : (s.step (.bytes waits)).near? (.matrixRow channel row) = none :=
      Survey.near?_eq_none_of_marks ((congrFun (Survey.step_marks rfl) _).trans hnew)
    have htake : (waits ++ (Instruction.positionJump 0).encode).take
        ((waits ++ (Instruction.positionJump 0).encode).length - 2) = waits ++ [0x0A] := by
      simp [Instruction.encode, Word.bytes, List.take_append,
        List.take_of_length_le (Nat.le_succ waits.length)]
    simp only [List.flatMap_singleton, Piece.stored, htake, walk_cons, walk_nil, Item.emit, hnear,
      List.append_assoc, List.append_nil]
    rfl
  fits p hp label hlabel := by
    obtain rfl := List.mem_singleton.mp hp
    obtain rfl := Option.some.inj hlabel
    exact ⟨⟨waits, rfl⟩, .jump channel row, hmem, rfl⟩

theorem mark (label : Label) (h : Covers base whole (s.step (.mark label)) items pieces) :
    Covers base whole s (.mark label :: items) pieces := ⟨h.stored, h.fits⟩

/-- The pieces reach to the end of the items. -/
theorem offset (h : Covers base whole s items pieces) :
    s.offset + (pieces.map Piece.size).sum = (s.run items).offset := by
  rw [← length_walk_emit base (survey whole).marks, ← h.stored, List.length_flatMap]
  congr 2
  apply List.map_congr_left
  intro p hp
  exact ((h.fits p hp).length_stored _).symm

end Covers

/-! ### Blocks that tile a source -/

/-- The blocks, as they are stored, are the data of items of a source, and each
begins at its label. -/
structure Tiles (base : Nat) (whole : List Item) (s : Survey) (items : List Item)
    (blocks : List Block) : Prop where
  covers : Covers base whole s items (blocks.flatMap Block.pieces)
  starts : ∀ k block, blocks[k]? = some block →
    (survey whole).marks block.label = some (s.offset + ((blocks.take k).map Block.size).sum)

namespace Tiles

variable {base : Nat} {whole as bs items : List Item} {s : Survey} {xs ys blocks : List Block}

theorem nil : Tiles base whole s [] [] := ⟨.nil, fun _ _ h => by cases h⟩

theorem single {label : Label} {pieces : List Piece}
    (hmark : (survey whole).marks label = some s.offset)
    (h : Covers base whole (s.step (.mark label)) items pieces) :
    Tiles base whole s (.mark label :: items) [⟨label, pieces⟩] where
  covers := by simpa using h.mark label
  starts k block hk := by
    cases k with
    | zero =>
      obtain rfl := Option.some.inj hk
      exact hmark
    | succ k => cases hk

theorem sum_size (blocks : List Block) :
    ((blocks.flatMap Block.pieces).map Piece.size).sum = (blocks.map Block.size).sum := by
  induction blocks with
  | nil => rfl
  | cons b blocks ih =>
    rw [List.flatMap_cons, List.map_append, List.sum_append, ih, List.map_cons, List.sum_cons]
    rfl

/-- Blocks behind blocks. -/
theorem append (hx : Tiles base whole s as xs) (hy : Tiles base whole (s.run as) bs ys) :
    Tiles base whole s (as ++ bs) (xs ++ ys) where
  covers := by
    rw [List.flatMap_append]
    exact hx.covers.append hy.covers
  starts k block hk := by
    by_cases hlt : k < xs.length
    · rw [List.getElem?_append_left hlt] at hk
      rw [List.take_append_of_le_length (Nat.le_of_lt hlt)]
      exact hx.starts k block hk
    · -- behind the first blocks, which are as large as their items
      rw [Nat.not_lt] at hlt
      rw [List.getElem?_append_right hlt] at hk
      rw [hy.starts _ block hk, ← hx.covers.offset, sum_size, List.take_append,
        List.take_of_length_le hlt, List.map_append, List.sum_append, Nat.add_assoc]

theorem cons {label : Label} {pieces : List Piece}
    (hmark : (survey whole).marks label = some s.offset)
    (h : Covers base whole (s.step (.mark label)) as pieces)
    (hrest : Tiles base whole ((s.step (.mark label)).run as) bs blocks) :
    Tiles base whole s (.mark label :: (as ++ bs)) (⟨label, pieces⟩ :: blocks) :=
  (single hmark h).append hrest

end Tiles

/-! ### The blocks of the parts of a song -/

theorem InstrumentRecord.jump_notMem_source {c r : Nat} (record : InstrumentRecord) :
    .jump c r ∉ record.source := by
  cases record with
  | fm instrument => simp [source]
  | ssg tone noise volume arpeggio mixing =>
    cases volume <;> cases arpeggio <;> cases mixing <;> simp [source, Table.pointer]
  | adpcmA sampleList => simp [source]

theorem Event.jump_mem_source {c r channel : Nat} {event : Event} :
    .jump c r ∈ event.source channel ↔ c = channel ∧ event.command = .positionJump r := by
  obtain ⟨command, timing⟩ := event
  cases command with
  | positionJump row => simp [source, eq_comm]
  | _ => simp [source]

theorem Song.jump_notMem_headerPointers {c r : Nat} : ∀ {tracks : List (Option ChannelTrack)}
    {channel : Nat}, .jump c r ∉ headerPointers channel tracks
  | [], _ => by simp [headerPointers]
  | none :: rest, _ => by simpa [headerPointers] using jump_notMem_headerPointers
  | some track :: rest, _ => by simpa [headerPointers] using jump_notMem_headerPointers

theorem Table.blocks_tiles {base : Nat} {whole bs : List Item} {l' : Layout} :
    ∀ {tables : List Table} {l : Layout} {index : Nat} {before : List Item},
    Layout.Underway base whole l before (sourceAll index tables ++ bs) →
    l.placeTables index tables = .ok l' →
    Tiles base whole (survey before) (sourceAll index tables) (blocks index tables)
  | [], _, _, _, _, _ => .nil
  | table :: rest, l, index, before, hu, h => by
    obtain ⟨m, hm, h⟩ := Except.bind_eq_ok h
    have hrow : ∀ c r, Label.table index ≠ .matrixRow c r := fun _ _ => nofun
    have hmark := hu.marks_next (Layout.Extends.define hrow hm)
    have hu' : Layout.Underway base whole l before
        ([.mark (.table index), .bytes table.encode] ++ (sourceAll (index + 1) rest ++ bs)) := hu
    have hnext := hu'.step ((Layout.Extends.define hrow hm).trans
      (Layout.Extends.append m table.encode))
    have hrest := blocks_tiles hnext h
    rw [survey_append] at hrest
    exact .cons hmark (.single (List.append_nil _).symm) hrest

namespace Layout

variable {base : Nat} {whole bs : List Item} {l' : Layout}

/-- The pieces of records have the size of a record. -/
theorem recordPieces_covers : ∀ {records : List InstrumentRecord} {l : Layout} {before : List Item},
    Underway base whole l before (records.flatMap InstrumentRecord.source ++ bs) →
    l.placeRecords records = .ok l' →
    ∃ pieces, l.recordPieces records = .ok pieces ∧ pieces.length = records.length ∧
      (∀ p ∈ pieces, p.size = InstrumentRecord.size ∧ p.awaits = none) ∧
      Covers base whole (survey before) (records.flatMap InstrumentRecord.source) pieces
  | [], _, _, _, _ => ⟨[], rfl, rfl, nofun, .nil⟩
  | record :: rest, l, before, hu, h => by
    obtain ⟨m, hm, h⟩ := Except.bind_eq_ok h
    obtain ⟨code, u, hhere, hr, rfl⟩ := placeRecord_eq_ok hm
    have hx := record_extends hr
    rw [List.flatMap_cons, List.append_assoc] at hu
    have hcode := hu.code_final hx (append_toList ..)
      fun c r hj => absurd hj record.jump_notMem_source
    obtain ⟨pieces, hpieces, hlength, hsizes, hcovers⟩ := recordPieces_covers (hu.step hx) h
    refine ⟨⟨code, none⟩ :: pieces, ?_, by rw [List.length_cons, hlength, List.length_cons], ?_, ?_⟩
    · refine (Except.bind_of_ok hhere).trans ?_
      rw [hr]
      exact (Except.bind_of_ok hm).trans (Except.bind_of_ok hpieces)
    · intro p hp
      rcases List.mem_cons.mp hp with rfl | hp
      · refine ⟨?_, rfl⟩
        have hlen := length_walk_emit base (survey whole).marks (survey before) record.source
        rw [← hcode, InstrumentRecord.offset_run_source] at hlen
        exact Nat.add_left_cancel hlen
      · exact hsizes p hp
    · rw [survey_append] at hcovers
      exact (Covers.single hcode).append hcovers

theorem awaited_eq_some {l : Layout} {channel : Nat} {event : Event} {label : Label}
    (h : l.awaited channel event = some label) : ∃ row, event.command = .positionJump row ∧
      l.labels.contains (.matrixRow channel row) = false ∧ label = .matrixRow channel row := by
  unfold awaited at h
  split at h
  · next row hrow =>
    split at h
    · cases h
    · next hnew => exact ⟨row, hrow, by simpa using hnew, (Option.some.inj h).symm⟩
  · cases h

/-- The piece of an event. -/
theorem eventPiece_covers {l : Layout} {before : List Item} {channel : Nat} {event : Event}
    (hu : Underway base whole l before (event.source channel ++ bs))
    (h : l.placeEvent channel event = .ok l') :
    ∃ piece, l.eventPiece channel event = .ok piece ∧
      Covers base whole (survey before) (event.source channel) [piece] := by
  have hx := placeEvent_extends h
  obtain ⟨is, u, fixups, hi, -, rfl⟩ := placeEvent_eq_ok h
  have hpiece : l.eventPiece channel event =
      .ok ⟨Instruction.encodeAll is, l.awaited channel event⟩ := by
    obtain ⟨address, hhere, -⟩ := Except.bind_eq_ok h
    refine (Except.bind_of_ok hhere).trans ?_
    rw [here_eq_ok hhere, Event.compile, hi]
    rfl
  refine ⟨_, hpiece, ?_⟩
  cases haw : l.awaited channel event with
  | none =>
    refine .single (hu.code_final hx (append_toList ..) fun c r hj => ?_)
    obtain ⟨rfl, hcommand⟩ := Event.jump_mem_source.mp hj
    have hplaced : l.labels.contains (.matrixRow c r) = true := by
      by_contra hnot
      simp [awaited, hcommand, hnot] at haw
    rw [hu.assembled.contains] at hplaced
    obtain ⟨o, ho⟩ := Option.isSome_iff_exists.mp hplaced
    rw [survey_append, Survey.run_marks_of_some ho]
    exact Option.some_ne_none o
  | some label =>
    obtain ⟨row, hcommand, hnew, rfl⟩ := awaited_eq_some haw
    obtain ⟨command, timing⟩ := event
    subst hcommand
    obtain ⟨i, hj, rfl⟩ := Event.instructions_eq_ok hi
    obtain ⟨-, rfl, -⟩ | ⟨-, -, hplaced, -⟩ := Event.rowJump_eq_ok hj
    · have hcode : Instruction.encodeAll
          (Event.body ⟨.positionJump row, timing⟩ ++ [.positionJump 0]) =
          Instruction.encodeAll (Instruction.waits timing) ++
            (Instruction.positionJump 0).encode := by
        rw [Instruction.encodeAll_append, Instruction.encodeAll_cons, Instruction.encodeAll_nil,
          List.append_nil]
        rfl
      rw [hu.assembled.contains, Option.isSome_eq_false_iff, Option.isNone_iff_eq_none] at hnew
      rw [hcode]
      exact .jump_ahead hnew (hu.next.subset (by simp [Event.source]))
    · rw [hnew] at hplaced
      cases hplaced

theorem eventPieces_covers {channel : Nat} : ∀ {events : List Event} {l : Layout} {row : Nat}
    {before : List Item}, Underway base whole l before (Event.sourceAll channel row events ++ bs) →
    l.placeEvents channel row events = .ok l' →
    ∃ pieces, l.eventPieces channel row events = .ok pieces ∧
      Covers base whole (survey before) (Event.sourceAll channel row events) pieces
  | [], _, _, _, _, _ => ⟨[], rfl, .nil⟩
  | event :: rest, l, row, before, hu, h => by
    unfold placeEvents at h
    unfold eventPieces
    unfold Event.sourceAll at hu ⊢
    by_cases hp : playsRow event.command = true
    · rw [if_pos hp] at h hu
      rw [if_pos hp, if_pos hp]
      obtain ⟨m, hm, h⟩ := Except.bind_eq_ok h
      obtain ⟨n, hn, h⟩ := Except.bind_eq_ok h
      have hrow : Underway base whole m (before ++ [.mark (.matrixRow channel row)])
          (event.source channel ++ (Event.sourceAll channel (row + 1) rest ++ bs)) := by
        refine Underway.step ?_ (placeRow_extends hm)
        simpa using hu
      obtain ⟨piece, hpiece, hcovers⟩ := eventPiece_covers hrow hn
      obtain ⟨pieces, hpieces, hrest⟩ := eventPieces_covers (hrow.step (placeEvent_extends hn)) h
      rw [survey_append, survey_append] at hrest
      rw [survey_append] at hcovers
      refine ⟨piece :: pieces, ?_, .mark _ (hcovers.append hrest)⟩
      exact (Except.bind_of_ok hm).trans ((Except.bind_of_ok hpiece).trans
        ((Except.bind_of_ok hn).trans (Except.bind_of_ok hpieces)))
    · rw [if_neg hp] at h hu
      rw [if_neg hp, if_neg hp]
      obtain ⟨n, hn, h⟩ := Except.bind_eq_ok h
      rw [List.append_assoc] at hu
      obtain ⟨piece, hpiece, hcovers⟩ := eventPiece_covers hu hn
      obtain ⟨pieces, hpieces, hrest⟩ := eventPieces_covers (hu.step (placeEvent_extends hn)) h
      rw [survey_append] at hrest
      refine ⟨piece :: pieces, ?_, hcovers.append hrest⟩
      exact (Except.bind_of_ok hpiece).trans ((Except.bind_of_ok hn).trans
        (Except.bind_of_ok hpieces))

theorem listBlock_tiles {l : Layout} {before : List Item} {channel index : Nat} {list : EventList}
    (hu : Underway base whole l before (list.source channel index ++ bs))
    (h : l.placeList channel index list = .ok l') :
    ∃ block, l.listBlock channel index list = .ok block ∧
      block.label = list.label channel index ∧
      Tiles base whole (survey before) (list.source channel index) [block] := by
  obtain ⟨m, hm, h⟩ := Except.bind_eq_ok h
  obtain ⟨n, hn, -⟩ := Except.bind_eq_ok h
  have hx := Extends.define (label_ne_matrixRow list channel index) hm
  have hu' : Underway base whole l before
      ([.mark (list.label channel index)] ++ (Event.sourceAll channel 0 list.events ++ bs)) := hu
  obtain ⟨pieces, hpieces, hcovers⟩ := eventPieces_covers (hu'.step hx) hn
  rw [survey_append] at hcovers
  refine ⟨⟨_, pieces⟩, ?_, rfl, .single (hu.marks_next hx) hcovers⟩
  exact (Except.bind_of_ok hm).trans (Except.bind_of_ok hpieces)

theorem subPatternBlocks_tiles {channel : Nat} : ∀ {lists : List EventList} {l : Layout}
    {index : Nat} {before : List Item},
    Underway base whole l before (EventList.sourceAll channel index lists ++ bs) →
    l.placeSubPatterns channel index lists = .ok l' →
    ∃ blocks, l.subPatternBlocks channel index lists = .ok blocks ∧
      blocks.map Block.label = lists.mapIdx (fun i list => list.label channel (index + i)) ∧
      Tiles base whole (survey before) (EventList.sourceAll channel index lists) blocks
  | [], _, _, _, _, _ => ⟨[], rfl, rfl, .nil⟩
  | list :: rest, l, index, before, hu, h => by
    obtain ⟨m, hm, h⟩ := Except.bind_eq_ok h
    have hu' : Underway base whole l before (list.source channel index ++
        (EventList.sourceAll channel (index + 1) rest ++ bs)) := by
      rw [← List.append_assoc]
      exact hu
    obtain ⟨block, hblock, hlabel, htiles⟩ := listBlock_tiles hu' hm
    obtain ⟨blocks, hblocks, hlabels, hrest⟩ :=
      subPatternBlocks_tiles (hu'.step (placeList_extends hm)) h
    rw [survey_append] at hrest
    refine ⟨block :: blocks, ?_, ?_, htiles.append hrest⟩
    · exact (Except.bind_of_ok hblock).trans ((Except.bind_of_ok hm).trans
        (Except.bind_of_ok hblocks))
    · rw [List.map_cons, List.mapIdx_cons, hlabel, hlabels]
      simp only [Nat.add_assoc, Nat.add_comm 1]
      rfl

theorem channelBlocks_tiles : ∀ {tracks : List (Option ChannelTrack)} {l : Layout}
    {channel : Nat} {before : List Item},
    Underway base whole l before (ChannelTrack.sourceAll channel tracks ++ bs) →
    l.placeChannels channel tracks = .ok l' →
    ∃ blocks, l.channelBlocks channel tracks = .ok blocks ∧
      blocks.map Block.label = (tracks.mapIdx fun i => Song.listLabels (channel + i)).flatten ∧
      Tiles base whole (survey before) (ChannelTrack.sourceAll channel tracks) blocks
  | [], _, _, _, _, _ => ⟨[], rfl, rfl, .nil⟩
  | none :: rest, l, channel, before, hu, h => by
    change l.placeChannels (channel + 1) rest = .ok l' at h
    change Underway base whole l before (ChannelTrack.sourceAll (channel + 1) rest ++ bs) at hu
    obtain ⟨blocks, hblocks, hlabels, htiles⟩ := channelBlocks_tiles hu h
    refine ⟨blocks, hblocks, ?_, htiles⟩
    rw [hlabels, List.mapIdx_cons]
    simp only [Nat.add_assoc, Nat.add_comm 1]
    rfl
  | some track :: rest, l, channel, before, hu, h => by
    obtain ⟨m, hm, h⟩ := Except.bind_eq_ok h
    obtain ⟨n, hn, h⟩ := Except.bind_eq_ok h
    have hu' : Underway base whole l before (EventList.sourceAll channel 0 track.subPatterns ++
        (track.events.source channel 0 ++ (ChannelTrack.sourceAll (channel + 1) rest ++ bs))) := by
      simpa [ChannelTrack.sourceAll, ChannelTrack.source] using hu
    have humain := hu'.step (placeSubPatterns_extends hm)
    obtain ⟨subs, hsubs, hsublabels, hsubtiles⟩ := subPatternBlocks_tiles hu' hm
    obtain ⟨main, hmain, hmainlabel, hmaintiles⟩ := listBlock_tiles humain hn
    obtain ⟨blocks, hblocks, hlabels, htiles⟩ :=
      channelBlocks_tiles (humain.step (placeList_extends hn)) h
    rw [survey_append] at hmaintiles
    rw [survey_append, survey_append] at htiles
    refine ⟨subs ++ main :: blocks, ?_, ?_, ?_⟩
    · exact (Except.bind_of_ok hsubs).trans ((Except.bind_of_ok hm).trans
        ((Except.bind_of_ok hmain).trans ((Except.bind_of_ok hn).trans (Except.bind_of_ok hblocks))))
    · rw [List.map_append, List.map_cons, hsublabels, hmainlabel, hlabels, List.mapIdx_cons]
      simp [Song.listLabels, Nat.add_assoc, Nat.add_comm 1]
    · have hall := hsubtiles.append (hmaintiles.append htiles)
      rwa [← List.append_assoc] at hall

theorem headerBlock_tiles {l : Layout} {song : Song} {before : List Item}
    (hu : Underway base whole l before (song.headerSource ++ bs))
    (h : l.placeHeader song = .ok l') :
    ∃ header : SongHeader, l.headerBlock song = .ok ⟨.header, [⟨header.encode, none⟩]⟩ ∧
      Tiles base whole (survey before) song.headerSource
        [⟨.header, [⟨header.encode, none⟩]⟩] := by
  have hx := (placeHeader_extends h).2
  obtain ⟨m, header, u, hhere, hm, hheader, rfl⟩ := placeHeader_eq_ok h
  have hdef := Extends.define (fun _ _ => nofun : ∀ c r, Label.header ≠ .matrixRow c r) hm
  have hbytes : (Layout.append { m with labels := u } header.encode).bytes.toList =
      l.bytes.toList ++ header.encode := by
    obtain ⟨u', -, rfl⟩ := define_eq_ok hm
    exact append_toList ..
  have hcode := hu.code_final hx hbytes fun c r hj => by
    simp [Song.headerSource, Song.jump_notMem_headerPointers] at hj
  refine ⟨header, ?_, .single (hu.marks_next hdef) (.single hcode)⟩
  exact (Except.bind_of_ok hhere).trans ((Except.bind_of_ok hm).trans (Except.bind_of_ok hheader))

end Layout

theorem Table.label_blocks : ∀ (tables : List Table) (index : Nat),
    (blocks index tables).map Block.label = tables.mapIdx fun i _ => .table (index + i)
  | [], _ => rfl
  | table :: rest, index => by
    rw [blocks, List.map_cons, label_blocks rest, List.mapIdx_cons]
    simp only [Nat.add_assoc, Nat.add_comm 1]
    rfl

/-! ### The blocks of a song -/

namespace Song

variable {song : Song} {base limit : Nat} {c : CompiledSong}

theorem compile_small (h : song.compile base limit = .ok c) :
    ((base + (survey song.source).offset : Nat) : Int) < Address.signedLimit := by
  obtain ⟨l, -, -, -, hle, -⟩ := compile_assembled h
  unfold addressSpace at hle
  unfold Address.signedLimit
  omega

/-- What is emitted for a song tiles its source. -/
theorem emission_tiles (h : song.compile base limit = .ok c) :
    ∃ (records : List Piece) (lists : List Block) (header : SongHeader),
      song.emission base = .ok (Table.blocks 0 song.tables ++
        (⟨.instruments, records⟩ :: (lists ++ [⟨.header, [⟨header.encode, none⟩]⟩]))) ∧
      records.length = song.instruments.length ∧
      (∀ p ∈ records, p.size = InstrumentRecord.size ∧ p.awaits = none) ∧
      lists.map Block.label = (song.channels.toList.mapIdx listLabels).flatten ∧
      Tiles base song.source {} song.source (Table.blocks 0 song.tables ++
        (⟨.instruments, records⟩ :: (lists ++ [⟨.header, [⟨header.encode, none⟩]⟩]))) := by
  have hsmall := compile_small h
  obtain ⟨body, placed, hbody, hplaced, -⟩ := compile_eq_ok h
  rw [Layout.placeBody_eq] at hbody
  obtain ⟨body', hparts, hbody⟩ := Except.bind_eq_ok hbody
  obtain ⟨_, -, hbody⟩ := Except.bind_eq_ok hbody
  obtain rfl := Except.ok.inj hbody
  obtain ⟨l₁, h₁, hparts⟩ := Except.bind_eq_ok hparts
  obtain ⟨l₂, h₂, hparts⟩ := Except.bind_eq_ok hparts
  obtain ⟨l₃, h₃, h₄⟩ := Except.bind_eq_ok hparts
  have hu : Layout.Underway base song.source { base := base } []
      (Table.sourceAll 0 song.tables ++ ([.mark .instruments] ++
        (song.instruments.flatMap InstrumentRecord.source ++
          (ChannelTrack.sourceAll 0 song.channels.toList ++ (song.headerSource ++ []))))) :=
    ⟨rfl, Layout.assembled_nil base, by simp [source, bodySource], hsmall⟩
  have hrow : ∀ c r, Label.instruments ≠ .matrixRow c r := by
    intro c r heq
    cases heq
  have hdef := Layout.Extends.define hrow h₂
  -- the layouts between the stages, each on the way to the whole song
  have hu₁ := hu.step (Layout.placeTables_extends h₁)
  have hu₂ := hu₁.step hdef
  have hu₃ := hu₂.step (Layout.placeRecords_extends h₃)
  have hu₄ := hu₃.step (Layout.placeChannels_extends h₄)
  have htables := Table.blocks_tiles hu h₁
  obtain ⟨records, hrecords, hcount, hsizes, hcovers⟩ := Layout.recordPieces_covers hu₂ h₃
  obtain ⟨lists, hlists, hlabels, hlisttiles⟩ := Layout.channelBlocks_tiles hu₃ h₄
  obtain ⟨header, hheader, hheadertiles⟩ := Layout.headerBlock_tiles hu₄ hplaced
  refine ⟨records, lists, header, ?_, hcount, hsizes, by simpa using hlabels, ?_⟩
  · exact (Except.bind_of_ok h₁).trans ((Except.bind_of_ok h₂).trans
      ((Except.bind_of_ok hrecords).trans ((Except.bind_of_ok h₃).trans
        ((Except.bind_of_ok hlists).trans ((Except.bind_of_ok h₄).trans
          (Except.bind_of_ok hheader))))))
  · have hmark := hu₁.marks_next hdef
    simp only [survey_append] at hcovers hlisttiles hheadertiles hmark
    have hall := htables.append (.cons hmark hcovers (hlisttiles.append hheadertiles))
    have heq : Table.sourceAll 0 song.tables ++ (.mark .instruments ::
        (song.instruments.flatMap InstrumentRecord.source ++
          (ChannelTrack.sourceAll 0 song.channels.toList ++ song.headerSource))) = song.source := by
      simp [source, bodySource]
    rw [heq] at hall
    exact hall

theorem compile_addressOf (h : song.compile base limit = .ok c) :
    c.addressOf = addressIn base (survey song.source).marks := by
  obtain ⟨l, rfl, ha, -, -, rfl⟩ := compile_assembled h
  funext label
  rw [CompiledSong.addressOf, ha.labels, Option.map_map]
  rfl

theorem addressOf_of_marks (h : song.compile base limit = .ok c) {label : Label} {o : Nat}
    (ho : (survey song.source).marks label = some o) : c.addressOf label = base + o := by
  rw [compile_addressOf h, addressIn_of_some ho]

/-- **Blocks tile a song.** The data of a song that compiles are the blocks that
were emitted for it, one behind the other, and only the operands of position
jumps that waited for their rows differ from what was emitted. -/
theorem compile_tiled (h : song.compile base limit = .ok c) :
    ∃ blocks, song.emission base = .ok blocks ∧ c.base = base ∧ c.Tiled song blocks := by
  obtain ⟨records, lists, header, hemission, hcount, hsizes, hlabels, htiles⟩ := emission_tiles h
  have haddress := compile_addressOf h
  have hsize := compile_size h
  obtain ⟨l, hbase, ha, hpending, -, hc⟩ := compile_assembled h
  have hcbase := compile_base h
  have hheader : c.headerAddress = base + song.bodySize := by rw [hc]; rfl
  have htables : (Table.blocks 0 song.tables).length = song.tables.length := by
    rw [← List.length_map Block.label, Table.label_blocks, List.length_mapIdx]
  refine ⟨_, hemission, hcbase,
    { labels := ?_
      data := ?_
      starts := fun k block hk => ?_
      jumps := fun block hb p hp row hrow => ?_
      records := ⟨records, ?_, hcount, hsizes⟩
      header := ⟨header, ?_, header.length_encode⟩
      headerAddress := ?_
      stop := ?_ }⟩
  · simp [Table.label_blocks, hlabels, blockLabels]
  · have hstored := htiles.covers.stored
    rw [← haddress, List.flatMap_assoc] at hstored
    have hdata : c.data.toList = walk (Item.emit base (survey song.source).marks) {} song.source := by
      rw [hc, ha.bytes, hbase]
    exact hdata.trans hstored.symm
  · rw [compile_address h (htiles.starts k block hk), hcbase, Nat.zero_add]
  · obtain ⟨hcode, item, hitem, htarget⟩ :=
      htiles.covers.fits p (List.mem_flatMap.mpr ⟨block, hb, hp⟩) row hrow
    obtain ⟨o, ho⟩ := ha.exists_offset hpending hitem htarget
    refine ⟨hcode, ?_⟩
    rw [compile_address h ho, addressOf_of_marks h ho]
  · rw [← htables]
    simp
  · rw [← List.cons_append, ← List.append_assoc, List.getLast?_concat]
  · rw [hheader]
    exact compile_address h (ha.marks_eq rfl)
  · rw [CompiledSong.stop, hsize, hheader, hcbase]
    omega

/-- In `turning` the jump of the sub-pattern waits for its row. -/
theorem compile_tiled_turning : ∃ c, turning.compile 3 defaultLimit = .ok c ∧
    ∃ blocks, turning.emission 3 = .ok blocks ∧ c.base = 3 ∧ c.Tiled turning blocks ∧
      blocks[2]? = some ⟨.subPattern 2 0,
        [⟨[0x8C, 60, 0x1C], none⟩, ⟨[0x0A, 0, 0], some (.matrixRow 2 1)⟩]⟩ := by
  obtain ⟨c, h⟩ : ∃ c, turning.compile 3 defaultLimit = .ok c :=
    Except.exists_of_isOk (by decide +kernel)
  obtain ⟨blocks, hblocks, hbase, htiled⟩ := compile_tiled h
  refine ⟨c, h, blocks, hblocks, hbase, htiled, ?_⟩
  have hthird : (turning.emission 3).toOption.bind (·[2]?) = some ⟨.subPattern 2 0,
        [⟨[0x8C, 60, 0x1C], none⟩, ⟨[0x0A, 0, 0], some (.matrixRow 2 1)⟩]⟩ := by decide +kernel
  rwa [hblocks] at hthird

end Song
end Chiptune
