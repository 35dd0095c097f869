/-
# Position jumps

A position jump names a row of the pattern matrix. As long as only main lists
play rows, the row of a channel with a number is played by one event, the jump
to a sub-pattern of the channel's main list with this number. The position
jump leads to the address of this event, whether the event was placed before
the jump or is placed later, and it is short exactly if it was placed before
and is in reach (`Song.positionJump_resolved`).

Key definitions: `Instruction.jumpTarget?`, `Instruction.isShortJump`.
Key theorems: `Item.emit_jump`, `Song.Place.exists_jump`,
`Song.positionJump_resolved`.
-/
import Chiptune.Proofs.Rows

namespace Chiptune

namespace Instruction

/-- Where a position jump at an address leads to. -/
def jumpTarget? (address : Nat) : Instruction → Option Int
  | .positionJump target => some target.toNat
  | .positionJumpShort offset => some (address + offset.toInt)
  | _ => none

/-- Whether an instruction is a short position jump. -/
def isShortJump : Instruction → Bool
  | .positionJumpShort _ => true
  | _ => false

end Instruction

theorem Survey.near?_eq_some {s : Survey} {label : Label} {d : Int} :
    s.near? label = some d ↔
      ∃ o, s.marks label = some o ∧ d = o - s.offset ∧ -128 ≤ d ∧ d ≤ 127 := by
  unfold near?
  cases s.marks label with
  | none => simp
  | some o =>
    simp only [Option.ite_none_right_eq_some, Option.some.injEq]
    constructor
    · rintro ⟨hd, rfl⟩
      exact ⟨o, rfl, rfl, hd⟩
    · rintro ⟨_, rfl, rfl, hd⟩
      exact ⟨hd, rfl⟩

/-- The bytes of a jump to a row with an offset lead there; they are those of a
short jump if the row was marked before and is in reach. -/
theorem Item.emit_jump {base o channel row : Nat} {marks : Label → Option Nat} {s : Survey}
    (ho : marks (.matrixRow channel row) = some o) (hspace : base + o < 0x10000)
    (hs : ∀ o', s.marks (.matrixRow channel row) = some o' → o' = o) :
    ∃ i : Instruction, (Item.jump channel row).emit base marks s = i.encode ∧ i.Canonical ∧
      i.endsList = true ∧ i.jumpTarget? (base + s.offset) = some ((base + o : Nat) : Int) ∧
      (i.isShortJump = true ↔ s.marks (.matrixRow channel row) ≠ none ∧
        -128 ≤ (o : Int) - s.offset ∧ (o : Int) - s.offset ≤ 127) := by
  cases hn : s.near? (.matrixRow channel row) with
  | some d =>
    obtain ⟨o', ho', rfl, hlow, hhigh⟩ := Survey.near?_eq_some.mp hn
    obtain rfl := hs o' ho'
    refine ⟨.positionJumpShort (Int8.ofInt (o' - s.offset)), by simp [emit, hn], trivial, rfl, ?_, ?_⟩
    · have hd : (Int8.ofInt ((o' : Int) - s.offset)).toInt = o' - s.offset :=
        Int8.toInt_ofInt_of_le (by omega) (by omega)
      simp only [Instruction.jumpTarget?, hd]
      congr 1
      omega
    · exact ⟨fun _ => ⟨by rw [ho']; exact Option.some_ne_none _, hlow, hhigh⟩, fun _ => rfl⟩
  | none =>
    refine ⟨.positionJump (base + o).toUInt16, ?_, trivial, rfl, ?_, ?_⟩
    · simp only [emit, hn, addressIn_of_some ho]
      rfl
    · simp only [Instruction.jumpTarget?, Word.toNat_toUInt16 hspace]
    · constructor
      · intro hshort
        cases hshort
      · rintro ⟨hne, hreach⟩
        obtain ⟨o', ho'⟩ := Option.ne_none_iff_exists'.mp hne
        obtain rfl := hs o' ho'
        have hsome := Survey.near?_eq_some.mpr ⟨o', ho', rfl, hreach⟩
        rw [hn] at hsome
        cases hsome

/-- Waits and a jump behind them are read as a list. -/
theorem Reader.list_of_waits {data : Array UInt8} {pos ticks : Nat} {i : Instruction}
    (hc : i.Canonical) (he : i.endsList = true)
    (h : Holds data pos (Instruction.encodeAll (Instruction.waits ticks ++ [i]))) :
    list data data.size pos = .ok (Instruction.waits ticks ++ [i],
      pos + (Instruction.encodeAll (Instruction.waits ticks ++ [i])).length) := by
  have hcanonical : ∀ j ∈ Instruction.waits ticks ++ [i], j.Canonical := by
    intro j hj
    rcases List.mem_append.mp hj with hj | hj
    · exact Instruction.canonical_of_waitTicks? (Instruction.mem_waits hj)
    · exact List.mem_singleton.mp hj ▸ hc
  have hthrough : Instruction.throughEnd (Instruction.waits ticks ++ [i]) =
      Instruction.waits ticks ++ [i] := by
    rw [Instruction.throughEnd_append fun j => Instruction.endsList_of_mem_waits]
    simp [Instruction.throughEnd]
  have hread := list_size_of_holds hcanonical h ⟨i, by simp, he⟩
  rwa [hthrough] at hread

/-- At a position jump the data hold its waits and a jump to the offset of its
row, short exactly if the row was marked before and is in reach. -/
theorem Song.Place.exists_jump {song : Song} {l : Layout} (p : song.Place)
    (ha : l.Assembled song.source) {row ticks o : Nat} (hp : p.event = ⟨.positionJump row, ticks⟩)
    (ho : (survey song.source).marks (.matrixRow p.channel row) = some o)
    (hspace : l.base + o < 0x10000) :
    let start := (survey p.sourceBefore).offset
    let opcode := start + (Instruction.encodeAll (Instruction.waits ticks)).length
    ∃ i : Instruction, i.Canonical ∧ i.endsList = true ∧
      Reader.Holds l.bytes start (Instruction.encodeAll (Instruction.waits ticks ++ [i])) ∧
      i.jumpTarget? (l.base + opcode) = some ((l.base + o : Nat) : Int) ∧
      (i.isShortJump = true ↔ .mark (.matrixRow p.channel row) ∈ p.sourceBefore ∧
        -128 ≤ (o : Int) - opcode ∧ (o : Int) - opcode ≤ 127) := by
  intro start opcode
  obtain ⟨after, hsource⟩ := p.source_eq
  let waited := Instruction.encodeAll (Instruction.waits ticks)
  let s := (survey p.sourceBefore).step (.bytes waited)
  have hitems : p.event.rowMark p.channel p.row ++ (p.event.source p.channel ++ after) =
      [.bytes waited, .jump p.channel row] ++ after := by
    rw [hp]
    rfl
  rw [hitems] at hsource
  -- what was marked before the jump keeps its offset
  have hmarks : s.marks = (survey p.sourceBefore).marks := Survey.step_marks rfl
  have hkeep : ∀ o', s.marks (.matrixRow p.channel row) = some o' → o' = o := by
    intro o' ho'
    rw [hmarks] at ho'
    rw [hsource, survey_append, Survey.run_marks_of_some ho'] at ho
    exact Option.some.inj ho
  obtain ⟨i, hemit, hcanonical, hends, htarget, hshort⟩ := Item.emit_jump ho hspace hkeep
  have hholds := ha.holds hsource
  rw [walk_cons, walk_cons, hemit] at hholds
  refine ⟨i, hcanonical, hends, by simpa [Item.emit] using hholds, htarget, ?_⟩
  rw [hshort, hmarks, survey_marks_ne_none]
  rfl

/-- **Position jumps lead to their rows.** Where only main lists play rows, the
data at each position jump hold the waits of its ticks and then a jump to the
address of the event that plays the row in the main list of its channel. The
jump is short exactly if this event stands before it and is in reach. -/
theorem Song.positionJump_resolved {song : Song} {base limit : Nat} {c : CompiledSong}
    (h : song.compile base limit = .ok c) (hrows : song.RowsInMain) (p : song.Place)
    {row ticks : Nat} (hp : p.event = ⟨.positionJump row, ticks⟩) :
    ∃ (q : song.Place) (start opcode target : Nat) (i : Instruction),
      (q.channel = p.channel ∧ q.which = none ∧ Layout.playsRow q.event.command = true ∧
        q.row = row) ∧
      p.address base = .ok (base + start) ∧ q.address base = .ok target ∧
      Reader.list c.data c.data.size start = .ok (Instruction.waits ticks ++ [i],
        start + (Instruction.encodeAll (Instruction.waits ticks ++ [i])).length) ∧
      opcode = base + start + (Instruction.encodeAll (Instruction.waits ticks)).length ∧
      i.jumpTarget? opcode = some target ∧
      (i.isShortJump = true ↔ p.which = none ∧ q.index < p.index ∧
        -128 ≤ (target : Int) - opcode ∧ (target : Int) - opcode ≤ 127) := by
  obtain ⟨l, rfl, ha, hpending, hle, rfl⟩ := Song.compile_assembled h
  have hcommand : p.event.command = .positionJump row := by rw [hp]
  obtain ⟨q, ⟨hchannel, hwhich, hplays, hrow⟩, ho⟩ :=
    p.exists_target hrows ha hpending hcommand
  have hspace : l.base + (survey q.sourceBefore).offset < 0x10000 := by
    have hlt := Song.marks_lt ho
    have hmin := Nat.le_trans hle (Nat.min_le_right _ _)
    unfold addressSpace at hmin
    omega
  obtain ⟨i, hcanonical, hends, hholds, htarget, hshort⟩ := p.exists_jump ha hp ho hspace
  refine ⟨q, (survey p.sourceBefore).offset, _, _, i, ⟨hchannel, hwhich, hplays, hrow⟩,
    p.address_eq h, q.address_eq h, Reader.list_of_waits hcanonical hends hholds,
    (Nat.add_assoc ..).symm, htarget, ?_⟩
  have hdist : ∀ a b : Nat, ((l.base + a : Nat) : Int) - ((l.base + b : Nat) : Int) = a - b := by
    omega
  rw [hshort, p.mark_mem_sourceBefore hrows, ← hrow,
    Place.row_lt_row hrows p q hchannel hwhich hplays, and_assoc, hdist]

/-- The jump of the small song's main list. -/
def Song.turningJump : turning.Place where
  channel := 2
  track := _
  which := none
  list := _
  track_eq := rfl
  list_eq := rfl
  index := 1
  event := ⟨.positionJump 0, 300⟩
  event_eq := rfl

theorem Song.positionJump_resolved_turning :
    ∃ c, turning.compile 3 defaultLimit = .ok c ∧ turning.RowsInMain ∧
      turningJump.event = ⟨.positionJump 0, 300⟩ ∧
      ∃ (q : turning.Place) (start opcode target : Nat) (i : Instruction),
        (q.channel = turningJump.channel ∧ q.which = none ∧
          Layout.playsRow q.event.command = true ∧ q.row = 0) ∧
        turningJump.address 3 = .ok (3 + start) ∧ q.address 3 = .ok target ∧
        Reader.list c.data c.data.size start = .ok (Instruction.waits 300 ++ [i],
          start + (Instruction.encodeAll (Instruction.waits 300 ++ [i])).length) ∧
        opcode = 3 + start + (Instruction.encodeAll (Instruction.waits 300)).length ∧
        i.jumpTarget? opcode = some target ∧
        (i.isShortJump = true ↔ turningJump.which = none ∧ q.index < turningJump.index ∧
          -128 ≤ (target : Int) - opcode ∧ (target : Int) - opcode ≤ 127) := by
  obtain ⟨c, h⟩ : ∃ c, turning.compile 3 defaultLimit = .ok c :=
    Except.exists_of_isOk (by decide +kernel)
  have hrows : turning.RowsInMain := by decide
  exact ⟨c, h, hrows, rfl, positionJump_resolved h hrows turningJump rfl⟩

end Chiptune
