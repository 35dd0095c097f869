/-
# Playing time

A pattern plays its rows up to and including the first one that leaves it. The
ticks of these rows are divided among the events of its list without loss
(`SubPattern.sum_timing_walk`). The instructions of the events play at most
that long; they play as long exactly if every event keeps its ticks, provided
that a row which leaves the pattern does nothing behind its position jump
(`SubPattern.playingTime`). A single long note is enough to lose ticks
(`SubPattern.playingTime_lossy`).

Key definitions: `SubPattern.playedRows`, `SubPattern.rowsTicks`,
`SubPattern.duration`, `SubPattern.JumpsLast`.
Key theorems: `SubPattern.rowsTicks_succ`, `SubPattern.sum_timing_walk`,
`SubPattern.playingTime`.
-/
import Chiptune.Proofs.PatternList
import Chiptune.Proofs.Ticks

namespace Chiptune
namespace SubPattern

open Tracker

/-- Nothing is done in a row behind its first position jump. -/
def JumpsLast (row : Row) : Prop :=
  ∀ fx ∈ (row.effects.dropWhile fun fx => !jumps fx).drop 1, Silent fx

instance : DecidablePred JumpsLast := fun row =>
  inferInstanceAs (Decidable (∀ fx ∈ (row.effects.dropWhile fun fx => !jumps fx).drop 1, Silent fx))

/-- The rows that are played: through the first one that leaves the pattern. -/
def playedRows : List Row → List Row
  | [] => []
  | row :: rest => if leaves row then [row] else row :: playedRows rest

/-- The ticks of a number of rows, the first one with an index. A row has the
ticks of its parity times the time base. -/
def rowsTicks (time : TimeInfo) (index count : Nat) : Nat :=
  ((List.range' index count).map fun i =>
    (if i % 2 = 0 then time.evenTicks else time.oddTicks) * time.timeBase).sum

/-- The ticks of the rows that are played, the first one with an index. -/
def duration (time : TimeInfo) (index : Nat) (rows : List Row) : Nat :=
  rowsTicks time index (playedRows rows).length

/-! ### Commands of a row -/

theorem forall_mem_dropLast_append {α : Type} {P : α → Prop} {as bs : List α}
    (has : ∀ a ∈ as, P a) (hbs : ∀ b ∈ bs.dropLast, P b) : ∀ a ∈ (as ++ bs).dropLast, P a := by
  intro a ha
  by_cases hnil : bs = []
  · rw [hnil, List.append_nil] at ha
    exact has a (List.dropLast_subset as ha)
  · rw [List.dropLast_append_of_ne_nil hnil] at ha
    exact (List.mem_append.mp ha).elim (has a) (hbs a)

section Commands

variable {channel : Nat}

theorem effectCommands_eq_nil : ∀ {effects : List Effect} {cs : List Command},
    (∀ fx ∈ effects, Silent fx) → effectCommands channel effects = .ok cs → cs = []
  | [], cs, _, h => (Except.ok.inj h).symm
  | fx :: rest, cs, hs, h => by
    have hrest : ∀ fx ∈ rest, Silent fx := fun fx hfx => hs fx (List.mem_cons_of_mem _ hfx)
    rcases effectCommands_cons_eq_ok h with ⟨-, hcs⟩ | ⟨value, command, more, hnot, -⟩
    · exact effectCommands_eq_nil hrest hcs
    · exact absurd (hs fx (List.mem_cons_self ..)) hnot

/-- If nothing is done behind the first jump, only the last command may leave
the list. -/
theorem dropLast_effectCommands : ∀ {effects : List Effect} {cs : List Command},
    effectCommands channel effects = .ok cs →
    (∀ fx ∈ (effects.dropWhile fun fx => !jumps fx).drop 1, Silent fx) →
    ∀ command ∈ cs.dropLast, command.endsList = false
  | [], cs, h, _ => by
    obtain rfl := Except.ok.inj h
    exact nofun
  | fx :: rest, cs, h, hlast => by
    rcases effectCommands_cons_eq_ok h with
      ⟨hs, hrest⟩ | ⟨value, command, more, -, ⟨hv, hc⟩, hrest, rfl⟩
    · rw [List.dropWhile_cons_of_pos (by simp [jumps_of_silent hs])] at hlast
      exact dropLast_effectCommands hrest hlast
    · by_cases hj : jumps fx = true
      · -- the jump: the effects behind it give no command
        rw [List.dropWhile_cons_of_neg (by simp [hj])] at hlast
        rw [effectCommands_eq_nil hlast hrest]
        exact nofun
      · rw [Bool.not_eq_true] at hj
        rw [List.dropWhile_cons_of_pos (by simp [hj])] at hlast
        have hfirst : ∀ c ∈ [command], c.endsList = false := by
          intro c hmem
          rw [List.mem_singleton.mp hmem, endsList_effectCommand? hv hc, hj]
        exact forall_mem_dropLast_append hfirst (dropLast_effectCommands hrest hlast)

/-- Only the last command of a row that jumps last may leave the list. -/
theorem dropLast_rowCommands {setting : Setting} {row : Row} {cs : List Command}
    (h : rowCommands channel setting row = .ok cs) (hlast : JumpsLast row) :
    ∀ command ∈ cs.dropLast, command.endsList = false := by
  obtain ⟨before, effects, rfl, hbefore, heffects⟩ := rowCommands_eq_ok h
  exact forall_mem_dropLast_append (fun command hc => (hbefore command hc).1)
    (dropLast_effectCommands heffects hlast)

end Commands

/-! ### Events of a pattern -/

section Walk

variable {channel index : Nat} {time : TimeInfo} {setting : Setting} {last : Event}
  {clamped c : Bool} {row : Row} {rest rows : List Row} {events : List Event}

theorem rowsTicks_succ (time : TimeInfo) (index count : Nat) :
    rowsTicks time index (count + 1) = rowTicks time index + rowsTicks time (index + 1) count := by
  rw [rowsTicks, List.range'_succ, List.map_cons, List.sum_cons]
  rfl

theorem rowsTicks_one (time : TimeInfo) (index : Nat) :
    rowsTicks time index 1 = rowTicks time index := rowsTicks_succ time index 0

theorem duration_cons (time : TimeInfo) (index : Nat) (row : Row) (rest : List Row) :
    duration time index (row :: rest) =
      rowTicks time index + if leaves row then 0 else duration time (index + 1) rest := by
  rw [duration, playedRows]
  by_cases h : leaves row = true
  · rw [if_pos h, if_pos h, List.length_singleton, rowsTicks_one, Nat.add_zero]
  · rw [if_neg h, if_neg h, List.length_cons, rowsTicks_succ, duration]

/-- **The ticks of a pattern go to its events.** -/
theorem sum_timing_walk : ∀ {rows : List Row} {index : Nat} {setting : Setting} {last : Event}
    {clamped : Bool} {events : List Event},
    walk channel time index setting last clamped rows = (.ok events, c) →
    (events.map Event.timing).sum = last.timing + duration time index rows
  | [], index, setting, last, clamped, events, h => by
    obtain ⟨hevents, -⟩ := Prod.mk.inj h
    obtain rfl := Except.ok.inj hevents
    rfl
  | row :: rest, index, setting, last, clamped, events, h => by
    obtain ⟨commands, hcommands, hcase⟩ := walk_cons_eq_ok h
    have hleaves := any_endsList_rowCommands hcommands
    rw [duration_cons]
    rcases hcase with ⟨rfl, clamped', hrest⟩ | ⟨before, command, rfl, more, rfl, hmore⟩
    · -- a row that leaves the pattern has a command
      rw [sum_timing_walk hrest, ← hleaves]
      simp [Nat.add_assoc]
    · have hbefore : ((before.map fun x => (⟨x, 0⟩ : Event)).map Event.timing).sum = 0 := by
        rw [List.map_map]
        show (before.map fun _ => 0).sum = 0
        rw [List.map_const', List.sum_replicate_nat, Nat.mul_zero]
      rw [List.map_append, List.sum_append, List.map_cons, List.sum_cons, hbefore, Nat.add_zero]
      split at hmore
      · next hl =>
        rw [if_pos hl, hmore]
        rfl
      · next hl =>
        obtain ⟨clamped', hrest⟩ := hmore
        rw [if_neg hl, sum_timing_walk hrest]

/-- Only the last event leaves the list, if the rows that are played jump
last. -/
theorem dropLast_walk : ∀ {rows : List Row} {index : Nat} {setting : Setting} {last : Event}
    {clamped : Bool} {events : List Event},
    walk channel time index setting last clamped rows = (.ok events, c) →
    (∀ row ∈ playedRows rows, JumpsLast row) → last.command.endsList = false →
    ∀ e ∈ events.dropLast, e.command.endsList = false
  | [], index, setting, last, clamped, events, h, _, hlast => by
    obtain ⟨hevents, -⟩ := Prod.mk.inj h
    obtain rfl := Except.ok.inj hevents
    simpa using hlast
  | row :: rest, index, setting, last, clamped, events, h, hjumps, hlast => by
    obtain ⟨commands, hcommands, hcase⟩ := walk_cons_eq_ok h
    have hleaves := any_endsList_rowCommands hcommands
    unfold playedRows at hjumps
    rcases hcase with ⟨rfl, clamped', hrest⟩ | ⟨before, command, rfl, more, rfl, hmore⟩
    · rw [if_neg (by rw [← hleaves]; exact nofun)] at hjumps
      exact dropLast_walk hrest (fun r hr => hjumps r (List.mem_cons_of_mem _ hr)) hlast
    · have hrow : JumpsLast row := hjumps row (by split <;> simp)
      have hbefore : ∀ e ∈ last :: before.map fun x => (⟨x, 0⟩ : Event),
          e.command.endsList = false := by
        intro e he
        rcases List.mem_cons.mp he with rfl | he
        · exact hlast
        · obtain ⟨x, hx, rfl⟩ := List.mem_map.mp he
          exact dropLast_rowCommands hcommands hrow x (by simpa using hx)
      split at hmore
      · rw [hmore]
        exact forall_mem_dropLast_append hbefore nofun
      · next hl =>
        obtain ⟨clamped', hrest⟩ := hmore
        rw [if_neg hl] at hjumps
        have hcommand : command.endsList = false := by
          simpa using List.any_eq_false.mp (hleaves.trans (Bool.not_eq_true _ ▸ hl)) command (by simp)
        exact forall_mem_dropLast_append hbefore
          (dropLast_walk hrest (fun r hr => hjumps r (List.mem_cons_of_mem _ hr)) hcommand)

end Walk

open Instruction in
/-- **The instructions of a pattern play at most as long as its rows.** Unless
something is done behind a position jump, they play as long exactly if every
event keeps its ticks. -/
theorem playingTime {channel driver address : Nat} {time : TimeInfo} {clamped : Bool}
    {pattern : Pattern} {list : EventList} {labels : LabelTable} {bytes : List UInt8}
    (h : (ofPattern channel time clamped pattern).1 = .ok list)
    (hbytes : Event.compileAll driver address labels list.events = .ok bytes) :
    ∃ is, Reader.list bytes.toArray bytes.length 0 = .ok (is, (encodeAll is).length) ∧
      ticksOf is ≤ duration time 0 pattern.rows ∧
      ((∀ row ∈ playedRows pattern.rows, JumpsLast row) →
        (ticksOf is = duration time 0 pattern.rows ↔ ∀ e ∈ list.events, e.Exact)) := by
  obtain ⟨events, hwalk, rfl⟩ := Except.map_eq_ok
    (walk channel time 0 {} ⟨.wait, 0⟩ clamped pattern.rows) (Prod.ext h rfl)
  change Event.compileAll driver address labels events = .ok bytes at hbytes
  obtain ⟨is, rfl, hcanonical, hticks⟩ := Event.compileAll_eq_ok hbytes
  have htime := sum_timing_walk hwalk
  rw [Nat.zero_add] at htime
  have hplayed := Event.sum_ticksOf_body (Event.played events)
  have hle := Event.sum_timing_played_le events
  have hholds : Reader.Holds (encodeAll is).toArray 0 (encodeAll is) := List.prefix_rfl
  refine ⟨throughEnd is, ?_, by omega, fun hjumps => ?_⟩
  · have hread := Reader.list_of_holds hcanonical hholds (Nat.le_of_eq (Nat.zero_add _))
      (.inr (Nat.zero_add _))
    rwa [Nat.zero_add] at hread
  · -- no event but the last one leaves the list, so all of them are played
    rw [Event.played_eq_self (dropLast_walk hwalk hjumps rfl), htime] at hplayed
    rw [hticks, Event.played_eq_self (dropLast_walk hwalk hjumps rfl)]
    exact hplayed.2

/-- A note of 255 ticks, with 127 in its low seven bits, and a jump in the next
row play for all of their ticks. -/
theorem playingTime_jump : ∃ list bytes is,
    (ofPattern 0 { evenTicks := 255 } false
      ⟨[.ofNote 1 4, { effects := [⟨Effect.positionJump, some 3⟩] }, {}]⟩).1 = .ok list ∧
    Event.compileAll 0 16 {} list.events = .ok bytes ∧
    Reader.list bytes.toArray bytes.length 0 = .ok (is, (Instruction.encodeAll is).length) ∧
    Instruction.ticksOf is = 255 + 6 := by
  have hlist : (ofPattern 0 { evenTicks := 255 } false
      ⟨[.ofNote 1 4, { effects := [⟨Effect.positionJump, some 3⟩] }, {}]⟩).1 =
      .ok ⟨.sub, [⟨.wait, 0⟩, ⟨.note 65, 255⟩, ⟨.positionJump 3, 6⟩]⟩ := rfl
  obtain ⟨bytes, hbytes⟩ : ∃ bytes, Event.compileAll 0 16 {}
      [⟨.wait, 0⟩, ⟨.note 65, 255⟩, ⟨.positionJump 3, 6⟩] = .ok bytes :=
    Except.exists_of_isOk (by decide +kernel)
  obtain ⟨is, hread, -, hexact⟩ := playingTime hlist hbytes
  refine ⟨_, bytes, is, hlist, hbytes, hread, (hexact (by decide)).mpr fun e he => ?_⟩
  simp only [List.mem_cons, List.not_mem_nil, or_false] at he
  rcases he with rfl | rfl | rfl
  · exact Nat.zero_le _
  · exact .inr ⟨rfl, by decide⟩
  · exact (by decide : 6 ≤ 0xFFFF)

/-- Playing time is not kept in general: a note of 200 ticks folds 72 of them and
waits for 73. -/
theorem playingTime_lossy : ¬ ∀ (channel driver address : Nat) (time : TimeInfo) (clamped : Bool)
    (pattern : Pattern) (list : EventList) (labels : LabelTable) (bytes : List UInt8)
    (is : List Instruction) (next : Nat),
    (ofPattern channel time clamped pattern).1 = .ok list →
    Event.compileAll driver address labels list.events = .ok bytes →
    Reader.list bytes.toArray bytes.length 0 = .ok (is, next) →
    Instruction.ticksOf is = duration time 0 pattern.rows := by
  intro h
  have hlist : (ofPattern 0 { evenTicks := 200 } false ⟨[.ofNote 1 4]⟩).1 =
      .ok ⟨.sub, [⟨.wait, 0⟩, ⟨.note 65, 200⟩, ⟨.returnFromSubPattern, 0⟩]⟩ := rfl
  have hbytes : Event.compileAll 0 0 {} [⟨.wait, 0⟩, ⟨.note 65, 200⟩, ⟨.returnFromSubPattern, 0⟩] =
      .ok [200, 65, 3, 72, 32] := Except.eq_ok_of_toOption (by decide +kernel)
  have hread : Reader.list #[200, 65, 3, 72, 32] 5 0 =
      .ok ([.note 72 65, .waitByte 72, .returnFromSubPattern], 5) := by
    cbv
  have hticks := h 0 0 0 { evenTicks := 200 } false ⟨[.ofNote 1 4]⟩ _ {} _ _ _ hlist hbytes hread
  exact absurd hticks (by decide)

end SubPattern
end Chiptune
