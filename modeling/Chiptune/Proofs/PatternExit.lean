/-
# How sub-patterns end

The driver leaves a sub-pattern with a return or with a position jump. The
list of a pattern is terminated, with one such event at its very end, exactly
if the rows that are played do nothing behind their first position jump
(`SubPattern.ofPattern_terminated_iff`). A row that goes on behind a jump
leaves commands in the list that the driver does not reach, and the ticks of
the row wait there (`SubPattern.not_terminated_overrunning`).

Only a row that leaves the pattern can fail this, and it is the last one that
is played, so the list up to it never leaves the pattern.

Key definitions: `Command.exits`, `SubPattern.Terminated`.
Key theorems: `SubPattern.jumpsLast_iff`, `SubPattern.jumpsLast_walk`,
`SubPattern.ofPattern_terminated_iff`.
-/
import Chiptune.Proofs.PlayingTime

namespace Chiptune

open Tracker

/-- Whether a command leaves a sub-pattern. -/
def Command.exits : Command → Bool
  | .positionJump _ => true
  | .returnFromSubPattern => true
  | _ => false

theorem Command.exits_eq_endsList {command : Command} (h : command ≠ .endList) :
    command.exits = command.endsList := by
  cases command with
  | endList => exact absurd rfl h
  | _ => rfl

namespace SubPattern

/-- Exactly one event leaves the sub-pattern, and it is the last one. -/
structure Terminated (events : List Event) : Prop where
  one : events.countP (fun e => e.command.exits) = 1
  last : ∃ e, events.getLast? = some e ∧ e.command.exits = true

/-- Events are terminated if one of them leaves and none but the last. -/
theorem terminated_iff {events : List Event} : Terminated events ↔
    (∃ e ∈ events, e.command.exits = true) ∧ ∀ e ∈ events.dropLast, e.command.exits = false := by
  rcases List.eq_nil_or_concat events with rfl | ⟨before, last, rfl⟩
  · constructor
    · rintro ⟨hone, -⟩
      cases hone
    · rintro ⟨⟨e, he, -⟩, -⟩
      cases he
  rw [List.concat_eq_append, List.dropLast_concat]
  constructor
  · rintro ⟨hone, e, hlast, hexits⟩
    obtain rfl : last = e := by simpa using hlast
    have hnone : before.countP (fun e => e.command.exits) = 0 := by
      simpa [List.countP_append, hexits] using hone
    refine ⟨⟨last, by simp, hexits⟩, fun e he => ?_⟩
    simpa using List.countP_eq_zero.mp hnone e he
  · rintro ⟨⟨e, he, hexits⟩, hbefore⟩
    have hnone : before.countP (fun e => e.command.exits) = 0 :=
      List.countP_eq_zero.mpr fun e he => by simp [hbefore e he]
    obtain rfl : e = last := by
      rcases List.mem_append.mp he with he | he
      · rw [hbefore e he] at hexits
        cases hexits
      · exact List.mem_singleton.mp he
    exact ⟨by simp [List.countP_append, hnone, hexits], e, by simp, hexits⟩

/-! ### Commands of a row -/

section Commands

variable {channel : Nat}

theorem ne_endList_rowCommands {setting : Setting} {row : Row} {cs : List Command}
    (h : rowCommands channel setting row = .ok cs) : ∀ command ∈ cs, command ≠ .endList := by
  obtain ⟨before, effects, rfl, hbefore, heffects⟩ := rowCommands_eq_ok h
  intro command hc
  rintro rfl
  rcases List.mem_append.mp hc with hc | hc
  · cases (hbefore _ hc).1
  · obtain ⟨fx, -, value, -, hcommand⟩ := mem_effectCommands heffects _ hc
    have hends := (effectCommand?_eq_some hcommand).1
    split at hends <;> cases hends

theorem silent_of_effectCommands : ∀ {effects : List Effect},
    effectCommands channel effects = .ok [] → ∀ fx ∈ effects, Silent fx
  | [], _, fx, hfx => by cases hfx
  | first :: rest, h, fx, hfx => by
    rcases effectCommands_cons_eq_ok h with
      ⟨hs, hrest⟩ | ⟨value, command, more, -, -, -, hcons⟩
    · rcases List.mem_cons.mp hfx with rfl | hfx
      · exact hs
      · exact silent_of_effectCommands hrest fx hfx
    · cases hcons

/-- If only the last command of effects leaves the list, nothing is done behind
the first jump. -/
theorem silent_behind_jump : ∀ {effects : List Effect} {cs : List Command},
    effectCommands channel effects = .ok cs → (∀ command ∈ cs.dropLast, command.endsList = false) →
    ∀ fx ∈ (effects.dropWhile fun fx => !jumps fx).drop 1, Silent fx
  | [], cs, _, _ => by
    intro fx hfx
    cases hfx
  | first :: rest, cs, h, hlast => by
    rcases effectCommands_cons_eq_ok h with
      ⟨hs, hrest⟩ | ⟨value, command, more, -, ⟨hv, hc⟩, hrest, rfl⟩
    · rw [List.dropWhile_cons_of_pos (by simp [jumps_of_silent hs])]
      exact silent_behind_jump hrest hlast
    · by_cases hj : jumps first = true
      · rw [List.dropWhile_cons_of_neg (by simp [hj])]
        -- the jump is the last command, or it would be among those before it
        cases more with
        | nil => exact silent_of_effectCommands hrest
        | cons other others =>
          have hends := hlast command (by simp)
          rw [endsList_effectCommand? hv hc, hj] at hends
          cases hends
      · rw [List.dropWhile_cons_of_pos (by simpa using hj)]
        refine silent_behind_jump hrest fun x hx => hlast x ?_
        cases more with
        | nil => cases hx
        | cons other others => exact List.mem_cons_of_mem _ hx

/-- A row does nothing behind its first jump exactly if only its last command
may leave the list. -/
theorem jumpsLast_iff {setting : Setting} {row : Row} {cs : List Command}
    (h : rowCommands channel setting row = .ok cs) :
    JumpsLast row ↔ ∀ command ∈ cs.dropLast, command.endsList = false := by
  refine ⟨dropLast_rowCommands h, fun hlast => ?_⟩
  obtain ⟨before, effects, rfl, -, heffects⟩ := rowCommands_eq_ok h
  refine silent_behind_jump heffects fun command hc => hlast command ?_
  have hne : effects ≠ [] := by
    rintro rfl
    cases hc
  rw [List.dropLast_append_of_ne_nil hne]
  exact List.mem_append_right _ hc

end Commands

/-! ### Events of a pattern -/

section Walk

variable {channel : Nat} {time : TimeInfo} {c : Bool}

/-- If only the last event leaves the list, the rows that are played jump
last. -/
theorem jumpsLast_walk : ∀ {rows : List Row} {index : Nat} {setting : Setting} {last : Event}
    {clamped : Bool} {events : List Event},
    walk channel time index setting last clamped rows = (.ok events, c) →
    (∀ e ∈ events.dropLast, e.command.endsList = false) → ∀ row ∈ playedRows rows, JumpsLast row
  | [], index, setting, last, clamped, events, _, _ => by
    intro row hrow
    cases hrow
  | row :: rest, index, setting, last, clamped, events, h, hlast => by
    obtain ⟨commands, hcommands, hcase⟩ := walk_cons_eq_ok h
    have hrow := jumpsLast_iff hcommands
    rw [playedRows]
    rcases hcase with ⟨rfl, clamped', hrest⟩ | ⟨before, command, rfl, more, rfl, hmore⟩
    · have hstays : leaves row = false := (any_endsList_rowCommands hcommands).symm
      rw [if_neg (by simp [hstays])]
      have hjumps : JumpsLast row := hrow.mpr fun x hx => by cases hx
      exact List.forall_mem_cons.mpr ⟨hjumps, jumpsLast_walk hrest hlast⟩
    · have hne : more ≠ [] := by
        split at hmore
        · rw [hmore]
          exact List.cons_ne_nil _ _
        · obtain ⟨clamped', hrest⟩ := hmore
          obtain ⟨e, he, -⟩ := exists_endsList_walk hrest
          exact List.ne_nil_of_mem he
      rw [List.dropLast_append_of_ne_nil hne] at hlast
      have hjumps : JumpsLast row := hrow.mpr fun x hx => by
        rw [List.dropLast_concat] at hx
        exact hlast ⟨x, 0⟩ (by simp [hx])
      split at hmore
      · next hleaves =>
        rw [if_pos hleaves]
        simpa using hjumps
      · next hstays =>
        obtain ⟨clamped', hrest⟩ := hmore
        rw [if_neg hstays]
        have htail := jumpsLast_walk hrest fun e he => hlast e (List.mem_append_right _ he)
        exact List.forall_mem_cons.mpr ⟨hjumps, htail⟩

/-- **When a sub-pattern is terminated.** The list of a pattern has one event
that leaves the sub-pattern, at its end, exactly if the rows that are played do
nothing behind their first position jump. -/
theorem ofPattern_terminated_iff {clamped : Bool} {pattern : Pattern} {list : EventList}
    (h : (ofPattern channel time clamped pattern).1 = .ok list) :
    Terminated list.events ↔ ∀ row ∈ playedRows pattern.rows, JumpsLast row := by
  obtain ⟨events, hwalk, rfl⟩ := Except.map_eq_ok
    (walk channel time 0 {} ⟨.wait, 0⟩ clamped pattern.rows) (Prod.ext h rfl)
  have hends : ∀ e ∈ events, e.command.exits = e.command.endsList := fun e he =>
    Command.exits_eq_endsList
      (forall_mem_walk ne_endList_rowCommands (by decide) hwalk (by decide) e he)
  have hbefore : (∀ e ∈ events.dropLast, e.command.exits = false) ↔
      ∀ e ∈ events.dropLast, e.command.endsList = false := by
    refine forall₂_congr fun e he => ?_
    rw [hends e (List.dropLast_subset events he)]
  have hexit : ∃ e ∈ events, e.command.exits = true := by
    obtain ⟨e, he, hend⟩ := exists_endsList_walk hwalk
    exact ⟨e, he, (hends e he).trans hend⟩
  rw [terminated_iff, and_iff_right hexit, hbefore]
  exact ⟨jumpsLast_walk hwalk, fun hjumps => dropLast_walk hwalk hjumps rfl⟩

end Walk

/-- A bank that is selected behind a jump does not matter. -/
theorem ofPattern_terminated_iff_bank : ∃ list,
    (ofPattern 7 {} false ⟨[.ofNote 1 0, { effects := [⟨Effect.setPanning, some 0x11⟩,
      ⟨Effect.positionJump, some 1⟩, ⟨Effect.setSampleBank, some 2⟩] }, {}]⟩).1 = .ok list ∧
    Terminated list.events := by
  obtain ⟨list, hlist⟩ : ∃ list, (ofPattern 7 {} false ⟨[.ofNote 1 0,
      { effects := [⟨Effect.setPanning, some 0x11⟩, ⟨Effect.positionJump, some 1⟩,
        ⟨Effect.setSampleBank, some 2⟩] }, {}]⟩).1 = .ok list :=
    Except.exists_of_isOk rfl
  exact ⟨list, hlist, (ofPattern_terminated_iff hlist).mpr (by decide)⟩

/-- A pattern with a row that goes on behind its jump. -/
def overrunning : Pattern :=
  ⟨[{ effects := [⟨Effect.positionJump, some 1⟩, ⟨Effect.setPanning, some 0x11⟩] }]⟩

/-- Sub-patterns are not terminated in general: the list of `overrunning` ends
with a panning, and the ticks of the row wait there. -/
theorem not_terminated_overrunning : (ofPattern 0 {} false overrunning).1 =
      .ok ⟨.sub, [⟨.wait, 0⟩, ⟨.positionJump 1, 0⟩, ⟨.setPanning .center, 6⟩]⟩ ∧
    ¬ Terminated [⟨.wait, 0⟩, ⟨.positionJump 1, 0⟩, ⟨.setPanning .center, 6⟩] := by
  refine ⟨rfl, fun h => ?_⟩
  obtain ⟨e, he, hexits⟩ := h.last
  obtain rfl := Option.some.inj he
  cases hexits

end SubPattern
end Chiptune
