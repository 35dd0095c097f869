/-
# The list of a pattern

What the commands of a row are, and how a row extends the list of its pattern
(`SubPattern.walk_cons_eq_ok`). A row leaves its pattern exactly if one of its
commands leaves the list, so the list of a pattern always has a command that
leaves it. No pattern plays rows of the pattern matrix, and whether a note was
clamped before does not change the list.

Key definitions: `SubPattern.Silent`.
Key theorems: `SubPattern.rowCommands_eq_ok`, `SubPattern.walk_cons_eq_ok`,
`SubPattern.exists_endsList_walk`, `SubPattern.forall_mem_walk`,
`SubPattern.ofPattern_clamped`.
-/
import Chiptune.Proofs.EventCode
import Chiptune.Song.Layout
import Chiptune.SubPattern

namespace Chiptune
namespace SubPattern

open Tracker

/-- Whether an effect gives no command. -/
def Silent (fx : Effect) : Prop := fx.value = none ∨ fx.code = Effect.setSampleBank

instance : DecidablePred Silent := fun fx =>
  inferInstanceAs (Decidable (fx.value = none ∨ fx.code = Effect.setSampleBank))

/-! ### Commands of a row -/

section Commands

variable {channel : Nat}

theorem effectCommand?_eq_some {code value : UInt8} {command : Command}
    (h : effectCommand? code value = some command) :
    (if code = Effect.positionJump then command = .positionJump value.toNat
      else command.endsList = false) ∧ Layout.playsRow command = false := by
  by_cases hj : code = Effect.positionJump
  · rw [if_pos hj]
    rw [hj] at h
    obtain rfl := Option.some.inj h
    exact ⟨rfl, rfl⟩
  · rw [if_neg hj]
    unfold effectCommand? at h
    rw [if_neg hj] at h
    repeat' split at h
    all_goals cases h <;> exact ⟨rfl, rfl⟩

/-- The command of an effect leaves the list if the effect jumps. -/
theorem endsList_effectCommand? {fx : Effect} {value : UInt8} {command : Command}
    (hv : fx.value = some value) (h : effectCommand? fx.code value = some command) :
    command.endsList = jumps fx := by
  have hcommand := (effectCommand?_eq_some h).1
  rw [jumps, hv, Option.isSome_some, Bool.and_true]
  split at hcommand
  · next hj => rw [hcommand, beq_iff_eq.mpr hj, Command.endsList]
  · next hj => rw [hcommand, beq_eq_false_iff_ne.mpr hj]

/-- An effect is silent or gives a command. -/
theorem effectCommands_cons_eq_ok {fx : Effect} {rest : List Effect} {cs : List Command}
    (h : effectCommands channel (fx :: rest) = .ok cs) :
    (Silent fx ∧ effectCommands channel rest = .ok cs) ∨
      ∃ value command more, ¬ Silent fx ∧
        (fx.value = some value ∧ effectCommand? fx.code value = some command) ∧
        effectCommands channel rest = .ok more ∧ cs = command :: more := by
  unfold effectCommands at h
  split at h
  · next hv => exact .inl ⟨.inl hv, h⟩
  · next value hv =>
    split at h
    · next hb => exact .inl ⟨.inr hb, h⟩
    · next hb =>
      split at h
      · cases h
      · next command hcommand =>
        obtain ⟨more, hmore, h⟩ := Except.bind_eq_ok h
        exact .inr ⟨value, command, more, by simp [Silent, hv, hb], ⟨hv, hcommand⟩, hmore,
          (Except.ok.inj h).symm⟩

/-- Each command of effects is that of one of them. -/
theorem mem_effectCommands : ∀ {effects : List Effect} {cs : List Command},
    effectCommands channel effects = .ok cs → ∀ command ∈ cs,
    ∃ fx ∈ effects, ∃ value, fx.value = some value ∧ effectCommand? fx.code value = some command
  | [], cs, h, command, hc => by
    obtain rfl := Except.ok.inj h
    cases hc
  | fx :: rest, cs, h, command, hc => by
    have htail : ∀ {more : List Command}, effectCommands channel rest = .ok more →
        command ∈ more → ∃ fx' ∈ fx :: rest, ∃ value, fx'.value = some value ∧
          effectCommand? fx'.code value = some command := by
      intro more hmore hmem
      obtain ⟨fx', hfx, hvalue⟩ := mem_effectCommands hmore command hmem
      exact ⟨fx', List.mem_cons_of_mem _ hfx, hvalue⟩
    rcases effectCommands_cons_eq_ok h with ⟨-, hrest⟩ | ⟨value, first, more, -, hfirst, hrest, rfl⟩
    · exact htail hrest hc
    · rcases List.mem_cons.mp hc with rfl | hc
      · exact ⟨fx, List.mem_cons_self .., value, hfirst⟩
      · exact htail hrest hc

theorem jumps_of_silent {fx : Effect} (h : Silent fx) : jumps fx = false := by
  rcases h with hv | hb
  · simp [jumps, hv]
  · simp [jumps, hb, Effect.setSampleBank, Effect.positionJump]

/-- Effects leave the pattern exactly if one of their commands leaves the list. -/
theorem any_endsList_effectCommands : ∀ {effects : List Effect} {cs : List Command},
    effectCommands channel effects = .ok cs → cs.any Command.endsList = effects.any jumps
  | [], cs, h => by
    obtain rfl := Except.ok.inj h
    rfl
  | fx :: rest, cs, h => by
    rcases effectCommands_cons_eq_ok h with
      ⟨hs, hrest⟩ | ⟨value, command, more, -, ⟨hv, hc⟩, hrest, rfl⟩
    · rw [any_endsList_effectCommands hrest, List.any_cons, jumps_of_silent hs, Bool.false_or]
    · rw [List.any_cons, List.any_cons, endsList_effectCommand? hv hc,
        any_endsList_effectCommands hrest]

/-- The commands of a row end with those of its effects; the others stay in the
list. -/
theorem rowCommands_eq_ok {setting : Setting} {row : Row} {cs : List Command}
    (h : rowCommands channel setting row = .ok cs) :
    ∃ before effects, cs = before ++ effects ∧
      (∀ command ∈ before, command.endsList = false ∧ Layout.playsRow command = false) ∧
      effectCommands channel row.effects = .ok effects := by
  obtain ⟨note, hnote, h⟩ := Except.bind_eq_ok h
  obtain ⟨effects, heffects, h⟩ := Except.bind_eq_ok h
  obtain rfl := Except.ok.inj h
  refine ⟨_, effects, rfl, fun command hc => ?_, heffects⟩
  have hone : ∀ {c : Command}, command ∈ [c] → c.endsList = false ∧ Layout.playsRow c = false →
      command.endsList = false ∧ Layout.playsRow command = false := by
    intro c hm hc
    rwa [List.mem_singleton.mp hm]
  simp only [List.mem_append] at hc
  rcases hc with ((hc | hc) | hc) | hc
  · split at hc
    · exact hone hc ⟨rfl, rfl⟩
    · cases hc
  · unfold volumeCommand at hc
    split at hc
    · cases hc
    · split at hc
      · cases hc
      · exact hone hc ⟨rfl, rfl⟩
  · unfold instrumentCommand at hc
    split at hc
    · cases hc
    · split at hc
      · cases hc
      · exact hone hc ⟨rfl, rfl⟩
  · unfold noteCommand at hnote
    split at hnote
    · obtain rfl := Except.ok.inj hnote
      cases hc
    · split at hnote
      · cases hnote
      · obtain rfl := Except.ok.inj hnote
        exact hone hc ⟨rfl, rfl⟩

/-- A row leaves the pattern exactly if one of its commands leaves the list. -/
theorem any_endsList_rowCommands {setting : Setting} {row : Row} {cs : List Command}
    (h : rowCommands channel setting row = .ok cs) : cs.any Command.endsList = leaves row := by
  obtain ⟨before, effects, rfl, hbefore, heffects⟩ := rowCommands_eq_ok h
  have hnone : before.any Command.endsList = false :=
    List.any_eq_false.mpr fun c hc => by simp [(hbefore c hc).1]
  rw [List.any_append, hnone, Bool.false_or, any_endsList_effectCommands heffects]
  rfl

/-- No row plays a row of the pattern matrix. -/
theorem playsRow_rowCommands {setting : Setting} {row : Row} {cs : List Command}
    (h : rowCommands channel setting row = .ok cs) :
    ∀ command ∈ cs, Layout.playsRow command = false := by
  obtain ⟨before, effects, rfl, hbefore, heffects⟩ := rowCommands_eq_ok h
  intro command hc
  rcases List.mem_append.mp hc with hc | hc
  · exact (hbefore command hc).2
  · obtain ⟨fx, -, value, -, hcommand⟩ := mem_effectCommands heffects command hc
    exact (effectCommand?_eq_some hcommand).2

end Commands

/-! ### Events of a pattern -/

section Walk

variable {channel index : Nat} {time : TimeInfo} {setting : Setting} {last : Event}
  {clamped c : Bool} {row : Row} {rest rows : List Row} {events : List Event}

/-- What a row adds to the list: nothing but its ticks, or its commands, the
last one with the ticks of the row. The rows behind it see what it has set. -/
theorem walk_cons_eq_ok
    (h : walk channel time index setting last clamped (row :: rest) = (.ok events, c)) :
    ∃ commands, rowCommands channel setting row = .ok commands ∧
      ((commands = [] ∧ ∃ clamped',
        walk channel time (index + 1) (setting.after (voiceKind channel) row)
          { last with timing := last.timing + rowTicks time index } clamped' rest = (.ok events, c)) ∨
      ∃ before command, commands = before ++ [command] ∧ ∃ more,
        events = last :: before.map (⟨·, 0⟩) ++ more ∧
        if leaves row then more = [⟨command, rowTicks time index⟩]
        else ∃ clamped', walk channel time (index + 1) (setting.after (voiceKind channel) row)
          ⟨command, rowTicks time index⟩ clamped' rest = (.ok more, c)) := by
  unfold walk at h
  simp only at h
  split at h
  · cases h
  · next commands hcommands =>
    refine ⟨commands, hcommands, ?_⟩
    split at h
    · next hnone =>
      split at h
      · exact .inl ⟨List.getLast?_eq_none_iff.mp hnone, _, h⟩
      · cases h
    · next command hsome =>
      obtain ⟨before, rfl⟩ := List.getLast?_eq_some_iff.mp hsome
      simp only [List.dropLast_concat] at h
      refine .inr ⟨before, command, rfl, ?_⟩
      split at h
      · split at h
        · next hleaves =>
          obtain ⟨hevents, rfl⟩ := Prod.mk.inj h
          exact ⟨_, (Except.ok.inj hevents).symm, by rw [if_pos hleaves]⟩
        · next hleaves =>
          obtain ⟨more, hmore, rfl⟩ := Except.map_eq_ok (walk channel time (index + 1) _ _ _ rest) h
          exact ⟨more, rfl, by rw [if_neg hleaves]; exact ⟨_, hmore⟩⟩
      · cases h

/-- The list of a pattern has a command that leaves it. -/
theorem exists_endsList_walk : ∀ {rows : List Row} {index : Nat} {setting : Setting} {last : Event}
    {clamped : Bool} {events : List Event},
    walk channel time index setting last clamped rows = (.ok events, c) →
    ∃ e ∈ events, e.command.endsList = true
  | [], index, setting, last, clamped, events, h => by
    obtain ⟨hevents, -⟩ := Prod.mk.inj h
    obtain rfl := Except.ok.inj hevents
    exact ⟨⟨.returnFromSubPattern, 0⟩, by simp, rfl⟩
  | row :: rest, index, setting, last, clamped, events, h => by
    obtain ⟨commands, hcommands, hcase⟩ := walk_cons_eq_ok h
    have hleaves := any_endsList_rowCommands hcommands
    rcases hcase with ⟨-, clamped', hrest⟩ | ⟨before, command, rfl, more, rfl, hmore⟩
    · exact exists_endsList_walk hrest
    · split at hmore
      · next hl =>
        rw [hl] at hleaves
        obtain ⟨x, hx, hends⟩ := List.any_eq_true.mp hleaves
        rcases List.mem_append.mp hx with hx | hx
        · exact ⟨⟨x, 0⟩, by simp [hx], hends⟩
        · rw [hmore]
          exact ⟨⟨command, rowTicks time index⟩, by simp, List.mem_singleton.mp hx ▸ hends⟩
      · obtain ⟨clamped', hrest⟩ := hmore
        obtain ⟨e, he, hends⟩ := exists_endsList_walk hrest
        exact ⟨e, by simp [he], hends⟩

/-- What holds of the commands of all rows holds of the list of a pattern. -/
theorem forall_mem_walk {P : Command → Prop}
    (hrow : ∀ {setting : Setting} {row : Row} {cs : List Command},
      rowCommands channel setting row = .ok cs → ∀ command ∈ cs, P command)
    (hreturn : P .returnFromSubPattern) : ∀ {rows : List Row} {index : Nat} {setting : Setting}
    {last : Event} {clamped : Bool} {events : List Event},
    walk channel time index setting last clamped rows = (.ok events, c) →
    P last.command → ∀ e ∈ events, P e.command
  | [], index, setting, last, clamped, events, h, hlast => by
    obtain ⟨hevents, -⟩ := Prod.mk.inj h
    obtain rfl := Except.ok.inj hevents
    simpa using ⟨hlast, hreturn⟩
  | row :: rest, index, setting, last, clamped, events, h, hlast => by
    obtain ⟨commands, hcommands, hcase⟩ := walk_cons_eq_ok h
    have hall := hrow hcommands
    rcases hcase with ⟨-, clamped', hrest⟩ | ⟨before, command, rfl, more, rfl, hmore⟩
    · exact forall_mem_walk hrow hreturn hrest hlast
    · have hcommand : P command := hall command (by simp)
      have htail : ∀ e ∈ more, P e.command := by
        split at hmore
        · rw [hmore]
          simpa using hcommand
        · obtain ⟨clamped', hrest⟩ := hmore
          exact forall_mem_walk hrow hreturn hrest hcommand
      intro e he
      rcases List.mem_append.mp he with he | he
      · rcases List.mem_cons.mp he with rfl | he
        · exact hlast
        · obtain ⟨x, hx, rfl⟩ := List.mem_map.mp he
          exact hall x (by simp [hx])
      · exact htail e he

/-- Notes that were clamped before do not change the list. -/
theorem walk_clamped : ∀ (rows : List Row) (index : Nat) (setting : Setting) (last : Event)
    (clamped clamped' : Bool), (walk channel time index setting last clamped rows).1 =
      (walk channel time index setting last clamped' rows).1
  | [], _, _, _, _, _ => rfl
  | row :: rest, index, setting, last, clamped, clamped' => by
    unfold walk
    simp only
    split
    · rfl
    · split
      · split
        · exact walk_clamped rest ..
        · rfl
      · split
        · split
          · rfl
          · simp only
            rw [walk_clamped rest]
        · rfl

theorem ofPattern_clamped (channel : Nat) (time : TimeInfo) (clamped clamped' : Bool)
    (pattern : Pattern) :
    (ofPattern channel time clamped pattern).1 = (ofPattern channel time clamped' pattern).1 :=
  congrArg (Except.map fun es => (⟨.sub, es⟩ : EventList)) (walk_clamped pattern.rows ..)

/-- The list of a pattern is a sub-pattern that ends and plays no rows. -/
theorem ofPattern_eq_ok {time : TimeInfo} {clamped : Bool} {pattern : Pattern} {list : EventList}
    (h : (ofPattern channel time clamped pattern).1 = .ok list) : list.kind = .sub ∧
      (∃ e ∈ list.events, e.command.endsList = true) ∧
      ∀ e ∈ list.events, Layout.playsRow e.command = false := by
  unfold ofPattern at h
  cases hw : walk channel time 0 {} ⟨.wait, 0⟩ clamped pattern.rows with
  | mk r c =>
    rw [hw] at h
    cases r with
    | error e => cases h
    | ok events =>
      obtain rfl := Except.ok.inj h
      exact ⟨rfl, exists_endsList_walk hw, forall_mem_walk playsRow_rowCommands rfl hw rfl⟩

end Walk
end SubPattern
end Chiptune
