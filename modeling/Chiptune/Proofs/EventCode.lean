/-
# The instructions of events

An event becomes its body, which its command and its ticks determine, and one
jump behind it if it jumps (`Event.instructions_eq_ok`). Bodies hold
instructions that can be read back, and only commands that leave the list end
it.

Key theorems: `Instruction.mem_waits`, `Event.rowJump_eq_ok`,
`Event.instructions_eq_ok`, `Event.canonical_of_mem_body`.
-/
import Chiptune.Event
import Chiptune.Proofs.Codec

namespace Chiptune

theorem Except.exists_of_isOk {ε α : Type} {r : Except ε α} (h : r.isOk = true) : ∃ a, r = .ok a := by
  cases r with
  | error e => cases h
  | ok a => exact ⟨a, rfl⟩

theorem Except.eq_ok_of_toOption {ε α : Type} {r : Except ε α} {a : α}
    (h : r.toOption = some a) : r = .ok a := by
  cases r with
  | error e => cases h
  | ok b => exact congrArg Except.ok (Option.some.inj h)

theorem Except.map_eq_ok {ε α β σ : Type} (r : Except ε α × σ) {f : α → β} {b : β} {u : σ}
    (h : (r.1.map f, r.2) = (.ok b, u)) : ∃ a, r = (.ok a, u) ∧ b = f a := by
  obtain ⟨r, t⟩ := r
  obtain ⟨hr, rfl⟩ := Prod.mk.inj h
  cases r with
  | error e => cases hr
  | ok a => exact ⟨a, rfl, (Except.ok.inj hr).symm⟩

theorem Address.eq_of_advance {address count n : Nat} (h : Address.advance address count = .ok n) :
    n = address + count := by
  unfold Address.advance at h
  split at h
  · exact (Except.ok.inj h).symm
  · cases h

/-! ### Waits -/

namespace Instruction

variable {i : Instruction} {is js : List Instruction}

theorem waits_of_nonpos {ticks : Int} (h : ticks ≤ 0) : waits ticks = [] := by
  rw [waits, if_pos h]

@[simp] theorem waits_zero : waits 0 = [] := waits_of_nonpos (Int.le_refl 0)

/-- A wait of any length is made of wait instructions. -/
theorem mem_waits {ticks : Int} (h : i ∈ waits ticks) : i.waitTicks?.isSome := by
  fun_induction waits ticks with
  | case1 => cases h
  | case2 ticks hpos hlong ih =>
    rcases List.mem_cons.mp h with rfl | h
    · rfl
    · exact ih h
  | case3 ticks hpos hlong hbyte =>
    obtain rfl := List.mem_singleton.mp h
    rfl
  | case4 ticks hpos hlong hbyte =>
    obtain rfl := List.mem_singleton.mp h
    rfl

theorem canonical_of_waitTicks? (h : i.waitTicks?.isSome) : i.Canonical := by
  cases i with
  | unknown opcode => cases h
  | _ => trivial

theorem endsList_of_waitTicks? (h : i.waitTicks?.isSome) : i.endsList = false := by
  cases i with
  | endList | returnFromSubPattern | positionJump | positionJumpShort => cases h
  | _ => rfl

theorem endsList_of_mem_waits {ticks : Int} (h : i ∈ waits ticks) : i.endsList = false :=
  endsList_of_waitTicks? (mem_waits h)

theorem throughEnd_append (h : ∀ i ∈ is, i.endsList = false) :
    throughEnd (is ++ js) = is ++ throughEnd js := by
  induction is with
  | nil => rfl
  | cons i is ih =>
    rw [List.cons_append, throughEnd, h i (List.mem_cons_self ..),
      ih fun i hi => h i (List.mem_cons_of_mem _ hi)]
    rfl

theorem throughEnd_snoc (h : ∀ j ∈ is, j.endsList = false) :
    throughEnd (is ++ [i] ++ js) = if i.endsList then is ++ [i] else is ++ [i] ++ throughEnd js := by
  rw [List.append_assoc, throughEnd_append h, List.singleton_append, throughEnd]
  split
  · rfl
  · rw [List.append_assoc]
    rfl

end Instruction

/-! ### Events -/

/-- Whether a command leaves its list. -/
def Command.endsList : Command → Bool
  | .positionJump _ => true
  | .endList => true
  | .returnFromSubPattern => true
  | _ => false

namespace Event

/-- Besides waits, the body of an event holds an instruction that ends the list
exactly if the command does. -/
theorem mem_body {event : Event} {i : Instruction} (h : i ∈ event.body) :
    i.waitTicks?.isSome ∨ (i.Canonical ∧ i.endsList = event.command.endsList) := by
  have hhead : ∀ {first : Instruction} {ticks}, i ∈ first :: Instruction.waits ticks →
      i = first ∨ i.waitTicks?.isSome := fun h =>
    (List.mem_cons.mp h).imp_right Instruction.mem_waits
  have hlast : ∀ {last : Instruction} {ticks}, i ∈ Instruction.waits ticks ++ [last] →
      i.waitTicks?.isSome ∨ i = last := fun h =>
    (List.mem_append.mp h).imp Instruction.mem_waits List.mem_singleton.mp
  obtain ⟨command, timing⟩ := event
  cases command with
  | wait | jumpToSubPattern | positionJump => exact .inl (Instruction.mem_waits h)
  | endList | returnFromSubPattern =>
    refine (hlast h).imp_right ?_
    rintro rfl
    exact ⟨trivial, rfl⟩
  | pitchSlide direction speed =>
    cases direction <;>
    · refine (hhead h).symm.imp_right ?_
      rintro rfl
      exact ⟨trivial, rfl⟩
  | _ =>
    refine (hhead h).symm.imp_right ?_
    rintro rfl
    exact ⟨trivial, rfl⟩

theorem canonical_of_mem_body {event : Event} {i : Instruction} (h : i ∈ event.body) :
    i.Canonical := by
  rcases mem_body h with hw | ⟨hc, -⟩
  · exact Instruction.canonical_of_waitTicks? hw
  · exact hc

theorem endsList_of_mem_body {event : Event} (he : event.command.endsList = false)
    {i : Instruction} (h : i ∈ event.body) : i.endsList = false := by
  rcases mem_body h with hw | ⟨-, hi⟩
  · exact Instruction.endsList_of_waitTicks? hw
  · rw [hi, he]

end Event

/-- A jump to a row that is not placed has no operand yet; one to a placed row
refers to it, and its form depends on the distance. -/
theorem Event.rowJump_eq_ok {channel row address offset : Nat} {t u : LabelTable} {i : Instruction}
    (h : Event.rowJump channel row address offset t = (.ok i, u)) :
    (t.contains (.matrixRow channel row) = false ∧ i = .positionJump 0 ∧ u = t) ∨
      ∃ target d, t.contains (.matrixRow channel row) = true ∧
        t.reference (.matrixRow channel row) (address + offset + 1) = .ok (target, u) ∧
        Address.distance (address + offset) target = .ok d ∧ i = Event.jump d target := by
  unfold Event.rowJump at h
  split at h
  · cases h
  · next origin ho =>
    obtain rfl := Address.eq_of_advance ho
    split at h
    · next hc =>
      split at h
      · cases h
      · next target u' hr =>
        obtain ⟨site, hsite, hr⟩ := Except.bind_eq_ok hr
        obtain rfl := Address.eq_of_advance hsite
        obtain ⟨hd, rfl⟩ := Prod.mk.inj h
        cases hdist : Address.distance (address + offset) target with
        | error e => rw [hdist] at hd; cases hd
        | ok d =>
          rw [hdist] at hd
          exact .inr ⟨target, d, hc, hr, hdist, (Except.ok.inj hd).symm⟩
    · next hc =>
      obtain ⟨hi, rfl⟩ := Prod.mk.inj h
      exact .inl ⟨by simpa using hc, (Except.ok.inj hi).symm, rfl⟩

/-- What an event is emitted as: its body, and behind it the jump of an event
that jumps, with the reference that it makes. -/
theorem Event.instructions_eq_ok {channel address : Nat} {t u : LabelTable} {event : Event}
    {is : List Instruction} (h : event.instructions channel address t = (.ok is, u)) :
    match event.command with
    | .jumpToSubPattern index => ∃ target,
      t.reference (.subPattern channel index)
        (address + ((Instruction.encodeAll event.body).length + 1)) = .ok (target, u) ∧
      is = event.body ++ [.jumpToSubPattern target.toUInt16]
    | .positionJump row => ∃ i,
      Event.rowJump channel row address (Instruction.encodeAll event.body).length t = (.ok i, u) ∧
      is = event.body ++ [i]
    | _ => is = event.body ∧ u = t := by
  obtain ⟨command, timing⟩ := event
  cases command with
  | jumpToSubPattern index =>
    obtain ⟨i, hi, rfl⟩ := Except.map_eq_ok (subPatternJump channel index address _ t) h
    unfold subPatternJump at hi
    split at hi
    · cases hi
    · next target u' hr =>
      obtain ⟨hjump, rfl⟩ := Prod.mk.inj hi
      obtain rfl := Except.ok.inj hjump
      obtain ⟨site, hsite, hr⟩ := Except.bind_eq_ok hr
      rw [Address.eq_of_advance hsite] at hr
      exact ⟨target, hr, rfl⟩
  | positionJump row =>
    obtain ⟨i, hi, rfl⟩ := Except.map_eq_ok (rowJump channel row address _ t) h
    exact ⟨i, hi, rfl⟩
  | _ =>
    obtain ⟨hi, hu⟩ := Prod.mk.inj h
    exact ⟨(Except.ok.inj hi).symm, hu.symm⟩

end Chiptune
