/-
# Ticks

A wait keeps its ticks as long as they fit into a word; of longer ones some
are lost, since a word wait counts for `0xFFFF` ticks whatever it carries. A
note folds the low seven bits of its ticks and waits for what exceeds 127, so
that a long note keeps its ticks only if these bits are 127; likewise a
note-off with its low byte. So an event never plays longer than its ticks, and
`Event.Exact` says when it plays as long (`Event.ticksOf_body`).

Compiled one behind the other, events become instructions that can be read
back, through the first event that leaves the list, with the ticks of their
bodies (`Event.compileAll_eq_ok`).

Key definitions: `Instruction.ticksOf`, `Event.Exact`, `Event.compileAll`,
`Event.played`.
Key theorems: `Instruction.ticksOf_waits`, `Event.ticksOf_body`,
`Event.compileAll_eq_ok`.
-/
import Chiptune.Proofs.EventCode
import Mathlib.Algebra.GroupWithZero.Nat

namespace Chiptune

/-! ### Instructions -/

namespace Instruction

/-- The ticks that pass with an instruction. -/
def ticks : Instruction → Nat
  | .note ticks _ => ticks
  | .noteOff ticks => ticks.toNat
  | i => i.waitTicks?.getD 0

/-- The ticks that pass with a sequence of instructions. -/
def ticksOf (is : List Instruction) : Nat := (is.map ticks).sum

@[simp] theorem ticksOf_nil : ticksOf [] = 0 := rfl

@[simp] theorem ticksOf_cons (i : Instruction) (is : List Instruction) :
    ticksOf (i :: is) = i.ticks + ticksOf is := by
  simp [ticksOf]

@[simp] theorem ticksOf_append (is js : List Instruction) :
    ticksOf (is ++ js) = ticksOf is + ticksOf js := by
  simp [ticksOf]

/-- A wait keeps its ticks as long as they fit into a word. -/
theorem ticksOf_waits (t : Int) :
    ticksOf (waits t) ≤ t.toNat ∧ (ticksOf (waits t) = t.toNat ↔ t ≤ 0xFFFF) := by
  fun_induction waits t with
  | case1 t hpassed =>
    rw [ticksOf_nil]
    omega
  | case2 t hpos hlong ih =>
    have hword : (waitWord t.toNat.toUInt16).ticks = t.toNat % 0x10000 := rfl
    rw [ticksOf_cons, hword]
    omega
  | case3 t hpos hlong hbyte =>
    have hticks : (waitByte (t - 1).toNat.toUInt8).ticks = (t - 1).toNat % 256 + 1 := rfl
    rw [ticksOf_cons, ticksOf_nil, hticks]
    omega
  | case4 t hpos hlong hbyte =>
    have hticks : (waitNibble (lowFour (t - 1).toNat)).ticks = (t - 1).toNat % 16 + 1 := rfl
    rw [ticksOf_cons, ticksOf_nil, hticks]
    omega

end Instruction

/-! ### Events -/

namespace Event

open Instruction

/-- Whether the instructions of an event keep its ticks. -/
def Exact (event : Event) : Prop :=
  match event.command with
  | .note _ => event.timing ≤ 0x7F ∨ (event.timing % 0x80 = 0x7F ∧ event.timing ≤ 0x7F + 0xFFFF)
  | .noteOff => event.timing ≤ 0xFF ∨ (event.timing % 0x100 = 0xFF ∧ event.timing ≤ 0xFF + 0xFFFF)
  | _ => event.timing ≤ 0xFFFF

/-- Commands other than notes wait for all of their ticks. -/
theorem ticksOf_body_of_ne {event : Event} (hn : ∀ pitch, event.command ≠ .note pitch)
    (ho : event.command ≠ .noteOff) : ticksOf event.body = ticksOf (waits event.timing) := by
  obtain ⟨command, t⟩ := event
  cases command with
  | note pitch => exact absurd rfl (hn pitch)
  | noteOff => exact absurd rfl ho
  | pitchSlide direction speed => cases direction <;> simp [body, ticks, waitTicks?]
  | _ => simp [body, ticks, waitTicks?]

/-- An event plays at most for its ticks, and as long as them exactly if it is
exact. -/
theorem ticksOf_body (event : Event) :
    ticksOf event.body ≤ event.timing ∧ (ticksOf event.body = event.timing ↔ event.Exact) := by
  obtain ⟨command, t⟩ := event
  have hwaits := ticksOf_waits t
  cases command with
  | note pitch =>
    have hrest := ticksOf_waits (t - 0x7F)
    have hbody : ticksOf (body ⟨.note pitch, t⟩) = t % 128 + ticksOf (waits (t - 0x7F)) :=
      ticksOf_cons ..
    simp only [hbody, Exact]
    omega
  | noteOff =>
    have hrest := ticksOf_waits (t - 0xFF)
    have hbody : ticksOf (body ⟨.noteOff, t⟩) = t % 256 + ticksOf (waits (t - 0xFF)) :=
      ticksOf_cons ..
    simp only [hbody, Exact]
    omega
  | _ =>
    simp only [Int.toNat_natCast] at hwaits
    simp [ticksOf_body_of_ne, Exact]
    omega

/-- Events play at most for their ticks, and as long as them exactly if each one
is exact. -/
theorem sum_ticksOf_body (events : List Event) :
    (events.map fun e => ticksOf e.body).sum ≤ (events.map timing).sum ∧
      ((events.map fun e => ticksOf e.body).sum = (events.map timing).sum ↔
        ∀ e ∈ events, e.Exact) := by
  induction events with
  | nil => simp
  | cons event rest ih =>
    have hevent := ticksOf_body event
    rw [List.forall_mem_cons, ← hevent.2, ← ih.2]
    simp only [List.map_cons, List.sum_cons]
    omega

/-- The bytes of events of a channel from an address on, each one behind the
one before it and with the label table that it leaves. -/
def compileAll (channel : Nat) :
    (address : Nat) → (labels : LabelTable) → List Event → Except Error (List UInt8)
  | _, _, [] => .ok []
  | address, labels, event :: rest => do
    let (code, labels) := event.compile channel address labels
    let bytes ← code
    let next ← Address.advance address bytes.length
    let others ← compileAll channel next labels rest
    .ok (bytes ++ others)

/-- The events that are played: through the first one that leaves the list. -/
def played : List Event → List Event
  | [] => []
  | event :: rest => if event.command.endsList then [event] else event :: played rest

theorem sum_timing_played_le (events : List Event) :
    ((played events).map timing).sum ≤ (events.map timing).sum := by
  induction events with
  | nil => exact Nat.le_refl _
  | cons event rest ih =>
    rw [played]
    split
    · simp
    · simp only [List.map_cons, List.sum_cons]
      omega

theorem played_eq_self : ∀ {events : List Event},
    (∀ e ∈ events.dropLast, e.command.endsList = false) → played events = events
  | [], _ => rfl
  | [event], _ => by
    rw [played]
    split <;> rfl
  | event :: next :: rest, h => by
    rw [played, h event (by simp), played_eq_self fun e he => h e (by simp [he])]
    rfl

/-- What the instructions of an event have in common, wherever they stand. -/
structure IsCode (event : Event) (is : List Instruction) : Prop where
  canonical : ∀ i ∈ is, i.Canonical
  ticks : ticksOf is = ticksOf event.body
  through : ∀ js, throughEnd (is ++ js) =
    if event.command.endsList then is else is ++ throughEnd js

theorem isCode_body {event : Event} (h : ∀ row, event.command ≠ .positionJump row) :
    event.IsCode event.body where
  canonical _ := canonical_of_mem_body
  ticks := rfl
  through js := by
    by_cases he : event.command.endsList = true
    · obtain ⟨command, timing⟩ := event
      cases command with
      | positionJump row => exact absurd rfl (h row)
      | endList | returnFromSubPattern => exact throughEnd_snoc fun i => endsList_of_mem_waits
      | _ => cases he
    · rw [if_neg he]
      rw [Bool.not_eq_true] at he
      exact throughEnd_append fun i => endsList_of_mem_body he

/-- The jump of an event stands behind its waits. -/
theorem isCode_snoc {event : Event} {i : Instruction} (hbody : event.body = waits event.timing)
    (hc : i.Canonical) (ht : i.ticks = 0) (he : i.endsList = event.command.endsList) :
    event.IsCode (event.body ++ [i]) where
  canonical j hj := by
    rcases List.mem_append.mp hj with hj | hj
    · exact canonical_of_mem_body hj
    · exact List.mem_singleton.mp hj ▸ hc
  ticks := by simp [ht]
  through js := by
    rw [← he, hbody]
    exact throughEnd_snoc fun j => endsList_of_mem_waits

/-- Whatever an event is compiled to is its code. -/
theorem instructions_isCode {channel address : Nat} {t u : LabelTable} {event : Event}
    {is : List Instruction} (h : event.instructions channel address t = (.ok is, u)) :
    event.IsCode is := by
  have hcode := instructions_eq_ok h
  obtain ⟨command, timing⟩ := event
  cases command with
  | jumpToSubPattern index =>
    obtain ⟨target, -, rfl⟩ := hcode
    exact isCode_snoc rfl trivial rfl rfl
  | positionJump row =>
    obtain ⟨i, hi, rfl⟩ := hcode
    rcases rowJump_eq_ok hi with ⟨-, rfl, -⟩ | ⟨target, d, -, -, -, rfl⟩
    · exact isCode_snoc rfl trivial rfl rfl
    · unfold jump
      split
      · exact isCode_snoc rfl trivial rfl rfl
      · exact isCode_snoc rfl trivial rfl rfl
  | _ =>
    obtain ⟨rfl, -⟩ := hcode
    exact isCode_body nofun

/-- **Compiled events are their codes**, one behind the other, and a reading
goes through those of the events that are played. -/
theorem compileAll_eq_ok {channel address : Nat} {events : List Event} {labels : LabelTable}
    {bytes : List UInt8} (h : compileAll channel address labels events = .ok bytes) :
    ∃ is, bytes = encodeAll is ∧ (∀ i ∈ is, i.Canonical) ∧
      ticksOf (throughEnd is) = ((played events).map fun e => ticksOf e.body).sum := by
  induction events generalizing address labels bytes with
  | nil =>
    obtain rfl := Except.ok.inj h
    exact ⟨[], rfl, nofun, rfl⟩
  | cons event rest ih =>
    obtain ⟨code, hcode, h⟩ := Except.bind_eq_ok h
    obtain ⟨next, -, h⟩ := Except.bind_eq_ok h
    obtain ⟨others, hothers, h⟩ := Except.bind_eq_ok h
    obtain rfl := Except.ok.inj h
    obtain ⟨is, u, hi, rfl⟩ : ∃ is u, event.instructions channel address labels = (.ok is, u) ∧
        code = encodeAll is := by
      obtain ⟨is, hi, rfl⟩ := Except.map_eq_ok (event.instructions channel address labels)
        (Prod.ext hcode rfl)
      exact ⟨is, _, hi, rfl⟩
    have hcode := instructions_isCode hi
    obtain ⟨js, rfl, hcanonical, hticks⟩ := ih hothers
    refine ⟨is ++ js, by simp, fun i hi => ?_, ?_⟩
    · rcases List.mem_append.mp hi with hi | hi
      · exact hcode.canonical i hi
      · exact hcanonical i hi
    · rw [hcode.through, played]
      split
      · simp [hcode.ticks]
      · simp [hcode.ticks, hticks]

end Event
end Chiptune
