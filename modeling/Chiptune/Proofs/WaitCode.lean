/-
# Waiting times read back

The bytes of a wait are read back as wait instructions and nothing else
(`Instruction.all_of_waits`). Ticks that have passed already need none; else
there is one for each `0xFFFF` ticks that are begun, and no fewer waits last as
long. Those that are written last as long only up to `0xFFFF` ticks: beyond, a
word wait counts for `0xFFFF` ticks but carries the low 16 bits of the ticks
left.

The bytes of an event are read back alone as well, and their ticks are the ticks
of the event exactly if it is exact (`Event.all_of_compile`).

Key definitions: `Instruction.Lasts`.
Key theorems: `Instruction.length_waits`, `Instruction.isLeast_length_waits`,
`Instruction.all_of_waits`, `Event.all_of_compile`.
-/
import Chiptune.Proofs.Ticks
import Mathlib.Algebra.Order.Floor.Div
import Mathlib.GroupTheory.GroupAction.Ring

namespace Chiptune

/-- Instructions are read back from their bytes alone. -/
theorem Reader.all_encodeAll {is : List Instruction} (h : ∀ i ∈ is, i.Canonical) :
    Reader.all (Instruction.encodeAll is).toArray 0 =
      .ok (is, (Instruction.encodeAll is).length) := by
  have hholds : Reader.Holds (Instruction.encodeAll is).toArray 0 (Instruction.encodeAll is) :=
    List.prefix_rfl
  exact Reader.all_of_holds h hholds (Nat.zero_add _)

/-! ### Waits -/

namespace Instruction

/-- Waits that last for a number of ticks, or longer. -/
structure Lasts (ticks : Nat) (is : List Instruction) : Prop where
  waiting : ∀ i ∈ is, i.waitTicks?.isSome
  enough : ticks ≤ ticksOf is

/-- There is one wait for each `0xFFFF` ticks that are begun. -/
theorem length_waits (t : Int) : (waits t).length = t.toNat ⌈/⌉ 0xFFFF := by
  rw [Nat.ceilDiv_eq_add_pred_div]
  fun_induction waits t with
  | case1 t hpassed =>
    rw [List.length_nil]
    omega
  | case2 t hpos hlong ih =>
    rw [List.length_cons, ih]
    omega
  | case3 t hpos hlong hbyte =>
    rw [List.length_singleton]
    omega
  | case4 t hpos hlong hbyte =>
    rw [List.length_singleton]
    omega

theorem ticks_le_of_waitTicks? {i : Instruction} (h : i.waitTicks?.isSome) : i.ticks ≤ 0xFFFF := by
  cases i with
  | waitNibble operand =>
    have hlt := operand.isLt
    show operand.val + 1 ≤ 0xFFFF
    omega
  | waitByte operand =>
    have hlt := operand.toNat_lt
    show operand.toNat + 1 ≤ 0xFFFF
    omega
  | waitWord ticks => exact Nat.le_of_lt_succ ticks.toNat_lt
  | _ => cases h

theorem ticksOf_le_of_waiting {is : List Instruction} (h : ∀ i ∈ is, i.waitTicks?.isSome) :
    ticksOf is ≤ 0xFFFF * is.length := by
  induction is with
  | nil => exact Nat.le_refl _
  | cons i is ih =>
    obtain ⟨hi, his⟩ := List.forall_mem_cons.mp h
    have hticks := ticks_le_of_waitTicks? hi
    have hrest := ih his
    rw [ticksOf_cons, List.length_cons]
    omega

theorem ticksOf_replicate (n : Nat) (i : Instruction) : ticksOf (List.replicate n i) = n * i.ticks := by
  rw [ticksOf, List.map_replicate, List.sum_replicate_nat]

/-- **No fewer waits last as long.** -/
theorem isLeast_length_waits (t : Int) :
    IsLeast {n | ∃ is : List Instruction, is.length = n ∧ Lasts t.toNat is} (waits t).length := by
  rw [length_waits]
  constructor
  · -- full word waits, as many as are begun
    have hlasts : t.toNat ≤ 0xFFFF * (t.toNat ⌈/⌉ 0xFFFF) :=
      (ceilDiv_le_iff_le_mul (by decide)).mp le_rfl
    refine ⟨List.replicate (t.toNat ⌈/⌉ 0xFFFF) (.waitWord 0xFFFF), List.length_replicate, ?_, ?_⟩
    · intro i hi
      rw [List.eq_of_mem_replicate hi]
      rfl
    · rw [ticksOf_replicate, Nat.mul_comm]
      exact hlasts
  · rintro n ⟨is, rfl, hlasts⟩
    exact (ceilDiv_le_iff_le_mul (by decide)).mpr
      (hlasts.enough.trans (ticksOf_le_of_waiting hlasts.waiting))

/-- **A wait is read back** as the least number of waits that last as long. They
do not last longer, and as long only if the ticks fit into a word. -/
theorem all_of_waits (t : Int) : ∃ is : List Instruction,
    Reader.all (encodeAll (waits t)).toArray 0 = .ok (is, (encodeAll (waits t)).length) ∧
    (∀ i ∈ is, i.waitTicks?.isSome) ∧
    (t ≤ 0 → is = []) ∧
    (0 < t → is.length = t.toNat ⌈/⌉ 0xFFFF) ∧
    IsLeast {n | ∃ js : List Instruction, js.length = n ∧ Lasts t.toNat js} is.length ∧
    (0 ≤ t → (ticksOf is : Int) ≤ t ∧ ((ticksOf is : Int) = t ↔ t ≤ 0xFFFF)) := by
  have hwaiting : ∀ i ∈ waits t, i.waitTicks?.isSome := fun i => mem_waits
  have hread := Reader.all_encodeAll fun i hi => canonical_of_waitTicks? (hwaiting i hi)
  refine ⟨waits t, hread, hwaiting, waits_of_nonpos, fun _ => length_waits t,
    isLeast_length_waits t, fun hpos => ?_⟩
  have hticks := ticksOf_waits t
  omega

/-- A wait of `0x10005` ticks is a word wait for 5 of them and a nibble wait for 6. -/
theorem all_of_waits_long : ∃ is : List Instruction,
    Reader.all (encodeAll (waits 0x10005)).toArray 0 = .ok (is, (encodeAll (waits 0x10005)).length) ∧
    is.length = 2 ∧ ticksOf is < 0x10005 := by
  obtain ⟨is, hread, -, -, hlength, -, hticks⟩ := all_of_waits 0x10005
  have htwo : is.length = 2 := hlength (by decide)
  have hlost := hticks (by decide)
  exact ⟨is, hread, htwo, by omega⟩

end Instruction

/-! ### Events -/

namespace Event

open Instruction

/-- **The ticks that are read back from an event** are at most its ticks, and as
many exactly if it is exact. -/
theorem all_of_compile {channel address : Nat} {labels labels' : LabelTable} {event : Event}
    {bytes : List UInt8} (h : event.compile channel address labels = (.ok bytes, labels')) :
    ∃ is, Reader.all bytes.toArray 0 = .ok (is, bytes.length) ∧
      ticksOf is ≤ event.timing ∧ (ticksOf is = event.timing ↔ event.Exact) := by
  obtain ⟨is, hi, rfl⟩ := Except.map_eq_ok (event.instructions channel address labels) h
  have hcode := instructions_isCode hi
  have hbody := ticksOf_body event
  rw [← hcode.ticks] at hbody
  exact ⟨is, Reader.all_encodeAll hcode.canonical, hbody⟩

/-- A note folds 127 of `0xFFFF` ticks and waits for the others. -/
theorem all_of_compile_note : ∃ bytes is,
    compile 0 16 {} ⟨.note 65, 0xFFFF⟩ = (.ok bytes, {}) ∧
    Reader.all bytes.toArray 0 = .ok (is, bytes.length) ∧ ticksOf is = 0xFFFF := by
  have hcompile : compile 0 16 {} ⟨.note 65, 0xFFFF⟩ =
      (.ok (encodeAll (.note 127 65 :: waits (0xFFFF - 0x7F))), {}) := rfl
  obtain ⟨is, hread, -, hticks⟩ := all_of_compile hcompile
  exact ⟨_, is, hcompile, hread, hticks.mpr (.inr (by decide))⟩

end Event
end Chiptune
