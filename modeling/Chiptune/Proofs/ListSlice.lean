/-
# Lists within larger data

A list is read from the whole data, up to a bound that no instruction is kept
from crossing. Where the bytes up to the bound are instructions when they
stand alone, none crosses it, and the list is these instructions, cut behind
the first one that ends a list (`Reader.list_refines_all`).

The two readings go in lock-step: what is read at a position of the slice is
read at the same place of the data (`Reader.instruction_of_extract`), so the
positions differ by the start of the slice all along
(`Reader.list_of_all_extract`).

Key theorems: `Instruction.throughEnd_isPrefix`,
`Reader.instruction_of_extract`, `Reader.list_of_all_extract`,
`Reader.list_refines_all`.
-/
import Chiptune.Proofs.Chunks
import Chiptune.Proofs.EventCode

namespace Chiptune

open Instruction (throughEnd encodeAll)

/-! ### Cutting behind the first end -/

namespace Instruction

variable {is js : List Instruction} {i : Instruction}

theorem throughEnd_isPrefix (is : List Instruction) : throughEnd is <+: is := by
  induction is with
  | nil => exact List.nil_prefix
  | cons i is ih =>
    unfold throughEnd
    split
    · exact List.prefix_append [i] is
    · exact List.cons_prefix_cons.mpr ⟨rfl, ih⟩

/-- Nothing is cut where no instruction ends a list. -/
theorem throughEnd_of_forall (h : ∀ i ∈ is, i.endsList = false) : throughEnd is = is := by
  have happend : throughEnd (is ++ []) = is ++ throughEnd [] := throughEnd_append h
  rwa [throughEnd, List.append_nil] at happend

/-- The cut is behind the first instruction that ends a list. -/
theorem throughEnd_of_first (h : ∀ j ∈ is, j.endsList = false) (hi : i.endsList = true) :
    throughEnd (is ++ i :: js) = is ++ [i] := by
  rw [throughEnd_append h, throughEnd, if_pos hi]

theorem encodeAll_isPrefix (h : is <+: js) : encodeAll is <+: encodeAll js := by
  obtain ⟨rest, rfl⟩ := h
  rw [encodeAll_append]
  exact List.prefix_append _ _

end Instruction

namespace Reader

variable {data : Array UInt8} {start stop pos next last : Nat} {i : Instruction}
  {is : List Instruction}

/-! ### Reading in a slice -/

theorem size_extract_of_le (hstop : stop ≤ data.size) :
    (data.extract start stop).size = stop - start := by
  rw [Array.size_extract, Nat.min_eq_left hstop]

theorem holds_of_extract {bs : List UInt8} (hstart : start ≤ stop) (hstop : stop ≤ data.size)
    (h : Holds (data.extract start stop) pos bs) : Holds data (start + pos) bs := by
  have hwhole : data.toList = data.toList.take start ++
      ((data.extract start stop).toList ++ data.toList.drop stop) := by
    have hdrop : data.toList.drop stop = (data.toList.drop start).drop (stop - start) := by
      rw [List.drop_drop, Nat.add_sub_cancel' hstart]
    rw [Array.toList_extract, List.extract_eq_take_drop, hdrop, List.take_append_drop,
      List.take_append_drop]
  have hlen : (data.toList.take start).length = start :=
    List.length_take_of_le (by rw [Array.length_toList]; omega)
  have hshift := h.shift hwhole
  rwa [hlen] at hshift

/-- What is read in a slice is read at the same place of the data. -/
theorem instruction_of_extract (hstart : start ≤ stop) (hstop : stop ≤ data.size)
    (h : instruction (data.extract start stop) pos = .ok (i, next)) :
    instruction data (start + pos) = .ok (i, start + next) := by
  obtain ⟨-, hholds, rfl, hread⟩ := instruction_eq_ok h
  rw [hread data _ (holds_of_extract hstart hstop hholds), Nat.add_assoc]

/-- Where a slice is read to its end, the data are read as far as the first
instruction that ends a list. -/
theorem list_of_all_extract (hstart : start ≤ stop) (hstop : stop ≤ data.size)
    (h : all (data.extract start stop) pos = .ok (is, last)) :
    list data stop (start + pos) =
      .ok (throughEnd is, start + pos + (encodeAll (throughEnd is)).length) := by
  have hsize : (data.extract start stop).size = stop - start := size_extract_of_le hstop
  -- the induction is over the reading of the slice; the list may end before it does
  fun_induction all (data.extract start stop) pos generalizing is last with
  | case1 pos hpos e he => cases h
  | case2 pos hpos i next hi ih =>
    obtain ⟨⟨rest, last'⟩, hrest, h⟩ := Except.bind_eq_ok h
    obtain ⟨rfl, -⟩ := Prod.mk.inj (Except.ok.inj h)
    obtain ⟨-, -, rfl, -⟩ := instruction_eq_ok hi
    rw [list_of_ok (by omega) (instruction_of_extract hstart hstop hi), throughEnd]
    split
    · simp [Nat.add_assoc]
    · rw [ih hrest]
      simp [Except.map, Nat.add_assoc]
  | case3 pos hpos =>
    obtain ⟨rfl, -⟩ := Prod.mk.inj (Except.ok.inj h)
    exact list_of_stop_le (by omega)

/-- **Reading a list refines reading all instructions.** Where the bytes from
`start` to `stop` alone are read as the instructions `is`, the list from
`start` up to `stop` is read from the whole data: it is `is` through the first
instruction that ends a list, and all of `is` if there is none. The reading
stands behind the bytes of what it yields, each an opcode with its operands,
and not behind `stop`. -/
theorem list_refines_all (hstart : start ≤ stop) (hstop : stop ≤ data.size)
    (h : all (data.extract start stop) 0 = .ok (is, last)) :
    list data stop start =
        .ok (throughEnd is, start + (encodeAll (throughEnd is)).length) ∧
      start + (encodeAll (throughEnd is)).length ≤ stop ∧
      Holds data start (encodeAll (throughEnd is)) ∧
      (∀ i ∈ throughEnd is, Instruction.IsChunk i.encode) ∧
      ((∀ i ∈ is, i.endsList = false) → throughEnd is = is) ∧
      ∀ before i after, is = before ++ i :: after → (∀ j ∈ before, j.endsList = false) →
        i.endsList = true → throughEnd is = before ++ [i] := by
  obtain ⟨hchunks, hdrop⟩ := all_eq_ok h
  have hbytes : (data.extract start stop).toList = encodeAll is := by
    rwa [List.drop_zero, ← List.flatMap_def] at hdrop
  have hpart := Instruction.throughEnd_isPrefix is
  have hcut := Instruction.encodeAll_isPrefix hpart
  refine ⟨list_of_all_extract hstart hstop h, ?_, ?_, fun i hi => hchunks i (hpart.subset hi),
    Instruction.throughEnd_of_forall, ?_⟩
  · have hsize : (encodeAll is).length = stop - start := by
      rw [← hbytes, Array.length_toList, size_extract_of_le hstop]
    have hlen := hcut.length_le
    omega
  · have hslice : Holds (data.extract start stop) 0 (encodeAll (throughEnd is)) := by
      rw [Holds, List.drop_zero, hbytes]
      exact hcut
    exact holds_of_extract hstart hstop hslice
  · rintro before i after rfl hbefore hi
    exact Instruction.throughEnd_of_first hbefore hi

/-- A list that returns and a wait behind it, between two opcodes whose
operands are missing. -/
def returningList : Array UInt8 := #[0x21, 0x10, 0x86, 0x24, 0x20, 0x13, 0x04]

theorem list_refines_all_returning :
    (all (returningList.extract 1 6) 0 = .ok ([.waitNibble 0, .note 6 0x24,
        .returnFromSubPattern, .waitNibble 3], 5) ∧
      list returningList 6 1 = .ok ([.waitNibble 0, .note 6 0x24, .returnFromSubPattern], 5)) ∧
    all (returningList.extract 1 4) 0 = .ok ([.waitNibble 0, .note 6 0x24], 3) ∧
      list returningList 4 1 = .ok ([.waitNibble 0, .note 6 0x24], 4) := by
  have hended : all (returningList.extract 1 6) 0 = .ok ([.waitNibble 0, .note 6 0x24,
      .returnFromSubPattern, .waitNibble 3], 5) := by cbv
  have hopen : all (returningList.extract 1 4) 0 = .ok ([.waitNibble 0, .note 6 0x24], 3) := by
    cbv
  exact ⟨⟨hended, (list_refines_all (by decide) (by decide) hended).1⟩,
    hopen, (list_refines_all (by decide) (by decide) hopen).1⟩

end Reader
end Chiptune
