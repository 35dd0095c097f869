/-
# Reading back what was encoded

Where the data hold the bytes of an instruction, the reader yields this
instruction and the position behind it (`Reader.instruction_of_holds`), and
where they hold the bytes of a sequence, it yields the sequence up to and
including the first instruction that ends a list
(`Reader.list_of_holds`), or all of it if the data end there
(`Reader.all_of_holds`). An `unknown` instruction is read back as long as its opcode has
no other meaning (`Instruction.Canonical`).

Key definitions: `Reader.Holds`, `Instruction.Canonical`,
`Instruction.throughEnd`.
Key theorems: `Word.ofBytes_bytes`, `Reader.instruction_of_holds`,
`Reader.all_of_ok`, `Reader.list_of_ok`, `Reader.list_of_holds`,
`Reader.all_of_holds`.
-/
import Chiptune.Instruction.Reader

namespace Chiptune

theorem Except.bind_of_ok {ε α β : Type} {r : Except ε α} {f : α → Except ε β} {a : α}
    (h : r = .ok a) : (r >>= f) = f a := by
  rw [h]
  rfl

/-! ### Words -/

namespace Word

theorem toNat_ofBytes (low high : UInt8) :
    (ofBytes low high).toNat = low.toNat + 256 * high.toNat := by
  have hl := low.toNat_lt
  have hh := high.toNat_lt
  have hs : high.toNat <<< 8 < 2 ^ 16 := by rw [Nat.shiftLeft_eq]; omega
  simp only [ofBytes, UInt16.toNat_or, UInt16.toNat_shiftLeft, UInt8.toNat_toUInt16]
  rw [show (8 : UInt16).toNat % 16 = 8 from rfl, Nat.mod_eq_of_lt hs, Nat.or_comm,
    ← Nat.shiftLeft_add_eq_or_of_lt hl, Nat.shiftLeft_eq]
  omega

theorem ofBytes_bytes (w : UInt16) : ofBytes w.toUInt8 (w >>> 8).toUInt8 = w := by
  have hw := w.toNat_lt
  apply UInt16.toNat_inj.mp
  rw [toNat_ofBytes]
  simp only [UInt16.toNat_toUInt8, UInt16.toNat_shiftRight]
  rw [show (8 : UInt16).toNat % 16 = 8 from rfl, Nat.shiftRight_eq_div_pow]
  omega

@[simp] theorem bytes_length (w : UInt16) : (bytes w).length = 2 := rfl

@[simp] theorem address_length (n : Nat) : (address n).length = 2 := rfl

/-- Addresses of the driver's address space are stored without loss. -/
theorem toNat_toUInt16 {n : Nat} (h : n < 0x10000) : n.toUInt16.toNat = n := by
  simp only [Nat.toUInt16, UInt16.toNat_ofNat']
  omega

end Word

/-! ### Data that hold bytes -/

namespace Reader

variable {data : Array UInt8} {pos : Nat}

/-- The data hold the bytes `bs` from a position on. -/
def Holds (data : Array UInt8) (pos : Nat) (bs : List UInt8) : Prop :=
  bs <+: data.toList.drop pos

theorem holds_nil : Holds data pos [] := List.nil_prefix

theorem holds_cons {b : UInt8} {bs : List UInt8} :
    Holds data pos (b :: bs) ↔ data[pos]? = some b ∧ Holds data (pos + 1) bs := by
  unfold Holds
  rw [← Array.getElem?_toList]
  by_cases h : pos < data.toList.length
  · rw [List.drop_eq_getElem_cons h, List.cons_prefix_cons, List.getElem?_eq_getElem h,
      Option.some_inj, eq_comm]
  · rw [List.drop_eq_nil_of_le (Nat.le_of_not_lt h), List.getElem?_eq_none (Nat.le_of_not_lt h)]
    simp

theorem holds_append {as bs : List UInt8} :
    Holds data pos (as ++ bs) ↔ Holds data pos as ∧ Holds data (pos + as.length) bs := by
  induction as generalizing pos with
  | nil => simp [holds_nil]
  | cons a as ih =>
    rw [List.cons_append, holds_cons, holds_cons, ih, and_assoc, List.length_cons,
      Nat.add_assoc, Nat.add_comm 1]

/-- Data hold each part that they are made of. -/
theorem holds_of_toList_eq {before bs after : List UInt8}
    (h : data.toList = before ++ (bs ++ after)) : Holds data before.length bs := by
  unfold Holds
  rw [h, List.drop_left]
  exact List.prefix_append bs after

/-- What a part of the data holds, the data hold at the part's place. -/
theorem Holds.shift {whole : Array UInt8} {before after bs : List UInt8} (h : Holds data pos bs)
    (hw : whole.toList = before ++ (data.toList ++ after)) :
    Holds whole (before.length + pos) bs := by
  obtain ⟨rest, hr⟩ := h
  unfold Holds
  rw [hw, List.drop_length_add_append]
  by_cases hp : pos ≤ data.toList.length
  · rw [List.drop_append_of_le_length hp, ← hr, List.append_assoc]
    exact List.prefix_append bs _
  · rw [List.drop_eq_nil_of_le (by omega)] at hr
    rw [(List.append_eq_nil_iff.mp hr).1]
    exact List.nil_prefix

theorem Holds.le_size {bs : List UInt8} (h : Holds data pos bs) (hne : bs ≠ []) :
    pos + bs.length ≤ data.size := by
  have hlen : bs.length ≤ data.size - pos := by
    rw [← Array.length_toList, ← List.length_drop]
    exact List.IsPrefix.length_le h
  have hpos := List.length_pos_iff.mpr hne
  omega

theorem byte_of_holds {b : UInt8} {bs : List UInt8} (h : Holds data pos (b :: bs)) :
    byte data pos = .ok (b, pos + 1) := by
  unfold byte
  rw [(holds_cons.mp h).1]

theorem word_of_holds {w : UInt16} (h : Holds data pos (Word.bytes w)) :
    word data pos = .ok (w, pos + 2) := by
  have h2 := (holds_cons.mp h).2
  unfold word
  rw [byte_of_holds h]
  show byte data (pos + 1) >>= _ = _
  rw [byte_of_holds h2]
  show Except.ok (Word.ofBytes w.toUInt8 (w >>> 8).toUInt8, pos + 2) = _
  rw [Word.ofBytes_bytes]

end Reader

/-! ### Instructions -/

namespace Instruction

/-- Whether an instruction is the only one with its bytes: an `unknown` opcode
has no other meaning. -/
def Canonical : Instruction → Prop
  | .unknown opcode => opcode = 0x0F ∨ (0x22 ≤ opcode ∧ opcode < 0x80)
  | _ => True

/-- The instructions up to and including the first one that ends a list. -/
def throughEnd : List Instruction → List Instruction
  | [] => []
  | i :: is => if i.endsList then [i] else i :: throughEnd is

theorem encode_pos (i : Instruction) : 0 < i.encode.length := by
  cases i <;> exact Nat.succ_pos _

@[simp] theorem encodeAll_nil : encodeAll [] = [] := rfl

@[simp] theorem encodeAll_cons (i : Instruction) (is : List Instruction) :
    encodeAll (i :: is) = i.encode ++ encodeAll is := rfl

@[simp] theorem encodeAll_append (is js : List Instruction) :
    encodeAll (is ++ js) = encodeAll is ++ encodeAll js := List.flatMap_append

theorem encodeAll_ne_nil {i : Instruction} {is : List Instruction} (h : i ∈ is) :
    encodeAll is ≠ [] := by
  intro hnil
  have hpos := encode_pos i
  rw [List.flatMap_eq_nil_iff.mp hnil i h] at hpos
  exact Nat.lt_irrefl 0 hpos

end Instruction

namespace Reader

variable {data : Array UInt8} {pos : Nat}

theorem instruction_of_byte {b : UInt8} {bs : List UInt8} (h : Holds data pos (b :: bs)) :
    instruction data pos = operands b data (pos + 1) := by
  unfold instruction
  rw [byte_of_holds h]
  rfl

theorem withByte_of_holds {make : UInt8 → Instruction} {b : UInt8} {bs : List UInt8}
    (h : Holds data pos (b :: bs)) : withByte make data pos = .ok (make b, pos + 1) := by
  unfold withByte
  rw [byte_of_holds h]
  rfl

theorem withBytes_of_holds {make : UInt8 → UInt8 → Instruction} {a b : UInt8} {bs : List UInt8}
    (h : Holds data pos (a :: b :: bs)) : withBytes make data pos = .ok (make a b, pos + 2) := by
  unfold withBytes
  rw [byte_of_holds h]
  show byte data (pos + 1) >>= _ = _
  rw [byte_of_holds (holds_cons.mp h).2]
  rfl

theorem withWord_of_holds {make : UInt16 → Instruction} {w : UInt16} {bs : List UInt8}
    (h : Holds data pos (Word.bytes w ++ bs)) : withWord make data pos = .ok (make w, pos + 2) := by
  unfold withWord
  rw [word_of_holds (holds_append.mp h).1]
  rfl

theorem operands_note {ticks : Fin 128} :
    operands (0x80 + ticks.val).toUInt8 data pos = withByte (.note ticks) data pos := by
  have ht := ticks.isLt
  have hn : (0x80 + ticks.val).toUInt8.toNat = 0x80 + ticks.val := by
    simp only [Nat.toUInt8, UInt8.toNat_ofNat']
    omega
  have hge : (0x80 : UInt8) ≤ (0x80 + ticks.val).toUInt8 := by
    rw [UInt8.le_iff_toNat_le, hn]
    exact Nat.le_add_right _ _
  have hlow : Instruction.lowSeven (0x80 + ticks.val).toUInt8.toNat = ticks := by
    apply Fin.ext
    rw [hn]
    show (0x80 + ticks.val) % 128 = ticks.val
    omega
  unfold operands
  rw [if_pos hge, hlow]

theorem operands_waitNibble {operand : Fin 16} :
    operands (0x10 + operand.val).toUInt8 data pos = .ok (.waitNibble operand, pos) := by
  have ho := operand.isLt
  have hn : (0x10 + operand.val).toUInt8.toNat = 0x10 + operand.val := by
    simp only [Nat.toUInt8, UInt8.toNat_ofNat']
    omega
  have hlt : ¬ (0x80 : UInt8) ≤ (0x10 + operand.val).toUInt8 := by
    rw [UInt8.le_iff_toNat_le, hn]
    show ¬ 0x80 ≤ 0x10 + operand.val
    omega
  have hmid : (0x10 : UInt8) ≤ (0x10 + operand.val).toUInt8
      ∧ (0x10 + operand.val).toUInt8 < 0x20 := by
    rw [UInt8.le_iff_toNat_le, UInt8.lt_iff_toNat_lt, hn]
    show 0x10 ≤ 0x10 + operand.val ∧ 0x10 + operand.val < 0x20
    omega
  have hlow : Instruction.lowFour (0x10 + operand.val).toUInt8.toNat = operand := by
    apply Fin.ext
    rw [hn]
    show (0x10 + operand.val) % 16 = operand.val
    omega
  unfold operands
  rw [if_neg hlt, if_pos hmid, hlow]

theorem operands_unknown {opcode : UInt8} (h : (Instruction.unknown opcode).Canonical) :
    operands opcode data pos = .ok (.unknown opcode, pos) := by
  have hlt : ¬ 0x80 ≤ opcode := by
    rcases h with rfl | ⟨-, hu⟩
    · decide
    · exact UInt8.not_le.mpr hu
  have hmid : ¬ (0x10 ≤ opcode ∧ opcode < 0x20) := by
    rcases h with rfl | ⟨hl, -⟩
    · decide
    · exact fun hm => absurd (UInt8.lt_of_le_of_lt hl hm.2) (by decide)
  unfold operands
  rw [if_neg hlt, if_neg hmid]
  split <;> first | rfl | exact absurd h (by simp only [Instruction.Canonical]; decide)

/-- **An instruction is read back from its bytes.** -/
theorem instruction_of_holds {i : Instruction} (hi : i.Canonical) {bs : List UInt8}
    (h : Holds data pos (i.encode ++ bs)) :
    instruction data pos = .ok (i, pos + i.encode.length) := by
  cases i with
  | note ticks pitch =>
    rw [instruction_of_byte h, operands_note]
    exact withByte_of_holds (holds_cons.mp h).2
  | waitNibble operand =>
    rw [instruction_of_byte h, operands_waitNibble]
    rfl
  | unknown opcode =>
    rw [instruction_of_byte h, operands_unknown hi]
    rfl
  | positionJumpShort offset =>
    rw [instruction_of_byte h]
    show withByte (fun b => .positionJumpShort b.toInt8) data (pos + 1) = _
    rw [withByte_of_holds (holds_cons.mp h).2, Int8.toInt8_toUInt8]
    rfl
  | endList | returnFromSubPattern =>
    rw [instruction_of_byte h]
    rfl
  | noteOff | changeInstrument | waitByte | setVolume | setPanning | pitchSlideUp
  | pitchSlideDown | portamento =>
    rw [instruction_of_byte h]
    exact withByte_of_holds (holds_cons.mp h).2
  | writeRegisterA | writeRegisterB =>
    rw [instruction_of_byte h]
    exact withBytes_of_holds (holds_cons.mp h).2
  | waitWord | setTimer | positionJump | jumpToSubPattern =>
    rw [instruction_of_byte h]
    exact withWord_of_holds (holds_cons.mp h).2

/-! ### The steps of the two readings -/

section Steps

variable {stop next : Nat} {i : Instruction}

theorem lt_size_of_instruction (h : instruction data pos = .ok (i, next)) : pos < data.size := by
  obtain ⟨⟨opcode, after⟩, hbyte, -⟩ := Except.bind_eq_ok h
  exact (Array.getElem?_eq_some_iff.mp (byte_eq_ok hbyte).1).1

theorem all_of_size_le (h : data.size ≤ pos) : all data pos = .ok ([], pos) := by
  rw [all, if_neg (Nat.not_lt.mpr h)]

theorem all_of_error {e : Nat} (hpos : pos < data.size) (h : instruction data pos = .error e) :
    all data pos = .error e := by
  rw [all, if_pos hpos]
  split
  · next e' he => rw [Except.error.inj (he.symm.trans h)]
  · next i next hi =>
    rw [h] at hi
    cases hi

theorem all_of_ok (h : instruction data pos = .ok (i, next)) :
    all data pos = (all data next).map fun r => (i :: r.1, r.2) := by
  rw [all, if_pos (lt_size_of_instruction h)]
  split
  · next e he =>
    rw [h] at he
    cases he
  · next j next' hj =>
    obtain ⟨rfl, rfl⟩ := Prod.mk.inj (Except.ok.inj (h.symm.trans hj))
    cases all data next <;> rfl

theorem list_of_stop_le (h : stop ≤ pos) : list data stop pos = .ok ([], pos) := by
  rw [list, if_neg fun hin => Nat.not_lt.mpr h hin.1]

theorem list_of_ok (hpos : pos < stop) (h : instruction data pos = .ok (i, next)) :
    list data stop pos =
      if i.endsList then .ok ([i], next)
      else (list data stop next).map fun r => (i :: r.1, r.2) := by
  rw [list, if_pos ⟨hpos, lt_size_of_instruction h⟩]
  split
  · next e he =>
    rw [h] at he
    cases he
  · next j next' hj =>
    obtain ⟨rfl, rfl⟩ := Prod.mk.inj (Except.ok.inj (h.symm.trans hj))
    cases list data stop next <;> rfl

end Steps

/-! ### Sequences of instructions -/

/-- **A list is read back from its bytes**, up to and including the first
instruction that ends it. Unless there is one, the reading has to stop behind
the bytes. -/
theorem list_of_holds {stop : Nat} : ∀ {is : List Instruction} {pos : Nat},
    (∀ i ∈ is, i.Canonical) → Holds data pos (Instruction.encodeAll is) →
    pos + (Instruction.encodeAll is).length ≤ stop →
    ((∃ i ∈ is, i.endsList) ∨ pos + (Instruction.encodeAll is).length = stop) →
    list data stop pos = .ok (Instruction.throughEnd is,
      pos + (Instruction.encodeAll (Instruction.throughEnd is)).length)
  | [], pos, _, _, _, hend => by
    rcases hend with ⟨i, hi, -⟩ | hstop
    · cases hi
    · exact list_of_stop_le (Nat.le_of_eq hstop.symm)
  | i :: is, pos, hc, h, hle, hend => by
    have hpos := Instruction.encode_pos i
    rw [Instruction.encodeAll_cons] at h
    simp only [Instruction.encodeAll_cons, List.length_append] at hle hend
    have hread := instruction_of_holds (hc i (List.mem_cons_self ..)) h
    rw [list_of_ok (by omega) hread, Instruction.throughEnd]
    split
    · simp
    · next he =>
      have hend' : (∃ i ∈ is, i.endsList) ∨
          pos + i.encode.length + (Instruction.encodeAll is).length = stop := by
        rcases hend with ⟨j, hj, hje⟩ | hstop
        · rcases List.mem_cons.mp hj with rfl | hj
          · exact absurd hje he
          · exact .inl ⟨j, hj, hje⟩
        · exact .inr (by omega)
      rw [list_of_holds (fun j hj => hc j (List.mem_cons_of_mem _ hj)) (holds_append.mp h).2
        (by omega) hend']
      simp [Except.map, Nat.add_assoc]

/-- **A sequence is read back from data that end with it.** -/
theorem all_of_holds : ∀ {is : List Instruction} {pos : Nat}, (∀ i ∈ is, i.Canonical) →
    Holds data pos (Instruction.encodeAll is) →
    pos + (Instruction.encodeAll is).length = data.size → all data pos = .ok (is, data.size)
  | [], pos, _, _, hend => by
    have hp : pos = data.size := hend
    rw [all_of_size_le (Nat.le_of_eq hp.symm), hp]
  | i :: is, pos, hc, h, hend => by
    rw [Instruction.encodeAll_cons] at h
    rw [Instruction.encodeAll_cons, List.length_append, ← Nat.add_assoc] at hend
    have hread := instruction_of_holds (hc i (List.mem_cons_self ..)) h
    rw [all_of_ok hread,
      all_of_holds (fun j hj => hc j (List.mem_cons_of_mem _ hj)) (holds_append.mp h).2 hend]
    rfl

/-- A list that ends is read back with any data behind it. -/
theorem list_size_of_holds {is : List Instruction} (hc : ∀ i ∈ is, i.Canonical)
    (h : Holds data pos (Instruction.encodeAll is)) (hend : ∃ i ∈ is, i.endsList) :
    list data data.size pos = .ok (Instruction.throughEnd is,
      pos + (Instruction.encodeAll (Instruction.throughEnd is)).length) := by
  obtain ⟨i, hi, he⟩ := hend
  exact list_of_holds hc h (h.le_size (Instruction.encodeAll_ne_nil hi)) (.inl ⟨i, hi, he⟩)

end Reader
end Chiptune
