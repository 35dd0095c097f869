/-
# Instructions tile the data

A reader that takes a fixed number of bytes is told by what these bytes mean
(`Reader.Takes`): wherever the data hold them it yields a value that they
mean, and where fewer are left it fails at the end of the data. Readers that
follow one another take the bytes of both (`Reader.Takes.bind`).

The operands of an opcode are taken by such a reader, and their number is the
one of the table of operand counts (`Reader.operands_takes`). So an
instruction is read exactly if its opcode and all of its operands are there,
and from them alone. The instructions of data are read exactly if the bytes
split into such chunks, one for each instruction, and data behind other data
are read as if they stood alone (`Reader.all_tiles`).

Key definitions: `Reader.Takes`, `Instruction.IsChunk`, `Reader.HoldsChunk`,
`Reader.shift`.
Key theorems: `Reader.Takes.bind`, `Reader.operands_takes`,
`Reader.instruction_of_chunk`, `Reader.instruction_of_not_holdsChunk`,
`Reader.all_of_chunks`, `Reader.all_append`, `Reader.all_tiles`.
-/
import Chiptune.Proofs.Codec

namespace Chiptune

theorem Word.bytes_ofBytes (low high : UInt8) : bytes (ofBytes low high) = [low, high] := by
  have hl := low.toNat_lt
  have hh := high.toNat_lt
  have hw := toNat_ofBytes low high
  have hlow : (ofBytes low high).toUInt8 = low := by
    apply UInt8.toNat_inj.mp
    rw [UInt16.toNat_toUInt8, hw]
    omega
  have hhigh : (ofBytes low high >>> 8).toUInt8 = high := by
    apply UInt8.toNat_inj.mp
    rw [UInt16.toNat_toUInt8, UInt16.toNat_shiftRight, hw,
      show (8 : UInt16).toNat % 16 = 8 from rfl, Nat.shiftRight_eq_div_pow]
    omega
  rw [bytes, hlow, hhigh]

namespace Reader

/-! ### Readers that take a number of bytes -/

section Takes

variable {α β : Type} {m n : Nat}

/-- A reader takes `n` bytes. Wherever the data hold such bytes it yields the
same value, which they mean, and stands behind them. Where there are fewer it
fails at the end of the data, or where it stands beyond it. -/
structure Takes (n : Nat) (Means : List UInt8 → α → Prop)
    (read : Array UInt8 → Nat → Except Nat (α × Nat)) : Prop where
  ok : ∀ bs : List UInt8, bs.length = n →
    ∃ a, Means bs a ∧ ∀ data pos, Holds data pos bs → read data pos = .ok (a, pos + n)
  error : ∀ data pos, 0 < n → data.size < pos + n → read data pos = .error (max pos data.size)

theorem exists_holds {data : Array UInt8} {pos : Nat} (h : pos + n ≤ data.size) :
    ∃ bs : List UInt8, bs.length = n ∧ Holds data pos bs := by
  refine ⟨(data.toList.drop pos).take n, ?_, List.take_prefix ..⟩
  rw [List.length_take, List.length_drop, Array.length_toList]
  omega

namespace Takes

variable {Means : List UInt8 → α → Prop} {read : Array UInt8 → Nat → Except Nat (α × Nat)}

theorem mono {Means' : List UInt8 → α → Prop} (h : Takes n Means read)
    (hm : ∀ bs a, bs.length = n → Means bs a → Means' bs a) : Takes n Means' read where
  ok bs hbs := by
    obtain ⟨a, ha, hread⟩ := h.ok bs hbs
    exact ⟨a, hm bs a hbs ha, hread⟩
  error := h.error

theorem pure (a : α) : Takes 0 (fun _ b => b = a) fun _ pos => .ok (a, pos) where
  ok _ _ := ⟨a, rfl, fun _ _ _ => rfl⟩
  error _ _ h := absurd h (Nat.lt_irrefl 0)

/-- One reader after another takes the bytes of both. -/
theorem bind {Next : α → List UInt8 → β → Prop}
    {next : α → Array UInt8 → Nat → Except Nat (β × Nat)} (hr : Takes m Means read)
    (hn : ∀ a, Takes n (Next a) (next a)) :
    Takes (m + n) (fun bs b => ∃ xs ys a, bs = xs ++ ys ∧ Means xs a ∧ Next a ys b)
      fun data pos => read data pos >>= fun r => next r.1 data r.2 where
  ok bs hbs := by
    have hx : (bs.take m).length = m := List.length_take_of_le (by omega)
    have hy : (bs.drop m).length = n := by rw [List.length_drop]; omega
    obtain ⟨a, ha, hread⟩ := hr.ok _ hx
    obtain ⟨b, hb, hnext⟩ := (hn a).ok _ hy
    refine ⟨b, ⟨_, _, a, (List.take_append_drop m bs).symm, ha, hb⟩, fun data pos h => ?_⟩
    rw [← List.take_append_drop m bs, holds_append, hx] at h
    rw [hread data pos h.1, ← Nat.add_assoc]
    exact hnext data (pos + m) h.2
  error data pos hpos hshort := by
    by_cases hm : 0 < m ∧ data.size < pos + m
    · rw [hr.error data pos hm.1 hm.2]
      rfl
    · -- the first reader succeeds, so it is the second one that finds the end
      obtain ⟨xs, hxs, hholds⟩ : ∃ xs : List UInt8, xs.length = m ∧ Holds data pos xs := by
        by_cases hm0 : m = 0
        · exact ⟨[], hm0.symm, holds_nil⟩
        · exact exists_holds (by omega)
      obtain ⟨a, -, hread⟩ := hr.ok xs hxs
      rw [hread data pos hholds]
      refine ((hn a).error data (pos + m) (by omega) (by omega)).trans ?_
      congr 1
      omega

/-- What was read is what the bytes at the position mean. -/
theorem eq_ok (h : Takes n Means read) (hn : 0 < n) {data : Array UInt8} {pos next : Nat} {a : α}
    (hread : read data pos = .ok (a, next)) :
    ∃ bs, bs.length = n ∧ Holds data pos bs ∧ Means bs a ∧ next = pos + n := by
  have hle : pos + n ≤ data.size := by
    apply Nat.le_of_not_lt
    intro hshort
    rw [h.error data pos hn hshort] at hread
    cases hread
  obtain ⟨bs, hbs, hholds⟩ := exists_holds hle
  obtain ⟨b, hb, hok⟩ := h.ok bs hbs
  obtain ⟨rfl, rfl⟩ := Prod.mk.inj (Except.ok.inj ((hok data pos hholds).symm.trans hread))
  exact ⟨bs, hbs, hholds, hb, rfl⟩

theorem exists_ok_iff (h : Takes n Means read) (hn : 0 < n) {data : Array UInt8} {pos : Nat} :
    (∃ r, read data pos = .ok r) ↔ pos + n ≤ data.size := by
  constructor
  · rintro ⟨⟨a, next⟩, hread⟩
    obtain ⟨bs, rfl, hholds, -⟩ := h.eq_ok hn hread
    exact hholds.le_size (List.ne_nil_of_length_pos hn)
  · intro hle
    obtain ⟨bs, hbs, hholds⟩ := exists_holds hle
    obtain ⟨a, -, hok⟩ := h.ok bs hbs
    exact ⟨_, hok data pos hholds⟩

end Takes
end Takes

theorem byte_takes : Takes 1 (fun bs b => bs = [b]) byte where
  ok bs hbs := by
    obtain ⟨b, rfl⟩ := List.length_eq_one_iff.mp hbs
    exact ⟨b, rfl, fun _ _ h => byte_of_holds h⟩
  error data pos _ hshort := by
    have hnone : data[pos]? = none := Array.getElem?_eq_none (by omega)
    have hmax : max pos data.size = pos := by omega
    rw [byte, hnone, hmax]

theorem word_takes : Takes 2 (fun bs w => bs = Word.bytes w) word := by
  refine (byte_takes.bind fun low => byte_takes.bind fun high =>
    Takes.pure (Word.ofBytes low high)).mono ?_
  rintro bs w hbs ⟨xs, _, low, rfl, rfl, ys, zs, high, rfl, rfl, rfl⟩
  obtain rfl : zs = [] := by simpa using hbs
  rw [Word.bytes_ofBytes]
  rfl

theorem withByte_takes (make : UInt8 → Instruction) :
    Takes 1 (fun bs i => ∃ b, bs = [b] ∧ i = make b) (withByte make) := by
  refine (byte_takes.bind fun b => Takes.pure (make b)).mono ?_
  rintro bs i hbs ⟨xs, ys, b, rfl, rfl, rfl⟩
  obtain rfl : ys = [] := by simpa using hbs
  exact ⟨b, rfl, rfl⟩

theorem withBytes_takes (make : UInt8 → UInt8 → Instruction) :
    Takes 2 (fun bs i => ∃ a b, bs = [a, b] ∧ i = make a b) (withBytes make) := by
  refine (byte_takes.bind fun a => byte_takes.bind fun b => Takes.pure (make a b)).mono ?_
  rintro bs i hbs ⟨xs, _, a, rfl, rfl, ys, zs, b, rfl, rfl, rfl⟩
  obtain rfl : zs = [] := by simpa using hbs
  exact ⟨a, b, rfl, rfl⟩

theorem withWord_takes (make : UInt16 → Instruction) :
    Takes 2 (fun bs i => ∃ w, bs = Word.bytes w ∧ i = make w) (withWord make) := by
  refine (word_takes.bind fun w => Takes.pure (make w)).mono ?_
  rintro bs i hbs ⟨xs, ys, w, rfl, rfl, rfl⟩
  obtain rfl : ys = [] := by simpa using hbs
  exact ⟨w, List.append_nil _, rfl⟩

/-! ### Operands -/

variable {opcode : UInt8}

/-- The opcodes without operands: the two that leave a list, the waits of a
nibble and those without a meaning. -/
theorem bare_cases (hcount : Instruction.operandCount opcode = 0) :
    opcode = 0x00 ∨ opcode = 0x20 ∨ (∃ n : Fin 16, opcode = (0x10 + n.val).toUInt8) ∨
      (Instruction.unknown opcode).Canonical := by
  have hlt := opcode.toNat_lt
  by_cases hmid : 0x10 ≤ opcode ∧ opcode < 0x20
  · refine .inr (.inr (.inl ⟨Instruction.lowFour opcode.toNat, ?_⟩))
    rw [UInt8.le_iff_toNat_le, UInt8.lt_iff_toNat_lt] at hmid
    simp only [UInt8.reduceToNat] at hmid
    apply UInt8.toNat_inj.mp
    simp only [Instruction.lowFour, Fin.val_ofNat, Nat.toUInt8, UInt8.toNat_ofNat']
    omega
  · simp only [Instruction.operandCount, List.mem_cons, List.not_mem_nil, or_false,
      Instruction.Canonical, UInt8.le_iff_toNat_le, UInt8.lt_iff_toNat_lt, ← UInt8.toNat_inj,
      UInt8.reduceToNat] at *
    grind

/-- An opcode without operands is an instruction. -/
theorem operands_of_bare (hcount : Instruction.operandCount opcode = 0) :
    ∃ i : Instruction, i.encode = [opcode] ∧
      ∀ data pos, operands opcode data pos = .ok (i, pos) := by
  rcases bare_cases hcount with rfl | rfl | ⟨n, rfl⟩ | hunknown
  · exact ⟨.endList, rfl, fun _ _ => rfl⟩
  · exact ⟨.returnFromSubPattern, rfl, fun _ _ => rfl⟩
  · exact ⟨.waitNibble n, rfl, fun _ _ => operands_waitNibble⟩
  · exact ⟨.unknown opcode, rfl, fun _ _ => operands_unknown hunknown⟩

theorem operands_takes_bare (hcount : Instruction.operandCount opcode = 0) :
    Takes 0 (fun bs i => i.encode = opcode :: bs) (operands opcode) := by
  obtain ⟨i, hi, hread⟩ := operands_of_bare hcount
  have heq : operands opcode = fun _ pos => .ok (i, pos) := by
    funext data pos
    exact hread data pos
  rw [heq]
  refine (Takes.pure i).mono ?_
  rintro bs _ hbs rfl
  rw [hi, List.length_eq_zero_iff.mp hbs]

theorem operands_takes_byte (make : UInt8 → Instruction) (hread : operands opcode = withByte make)
    (hencode : ∀ b, (make b).encode = [opcode, b]) :
    Takes 1 (fun bs i => i.encode = opcode :: bs) (operands opcode) := by
  rw [hread]
  refine (withByte_takes make).mono ?_
  rintro _ _ - ⟨b, rfl, rfl⟩
  exact hencode b

theorem operands_takes_bytes (make : UInt8 → UInt8 → Instruction)
    (hread : operands opcode = withBytes make) (hencode : ∀ a b, (make a b).encode = [opcode, a, b]) :
    Takes 2 (fun bs i => i.encode = opcode :: bs) (operands opcode) := by
  rw [hread]
  refine (withBytes_takes make).mono ?_
  rintro _ _ - ⟨a, b, rfl, rfl⟩
  exact hencode a b

theorem operands_takes_word (make : UInt16 → Instruction) (hread : operands opcode = withWord make)
    (hencode : ∀ w, (make w).encode = opcode :: Word.bytes w) :
    Takes 2 (fun bs i => i.encode = opcode :: bs) (operands opcode) := by
  rw [hread]
  refine (withWord_takes make).mono ?_
  rintro _ _ - ⟨w, rfl, rfl⟩
  exact hencode w

/-- **The two tables of the opcodes agree**: the operands of an opcode are
taken from as many bytes as it counts, and they are those of its instruction. -/
theorem operands_takes (opcode : UInt8) :
    Takes (Instruction.operandCount opcode) (fun bs i => i.encode = opcode :: bs)
      (operands opcode) := by
  by_cases hnote : 0x80 ≤ opcode
  · have hcount : Instruction.operandCount opcode = 1 := if_pos hnote
    have hread : operands opcode = withByte (.note (Instruction.lowSeven opcode.toNat)) := by
      funext data pos
      exact if_pos hnote
    rw [hcount]
    refine operands_takes_byte _ hread fun b => ?_
    have hopcode : (0x80 + (Instruction.lowSeven opcode.toNat).val).toUInt8 = opcode := by
      have hlt := opcode.toNat_lt
      rw [UInt8.le_iff_toNat_le, show (0x80 : UInt8).toNat = 0x80 from rfl] at hnote
      apply UInt8.toNat_inj.mp
      simp only [Instruction.lowSeven, Fin.val_ofNat, Nat.toUInt8, UInt8.toNat_ofNat']
      omega
    rw [Instruction.encode, hopcode]
  by_cases hone : opcode ∈ [0x01, 0x02, 0x03, 0x05, 0x06, 0x0B, 0x0C, 0x0D, 0x0E]
  · have hcount : Instruction.operandCount opcode = 1 := by
      rw [Instruction.operandCount, if_neg hnote, if_pos hone]
    rw [hcount]
    simp only [List.mem_cons, List.not_mem_nil, or_false] at hone
    rcases hone with rfl | rfl | rfl | rfl | rfl | rfl | rfl | rfl | rfl
    · exact operands_takes_byte .noteOff rfl fun _ => rfl
    · exact operands_takes_byte .changeInstrument rfl fun _ => rfl
    · exact operands_takes_byte .waitByte rfl fun _ => rfl
    · exact operands_takes_byte .setVolume rfl fun _ => rfl
    · exact operands_takes_byte .setPanning rfl fun _ => rfl
    · exact operands_takes_byte (fun b => .positionJumpShort b.toInt8) rfl fun _ => rfl
    · exact operands_takes_byte .pitchSlideUp rfl fun _ => rfl
    · exact operands_takes_byte .pitchSlideDown rfl fun _ => rfl
    · exact operands_takes_byte .portamento rfl fun _ => rfl
  by_cases htwo : opcode ∈ [0x04, 0x07, 0x08, 0x09, 0x0A, 0x21]
  · have hcount : Instruction.operandCount opcode = 2 := by
      rw [Instruction.operandCount, if_neg hnote, if_neg hone, if_pos htwo]
    rw [hcount]
    simp only [List.mem_cons, List.not_mem_nil, or_false] at htwo
    rcases htwo with rfl | rfl | rfl | rfl | rfl | rfl
    · exact operands_takes_word .waitWord rfl fun _ => rfl
    · exact operands_takes_bytes .writeRegisterA rfl fun _ _ => rfl
    · exact operands_takes_bytes .writeRegisterB rfl fun _ _ => rfl
    · exact operands_takes_word .setTimer rfl fun _ => rfl
    · exact operands_takes_word .positionJump rfl fun _ => rfl
    · exact operands_takes_word .jumpToSubPattern rfl fun _ => rfl
  have hcount : Instruction.operandCount opcode = 0 := by
    rw [Instruction.operandCount, if_neg hnote, if_neg hone, if_neg htwo]
  rw [hcount]
  exact operands_takes_bare hcount

end Reader

/-- A chunk of bytes: an opcode with as many bytes behind it as it has
operands. -/
def Instruction.IsChunk : List UInt8 → Prop
  | [] => False
  | opcode :: operands => operands.length = operandCount opcode

instance : DecidablePred Instruction.IsChunk
  | [] => .isFalse id
  | opcode :: operands =>
    inferInstanceAs (Decidable (operands.length = Instruction.operandCount opcode))

theorem Instruction.IsChunk.ne_nil {c : List UInt8} (h : IsChunk c) : c ≠ [] := by
  rintro rfl
  exact h

namespace Reader

variable {data : Array UInt8} {pos : Nat}

/-! ### One instruction -/

/-- Whether the data hold an opcode with all of its operands at a position. -/
def HoldsChunk (data : Array UInt8) (pos : Nat) : Prop :=
  ∃ opcode, data[pos]? = some opcode ∧ pos + 1 + Instruction.operandCount opcode ≤ data.size

theorem holdsChunk_iff :
    HoldsChunk data pos ↔ ∃ c, Instruction.IsChunk c ∧ Holds data pos c := by
  constructor
  · rintro ⟨opcode, hopcode, hsize⟩
    obtain ⟨bs, hbs, hholds⟩ := exists_holds hsize
    exact ⟨opcode :: bs, hbs, holds_cons.mpr ⟨hopcode, hholds⟩⟩
  · rintro ⟨c, hc, hholds⟩
    cases c with
    | nil => exact hc.elim
    | cons opcode operands =>
      refine ⟨opcode, (holds_cons.mp hholds).1, ?_⟩
      have hsize := hholds.le_size (List.cons_ne_nil _ _)
      rw [List.length_cons, show operands.length = _ from hc] at hsize
      omega

/-- **A chunk is an instruction**, wherever it stands. -/
theorem instruction_of_chunk {c : List UInt8} (hc : Instruction.IsChunk c) :
    ∃ i : Instruction, i.encode = c ∧
      ∀ data pos, Holds data pos c → instruction data pos = .ok (i, pos + c.length) := by
  cases c with
  | nil => exact hc.elim
  | cons opcode bs =>
    obtain ⟨i, hi, hread⟩ := (operands_takes opcode).ok bs hc
    refine ⟨i, hi, fun data pos h => ?_⟩
    rw [instruction_of_byte h, hread data (pos + 1) (holds_cons.mp h).2, ← hc, List.length_cons]
    congr 2
    omega

/-- Without a chunk the reading fails at the end of the data. -/
theorem instruction_of_not_holdsChunk (h : ¬ HoldsChunk data pos) :
    instruction data pos = .error (max pos data.size) := by
  by_cases hpos : pos < data.size
  · have hopcode : data[pos]? = some data[pos] := Array.getElem?_eq_getElem hpos
    have hshort : data.size < pos + 1 + Instruction.operandCount data[pos] :=
      Nat.lt_of_not_le fun hle => h ⟨_, hopcode, hle⟩
    have hmore : 0 < Instruction.operandCount data[pos] := by omega
    rw [instruction_of_byte (holds_cons.mpr ⟨hopcode, holds_nil⟩),
      (operands_takes _).error data (pos + 1) hmore hshort]
    congr 1
    omega
  · have hbyte := byte_takes.error data pos Nat.one_pos (by omega)
    rw [instruction, hbyte]
    rfl

/-- An instruction is read from a chunk, and from the same chunk elsewhere too. -/
theorem instruction_eq_ok {i : Instruction} {next : Nat}
    (h : instruction data pos = .ok (i, next)) :
    Instruction.IsChunk i.encode ∧ Holds data pos i.encode ∧ next = pos + i.encode.length ∧
      ∀ other start, Holds other start i.encode →
        instruction other start = .ok (i, start + i.encode.length) := by
  have hchunk : HoldsChunk data pos := by
    apply Classical.byContradiction
    intro hno
    rw [instruction_of_not_holdsChunk hno] at h
    cases h
  obtain ⟨c, hc, hholds⟩ := holdsChunk_iff.mp hchunk
  obtain ⟨j, rfl, hread⟩ := instruction_of_chunk hc
  obtain ⟨rfl, rfl⟩ := Prod.mk.inj (Except.ok.inj ((hread data pos hholds).symm.trans h))
  exact ⟨hc, hholds, rfl, hread⟩

theorem instruction_eq_error {e : Nat} (h : instruction data pos = .error e) :
    ¬ HoldsChunk data pos ∧ e = max pos data.size := by
  have hno : ¬ HoldsChunk data pos := by
    intro hchunk
    obtain ⟨c, hc, hholds⟩ := holdsChunk_iff.mp hchunk
    obtain ⟨i, -, hread⟩ := instruction_of_chunk hc
    rw [hread data pos hholds] at h
    cases h
  rw [instruction_of_not_holdsChunk hno] at h
  exact ⟨hno, (Except.error.inj h).symm⟩

/-! ### All instructions -/

/-- Chunks are read one after another. -/
theorem all_of_chunks : ∀ {chunks : List (List UInt8)} {pos : Nat},
    (∀ c ∈ chunks, Instruction.IsChunk c) → data.toList.drop pos = chunks.flatten →
    ∃ is : List Instruction, is.map Instruction.encode = chunks ∧
      all data pos = .ok (is, max pos data.size)
  | [], pos, _, h => by
    have hle : data.size ≤ pos := List.drop_eq_nil_iff.mp h
    rw [all_of_size_le hle, Nat.max_eq_left hle]
    exact ⟨[], rfl, rfl⟩
  | c :: chunks, pos, hc, h => by
    have hchunk := hc c (List.mem_cons_self ..)
    have hholds : Holds data pos c := by
      unfold Holds
      rw [h]
      exact List.prefix_append c _
    have hsize := hholds.le_size hchunk.ne_nil
    obtain ⟨i, rfl, hread⟩ := instruction_of_chunk hchunk
    have hrest : data.toList.drop (pos + i.encode.length) = chunks.flatten := by
      rw [← List.drop_drop, h, List.flatten_cons, List.drop_left]
    obtain ⟨is, his, hall⟩ := all_of_chunks (fun d hd => hc d (List.mem_cons_of_mem _ hd)) hrest
    refine ⟨i :: is, by rw [List.map_cons, his], ?_⟩
    rw [all_of_ok (hread data pos hholds), hall, Nat.max_eq_right hsize, Nat.max_eq_right (by omega)]
    rfl

/-- What is read are the chunks that the data are made of. -/
theorem all_eq_ok {is : List Instruction} {last : Nat} (h : all data pos = .ok (is, last)) :
    (∀ i ∈ is, Instruction.IsChunk i.encode) ∧
      data.toList.drop pos = (is.map Instruction.encode).flatten := by
  fun_induction all data pos generalizing is last with
  | case1 pos hpos e he => cases h
  | case2 pos hpos i next hi ih =>
    obtain ⟨⟨rest, stop⟩, hrest, h⟩ := Except.bind_eq_ok h
    obtain ⟨rfl, -⟩ := Prod.mk.inj (Except.ok.inj h)
    obtain ⟨hc, ⟨after, hafter⟩, rfl, -⟩ := instruction_eq_ok hi
    obtain ⟨hchunks, hdrop⟩ := ih hrest
    refine ⟨List.forall_mem_cons.mpr ⟨hc, hchunks⟩, ?_⟩
    rw [List.map_cons, List.flatten_cons, ← hdrop, ← List.drop_drop, ← hafter, List.drop_left]
  | case3 pos hpos =>
    obtain ⟨rfl, -⟩ := Prod.mk.inj (Except.ok.inj h)
    exact ⟨nofun, List.drop_eq_nil_of_le (Nat.le_of_not_lt hpos)⟩

/-- The reading ends, and it ends at the end of the data. -/
theorem all_ends (data : Array UInt8) (pos : Nat) :
    (∃ is, all data pos = .ok (is, max pos data.size)) ∨ all data pos = .error data.size := by
  fun_induction all data pos with
  | case1 pos hpos e he =>
    obtain ⟨-, rfl⟩ := instruction_eq_error he
    rw [Nat.max_eq_right (Nat.le_of_lt hpos)]
    exact .inr rfl
  | case2 pos hpos i next hi ih =>
    obtain ⟨hc, hholds, rfl, -⟩ := instruction_eq_ok hi
    have hsize := hholds.le_size hc.ne_nil
    rw [Nat.max_eq_right hsize] at ih
    rw [Nat.max_eq_right (Nat.le_of_lt hpos)]
    rcases ih with ⟨is, his⟩ | herror
    · rw [his]
      exact .inl ⟨i :: is, rfl⟩
    · rw [herror]
      exact .inr rfl
  | case3 pos hpos =>
    rw [Nat.max_eq_left (Nat.le_of_not_lt hpos)]
    exact .inl ⟨[], rfl⟩

/-! ### Data behind other data -/

/-- A reading with all positions moved on. -/
def shift {α : Type} (d : Nat) : Except Nat (α × Nat) → Except Nat (α × Nat)
  | .ok (a, pos) => .ok (a, d + pos)
  | .error pos => .error (d + pos)

theorem holdsChunk_append {more : Array UInt8} :
    HoldsChunk (data ++ more) (data.size + pos) ↔ HoldsChunk more pos := by
  unfold HoldsChunk
  rw [Array.getElem?_append_right (Nat.le_add_right ..), Nat.add_sub_cancel_left, Array.size_append]
  refine exists_congr fun opcode => and_congr_right fun _ => ?_
  omega

theorem instruction_append (data more : Array UInt8) (pos : Nat) :
    instruction (data ++ more) (data.size + pos) = shift data.size (instruction more pos) := by
  cases h : instruction more pos with
  | error e =>
    obtain ⟨hno, rfl⟩ := instruction_eq_error h
    rw [instruction_of_not_holdsChunk (mt holdsChunk_append.mp hno), shift, Array.size_append,
      Nat.add_max_add_left]
  | ok r =>
    obtain ⟨i, next⟩ := r
    obtain ⟨-, hholds, rfl, hread⟩ := instruction_eq_ok h
    have hwhole : (data ++ more).toList = data.toList ++ (more.toList ++ []) := by simp
    have hshift := hholds.shift hwhole
    rw [Array.length_toList] at hshift
    rw [hread _ _ hshift, shift, Nat.add_assoc]

/-- Data behind other data are read as if they stood alone. -/
theorem all_shift (data more : Array UInt8) (pos : Nat) :
    all (data ++ more) (data.size + pos) = shift data.size (all more pos) := by
  fun_induction all more pos with
  | case1 pos hpos e he =>
    have hread := instruction_append data more pos
    rw [he] at hread
    exact all_of_error (by rw [Array.size_append]; omega) hread
  | case2 pos hpos i next hi ih =>
    have hread := instruction_append data more pos
    rw [hi] at hread
    rw [all_of_ok hread, ih]
    cases all more next <;> rfl
  | case3 pos hpos =>
    have hle : (data ++ more).size ≤ data.size + pos := by
      rw [Array.size_append]
      omega
    exact all_of_size_le hle

/-- Data are read the same with other data behind them, and then these are read. -/
theorem all_append {is : List Instruction} {last : Nat} (hpos : pos ≤ data.size)
    (h : all data pos = .ok (is, last)) (more : Array UInt8) :
    all (data ++ more) pos = (shift data.size (all more 0)).map fun r => (is ++ r.1, r.2) := by
  fun_induction all data pos generalizing is last with
  | case1 pos _ e he => cases h
  | case2 pos _ i next hi ih =>
    obtain ⟨⟨rest, stop⟩, hrest, h⟩ := Except.bind_eq_ok h
    obtain ⟨rfl, -⟩ := Prod.mk.inj (Except.ok.inj h)
    obtain ⟨hc, hholds, rfl, hread⟩ := instruction_eq_ok hi
    have hwhole : (data ++ more).toList = [] ++ (data.toList ++ more.toList) := by simp
    have hfirst := hread _ _ (hholds.shift hwhole)
    rw [List.length_nil, Nat.zero_add] at hfirst
    rw [all_of_ok hfirst, ih (hholds.le_size hc.ne_nil) hrest]
    cases shift data.size (all more 0) <;> rfl
  | case3 pos hend =>
    obtain ⟨rfl, -⟩ := Prod.mk.inj (Except.ok.inj h)
    have hstart := all_shift data more 0
    rw [Nat.add_zero] at hstart
    rw [Nat.le_antisymm hpos (Nat.le_of_not_lt hend), hstart]
    cases shift data.size (all more 0) <;> rfl

/-- Whether data hold bytes is told by the bytes at these places. -/
theorem holds_of_getElem? {bs : List UInt8} {other : Array UInt8} (h : Holds data pos bs)
    (hsame : ∀ k < bs.length, other[pos + k]? = data[pos + k]?) : Holds other pos bs := by
  induction bs generalizing pos with
  | nil => exact holds_nil
  | cons b bs ih =>
    rw [holds_cons] at h ⊢
    refine ⟨(hsame 0 (Nat.succ_pos _)).trans h.1, ih h.2 fun k hk => ?_⟩
    rw [Nat.add_assoc, Nat.add_comm 1]
    exact hsame (k + 1) (Nat.succ_lt_succ hk)

/-- **Instructions tile the data.** An instruction is read exactly if its
opcode and all the operands that the opcode counts are there; the reading moves
on by them and depends on nothing else, and fails at the end of the data
otherwise. So all instructions are read exactly if the bytes split into such
chunks, one for each instruction; and data behind others that can be read are
read as if they stood alone. -/
theorem all_tiles (data : Array UInt8) (pos : Nat) :
    ((∃ r, instruction data pos = .ok r) ↔ ∃ opcode, data[pos]? = some opcode ∧
      pos + 1 + Instruction.operandCount opcode ≤ data.size) ∧
    (∀ i next, instruction data pos = .ok (i, next) → ∃ opcode, data[pos]? = some opcode ∧
      next = pos + 1 + Instruction.operandCount opcode ∧
      ∀ other : Array UInt8,
        (∀ k ≤ Instruction.operandCount opcode, other[pos + k]? = data[pos + k]?) →
        instruction other pos = .ok (i, next)) ∧
    (∀ e, instruction data pos = .error e → e = max pos data.size) ∧
    ((∃ r, all data pos = .ok r) ↔ ∃ chunks : List (List UInt8),
      (∀ c ∈ chunks, Instruction.IsChunk c) ∧ data.toList.drop pos = chunks.flatten) ∧
    (∀ chunks : List (List UInt8), (∀ c ∈ chunks, Instruction.IsChunk c) →
      data.toList.drop pos = chunks.flatten →
      ∃ is, all data pos = .ok (is, max pos data.size) ∧ is.map Instruction.encode = chunks) ∧
    ((∃ is, all data pos = .ok (is, max pos data.size)) ∨ all data pos = .error data.size) ∧
    ∀ is last, all data 0 = .ok (is, last) → ∀ more : Array UInt8, all (data ++ more) 0 =
      match all more 0 with
      | .ok (js, stop) => .ok (is ++ js, data.size + stop)
      | .error e => .error (data.size + e) := by
  refine ⟨⟨?_, ?_⟩, ?_, fun e h => (instruction_eq_error h).2, ⟨?_, ?_⟩, ?_, all_ends data pos, ?_⟩
  · rintro ⟨⟨i, next⟩, h⟩
    obtain ⟨hc, hholds, -⟩ := instruction_eq_ok h
    exact holdsChunk_iff.mpr ⟨_, hc, hholds⟩
  · intro hchunk
    obtain ⟨c, hc, hholds⟩ := holdsChunk_iff.mp hchunk
    obtain ⟨i, -, hread⟩ := instruction_of_chunk hc
    exact ⟨_, hread data pos hholds⟩
  · intro i next h
    obtain ⟨hc, hholds, rfl, hread⟩ := instruction_eq_ok h
    cases hi : i.encode with
    | nil => exact absurd hi hc.ne_nil
    | cons opcode operands =>
      rw [hi] at hc hholds hread
      have hlen : operands.length = Instruction.operandCount opcode := hc
      refine ⟨opcode, (holds_cons.mp hholds).1, ?_, fun other hsame => ?_⟩
      · rw [List.length_cons, hlen]
        omega
      · apply hread other pos
        apply holds_of_getElem? hholds
        intro k hk
        rw [List.length_cons, hlen] at hk
        exact hsame k (Nat.le_of_lt_succ hk)
  · rintro ⟨⟨is, last⟩, h⟩
    obtain ⟨hchunks, hdrop⟩ := all_eq_ok h
    refine ⟨is.map Instruction.encode, ?_, hdrop⟩
    intro c hc
    obtain ⟨i, hi, rfl⟩ := List.mem_map.mp hc
    exact hchunks i hi
  · rintro ⟨chunks, hchunks, hdrop⟩
    obtain ⟨is, -, hall⟩ := all_of_chunks hchunks hdrop
    exact ⟨_, hall⟩
  · intro chunks hchunks hdrop
    obtain ⟨is, his, hall⟩ := all_of_chunks hchunks hdrop
    exact ⟨is, hall, his⟩
  · intro is last h more
    rw [all_append (Nat.zero_le _) h more]
    cases all more 0 <;> rfl

/-- A note, a wait, a jump to a sub-pattern and the return from one. -/
def fourChunks : Array UInt8 := #[0x86, 0x24, 0x13, 0x21, 0x34, 0x12, 0x20]

theorem all_tiles_fourChunks : ∃ is, all fourChunks 0 = .ok (is, 7) ∧
    is.map Instruction.encode = [[0x86, 0x24], [0x13], [0x21, 0x34, 0x12], [0x20]] ∧
    all (fourChunks ++ fourChunks) 0 = .ok (is ++ is, 14) := by
  obtain ⟨-, -, -, -, hchunks, -, happend⟩ := all_tiles fourChunks 0
  obtain ⟨is, hall, his⟩ := hchunks [[0x86, 0x24], [0x13], [0x21, 0x34, 0x12], [0x20]]
    (by decide) rfl
  refine ⟨is, hall, his, ?_⟩
  rw [happend is _ hall fourChunks, hall]
  rfl

end Reader
end Chiptune
