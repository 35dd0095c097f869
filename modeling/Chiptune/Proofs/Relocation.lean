/-
# The data of a song can be moved

The offsets of a source do not depend on the address of its data, so two
layouts of one source differ only in the words that hold absolute addresses.
These stand at the operands of the source (`Song.operands`); short jumps have
none, and an entry for an absent table or channel is a plain zero.

Key definitions: `Song.operands`, `Label.Entry.shift`, `CompiledSong.Moved`.
Key theorems: `getElem?_walk_emit`, `mem_operands`,
`Song.compile_relocatable`.
-/
import Chiptune.Proofs.SongSource

namespace Chiptune

/-- The entry of a label in data that were moved up by `d`. -/
def Label.Entry.shift (d : Nat) (e : Label.Entry) : Label.Entry :=
  ⟨e.address + d, e.references.map (· + d)⟩

/-- The offsets of the operands of a song's data that hold absolute addresses:
the header's pointers to main lists and to the instrument records, the table
pointers of instrument records, the operands of jumps to sub-patterns, and
those of position jumps that are not short. -/
def Song.operands (song : Song) : List Nat := walk Item.operands {} song.source

/-- The bytes of an item depend on where the data stand in its absolute operand
only. -/
theorem Item.getElem?_emit {base base' k : Nat} {marks : Label → Option Nat} {s : Survey}
    {item : Item} (h : ∀ o ∈ item.operands s, s.offset + k ≠ o ∧ s.offset + k ≠ o + 1) :
    (item.emit base' marks s)[k]? = (item.emit base marks s)[k]? := by
  have hword : ∀ {a b j : Nat}, 2 ≤ j → (Word.address a)[j]? = (Word.address b)[j]? := by
    intro a b j hj
    rw [List.getElem?_eq_none hj, List.getElem?_eq_none hj]
  cases item with
  | mark label => rfl
  | bytes bs => rfl
  | pointer label =>
    have h := h s.offset (List.mem_singleton.mpr rfl)
    exact hword (by omega)
  | jump channel row =>
    cases hn : s.near? (.matrixRow channel row) with
    | some d => simp [emit, hn]
    | none =>
      have h := h (s.offset + 1) (by simp [operands, hn])
      simp only [emit, hn]
      cases k with
      | zero => rfl
      | succ k =>
        rw [List.getElem?_cons_succ, List.getElem?_cons_succ]
        exact hword (by omega)

/-- Data of one source at two places agree outside the absolute operands. -/
theorem getElem?_walk_emit {base base' : Nat} {marks : Label → Option Nat} :
    ∀ {items : List Item} {s : Survey} {k : Nat},
      (∀ o ∈ walk Item.operands s items, s.offset + k ≠ o ∧ s.offset + k ≠ o + 1) →
      (walk (Item.emit base' marks) s items)[k]? = (walk (Item.emit base marks) s items)[k]?
  | [], _, _, _ => rfl
  | item :: items, s, k, h => by
    rw [walk_cons, walk_cons]
    have hlen := Item.length_emit base marks s item
    have hlen' := Item.length_emit base' marks s item
    by_cases hk : k < item.size s
    · rw [List.getElem?_append_left (by omega), List.getElem?_append_left (by omega)]
      exact Item.getElem?_emit fun o ho => h o (List.mem_append_left _ ho)
    · rw [List.getElem?_append_right (by omega), List.getElem?_append_right (by omega), hlen, hlen']
      apply getElem?_walk_emit
      intro o ho
      have hpos : (s.step item).offset + (k - item.size s) = s.offset + k := by
        show s.offset + item.size s + _ = _
        omega
      rw [hpos]
      exact h o (List.mem_append_right _ ho)

/-- An absolute operand is the word of a label that an item refers to from
there. -/
theorem mem_operands {items : List Item} {k : Nat} (hk : k ∈ walk Item.operands {} items) :
    ∃ label, (∃ item ∈ items, item.target? = some label) ∧
      k ∈ walk (Item.sitesOf label) {} items ∧
      ∀ base marks, ∃ before after, before.length = k ∧
        walk (Item.emit base marks) {} items =
          before ++ (Word.address (addressIn base marks label) ++ after) := by
  obtain ⟨as, item, bs, rfl, hmem⟩ := mem_walk.mp hk
  rw [← survey] at hmem
  have hlen : ∀ base marks, (walk (Item.emit base marks) {} as).length = (survey as).offset := by
    intro base marks
    rw [survey, ← length_walk_emit base marks]
    exact (Nat.zero_add _).symm
  cases item with
  | mark label => cases hmem
  | bytes bs => cases hmem
  | pointer label =>
    obtain rfl := List.mem_singleton.mp hmem
    refine ⟨label, ⟨.pointer label, by simp, rfl⟩, mem_walk.mpr ⟨as, _, bs, rfl, ?_⟩,
      fun base marks => ⟨walk (Item.emit base marks) {} as, _, hlen base marks, walk_append ..⟩⟩
    simp [Item.sitesOf, Item.target?, Item.site, survey]
  | jump channel row =>
    cases hn : (survey as).near? (.matrixRow channel row) with
    | some d => simp [Item.operands, hn] at hmem
    | none =>
      obtain rfl : k = (survey as).offset + 1 := by simpa [Item.operands, hn] using hmem
      refine ⟨.matrixRow channel row, ⟨.jump channel row, by simp, rfl⟩,
        mem_walk.mpr ⟨as, _, bs, rfl, ?_⟩, fun base marks =>
          ⟨walk (Item.emit base marks) {} as ++ [0x0A],
            walk (Item.emit base marks) ((survey as).step (.jump channel row)) bs, ?_, ?_⟩⟩
      · simp [Item.sitesOf, Item.target?, Item.site, survey]
      · rw [List.length_append, hlen]
        rfl
      · rw [walk_append, walk_cons, ← survey]
        simp [Item.emit, hn]

/-- The same data, `d` bytes further on. Labels keep their order and distances;
the data agree on all bytes outside the absolute operands, and the words at
these differ by `d`. Each of them is the address of a label that is referred to
from there. -/
structure CompiledSong.Moved (d : Nat) (operands : List Nat) (c c' : CompiledSong) : Prop where
  size : c'.data.size = c.data.size
  header : c'.headerAddress = c.headerAddress + d
  labels : ∀ label, c'.labels.get? label = (c.labels.get? label).map (Label.Entry.shift d)
  words : ∀ k ∈ operands, ∃ w w' : UInt16, Reader.word c.data k = .ok (w, k + 2) ∧
    Reader.word c'.data k = .ok (w', k + 2) ∧ w'.toNat = w.toNat + d ∧
    ∃ label e, c.labels.get? label = some e ∧ w.toNat = e.address ∧ c.base + k ∈ e.references
  rest : ∀ k, (∀ o ∈ operands, k ≠ o ∧ k ≠ o + 1) → c'.data[k]? = c.data[k]?

/-- **The data of a song can be moved.** Compiled at two addresses, a song has
the same data but for the distance of the two addresses in its absolute
operands and its labels. -/
theorem Song.compile_relocatable {song : Song} {base d limit limit' : Nat} {c c' : CompiledSong}
    (h : song.compile base limit = .ok c) (h' : song.compile (base + d) limit' = .ok c') :
    c.Moved d song.operands c' := by
  obtain ⟨l, rfl, ha, hp, hle, rfl⟩ := Song.compile_assembled h
  obtain ⟨l', hb', ha', hp', hle', rfl⟩ := Song.compile_assembled h'
  have hspace : l.base + d + (survey song.source).offset ≤ 0x10000 :=
    Nat.le_trans hle' (Nat.min_le_right _ _)
  have hfits : ∀ {label o}, (survey song.source).marks label = some o →
      (l.base + o).toUInt16.toNat = l.base + o ∧
        (l.base + d + o).toUInt16.toNat = l.base + d + o := by
    intro label o ho
    have hlt := Song.marks_lt ho
    exact ⟨Word.toNat_toUInt16 (by omega), Word.toNat_toUInt16 (by omega)⟩
  refine
    { size := by rw [ha.size, ha'.size]
      header := Nat.add_right_comm ..
      labels := fun label => ?_
      words := fun k hk => ?_
      rest := fun k hk => ?_ }
  · rw [ha.labels, ha'.labels, hb', Option.map_map]
    congr 1
    funext o
    simp [Label.Entry.shift, Nat.add_right_comm]
  · obtain ⟨label, ⟨item, hi, ht⟩, hsite, hemit⟩ := mem_operands hk
    obtain ⟨o, ho⟩ := ha.exists_offset hp hi ht
    have hword : ∀ {m : Layout}, m.Assembled song.source →
        Reader.word m.bytes k = .ok ((m.base + o).toUInt16, k + 2) := by
      intro m hm
      obtain ⟨before, after, rfl, heq⟩ := hemit m.base (survey song.source).marks
      have hholds := Reader.holds_of_toList_eq (hm.bytes.trans heq)
      rw [addressIn_of_some ho] at hholds
      exact Reader.word_of_holds hholds
    refine ⟨_, _, hword ha, hb' ▸ hword ha', ?_, label,
      ⟨l.base + o, ((walk (Item.sitesOf label) {} song.source).map (l.base + ·)).toArray⟩, ?_, ?_, ?_⟩
    · rw [(hfits ho).1, (hfits ho).2]
      omega
    · rw [ha.labels, ho]
      rfl
    · exact (hfits ho).1
    · simpa using hsite
  · show l'.bytes[k]? = l.bytes[k]?
    rw [← Array.getElem?_toList, ← Array.getElem?_toList, ha.bytes, ha'.bytes]
    apply getElem?_walk_emit
    simpa [Song.operands] using hk

theorem Song.compile_relocatable_turning : ∃ c c', turning.compile 3 defaultLimit = .ok c ∧
    turning.compile (3 + 200) defaultLimit = .ok c' ∧ c.Moved 200 turning.operands c' := by
  obtain ⟨c, h⟩ : ∃ c, turning.compile 3 defaultLimit = .ok c :=
    Except.exists_of_isOk (by decide +kernel)
  obtain ⟨c', h'⟩ : ∃ c, turning.compile (3 + 200) defaultLimit = .ok c :=
    Except.exists_of_isOk (by decide +kernel)
  exact ⟨c, c', h, h', compile_relocatable h h'⟩

end Chiptune
