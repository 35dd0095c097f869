/-
# Headers and their bytes

A header takes 31 bytes (`SongHeader.read_takes`). The address zero stands
for a channel that does not play, so the bytes of a header that points to
zero are read as another header. All others are read back from their bytes,
wherever these stand, and any 31 bytes are those of the one header that is
read from them (`SongHeader.read_roundTrip`).

Key theorems: `SongHeader.length_encode`, `SongHeader.read_of_holds`,
`SongHeader.readWords_takes`, `SongHeader.read_takes`,
`SongHeader.read_roundTrip`.
-/
import Chiptune.Proofs.Chunks
import Chiptune.Song.Header

namespace Chiptune
namespace SongHeader

variable {data : Array UInt8} {pos : Nat}

/-! ### The size of a header -/

theorem length_words (ws : List UInt16) : (ws.flatMap Word.bytes).length = 2 * ws.length := by
  simp [List.length_flatMap, List.map_const', Nat.mul_comm]

/-- The entries of channels are words. -/
theorem flatMap_entries (entries : List (Option UInt16)) :
    (entries.flatMap fun c => Word.bytes (c.getD 0)) =
      (entries.map fun c => c.getD 0).flatMap Word.bytes := by
  rw [List.flatMap_map]

theorem length_entries (entries : List (Option UInt16)) :
    (entries.flatMap fun c => Word.bytes (c.getD 0)).length = 2 * entries.length := by
  rw [flatMap_entries, length_words, List.length_map]

theorem length_encode (h : SongHeader) : h.encode.length = 31 := by
  simp only [encode, List.length_append, length_entries, Vector.length_toList]
  rfl

/-! ### Entries of channels -/

theorem getD_present (w : UInt16) : (present w).getD 0 = w := by
  unfold present
  split <;> simp [*]

theorem present_ne (w : UInt16) : present w ≠ some 0 := by
  unfold present
  split
  · simp
  · next hw => exact fun h => hw (Option.some.inj h)

theorem present_getD {c : Option UInt16} (h : c ≠ some 0) : present (c.getD 0) = c := by
  cases c with
  | none => rfl
  | some w => exact if_neg fun hw => h (congrArg some hw)

/-! ### Reading headers -/

theorem readWords_of_holds : ∀ {n : Nat} {ws : Vector UInt16 n},
    Reader.Holds data pos (ws.toList.flatMap Word.bytes) →
    readWords data pos n = .ok (ws, pos + 2 * n)
  | 0, ws, _ => by
    obtain rfl : ws = #v[] := Vector.eq_empty
    rfl
  | n + 1, ws, h => by
    obtain ⟨ws, w, rfl⟩ : ∃ (ws' : Vector UInt16 n) (w : UInt16), ws = ws'.push w :=
      Vector.exists_push
    rw [Vector.toList_push, List.flatMap_append, Reader.holds_append, length_words,
      Vector.length_toList] at h
    rw [readWords, Except.bind_of_ok (readWords_of_holds h.1)]
    exact Except.bind_of_ok (Reader.word_of_holds h.2)

/-- **A header is read back from its bytes**, unless it points to zero. -/
theorem read_of_holds {h : SongHeader} (hzero : ∀ d, h.channels.get d ≠ some 0)
    (hh : Reader.Holds data pos h.encode) : read data pos = .ok (h, pos + 31) := by
  let ws := h.channels.map fun c => c.getD 0
  rw [encode, flatMap_entries, ← Vector.toList_map] at hh
  simp only [List.append_assoc, Reader.holds_append, length_words, Vector.length_toList] at hh
  obtain ⟨hchannels, hcounter, hbase, hinstruments⟩ := hh
  have hpresent : ws.map present = h.channels := by
    apply Vector.ext
    intro d hd
    simp only [ws, Vector.getElem_map]
    exact present_getD (hzero ⟨d, hd⟩)
  refine (Except.bind_of_ok (readWords_of_holds hchannels)).trans ?_
  refine (Except.bind_of_ok (Reader.word_of_holds hcounter)).trans ?_
  refine (Except.bind_of_ok (Reader.byte_of_holds hbase)).trans ?_
  refine (Except.bind_of_ok (Reader.word_of_holds hinstruments)).trans ?_
  exact congrArg (fun c => Except.ok ((⟨c, h.timerCounter, h.timeBase, h.instruments⟩ : SongHeader),
    pos + 31)) hpresent

theorem readWords_takes : ∀ n : Nat, Reader.Takes (2 * n)
    (fun bs (ws : Vector UInt16 n) => ws.toList.flatMap Word.bytes = bs)
    fun data pos => readWords data pos n
  | 0 => by
    refine (Reader.Takes.pure #v[]).mono ?_
    rintro bs _ hbs rfl
    exact (List.length_eq_zero_iff.mp hbs).symm
  | n + 1 => by
    refine ((readWords_takes n).bind fun ws => Reader.word_takes.bind fun w =>
      Reader.Takes.pure (ws.push w)).mono ?_
    rintro _ _ hbs ⟨_, _, ws, rfl, rfl, _, rest, w, rfl, rfl, rfl⟩
    have hrest : rest = [] := by
      rw [List.length_append, length_words, Vector.length_toList] at hbs
      simpa using hbs
    rw [Vector.toList_push, List.flatMap_append, hrest, List.append_nil]
    simp

/-- **A header takes 31 bytes**, which are its own. -/
theorem read_takes : Reader.Takes 31
    (fun bs h => h.encode = bs ∧ ∀ d, h.channels.get d ≠ some 0) read := by
  refine ((readWords_takes channelCount).bind fun ws => Reader.word_takes.bind fun counter =>
    Reader.byte_takes.bind fun timeBase => Reader.word_takes.bind fun instruments =>
      Reader.Takes.pure (⟨ws.map present, counter, timeBase, instruments⟩ : SongHeader)).mono ?_
  rintro _ _ hbs
    ⟨_, _, ws, rfl, rfl, _, _, counter, rfl, rfl, _, _, timeBase, rfl, rfl, _, rest, instruments, rfl,
      rfl, rfl⟩
  have hwords : ((ws.map present).toList.flatMap fun c => Word.bytes (c.getD 0)) =
      ws.toList.flatMap Word.bytes := by
    simp only [Vector.toList_map, List.flatMap_map, getD_present]
  have hrest : rest = [] := by
    rw [List.length_append, length_words, Vector.length_toList] at hbs
    simpa [Nat.add_assoc, Nat.add_comm, Nat.add_left_comm] using hbs
  refine ⟨?_, fun d => ?_⟩
  · simp only [encode, hwords, hrest, List.append_assoc, List.append_nil]
  · show (ws.map present)[d.val] ≠ some 0
    rw [Vector.getElem_map]
    exact present_ne _

/-- **Headers and their bytes.** A header that points nowhere to zero is read
back from its bytes, with any bytes before and behind them. From any data a
header is read exactly if 31 bytes are left; these are its bytes, and it points
nowhere to zero. -/
theorem read_roundTrip :
    (∀ h : SongHeader, (∀ d, h.channels.get d ≠ some 0) → ∀ before after : List UInt8,
      read (before ++ h.encode ++ after).toArray before.length = .ok (h, before.length + 31)) ∧
    ∀ (data : Array UInt8) (pos : Nat),
      ((∃ r, read data pos = .ok r) ↔ pos + 31 ≤ data.size) ∧
      ∀ h stop, read data pos = .ok (h, stop) →
        h.encode = (data.extract pos (pos + 31)).toList ∧ (∀ d, h.channels.get d ≠ some 0) ∧
          stop = pos + 31 := by
  refine ⟨fun h hzero before after => ?_, fun data pos =>
    ⟨read_takes.exists_ok_iff (Nat.succ_pos _), fun h stop hread => ?_⟩⟩
  · apply read_of_holds hzero
    apply Reader.holds_of_toList_eq
    rw [List.append_assoc]
  · obtain ⟨bs, hbs, hholds, ⟨hencode, hzero⟩, hstop⟩ := read_takes.eq_ok (Nat.succ_pos _) hread
    refine ⟨?_, hzero, hstop⟩
    have htake : bs = (data.toList.drop pos).take bs.length := List.prefix_iff_eq_take.mp hholds
    rw [hencode, htake, hbs]
    simp

/-- A header of a song that plays one channel. -/
def playingOne : SongHeader where
  channels := (Vector.replicate channelCount none).set 6 (some 0x0456)
  timerCounter := 0x03F8
  timeBase := 2
  instruments := 0x0120

theorem read_roundTrip_playingOne : (∀ d, playingOne.channels.get d ≠ some 0) ∧
    ∃ stop, read ([0xFF, 0x0A, 0x00] ++ playingOne.encode ++ [0x21]).toArray 3 =
        .ok (playingOne, stop) ∧
      playingOne.encode =
        (([0xFF, 0x0A, 0x00] ++ playingOne.encode ++ [0x21]).toArray.extract 3 34).toList := by
  have hzero : ∀ d, playingOne.channels.get d ≠ some 0 := by decide
  have hread := read_roundTrip.1 playingOne hzero [0xFF, 0x0A, 0x00] [0x21]
  exact ⟨hzero, _, hread, ((read_roundTrip.2 _ 3).2 _ _ hread).1⟩

end SongHeader
end Chiptune
