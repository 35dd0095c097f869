/-
# The header of a song

The data of a song end with the header that points to its main lists and its
instrument records (`Song.header_holds`).

Key definitions: `Song.headerAt`.
Key theorems: `Song.header_holds`.
-/
import Chiptune.Proofs.SongSource

namespace Chiptune

namespace Song

variable {base : Nat} {marks : Label → Option Nat}

/-- The entry of a channel in the header of a song. -/
def headerEntry (base : Nat) (marks : Label → Option Nat) (channel : Nat)
    (track : Option ChannelTrack) : Option UInt16 :=
  track.map fun _ => labelWord base marks (.mainList channel)

/-- The header of a song whose data are at `base`. -/
def headerAt (song : Song) (base : Nat) : SongHeader where
  channels := Vector.ofFn fun d => headerEntry base (survey song.source).marks d (song.channels.get d)
  timerCounter := song.timer.counter
  timeBase := song.timer.timeBase
  instruments := labelWord base (survey song.source).marks .instruments

theorem walk_headerPointers : ∀ (tracks : List (Option ChannelTrack)) (channel : Nat) (s : Survey),
    walk (Item.emit base marks) s (headerPointers channel tracks) =
      (tracks.mapIdx fun i t => headerEntry base marks (channel + i) t).flatMap
        fun c => Word.bytes (c.getD 0)
  | [], _, _ => rfl
  | none :: rest, channel, s => by
    rw [headerPointers, walk_cons, walk_headerPointers rest, List.mapIdx_cons]
    simp only [Nat.add_assoc, Nat.add_comm 1]
    rfl
  | some track :: rest, channel, s => by
    rw [headerPointers, walk_cons, walk_headerPointers rest, List.mapIdx_cons]
    simp only [Nat.add_assoc, Nat.add_comm 1]
    rfl

/-- **The data of a song end with its header.** -/
theorem header_holds {song : Song} {l : Layout} (ha : l.Assembled song.source) :
    Reader.Holds l.bytes (survey song.bodySource).offset (song.headerAt l.base).encode := by
  have hsource : song.source = song.bodySource ++ (song.headerSource ++ []) := by
    rw [List.append_nil]
    rfl
  have hholds := ha.holds hsource
  have hchannels : (song.headerAt l.base).channels.toList = song.channels.toList.mapIdx
      fun i t => headerEntry l.base (survey song.source).marks (0 + i) t := by
    apply List.ext_getElem
    · simp
    · intro i h1 h2
      simp only [headerAt, Vector.getElem_toList, Vector.getElem_ofFn, List.getElem_mapIdx,
        Nat.zero_add]
      rfl
  rw [headerSource, walk_cons, walk_append, walk_headerPointers] at hholds
  simp only [walk_cons, walk_nil, Item.emit, List.nil_append, List.append_nil,
    List.append_assoc] at hholds
  simp only [SongHeader.encode, hchannels, List.append_assoc]
  exact hholds

end Song
end Chiptune
