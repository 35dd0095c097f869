/-
# Sound banks

A sound bank holds the data of several songs behind an index: the number of
songs and the address of each header. Songs follow one another from the end
of the index on, and the samples of each song follow those of the song before
it in V-ROM.

Key definitions: `SoundBank`, `SoundBank.ofModules`,
`SoundBank.compileSongs`, `SoundBank.image`, `SoundBank.vrom`.
-/
import Chiptune.Song.Assembly
import Chiptune.Song.Layout

namespace Chiptune

open Tracker

/-- Songs with the limit on the size of their data and the first V-ROM unit of
their samples. -/
structure SoundBank where
  songs : List Song := []
  limit : Nat := Song.defaultLimit
  vromStart : Nat := 0

namespace SoundBank

/-- The number of songs that a bank may have. -/
def songLimit : Nat := 255

/-- The songs of modules, with samples from a V-ROM unit on. -/
def songsFrom (vromStart : Nat) : List Module → Except Error (List Song)
  | [] => .ok []
  | m :: rest => do
    let song ← Song.ofModule m vromStart
    let songs ← songsFrom (song.vromEnd vromStart) rest
    .ok (song :: songs)

/-- The bank of modules, one song for each. -/
def ofModules (modules : List Module) (limit vromStart : Nat) : Except Error SoundBank := do
  if songLimit < modules.length then .error (.tooManySongs modules.length)
  else
    let songs ← songsFrom vromStart modules
    .ok ⟨songs, limit, vromStart⟩

/-- The size of the index. -/
def indexSize (bank : SoundBank) : Nat := 2 * bank.songs.length + 1

/-- Songs compiled one after the other from an address on. -/
def compileFrom (limit base : Nat) : List Song → Except Error (List CompiledSong)
  | [] => .ok []
  | song :: rest => do
    let compiled ← song.compile base limit
    let others ← compileFrom limit compiled.stop rest
    .ok (compiled :: others)

/-- The songs of the bank at their addresses. -/
def compileSongs (bank : SoundBank) : Except Error (List CompiledSong) :=
  if songLimit < bank.songs.length then .error (.tooManySongs bank.songs.length)
  else compileFrom bank.limit bank.indexSize bank.songs

/-- The index of compiled songs. -/
def index (songs : List CompiledSong) : List UInt8 :=
  songs.length.toUInt8 :: songs.flatMap fun song => Word.address song.headerAddress

/-- The data of the bank: the index and the songs. -/
def image (bank : SoundBank) : Except Error (List UInt8) := do
  let songs ← bank.compileSongs
  .ok (index songs ++ songs.flatMap fun song => song.data.toList)

/-- The V-ROM image of the samples of all songs. -/
def vrom (bank : SoundBank) : Except Error (List UInt8) :=
  SampleRom.image bank.vromStart (bank.songs.flatMap Song.samples)

end SoundBank
end Chiptune
