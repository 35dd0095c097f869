/-
# The samples of a sound bank

Samples are placed in rising order, each with room for its data
(`SampleRom.Rising`), and the samples of a song follow those of the song
before it. So what is written into the image for one sample leaves those
before it as they are, and the image of a sound bank holds the data of all
samples with zeros between them (`SoundBank.vrom_holds`).

Key definitions: `SampleRom.Rising`, `SampleRom.Covers`, `SampleRom.Holds`,
`SoundBank.samples`.
Key theorems: `SampleRom.place_rising`, `SampleRom.Rising.append`,
`SampleRom.Holds.write`, `SampleRom.Holds.writeAll`, `SoundBank.songsFrom_rising`,
`SoundBank.vrom_holds`.
-/
import Chiptune.Proofs.ModuleSong
import Chiptune.SoundBank

namespace Chiptune
namespace SampleRom

open Tracker

/-! ### Placement -/

/-- Samples stand one behind the other from a unit on, each in units that have
room for its data. -/
def Rising (start : Nat) : List PlacedSample → Prop
  | [] => True
  | p :: rest => start ≤ p.first ∧ p.first ≤ p.last ∧
      p.sample.data.length ≤ p.units * unitSize ∧ Rising (p.last + 1) rest

theorem unitsOf_pos (sample : Sample) : 0 < unitsOf sample := Nat.le_max_left ..

theorem length_le_unitsOf (sample : Sample) :
    sample.data.length ≤ unitsOf sample * unitSize := by
  unfold unitsOf unitSize
  omega

/-- A sample is not moved down. -/
theorem le_firstUnit {start units : Nat} (h : 0 < units) : start ≤ firstUnit start units := by
  unfold firstUnit bankSize
  dsimp only
  split <;> omega

/-- **Samples are placed in rising order.** -/
theorem place_rising : ∀ {samples : List Sample} {start : Nat} {placed : List PlacedSample},
    place start samples = .ok placed → Rising start placed
  | [], _, _, h => by
    obtain rfl := Except.ok.inj h
    trivial
  | sample :: rest, start, placed, h => by
    have hunits := unitsOf_pos sample
    unfold place at h
    dsimp only at h
    split at h
    · cases h
    · obtain ⟨more, hmore, h⟩ := Except.bind_eq_ok h
      obtain rfl := Except.ok.inj h
      have hlast : firstUnit start (unitsOf sample) + unitsOf sample - 1 + 1 =
          firstUnit start (unitsOf sample) + unitsOf sample := by omega
      refine ⟨le_firstUnit hunits, by dsimp only; omega, ?_, ?_⟩
      · rw [show PlacedSample.units ⟨sample, _, _⟩ = unitsOf sample from by
          unfold PlacedSample.units
          dsimp only
          omega]
        exact length_le_unitsOf sample
      · dsimp only
        rw [hlast]
        exact place_rising hmore

theorem endUnit_cons (start : Nat) (p : PlacedSample) (rest : List PlacedSample) :
    endUnit start (p :: rest) = endUnit (p.last + 1) rest := by
  unfold endUnit
  rw [List.getLast?_cons]
  cases rest.getLast? <;> rfl

theorem endUnit_concat (start : Nat) (placed : List PlacedSample) (p : PlacedSample) :
    endUnit start (placed ++ [p]) = p.last + 1 := by
  rw [endUnit, List.getLast?_concat]

namespace Rising

variable {start : Nat} {as bs placed : List PlacedSample}

theorem append (ha : Rising start as) (hb : Rising (endUnit start as) bs) :
    Rising start (as ++ bs) := by
  induction as generalizing start with
  | nil => exact hb
  | cons p rest ih =>
    rw [endUnit_cons] at hb
    exact ⟨ha.1, ha.2.1, ha.2.2.1, ih ha.2.2.2 hb⟩

theorem le_endUnit (h : Rising start placed) : start ≤ endUnit start placed := by
  induction placed generalizing start with
  | nil => exact Nat.le_refl _
  | cons p rest ih =>
    rw [endUnit_cons]
    have hrest := ih h.2.2.2
    have hfirst := h.1
    have hlast := h.2.1
    omega

theorem start_le (h : Rising start placed) : ∀ p ∈ placed, start ≤ p.first := by
  induction placed generalizing start with
  | nil => exact nofun
  | cons p rest ih =>
    intro q hq
    rcases List.mem_cons.mp hq with rfl | hq
    · exact h.1
    · have hrest := ih h.2.2.2 q hq
      have hfirst := h.1
      have hlast := h.2.1
      omega

/-- A sample ends before the next ones start. -/
theorem pairwise (h : Rising start placed) : placed.Pairwise fun p q => p.last < q.first := by
  induction placed generalizing start with
  | nil => exact .nil
  | cons p rest ih => exact .cons (fun q hq => start_le h.2.2.2 q hq) (ih h.2.2.2)

end Rising

/-! ### Writing into an image -/

theorem size_store : ∀ (data : List UInt8) (image : Array UInt8) (position : Nat),
    (store image position data).size = image.size
  | [], _, _ => rfl
  | byte :: rest, image, position => by
    rw [store, size_store rest, Array.size_setIfInBounds]

/-- Stored bytes stand where they were stored, and the others stay. -/
theorem getElem?_store {i : Nat} : ∀ {data : List UInt8} {image : Array UInt8} {position : Nat},
    position + data.length ≤ image.size →
    (store image position data)[i]? =
      if position ≤ i ∧ i < position + data.length then data[i - position]? else image[i]?
  | [], image, position, _ => by
    rw [if_neg (by simp only [List.length_nil]; omega)]
    rfl
  | byte :: rest, image, position, h => by
    rw [List.length_cons] at h ⊢
    rw [store, getElem?_store (by rw [Array.size_setIfInBounds]; omega)]
    by_cases hi : i = position
    · subst hi
      rw [if_neg (by omega), if_pos (by omega), Array.getElem?_setIfInBounds_self_of_lt (by omega)]
      simp
    · by_cases hin : position + 1 ≤ i ∧ i < position + 1 + rest.length
      · have hindex : i - position = i - (position + 1) + 1 := by omega
        rw [if_pos hin, if_pos (by omega), hindex, List.getElem?_cons_succ]
      · rw [if_neg hin, if_neg (by omega), Array.getElem?_setIfInBounds_ne (Ne.symm hi)]

theorem size_extend (image : Array UInt8) (size : Nat) :
    (extend image size).size = max image.size size := by
  rw [extend, Array.size_append, Array.size_replicate]
  omega

theorem getElem?_extend {image : Array UInt8} {size i : Nat} (hi : i < size) :
    (extend image size)[i]? = if i < image.size then image[i]? else some 0 := by
  rw [extend]
  split
  · next h => exact Array.getElem?_append_left h
  · next h =>
    rw [Array.getElem?_append_right (Nat.le_of_not_lt h), Array.getElem?_replicate,
      if_pos (by omega)]

/-- The bytes of an image that was extended to a size, with data stored in it. -/
theorem getElem?_store_extend {image : Array UInt8} {position size i : Nat} {data : List UInt8}
    (hend : position + data.length ≤ size) (hi : i < size) :
    (store (extend image size) position data).toList[i]? =
      if position ≤ i ∧ i < position + data.length then data[i - position]?
      else if i < image.size then image[i]? else some 0 := by
  have hroom : position + data.length ≤ (extend image size).size := by
    rw [size_extend]
    omega
  rw [Array.getElem?_toList, getElem?_store hroom, getElem?_extend hi]

/-- The data of a sample cover a byte of an image that starts at a unit. -/
def Covers (start : Nat) (p : PlacedSample) (i : Nat) : Prop :=
  (p.first - start) * unitSize ≤ i ∧ i < (p.first - start) * unitSize + p.sample.data.length

/-- An image from a unit on that holds the data of placed samples, ends with
the last unit of the last one, and is zero elsewhere. -/
structure Holds (start : Nat) (placed : List PlacedSample) (image : List UInt8) : Prop where
  length : image.length = match placed.getLast? with
    | none => 0
    | some p => (p.last + 1 - start) * unitSize
  data : ∀ p ∈ placed, ∀ j byte, p.sample.data[j]? = some byte →
    image[(p.first - start) * unitSize + j]? = some byte
  zero : ∀ i < image.length, (∀ p ∈ placed, ¬ Covers start p i) → image[i]? = some 0

/-- The size of the image of placed samples. -/
def imageSize (start : Nat) (placed : List PlacedSample) : Nat :=
  (endUnit start placed - start) * unitSize

namespace Holds

variable {start : Nat} {placed rest : List PlacedSample} {p : PlacedSample} {image : Array UInt8}

theorem nil (start : Nat) : Holds start [] [] where
  length := rfl
  data := nofun
  zero := nofun

theorem size_eq (h : Holds start placed image.toList) : image.size = imageSize start placed := by
  rw [← Array.length_toList, h.length, imageSize, endUnit]
  cases placed.getLast? with
  | none => simp
  | some p => rfl

/-- One more sample behind those of an image. -/
theorem write (h : Holds start placed image.toList) (hstart : start ≤ endUnit start placed)
    (hp : Rising (endUnit start placed) [p])
    (hfits : imageSize start (placed ++ [p]) < imageLimit) :
    ∃ image', SampleRom.write start image p = .ok image' ∧
      Holds start (placed ++ [p]) image'.toList := by
  obtain ⟨hfirst, hlast, hdata, -⟩ := hp
  let position := (p.first - start) * unitSize
  let stop := position + p.units * unitSize
  have hstop : stop = imageSize start (placed ++ [p]) := by
    rw [imageSize, endUnit_concat]
    unfold stop position PlacedSample.units unitSize
    omega
  have hbefore : image.size ≤ position := by
    rw [h.size_eq, imageSize]
    exact Nat.mul_le_mul_right _ (Nat.sub_le_sub_right hfirst start)
  have hend : position + p.sample.data.length ≤ stop := Nat.add_le_add_left hdata _
  have hextend : (extend image stop).size = stop := by
    rw [size_extend]
    omega
  have hwrite : SampleRom.write start image p =
      .ok (store (extend image stop) position p.sample.data) := by
    rw [SampleRom.write, if_neg, if_neg]
    · exact Nat.not_lt.mpr (hextend.symm ▸ hend)
    · have hlt : stop < imageLimit := hstop ▸ hfits
      unfold stop position at hlt
      omega
  have hlength : (store (extend image stop) position p.sample.data).toList.length = stop := by
    rw [Array.length_toList, size_store, hextend]
  refine ⟨_, hwrite, ⟨?_, ?_, ?_⟩⟩
  · rw [hlength, hstop, imageSize, endUnit_concat, List.getLast?_concat]
  · intro q hq j byte hj
    rcases List.mem_append.mp hq with hq | hq
    · -- the data of the samples before end before this one starts
      have hold := h.data q hq j byte hj
      have hlt := (List.getElem?_eq_some_iff.mp hold).1
      rw [Array.length_toList] at hlt
      rw [getElem?_store_extend hend (by omega), if_neg (by omega), if_pos hlt]
      rwa [Array.getElem?_toList] at hold
    · obtain rfl := List.mem_singleton.mp hq
      have hlt := (List.getElem?_eq_some_iff.mp hj).1
      rw [getElem?_store_extend hend (by omega), if_pos (by omega), Nat.add_sub_cancel_left]
      exact hj
  · intro i hi hfree
    rw [hlength] at hi
    have hnot : ¬ (position ≤ i ∧ i < position + p.sample.data.length) :=
      hfree p (List.mem_append_right _ (List.mem_singleton.mpr rfl))
    rw [getElem?_store_extend hend hi, if_neg hnot]
    split
    · next hlt =>
      rw [← Array.getElem?_toList]
      exact h.zero i (by rwa [Array.length_toList]) fun q hq => hfree q (List.mem_append_left _ hq)
    · rfl

end Holds

theorem Rising.imageSize_le {start : Nat} {placed rest : List PlacedSample}
    (h : Rising (endUnit start placed) rest) :
    imageSize start placed ≤ imageSize start (placed ++ rest) := by
  have hle := h.le_endUnit
  have hend : endUnit start (placed ++ rest) = endUnit (endUnit start placed) rest := by
    unfold endUnit
    rw [List.getLast?_append]
    cases rest.getLast? <;> rfl
  rw [imageSize, imageSize, hend]
  exact Nat.mul_le_mul_right _ (Nat.sub_le_sub_right hle start)

namespace Holds

variable {start : Nat} {rest placed : List PlacedSample} {image : Array UInt8}

/-- **Writing rising samples** behind those of an image gives an image of all
of them, if it is not too large, and fails otherwise. -/
theorem writeAll (h : Holds start placed image.toList) (hstart : start ≤ endUnit start placed)
    (hsize : imageSize start placed < imageLimit) (hrising : Rising (endUnit start placed) rest) :
    if imageSize start (placed ++ rest) < imageLimit then
      ∃ image', SampleRom.writeAll start image rest = .ok image' ∧
        Holds start (placed ++ rest) image'.toList
    else SampleRom.writeAll start image rest = .error .addressOverflow := by
  induction rest generalizing placed image with
  | nil =>
    rw [List.append_nil, if_pos hsize]
    exact ⟨image, rfl, h⟩
  | cons p rest ih =>
    obtain ⟨hfirst, hlast, hdata, hrest⟩ := hrising
    rw [← endUnit_concat start placed] at hrest
    rw [List.append_cons]
    by_cases hp : imageSize start (placed ++ [p]) < imageLimit
    · obtain ⟨image₁, hwrite, h₁⟩ := h.write hstart ⟨hfirst, hlast, hdata, trivial⟩ hp
      have hstart₁ : start ≤ endUnit start (placed ++ [p]) := by
        rw [endUnit_concat]
        omega
      rw [SampleRom.writeAll, Except.bind_of_ok hwrite]
      exact ih h₁ hstart₁ hp hrest
    · -- the image is too large from here on
      have hle := hrest.imageSize_le
      have hwrite : SampleRom.write start image p = .error .addressOverflow := by
        rw [SampleRom.write, if_pos]
        rw [imageSize, endUnit_concat] at hp
        unfold PlacedSample.units unitSize
        unfold unitSize at hp
        omega
      rw [if_neg (by omega), SampleRom.writeAll, hwrite]
      rfl

end Holds

/-- The image of rising samples. -/
theorem Rising.image {start : Nat} {placed : List PlacedSample} (h : Rising start placed) :
    (imageSize start placed < imageLimit →
      ∃ image, SampleRom.image start placed = .ok image ∧ Holds start placed image) ∧
    (imageLimit ≤ imageSize start placed →
      SampleRom.image start placed = .error .addressOverflow) := by
  have hempty : imageSize start [] < imageLimit := by
    rw [imageSize, endUnit, List.getLast?_nil, Nat.sub_self]
    decide
  have hnil : Holds start [] (#[] : Array UInt8).toList := .nil start
  have hall := hnil.writeAll (Nat.le_refl _) hempty h
  rw [List.nil_append] at hall
  constructor
  · intro hfits
    rw [if_pos hfits] at hall
    obtain ⟨image, hwrite, himage⟩ := hall
    exact ⟨image.toList, Except.bind_of_ok hwrite, himage⟩
  · intro hlarge
    rw [if_neg (Nat.not_lt.mpr hlarge)] at hall
    rw [SampleRom.image, hall]
    rfl

end SampleRom

namespace SoundBank

open SampleRom Tracker

/-- The samples of all songs. -/
def samples (bank : SoundBank) : List PlacedSample := bank.songs.flatMap Song.samples

/-- The samples of a song follow those of the song before it. -/
theorem songsFrom_rising : ∀ {modules : List Module} {vromStart : Nat} {songs : List Song},
    songsFrom vromStart modules = .ok songs → Rising vromStart (songs.flatMap Song.samples)
  | [], _, _, h => by
    obtain rfl := Except.ok.inj h
    trivial
  | m :: rest, vromStart, songs, h => by
    obtain ⟨song, hsong, h⟩ := Except.bind_eq_ok h
    obtain ⟨more, hmore, h⟩ := Except.bind_eq_ok h
    obtain rfl := Except.ok.inj h
    exact (place_rising (Song.ofModule_parts hsong).1).append (songsFrom_rising hmore)

theorem ofModules_rising {modules : List Module} {limit vromStart : Nat} {bank : SoundBank}
    (h : ofModules modules limit vromStart = .ok bank) :
    bank.vromStart = vromStart ∧ Rising vromStart bank.samples := by
  unfold ofModules at h
  split at h
  · cases h
  · obtain ⟨songs, hsongs, h⟩ := Except.bind_eq_ok h
    obtain rfl := Except.ok.inj h
    exact ⟨rfl, songsFrom_rising hsongs⟩

/-- **The V-ROM of a bank.** From the first unit on, the samples of all songs
stand one behind the other. The image of a possible size holds the data of
each at its place and is zero elsewhere; there is none of a larger size. -/
theorem vrom_holds {modules : List Module} {limit vromStart : Nat} {bank : SoundBank}
    (h : ofModules modules limit vromStart = .ok bank) :
    (∀ p ∈ bank.samples, vromStart ≤ p.first) ∧
    (bank.samples.Pairwise fun p q => p.last < q.first) ∧
    (imageSize vromStart bank.samples < imageLimit →
      ∃ image, bank.vrom = .ok image ∧ Holds vromStart bank.samples image) ∧
    (imageLimit ≤ imageSize vromStart bank.samples → bank.vrom = .error .addressOverflow) := by
  obtain ⟨rfl, hrising⟩ := ofModules_rising h
  exact ⟨hrising.start_le, hrising.pairwise, hrising.image⟩

/-- A module with a sample of two units and an empty one. -/
def drumming : Module where
  samples := [{ data := List.replicate 257 7 }, {}]

theorem vrom_holds_drumming : ∃ bank image,
    ofModules [drumming, {}, drumming] Song.defaultLimit 4095 = .ok bank ∧
    bank.samples.map (fun p => (p.first, p.last)) =
      [(4096, 4097), (4098, 4098), (4099, 4100), (4101, 4101)] ∧
    bank.vrom = .ok image ∧ Holds 4095 bank.samples image := by
  obtain ⟨bank, h⟩ : ∃ bank, ofModules [drumming, {}, drumming] Song.defaultLimit 4095 = .ok bank :=
    Except.exists_of_isOk (by decide +kernel)
  have hunits : ((ofModules [drumming, {}, drumming] Song.defaultLimit 4095).toOption.map
      fun bank => bank.samples.map fun p => (p.first, p.last)) =
      some [(4096, 4097), (4098, 4098), (4099, 4100), (4101, 4101)] := by decide +kernel
  have hsize : ((ofModules [drumming, {}, drumming] Song.defaultLimit 4095).toOption.map
      fun bank => imageSize 4095 bank.samples) = some 1792 := by decide +kernel
  rw [h] at hunits hsize
  have hfits : imageSize 4095 bank.samples < imageLimit := by
    rw [show imageSize 4095 bank.samples = 1792 from Option.some.inj hsize]
    decide
  obtain ⟨image, himage, hholds⟩ := (vrom_holds h).2.2.1 hfits
  exact ⟨bank, image, h, Option.some.inj hunits, himage, hholds⟩

end SoundBank
end Chiptune
