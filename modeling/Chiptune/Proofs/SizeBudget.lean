/-
# The size budget

Whether the parts of a song fit together does not depend on where the song is
placed. A song has a structural fault, and then it is refused for this fault at
every address, or its data have one size, and then it compiles exactly if they
end within the limit (`Song.refusedFor_or_takes`).

The songs of a bank are checked one by one, each at the address behind the
songs before it. Addresses rise, so the check of the last song is that of the
whole bank, and a larger limit changes nothing in the data
(`SoundBank.image_budget`).

Key definitions: `Error.Structural`, `Song.checkLabels`, `Song.size`,
`Song.RefusedFor`, `Song.Takes`.
Key theorems: `Song.resolve_unresolved`, `Song.refusedFor_or_takes`,
`SoundBank.compileFrom_of_le`, `SoundBank.image_budget`.
-/
import Chiptune.Proofs.Navigation
import Chiptune.Proofs.SourceCheck
import Mathlib.Algebra.GroupWithZero.Nat

namespace Chiptune

/-- Causes of refusal that lie in how a song is put together: a label that is
defined twice or not at all, and a jump to a row that no list has. -/
def Error.Structural : Error → Prop
  | .duplicateLabel _ | .undefinedLabel _ | .unresolvedJump _ _ => True
  | _ => False

theorem Survey.structural_of_check {s : Survey} {items : List Item} {e : Error}
    (h : s.check items = .error e) : e.Structural := by
  have hmem : e ∈ walk Item.faults s items := by
    rw [check] at h
    cases hw : walk Item.faults s items with
    | nil =>
      rw [hw] at h
      cases h
    | cons first rest =>
      rw [hw] at h
      obtain rfl : first = e := Except.error.inj h
      exact List.mem_cons_self ..
  obtain ⟨as, item, bs, -, he⟩ := mem_walk.mp hmem
  cases item with
  | mark label =>
    rw [Item.faults] at he
    split at he
    · obtain rfl := List.mem_singleton.mp he
      trivial
    · cases he
  | pointer label =>
    obtain ⟨x, -, rfl⟩ := List.mem_map.mp he
    trivial
  | bytes bs => cases he
  | jump c r => cases he

/-! ### Fixups at another address -/

/-- The fixup of data that were moved up by `d`. -/
def Fixup.shift (d : Nat) (f : Fixup) : Fixup := { f with site := f.site + d }

namespace Layout

theorem structural_of_resolve {fixups : List Fixup} {e : Error} (h : resolve fixups = .error e) :
    e.Structural := by
  cases fixups with
  | nil => cases h
  | cons f rest =>
    obtain rfl := Except.error.inj h
    trivial

theorem earlier_shift (d : Nat) (a b : Fixup) :
    earlier (a.shift d) (b.shift d) = (earlier a b).shift d := by
  unfold earlier
  exact (apply_ite (Fixup.shift d) _ _ _).symm

/-- Sites do not matter to which fixup is reported. -/
theorem resolve_map_shift (d : Nat) (fixups : List Fixup) :
    resolve (fixups.map (Fixup.shift d)) = resolve fixups := by
  cases fixups with
  | nil => rfl
  | cons f rest =>
    have hleast : (rest.map (Fixup.shift d)).foldl earlier (f.shift d) =
        (rest.foldl earlier f).shift d := by
      rw [List.foldl_map]
      exact List.foldl_hom (Fixup.shift d) (fun a b => earlier_shift d a b)
    rw [List.map_cons, resolve, checkResolved]
    simp only [hleast]
    rfl

end Layout

theorem walk_fixups_eq_map (base : Nat) (items : List Item) (s : Survey) :
    walk (Item.fixups base) s items = (walk (Item.fixups 0) s items).map (Fixup.shift base) := by
  induction items generalizing s with
  | nil => rfl
  | cons item items ih =>
    rw [walk_cons, walk_cons, ih, List.map_append]
    congr 1
    cases item with
    | jump channel row => simp [Item.fixups, Fixup.shift, Nat.add_comm]
    | mark label => rfl
    | bytes bs => rfl
    | pointer label => rfl

namespace Song

variable {song : Song} {base limit : Nat}

/-- The jump that is reported as unresolved does not depend on the address. -/
theorem resolve_unresolved (song : Song) (base : Nat) :
    Layout.resolve (song.unresolved base) = Layout.resolve (song.unresolved 0) := by
  rw [unresolved, walk_fixups_eq_map, List.filter_map, Layout.resolve_map_shift]
  rfl

/-! ### Songs -/

/-- The size of the data of a song: what stands before the header, and the
header. -/
def size (song : Song) : Nat := song.bodySize + 31

/-- Fails if a song has a structural fault. -/
def checkLabels (song : Song) : Except Error Unit := do
  Survey.check {} song.bodySource
  Layout.resolve (song.unresolved 0)
  (survey song.bodySource).check song.headerSource

/-- The song is refused for a structural fault wherever it is placed. The
addresses that are used up to there have to be signed words. -/
def RefusedFor (song : Song) (e : Error) : Prop :=
  e.Structural ∧ ∀ base limit, base + song.laidOut < 2 ^ 63 → song.compile base limit = .error e

/-- Wherever the song is placed, its data have `n` bytes, or would end beyond
the limit. -/
def Takes (song : Song) (n : Nat) : Prop :=
  ∀ base limit, base + n < 2 ^ 63 →
    (base + n ≤ min limit addressSpace →
      ∃ c, song.compile base limit = .ok c ∧ c.data.size = n) ∧
    (min limit addressSpace < base + n →
      song.compile base limit = .error (.dataOverflow (base + n) (min limit addressSpace)))

theorem fits_of_lt {n : Nat} (h : base + n < 2 ^ 63) :
    ((base + n : Nat) : Int) < Address.signedLimit := by
  unfold Address.signedLimit
  omega

theorem laidOut_of_check (h : Survey.check {} song.bodySource = .ok ()) :
    song.laidOut = song.bodySize := Survey.reach_of_check h

/-- A fault before the header is met before anything behind it. -/
theorem compile_of_fault {e : Error} (h : Survey.check {} song.bodySource = .error e)
    (hfits : base + song.laidOut < 2 ^ 63) (limit : Nat) :
    song.compile base limit = .error e := by
  have hparts : outcome (Layout.placeParts song base) = .error e :=
    (Layout.placeParts_follows song base [] (Layout.assembled_nil base) (fits_of_lt hfits)).trans h
  rw [compile, Layout.placeBody_eq, bind_assoc, eq_error_of_outcome hparts]
  rfl

/-- How a song compiles is known from its labels and its size. -/
theorem outcome_compile_eq (hfits : base + song.bodySize < 2 ^ 63) (limit : Nat) :
    outcome (song.compile base limit) =
      (song.checkLabels >>= fun _ => checkEnd (base + song.size) limit) := by
  rw [outcome_compile (fits_of_lt hfits), resolve_unresolved, checkLabels]
  simp only [bind_assoc]
  rfl

theorem structural_of_checkLabels {e : Error} (h : song.checkLabels = .error e) : e.Structural := by
  unfold checkLabels at h
  cases hbody : Survey.check {} song.bodySource with
  | error e' =>
    rw [hbody] at h
    obtain rfl : e' = e := Except.error.inj h
    exact Survey.structural_of_check hbody
  | ok _ =>
    rw [Except.bind_of_ok hbody] at h
    cases hresolve : Layout.resolve (song.unresolved 0) with
    | error e' =>
      rw [hresolve] at h
      obtain rfl : e' = e := Except.error.inj h
      exact Layout.structural_of_resolve hresolve
    | ok _ =>
      rw [Except.bind_of_ok hresolve] at h
      exact Survey.structural_of_check h

theorem refusedFor_of_checkLabels {e : Error} (h : song.checkLabels = .error e) :
    song.RefusedFor e := by
  refine ⟨structural_of_checkLabels h, fun base limit hfits => ?_⟩
  cases hbody : Survey.check {} song.bodySource with
  | error e' =>
    obtain rfl : e' = e := by
      rw [checkLabels, hbody] at h
      exact Except.error.inj h
    exact compile_of_fault hbody hfits limit
  | ok _ =>
    rw [laidOut_of_check hbody] at hfits
    apply eq_error_of_outcome
    rw [outcome_compile_eq hfits, h]
    rfl

theorem takes_of_checkLabels (h : song.checkLabels = .ok ()) : song.Takes song.size := by
  intro base limit hfits
  have hbody : base + song.bodySize < 2 ^ 63 := by
    rw [size] at hfits
    omega
  have houtcome := outcome_compile_eq hbody limit
  rw [Except.bind_of_ok h, checkEnd] at houtcome
  constructor
  · intro hle
    rw [if_neg (Nat.not_lt.mpr hle)] at houtcome
    obtain ⟨c, hc⟩ := exists_of_outcome houtcome
    exact ⟨c, hc, compile_size hc⟩
  · intro hlt
    rw [if_pos hlt] at houtcome
    exact eq_error_of_outcome houtcome

/-- **A song is refused everywhere, or takes its size everywhere.** -/
theorem refusedFor_or_takes (song : Song) : (∃ e, song.RefusedFor e) ∨ song.Takes song.size := by
  cases h : song.checkLabels with
  | error e => exact .inl ⟨e, refusedFor_of_checkLabels h⟩
  | ok _ => exact .inr (takes_of_checkLabels h)

/-- A song without a structural fault compiles where it ends within the
limit. -/
theorem exists_compile (h : song.checkLabels.isOk = true)
    (hle : base + song.size ≤ min limit addressSpace) : ∃ c, song.compile base limit = .ok c := by
  obtain ⟨_, h⟩ := Except.exists_of_isOk h
  have hfits : base + song.size < 2 ^ 63 := by
    unfold addressSpace at hle
    omega
  obtain ⟨c, hc, -⟩ := (takes_of_checkLabels h base limit hfits).1 hle
  exact ⟨c, hc⟩

/-- A song that compiles ends within the limit. -/
theorem end_le_of_compile {c : CompiledSong} (h : song.compile base limit = .ok c) :
    base + song.size ≤ min limit addressSpace := by
  have hsize := compile_size h
  obtain ⟨l, -, ha, -, hle, rfl⟩ := compile_assembled h
  rwa [← ha.size, hsize] at hle

/-- A larger limit changes nothing. -/
theorem compile_of_limit_le {limit' : Nat} {c : CompiledSong} (hle : limit ≤ limit')
    (h : song.compile base limit = .ok c) : song.compile base limit' = .ok c := by
  obtain ⟨body, hbody, h⟩ := Except.bind_eq_ok h
  obtain ⟨placed, hplaced, h⟩ := Except.bind_eq_ok h
  obtain ⟨stop, hstop, h⟩ := Except.bind_eq_ok h
  dsimp only at h
  split at h
  · cases h
  · next hfits =>
    rw [compile, Except.bind_of_ok hbody, Except.bind_of_ok hplaced, Except.bind_of_ok hstop]
    dsimp only
    rw [if_neg (by omega)]
    exact h

/-- The song is nowhere refused for a structural fault. -/
def Faultless (song : Song) : Prop :=
  ∀ base limit e, base + song.size < 2 ^ 63 → song.compile base limit = .error e → ¬ e.Structural

theorem faultless_of_takes (h : song.Takes song.size) : song.Faultless := by
  intro base limit e hfits herror hstructural
  obtain ⟨hok, hoverflow⟩ := h base limit hfits
  rcases Nat.lt_or_ge (min limit addressSpace) (base + song.size) with hlt | hle
  · obtain rfl := Except.error.inj ((hoverflow hlt).symm.trans herror)
    exact hstructural
  · obtain ⟨c, hc, -⟩ := hok hle
    cases hc.symm.trans herror

theorem Faultless.compile_of_le (h : song.Faultless)
    (hle : base + song.size ≤ min limit addressSpace) : ∃ c, song.compile base limit = .ok c := by
  have hspace : base + song.size ≤ 0x10000 := Nat.le_trans hle (Nat.min_le_right _ _)
  have hlaid := song.laidOut_le
  rcases song.refusedFor_or_takes with ⟨e, hstructural, hrefused⟩ | htakes
  · have hbody : song.bodySize ≤ song.size := Nat.le_add_right _ 31
    exact absurd hstructural (h base limit e (by omega) (hrefused base limit (by omega)))
  · obtain ⟨c, hc, -⟩ := (htakes base limit (by omega)).1 hle
    exact ⟨c, hc⟩

end Song

/-! ### Banks -/

namespace SoundBank

variable {limit base : Nat} {songs : List Song} {compiled : List CompiledSong}

/-- The sizes of songs, added up. -/
def totalSize (songs : List Song) : Nat := (songs.map Song.size).sum

theorem stop_of_compile {song : Song} {c : CompiledSong} (h : song.compile base limit = .ok c) :
    c.stop = base + song.size := by
  have hsize := Song.compile_size h
  obtain ⟨l, rfl, -, -, -, rfl⟩ := Song.compile_assembled h
  exact congrArg (l.base + ·) hsize

/-- The data of songs have the size of the songs. -/
theorem length_bytes_compileFrom (h : compileFrom limit base songs = .ok compiled) :
    (bytes compiled).length = totalSize songs := by
  induction songs generalizing base compiled with
  | nil =>
    obtain rfl := Except.ok.inj h
    rfl
  | cons song rest ih =>
    obtain ⟨c, hc, h⟩ := Except.bind_eq_ok h
    obtain ⟨others, hothers, h⟩ := Except.bind_eq_ok h
    obtain rfl := Except.ok.inj h
    have hsize : c.data.size = song.size := Song.compile_size hc
    rw [bytes, List.flatMap_cons, List.length_append, Array.length_toList, hsize, ← bytes,
      ih hothers, totalSize, totalSize, List.map_cons, List.sum_cons]

/-- Songs that compile end within the limit: the last one does. -/
theorem end_le_of_compileFrom (h : compileFrom limit base songs = .ok compiled)
    (hne : songs ≠ []) : base + totalSize songs ≤ min limit Song.addressSpace := by
  induction songs generalizing base compiled with
  | nil => exact absurd rfl hne
  | cons song rest ih =>
    obtain ⟨c, hc, h⟩ := Except.bind_eq_ok h
    obtain ⟨others, hothers, -⟩ := Except.bind_eq_ok h
    have htotal : totalSize (song :: rest) = song.size + totalSize rest := List.sum_cons
    rw [stop_of_compile hc] at hothers
    rw [htotal, ← Nat.add_assoc]
    by_cases hrest : rest = []
    · subst hrest
      exact Song.end_le_of_compile hc
    · exact ih hothers hrest

/-- Songs without faults that end within the limit compile: those before the
last one end earlier. -/
theorem compileFrom_of_le (hsongs : ∀ song ∈ songs, song.Faultless)
    (hle : base + totalSize songs ≤ min limit Song.addressSpace) :
    ∃ compiled, compileFrom limit base songs = .ok compiled := by
  induction songs generalizing base with
  | nil => exact ⟨[], rfl⟩
  | cons song rest ih =>
    have htotal : totalSize (song :: rest) = song.size + totalSize rest := List.sum_cons
    have hfirst : base + song.size ≤ min limit Song.addressSpace := by omega
    obtain ⟨c, hc⟩ := (hsongs song (List.mem_cons_self ..)).compile_of_le hfirst
    have hrest : c.stop + totalSize rest ≤ min limit Song.addressSpace := by
      rw [stop_of_compile hc]
      omega
    obtain ⟨others, hothers⟩ := ih (fun s hs => hsongs s (List.mem_cons_of_mem _ hs)) hrest
    rw [compileFrom, Except.bind_of_ok hc, Except.bind_of_ok hothers]
    exact ⟨_, rfl⟩

theorem compileFrom_of_limit_le {limit' : Nat} (hle : limit ≤ limit')
    (h : compileFrom limit base songs = .ok compiled) :
    compileFrom limit' base songs = .ok compiled := by
  induction songs generalizing base compiled with
  | nil => exact h
  | cons song rest ih =>
    obtain ⟨c, hc, h⟩ := Except.bind_eq_ok h
    obtain ⟨others, hothers, h⟩ := Except.bind_eq_ok h
    rw [compileFrom, Except.bind_of_ok (Song.compile_of_limit_le hle hc),
      Except.bind_of_ok (ih hothers)]
    exact h

theorem image_of_compileFrom {bank : SoundBank} (hcount : bank.songs.length ≤ songLimit)
    (h : compileFrom bank.limit bank.indexSize bank.songs = .ok compiled) :
    bank.image = .ok (index compiled ++ bytes compiled) := by
  have hsongs : bank.compileSongs = .ok compiled := by
    rw [compileSongs, if_neg (Nat.not_lt.mpr hcount), h]
  exact Except.bind_of_ok hsongs

/-- **The size budget.** A song is refused for one structural fault at every
address and limit, or it has one size and compiles exactly if its data end
within the limit. A bank of songs without such faults has data exactly if the
index and all songs together are within the limit; they have this size, and
any larger limit gives the same data. -/
theorem image_budget :
    (∀ song : Song, (∃ e, song.RefusedFor e) ∨ song.Takes song.size) ∧
    ∀ bank : SoundBank, 1 ≤ bank.songs.length → bank.songs.length ≤ songLimit →
      (∀ song ∈ bank.songs, song.Faultless) →
      ((∃ image, bank.image = .ok image) ↔
        1 + 2 * bank.songs.length + (bank.songs.map Song.size).sum ≤
          min bank.limit Song.addressSpace) ∧
      ∀ image, bank.image = .ok image →
        image.length = 1 + 2 * bank.songs.length + (bank.songs.map Song.size).sum ∧
        ∀ limit, bank.limit ≤ limit → ({ bank with limit := limit } : SoundBank).image = .ok image := by
  refine ⟨Song.refusedFor_or_takes, fun bank hpos hcount hsongs => ⟨⟨?_, ?_⟩, ?_⟩⟩
  · rintro ⟨image, h⟩
    obtain ⟨-, compiled, hcompiled, -⟩ := image_eq_ok h
    have hne : bank.songs ≠ [] := List.length_pos_iff.mp hpos
    have hle := end_le_of_compileFrom hcompiled hne
    rw [indexSize, totalSize] at hle
    omega
  · intro hle
    have hfits : bank.indexSize + totalSize bank.songs ≤ min bank.limit Song.addressSpace := by
      rw [indexSize, totalSize]
      omega
    obtain ⟨compiled, hcompiled⟩ := compileFrom_of_le hsongs hfits
    exact ⟨_, image_of_compileFrom hcount hcompiled⟩
  · intro image h
    obtain ⟨-, compiled, hcompiled, rfl⟩ := image_eq_ok h
    constructor
    · rw [List.length_append, length_index, length_compileFrom hcompiled,
        length_bytes_compileFrom hcompiled, totalSize]
      omega
    · intro limit hle
      let larger : SoundBank := { bank with limit := limit }
      have hlarger : compileFrom larger.limit larger.indexSize larger.songs = .ok compiled :=
        compileFrom_of_limit_le hle hcompiled
      exact image_of_compileFrom hcount hlarger

/-- Two small songs under a limit. -/
def turningTwice (limit : Nat) : SoundBank := { songs := [.turning, .turning], limit := limit }

theorem image_budget_turning :
    (∃ image, (turningTwice 169).image = .ok image ∧ image.length = 169 ∧
      (turningTwice 30720).image = .ok image) ∧
    ¬ ∃ image, (turningTwice 168).image = .ok image := by
  have hsize : Song.turning.size = 82 := by decide +kernel
  have htakes : Song.turning.Takes Song.turning.size := by
    rcases image_budget.1 Song.turning with ⟨e, hstructural, hrefused⟩ | htakes
    · have herror := hrefused 0 0 (by decide +kernel)
      have hcompile : outcome (Song.turning.compile 0 0) = .error (.dataOverflow 82 0) := by
        decide +kernel
      rw [herror] at hcompile
      obtain rfl := Except.error.inj hcompile
      exact absurd hstructural id
    · exact htakes
  have hsongs : ∀ limit, ∀ song ∈ (turningTwice limit).songs, song.Faultless := by
    intro limit song hs
    obtain rfl : song = .turning := by simpa [turningTwice] using hs
    exact Song.faultless_of_takes htakes
  have hbudget := fun limit => image_budget.2 (turningTwice limit) (Nat.le_of_ble_eq_true rfl)
    (Nat.le_of_ble_eq_true rfl) (hsongs limit)
  have htotal : ∀ limit, 1 + 2 * (turningTwice limit).songs.length +
      ((turningTwice limit).songs.map Song.size).sum = 169 := by
    intro limit
    simp [turningTwice, hsize]
  simp only [htotal] at hbudget
  obtain ⟨image, himage⟩ := (hbudget 169).1.mpr (Nat.le_of_ble_eq_true rfl)
  obtain ⟨hlength, hlarger⟩ := (hbudget 169).2 image himage
  refine ⟨⟨image, himage, hlength, hlarger 30720 (Nat.le_of_ble_eq_true rfl)⟩, fun hover => ?_⟩
  exact absurd ((hbudget 168).1.mp hover) (by decide)

end SoundBank
end Chiptune
