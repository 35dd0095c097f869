/-
# Jumps that wait for their row

The lists of a song are placed in steps (`Placement`): a list starts, a row is
placed, an event is placed, a list ends. The states in between are the layouts
behind the first steps of a song (`Song.layoutAfter`).

In each of them the fixups stand inside the data (`Layout.PendingSound`): an
opcode and two zero bytes, at least three bytes from one another, for a row
that is not placed yet. So no step leaves the data or the address space
(`Layout.Safe`), and no operand is filled in twice (`Layout.patches`).

All of this is read off the source that the layout holds. A layout with room
for the rest of its source (`Layout.Ready`) stays one from step to step.

Key definitions: `Placement`, `Layout.place`, `Song.placements`,
`Song.layoutAfter`, `Layout.PendingSound`, `Layout.Safe`, `Layout.patches`.
Key theorems: `Layout.placeChannels_eq`, `Layout.Ready.placeAll`,
`Layout.Assembled.pendingSound`, `Layout.Ready.safe`,
`Layout.Ready.nodup_patches`, `Song.pendingJumps_sound`.
-/
import Chiptune.Proofs.SizeBudget
import Mathlib.Data.List.Nodup

namespace Chiptune

/-! ### Steps -/

/-- A step of placing the lists of a song. -/
inductive Placement where
  /-- A list starts; the index counts sub-patterns. -/
  | opening (channel index : Nat) (list : EventList)
  | row (channel row : Nat)
  | event (channel : Nat) (event : Event)
  /-- A list ends. -/
  | closing

/-- The source of a step. -/
def Placement.source : Placement → List Item
  | .opening channel index list => [.mark (list.label channel index)]
  | .row channel r => [.mark (.matrixRow channel r)]
  | .event channel e => e.source channel
  | .closing => []

namespace Layout

/-- Takes a step. -/
def place (l : Layout) : Placement → Except Error Layout
  | .opening channel index list => l.define (list.label channel index)
  | .row channel row => l.placeRow channel row
  | .event channel event => l.placeEvent channel event
  | .closing => l.here >>= fun _ => .ok l

/-- Takes steps. -/
def placeAll (l : Layout) : List Placement → Except Error Layout
  | [] => .ok l
  | step :: rest => do
    let l ← l.place step
    placeAll l rest

end Layout

/-- The steps of events; `row` is the next row of the pattern matrix. -/
def Event.placements (channel row : Nat) : List Event → List Placement
  | [] => []
  | event :: rest =>
    if Layout.playsRow event.command then
      .row channel row :: .event channel event :: placements channel (row + 1) rest
    else .event channel event :: placements channel row rest

/-- The steps of a list. -/
def EventList.placements (channel index : Nat) (list : EventList) : List Placement :=
  .opening channel index list :: (Event.placements channel 0 list.events ++ [.closing])

/-- The steps of sub-patterns, the first one with an index. -/
def EventList.placementsAll (channel index : Nat) : List EventList → List Placement
  | [] => []
  | list :: rest => list.placements channel index ++ placementsAll channel (index + 1) rest

/-- The steps of channels, the first one with an index. -/
def ChannelTrack.placementsAll (channel : Nat) : List (Option ChannelTrack) → List Placement
  | [] => []
  | none :: rest => placementsAll (channel + 1) rest
  | some track :: rest => EventList.placementsAll channel 0 track.subPatterns ++
    (track.events.placements channel 0 ++ placementsAll (channel + 1) rest)

namespace Song

/-- The steps of the lists of a song. -/
def placements (song : Song) : List Placement := ChannelTrack.placementsAll 0 song.channels.toList

/-- The layout of a song behind its tables, its instrument records and steps. -/
def layoutAfter (song : Song) (base : Nat) (steps : List Placement) : Except Error Layout := do
  let l ← Layout.placeTables { base := base } 0 song.tables
  let l ← l.define .instruments
  let l ← l.placeRecords song.instruments
  l.placeAll steps

end Song

namespace Layout

theorem placeAll_append (as bs : List Placement) (l : Layout) :
    l.placeAll (as ++ bs) = (l.placeAll as >>= fun m => m.placeAll bs) := by
  induction as generalizing l with
  | nil => rfl
  | cons step rest ih =>
    rw [List.cons_append, placeAll, placeAll, bind_assoc]
    simp only [ih]

theorem placeEvents_eq (channel : Nat) : ∀ (events : List Event) (l : Layout) (row : Nat),
    l.placeEvents channel row events = l.placeAll (Event.placements channel row events)
  | [], _, _ => rfl
  | event :: rest, l, row => by
    unfold placeEvents Event.placements
    split
    · simp only [placeAll, place, placeEvents_eq channel rest]
    · simp only [placeAll, place, placeEvents_eq channel rest]

theorem placeList_eq (l : Layout) (channel index : Nat) (list : EventList) :
    l.placeList channel index list = l.placeAll (list.placements channel index) := by
  have hclosing : ∀ m : Layout, m.placeAll [.closing] = (m.here >>= fun _ => .ok m) := by
    intro m
    unfold placeAll place
    cases m.here <;> rfl
  rw [placeList, EventList.placements, placeAll, place]
  simp only [placeAll_append, hclosing, placeEvents_eq]

theorem placeSubPatterns_eq (channel : Nat) : ∀ (lists : List EventList) (l : Layout) (index : Nat),
    l.placeSubPatterns channel index lists = l.placeAll (EventList.placementsAll channel index lists)
  | [], _, _ => rfl
  | list :: rest, l, index => by
    unfold placeSubPatterns EventList.placementsAll
    simp only [placeAll_append, placeList_eq, placeSubPatterns_eq channel rest]

/-- Placing the lists of channels takes their steps. -/
theorem placeChannels_eq : ∀ (tracks : List (Option ChannelTrack)) (l : Layout) (channel : Nat),
    l.placeChannels channel tracks = l.placeAll (ChannelTrack.placementsAll channel tracks)
  | [], _, _ => rfl
  | none :: rest, l, channel => by
    unfold placeChannels ChannelTrack.placementsAll
    exact placeChannels_eq rest l (channel + 1)
  | some track :: rest, l, channel => by
    unfold placeChannels ChannelTrack.placementsAll
    simp only [placeAll_append, placeSubPatterns_eq, placeList_eq, placeChannels_eq rest]

end Layout

/-! ### The source of the steps -/

theorem Event.flatMap_source_placements (channel : Nat) : ∀ (events : List Event) (row : Nat),
    (placements channel row events).flatMap Placement.source = sourceAll channel row events
  | [], _ => rfl
  | event :: rest, row => by
    unfold placements sourceAll
    split
    · simp [Placement.source, flatMap_source_placements channel rest]
    · simp [Placement.source, flatMap_source_placements channel rest]

theorem EventList.flatMap_source_placements (channel index : Nat) (list : EventList) :
    (list.placements channel index).flatMap Placement.source = list.source channel index := by
  simp [placements, source, Placement.source, Event.flatMap_source_placements]

theorem EventList.flatMap_source_placementsAll (channel : Nat) :
    ∀ (lists : List EventList) (index : Nat),
      (placementsAll channel index lists).flatMap Placement.source = sourceAll channel index lists
  | [], _ => rfl
  | list :: rest, index => by
    rw [placementsAll, sourceAll, List.flatMap_append, flatMap_source_placements,
      flatMap_source_placementsAll channel rest]

theorem ChannelTrack.flatMap_source_placementsAll :
    ∀ (tracks : List (Option ChannelTrack)) (channel : Nat),
      (placementsAll channel tracks).flatMap Placement.source = sourceAll channel tracks
  | [], _ => rfl
  | none :: rest, channel => flatMap_source_placementsAll rest (channel + 1)
  | some track :: rest, channel => by
    rw [placementsAll, sourceAll, source, List.flatMap_append, List.flatMap_append,
      EventList.flatMap_source_placementsAll, EventList.flatMap_source_placements,
      flatMap_source_placementsAll rest, List.append_assoc]

namespace Layout

variable {l m : Layout} {items part more : List Item} {step : Placement}

theorem place_extends (h : l.place step = .ok m) : l.Extends m step.source := by
  cases step with
  | opening channel index list => exact Extends.define (label_ne_matrixRow list channel index) h
  | row channel row => exact placeRow_extends h
  | event channel event => exact placeEvent_extends h
  | closing =>
    obtain ⟨_, -, h⟩ := Except.bind_eq_ok h
    obtain rfl := Except.ok.inj h
    exact .refl l

theorem base_placeAll {steps : List Placement} (h : l.placeAll steps = .ok m) : m.base = l.base := by
  induction steps generalizing l with
  | nil =>
    obtain rfl := Except.ok.inj h
    rfl
  | cons step rest ih =>
    obtain ⟨l', hl', h⟩ := Except.bind_eq_ok h
    exact (ih h).trans (place_extends hl').base

theorem place_follows (l : Layout) (step : Placement) : l.Follows step.source (l.place step) := by
  cases step with
  | opening channel index list => exact .define l _
  | row channel row => exact placeRow_follows l channel row
  | event channel event => exact placeEvent_follows l channel event
  | closing => exact .here l

/-! ### Layouts with room for the rest -/

/-- A layout that holds the data of a source and has signed addresses for those
that follow, up to their first fault. -/
structure Ready (l : Layout) (items more : List Item) : Prop where
  assembled : l.Assembled items
  fits : ((l.base + (survey items).reach more : Nat) : Int) < Address.signedLimit

namespace Ready

/-- A part of the rest is placed. -/
theorem follow {r : Except Error Layout} (h : l.Ready items (part ++ more)) (hr : l.Follows part r)
    (hext : r = .ok m → l.Extends m part) (hm : r = .ok m) : m.Ready (items ++ part) more := by
  obtain ⟨hassembled, hfits⟩ := hr.carry (hext hm) hm h.assembled h.fits
  exact ⟨hassembled, hfits⟩

theorem place (h : l.Ready items (step.source ++ more)) (hm : l.place step = .ok m) :
    m.Ready (items ++ step.source) more := h.follow (place_follows l step) place_extends hm

/-- Steps are taken. -/
theorem placeAll {steps : List Placement}
    (h : l.Ready items (steps.flatMap Placement.source ++ more)) (hm : l.placeAll steps = .ok m) :
    m.Ready (items ++ steps.flatMap Placement.source) more := by
  induction steps generalizing l items with
  | nil =>
    obtain rfl := Except.ok.inj hm
    rwa [List.flatMap_nil, List.append_nil]
  | cons step rest ih =>
    obtain ⟨l', hl', hm⟩ := Except.bind_eq_ok hm
    rw [List.flatMap_cons, List.append_assoc] at h
    rw [List.flatMap_cons, ← List.append_assoc]
    exact ih (h.place hl') hm

/-- A step fails for a structural fault only. -/
theorem structural_of_place (h : l.Ready items (step.source ++ more)) {e : Error}
    (he : l.place step = .error e) : e.Structural := by
  have hgrows := Survey.reach_le_append (survey items) step.source more
  have hfits := h.fits
  have hcheck := place_follows l step items h.assembled (by omega)
  rw [he] at hcheck
  exact Survey.structural_of_check hcheck.symm

end Ready

/-! ### Pending jumps -/

/-- The fixups of a layout: inside the data, each the zero operand of a long
jump to a row without a label, and in order with room for a jump between two. -/
structure PendingSound (l : Layout) : Prop where
  inside : ∀ f ∈ l.pending, l.base < f.site ∧ f.site + 1 < l.address
  holds : ∀ f ∈ l.pending, Reader.Holds l.bytes (f.site - l.base - 1) [0x0A, 0x00, 0x00]
  undefined : ∀ f ∈ l.pending, l.labels.contains (.matrixRow f.channel f.row) = false
  apart : l.pending.Pairwise fun f g => f.site + 3 ≤ g.site

end Layout

theorem mem_walk_fixups {base : Nat} {f : Fixup} {items : List Item} {s : Survey}
    (h : f ∈ walk (Item.fixups base) s items) :
    ∃ as bs, items = as ++ .jump f.channel f.row :: bs ∧ f.site = base + ((s.run as).offset + 1) := by
  obtain ⟨as, item, bs, heq, hf⟩ := mem_walk.mp h
  cases item with
  | jump channel row =>
    obtain rfl := List.mem_singleton.mp hf
    exact ⟨as, bs, heq, rfl⟩
  | mark label => cases hf
  | bytes bs => cases hf
  | pointer label => cases hf

/-- Jumps to rows without a mark are long, so their operands are apart. -/
theorem pairwise_fixups (base : Nat) : ∀ (items : List Item) (s : Survey),
    ((walk (Item.fixups base) s items).filter fun f => ((s.run items).marks f.label).isNone).Pairwise
      fun f g => f.site + 3 ≤ g.site
  | [], _ => List.Pairwise.nil
  | item :: items, s => by
    rw [walk_cons, List.filter_append, List.pairwise_append]
    refine ⟨?_, pairwise_fixups base items (s.step item), fun f hf g hg => ?_⟩
    · apply List.Pairwise.filter
      cases item <;> simp [Item.fixups]
    · obtain ⟨hf, hnone⟩ := List.mem_filter.mp hf
      obtain ⟨as, bs, -, hg⟩ := mem_walk_fixups (List.mem_filter.mp hg).1
      have hgrows := Survey.offset_le_run (s.step item) as
      cases item with
      | jump channel row =>
        obtain rfl := List.mem_singleton.mp hf
        have hmarks : s.marks (.matrixRow channel row) = none :=
          (Survey.run_marks_eq_none.mp (Option.isNone_iff_eq_none.mp hnone)).1
        have hlong : (s.step (.jump channel row)).offset = s.offset + 3 := by
          show s.offset + Item.size s (.jump channel row) = _
          rw [Item.size, Survey.near?_eq_none_of_marks hmarks]
          rfl
        rw [hlong] at hgrows
        rw [hg]
        show base + (s.offset + 1) + 3 ≤ _
        omega
      | mark label => cases hf
      | bytes bs => cases hf
      | pointer label => cases hf

namespace Layout

variable {l m : Layout} {items more : List Item} {step : Placement} {f g : Fixup}

/-- A fixup is a jump of the source to a row without a mark. -/
theorem Assembled.mem_pending (ha : l.Assembled items) (hf : f ∈ l.pending) :
    (survey items).marks f.label = none ∧ ∃ as bs, items = as ++ .jump f.channel f.row :: bs ∧
      f.site = l.base + ((survey as).offset + 1) := by
  rw [ha.pending, List.mem_filter, Option.isNone_iff_eq_none] at hf
  exact ⟨hf.2, mem_walk_fixups hf.1⟩

/-- The data hold a long jump with a zero operand at each fixup. -/
theorem Assembled.holds_pending (ha : l.Assembled items) (hf : f ∈ l.pending) :
    ∃ o, f.site = l.base + (o + 1) ∧ Reader.Holds l.bytes o [0x0A, 0x00, 0x00] := by
  obtain ⟨hnone, as, bs, heq, hsite⟩ := ha.mem_pending hf
  have hbefore : (survey as).marks f.label = none := by
    rw [heq, survey_append] at hnone
    exact (Survey.run_marks_eq_none.mp hnone).1
  have hemit : (Item.jump f.channel f.row).emit l.base (survey items).marks (survey as) =
      [0x0A, 0x00, 0x00] := by
    have hzero : Word.address 0 = [0x00, 0x00] := by decide
    unfold Fixup.label at hbefore hnone
    simp only [Item.emit, Survey.near?_eq_none_of_marks hbefore, addressIn_of_none hnone, hzero]
  have hholds := ha.holds (show items = as ++ ([.jump f.channel f.row] ++ bs) from heq)
  rw [walk_cons, walk_nil, List.append_nil, hemit] at hholds
  exact ⟨_, hsite, hholds⟩

/-- **The fixups of a layout that holds the data of a source are sound.** -/
theorem Assembled.pendingSound (ha : l.Assembled items) : l.PendingSound where
  inside f hf := by
    obtain ⟨o, hsite, hholds⟩ := ha.holds_pending hf
    have hle : o + 3 ≤ l.bytes.size := hholds.le_size (List.cons_ne_nil _ _)
    unfold Layout.address
    omega
  holds f hf := by
    obtain ⟨o, hsite, hholds⟩ := ha.holds_pending hf
    rwa [show f.site - l.base - 1 = o by omega]
  undefined f hf := by
    rw [ha.contains, show (survey items).marks (.matrixRow f.channel f.row) = none from
      (ha.mem_pending hf).1]
    rfl
  apart := by
    rw [ha.pending]
    exact pairwise_fixups l.base items {}

/-- A fixup behind a step was there before or is new. -/
theorem Assembled.mem_pending_or (ha : l.Assembled items) (hm : m.Assembled (items ++ more))
    (hbase : m.base = l.base) (hf : f ∈ m.pending) : f ∈ l.pending ∨ l.address < f.site := by
  rw [hm.pending, List.mem_filter, Option.isNone_iff_eq_none, hbase, walk_append,
    List.mem_append, survey_append] at hf
  obtain ⟨hf | hf, hnone⟩ := hf
  · left
    rw [ha.pending, List.mem_filter, Option.isNone_iff_eq_none]
    exact ⟨hf, (Survey.run_marks_eq_none.mp hnone).1⟩
  · right
    obtain ⟨as, bs, -, hsite⟩ := mem_walk_fixups hf
    have hgrows := Survey.offset_le_run (survey items) as
    rw [ha.address, hsite]
    exact Nat.add_lt_add_left (Nat.lt_succ_of_le hgrows) _

theorem PendingSound.nodup_sites (h : l.PendingSound) : (l.pending.map Fixup.site).Nodup := by
  rw [List.nodup_iff_pairwise_ne, List.pairwise_map]
  exact h.apart.imp fun hle heq => by omega

/-! ### Steps stay inside -/

/-- Each of the fixups can be filled in when its turn comes: the label is
defined, and the operand lies in the data. -/
def Fillable (l : Layout) (label : Label) (due : List Fixup) : Prop :=
  ∀ done f rest, due = done ++ f :: rest → ∃ m target labels, l.fill label done = .ok m ∧
    m.base ≤ f.site ∧ f.site - m.base + 1 < m.bytes.size ∧
    m.labels.reference label f.site = .ok (target, labels)

theorem fillable_of_contains {label : Label} {due : List Fixup}
    (hc : l.labels.contains label = true)
    (hdue : ∀ f ∈ due, l.base ≤ f.site ∧ f.site - l.base + 1 < l.bytes.size) :
    l.Fillable label due := by
  intro done f rest heq
  obtain ⟨m, hm⟩ := fill_of_contains done hc
  obtain ⟨e, he⟩ : ∃ e, l.labels.get? label = some e := by
    rwa [LabelTable.contains_eq_isSome, Option.isSome_iff_exists] at hc
  obtain ⟨hbase, -, hbytes, hlabels⟩ := fill_eq_ok he hm
  have hsize : m.bytes.size = l.bytes.size := by rw [hbytes, size_foldl_store]
  have hcm : m.labels.contains label = true := by
    rw [LabelTable.contains_eq_isSome, hlabels, if_pos rfl]
    rfl
  obtain ⟨target, labels, hr⟩ := LabelTable.reference_of_contains hcm f.site
  have hf := hdue f (by rw [heq]; simp)
  refine ⟨m, target, labels, hm, ?_, ?_, hr⟩
  · rw [hbase]
    exact hf.1
  · rw [hbase, hsize]
    exact hf.2

/-- The sites at which a step stores an address. -/
def patched (l : Layout) : Placement → List Nat
  | .row channel row => (l.pending.filter (awaits channel row)).map Fixup.site
  | _ => []

/-- A step leaves neither the address space nor the data. -/
structure Safe (l : Layout) (step : Placement) : Prop where
  addresses : l.place step ≠ .error .addressOverflow
  /-- The operand of a position jump is the last two of its bytes. -/
  operand : ∀ channel row timing bytes labels, step = .event channel ⟨.positionJump row, timing⟩ →
    Event.compile channel l.address l.labels ⟨.positionJump row, timing⟩ = (.ok bytes, labels) →
    2 ≤ bytes.length
  /-- A row that gets its label is placed. -/
  row : ∀ channel row placed, step = .row channel row →
    l.define (.matrixRow channel row) = .ok placed →
    Fillable { placed with pending := (placed.pending.partition (awaits channel row)).2 }
      (.matrixRow channel row) (placed.pending.partition (awaits channel row)).1 ∧
    ∃ m, l.place step = .ok m
  /-- Bytes that are there are changed at the sites only. -/
  stored : ∀ channel row m, step = .row channel row → l.place step = .ok m →
    m.bytes = (l.patched step).foldl (fun bytes site => store bytes (site - l.base) l.address) l.bytes

theorem two_le_length_positionJump {channel row timing address : Nat} {t u : LabelTable}
    {bytes : List UInt8}
    (h : Event.compile channel address t ⟨.positionJump row, timing⟩ = (.ok bytes, u)) :
    2 ≤ bytes.length := by
  obtain ⟨is, hi, rfl⟩ := Except.map_eq_ok
    (Event.instructions channel address t ⟨.positionJump row, timing⟩) h
  obtain ⟨i, hj, rfl⟩ := Event.instructions_eq_ok hi
  have hlength : 2 ≤ i.encode.length := by
    rcases Event.rowJump_eq_ok hj with ⟨-, rfl, -⟩ | ⟨target, d, -, -, -, rfl⟩
    · simp [Instruction.encode]
    · unfold Event.jump
      split <;> simp [Instruction.encode]
  simp [Event.body]
  omega

theorem PendingSound.fillable (h : l.PendingSound) {channel row : Nat} {placed : Layout}
    (hp : l.define (.matrixRow channel row) = .ok placed) :
    Fillable { placed with pending := (placed.pending.partition (awaits channel row)).2 }
      (.matrixRow channel row) (placed.pending.partition (awaits channel row)).1 := by
  obtain ⟨u, hu, rfl⟩ := define_eq_ok hp
  rw [List.partition_eq_filter_filter]
  apply fillable_of_contains
  · exact LabelTable.contains_of_define hu
  · intro f hf
    have hinside := h.inside f (List.mem_filter.mp hf).1
    unfold Layout.address at hinside
    show l.base ≤ f.site ∧ f.site - l.base + 1 < l.bytes.size
    omega

theorem bytes_placeRow {channel row : Nat} (h : l.placeRow channel row = .ok m) :
    m.bytes = (l.patched (.row channel row)).foldl
      (fun bytes site => store bytes (site - l.base) l.address) l.bytes := by
  obtain ⟨placed, hp, h⟩ := Except.bind_eq_ok h
  obtain ⟨u, hu, rfl⟩ := define_eq_ok hp
  rw [List.partition_eq_filter_filter] at h
  have hself := (LabelTable.define_eq_ok hu).2 (.matrixRow channel row)
  rw [if_pos rfl] at hself
  rw [(fill_eq_ok hself h).2.2.1, patched, List.foldl_map]

/-- **Every step is safe** while there is room for it. -/
theorem Ready.safe (h : l.Ready items (step.source ++ more)) : l.Safe step where
  addresses he := h.structural_of_place he
  operand _ _ _ _ _ _ hcode := two_le_length_positionJump hcode
  row channel row placed heq hp := by
    subst heq
    exact ⟨h.assembled.pendingSound.fillable hp, placeRow_of_define hp⟩
  stored channel row m heq hm := by
    subst heq
    exact bytes_placeRow hm

/-! ### Sites are filled in once -/

/-- The sites at which steps store addresses, one after another. -/
def patches (l : Layout) : List Placement → List Nat
  | [] => []
  | step :: rest =>
    match l.place step with
    | .ok m => l.patched step ++ m.patches rest
    | .error _ => []

theorem mem_patched {site : Nat} (h : site ∈ l.patched step) :
    ∃ f ∈ l.pending, f.site = site ∧ step = .row f.channel f.row := by
  cases step with
  | row channel row =>
    obtain ⟨f, hf, rfl⟩ := List.mem_map.mp h
    obtain ⟨hpending, hawaits⟩ := List.mem_filter.mp hf
    obtain ⟨rfl, rfl⟩ := Label.matrixRow.inj (awaits_iff.mp hawaits)
    exact ⟨f, hpending, rfl, rfl⟩
  | opening channel index list => cases h
  | event channel event => cases h
  | closing => cases h

theorem PendingSound.nodup_patched (h : l.PendingSound) (step : Placement) :
    (l.patched step).Nodup := by
  cases step with
  | row channel row => exact h.nodup_sites.sublist (List.filter_sublist.map Fixup.site)
  | opening channel index list => exact List.nodup_nil
  | event channel event => exact List.nodup_nil
  | closing => exact List.nodup_nil

/-- A fixup that was filled in is not pending any more, and no new one has its
site. -/
theorem Ready.patched_ne (h : l.Ready items (step.source ++ more)) (hm : l.place step = .ok m)
    {site : Nat} (hs : site ∈ l.patched step) (hg : g ∈ m.pending) : g.site ≠ site := by
  obtain ⟨f, hf, rfl, rfl⟩ := mem_patched hs
  have hext := place_extends hm
  have hafter := (h.place hm).assembled
  have hsound := h.assembled.pendingSound
  have hinside := hsound.inside f hf
  intro heq
  rcases h.assembled.mem_pending_or hafter hext.base hg with hold | hnew
  · obtain rfl : g = f := List.inj_on_of_nodup_map hsound.nodup_sites hold hf heq
    have hnone := (hafter.mem_pending hg).1
    exact survey_marks_ne_none.mpr (by simp [Placement.source, Fixup.label]) hnone
  · omega

/-- **No site is filled in twice**: the sites that steps fill in are pending at
first, or stand behind. -/
theorem Ready.nodup_patches : ∀ {steps : List Placement} {l : Layout} {items : List Item},
    l.Ready items (steps.flatMap Placement.source) → (l.patches steps).Nodup ∧
      ∀ site ∈ l.patches steps, (∃ f ∈ l.pending, f.site = site) ∨ l.address < site
  | [], _, _, _ => ⟨List.nodup_nil, nofun⟩
  | step :: rest, l, items, h => by
    rw [List.flatMap_cons] at h
    have hsound := h.assembled.pendingSound
    unfold patches
    cases hm : l.place step with
    | error e => exact ⟨List.nodup_nil, nofun⟩
    | ok m =>
      have hext := place_extends hm
      have hgrows := hext.address_le
      obtain ⟨hnodup, hrest⟩ := nodup_patches (h.place hm)
      constructor
      · refine List.nodup_append.mpr ⟨hsound.nodup_patched step, hnodup, ?_⟩
        rintro site hs _ hs' rfl
        rcases hrest site hs' with ⟨g, hg, hsite⟩ | hbehind
        · exact h.patched_ne hm hs hg hsite
        · obtain ⟨f, hf, rfl, -⟩ := mem_patched hs
          have hinside := hsound.inside f hf
          omega
      · intro site hs
        rcases List.mem_append.mp hs with hs | hs
        · obtain ⟨f, hf, hsite, -⟩ := mem_patched hs
          exact .inl ⟨f, hf, hsite⟩
        · rcases hrest site hs with ⟨g, hg, rfl⟩ | hbehind
          · rcases h.assembled.mem_pending_or (h.place hm).assembled hext.base hg with hold | hnew
            · exact .inl ⟨g, hold, rfl⟩
            · exact .inr hnew
          · exact .inr (Nat.lt_of_le_of_lt hgrows hbehind)

end Layout

/-! ### Songs -/

namespace Song

variable {song : Song} {base : Nat}

/-- Everything before the header is placed in the steps of the song. -/
theorem placeParts_eq (song : Song) (base : Nat) :
    Layout.placeParts song base = song.layoutAfter base song.placements := by
  unfold Layout.placeParts layoutAfter placements
  simp only [Layout.placeChannels_eq]

/-- Behind the instrument records there is room for all steps. -/
theorem layoutAfter_ready (hfits : base + song.laidOut < 2 ^ 63) {steps : List Placement}
    {l : Layout} (h : song.layoutAfter base steps = .ok l) : ∃ start items,
      start.placeAll steps = .ok l ∧ song.layoutAfter base [] = .ok start ∧ start.base = base ∧
      start.Ready items (song.placements.flatMap Placement.source) := by
  obtain ⟨l₁, h₁, h⟩ := Except.bind_eq_ok h
  obtain ⟨l₂, h₂, h⟩ := Except.bind_eq_ok h
  obtain ⟨l₃, h₃, h⟩ := Except.bind_eq_ok h
  have hrow : ∀ c r, Label.instruments ≠ .matrixRow c r := by
    intro c r heq
    cases heq
  have hstart : Layout.Ready { base := base } [] song.bodySource :=
    ⟨Layout.assembled_nil base, fits_of_lt hfits⟩
  have hfirst : l₁.Ready _ ([.mark .instruments] ++ _) :=
    hstart.follow (Layout.placeTables_follows song.tables _ 0) Layout.placeTables_extends h₁
  have hsecond := hfirst.follow (.define l₁ .instruments) (Layout.Extends.define hrow) h₂
  have hthird := hsecond.follow (Layout.placeRecords_follows song.instruments l₂)
    Layout.placeRecords_extends h₃
  rw [← ChannelTrack.flatMap_source_placementsAll] at hthird
  have hbase : l₃.base = base := (Layout.placeRecords_extends h₃).base.trans
    ((Layout.Extends.define hrow h₂).base.trans (Layout.placeTables_extends h₁).base)
  have hnone : song.layoutAfter base [] = .ok l₃ := by
    rw [layoutAfter, Except.bind_of_ok h₁, Except.bind_of_ok h₂, Except.bind_of_ok h₃]
    rfl
  exact ⟨l₃, _, h, hnone, hbase, hthird⟩

/-- A song whose data end at a signed address is not refused for an address. -/
theorem compile_ne_addressOverflow (hfits : base + song.laidOut < 2 ^ 63) (limit : Nat) :
    song.compile base limit ≠ .error .addressOverflow := by
  intro he
  cases hbody : Survey.check {} song.bodySource with
  | error e =>
    obtain rfl := Except.error.inj ((compile_of_fault hbody hfits limit).symm.trans he)
    exact Survey.structural_of_check hbody
  | ok _ =>
    rw [laidOut_of_check hbody] at hfits
    have houtcome := outcome_compile_eq hfits limit
    rw [he] at houtcome
    cases hlabels : song.checkLabels with
    | error e =>
      rw [hlabels] at houtcome
      obtain rfl := Except.error.inj houtcome
      exact structural_of_checkLabels hlabels
    | ok _ =>
      rw [Except.bind_of_ok hlabels, checkEnd] at houtcome
      split at houtcome
      · cases Except.error.inj houtcome
      · cases houtcome

/-- **Pending jumps are sound at every step.** A song whose data end below
`2 ^ 63` is placed in steps, and behind any number of them its fixups are
sound and the next step is safe. No site is filled in twice, and no address
overflows. -/
theorem pendingJumps_sound (hfits : base + song.laidOut < 2 ^ 63) :
    (Layout.placeBody song base = song.layoutAfter base song.placements >>= fun l =>
      l.checkResolved >>= fun _ => .ok l) ∧
    (∀ before after l, song.placements = before ++ after → song.layoutAfter base before = .ok l →
      l.base = base ∧ l.PendingSound ∧ ∀ step rest, after = step :: rest → l.Safe step) ∧
    (∀ l, song.layoutAfter base [] = .ok l → (l.patches song.placements).Nodup) ∧
    ∀ limit, song.compile base limit ≠ .error .addressOverflow := by
  refine ⟨?_, fun before after l hsteps h => ?_, fun l h => ?_, compile_ne_addressOverflow hfits⟩
  · rw [Layout.placeBody_eq, placeParts_eq]
  · obtain ⟨start, items, hl, -, hbase, hready⟩ := layoutAfter_ready hfits h
    rw [hsteps, List.flatMap_append] at hready
    have hready := hready.placeAll hl
    refine ⟨?_, hready.assembled.pendingSound, fun step rest hafter => ?_⟩
    · rw [← hbase]
      exact Layout.base_placeAll hl
    · rw [hafter, List.flatMap_cons] at hready
      exact hready.safe
  · obtain ⟨start, items, -, hstart, -, hready⟩ := layoutAfter_ready hfits h
    obtain rfl := Except.ok.inj (hstart.symm.trans h)
    exact hready.nodup_patches.1

/-- The jump of the small song's sub-pattern waits while its main list is
placed, until row 1 fills it in. -/
theorem pendingJumps_sound_turning :
    3 + turning.laidOut < 2 ^ 63 ∧
    (∃ l, turning.layoutAfter 3 (turning.placements.take 8) = .ok l ∧ l.pending = [⟨2, 1, 40⟩] ∧
      l.base = 3 ∧ l.PendingSound ∧ l.patched (.row 2 1) = [40] ∧ l.Safe (.row 2 1)) ∧
    (∃ l, turning.layoutAfter 3 [] = .ok l ∧ l.patches turning.placements = [40] ∧
      (l.patches turning.placements).Nodup) ∧
    turning.compile 3 defaultLimit ≠ .error .addressOverflow := by
  have hfits : 3 + turning.laidOut < 2 ^ 63 := by decide +kernel
  obtain ⟨-, hsteps, hnodup, hcompile⟩ := pendingJumps_sound hfits
  have hpending : (turning.layoutAfter 3 (turning.placements.take 8)).map Layout.pending =
      .ok [⟨2, 1, 40⟩] := by decide +kernel
  have hpatches : (turning.layoutAfter 3 []).map (·.patches turning.placements) = .ok [40] := by
    decide +kernel
  refine ⟨hfits, ?_, ?_, hcompile defaultLimit⟩
  · cases h : turning.layoutAfter 3 (turning.placements.take 8) with
    | error e =>
      rw [h] at hpending
      cases hpending
    | ok l =>
      rw [h] at hpending
      have hpending : l.pending = [⟨2, 1, 40⟩] := Except.ok.inj hpending
      obtain ⟨hbase, hsound, hsafe⟩ := hsteps _ _ l (List.take_append_drop 8 _).symm h
      refine ⟨l, rfl, hpending, hbase, hsound, ?_, hsafe (.row 2 1) _ rfl⟩
      rw [Layout.patched, hpending]
      rfl
  · cases h : turning.layoutAfter 3 [] with
    | error e =>
      rw [h] at hpatches
      cases hpatches
    | ok l =>
      rw [h] at hpatches
      exact ⟨l, rfl, Except.ok.inj hpatches, hnodup l h⟩

end Song
end Chiptune
