/-
# When a song can be laid out

A source has a fault where it marks a label again, and where it points to a
label that is not marked before (`Item.faults`). Placing a part of a song
behind a layout fails exactly if the source of the part has a fault there, and
it fails with the first one (`Layout.Follows`). All addresses up to that fault
(`Survey.reach`) are taken to be signed words; beyond them a placement may fail
for its address.

Fixups and the size of the data are looked at behind the lists and at the end.
So whether and how a song fails to compile is known from its source
(`Song.outcome_compile`).

Key definitions: `Item.undefined`, `Item.faults`, `Survey.check`,
`Survey.reach`, `outcome`, `Layout.Follows`, `Layout.Knows`, `Song.bodySize`,
`Song.unresolved`.
Key theorems: `Survey.check_append`, `Layout.Follows.bind`,
`Layout.placeEvent_follows`, `Layout.placeParts_follows`,
`Layout.outcome_placeHeader`, `Song.outcome_compile`.
-/
import Chiptune.Proofs.SongSource

namespace Chiptune

/-- The label that an item points to before it is marked. -/
def Item.undefined (s : Survey) : Item → List Label
  | .pointer label => if (s.marks label).isSome then [] else [label]
  | _ => []

/-- What is wrong with an item at its place. -/
def Item.faults (s : Survey) : Item → List Error
  | .mark label => if (s.marks label).isSome then [.duplicateLabel label] else []
  | item => (item.undefined s).map .undefinedLabel

/-- Fails with the first of the errors. -/
def firstOf : List Error → Except Error Unit
  | [] => .ok ()
  | e :: _ => .error e

/-- Fails with the first fault of items. -/
def Survey.check (s : Survey) (items : List Item) : Except Error Unit :=
  firstOf (walk Item.faults s items)

theorem firstOf_append (as bs : List Error) :
    firstOf (as ++ bs) = (firstOf as >>= fun _ => firstOf bs) := by
  cases as <;> rfl

theorem firstOf_eq_ok {es : List Error} : firstOf es = .ok () ↔ es = [] := by
  cases es <;> simp [firstOf]

theorem Survey.check_append (s : Survey) (as bs : List Item) :
    s.check (as ++ bs) = (s.check as >>= fun _ => (s.run as).check bs) := by
  rw [check, walk_append, firstOf_append]
  rfl

/-- How far items are laid out: the offset of the first fault, or of the end. -/
def Survey.reach (s : Survey) : List Item → Nat
  | [] => s.offset
  | item :: rest => if item.faults s = [] then (s.step item).reach rest else s.offset

theorem Survey.offset_le_reach (s : Survey) (items : List Item) : s.offset ≤ s.reach items := by
  induction items generalizing s with
  | nil => exact Nat.le_refl _
  | cons item rest ih =>
    rw [reach]
    split
    · exact Nat.le_trans (Nat.le_add_right _ _) (ih (s.step item))
    · exact Nat.le_refl _

theorem Survey.reach_le_run (s : Survey) (items : List Item) :
    s.reach items ≤ (s.run items).offset := by
  induction items generalizing s with
  | nil => exact Nat.le_refl _
  | cons item rest ih =>
    rw [reach, run_cons]
    split
    · exact ih (s.step item)
    · exact offset_le_run s (item :: rest)

/-- Items behind others are reached if these have no fault. -/
theorem Survey.reach_append (s : Survey) (as bs : List Item) : s.reach (as ++ bs) =
    match s.check as with
    | .ok _ => (s.run as).reach bs
    | .error _ => s.reach as := by
  induction as generalizing s with
  | nil => rfl
  | cons a as ih =>
    rw [List.cons_append, reach, reach, check, walk_cons]
    cases hf : a.faults s with
    | nil => exact ih (s.step a)
    | cons e es => rfl

theorem Survey.reach_of_check {s : Survey} {items : List Item} (h : s.check items = .ok ()) :
    s.reach items = (s.run items).offset := by
  have happend := s.reach_append items []
  rwa [List.append_nil, h] at happend

theorem Survey.reach_le_append (s : Survey) (as bs : List Item) :
    s.reach as ≤ s.reach (as ++ bs) := by
  rw [reach_append]
  cases hc : s.check as with
  | error e => exact Nat.le_refl _
  | ok _ =>
    rw [reach_of_check hc]
    exact offset_le_reach ..

/-- A result without its value. -/
def outcome {α : Type} (r : Except Error α) : Except Error Unit := r.map fun _ => ()

theorem exists_of_outcome {α : Type} {r : Except Error α} (h : outcome r = .ok ()) :
    ∃ a, r = .ok a := by
  cases r with
  | error e => cases h
  | ok a => exact ⟨a, rfl⟩

theorem eq_error_of_outcome {α : Type} {r : Except Error α} {e : Error}
    (h : outcome r = .error e) : r = .error e := by
  cases r with
  | error e' => exact congrArg Except.error (Except.error.inj h)
  | ok a => cases h

theorem outcome_unit (r : Except Error Unit) : outcome r = r := by
  cases r <;> rfl

theorem outcome_map {α β : Type} (f : α → β) (r : Except Error α) :
    outcome (r.map f) = outcome r := by
  cases r <;> rfl

theorem outcome_bind {α β : Type} {r : Except Error α} {next : α → Except Error β}
    {after : Except Error Unit} (h : ∀ a, r = .ok a → outcome (next a) = after) :
    outcome (r >>= next) = (outcome r >>= fun _ => after) := by
  cases r with
  | error e => rfl
  | ok a => exact h a rfl

/-! ### Layouts that fail as their source does -/

namespace Layout

variable {l : Layout} {items more : List Item} {channel : Nat}

/-- The result of placing something behind a layout: it fails as its source
does, as long as the addresses up to there are signed words. -/
def Follows (l : Layout) (items : List Item) (r : Except Error Layout) : Prop :=
  ∀ before, l.Assembled before →
    ((l.base + (survey before).reach items : Nat) : Int) < Address.signedLimit →
    outcome r = (survey before).check items

theorem here_of_lt (h : (l.address : Int) < Address.signedLimit) : l.here = .ok l.address := by
  apply Address.advance_eq_ok
  unfold Layout.address Address.signedLimit at h
  unfold Address.limit
  omega

theorem Assembled.address_lt {before : List Item} (ha : l.Assembled before)
    (hfits : ((l.base + (survey before).reach items : Nat) : Int) < Address.signedLimit) :
    (l.address : Int) < Address.signedLimit := by
  have hgrows := Survey.offset_le_reach (survey before) items
  rw [ha.address]
  omega

theorem advance_of_lt {address count : Nat}
    (h : ((address + count : Nat) : Int) < Address.signedLimit) :
    Address.advance address count = .ok (address + count) := by
  apply Address.advance_eq_ok
  unfold Address.signedLimit at h
  unfold Address.limit
  omega

namespace Follows

theorem refl (l : Layout) : l.Follows [] (.ok l) := fun _ _ _ => rfl

/-- Where something was placed, its source has no fault, and the items behind
it are reached from there. -/
theorem carry {m : Layout} {r : Except Error Layout} {before : List Item} (hr : l.Follows items r)
    (hext : l.Extends m items) (hm : r = .ok m) (ha : l.Assembled before)
    (hfits : ((l.base + (survey before).reach (items ++ more) : Nat) : Int) < Address.signedLimit) :
    m.Assembled (before ++ items) ∧
      ((m.base + (survey (before ++ items)).reach more : Nat) : Int) < Address.signedLimit := by
  have hgrows := Survey.reach_le_append (survey before) items more
  have hcheck : (survey before).check items = .ok () := by
    rw [← hr before ha (by omega), hm]
    rfl
  have hreach : (survey before).reach (items ++ more) = (survey (before ++ items)).reach more := by
    rw [Survey.reach_append, hcheck, survey_append]
  have hstart := Survey.offset_le_reach (survey (before ++ items)) more
  refine ⟨hext.assembled (.inr (by omega)) ha, ?_⟩
  rwa [hext.base, ← hreach]

/-- One step after another. -/
theorem bind (items : List Item) {r : Except Error Layout}
    {next : Layout → Except Error Layout} (hr : l.Follows items r)
    (hext : ∀ {m}, r = .ok m → l.Extends m items)
    (hnext : ∀ m : Layout, m.Follows more (next m)) : l.Follows (items ++ more) (r >>= next) := by
  intro before ha hfits
  have hgrows := Survey.reach_le_append (survey before) items more
  have hfirst := hr before ha (by omega)
  rw [Survey.check_append, ← hfirst]
  cases r with
  | error e => rfl
  | ok m =>
    obtain ⟨hm, hrest⟩ := hr.carry (hext rfl) rfl ha hfits
    rw [← survey_append]
    exact hnext m (before ++ items) hm hrest

theorem define (l : Layout) (label : Label) : l.Follows [.mark label] (l.define label) := by
  intro before ha hfits
  have hdef : l.define label = (l.labels.define label l.address >>= fun labels =>
      .ok { l with labels := labels }) := Except.bind_of_ok (here_of_lt (ha.address_lt hfits))
  have hcheck : (survey before).check [.mark label] =
      if l.labels.contains label then .error (.duplicateLabel label) else .ok () := by
    rw [ha.contains, Survey.check, walk_cons, walk_nil, List.append_nil, Item.faults]
    split <;> rfl
  rw [hdef, hcheck]
  cases hc : l.labels.contains label with
  | true =>
    rw [LabelTable.define, hc]
    rfl
  | false =>
    obtain ⟨u, hu⟩ := LabelTable.define_of_not_contains hc l.address
    rw [hu]
    rfl

end Follows

/-! ### Pointers -/

/-- A label table that defines the labels that a survey has marked. -/
def Knows (labels : LabelTable) (s : Survey) : Prop :=
  ∀ x, labels.contains x = (s.marks x).isSome

namespace Knows

variable {labels u : LabelTable} {s : Survey} {label : Label}

theorem bytes (hs : Knows labels s) (bs : List UInt8) : Knows labels (s.step (.bytes bs)) := by
  intro x
  rw [hs, Survey.step_marks rfl]

theorem pointer {site target : Nat} (hs : Knows labels s)
    (h : labels.reference label site = .ok (target, u)) : Knows u (s.step (.pointer label)) := by
  intro x
  rw [LabelTable.contains_of_reference h, hs, Survey.step_marks rfl]

/-- A reference fails as a pointer does. -/
theorem outcome_reference (hs : Knows labels s) (label : Label) (site : Nat) :
    outcome (labels.reference label site) = s.check [.pointer label] := by
  have hfaults : (Item.pointer label).faults s =
      (if labels.contains label then [] else [label]).map .undefinedLabel := by
    rw [hs]
    rfl
  rw [Survey.check, walk_cons, walk_nil, List.append_nil, hfaults]
  cases hc : labels.contains label with
  | true =>
    obtain ⟨target, u, hr⟩ := LabelTable.reference_of_contains hc site
    rw [hr]
    rfl
  | false =>
    rw [LabelTable.reference_of_not_contains hc]
    rfl

end Knows

/-! ### Placing events -/

theorem fill_of_contains {label : Label} : ∀ (due : List Fixup) {l : Layout},
    l.labels.contains label = true → ∃ l', l.fill label due = .ok l'
  | [], l, _ => ⟨l, rfl⟩
  | fixup :: due, l, hc => by
    obtain ⟨target, u, hr⟩ := LabelTable.reference_of_contains hc fixup.site
    rw [fill, Except.bind_of_ok hr]
    exact fill_of_contains due ((LabelTable.contains_of_reference hr label).trans hc)

/-- A row that gets its label is placed: its fixups can be filled in. -/
theorem placeRow_of_define {row : Nat} {placed : Layout}
    (h : l.define (.matrixRow channel row) = .ok placed) : ∃ m, l.placeRow channel row = .ok m := by
  rw [placeRow, Except.bind_of_ok h]
  obtain ⟨u, hu, rfl⟩ := define_eq_ok h
  exact fill_of_contains _ (LabelTable.contains_of_define hu)

theorem placeRow_follows (l : Layout) (channel row : Nat) :
    l.Follows [.mark (.matrixRow channel row)] (l.placeRow channel row) := by
  intro before ha hfits
  rw [← Follows.define l (.matrixRow channel row) before ha hfits]
  cases hd : l.define (.matrixRow channel row) with
  | error e =>
    rw [placeRow, hd]
    rfl
  | ok placed =>
    obtain ⟨m, hm⟩ := placeRow_of_define hd
    rw [hm]
    rfl

/-- A jump to a row can be placed, whether the row is placed or not. -/
theorem Assembled.rowJump_ok {before : List Item} (ha : l.Assembled before) (channel row : Nat)
    {offset : Nat} (hfits : ((l.address + offset + 1 : Nat) : Int) < Address.signedLimit) :
    ∃ i u, Event.rowJump channel row l.address offset l.labels = (.ok i, u) ∧
      u.contains (.matrixRow channel row) = l.labels.contains (.matrixRow channel row) ∧
      (l.labels.contains (.matrixRow channel row) = false → i = .positionJump 0) := by
  have horigin : Address.advance l.address offset = .ok (l.address + offset) :=
    advance_of_lt (by omega)
  rw [Event.rowJump, horigin]
  cases hc : l.labels.contains (.matrixRow channel row) with
  | false => exact ⟨_, _, rfl, hc, fun _ => rfl⟩
  | true =>
    obtain ⟨target, u, hr⟩ := LabelTable.reference_of_contains hc (l.address + offset + 1)
    have hrefer : Event.refer l.labels (.matrixRow channel row) (l.address + offset) 1 =
        .ok (target, u) := (Except.bind_of_ok (advance_of_lt hfits)).trans hr
    -- the row is placed before the jump
    have htarget : target ≤ l.address := by
      obtain ⟨e, he, rfl, -⟩ := LabelTable.reference_eq_ok hr
      rw [ha.labels, Option.map_eq_some_iff] at he
      obtain ⟨o, ho, rfl⟩ := he
      rw [ha.address]
      exact Nat.add_le_add_left (survey_marks_le ho) _
    have hdistance : Address.distance (l.address + offset) target =
        .ok ((target : Int) - (l.address + offset : Nat)) :=
      Address.distance_eq_ok (by omega) (by omega)
    refine ⟨Event.jump (target - (l.address + offset : Nat)) target, u, ?_,
      (LabelTable.contains_of_reference hr _).trans hc, nofun⟩
    simp only [if_true, hrefer, hdistance]
    rfl

/-- Placing a jump to a sub-pattern fails exactly if its list has no label. -/
theorem placeSubPatternJump_follows (l : Layout) (channel index timing : Nat) :
    l.Follows (Event.source channel ⟨.jumpToSubPattern index, timing⟩)
      (l.placeEvent channel ⟨.jumpToSubPattern index, timing⟩) := by
  intro before ha hfits
  have hhere := here_of_lt (ha.address_lt hfits)
  let offset := (Instruction.encodeAll (Instruction.waits timing)).length + 1
  have hsize : (survey before).offset + offset ≤
      (survey before).reach (Event.source channel ⟨.jumpToSubPattern index, timing⟩) := by
    let opening := Instruction.encodeAll (Instruction.waits timing) ++ [0x21]
    have hopening : ((survey before).step (.bytes opening)).offset =
        (survey before).offset + offset := by
      simp [Survey.step, Item.size, offset, opening]
    rw [← hopening]
    exact Survey.offset_le_reach _ [.pointer (.subPattern channel index)]
  have hrefer : Event.refer l.labels (.subPattern channel index) l.address offset =
      l.labels.reference (.subPattern channel index) (l.address + offset) := by
    apply Except.bind_of_ok
    apply advance_of_lt
    rw [ha.address]
    omega
  have hknown : Knows l.labels ((survey before).step
      (.bytes (Instruction.encodeAll (Instruction.waits timing) ++ [0x21]))) :=
    Knows.bytes ha.contains _
  have hcheck : outcome (l.labels.reference (.subPattern channel index) (l.address + offset)) =
      (survey before).check (Event.source channel ⟨.jumpToSubPattern index, timing⟩) :=
    hknown.outcome_reference (.subPattern channel index) _
  rw [← hcheck, placeEvent, Except.bind_of_ok hhere]
  simp only [Event.compile, Event.instructions, Event.body, Event.subPatternJump]
  rw [hrefer]
  cases l.labels.reference (.subPattern channel index) (l.address + offset) <;> rfl

/-- A position jump can always be placed. -/
theorem placePositionJump_follows (l : Layout) (channel row timing : Nat) :
    l.Follows (Event.source channel ⟨.positionJump row, timing⟩)
      (l.placeEvent channel ⟨.positionJump row, timing⟩) := by
  intro before ha hfits
  have hhere := here_of_lt (ha.address_lt hfits)
  have haddress := ha.address
  let offset := (Instruction.encodeAll (Instruction.waits timing)).length
  let s := (survey before).step (.bytes (Instruction.encodeAll (Instruction.waits timing)))
  have hsize : (survey before).reach (Event.source channel ⟨.positionJump row, timing⟩) =
      (survey before).offset + offset + (Item.jump channel row).size s :=
    Survey.reach_of_check rfl
  have hmin : 2 ≤ (Item.jump channel row).size s := by
    rw [Item.size]
    split <;> decide
  have hroom : ((l.address + offset + 1 : Nat) : Int) < Address.signedLimit := by
    rw [haddress]
    omega
  obtain ⟨i, u, hjump, hu, hi⟩ := ha.rowJump_ok channel row hroom
  obtain ⟨fixups, hfixups⟩ : ∃ fixups, fixupOf u channel l.address ⟨.positionJump row, timing⟩
      (Instruction.encodeAll (Instruction.waits timing ++ [i])) = .ok fixups := by
    cases hc : l.labels.contains (.matrixRow channel row) with
    | true =>
      simp only [fixupOf, hu, hc]
      exact ⟨_, rfl⟩
    | false =>
      have hnone : s.marks (.matrixRow channel row) = none := by
        rw [show s.marks = (survey before).marks from Survey.step_marks rfl,
          ← Option.isNone_iff_eq_none, ← Option.isSome_eq_false_iff, ← ha.contains, hc]
      have hlong : (Item.jump channel row).size s = 3 := by
        rw [Item.size, Survey.near?_eq_none_of_marks hnone]
        rfl
      have hlen :
          (Instruction.encodeAll (Instruction.waits timing ++ [i])).length = offset + 3 := by
        rw [hi hc]
        simp [Instruction.encode, offset]
      have hend : ((l.address + (offset + 3) : Nat) : Int) < Address.signedLimit := by
        rw [haddress]
        omega
      simp only [fixupOf, hu, hc]
      rw [if_neg Bool.false_ne_true, hlen, Except.bind_of_ok (advance_of_lt hend)]
      exact ⟨_, rfl⟩
  rw [placeEvent, Except.bind_of_ok hhere]
  simp only [Event.compile, Event.instructions, Event.body]
  rw [hjump]
  exact (congrArg outcome (Except.bind_of_ok hfixups)).trans rfl

/-- Placing an event fails exactly if it jumps to a sub-pattern that has no
label. -/
theorem placeEvent_follows (l : Layout) (channel : Nat) (event : Event) :
    l.Follows (event.source channel) (l.placeEvent channel event) := by
  obtain ⟨command, timing⟩ := event
  cases command with
  | jumpToSubPattern index => exact placeSubPatternJump_follows l channel index timing
  | positionJump row => exact placePositionJump_follows l channel row timing
  | pitchSlide direction speed =>
    intro before ha hfits
    rw [placeEvent, Except.bind_of_ok (here_of_lt (ha.address_lt hfits))]
    cases direction <;> rfl
  | _ =>
    intro before ha hfits
    rw [placeEvent, Except.bind_of_ok (here_of_lt (ha.address_lt hfits))]
    rfl

/-- Placing events fails as their source does. -/
theorem placeEvents_follows (channel : Nat) : ∀ (events : List Event) (l : Layout) (row : Nat),
    l.Follows (Event.sourceAll channel row events) (l.placeEvents channel row events)
  | [], l, _ => .refl l
  | event :: rest, l, row => by
    unfold placeEvents Event.sourceAll
    split
    · exact .bind [.mark (.matrixRow channel row)] (placeRow_follows l channel row)
        placeRow_extends fun m => .bind _ (placeEvent_follows m channel event) placeEvent_extends
          fun n => placeEvents_follows channel rest n (row + 1)
    · exact .bind _ (placeEvent_follows l channel event) placeEvent_extends
        fun m => placeEvents_follows channel rest m row

/-! ### Placing blocks -/

/-- There is an address behind a list. -/
theorem Follows.here (l : Layout) : l.Follows [] (l.here >>= fun _ => .ok l) := by
  intro before ha hfits
  rw [Except.bind_of_ok (here_of_lt (ha.address_lt hfits))]
  rfl

theorem placeList_follows (l : Layout) (channel index : Nat) (list : EventList) :
    l.Follows (list.source channel index) (l.placeList channel index list) := by
  rw [EventList.source, ← List.append_nil (Event.sourceAll ..)]
  exact .bind [.mark _] (.define l _)
    (Extends.define (label_ne_matrixRow list channel index))
    fun m => .bind _ (placeEvents_follows channel list.events m 0) placeEvents_extends .here

theorem placeSubPatterns_follows (channel : Nat) : ∀ (lists : List EventList) (l : Layout)
    (index : Nat), l.Follows (EventList.sourceAll channel index lists)
      (l.placeSubPatterns channel index lists)
  | [], l, _ => .refl l
  | list :: rest, l, index => .bind _ (placeList_follows l channel index list) placeList_extends
    fun m => placeSubPatterns_follows channel rest m (index + 1)

theorem placeChannels_follows : ∀ (tracks : List (Option ChannelTrack)) (l : Layout)
    (channel : Nat),
    l.Follows (ChannelTrack.sourceAll channel tracks) (l.placeChannels channel tracks)
  | [], l, _ => .refl l
  | none :: rest, l, channel => placeChannels_follows rest l (channel + 1)
  | some track :: rest, l, channel => by
    rw [ChannelTrack.sourceAll, ChannelTrack.source, List.append_assoc]
    exact .bind _ (placeSubPatterns_follows channel track.subPatterns l 0) placeSubPatterns_extends
      fun m => .bind _ (placeList_follows m channel 0 track.events) placeList_extends
        fun n => placeChannels_follows rest n (channel + 1)

theorem placeTables_follows : ∀ (tables : List Table) (l : Layout) (index : Nat),
    l.Follows (Table.sourceAll index tables) (l.placeTables index tables)
  | [], l, _ => .refl l
  | table :: rest, l, index =>
    .bind [.mark (.table index)] (.define l (.table index))
      (Extends.define fun _ _ => nofun)
      fun m => .bind [.bytes table.encode] (r := .ok (m.append table.encode))
        (fun _ _ _ => rfl) (fun h => Except.ok.inj h ▸ Extends.append m table.encode)
        fun n => placeTables_follows rest n (index + 1)

/-! ### Placing instrument records -/

theorem outcome_pointers : ∀ (indices : List (Option Nat)) {labels : LabelTable} {s : Survey}
    {address offset : Nat}, Knows labels s →
    address + offset + 2 * indices.length ≤ Address.limit →
    outcome (InstrumentRecord.pointers labels address offset indices).1 =
      s.check (indices.map Table.pointer)
  | [], _, _, _, _, _, _ => rfl
  | none :: rest, labels, s, address, offset, hs, hfits => by
    rw [List.length_cons] at hfits
    have hrest : outcome (InstrumentRecord.pointers labels address (offset + 2) rest).1 =
        (s.step (.bytes (Word.address 0))).check (rest.map Table.pointer) :=
      outcome_pointers rest (hs.bytes _) (by omega)
    exact (outcome_map _ _).trans hrest
  | some index :: rest, labels, s, address, offset, hs, hfits => by
    rw [List.length_cons] at hfits
    have hsite : (Address.advance address offset >>= labels.reference (.table index)) =
        labels.reference (.table index) (address + offset) :=
      Except.bind_of_ok (Address.advance_eq_ok (by omega))
    have hcons : s.check ((some index :: rest).map Table.pointer) =
        (s.check [.pointer (.table index)] >>= fun _ =>
          (s.step (.pointer (.table index))).check (rest.map Table.pointer)) :=
      s.check_append [.pointer (.table index)] _
    rw [InstrumentRecord.pointers, hsite, hcons, ← hs.outcome_reference]
    cases hr : labels.reference (.table index) (address + offset) with
    | error e => rfl
    | ok p =>
      have hrest : outcome (InstrumentRecord.pointers p.2 address (offset + 2) rest).1 =
          (s.step (.pointer (.table index))).check (rest.map Table.pointer) :=
        outcome_pointers rest (hs.pointer hr) (by omega)
      exact (outcome_map _ _).trans hrest

theorem placeRecord_follows (l : Layout) (record : InstrumentRecord) :
    l.Follows record.source (l.placeRecord record) := by
  intro before ha hfits
  have hlt := ha.address_lt hfits
  have hpad : ∀ (s : Survey) (items : List Item) (n : Nat),
      s.check (items ++ [.bytes (List.replicate n 0)]) = s.check items := by
    intro s items n
    rw [Survey.check_append]
    cases s.check items <;> rfl
  have hcompile :
      outcome (l.placeRecord record) = outcome (record.compile l.labels l.address).1 := by
    rw [placeRecord, Except.bind_of_ok (here_of_lt hlt)]
    exact outcome_map _ _
  have hroom : l.address + 7 ≤ Address.limit := by
    unfold Address.signedLimit at hlt
    unfold Address.limit
    omega
  rw [hcompile]
  cases record with
  | fm instrument => rfl
  | ssg tone noise volume arpeggio mixing =>
    have hpointers : outcome (InstrumentRecord.pointers l.labels l.address 1
        [volume, arpeggio, mixing]).1 = _ :=
      outcome_pointers _ (Knows.bytes ha.contains [InstrumentRecord.mixerByte tone noise]) hroom
    exact (outcome_map _ _).trans (hpointers.trans (hpad _ _ 25).symm)
  | adpcmA sampleList =>
    have hpointers :
        outcome (InstrumentRecord.pointers l.labels l.address 0 [some sampleList]).1 = _ :=
      outcome_pointers _ ha.contains (Nat.le_trans (Nat.le_add_right _ 5) hroom)
    exact (outcome_map _ _).trans (hpointers.trans (hpad _ _ 30).symm)

theorem placeRecords_follows : ∀ (records : List InstrumentRecord) (l : Layout),
    l.Follows (records.flatMap InstrumentRecord.source) (l.placeRecords records)
  | [], l => .refl l
  | record :: rest, l =>
    .bind _ (placeRecord_follows l record) placeRecord_extends (placeRecords_follows rest)

/-! ### Placing the header -/

theorem outcome_headerPointers : ∀ (tracks : List (Option ChannelTrack)) {labels : LabelTable}
    {s : Survey} {start channel : Nat}, Knows labels s →
    start + 2 * (channel + tracks.length) ≤ Address.limit →
    outcome (headerPointers labels start channel tracks) =
      s.check (Song.headerPointers channel tracks)
  | [], _, _, _, _, _, _ => rfl
  | none :: rest, labels, s, start, channel, hs, hfits => by
    rw [List.length_cons] at hfits
    have hrest : outcome (headerPointers labels start (channel + 1) rest) =
        (s.step (.bytes (Word.bytes 0))).check (Song.headerPointers (channel + 1) rest) :=
      outcome_headerPointers rest (hs.bytes _) (by omega)
    exact (outcome_map _ _).trans hrest
  | some track :: rest, labels, s, start, channel, hs, hfits => by
    rw [List.length_cons] at hfits
    have hsite : Address.advance start (2 * channel) = .ok (start + 2 * channel) :=
      Address.advance_eq_ok (by omega)
    have hcons : s.check (Song.headerPointers channel (some track :: rest)) =
        (s.check [.pointer (.mainList channel)] >>= fun _ =>
          (s.step (.pointer (.mainList channel))).check (Song.headerPointers (channel + 1) rest)) :=
      s.check_append [.pointer (.mainList channel)] _
    rw [headerPointers, Except.bind_of_ok hsite, hcons, ← hs.outcome_reference]
    cases hr : labels.reference (.mainList channel) (start + 2 * channel) with
    | error e => rfl
    | ok p =>
      have hrest : outcome (headerPointers p.2 start (channel + 1) rest) =
          (s.step (.pointer (.mainList channel))).check (Song.headerPointers (channel + 1) rest) :=
        outcome_headerPointers rest (hs.pointer hr) (by omega)
      exact (outcome_map _ _).trans hrest

theorem knows_headerPointers : ∀ {tracks : List (Option ChannelTrack)} {labels u : LabelTable}
    {s : Survey} {start channel : Nat} {pointers : List (Option UInt16)}, Knows labels s →
    headerPointers labels start channel tracks = .ok (pointers, u) →
    Knows u (s.run (Song.headerPointers channel tracks))
  | [], labels, u, s, start, channel, pointers, hs, h => by
    obtain ⟨-, rfl⟩ := Prod.mk.inj (Except.ok.inj h)
    exact hs
  | none :: rest, labels, u, s, start, channel, pointers, hs, h => by
    obtain ⟨⟨ps, u'⟩, hp, h⟩ := Except.bind_eq_ok h
    obtain ⟨-, rfl⟩ := Prod.mk.inj (Except.ok.inj h)
    rw [Song.headerPointers]
    exact knows_headerPointers (hs.bytes _) hp
  | some track :: rest, labels, u, s, start, channel, pointers, hs, h => by
    obtain ⟨site, -, h⟩ := Except.bind_eq_ok h
    obtain ⟨⟨target, u₁⟩, hr, h⟩ := Except.bind_eq_ok h
    obtain ⟨⟨ps, u'⟩, hp, h⟩ := Except.bind_eq_ok h
    obtain ⟨-, rfl⟩ := Prod.mk.inj (Except.ok.inj h)
    rw [Song.headerPointers]
    exact knows_headerPointers (hs.pointer hr) hp

/-- A header fails as its pointers do. -/
theorem outcome_headerOf {labels : LabelTable} {s : Survey} {start : Nat} (hs : Knows labels s)
    (hroom : start + 31 ≤ Address.limit) (song : Song) :
    outcome (headerOf labels start song) = s.check (Song.headerPointers 0 song.channels.toList ++
      [.bytes (Word.bytes song.timer.counter ++ [song.timer.timeBase]), .pointer .instruments]) := by
  have hcount : 2 * (0 + song.channels.toList.length) = 26 := by
    rw [Vector.length_toList]
    rfl
  have hpointers : outcome (headerPointers labels start 0 song.channels.toList) = _ :=
    outcome_headerPointers _ hs (by omega)
  rw [Survey.check_append, ← hpointers]
  apply outcome_bind
  rintro ⟨pointers, u⟩ hp
  have hsite : Address.advance start instrumentsOffset = .ok (start + instrumentsOffset) :=
    Address.advance_eq_ok (Nat.lt_of_lt_of_le (Nat.add_lt_add_left (by decide) _) hroom)
  have hinstruments := ((knows_headerPointers hs hp).bytes (Word.bytes song.timer.counter ++
    [song.timer.timeBase])).outcome_reference .instruments (start + instrumentsOffset)
  refine .trans ?_ hinstruments
  exact (congrArg outcome (Except.bind_of_ok hsite)).trans (outcome_map _ _)

/-- Placing the header fails as its source does. Nothing in it depends on a
distance, so only its start has to be a signed word. -/
theorem outcome_placeHeader {before : List Item} (ha : l.Assembled before)
    (hfits : (l.address : Int) < Address.signedLimit) (song : Song) :
    outcome (l.placeHeader song) = (survey before).check song.headerSource := by
  have hend : ((l.base + (survey before).reach [.mark .header] : Nat) : Int) <
      Address.signedLimit := by
    have hreach := Survey.reach_le_run (survey before) [.mark .header]
    have hmark : ((survey before).run [.mark .header]).offset = (survey before).offset := rfl
    rw [ha.address] at hfits
    omega
  have hroom : l.address + 31 ≤ Address.limit := by
    unfold Address.signedLimit at hfits
    unfold Address.limit
    omega
  have hrow : ∀ c r, Label.header ≠ .matrixRow c r := by
    intro c r h
    cases h
  rw [placeHeader, Except.bind_of_ok (here_of_lt hfits), Song.headerSource, ← List.singleton_append,
    Survey.check_append, ← Follows.define l .header before ha hend]
  refine outcome_bind fun m hm => ?_
  have hknown : Knows m.labels ((survey before).run [.mark .header]) := by
    rw [← survey_append]
    exact (ha.define hrow hm).contains
  exact (outcome_map _ _).trans (outcome_headerOf hknown hroom song)

theorem placeHeader_address {l' : Layout} {song : Song} (h : l.placeHeader song = .ok l') :
    l'.address = l.address + 31 := by
  obtain ⟨m, header, u, -, hm, -, rfl⟩ := placeHeader_eq_ok h
  obtain ⟨u', -, rfl⟩ := define_eq_ok hm
  rw [append_address, header.length_encode]
  rfl

/-! ### Compiling a song -/

theorem placeParts_follows (song : Song) (base : Nat) :
    Follows { base := base } song.bodySource (placeParts song base) :=
  .bind _ (placeTables_follows song.tables _ 0) placeTables_extends fun l =>
    .bind [.mark .instruments] (.define l .instruments) (Extends.define fun _ _ => nofun) fun m =>
      .bind _ (placeRecords_follows song.instruments m) placeRecords_extends fun n =>
        placeChannels_follows song.channels.toList n 0

/-- Fails with the first fixup by channel and row. -/
def resolve (fixups : List Fixup) : Except Error Unit :=
  checkResolved { base := 0, pending := fixups }

end Layout

namespace Song

/-- The number of bytes before the header. -/
def bodySize (song : Song) : Nat := (survey song.bodySource).offset

/-- The number of bytes that are laid out before the header or the first fault. -/
def laidOut (song : Song) : Nat := Survey.reach {} song.bodySource

theorem laidOut_le (song : Song) : song.laidOut ≤ song.bodySize := Survey.reach_le_run {} _

/-- The fixups of the jumps to rows that no list has. -/
def unresolved (song : Song) (base : Nat) : List Fixup :=
  (walk (Item.fixups base) {} song.bodySource).filter fun f =>
    ((survey song.bodySource).marks f.label).isNone

/-- Fails if data that end at an address are not within the limit. -/
def checkEnd (stop limit : Nat) : Except Error Unit :=
  if min limit addressSpace < stop then .error (.dataOverflow stop (min limit addressSpace))
  else .ok ()

/-- **Whether and how a song fails to compile** is known from its source: a
fault before the header comes first, then a jump to a row that no list has,
then a fault of the header, and last the size of the data. -/
theorem outcome_compile {song : Song} {base : Nat}
    (hfits : ((base + song.bodySize : Nat) : Int) < Address.signedLimit) (limit : Nat) :
    outcome (song.compile base limit) = (do
      Survey.check {} song.bodySource
      Layout.resolve (song.unresolved base)
      (survey song.bodySource).check song.headerSource
      checkEnd (base + song.bodySize + 31) limit) := by
  have hparts : outcome (Layout.placeParts song base) = Survey.check {} song.bodySource := by
    have hle := song.laidOut_le
    exact Layout.placeParts_follows song base [] (Layout.assembled_nil base)
      (show ((base + song.laidOut : Nat) : Int) < Address.signedLimit by omega)
  rw [compile, Layout.placeBody_eq, bind_assoc, ← hparts]
  refine outcome_bind fun body hbody => ?_
  have hext := Layout.placeParts_extends hbody
  have ha : body.Assembled song.bodySource := by
    rw [← List.nil_append song.bodySource]
    exact hext.assembled (.inr hfits) (Layout.assembled_nil base)
  have hbase : body.base = base := hext.base
  have haddress : body.address = base + song.bodySize := by rw [ha.address, hbase, bodySize]
  have hresolve : outcome body.checkResolved = Layout.resolve (song.unresolved base) := by
    rw [unresolved, ← hbase, ← ha.pending]
    exact outcome_unit _
  rw [bind_assoc, ← hresolve]
  refine outcome_bind fun _ _ => ?_
  rw [Except.bind_of_ok rfl, ← Layout.outcome_placeHeader ha (by rwa [haddress])]
  refine outcome_bind fun placed hplaced => ?_
  have hstop : placed.here = .ok (base + song.bodySize + 31) := by
    rw [← haddress, ← Layout.placeHeader_address hplaced]
    apply Address.advance_eq_ok
    show placed.address < Address.limit
    rw [Layout.placeHeader_address hplaced, haddress]
    unfold Address.signedLimit at hfits
    unfold Address.limit
    omega
  rw [Except.bind_of_ok hstop, checkEnd]
  dsimp only
  split <;> rfl

/-- The data of a song have one size, wherever it is placed. -/
theorem compile_size {song : Song} {base limit : Nat} {c : CompiledSong}
    (h : song.compile base limit = .ok c) : c.data.size = song.bodySize + 31 := by
  obtain ⟨body, placed, hbody, hplaced, -, -, rfl⟩ := compile_eq_ok h
  obtain ⟨l, -, -, -, -, hc⟩ := compile_assembled h
  have haddress := Layout.placeHeader_address hplaced
  have hstart : body.address = base + song.bodySize := congrArg CompiledSong.headerAddress hc
  have hbase : placed.base = base :=
    (Layout.placeHeader_extends hplaced).2.base.trans (Layout.placeBody_extends hbody).2.base
  show placed.bytes.size = _
  unfold Layout.address at haddress hstart
  omega

end Song
end Chiptune
