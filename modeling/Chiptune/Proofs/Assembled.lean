/-
# Layouts hold the data of a source

A layout is made step by step: bytes are appended, labels are defined, the
addresses of defined labels are appended, jumps to rows are appended before or
after the row is placed, and placing a row fills in the jumps that wait for
it. Each step turns a layout that holds exactly the data of a source
(`Layout.Assembled`) into one that holds those of the source with one more
item.

What a jump to a row that is not placed yet leaves behind is zero, the word of
a label without an offset, so the bytes of a source change only where a row
gets its offset, and only at the sites of the fixups
(`Layout.toList_foldl_store`).

Key definitions: `Layout.Assembled`.
Key theorems: `Layout.Assembled.holds`, `Layout.Assembled.exists_offset`,
`Layout.Assembled.append`, `Layout.Assembled.pointer`,
`Layout.Assembled.jump`, `Layout.Assembled.define`,
`Layout.Assembled.placeRow`.
-/
import Chiptune.Proofs.EventCode
import Chiptune.Proofs.LabelTable
import Chiptune.Proofs.Source

namespace Chiptune
namespace Layout

variable {l l' : Layout} {items : List Item}

@[simp] theorem append_base (l : Layout) (bs : List UInt8) : (l.append bs).base = l.base := rfl

@[simp] theorem append_labels (l : Layout) (bs : List UInt8) : (l.append bs).labels = l.labels := rfl

@[simp] theorem append_pending (l : Layout) (bs : List UInt8) : (l.append bs).pending = l.pending := rfl

@[simp] theorem append_toList (l : Layout) (bs : List UInt8) :
    (l.append bs).bytes.toList = l.bytes.toList ++ bs := by simp [append]

@[simp] theorem append_size (l : Layout) (bs : List UInt8) :
    (l.append bs).bytes.size = l.bytes.size + bs.length := by
  rw [← Array.length_toList, append_toList, List.length_append, Array.length_toList]

/-- The layout holds exactly the data of a source: its bytes, its labels with
all sites that refer to them in the order of the source, and a fixup for each
jump to a row that is not marked yet. -/
structure Assembled (l : Layout) (items : List Item) : Prop where
  bytes : l.bytes.toList = walk (Item.emit l.base (survey items).marks) {} items
  labels : ∀ x, l.labels.get? x = ((survey items).marks x).map fun o =>
    ⟨l.base + o, ((walk (Item.sitesOf x) {} items).map (l.base + ·)).toArray⟩
  pending : l.pending = (walk (Item.fixups l.base) {} items).filter fun f =>
    ((survey items).marks f.label).isNone
  closed : ∀ x, .pointer x ∈ items → (survey items).marks x ≠ none
  nodup : (items.filterMap Item.mark?).Nodup

theorem assembled_nil (base : Nat) : ({ base := base } : Layout).Assembled [] where
  bytes := rfl
  labels := LabelTable.get?_empty
  pending := rfl
  closed _ h := by cases h
  nodup := List.nodup_nil

namespace Assembled

theorem size (ha : l.Assembled items) : l.bytes.size = (survey items).offset := by
  rw [← Array.length_toList, ha.bytes, survey, ← length_walk_emit l.base (survey items).marks]
  exact (Nat.zero_add _).symm

theorem address (ha : l.Assembled items) : l.address = l.base + (survey items).offset := by
  rw [Layout.address, ha.size]

/-- A label is defined exactly if it was marked. -/
theorem contains (ha : l.Assembled items) (x : Label) :
    l.labels.contains x = ((survey items).marks x).isSome := by
  rw [LabelTable.contains_eq_isSome, ha.labels, Option.isSome_map]

/-- The data hold the bytes of each part of the source at its offset. -/
theorem holds (ha : l.Assembled items) {as is bs : List Item} (h : items = as ++ (is ++ bs)) :
    Reader.Holds l.bytes (survey as).offset
      (walk (Item.emit l.base (survey items).marks) (survey as) is) := by
  have hb := ha.bytes
  have hlen := length_walk_emit l.base (survey items).marks {} as
  generalize (survey items).marks = marks at hb hlen ⊢
  rw [h, walk_append, walk_append] at hb
  rw [survey, ← hlen]
  simpa using Reader.holds_of_toList_eq hb

/-- Without fixups left, every target has an offset. -/
theorem exists_offset (ha : l.Assembled items) (hp : l.pending = []) {item : Item}
    (hi : item ∈ items) {label : Label} (ht : item.target? = some label) :
    ∃ o, (survey items).marks label = some o := by
  apply Option.ne_none_iff_exists'.mp
  cases item with
  | mark x => cases ht
  | bytes bs => cases ht
  | pointer x =>
    obtain rfl := Option.some.inj ht
    exact ha.closed x hi
  | jump channel row =>
    obtain rfl := Option.some.inj ht
    intro hnone
    obtain ⟨as, bs, heq⟩ := List.append_of_mem hi
    have hmem : (⟨channel, row, l.base + ((survey as).offset + 1)⟩ : Fixup) ∈ l.pending := by
      rw [ha.pending, List.mem_filter]
      exact ⟨mem_walk.mpr ⟨as, _, bs, heq, List.mem_singleton.mpr rfl⟩,
        Option.isNone_iff_eq_none.mpr hnone⟩
    rw [hp] at hmem
    cases hmem

/-! ### Steps that mark no label -/

/-- One more item that marks no label. -/
theorem snoc (ha : l.Assembled items) {item : Item} (hmark : item.mark? = none)
    (hbase : l'.base = l.base)
    (hbytes : l'.bytes.toList =
      l.bytes.toList ++ item.emit l.base (survey items).marks (survey items))
    (hlabels : ∀ x, l'.labels.get? x = (l.labels.get? x).map fun e =>
      ⟨e.address, e.references ++ ((item.sitesOf x (survey items)).map (l.base + ·)).toArray⟩)
    (hpending : l'.pending = l.pending ++ (item.fixups l.base (survey items)).filter fun f =>
      ((survey items).marks f.label).isNone)
    (hclosed : ∀ x, item = .pointer x → (survey items).marks x ≠ none) :
    l'.Assembled (items ++ [item]) := by
  have hm : (survey (items ++ [item])).marks = (survey items).marks := by
    rw [survey_append]
    exact Survey.step_marks hmark
  have hw : ∀ {α : Type} (f : Survey → Item → List α),
      walk f {} (items ++ [item]) = walk f {} items ++ f (survey items) item := by
    intro α f
    rw [walk_append, walk_cons, walk_nil, List.append_nil]
    rfl
  refine
    { bytes := ?_
      labels := fun x => ?_
      pending := ?_
      closed := fun x hx => ?_
      nodup := ?_ }
  · rw [hm, hw, hbytes, hbase, ha.bytes]
  · rw [hm, hw, hlabels, hbase, ha.labels, Option.map_map]
    congr 1
    funext o
    simp
  · rw [hm, hw, hpending, hbase, ha.pending, List.filter_append]
  · rw [hm]
    rcases List.mem_append.mp hx with hx | hx
    · exact ha.closed x hx
    · exact hclosed x (List.mem_singleton.mp hx).symm
  · rw [List.filterMap_append]
    simpa [hmark] using ha.nodup

/-- Appending bytes. -/
theorem append (ha : l.Assembled items) (bs : List UInt8) :
    (l.append bs).Assembled (items ++ [.bytes bs]) := by
  apply ha.snoc
  · rfl
  · rfl
  · simp [Item.emit]
  · simp [Item.sitesOf, Item.target?]
  · simp [Item.fixups]
  · intro x hx
    cases hx

/-- Appending the address of a label that is defined. -/
theorem pointer (ha : l.Assembled items) {label : Label} {target : Nat} {u : LabelTable}
    (h : l.labels.reference label l.address = .ok (target, u)) :
    (Layout.append { l with labels := u } (Word.address target)).Assembled
      (items ++ [.pointer label]) := by
  obtain ⟨e, he, rfl, hu⟩ := LabelTable.reference_eq_ok h
  have ho := he
  rw [ha.labels, Option.map_eq_some_iff] at ho
  obtain ⟨o, ho, rfl⟩ := ho
  apply ha.snoc
  · rfl
  · rfl
  · simp [Item.emit, addressIn_of_some ho]
  · intro x
    rw [append_labels, hu x]
    by_cases hx : x = label
    · subst hx
      simp [Item.sitesOf, Item.target?, Item.site, he, ha.address]
    · simp [Item.sitesOf, Item.target?, hx, Ne.symm hx]
  · simp [Item.fixups]
  · intro x hx
    cases hx
    rw [ho]
    exact Option.some_ne_none o

end Assembled

theorem define_eq_ok {label : Label} (h : l.define label = .ok l') :
    ∃ u, l.labels.define label l.address = .ok u ∧ l' = { l with labels := u } := by
  obtain ⟨a, hhere, h⟩ := Except.bind_eq_ok h
  obtain ⟨u, hu, h⟩ := Except.bind_eq_ok h
  rw [Address.eq_of_advance hhere] at hu
  exact ⟨u, hu, (Except.ok.inj h).symm⟩

namespace Assembled

/-- Appending a jump to a row that is not placed: no reference is made yet, and
a fixup is left. -/
theorem jump_ahead (ha : l.Assembled items) {channel row : Nat}
    (hnew : (survey items).marks (.matrixRow channel row) = none) :
    (Layout.append { l with pending := l.pending ++ [⟨channel, row, l.address + 1⟩] }
      (Instruction.positionJump 0).encode).Assembled (items ++ [.jump channel row]) := by
  have hget : l.labels.get? (.matrixRow channel row) = none := by rw [ha.labels, hnew]; rfl
  apply ha.snoc
  · rfl
  · rfl
  · simp only [append_toList, Item.emit, Survey.near?_eq_none_of_marks hnew,
      addressIn_of_none hnew]
    rfl
  · intro x
    rw [append_labels]
    by_cases hx : x = .matrixRow channel row
    · rw [hx, hget]
      rfl
    · simp [Item.sitesOf, Item.target?, Ne.symm hx]
  · simp [Item.fixups, Fixup.label, hnew, ha.address, Nat.add_assoc]
  · intro x hx
    cases hx

/-- Appending a jump to a row that is placed: the reference is made at once. -/
theorem jump_back (ha : l.Assembled items) (hs : (l.address : Int) < Address.signedLimit)
    {channel row target : Nat} {d : Int} {u : LabelTable}
    (hr : l.labels.reference (.matrixRow channel row) (l.address + 1) = .ok (target, u))
    (hd : Address.distance l.address target = .ok d) :
    (Layout.append { l with labels := u } (Event.jump d target).encode).Assembled
      (items ++ [.jump channel row]) := by
  obtain ⟨e, he, rfl, hu⟩ := LabelTable.reference_eq_ok hr
  have ho := he
  rw [ha.labels, Option.map_eq_some_iff] at ho
  obtain ⟨o, ho, rfl⟩ := ho
  have hle := survey_marks_le ho
  have hdist : d = (o : Int) - (survey items).offset := by
    rw [Address.distance_eq_ok hs (by rw [ha.address] at hs; simp only; omega)] at hd
    rw [← Except.ok.inj hd, ha.address]
    simp only
    omega
  apply ha.snoc
  · rfl
  · rfl
  · simp only [append_toList, Item.emit, Survey.near?, ho, Event.jump, hdist]
    split
    · rfl
    · simp only [addressIn_of_some ho]
      rfl
  · intro x
    rw [append_labels, hu x]
    by_cases hx : x = .matrixRow channel row
    · subst hx
      simp [Item.sitesOf, Item.target?, Item.site, he, ha.address, Nat.add_assoc]
    · simp [Item.sitesOf, Item.target?, hx, Ne.symm hx]
  · simp [Item.fixups, Fixup.label, ho]
  · intro x hx
    cases hx

/-- Appending a jump to a row. -/
theorem jump (ha : l.Assembled items) (hs : (l.address : Int) < Address.signedLimit)
    {channel row address offset : Nat} {i : Instruction} {u : LabelTable}
    (haddr : address + offset = l.address)
    (h : Event.rowJump channel row address offset l.labels = (.ok i, u)) :
    (Layout.append { l with labels := u, pending := l.pending ++
      (if l.labels.contains (.matrixRow channel row) then [] else [⟨channel, row, l.address + 1⟩]) }
      i.encode).Assembled (items ++ [.jump channel row]) := by
  rcases Event.rowJump_eq_ok h with ⟨hc, rfl, rfl⟩ | ⟨target, d, hc, hr, hd, rfl⟩
  · rw [hc]
    rw [ha.contains, Option.isSome_eq_false_iff, Option.isNone_iff_eq_none] at hc
    exact ha.jump_ahead hc
  · rw [haddr] at hr hd
    rw [hc, if_pos rfl, List.append_nil]
    exact ha.jump_back hs hr hd

/-! ### Steps that mark a label -/

theorem nodup_snoc_mark {label : Label} (h : (items.filterMap Item.mark?).Nodup)
    (hnew : .mark label ∉ items) : ((items ++ [Item.mark label]).filterMap Item.mark?).Nodup := by
  rw [List.filterMap_append, List.nodup_append]
  refine ⟨h, by simp [Item.mark?], fun x hx y hy hxy => ?_⟩
  obtain rfl : y = label := by simpa [Item.mark?, eq_comm] using hy
  obtain ⟨item, hi, him⟩ := List.mem_filterMap.mp hx
  cases item with
  | mark z =>
    obtain rfl : z = x := Option.some.inj him
    subst hxy
    exact hnew hi
  | bytes bs => cases him
  | pointer z => cases him
  | jump c r => cases him

/-- One more mark of a new label. -/
theorem marked (ha : l.Assembled items) {label : Label}
    (hnew : (survey items).marks label = none) (hbase : l'.base = l.base)
    (hbytes : l'.bytes.toList =
      walk (Item.emit l.base (survey (items ++ [.mark label])).marks) {} items)
    (hlabels : ∀ x, l'.labels.get? x =
      if x = label then some ⟨l.address, ((walk (Item.sitesOf x) {} items).map (l.base + ·)).toArray⟩
      else l.labels.get? x)
    (hpending : l'.pending = l.pending.filter fun f => f.label ≠ label) :
    l'.Assembled (items ++ [.mark label]) := by
  have hm : ∀ x, (survey (items ++ [.mark label])).marks x =
      if x = label then some (survey items).offset else (survey items).marks x := by
    rw [survey_append]
    exact Survey.step_mark hnew
  have hw : ∀ {α : Type} (f : Survey → Item → List α), f (survey items) (.mark label) = [] →
      walk f {} (items ++ [.mark label]) = walk f {} items := by
    intro α f hf
    rw [walk_append, walk_cons, walk_nil, List.append_nil]
    exact (congrArg _ hf).trans (List.append_nil _)
  refine
    { bytes := ?_
      labels := fun x => ?_
      pending := ?_
      closed := fun x hx => ?_
      nodup := ?_ }
  · rw [hw _ rfl, hbytes, hbase]
  · rw [hw _ (by simp [Item.sitesOf, Item.target?]), hlabels, hm, hbase]
    by_cases hx : x = label
    · simp [hx, ha.address]
    · simp [hx, ha.labels]
  · rw [hw _ rfl, hpending, hbase, ha.pending, List.filter_filter]
    apply List.filter_congr
    intro f _
    rw [hm]
    by_cases hf : f.label = label <;> simp [hf]
  · rw [hm]
    split
    · exact Option.some_ne_none _
    · exact ha.closed x (by simpa using hx)
  · exact nodup_snoc_mark ha.nodup (Survey.run_marks_eq_none.mp hnew).2

/-- A label that has no offset is no target, rows apart. -/
theorem target_ne (ha : l.Assembled items) {label : Label}
    (hnew : (survey items).marks label = none) (hrow : ∀ c r, label ≠ .matrixRow c r) :
    ∀ item ∈ items, item.target? ≠ some label := by
  intro item hi ht
  cases item with
  | mark x => cases ht
  | bytes bs => cases ht
  | pointer x =>
    obtain rfl : x = label := Option.some.inj ht
    exact ha.closed x hi hnew
  | jump c r => exact hrow c r (Option.some.inj ht).symm

/-- Defining a label that is no row. -/
theorem define (ha : l.Assembled items) {label : Label} (hrow : ∀ c r, label ≠ .matrixRow c r)
    (h : l.define label = .ok l') : l'.Assembled (items ++ [.mark label]) := by
  obtain ⟨u, hu, rfl⟩ := define_eq_ok h
  obtain ⟨hnone, hu⟩ := LabelTable.define_eq_ok hu
  have hnew : (survey items).marks label = none := by
    simpa [ha.labels] using hnone
  have htarget := ha.target_ne hnew hrow
  apply ha.marked hnew
  · rfl
  · rw [ha.bytes]
    apply walk_congr
    intro t item hi
    refine (Item.emit_congr fun x hx => ?_).symm
    have hne : x ≠ label := fun he => htarget item hi (he ▸ hx)
    rw [survey_append]
    exact (Survey.step_mark hnew x).trans (if_neg hne)
  · intro x
    rw [hu x]
    by_cases hx : x = label
    · have hsites : walk (Item.sitesOf label) {} items = walk (fun _ _ => []) {} items :=
        walk_congr fun t item hi => if_neg (htarget item hi)
      rw [if_pos hx, if_pos hx, hx, hsites, walk_none]
      rfl
    · rw [if_neg hx, if_neg hx]
  · symm
    apply List.filter_eq_self.mpr
    intro f _
    exact decide_eq_true (hrow f.channel f.row).symm

end Assembled

/-! ### Fixups -/

theorem toList_store {bytes : Array UInt8} {before after : List UInt8} {x y : UInt8} {target : Nat}
    (h : bytes.toList = before ++ x :: y :: after) :
    (store bytes before.length target).toList = before ++ (Word.address target ++ after) := by
  simp [store, h, Word.address, Word.bytes]

theorem size_foldl_store {base target : Nat} : ∀ (due : List Fixup) (bytes : Array UInt8),
    (due.foldl (fun b f => store b (f.site - base) target) bytes).size = bytes.size
  | [], _ => rfl
  | f :: due, bytes => by
    rw [List.foldl_cons, size_foldl_store due]
    simp [store]

/-- Filling in fixups stores the address of the label at each site and refers
to the label from there. -/
theorem fill_eq_ok {label : Label} : ∀ {due : List Fixup} {l : Layout} {e : Label.Entry},
    l.labels.get? label = some e → l.fill label due = .ok l' →
    l'.base = l.base ∧ l'.pending = l.pending ∧
      l'.bytes = due.foldl (fun b f => store b (f.site - l.base) e.address) l.bytes ∧
      ∀ x, l'.labels.get? x =
        if x = label then some ⟨e.address, e.references ++ (due.map Fixup.site).toArray⟩
        else l.labels.get? x
  | [], l, e, he, h => by
    obtain rfl := Except.ok.inj h
    refine ⟨rfl, rfl, rfl, fun x => ?_⟩
    by_cases hx : x = label
    · simp [hx, he]
    · simp [hx]
  | f :: due, l, e, he, h => by
    obtain ⟨⟨target, u⟩, hr, h⟩ := Except.bind_eq_ok h
    obtain ⟨e', he', rfl, hu⟩ := LabelTable.reference_eq_ok hr
    obtain rfl : e' = e := Option.some.inj (he'.symm.trans he)
    have hself : u.get? label = some ⟨e'.address, e'.references.push f.site⟩ := by
      rw [hu, if_pos rfl]
    obtain ⟨h1, h2, h3, h4⟩ := fill_eq_ok hself h
    refine ⟨h1, h2, h3, fun x => ?_⟩
    rw [h4 x]
    by_cases hx : x = label
    · simp [hx]
    · simp [hx, hu x]

theorem fixups_of_ne_jump {channel row : Nat} {item : Item} (hj : item ≠ .jump channel row)
    (base : Nat) (s : Survey) : (item.fixups base s).filter (awaits channel row) = [] := by
  cases item with
  | jump c r =>
    have hne : c = channel → r ≠ row := fun hc hr => hj (by rw [hc, hr])
    simpa [Item.fixups, awaits] using hne
  | mark y => rfl
  | bytes bs => rfl
  | pointer y => rfl

/-- Storing the address of a row at the sites of its jumps turns the bytes of a
source in which the row has no offset into those in which it has one. -/
theorem toList_foldl_store {base o channel row : Nat} {marks marks' : Label → Option Nat}
    (hm : ∀ x, x ≠ .matrixRow channel row → marks' x = marks x)
    (hrow : marks' (.matrixRow channel row) = some o) :
    ∀ (items : List Item) (s : Survey) (before : List UInt8) (bytes : Array UInt8),
      before.length = s.offset → (s.run items).marks (.matrixRow channel row) = none →
      .pointer (.matrixRow channel row) ∉ items →
      bytes.toList = before ++ walk (Item.emit base marks) s items →
      (((walk (Item.fixups base) s items).filter (awaits channel row)).foldl
        (fun b f => store b (f.site - base) (base + o)) bytes).toList =
        before ++ walk (Item.emit base marks') s items := by
  intro items
  induction items with
  | nil => exact fun _ _ _ _ _ _ h => h
  | cons item items ih =>
    intro s before bytes hlen hnone hp h
    rw [List.mem_cons, not_or] at hp
    rw [walk_cons] at h
    by_cases ht : item = .jump channel row
    · -- a jump to the row: its operand is stored, and the opcode stays
      subst ht
      have hnear := Survey.near?_eq_none_of_marks (Survey.run_marks_eq_none.mp hnone).1
      have hold : bytes.toList = (before ++ [0x0A]) ++
          (Word.address (addressIn base marks (.matrixRow channel row)) ++
            walk (Item.emit base marks) (s.step (.jump channel row)) items) := by
        simpa [Item.emit, hnear] using h
      have hstored : (store bytes (before ++ [0x0A]).length (base + o)).toList = _ :=
        toList_store hold
      have hsite : base + (s.offset + 1) - base = (before ++ [0x0A]).length := by
        rw [List.length_append, hlen]
        exact Nat.add_sub_cancel_left ..
      have hdue : ((Item.jump channel row).fixups base s).filter (awaits channel row) =
          [⟨channel, row, base + (s.offset + 1)⟩] := by
        simp [Item.fixups, awaits]
      rw [walk_cons, walk_cons, List.filter_append, hdue, List.singleton_append, List.foldl_cons,
        hsite, ← List.append_assoc]
      apply ih _ _ _ _ hnone hp.2
      · rw [hstored]
        simp [Item.emit, hnear, addressIn_of_some hrow]
      · rw [List.length_append, hlen, Item.length_emit]
        rfl
    · have hemit := Item.emit_of_ne_jump hm ht (Ne.symm hp.1) base s
      have hdue := fixups_of_ne_jump ht base s
      rw [walk_cons, walk_cons, List.filter_append, hdue, List.nil_append, hemit,
        ← List.append_assoc]
      apply ih _ _ _ _ hnone hp.2
      · rw [h, List.append_assoc]
      · rw [List.length_append, hlen, Item.length_emit]
        rfl

theorem awaits_iff {channel row : Nat} {f : Fixup} :
    awaits channel row f = true ↔ f.label = .matrixRow channel row := by
  simp [awaits, Fixup.label]

/-- The fixups of a row stand where its jumps refer to it. -/
theorem map_site_fixups {base channel row : Nat} : ∀ {items : List Item} {s : Survey},
    .pointer (.matrixRow channel row) ∉ items →
    ((walk (Item.fixups base) s items).filter (awaits channel row)).map Fixup.site =
      (walk (Item.sitesOf (.matrixRow channel row)) s items).map (base + ·)
  | [], _, _ => rfl
  | item :: items, s, hp => by
    rw [List.mem_cons, not_or] at hp
    rw [walk_cons, walk_cons, List.filter_append, List.map_append, List.map_append,
      map_site_fixups hp.2]
    congr 1
    cases item with
    | mark y => rfl
    | bytes bs => rfl
    | pointer y =>
      have hne : y ≠ .matrixRow channel row := fun he => hp.1 (he ▸ rfl)
      simp [Item.fixups, Item.sitesOf, Item.target?, hne]
    | jump c r =>
      by_cases hcr : c = channel ∧ r = row
      · simp [Item.fixups, Item.sitesOf, Item.target?, Item.site, awaits, hcr]
      · simp [Item.fixups, Item.sitesOf, Item.target?, awaits, hcr]

/-- Placing a row fills in the jumps to it. -/
theorem Assembled.placeRow (ha : l.Assembled items) {channel row : Nat}
    (h : l.placeRow channel row = .ok l') :
    l'.Assembled (items ++ [.mark (.matrixRow channel row)]) := by
  obtain ⟨placed, hp, h⟩ := Except.bind_eq_ok h
  obtain ⟨u, hu, rfl⟩ := define_eq_ok hp
  obtain ⟨hnone, hu⟩ := LabelTable.define_eq_ok hu
  rw [List.partition_eq_filter_filter] at h
  have hnew : (survey items).marks (.matrixRow channel row) = none := by
    simpa [ha.labels] using hnone
  have hpointer : .pointer (.matrixRow channel row) ∉ items := fun hm => ha.closed _ hm hnew
  have hself : u.get? (.matrixRow channel row) = some ⟨l.address, #[]⟩ := by rw [hu, if_pos rfl]
  obtain ⟨hbase, hpending, hbytes, hlabels⟩ := fill_eq_ok hself h
  have hdue : l.pending.filter (awaits channel row) =
      (walk (Item.fixups l.base) {} items).filter (awaits channel row) := by
    rw [ha.pending, List.filter_filter]
    apply List.filter_congr
    intro f _
    by_cases hf : awaits channel row f = true
    · simp [awaits_iff.mp hf, hnew]
    · simp [hf]
  have hmarks : ∀ x, (survey (items ++ [.mark (.matrixRow channel row)])).marks x =
      if x = .matrixRow channel row then some (survey items).offset else (survey items).marks x := by
    rw [survey_append]
    exact Survey.step_mark hnew
  apply ha.marked hnew
  · exact hbase
  · rw [hbytes, hdue]
    have hstore := toList_foldl_store (fun x hx => (hmarks x).trans (if_neg hx))
      ((hmarks _).trans (if_pos rfl)) items {} [] l.bytes rfl hnew hpointer ha.bytes
    rw [← ha.address] at hstore
    exact hstore
  · intro x
    rw [hlabels x, hdue, map_site_fixups hpointer]
    by_cases hx : x = .matrixRow channel row
    · simp [hx]
    · simp [hx, hu x]
  · rw [hpending]
    apply List.filter_congr
    intro f _
    by_cases hf : awaits channel row f = true
    · simp [hf, awaits_iff.mp hf]
    · have hne : f.label ≠ .matrixRow channel row := fun he => hf (awaits_iff.mpr he)
      simp [hf, hne]

end Layout
end Chiptune
