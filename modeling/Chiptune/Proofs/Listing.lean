/-
# Listings are faithful

The listing of a compiled module describes the song that it was compiled from
(`Song.ofModule_listing`). It lists every sub-pattern and every main list once,
in the order of the data, and each of them with the instructions of its own
events through the first one that leaves the list. Its labels are those of the
label table, by names that tell them apart.

Where a list is read, the labels other than rows bound it: none of them lies
between the start of the list and its end (`Song.ListPlace.marks_outside`), so
that the next block starts behind the list, and the list is read to its own
end (`Song.ListPlace.read`).

Key definitions: `Song.listed`, `Listing.Faithful`.
Key theorems: `Listing.getElem?_byName`, `Listing.readLists_eq_ok`,
`Song.ListPlace.read`, `Song.rising_listed`, `Song.ofModule_listing`.
-/
import Chiptune.Proofs.Blocks
import Chiptune.Proofs.InstrumentTable
import Chiptune.Proofs.LabelName
import Chiptune.Proofs.ListOrder

namespace Chiptune

open Instruction (throughEnd encodeAll)

/-! ### What a listing has to say -/

/-- A list of a channel as it is listed, by the addresses of labels. -/
def EventList.listed (address : Label → Nat) (channel : Nat) (label : Label) (list : EventList) :
    ListedTrack :=
  ⟨label, address label,
    throughEnd (list.events.flatMap (Event.resolved (fun x => (address x).toUInt16) channel))⟩

/-- The lists of a channel: the sub-patterns, then the main list. -/
def ChannelTrack.listed (address : Label → Nat) (channel : Nat) (track : ChannelTrack) :
    List ListedTrack :=
  track.subPatterns.mapIdx (fun index list =>
    list.listed address channel (.subPattern channel index))
    ++ [track.events.listed address channel (.mainList channel)]

/-- The lists of a song, in the order of the data. -/
def Song.listed (song : Song) (address : Label → Nat) : List ListedTrack :=
  (song.channels.toList.mapIdx fun channel track =>
    track.elim [] (ChannelTrack.listed address channel)).flatten

/-- Addresses at which labels start blocks. -/
def CompiledSong.BlockStarts (c : CompiledSong) (starts : List Nat) : Prop :=
  ∀ a ∈ starts, ∃ label entry, Listing.startsBlock label = true ∧
    c.labels.get? label = some entry ∧ entry.address = a

/-- A listing tells what a song was compiled to. -/
structure Listing.Faithful (listing : Listing) (song : Song) (c : CompiledSong) : Prop where
  lists : listing.lists = song.listed c.addressOf
  rising : listing.lists.Pairwise fun t u => t.address < u.address
  addresses : ∀ t ∈ listing.lists, c.labels.address t.label = .ok t.address
  entries : ∀ label, listing.labels[label.name]? = c.labels.get? label
  names : ∀ name ∈ listing.labels, ∃ label, c.labels.contains label = true ∧ label.name = name
  size : listing.labels.size = c.labels.size

namespace Listing

/-! ### Labels by name -/

section ByName

variable {t : LabelTable} {label : Label}

theorem mem_toList {entry : Label.Entry} :
    (label, entry) ∈ t.toList ↔ t.get? label = some entry :=
  Std.TreeMap.mem_toList_iff_getElem?_eq_some

/-- Labels of a table have different names. -/
theorem distinct_names (t : LabelTable) : (t.toList.map fun e => (e.1.name, e.2)).Pairwise
    fun a b => ¬ compare a.1 b.1 = .eq := by
  rw [List.pairwise_map]
  refine List.Pairwise.imp ?_ (Std.TreeMap.distinct_keys_toList (t := t.entries))
  intro a b hne hcompare
  have hname : a.1.name = b.1.name := Std.LawfulEqCmp.compare_eq_iff_eq.mp hcompare
  have hlabel : a.1 = b.1 := by rw [← Label.ofChars_name a.1, hname, Label.ofChars_name]
  exact hne (Std.LawfulEqCmp.compare_eq_iff_eq.mpr hlabel)

theorem mem_byName {name : String} :
    name ∈ byName t.toList ↔ ∃ label, t.contains label = true ∧ label.name = name := by
  rw [byName, Std.TreeMap.mem_ofList, List.contains_iff_mem, List.map_map, List.mem_map]
  constructor
  · rintro ⟨⟨label, entry⟩, he, rfl⟩
    refine ⟨label, ?_, rfl⟩
    rw [LabelTable.contains_eq_isSome, mem_toList.mp he]
    rfl
  · rintro ⟨label, hc, rfl⟩
    rw [LabelTable.contains_eq_isSome, Option.isSome_iff_exists] at hc
    obtain ⟨entry, he⟩ := hc
    exact ⟨(label, entry), mem_toList.mpr he, rfl⟩

/-- **The name of a label leads to its entry.** -/
theorem getElem?_byName (t : LabelTable) (label : Label) :
    (byName t.toList)[label.name]? = t.get? label := by
  cases he : t.get? label with
  | some entry =>
    refine Std.TreeMap.getElem?_ofList_of_mem (Std.ReflCmp.compare_self) (distinct_names t) ?_
    exact List.mem_map.mpr ⟨(label, entry), mem_toList.mpr he, rfl⟩
  | none =>
    refine Std.TreeMap.getElem?_eq_none fun hmem => ?_
    obtain ⟨other, hc, hname⟩ := mem_byName.mp hmem
    have hlabel : other = label := by rw [← Label.ofChars_name other, hname, Label.ofChars_name]
    rw [LabelTable.contains_eq_isSome, hlabel, he] at hc
    cases hc

theorem size_byName (t : LabelTable) : (byName t.toList).size = t.size := by
  rw [byName, Std.TreeMap.size_ofList (distinct_names t), List.length_map]
  exact Std.TreeMap.length_toList

end ByName

/-! ### Reading lists -/

/-- What no block starts before, the end of a block is not before. -/
theorem le_blockEnd {starts : List Nat} {address stop k : Nat} (hstop : k ≤ stop)
    (hstarts : ∀ a ∈ starts, address < a → k ≤ a) : k ≤ blockEnd starts address stop := by
  unfold blockEnd
  cases hmin : (starts.filter (address < ·)).min? with
  | none => exact hstop
  | some a =>
    obtain ⟨ha, hlt⟩ := List.mem_filter.mp (List.min?_mem hmin)
    exact hstarts a ha (of_decide_eq_true hlt)

/-- Lists that can all be read are read, in the order of their labels. -/
theorem readLists_eq_ok {c : CompiledSong} {starts : List Nat} {P : ListedTrack → Prop} :
    ∀ {entries : List (Label × Label.Entry)},
    (∀ e ∈ entries, isList e.1 = true → ∃ t next, t.label = e.1 ∧ t.address = e.2.address ∧
      Reader.list c.data (blockEnd starts e.2.address c.stop - c.base) (e.2.address - c.base) =
        .ok (t.instructions, next) ∧ P t) →
    ∃ ts, readLists c starts entries = .ok ts ∧
      ts.map ListedTrack.label = (entries.map Prod.fst).filter isList ∧ ∀ t ∈ ts, P t
  | [], _ => ⟨[], rfl, rfl, fun t ht => by cases ht⟩
  | (label, entry) :: rest, h => by
    obtain ⟨ts, hrest, hlabels, hts⟩ :=
      readLists_eq_ok fun e he => h e (List.mem_cons_of_mem _ he)
    rw [readLists, List.map_cons, List.filter_cons]
    by_cases hl : isList label = true
    · obtain ⟨t, next, rfl, hentry, hread, ht⟩ := h (label, entry) (List.mem_cons_self ..) hl
      simp only at hentry hread
      refine ⟨t :: ts, ?_, ?_, List.forall_mem_cons.mpr ⟨ht, hts⟩⟩
      · simp only [if_pos hl, hread, hrest]
        show Except.ok (⟨t.label, entry.address, t.instructions⟩ :: ts) = _
        rw [← hentry]
      · rw [if_pos hl, List.map_cons, hlabels]
    · rw [if_neg hl, if_neg hl]
      exact ⟨ts, hrest, hlabels, hts⟩

/-- Lists are sorted to those of a list that rises, if they are the same. -/
theorem mergeSort_eq {ts us : List ListedTrack} (hnodup : ts.Nodup)
    (hrising : us.Pairwise fun t u => t.address < u.address) (hmem : ∀ t, t ∈ ts ↔ t ∈ us) :
    ts.mergeSort (fun t u => t.address ≤ u.address) = us := by
  have hinjective : (us.map ListedTrack.address).Nodup :=
    List.pairwise_map.mpr (hrising.imp Nat.ne_of_lt)
  have hperm : ts.Perm us :=
    (List.perm_ext_iff_of_nodup hnodup (hinjective.of_map ListedTrack.address)).mpr hmem
  have hsorted : (ts.mergeSort fun t u => t.address ≤ u.address).Pairwise
      fun t u => t.address ≤ u.address := by
    refine (List.pairwise_mergeSort ?_ ?_ ts).imp of_decide_eq_true
    · intro a b c hab hbc
      exact decide_eq_true (Nat.le_trans (of_decide_eq_true hab) (of_decide_eq_true hbc))
    · intro a b
      simpa using Nat.le_total a.address b.address
  refine List.Perm.eq_of_pairwise ?_ hsorted (hrising.imp Nat.le_of_lt)
    ((List.mergeSort_perm ts _).trans hperm)
  intro t u ht hu hle hge
  have ht : t ∈ us := (hmem t).mp ((List.mergeSort_perm ts _).mem_iff.mp ht)
  exact List.inj_on_of_nodup_map hinjective ht hu (Nat.le_antisymm hle hge)

end Listing

open Listing (isList startsBlock blockEnd)

/-! ### The order of lists -/

namespace ChannelTrack

variable (address : Label → Nat)

theorem map_label_listed {track : ChannelTrack} (h : track.Disciplined)
    (channel : Nat) : (track.listed address channel).map ListedTrack.label =
      (marked (track.source channel)).filter isList := by
  have hsub : ∀ label ∈ (List.range' 0 track.subPatterns.length).map (Label.subPattern channel),
      isList label = true := by
    intro label hl
    obtain ⟨index, -, rfl⟩ := List.mem_map.mp hl
    rfl
  have hrow : ∀ label ∈ (List.range' 0 (Event.rowCount track.events.events)).map
      (Label.matrixRow channel), ¬ isList label = true := by
    intro label hl
    obtain ⟨row, -, rfl⟩ := List.mem_map.mp hl
    exact Bool.false_ne_true
  rw [h.marked_source, labels, List.filter_append, List.filter_eq_self.mpr hsub,
    List.filter_cons_of_pos rfl, List.filter_eq_nil_iff.mpr hrow, listed,
    List.map_append]
  congr 1
  exact List.ext_getElem (by simp) (by simp [EventList.listed])

theorem map_label_listedAll : ∀ {tracks : List (Option ChannelTrack)} (channel : Nat),
    (∀ track, some track ∈ tracks → track.Disciplined) →
    (tracks.mapIdx fun i track => track.elim [] (listed address (channel + i))).flatten.map
      ListedTrack.label = (marked (sourceAll channel tracks)).filter isList
  | [], _, _ => rfl
  | entry :: rest, channel, h => by
    have hrest := map_label_listedAll (channel + 1) fun t ht => h t (List.mem_cons_of_mem _ ht)
    simp only [Nat.add_assoc, Nat.add_comm 1] at hrest
    rw [List.mapIdx_cons, List.flatten_cons, List.map_append, hrest]
    cases entry with
    | none => rfl
    | some track =>
      rw [sourceAll, marked_append, List.filter_append,
        ← map_label_listed address (h track (List.mem_cons_self ..))]
      rfl

end ChannelTrack

/-! ### Lists of a song -/

namespace Song

variable {song : Song} {base limit : Nat} {c : CompiledSong}

namespace ListPlace

/-- A list as it is listed. -/
def listed (p : song.ListPlace) (address : Label → Nat) : ListedTrack :=
  p.list.listed address p.channel p.label

/-- A label other than that of a row stands before the code of a list or behind
it. -/
theorem marks_outside {l : Layout} (p : song.ListPlace) (ha : l.Assembled song.source)
    {label : Label} (hstarts : startsBlock label = true) {o : Nat}
    (ho : (survey song.source).marks label = some o) :
    o ≤ (survey p.sourceBefore).offset ∨
      (survey (p.sourceBefore ++ p.list.source p.channel (p.which.getD 0))).offset ≤ o := by
  obtain ⟨after, hsource⟩ := p.source_eq_mark
  have hsplit : song.source = (p.sourceBefore ++ [.mark p.label]) ++
      (Event.sourceAll p.channel 0 p.list.events ++ after) := by simp [hsource]
  have hnone : .mark label ∉ Event.sourceAll p.channel 0 p.list.events := by
    rw [← mem_marked, Event.marked_sourceAll]
    intro hl
    obtain ⟨row, -, rfl⟩ := List.mem_map.mp hl
    cases hstarts
  have houtside := ha.marks_outside hsplit hnone ho
  rwa [survey_append, List.append_assoc] at houtside

theorem address_listed (p : song.ListPlace) (h : song.compile base limit = .ok c) :
    (p.listed c.addressOf).address = base + (survey p.sourceBefore).offset := by
  obtain ⟨l, -, ha, -⟩ := compile_assembled h
  exact addressOf_of_marks h (p.marks_label ha)

/-- The code of a list reaches from its offset to that behind its source. -/
theorem offset_add_length (p : song.ListPlace) (hahead : p.JumpsAhead) (base : Nat) :
    (survey p.sourceBefore).offset + (encodeAll
        (p.list.events.flatMap (Event.resolved (song.addressAt base) p.channel))).length =
      (survey (p.sourceBefore ++ p.list.source p.channel (p.which.getD 0))).offset := by
  rw [survey_append, addressAt, ← p.walk_emit_source hahead]
  exact length_walk_emit ..

/-- The next block starts behind a list. -/
theorem le_blockEnd (p : song.ListPlace) (h : song.compile base limit = .ok c) {starts : List Nat}
    (hstarts : c.BlockStarts starts) :
    base + (survey (p.sourceBefore ++ p.list.source p.channel (p.which.getD 0))).offset ≤
      blockEnd starts (p.listed c.addressOf).address c.stop := by
  apply Listing.le_blockEnd
  · obtain ⟨l, rfl, ha, -, -, rfl⟩ := compile_assembled h
    obtain ⟨after, hsource⟩ := p.source_eq
    rw [CompiledSong.stop, ha.size, hsource, ← List.append_assoc, survey_append _ after]
    exact Nat.add_le_add_left (Survey.offset_le_run _ _) _
  · intro a ha hlt
    obtain ⟨label, entry, hlabel, hentry, rfl⟩ := hstarts a ha
    obtain ⟨-, o, ho, rfl⟩ := compile_get? h hentry
    obtain ⟨l, -, ha, -⟩ := compile_assembled h
    have houtside := p.marks_outside ha hlabel ho
    rw [p.address_listed h] at hlt
    simp only at hlt ⊢
    omega

/-- **A list is read to its own end**, up to where the next block starts. -/
theorem read (p : song.ListPlace) (h : song.compile base limit = .ok c) (hahead : p.JumpsAhead)
    (hends : p.list.Ends) {starts : List Nat} (hstarts : c.BlockStarts starts) :
    ∃ next, Reader.list c.data
      (blockEnd starts (p.listed c.addressOf).address c.stop - c.base)
      ((p.listed c.addressOf).address - c.base) =
        .ok ((p.listed c.addressOf).instructions, next) := by
  have hstop := p.le_blockEnd h hstarts
  rw [← p.offset_add_length hahead base] at hstop
  have hbase := compile_base h
  have hinstructions : (p.listed c.addressOf).instructions = throughEnd
      (p.list.events.flatMap (Event.resolved (song.addressAt base) p.channel)) := by
    show throughEnd (p.list.events.flatMap
      (Event.resolved (fun x => (c.addressOf x).toUInt16) p.channel)) = _
    rw [compile_addressOf h]
    rfl
  have hholds : Reader.Holds c.data (survey p.sourceBefore).offset (encodeAll
      (p.list.events.flatMap (Event.resolved (song.addressAt base) p.channel))) := by
    obtain ⟨l, rfl, ha, -, -, rfl⟩ := compile_assembled h
    exact p.holds ha hahead
  rw [p.address_listed h] at hstop ⊢
  rw [hinstructions, hbase, Nat.add_sub_cancel_left]
  exact ⟨_, Reader.list_of_holds Event.canonical_of_mem_code hholds (by omega)
    (.inl (Event.exists_endsList_code hends))⟩

end ListPlace

/-! ### All lists -/

theorem Disciplined.label_place (h : song.Disciplined) (p : song.ListPlace) :
    p.label = p.which.elim (.mainList p.channel) (.subPattern p.channel) := by
  obtain ⟨channel, track, which, list, htrack, hlist⟩ := p
  have hd := h.tracks track (List.mem_of_getElem? htrack)
  cases which with
  | none =>
    obtain rfl : track.events = list := Option.some.inj hlist
    simp [ListPlace.label, EventList.label, hd.main]
  | some index =>
    simp [ListPlace.label, EventList.label, hd.sub list (List.mem_of_getElem? hlist)]

/-- Every list of a song is listed, and nothing else. -/
theorem Disciplined.mem_listed (h : song.Disciplined) {address : Label → Nat} {t : ListedTrack} :
    t ∈ song.listed address ↔ ∃ p : song.ListPlace, t = p.listed address := by
  have hplace : ∀ p : song.ListPlace, p.listed address = p.list.listed address p.channel
      (p.which.elim (.mainList p.channel) (.subPattern p.channel)) := fun p => by
    rw [ListPlace.listed, h.label_place]
  constructor
  · intro ht
    obtain ⟨ts, hts, ht⟩ := List.mem_flatten.mp ht
    obtain ⟨channel, hchannel, rfl⟩ := List.mem_mapIdx.mp hts
    cases htrack : song.channels.toList[channel] with
    | none =>
      rw [htrack] at ht
      cases ht
    | some track =>
      have hget : song.channels.toList[channel]? = some (some track) := by
        rw [List.getElem?_eq_getElem hchannel, htrack]
      rw [htrack] at ht
      rcases List.mem_append.mp ht with ht | ht
      · obtain ⟨index, hindex, rfl⟩ := List.mem_mapIdx.mp ht
        let p : song.ListPlace :=
          ⟨channel, track, some index, _, hget, List.getElem?_eq_getElem hindex⟩
        exact ⟨p, (hplace p).symm⟩
      · let p : song.ListPlace := ⟨channel, track, none, track.events, hget, rfl⟩
        rw [List.mem_singleton.mp ht]
        exact ⟨p, (hplace p).symm⟩
  · rintro ⟨p, rfl⟩
    rw [hplace]
    obtain ⟨channel, track, which, list, htrack, hlist⟩ := p
    obtain ⟨hchannel, hget⟩ := List.getElem?_eq_some_iff.mp htrack
    refine List.mem_flatten.mpr ⟨track.listed address channel, ?_, ?_⟩
    · exact List.mem_mapIdx.mpr ⟨channel, hchannel, by rw [hget]; rfl⟩
    · cases which with
      | none =>
        obtain rfl : track.events = list := Option.some.inj hlist
        exact List.mem_append_right _ (List.mem_singleton_self _)
      | some index =>
        obtain ⟨hindex, hlist⟩ := List.getElem?_eq_some_iff.mp hlist
        exact List.mem_append_left _ (List.mem_mapIdx.mpr ⟨index, hindex, by rw [hlist]; rfl⟩)

/-- Lists are listed in the order in which their labels are marked. -/
theorem Disciplined.map_label_listed (h : song.Disciplined) (address : Label → Nat) :
    (song.listed address).map ListedTrack.label = (marked song.source).filter isList := by
  have hall := ChannelTrack.map_label_listedAll address 0 h.tracks
  simp only [Nat.zero_add] at hall
  have htables : ((List.range' 0 song.tables.length).map Label.table).filter isList = [] := by
    rw [List.filter_eq_nil_iff]
    intro label hl
    obtain ⟨index, -, rfl⟩ := List.mem_map.mp hl
    exact Bool.false_ne_true
  rw [listed, hall, marked_source, marked_bodySource, List.filter_append, List.filter_append,
    htables, List.filter_cons_of_neg Bool.false_ne_true]
  simp [isList]

/-- **Lists are listed with rising addresses.** -/
theorem rising_listed (hd : song.Disciplined) (hends : ∀ p : song.ListPlace, p.list.Ends)
    (h : song.compile base limit = .ok c) :
    (song.listed c.addressOf).Pairwise fun t u => t.address < u.address := by
  obtain ⟨l, -, ha, -⟩ := compile_assembled h
  have hrising := (rising_source hends).marks_lt ha
  rw [← hd.map_label_listed c.addressOf, List.pairwise_map] at hrising
  refine hrising.imp_of_mem fun ht hu => ?_
  rintro ⟨o, o', ho, ho', hlt⟩
  obtain ⟨p, rfl⟩ := hd.mem_listed.mp ht
  obtain ⟨q, rfl⟩ := hd.mem_listed.mp hu
  have hp : (p.listed c.addressOf).address = base + o := addressOf_of_marks h ho
  have hq : (q.listed c.addressOf).address = base + o' := addressOf_of_marks h ho'
  rw [hp, hq]
  exact Nat.add_lt_add_left hlt base

/-! ### Songs of modules -/

section OfModule

open Tracker

variable {m : Module} {vromStart : Nat}

/-- The lists of a module's song end, and their position jumps lead ahead. -/
theorem ofModule_place (h : ofModule m vromStart = .ok song) (p : song.ListPlace) :
    p.JumpsAhead ∧ p.list.Ends := by
  obtain ⟨channel, track, which, list, htrack, hlist⟩ := p
  obtain ⟨d, rfl, hd⟩ := exists_fin_of_getElem? htrack
  obtain ⟨column, -, hmain, clamped, hlists⟩ := ofModule_track h hd
  cases which with
  | none =>
    obtain rfl : track.events = list := Option.some.inj hlist
    refine ⟨ListPlace.jumpsAhead_of_ne _ ?_, ⟨.endList, 0⟩, ?_, rfl⟩
    · show ∀ e ∈ track.events.events, _
      rw [hmain]
      exact command_ne_positionJump_mainList
    · show _ ∈ track.events.events
      rw [hmain, mainList_events]
      simp
  | some index =>
    obtain ⟨pattern, hpattern⟩ := exists_pattern_of_mem hlists (List.mem_of_getElem? hlist)
    obtain ⟨-, hends, hplays⟩ := SubPattern.ofPattern_eq_ok hpattern
    exact ⟨ListPlace.jumpsAhead_of_playsRow _ (ofModule_rowsInMain h) hplays, hends⟩

/-- The lists of a module's song are read back, in the order of their labels. -/
theorem ofModule_readLists (h : ofModule m vromStart = .ok song)
    (hc : song.compile base limit = .ok c) {starts : List Nat} (hstarts : c.BlockStarts starts) :
    ∃ ts, Listing.readLists c starts c.labels.toList = .ok ts ∧
      ts.map ListedTrack.label = (c.labels.toList.map Prod.fst).filter isList ∧
      ∀ t ∈ ts, t ∈ song.listed c.addressOf := by
  have hd := ofModule_disciplined h
  apply Listing.readLists_eq_ok
  rintro ⟨label, entry⟩ he hl
  obtain ⟨-, o, ho, rfl⟩ := compile_get? hc (Listing.mem_toList.mp he)
  have hmarked : label ∈ marked song.source :=
    mem_marked.mpr (survey_marks_ne_none.mp (by rw [ho]; exact Option.some_ne_none o))
  have hlabel := List.mem_filter.mpr ⟨hmarked, hl⟩
  rw [← hd.map_label_listed c.addressOf] at hlabel
  obtain ⟨t, ht, rfl⟩ := List.mem_map.mp hlabel
  obtain ⟨p, rfl⟩ := hd.mem_listed.mp ht
  obtain ⟨hahead, hends⟩ := ofModule_place h p
  have haddress : (p.listed c.addressOf).address = base + o := addressOf_of_marks hc ho
  obtain ⟨next, hread⟩ := p.read hc hahead hends hstarts
  rw [haddress] at hread
  exact ⟨p.listed c.addressOf, next, rfl, haddress, hread, ht⟩

/-- The lists of a module's song are sorted to the order of the data. -/
theorem mergeSort_readLists (h : ofModule m vromStart = .ok song)
    (hc : song.compile base limit = .ok c) {ts : List ListedTrack}
    (hlabels : ts.map ListedTrack.label = (c.labels.toList.map Prod.fst).filter isList)
    (hlisted : ∀ t ∈ ts, t ∈ song.listed c.addressOf) :
    ts.mergeSort (fun t u => t.address ≤ u.address) = song.listed c.addressOf := by
  have hd := ofModule_disciplined h
  have hkeys : (c.labels.toList.map Prod.fst).Nodup := by
    rw [LabelTable.toList, Std.TreeMap.map_fst_toList_eq_keys]
    exact Std.TreeMap.nodup_keys
  have hnodup : ts.Nodup := by
    refine List.Nodup.of_map ListedTrack.label ?_
    rw [hlabels]
    exact hkeys.filter _
  have hnames : ((song.listed c.addressOf).map ListedTrack.label).Nodup := by
    rw [hd.map_label_listed]
    exact hd.nodup_marked.filter _
  refine Listing.mergeSort_eq hnodup (rising_listed hd (fun p => (ofModule_place h p).2) hc)
    fun u => ⟨hlisted u, fun hu => ?_⟩
  -- a list of the song has its label in the table, so that some list with this label was read
  obtain ⟨p, rfl⟩ := hd.mem_listed.mp hu
  obtain ⟨l, rfl, ha, -, -, rfl⟩ := compile_assembled hc
  have hentry := ha.labels p.label
  rw [p.marks_label ha] at hentry
  have hlabel : p.label ∈ ts.map ListedTrack.label := by
    rw [hlabels, List.mem_filter]
    exact ⟨List.mem_map.mpr ⟨_, Listing.mem_toList.mpr hentry, rfl⟩, EventList.isList_label⟩
  obtain ⟨t, ht, heq⟩ := List.mem_map.mp hlabel
  rwa [← List.inj_on_of_nodup_map hnames (hlisted t ht) hu heq]

/-- **Listings are faithful.** The listing of a compiled module describes the
song of the module. -/
theorem ofModule_listing (h : ofModule m vromStart = .ok song)
    (hc : song.compile base limit = .ok c) :
    ∃ listing, Listing.ofSong c = .ok listing ∧ listing.Faithful song c := by
  have hd := ofModule_disciplined h
  have hends : ∀ p : song.ListPlace, p.list.Ends := fun p => (ofModule_place h p).2
  obtain ⟨header, stop, hheader, -⟩ := ofModule_read_header h hc
  have hstarts : c.BlockStarts
      ((c.labels.toList.filter fun e => startsBlock e.1).map fun e => e.2.address) := by
    intro a ha
    obtain ⟨⟨label, entry⟩, he, rfl⟩ := List.mem_map.mp ha
    obtain ⟨he, hlabel⟩ := List.mem_filter.mp he
    exact ⟨label, entry, hlabel, Listing.mem_toList.mp he, rfl⟩
  obtain ⟨ts, hread, hlabels, hlisted⟩ := ofModule_readLists h hc hstarts
  have hlists := mergeSort_readLists h hc hlabels hlisted
  refine ⟨⟨c.base, c.data.size, c.headerAddress, header, Listing.byName c.labels.toList,
    ts.mergeSort fun t u => t.address ≤ u.address⟩, ?_, ?_⟩
  · unfold Listing.ofSong
    simp only [hheader, hread]
    rfl
  · constructor
    · exact hlists
    · rw [hlists]
      exact rising_listed hd hends hc
    · rw [hlists]
      intro t ht
      obtain ⟨p, rfl⟩ := hd.mem_listed.mp ht
      obtain ⟨l, -, ha, -⟩ := compile_assembled hc
      rw [p.address_listed hc]
      exact compile_address hc (p.marks_label ha)
    · exact Listing.getElem?_byName c.labels
    · exact fun name => Listing.mem_byName.mp
    · exact Listing.size_byName c.labels

end OfModule

/-- In `SoundBank.circling` a sub-pattern jumps to a row of the main list, and
rows lie within the blocks that are listed. -/
theorem ofModule_listing_circling : ∃ song c listing,
    ofModule SoundBank.circling 0 = .ok song ∧ song.compile 0 defaultLimit = .ok c ∧
    Listing.ofSong c = .ok listing ∧ listing.Faithful song c := by
  obtain ⟨c, h⟩ : ∃ c, (ofModule SoundBank.circling 0 >>= fun song =>
      song.compile 0 defaultLimit) = .ok c := Except.exists_of_isOk (by decide +kernel)
  obtain ⟨song, hsong, hc⟩ := Except.bind_eq_ok h
  obtain ⟨listing, hlisting⟩ := ofModule_listing hsong hc
  exact ⟨song, c, listing, hsong, hc, hlisting⟩

end Song
end Chiptune
