/-
# The label table after a history

Operations on a label table follow one another; one that fails leaves the
table as it was (`LabelTable.perform`). What the table holds of a label, and
what it answers about it, is told by the operations made so far. A label
without a definition has no entry and cannot be referred to. Otherwise its
entry is the address of the first definition with the sites of the references
made after it, and it cannot be defined again (`LabelTable.run_history`).

One operation changes the entry of its own label only, a definition where
there is none and a reference where there is one (`LabelTable.get?_perform`).

Key definitions: `LabelTable.Operation`, `LabelTable.perform`, `LabelTable.run`,
`LabelTable.Operation.update`.
Key theorems: `LabelTable.get?_perform`, `LabelTable.get?_run_of_none`,
`LabelTable.get?_run_of_some`, `LabelTable.run_history`.
-/
import Chiptune.Proofs.LabelTable

namespace Chiptune
namespace LabelTable

/-- An operation on a label table. -/
inductive Operation where
  | define (label : Label) (address : Nat)
  | reference (label : Label) (site : Nat)
  | address (label : Label)
  | get (label : Label)
  | contains (label : Label)
  deriving DecidableEq, Repr

/-- What an operation answers. -/
inductive Answer where
  | defined
  | address (n : Nat)
  | entry (e : Option Label.Entry)
  | known (b : Bool)
  deriving DecidableEq, Repr

/-- The answer to an operation and the table behind it. -/
def perform (t : LabelTable) : Operation → Except Error Answer × LabelTable
  | .define label address =>
    match t.define label address with
    | .ok u => (.ok .defined, u)
    | .error e => (.error e, t)
  | .reference label site =>
    match t.reference label site with
    | .ok (target, u) => (.ok (.address target), u)
    | .error e => (.error e, t)
  | .address label => ((t.address label).map .address, t)
  | .get label => (.ok (.entry (t.get? label)), t)
  | .contains label => (.ok (.known (t.contains label)), t)

/-- The table behind operations. -/
def run (t : LabelTable) (ops : List Operation) : LabelTable :=
  ops.foldl (fun t op => (t.perform op).2) t

namespace Operation

/-- The label that an operation is about. -/
def label : Operation → Label
  | .define label _ | .reference label _ | .address label | .get label | .contains label => label

/-- Where an operation defines a label. -/
def address? (label : Label) : Operation → Option Nat
  | .define x a => if x = label then some a else none
  | _ => none

/-- From where an operation refers to a label. -/
def site? (label : Label) : Operation → Option Nat
  | .reference x site => if x = label then some site else none
  | _ => none

/-- What an operation makes of the entry of a label. -/
def update (label : Label) (op : Operation) : Option Label.Entry → Option Label.Entry
  | none => (op.address? label).map fun a => ⟨a, #[]⟩
  | some e => some ⟨e.address, e.references ++ (op.site? label).toArray⟩

theorem address?_eq_some {label : Label} {a : Nat} {op : Operation} :
    op.address? label = some a ↔ op = .define label a := by
  cases op <;> simp [address?]

theorem address?_of_ne {label : Label} {op : Operation} (h : label ≠ op.label) :
    op.address? label = none := by
  cases op with
  | define x a => exact if_neg (Ne.symm h)
  | _ => rfl

theorem site?_of_ne {label : Label} {op : Operation} (h : label ≠ op.label) :
    op.site? label = none := by
  cases op with
  | reference x site => exact if_neg (Ne.symm h)
  | _ => rfl

theorem update_of_ne {label : Label} {op : Operation} (h : label ≠ op.label)
    (e : Option Label.Entry) : op.update label e = e := by
  cases e with
  | none => simp [update, address?_of_ne h]
  | some e => simp [update, site?_of_ne h]

/-- An operation that neither defines a label nor refers to it. -/
theorem update_of_none {label : Label} {op : Operation} (ha : op.address? label = none)
    (hs : op.site? label = none) (e : Option Label.Entry) : op.update label e = e := by
  cases e <;> simp [update, ha, hs]

end Operation

variable {t : LabelTable} {label : Label}

/-! ### One operation -/

section Perform

variable {entry : Label.Entry}

theorem perform_define_of_none (h : t.get? label = none) (a : Nat) :
    ∃ u, t.perform (.define label a) = (.ok .defined, u) ∧
      ∀ x, u.get? x = if x = label then some ⟨a, #[]⟩ else t.get? x := by
  have hnew : t.contains label = false := by
    rw [contains_eq_isSome, h]
    rfl
  obtain ⟨u, hu⟩ := define_of_not_contains hnew a
  exact ⟨u, by simp only [perform, hu], (define_eq_ok hu).2⟩

theorem perform_define_of_some (h : t.get? label = some entry) (a : Nat) :
    t.perform (.define label a) = (.error (.duplicateLabel label), t) := by
  have hdup : t.define label a = .error (.duplicateLabel label) := by
    rw [define, contains_eq_isSome, h]
    rfl
  simp only [perform, hdup]

theorem perform_reference_of_none (h : t.get? label = none) (site : Nat) :
    t.perform (.reference label site) = (.error (.undefinedLabel label), t) := by
  have hundefined : t.reference label site = .error (.undefinedLabel label) := by
    rw [reference, h]
  simp only [perform, hundefined]

theorem perform_reference_of_some (h : t.get? label = some entry) (site : Nat) :
    ∃ u, t.perform (.reference label site) = (.ok (.address entry.address), u) ∧
      ∀ x, u.get? x = if x = label then some ⟨entry.address, entry.references.push site⟩
        else t.get? x := by
  have hknown : t.contains label = true := by
    rw [contains_eq_isSome, h]
    rfl
  obtain ⟨target, u, hu⟩ := reference_of_contains hknown site
  obtain ⟨e, he, rfl, hget⟩ := reference_eq_ok hu
  obtain rfl : e = entry := Option.some.inj (he.symm.trans h)
  exact ⟨u, by simp only [perform, hu], hget⟩

theorem perform_address_of_none (h : t.get? label = none) :
    t.perform (.address label) = (.error (.undefinedLabel label), t) := by
  rw [perform, address, h]
  rfl

theorem perform_address_of_some (h : t.get? label = some entry) :
    t.perform (.address label) = (.ok (.address entry.address), t) := by
  rw [perform, address, h]
  rfl

/-- An operation that fails leaves the table as it was. -/
theorem perform_of_error {op : Operation} {e : Error} (h : (t.perform op).1 = .error e) :
    (t.perform op).2 = t := by
  cases op with
  | define x a =>
    cases hx : t.get? x with
    | none =>
      obtain ⟨u, hu, -⟩ := perform_define_of_none hx a
      rw [hu] at h
      cases h
    | some entry => rw [perform_define_of_some hx]
  | reference x site =>
    cases hx : t.get? x with
    | none => rw [perform_reference_of_none hx]
    | some entry =>
      obtain ⟨u, hu, -⟩ := perform_reference_of_some hx site
      rw [hu] at h
      cases h
  | address x => rfl
  | get x => rfl
  | contains x => rfl

/-- **What an operation does** to the entries of the table. -/
theorem get?_perform (t : LabelTable) (op : Operation) (label : Label) :
    (t.perform op).2.get? label = op.update label (t.get? label) := by
  cases op with
  | define x a =>
    cases hx : t.get? x with
    | none =>
      obtain ⟨u, hu, hget⟩ := perform_define_of_none hx a
      rw [hu, hget]
      by_cases hl : label = x
      · simp [hl, hx, Operation.update, Operation.address?]
      · rw [if_neg hl, Operation.update_of_ne hl]
    | some entry =>
      rw [perform_define_of_some hx]
      by_cases hl : label = x
      · simp [hl, hx, Operation.update, Operation.site?]
      · rw [Operation.update_of_ne hl]
  | reference x site =>
    cases hx : t.get? x with
    | none =>
      rw [perform_reference_of_none hx]
      by_cases hl : label = x
      · simp [hl, hx, Operation.update, Operation.address?]
      · rw [Operation.update_of_ne hl]
    | some entry =>
      obtain ⟨u, hu, hget⟩ := perform_reference_of_some hx site
      rw [hu, hget]
      by_cases hl : label = x
      · simp [hl, hx, Operation.update, Operation.site?]
      · rw [if_neg hl, Operation.update_of_ne hl]
  | address x => exact (Operation.update_of_none rfl rfl _).symm
  | get x => exact (Operation.update_of_none rfl rfl _).symm
  | contains x => exact (Operation.update_of_none rfl rfl _).symm

end Perform

/-! ### A history -/

theorem run_append (t : LabelTable) (as bs : List Operation) :
    t.run (as ++ bs) = (t.run as).run bs := List.foldl_append

theorem run_cons (t : LabelTable) (op : Operation) (ops : List Operation) :
    t.run (op :: ops) = (t.perform op).2.run ops := rfl

/-- A label stays undefined as long as no operation defines it. -/
theorem get?_run_of_none {ops : List Operation} (h : t.get? label = none)
    (hops : ∀ a, .define label a ∉ ops) : (t.run ops).get? label = none := by
  induction ops generalizing t with
  | nil => exact h
  | cons op ops ih =>
    rw [run_cons]
    apply ih
    · have hnone : op.address? label = none := by
        rw [Option.eq_none_iff_forall_ne_some]
        intro a ha
        rw [Operation.address?_eq_some.mp ha] at hops
        exact hops a (List.mem_cons_self ..)
      rw [get?_perform, h, Operation.update, hnone]
      rfl
    · exact fun a ha => hops a (List.mem_cons_of_mem _ ha)

/-- A label that is defined keeps its address, and gathers the sites of the
references in their order. -/
theorem get?_run_of_some {entry : Label.Entry} (ops : List Operation)
    (h : t.get? label = some entry) : (t.run ops).get? label =
      some ⟨entry.address, entry.references ++ (ops.filterMap (Operation.site? label)).toArray⟩ := by
  induction ops generalizing t entry with
  | nil => simp [run, h]
  | cons op ops ih =>
    have hop : (t.perform op).2.get? label =
        some ⟨entry.address, entry.references ++ (op.site? label).toArray⟩ := by
      rw [get?_perform, h]
      rfl
    rw [run_cons, ih hop]
    cases hs : op.site? label <;> simp [hs]

/-- **The label table tells its history.** After any operations on the empty
table, a label that none of them defined has no entry, can be defined, and
cannot be referred to. Otherwise its entry is the address of its first
definition with the sites of the references after it, it cannot be defined
again, and it is referred to at that address. An operation that fails leaves
the table as it was, and none changes the entry of another label. -/
theorem run_history (ops : List Operation) :
    (∀ label, (∀ a, .define label a ∉ ops) →
      (empty.run ops).get? label = none ∧ (empty.run ops).contains label = false ∧
      (∀ a, ((empty.run ops).perform (.define label a)).1 = .ok .defined) ∧
      (∀ site, ((empty.run ops).perform (.reference label site)).1 =
        .error (.undefinedLabel label)) ∧
      ((empty.run ops).perform (.address label)).1 = .error (.undefinedLabel label)) ∧
    (∀ label before a after, ops = before ++ .define label a :: after →
      (∀ b, .define label b ∉ before) →
      (empty.run ops).get? label =
        some ⟨a, (after.filterMap (Operation.site? label)).toArray⟩ ∧
      (empty.run ops).contains label = true ∧
      (∀ b, ((empty.run ops).perform (.define label b)).1 = .error (.duplicateLabel label)) ∧
      (∀ site, ((empty.run ops).perform (.reference label site)).1 = .ok (.address a)) ∧
      ((empty.run ops).perform (.address label)).1 = .ok (.address a)) ∧
    (∀ op e, ((empty.run ops).perform op).1 = .error e →
      ((empty.run ops).perform op).2 = empty.run ops) ∧
    ∀ op label, label ≠ op.label →
      ((empty.run ops).perform op).2.get? label = (empty.run ops).get? label := by
  refine ⟨?_, ?_, fun op e => perform_of_error, fun op label hne => ?_⟩
  · intro label hops
    have hget : (empty.run ops).get? label = none := get?_run_of_none (get?_empty label) hops
    refine ⟨hget, by rw [contains_eq_isSome, hget]; rfl, fun a => ?_, fun site => ?_, ?_⟩
    · obtain ⟨u, hu, -⟩ := perform_define_of_none hget a
      exact congrArg Prod.fst hu
    · exact congrArg Prod.fst (perform_reference_of_none hget site)
    · exact congrArg Prod.fst (perform_address_of_none hget)
  · rintro label before a after rfl hbefore
    -- the first definition finds no entry, and what follows builds on its own
    have hnone := get?_run_of_none (get?_empty label) hbefore
    obtain ⟨u, hu, hentry⟩ := perform_define_of_none hnone a
    have hget := get?_run_of_some after ((hentry label).trans (if_pos rfl))
    have hrun : empty.run (before ++ .define label a :: after) = u.run after := by
      rw [run_append, run_cons]
      exact congrArg (fun r => r.2.run after) hu
    rw [Array.empty_append] at hget
    rw [hrun]
    refine ⟨hget, by rw [contains_eq_isSome, hget]; rfl, fun b => ?_, fun site => ?_, ?_⟩
    · exact congrArg Prod.fst (perform_define_of_some hget b)
    · obtain ⟨v, hv, -⟩ := perform_reference_of_some hget site
      exact congrArg Prod.fst hv
    · exact congrArg Prod.fst (perform_address_of_some hget)
  · rw [get?_perform, Operation.update_of_ne hne]

/-- References before and after a definition, and a second definition. -/
def twiceDefined : List Operation :=
  [.reference .header 7, .define .instruments 16, .define .header 0x40, .reference .header 9,
    .define .header 0x50, .reference .instruments 11, .reference .header 13]

theorem run_history_twiceDefined :
    (empty.run twiceDefined).get? .header = some ⟨0x40, #[9, 13]⟩ ∧
    ((empty.run twiceDefined).perform (.define .header 1)).1 = .error (.duplicateLabel .header) ∧
    (empty.run twiceDefined).get? (.table 0) = none := by
  obtain ⟨hnone, hsome, -⟩ := run_history twiceDefined
  obtain ⟨hget, -, hdefine, -⟩ := hsome .header [.reference .header 7, .define .instruments 16] 0x40
    _ rfl (by simp)
  exact ⟨hget, hdefine 1, (hnone (.table 0) (by simp [twiceDefined])).1⟩

end LabelTable
end Chiptune
