/-
# What the operations of the label table do

A label table is seen through the entries of its labels. Defining a label
gives it an entry without references and leaves all others alone; it succeeds
exactly for a new label. A reference adds its site to the entry of its label
and yields the address of the label, and it succeeds exactly for a defined
one.

Key theorems: `LabelTable.define_eq_ok`, `LabelTable.reference_eq_ok`,
`LabelTable.define_of_not_contains`, `LabelTable.reference_of_contains`.
-/
import Chiptune.Label.Table

namespace Chiptune
namespace LabelTable

variable {t u : LabelTable} {label : Label}

theorem get?_empty (x : Label) : ({} : LabelTable).get? x = none := by
  show (∅ : Std.TreeMap Label Label.Entry Label.order)[x]? = none
  exact Std.TreeMap.getElem?_emptyc

theorem contains_eq_isSome (t : LabelTable) (x : Label) : t.contains x = (t.get? x).isSome :=
  Std.TreeMap.contains_eq_isSome_getElem?

/-- A label that is defined was new, and only its own entry changes. -/
theorem define_eq_ok {address : Nat} (h : t.define label address = .ok u) :
    t.get? label = none ∧
      ∀ x, u.get? x = if x = label then some ⟨address, #[]⟩ else t.get? x := by
  unfold define at h
  split at h
  · cases h
  · next hc =>
    cases h
    rw [contains_eq_isSome, Bool.not_eq_true, Option.isSome_eq_false_iff,
      Option.isNone_iff_eq_none] at hc
    refine ⟨hc, fun x => ?_⟩
    show (t.entries.insert label ⟨address, #[]⟩)[x]? = _
    simp only [Std.TreeMap.getElem?_insert, Std.LawfulEqCmp.compare_eq_iff_eq]
    by_cases hx : x = label
    · rw [if_pos hx.symm, if_pos hx]
    · rw [if_neg (Ne.symm hx), if_neg hx]
      rfl

/-- A reference is made to a defined label, and only the references of this
label change. -/
theorem reference_eq_ok {site target : Nat} (h : t.reference label site = .ok (target, u)) :
    ∃ e, t.get? label = some e ∧ target = e.address ∧
      ∀ x, u.get? x =
        if x = label then some ⟨e.address, e.references.push site⟩ else t.get? x := by
  unfold reference at h
  split at h
  · cases h
  · next e he =>
    obtain ⟨rfl, rfl⟩ := Prod.mk.inj (Except.ok.inj h)
    refine ⟨e, he, rfl, fun x => ?_⟩
    show (t.entries.modify label _)[x]? = _
    simp only [Std.TreeMap.getElem?_modify, Std.LawfulEqCmp.compare_eq_iff_eq]
    by_cases hx : x = label
    · rw [if_pos hx.symm, if_pos hx]
      show (t.get? label).map _ = _
      rw [he]
      rfl
    · rw [if_neg (Ne.symm hx), if_neg hx]
      rfl

theorem contains_of_define {address : Nat} (h : t.define label address = .ok u) :
    u.contains label = true := by
  rw [contains_eq_isSome, (define_eq_ok h).2, if_pos rfl]
  rfl

theorem define_of_not_contains (h : t.contains label = false) (address : Nat) :
    ∃ u, t.define label address = .ok u := by
  rw [define, h]
  exact ⟨_, rfl⟩

theorem reference_of_contains (h : t.contains label = true) (site : Nat) :
    ∃ target u, t.reference label site = .ok (target, u) := by
  rw [contains_eq_isSome, Option.isSome_iff_exists] at h
  obtain ⟨e, he⟩ := h
  rw [reference, he]
  exact ⟨_, _, rfl⟩

theorem reference_of_not_contains (h : t.contains label = false) (site : Nat) :
    t.reference label site = .error (.undefinedLabel label) := by
  rw [contains_eq_isSome, Option.isSome_eq_false_iff, Option.isNone_iff_eq_none] at h
  rw [reference, h]

/-- References define no labels. -/
theorem contains_of_reference {site target : Nat} (h : t.reference label site = .ok (target, u))
    (x : Label) : u.contains x = t.contains x := by
  obtain ⟨e, he, -, hu⟩ := reference_eq_ok h
  rw [contains_eq_isSome, contains_eq_isSome, hu]
  by_cases hx : x = label
  · rw [if_pos hx, hx, he]
    rfl
  · rw [if_neg hx]

end LabelTable
end Chiptune
