import VariantStorage.Proofs.Record.Room
import VariantStorage.Proofs.Record.Writing
import VariantStorage.Schema

/-!
Records through text and back. A written record is read back if its text nests no more brackets than
a reader has room for, and is malformed otherwise. What is read from some text always fits, since
the text had at least as many brackets; so after one reading and writing nothing changes any more.
-/
namespace VariantStorage

open Json (Fragment ReadError)

theorem FieldRecord.ofText_listText {rs : List FieldRecord}
    (h : Json.nesting (listText rs) ≤ Json.maxDepth) : ofText (listText rs) = .ok rs := by
  rw [nesting_listText] at h
  exact ofText_eq_ok.2 ⟨_, (writable_array rs).spelledBy, rendersList_array h⟩

namespace StructRecord

def rewritten (text : String) : Except ReadError String :=
  (ofText text).map StructRecord.text

variable {r : StructRecord} {text : String}

/-- A struct record is read back from its text, if the text does not nest too deep. -/
theorem ofText_text (h : Json.nesting r.text ≤ Json.maxDepth) : ofText r.text = .ok r := by
  rw [nesting_text] at h
  exact ofText_eq_ok.2 ⟨r.fragment, r.writable_fragment.spelledBy, renders_fragment h⟩

/-- A reader with more room would read the written text back, so one with too little room for it can
only find it malformed. -/
theorem ofText_text_malformed (h : Json.maxDepth < Json.nesting r.text) :
    ofText r.text = .error .malformed := by
  rw [nesting_text] at h
  have hrenders := renders_fragment (Nat.le_refl r.fragment.depth)
  have hspells : r.fragment.SpelledBy r.text := r.writable_fragment.spelledBy
  have hmalformed : read Json.maxDepth r.fragment = .error .malformed := by
    refine (read_within (Nat.le_of_lt h) r.fragment).eq_malformed fun hsame => ?_
    have hread := hsame.trans ((read_eq_ok _ _ r).2 hrenders)
    have hfits := ((read_eq_ok _ _ r).1 hread).depth_le
    omega
  rw [ofText, Json.readText_of_spelledBy hspells, hmalformed]
  rfl

/-- What was read once nests no deeper when it is written. -/
theorem nesting_le_of_ofText (h : ofText text = .ok r) : Json.nesting r.text ≤ Json.maxDepth := by
  obtain ⟨v, -, hrenders⟩ := ofText_eq_ok.1 h
  rw [nesting_text]
  exact hrenders.depth_le

theorem layout_congr {other : String} (h : ofText text = ofText other) :
    Schema.layout text = Schema.layout other := by
  rw [Schema.layout, Schema.layout, h]

/-- A struct record is read back from its text exactly if the text nests at most 127 brackets. From
any text that is read as the record, the record's own text is one that is read as it, too, that is
written as itself, and that has the same layout or the same failure. -/
theorem survives_text (r : StructRecord) :
    (Json.nesting r.text ≤ 127 → ofText r.text = .ok r) ∧
    (128 ≤ Json.nesting r.text → ofText r.text = .error .malformed) ∧
    ∀ text, ofText text = .ok r →
      ofText r.text = .ok r ∧ rewritten text = .ok r.text ∧ rewritten r.text = .ok r.text ∧
        Schema.layout r.text = Schema.layout text := by
  refine ⟨ofText_text, ofText_text_malformed, fun text htext => ?_⟩
  have hback := ofText_text (nesting_le_of_ofText htext)
  refine ⟨hback, ?_, ?_, layout_congr (hback.trans htext.symm)⟩
  · rw [rewritten, htext]
    rfl
  · rw [rewritten, hback]
    rfl

def nestedGroups : Nat → FieldRecord
  | 0 => ⟨some 5, some (.builtin .bool), none, 0, none⟩
  | n + 1 => ⟨none, some .group, none, FieldRecord.noDiscriminant, some [nestedGroups n]⟩

theorem depth_nestedGroups (n : Nat) : (nestedGroups n).fragment.depth = 2 * n + 1 := by
  induction n with
  | zero => rfl
  | succ n ih =>
    have hstep : (nestedGroups (n + 1)).fragment.depth = (nestedGroups n).fragment.depth + 2 := by
      simp [nestedGroups, FieldRecord.fragment, FieldRecord.fragments, FieldRecord.optional,
        Fragment.depth, Fragment.depthOfItems, Fragment.depthOfMembers, Fragment.ofName,
        Fragment.ofNat]
    omega

theorem nesting_nestedGroups (n : Nat) : Json.nesting (mk [nestedGroups n]).text = 2 * n + 3 := by
  rw [nesting_text, depth_fragment]
  simp [FieldRecord.fragments, Fragment.depth, Fragment.depthOfItems, depth_nestedGroups]

/-- The deepest nest of groups that is read back, the next one, and a text that is not the one that
is written for its record. -/
theorem survives_text_at_limit :
    (Json.nesting (mk [nestedGroups 62]).text = 127 ∧
      ofText (mk [nestedGroups 62]).text = .ok ⟨[nestedGroups 62]⟩) ∧
    (Json.nesting (mk [nestedGroups 63]).text = 129 ∧
      ofText (mk [nestedGroups 63]).text = .error .malformed) ∧
    (ofText "[[[5,\"Bool\",null,0]]]" = .ok ⟨[nestedGroups 0]⟩ ∧
      rewritten (mk [nestedGroups 0]).text = .ok (mk [nestedGroups 0]).text ∧
      Schema.layout (mk [nestedGroups 0]).text = Schema.layout "[[[5,\"Bool\",null,0]]]") := by
  have hread : ofText "[[[5,\"Bool\",null,0]]]" = .ok ⟨[nestedGroups 0]⟩ := by cbv
  have hfits : Json.nesting (mk [nestedGroups 62]).text = 127 := nesting_nestedGroups 62
  have hexceeds : Json.nesting (mk [nestedGroups 63]).text = 129 := nesting_nestedGroups 63
  obtain ⟨-, -, hwritten, hlayout⟩ := (survives_text ⟨[nestedGroups 0]⟩).2.2 _ hread
  refine ⟨⟨hfits, (survives_text _).1 (by omega)⟩, ⟨hexceeds, (survives_text _).2.1 (by omega)⟩,
    hread, hwritten, hlayout⟩

end StructRecord

end VariantStorage
