import VariantStorage.Proofs.Gather
import VariantStorage.Record.Basic

/-!
When records are converted, and what is reported where they are not. Conversion visits the records
of a list and, below a group, the records of its members. It fails with the defect of the first
visited record that has one, where a group stands before its members, and otherwise it returns the
fields that the records describe. The members of a record that is no group, the offset of a group
and the type beside a construct play no part, whatever they are.
-/
namespace VariantStorage.FieldRecord

/-- Whether the record describes a group: it names that type, and no construct. -/
def isGroup (r : FieldRecord) : Bool :=
  r.kind.isNone && r.type = some .group

/-- What the record itself lacks: a group needs members, and a slot an offset. -/
def defect (r : FieldRecord) : Option RecordError :=
  if r.kind = none ∧ r.type = none then some .kind
  else if r.isGroup then (if r.fields.isNone then some .members else none)
  else if r.offset.isNone then some .offset
  else none

mutual

/-- The record, and below a group the records that its members visit. -/
def visited : FieldRecord → List FieldRecord
  | ⟨offset, some .group, none, discriminant, some members⟩ =>
    ⟨offset, some .group, none, discriminant, some members⟩ :: visitedAll members
  | r => [r]

def visitedAll : List FieldRecord → List FieldRecord
  | [] => []
  | r :: rs => r.visited ++ visitedAll rs

end

/-- The defect of the first record that has one. -/
def firstDefect (rs : List FieldRecord) : Option RecordError :=
  rs.findSome? defect

mutual

/-- The record describes the field: a construct wins over a type beside it. -/
inductive Describes : FieldRecord → Field → Prop where
  | construct (offset : UInt64) (type : Option TypeName) (kind : Construct) (discriminant : UInt16)
      (members : Option (List FieldRecord)) :
      Describes ⟨some offset, type, some kind, discriminant, members⟩
        (.slot (tagOf discriminant) ⟨.construct kind, offset⟩)
  | builtin (offset : UInt64) (type : Builtin) (discriminant : UInt16)
      (members : Option (List FieldRecord)) :
      Describes ⟨some offset, some (.builtin type), none, discriminant, members⟩
        (.slot (tagOf discriminant) ⟨.builtin type, offset⟩)
  | group (offset : Option UInt64) (discriminant : UInt16) {rs : List FieldRecord}
      {fs : List Field} (h : DescribesAll rs fs) :
      Describes ⟨offset, some .group, none, discriminant, some rs⟩
        (.group (tagOf discriminant) fs)

/-- The records describe the fields, one each, in their order. -/
inductive DescribesAll : List FieldRecord → List Field → Prop where
  | nil : DescribesAll [] []
  | cons {r : FieldRecord} {f : Field} {rs : List FieldRecord} {fs : List Field}
      (h : Describes r f) (hs : DescribesAll rs fs) : DescribesAll (r :: rs) (f :: fs)

end

mutual

/-- The record without what its conversion has no use for. -/
def used : FieldRecord → FieldRecord
  | ⟨offset, _, some kind, discriminant, _⟩ => ⟨offset, none, some kind, discriminant, none⟩
  | ⟨offset, some (.builtin type), none, discriminant, _⟩ =>
    ⟨offset, some (.builtin type), none, discriminant, none⟩
  | ⟨_, some .group, none, discriminant, some members⟩ =>
    ⟨none, some .group, none, discriminant, some (usedAll members)⟩
  | ⟨_, some .group, none, discriminant, none⟩ => ⟨none, some .group, none, discriminant, none⟩
  | ⟨offset, none, none, discriminant, _⟩ => ⟨offset, none, none, discriminant, none⟩

def usedAll : List FieldRecord → List FieldRecord
  | [] => []
  | r :: rs => r.used :: usedAll rs

end

theorem toSlot_eq_error {d : UInt16} {type : SlotType} {offset : Option UInt64} {e : RecordError} :
    toSlot d type offset = .error e ↔ offset = none ∧ e = .offset := by
  cases offset with
  | none => simp [toSlot, eq_comm]
  | some offset => simp [toSlot]

theorem toSlot_eq_ok {d : UInt16} {type : SlotType} {offset : Option UInt64} {f : Field} :
    toSlot d type offset = .ok f ↔ ∃ n, offset = some n ∧ f = .slot (tagOf d) ⟨type, n⟩ := by
  cases offset with
  | none => simp [toSlot]
  | some offset => simp [toSlot, eq_comm]

/-- Only a group with members visits further records. -/
theorem visited_eq_singleton {r : FieldRecord} (h : r.isGroup = false ∨ r.fields = none) :
    r.visited = [r] := by
  unfold visited
  split
  · simp [isGroup] at h
  · rfl

theorem firstDefect_singleton (r : FieldRecord) : firstDefect [r] = r.defect := by
  simp [firstDefect]

theorem firstDefect_cons_of_none {r : FieldRecord} (h : r.defect = none) (rs : List FieldRecord) :
    firstDefect (r :: rs) = firstDefect rs := by
  simp [firstDefect, h]

/-- The first defect of two rows is that of the first one, if it has one. -/
theorem firstDefect_append (rs qs : List FieldRecord) :
    firstDefect (rs ++ qs) = (firstDefect rs).or (firstDefect qs) := by
  simp [firstDefect]

mutual

/-- A record is refused with the first defect among the records that it visits. -/
theorem toField_eq_error (r : FieldRecord) (e : RecordError) :
    r.toField = .error e ↔ firstDefect r.visited = some e := by
  match r with
  | ⟨offset, type, some kind, d, members⟩ =>
    rw [toField, toSlot_eq_error, visited_eq_singleton (.inl rfl), firstDefect_singleton]
    cases offset <;> simp [defect, isGroup, eq_comm]
  | ⟨offset, some (.builtin type), none, d, members⟩ =>
    rw [toField, toSlot_eq_error, visited_eq_singleton (.inl rfl), firstDefect_singleton]
    cases offset <;> simp [defect, isGroup, eq_comm]
  | ⟨offset, some .group, none, d, some members⟩ =>
    have hmembers := toFields_eq_error members e
    have hself : defect ⟨offset, some .group, none, d, some members⟩ = none := by
      simp [defect, isGroup]
    rw [visited, firstDefect_cons_of_none hself, ← hmembers, toField, bind_eq_error]
    simp [pure, Except.pure]
  | ⟨offset, some .group, none, d, none⟩ =>
    rw [toField, visited_eq_singleton (.inr rfl), firstDefect_singleton]
    simp [defect, isGroup]
  | ⟨offset, none, none, d, members⟩ =>
    rw [toField, visited_eq_singleton (.inl rfl), firstDefect_singleton]
    simp [defect]

/-- Several records fail with the first defect of the records that they visit. -/
theorem toFields_eq_error (rs : List FieldRecord) (e : RecordError) :
    toFields rs = .error e ↔ firstDefect (visitedAll rs) = some e := by
  match rs with
  | [] => simp [toFields, visitedAll, firstDefect]
  | r :: rs =>
    have hrest := toFields_eq_error rs e
    have hreturns := returns_iff_of_eq_error fun e => toField_eq_error r e
    rw [visitedAll, firstDefect_append, Option.or_eq_some_iff, ← toField_eq_error r e, ← hreturns,
      ← hrest, toFields, bind_eq_error]
    simp only [bind_eq_error, pure, Except.pure, reduceCtorEq, and_false, exists_false, or_false,
      exists_and_right]

end

mutual

/-- A record is converted to the one field that it describes. -/
theorem toField_eq_ok (r : FieldRecord) (f : Field) : r.toField = .ok f ↔ r.Describes f := by
  match r with
  | ⟨offset, type, some kind, d, members⟩ =>
    rw [toField, toSlot_eq_ok]
    constructor
    · intro ⟨n, hn, hf⟩
      rw [hn, hf]
      exact .construct n type kind d members
    · intro h
      cases h with
      | construct n => exact ⟨n, rfl, rfl⟩
  | ⟨offset, some (.builtin type), none, d, members⟩ =>
    rw [toField, toSlot_eq_ok]
    constructor
    · intro ⟨n, hn, hf⟩
      rw [hn, hf]
      exact .builtin n type d members
    · intro h
      cases h with
      | builtin n => exact ⟨n, rfl, rfl⟩
  | ⟨offset, some .group, none, d, some members⟩ =>
    rw [toField, bind_eq_ok]
    constructor
    · intro ⟨fs, hfs, hf⟩
      obtain rfl := Except.ok.inj hf
      exact .group offset d ((toFields_eq_ok members fs).1 hfs)
    · intro h
      cases h with
      | @group _ _ _ fs hfs => exact ⟨fs, (toFields_eq_ok members fs).2 hfs, rfl⟩
  | ⟨offset, some .group, none, d, none⟩ =>
    rw [toField]
    exact iff_of_false (by simp) nofun
  | ⟨offset, none, none, d, members⟩ =>
    rw [toField]
    exact iff_of_false (by simp) nofun

/-- Several records are converted exactly to the fields that they describe. -/
theorem toFields_eq_ok (rs : List FieldRecord) (fs : List Field) :
    toFields rs = .ok fs ↔ DescribesAll rs fs := by
  match rs with
  | [] =>
    rw [toFields, Except.ok.injEq]
    constructor
    · intro h
      exact h ▸ .nil
    · intro h
      cases h with
      | nil => rfl
  | r :: rs =>
    rw [toFields, bind_eq_ok]
    constructor
    · intro ⟨f, hf, h⟩
      obtain ⟨gs, hgs, h⟩ := bind_eq_ok.1 h
      obtain rfl := Except.ok.inj h
      exact .cons ((toField_eq_ok r f).1 hf) ((toFields_eq_ok rs gs).1 hgs)
    · intro h
      cases h with
      | @cons _ f _ gs hf hgs =>
        exact ⟨f, (toField_eq_ok r f).2 hf, bind_eq_ok.2 ⟨gs, (toFields_eq_ok rs gs).2 hgs, rfl⟩⟩

end

mutual

/-- What its conversion has no use for may be left out of a record. -/
theorem toField_used (r : FieldRecord) : r.used.toField = r.toField := by
  match r with
  | ⟨offset, type, some kind, d, members⟩ => rw [used, toField, toField]
  | ⟨offset, some (.builtin type), none, d, members⟩ => rw [used, toField, toField]
  | ⟨offset, some .group, none, d, some members⟩ =>
    rw [used, toField, toField, toFields_usedAll members]
  | ⟨offset, some .group, none, d, none⟩ => rw [used, toField, toField]
  | ⟨offset, none, none, d, members⟩ => rw [used, toField, toField]

/-- What plays no part in the conversion can be left out. -/
theorem toFields_usedAll (rs : List FieldRecord) : toFields (usedAll rs) = toFields rs := by
  match rs with
  | [] => rfl
  | r :: rs => rw [usedAll, toFields, toFields, toField_used r, toFields_usedAll rs]

end

/-- Records are refused exactly where a visited one has a defect, with the defect of the first such
record, and otherwise they are converted to the fields that they describe. Records that differ only
in what conversion has no use for have the same outcome. -/
theorem converts_exactly (rs : List FieldRecord) :
    (∀ e, toFields rs = .error e ↔ firstDefect (visitedAll rs) = some e) ∧
    ((∀ r ∈ visitedAll rs, r.defect = none) → ∃ fs, toFields rs = .ok fs) ∧
    (∀ fs, toFields rs = .ok fs ↔ DescribesAll rs fs) ∧
    ∀ others, usedAll others = usedAll rs → toFields others = toFields rs := by
  refine ⟨toFields_eq_error rs, fun hsound => ?_, toFields_eq_ok rs, fun others hsame => ?_⟩
  · rw [returns_iff_of_eq_error (toFields_eq_error rs)]
    exact List.findSome?_eq_none_iff.2 hsound
  · rw [← toFields_usedAll rs, ← hsame, toFields_usedAll others]

/-- The second member of the group is the first record that lacks something: what stands under the
list and under the boolean is never visited. -/
def tangledRecords : List FieldRecord :=
  let broken : List FieldRecord := [⟨none, none, none, 0, none⟩]
  [⟨some 3, some .group, some .list, 65535, some broken⟩,
    ⟨some 9, some .group, none, 1, some
      [⟨some 0, some (.builtin .bool), none, 65535, some broken⟩,
        ⟨some 4, some .group, none, 2, none⟩,
        ⟨none, some (.builtin .int8), none, 65535, none⟩]⟩,
    ⟨none, none, none, 65535, none⟩]

def tidyRecords : List FieldRecord :=
  [⟨some 3, none, some .list, 65535, none⟩,
    ⟨none, some .group, none, 1, some
      [⟨some 0, some (.builtin .bool), none, 65535, none⟩,
        ⟨none, some .group, none, 2, none⟩,
        ⟨none, some (.builtin .int8), none, 65535, none⟩]⟩,
    ⟨none, none, none, 65535, none⟩]

theorem converts_exactly_to_first_defect :
    firstDefect (visitedAll tangledRecords) = some .members ∧
    toFields tangledRecords = .error .members ∧
    usedAll tidyRecords = usedAll tangledRecords ∧ toFields tidyRecords = .error .members := by
  obtain ⟨hfails, -, -, hsame⟩ := converts_exactly tangledRecords
  have hfirst : firstDefect (visitedAll tangledRecords) = some .members := by rfl
  have hused : usedAll tidyRecords = usedAll tangledRecords := by rfl
  have herror := (hfails .members).2 hfirst
  exact ⟨hfirst, herror, hused, (hsame _ hused).trans herror⟩

end VariantStorage.FieldRecord
