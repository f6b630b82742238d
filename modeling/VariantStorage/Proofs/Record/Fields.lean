import VariantStorage.Proofs.Record.RoundTrip

/-!
Fields through records and back. A record says with one discriminant that its field is outside the
union, so a field that carries this discriminant as its tag comes back without a tag, and so do
those inside its groups; nothing else is lost.
-/
namespace VariantStorage

namespace Field

/-- The tag, but none for the discriminant of a field outside the union. -/
def eraseTag (tag : Option UInt16) : Option UInt16 :=
  if tag = some FieldRecord.noDiscriminant then none else tag

mutual

/-- The field without the tags, its own and those inside its groups, that no record can express. -/
def erase : Field → Field
  | .slot tag s => .slot (eraseTag tag) s
  | .group tag members => .group (eraseTag tag) (eraseAll members)

def eraseAll : List Field → List Field
  | [] => []
  | f :: fs => f.erase :: eraseAll fs

end

mutual

/-- The field and all fields inside its groups. -/
def subfields : Field → List Field
  | .slot tag s => [.slot tag s]
  | .group tag members => .group tag members :: subfieldsAll members

def subfieldsAll : List Field → List Field
  | [] => []
  | f :: fs => f.subfields ++ subfieldsAll fs

end

def Expressible (f : Field) : Prop :=
  f.tag ≠ some FieldRecord.noDiscriminant

theorem eraseTag_eq_iff (tag : Option UInt16) :
    eraseTag tag = tag ↔ tag ≠ some FieldRecord.noDiscriminant := by
  unfold eraseTag
  split
  next h => simp [h]
  next h => simp [h]

mutual

/-- Erasing changes nothing exactly where no tag at any depth has to go. -/
theorem erase_eq_iff (f : Field) : f.erase = f ↔ ∀ g ∈ f.subfields, g.Expressible := by
  match f with
  | .slot tag s =>
    simp [erase, subfields, eraseTag_eq_iff, Expressible, Field.tag]
  | .group tag members =>
    have hmembers := eraseAll_eq_iff members
    simp [erase, subfields, eraseTag_eq_iff, Expressible, Field.tag, hmembers]

/-- Nothing is erased exactly if all tags can be expressed, at every depth. -/
theorem eraseAll_eq_iff (fs : List Field) :
    eraseAll fs = fs ↔ ∀ g ∈ subfieldsAll fs, g.Expressible := by
  match fs with
  | [] => simp [eraseAll, subfieldsAll]
  | f :: fs =>
    have hf := erase_eq_iff f
    have hfs := eraseAll_eq_iff fs
    simp only [eraseAll, subfieldsAll, List.cons.injEq, hf, hfs, List.forall_mem_append]

end

end Field

namespace FieldRecord

/-- A tag comes back from its discriminant, if a record can express it. -/
theorem tagOf_discriminantOf (tag : Option UInt16) :
    tagOf (discriminantOf tag) = Field.eraseTag tag := by
  cases tag with
  | none => rfl
  | some d => by_cases h : d = noDiscriminant <;> simp [tagOf, discriminantOf, Field.eraseTag, h]

mutual

/-- The record of a field describes the field, but for the tags that it cannot express. -/
theorem toField_ofField (f : Field) : (ofField f).toField = .ok f.erase := by
  match f with
  | .slot tag ⟨.builtin type, offset⟩ =>
    simp only [ofField, toField, toSlot, tagOf_discriminantOf, Field.erase]
  | .slot tag ⟨.construct kind, offset⟩ =>
    simp only [ofField, toField, toSlot, tagOf_discriminantOf, Field.erase]
  | .group tag members =>
    have hmembers := toFields_ofFields members
    simp only [ofField, toField, hmembers, tagOf_discriminantOf, Field.erase, bind, Except.bind,
      pure, Except.pure]

/-- The records of fields are converted back to the fields, but for the tags that no record can
express. -/
theorem toFields_ofFields (fs : List Field) : toFields (ofFields fs) = .ok (Field.eraseAll fs) := by
  match fs with
  | [] => simp [ofFields, toFields, Field.eraseAll]
  | f :: fs =>
    have hf := toField_ofField f
    have hfs := toFields_ofFields fs
    simp only [ofFields, toFields, hf, hfs, Field.eraseAll, bind, Except.bind, pure, Except.pure]

end

theorem tagOf_ne (d : UInt16) : tagOf d ≠ some noDiscriminant := by
  unfold tagOf
  split
  next => simp
  next h => simpa using h

theorem toSlot_expressible {d : UInt16} {type : SlotType} {offset : Option UInt64} {f : Field}
    (h : toSlot d type offset = .ok f) : ∀ g ∈ f.subfields, g.Expressible := by
  cases offset with
  | none => cases h
  | some offset =>
    obtain rfl := Except.ok.inj h
    exact List.forall_mem_singleton.2 (tagOf_ne d)

mutual

/-- A record describes no field with a tag that it cannot express. -/
theorem toField_expressible (r : FieldRecord) {f : Field} (h : r.toField = .ok f) :
    ∀ g ∈ f.subfields, g.Expressible := by
  match r with
  | ⟨offset, _, some kind, discriminant, _⟩ =>
    rw [toField] at h
    exact toSlot_expressible h
  | ⟨offset, some (.builtin type), none, discriminant, _⟩ =>
    rw [toField] at h
    exact toSlot_expressible h
  | ⟨_, some .group, none, discriminant, some rs⟩ =>
    rw [toField] at h
    obtain ⟨fs, hfs, h⟩ := bind_eq_ok.1 h
    obtain rfl := Except.ok.inj h
    exact List.forall_mem_cons.2 ⟨tagOf_ne discriminant, toFields_expressible rs hfs⟩
  | ⟨_, some .group, none, _, none⟩ => simp [toField] at h
  | ⟨_, none, none, _, _⟩ => simp [toField] at h

/-- No field of a record has a tag that records cannot express, at any depth. -/
theorem toFields_expressible (rs : List FieldRecord) {fs : List Field} (h : toFields rs = .ok fs) :
    ∀ g ∈ Field.subfieldsAll fs, g.Expressible := by
  match rs with
  | [] =>
    rw [toFields] at h
    obtain rfl := Except.ok.inj h
    exact fun g hg => absurd hg List.not_mem_nil
  | r :: rs =>
    rw [toFields] at h
    obtain ⟨f, hf, h⟩ := bind_eq_ok.1 h
    obtain ⟨fs, hfs, h⟩ := bind_eq_ok.1 h
    obtain rfl := Except.ok.inj h
    exact List.forall_mem_append.2 ⟨toField_expressible r hf, toFields_expressible rs hfs⟩

end

/-- The text of records that nests at most 127 brackets is read as what the records describe. -/
theorem fields_listText {rs : List FieldRecord} (h : Json.nesting (listText rs) ≤ Json.maxDepth) :
    Schema.fields (listText rs) = (toFields rs).mapError .record := by
  simp only [Schema.fields, ofText_listText h, Except.mapError, bind, Except.bind]

theorem exists_of_fields {text : String} {fs : List Field} (h : Schema.fields text = .ok fs) :
    ∃ rs, toFields rs = .ok fs := by
  obtain ⟨rs, -, h⟩ := bind_eq_ok.1 h
  cases hfields : toFields rs with
  | error e => simp [hfields, Except.mapError] at h
  | ok gs =>
    obtain rfl : gs = fs := by simpa [hfields, Except.mapError] using h
    exact ⟨rs, hfields⟩

/-- Fields come back from their records, and from the text of these if it nests at most 127
brackets, without the tags 65535 and otherwise unchanged; so they come back as they were exactly if
no field at any depth has that tag. No records and no text at all describe a field that has it. -/
theorem fields_survive_records (fs : List Field) :
    toFields (ofFields fs) = .ok (Field.eraseAll fs) ∧
    (toFields (ofFields fs) = .ok fs ↔ ∀ f ∈ Field.subfieldsAll fs, f.tag ≠ some 65535) ∧
    (∀ rs gs, toFields rs = .ok gs → ∀ g ∈ Field.subfieldsAll gs, g.tag ≠ some 65535) ∧
    (Json.nesting (listText (ofFields fs)) ≤ 127 →
      Schema.fields (listText (ofFields fs)) = .ok (Field.eraseAll fs)) ∧
    ∀ text gs, Schema.fields text = .ok gs → ∀ g ∈ Field.subfieldsAll gs, g.tag ≠ some 65535 := by
  have hback := toFields_ofFields fs
  refine ⟨hback, ?_, fun rs gs => toFields_expressible rs, fun hnesting => ?_, fun text gs h => ?_⟩
  · rw [hback, Except.ok.injEq]
    exact Field.eraseAll_eq_iff fs
  · rw [fields_listText hnesting, hback]
    rfl
  · obtain ⟨rs, hrs⟩ := exists_of_fields h
    exact toFields_expressible rs hrs

/-- A group and a slot in it lose their tags, and the slot beside that one keeps its own. -/
theorem fields_survive_records_in_group :
    let fs : List Field := [.group (some 65535)
      [.slot (some 65535) ⟨.builtin .bool, 3⟩, .slot (some 65534) ⟨.construct .list, 0⟩]]
    let gs : List Field := [.group none
      [.slot none ⟨.builtin .bool, 3⟩, .slot (some 65534) ⟨.construct .list, 0⟩]]
    toFields (ofFields fs) = .ok gs ∧ toFields (ofFields fs) ≠ .ok fs ∧
      Json.nesting (listText (ofFields fs)) = 4 ∧ Schema.fields (listText (ofFields fs)) = .ok gs ∧
      ∀ g ∈ Field.subfieldsAll gs, g.tag ≠ some 65535 := by
  intro fs gs
  obtain ⟨hback, hsame, hrecords, htext, -⟩ := fields_survive_records fs
  have hnesting : Json.nesting (listText (ofFields fs)) = 4 := by
    rw [nesting_listText]
    rfl
  refine ⟨hback, fun h => ?_, hnesting, htext (by omega), hrecords _ gs hback⟩
  exact hsame.1 h _ List.mem_cons_self rfl

end FieldRecord

end VariantStorage
