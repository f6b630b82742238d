import VariantStorage.Proofs.Union.Dependence

/-!
Changes to a list of fields that its layout does not see. Inside a variant the groups may be
permuted, nested and flattened, inner tags are free, and a number may give way to others over the
same bytes; the list itself may be reordered, repeat a variant, give a variant another discriminant,
and gain or lose fields outside the union. Every such change keeps the three sets that a layout
depends on, and so does any number of them, made or undone.
-/
namespace VariantStorage

/-- The two lists of slots claim the same storage. -/
structure Slot.Alike (slots others : List Slot) : Prop where
  bits : ∀ n, (∃ s ∈ slots, s.ClaimsBit n) ↔ ∃ t ∈ others, t.ClaimsBit n
  bytes : ∀ byte, (∃ s ∈ slots, s.CoversByte byte) ↔ ∃ t ∈ others, t.CoversByte byte
  offsets : ∀ n, (∃ s ∈ slots, s.PointsAt n) ↔ ∃ t ∈ others, t.PointsAt n

namespace Slot

theorem Alike.symm {slots others : List Slot} (h : Alike slots others) : Alike others slots :=
  ⟨fun n => (h.bits n).symm, fun byte => (h.bytes byte).symm, fun n => (h.offsets n).symm⟩

/-- The order of slots and their repetition play no part. -/
theorem Alike.of_mem_iff {slots others : List Slot} (h : ∀ s, s ∈ slots ↔ s ∈ others) :
    Alike slots others := by
  constructor <;> intro n <;> simp only [h]

theorem Alike.refl (slots : List Slot) : Alike slots slots :=
  .of_mem_iff fun _ => Iff.rfl

theorem Alike.append {slots others slots' others' : List Slot} (h : Alike slots others)
    (h' : Alike slots' others') : Alike (slots ++ slots') (others ++ others') := by
  constructor
  · intro n
    simp only [List.mem_append, or_and_right, exists_or, h.bits, h'.bits]
  · intro byte
    simp only [List.mem_append, or_and_right, exists_or, h.bytes, h'.bytes]
  · intro n
    simp only [List.mem_append, or_and_right, exists_or, h.offsets, h'.offsets]

/-- What is stored in the data section as a number is no boolean and no pointer. -/
theorem not_claimsBit_of_dataWidth {s : Slot} (h : s.type.dataWidth.isSome = true) (n : Nat) :
    ¬s.ClaimsBit n := by
  rintro ⟨htype, -⟩
  simp [htype, SlotType.dataWidth, Builtin.dataWidth] at h

theorem not_pointsAt_of_dataWidth {s : Slot} (h : s.type.dataWidth.isSome = true) (n : Nat) :
    ¬s.PointsAt n := by
  rintro ⟨hpointer, -⟩
  obtain ⟨type, offset⟩ := s
  cases type with
  | builtin b => cases b <;> simp_all [SlotType.isPointer, SlotType.dataWidth, Builtin.dataWidth]
  | construct c => cases c <;> simp_all [SlotType.isPointer, SlotType.dataWidth]

/-- A number may give way to others over the same bytes. -/
theorem Alike.of_data {slots others : List Slot}
    (h : ∀ s ∈ slots, s.type.dataWidth.isSome = true)
    (h' : ∀ s ∈ others, s.type.dataWidth.isSome = true)
    (hbytes : ∀ byte, (∃ s ∈ slots, s.CoversByte byte) ↔ ∃ t ∈ others, t.CoversByte byte) :
    Alike slots others := by
  refine ⟨fun n => iff_of_false ?_ ?_, hbytes, fun n => iff_of_false ?_ ?_⟩
  · rintro ⟨s, hs, hbit⟩
    exact not_claimsBit_of_dataWidth (h s hs) n hbit
  · rintro ⟨s, hs, hbit⟩
    exact not_claimsBit_of_dataWidth (h' s hs) n hbit
  · rintro ⟨s, hs, hat⟩
    exact not_pointsAt_of_dataWidth (h s hs) n hat
  · rintro ⟨s, hs, hat⟩
    exact not_pointsAt_of_dataWidth (h' s hs) n hat

end Slot

namespace Field

@[simp] theorem leaves_withTag (d : UInt16) (f : Field) : (f.withTag d).leaves = f.leaves := by
  cases f with
  | slot tag s => simp [withTag, leaves]
  | group tag members => simp [withTag, leaves]

/-- One change inside a field. -/
inductive Rearranged : Field → Field → Prop where
  /-- The members of a group in another order. -/
  | permute (tag : Option UInt16) {members others : List Field} (h : members.Perm others) :
      Rearranged (.group tag members) (.group tag others)
  /-- Neighbours in a group as a group of their own. -/
  | nest (tag inner : Option UInt16) (before members after : List Field) :
      Rearranged (.group tag (before ++ (members ++ after)))
        (.group tag (before ++ .group inner members :: after))
  /-- A slot as the only member of a group. -/
  | wrap (tag inner : Option UInt16) (s : Slot) :
      Rearranged (.slot tag s) (.group tag [.slot inner s])
  /-- A tag on a member of a group. -/
  | tag (tag : Option UInt16) (before : List Field) (f : Field) (d : UInt16)
      (after : List Field) :
      Rearranged (.group tag (before ++ f :: after)) (.group tag (before ++ f.withTag d :: after))
  /-- Numbers in place of a number over the same bytes. -/
  | replace (tag : Option UInt16) {s : Slot} {slots : List Slot}
      (hs : s.type.dataWidth.isSome = true) (hslots : ∀ t ∈ slots, t.type.dataWidth.isSome = true)
      (hbytes : ∀ byte, s.CoversByte byte ↔ ∃ t ∈ slots, t.CoversByte byte) :
      Rearranged (.slot tag s) (.group tag (slots.map (.slot none)))
  /-- A change inside a member of a group. -/
  | inside (tag : Option UInt16) (before : List Field) {f g : Field} (after : List Field)
      (h : Rearranged f g) :
      Rearranged (.group tag (before ++ f :: after)) (.group tag (before ++ g :: after))

theorem Rearranged.isVariant_eq {f g : Field} (h : Rearranged f g) :
    f.isVariant = g.isVariant := by
  cases h <;> rfl

theorem Rearranged.alike {f g : Field} (h : Rearranged f g) : Slot.Alike f.leaves g.leaves := by
  induction h with
  | permute tag h =>
    apply Slot.Alike.of_mem_iff
    intro s
    simp only [leaves, leavesAll_eq_flatMap]
    exact (h.flatMap_right leaves).mem_iff
  | nest tag inner before members after =>
    simp only [leaves, leavesAll_append, leavesAll]
    exact .refl _
  | wrap tag inner s =>
    simp only [leaves, leavesAll, List.append_nil]
    exact .refl _
  | tag tag before f d after =>
    simp only [leaves, leavesAll_append, leavesAll, leaves_withTag]
    exact .refl _
  | replace tag hs hslots hbytes =>
    simp only [leaves, leavesAll_slots]
    exact .of_data (by simpa using hs) hslots (by simpa using hbytes)
  | inside tag before after h ih =>
    simp only [leaves, leavesAll_append, leavesAll]
    exact (Slot.Alike.refl _).append (ih.append (.refl _))

end Field

namespace Union

/-- One change to a list of fields. -/
inductive Edit : List Field → List Field → Prop where
  /-- The fields in another order. -/
  | reorder {fields others : List Field} (h : fields.Perm others) : Edit fields others
  /-- A field once more. -/
  | duplicate {f : Field} {fields : List Field} (h : f ∈ fields) : Edit fields (f :: fields)
  /-- A variant with another discriminant. -/
  | discriminant (before : List Field) {f : Field} (d : UInt16) (after : List Field)
      (h : f.isVariant = true) : Edit (before ++ f :: after) (before ++ f.withTag d :: after)
  /-- A change inside a field. -/
  | inside (before : List Field) {f g : Field} (after : List Field) (h : f.Rearranged g) :
      Edit (before ++ f :: after) (before ++ g :: after)
  /-- A further field outside the union. -/
  | outside (before : List Field) {f : Field} (after : List Field) (h : f.isVariant = false) :
      Edit (before ++ after) (before ++ f :: after)

/-- Each variant of one list has a counterpart in the other that claims the same storage. -/
def Embeds (fields others : List Field) : Prop :=
  ∀ f ∈ Field.variants fields, ∃ g ∈ Field.variants others, Slot.Alike f.leaves g.leaves

section Embeds

variable {fields others : List Field}

theorem mem_variants {f : Field} : f ∈ Field.variants fields ↔ f ∈ fields ∧ f.isVariant = true :=
  List.mem_filter

theorem Embeds.of_mem (h : ∀ f ∈ fields, f.isVariant = true → f ∈ others) :
    Embeds fields others := by
  intro f hf
  obtain ⟨hf, hvariant⟩ := mem_variants.1 hf
  exact ⟨f, mem_variants.2 ⟨h f hf hvariant, hvariant⟩, .refl _⟩

/-- One field may give way to another that claims the same storage. -/
theorem Embeds.of_alike (before : List Field) {f g : Field} (after : List Field)
    (htag : f.isVariant = g.isVariant) (h : Slot.Alike f.leaves g.leaves) :
    Embeds (before ++ f :: after) (before ++ g :: after) := by
  intro x hx
  obtain ⟨hx, hvariant⟩ := mem_variants.1 hx
  simp only [List.mem_append, List.mem_cons] at hx
  by_cases hxf : x = f
  · subst hxf
    exact ⟨g, mem_variants.2 ⟨by simp, htag ▸ hvariant⟩, h⟩
  · refine ⟨x, mem_variants.2 ⟨?_, hvariant⟩, .refl _⟩
    simp only [List.mem_append, List.mem_cons]
    rcases hx with hx | hx | hx
    · exact .inl hx
    · exact absurd hx hxf
    · exact .inr (.inr hx)

/-- A counterpart claims the same bits. -/
theorem Embeds.boolSets_subset (h : Embeds fields others) : boolSets fields ⊆ boolSets others := by
  rintro bits ⟨hne, f, hf, rfl⟩
  obtain ⟨g, hg, halike⟩ := h f hf
  exact ⟨hne, g, hg, Set.ext halike.bits⟩

theorem Embeds.dataSet_subset (h : Embeds fields others) : dataSet fields ⊆ dataSet others := by
  rintro byte ⟨f, hf, hcovers⟩
  obtain ⟨g, hg, halike⟩ := h f hf
  exact ⟨g, hg, (halike.bytes byte).1 hcovers⟩

theorem Embeds.pointerSet_subset (h : Embeds fields others) :
    pointerSet fields ⊆ pointerSet others := by
  rintro n ⟨f, hf, hat⟩
  obtain ⟨g, hg, halike⟩ := h f hf
  exact ⟨g, hg, (halike.offsets n).1 hat⟩

theorem SameClaims.of_embeds (h : Embeds fields others) (h' : Embeds others fields) :
    SameClaims fields others where
  bools := h.boolSets_subset.antisymm h'.boolSets_subset
  data := h.dataSet_subset.antisymm h'.dataSet_subset
  offsets := h.pointerSet_subset.antisymm h'.pointerSet_subset

end Embeds

/-- No edit changes what is claimed. -/
theorem Edit.sameClaims {fields others : List Field} (h : Edit fields others) :
    SameClaims fields others := by
  -- but for one field at most, each variant is its own counterpart
  cases h with
  | reorder h =>
    exact .of_embeds (.of_mem fun f hf _ => h.mem_iff.1 hf) (.of_mem fun f hf _ => h.mem_iff.2 hf)
  | duplicate h =>
    refine .of_embeds (.of_mem fun g hg _ => List.mem_cons_of_mem _ hg) (.of_mem fun g hg _ => ?_)
    rcases List.mem_cons.1 hg with rfl | hg
    · exact h
    · exact hg
  | @discriminant before f d after h =>
    have htag : f.isVariant = (f.withTag d).isVariant := by rw [h, Field.isVariant_withTag]
    have halike : Slot.Alike f.leaves (f.withTag d).leaves := by
      rw [Field.leaves_withTag]
      exact .refl _
    exact .of_embeds (.of_alike before after htag halike)
      (.of_alike before after htag.symm halike.symm)
  | inside before after h =>
    exact .of_embeds (.of_alike before after h.isVariant_eq h.alike)
      (.of_alike before after h.isVariant_eq.symm h.alike.symm)
  | @outside before f after h =>
    refine .of_embeds (.of_mem fun g hg _ => ?_) (.of_mem fun g hg hvariant => ?_)
    · rcases List.mem_append.1 hg with hg | hg
      · exact List.mem_append_left _ hg
      · exact List.mem_append_right _ (List.mem_cons_of_mem _ hg)
    · rcases List.mem_append.1 hg with hg | hg
      · exact List.mem_append_left _ hg
      · rcases List.mem_cons.1 hg with rfl | hg
        -- the further field is no variant
        · rw [h] at hvariant
          cases hvariant
        · exact List.mem_append_right _ hg

/-- Any number of changes, made or undone. -/
theorem sameClaims_of_edits {fields others : List Field} (h : Relation.EqvGen Edit fields others) :
    SameClaims fields others := by
  induction h with
  | rel fields others h => exact h.sameClaims
  | refl fields => exact ⟨rfl, rfl, rfl⟩
  | symm fields others _ ih => exact ih.symm
  | trans fields others more _ _ ih ih' =>
    exact ⟨ih.bools.trans ih'.bools, ih.data.trans ih'.data, ih.offsets.trans ih'.offsets⟩

/-- A layout depends on nothing but the sets of bits that single variants claim with their booleans,
the set of bytes that variants store numbers in and the set of offsets of their pointers. So it is
the same however the list and the groups inside its variants are rearranged. -/
theorem layout_depends_on_claims (fields others : List Field) :
    (SameClaims fields others → SameLayout fields others) ∧
    (Relation.EqvGen Edit fields others → SameLayout fields others) :=
  ⟨SameClaims.sameLayout, fun h => (sameClaims_of_edits h).sameLayout⟩

/-- A variant with a 16-bit number, one with two booleans and a pointer, and a field outside. -/
def plainFields : List Field :=
  [.slot (some 0) ⟨.builtin .uint16, 1⟩,
    .group (some 1) [.slot none ⟨.builtin .bool, 3⟩, .slot none ⟨.builtin .bool, 9⟩,
      .slot none ⟨.construct .list, 2⟩],
    .slot none ⟨.builtin .uint64, 4⟩]

/-- The same storage: the number as two bytes, the booleans nested, the pointer tagged and first,
the variants in the other order, one with another discriminant, and nothing outside. -/
def rearrangedFields : List Field :=
  [.group (some 7) [.slot (some 5) ⟨.construct .list, 2⟩,
      .group (some 6) [.slot none ⟨.builtin .bool, 3⟩, .slot none ⟨.builtin .bool, 9⟩]],
    .group (some 0) [.slot none ⟨.builtin .uint8, 2⟩, .slot none ⟨.builtin .int8, 3⟩]]

theorem edits_plain_rearranged : Relation.EqvGen Edit plainFields rearrangedFields := by
  have hbytes : ∀ byte, (⟨.builtin .uint16, 1⟩ : Slot).CoversByte byte ↔
      ∃ t ∈ [(⟨.builtin .uint8, 2⟩ : Slot), ⟨.builtin .int8, 3⟩], t.CoversByte byte := by
    intro byte
    simp [Slot.CoversByte, SlotType.dataWidth, Builtin.dataWidth]
    omega
  refine .trans _ _ _ (.symm _ _ (.rel _ _ (.outside (plainFields.take 2) [] (by rfl)))) ?_
  refine .trans _ _ _ (.rel _ _ (.reorder (List.Perm.swap _ _ _))) ?_
  refine .trans _ _ _ (.rel _ _ (.discriminant [] 7 _ rfl)) ?_
  refine .trans _ _ _ (.rel _ _ (.inside [_] [] (.replace (some 0) rfl (by decide) hbytes))) ?_
  refine .trans _ _ _ (.rel _ _ (.inside [] _ (.permute (some 7)
    (List.perm_append_singleton _ [_, _])))) ?_
  refine .trans _ _ _ (.rel _ _ (.inside [] _ (.nest (some 7) (some 6) [_] [_, _] []))) ?_
  exact .rel _ _ (.inside [] _ (.tag (some 7) [] _ 5 _))

/-- The layout of the first list is computed, and so it is the layout of the second one. -/
theorem layout_depends_on_claims_rearranged :
    SameClaims plainFields rearrangedFields ∧ Relation.EqvGen Edit plainFields rearrangedFields ∧
    UnionLayout.resolve plainFields = .ok ⟨[⟨1, 0xfd⟩, ⟨0, 0xf7⟩], [⟨2, 2⟩], [16]⟩ ∧
    UnionLayout.resolve rearrangedFields = .ok ⟨[⟨1, 0xfd⟩, ⟨0, 0xf7⟩], [⟨2, 2⟩], [16]⟩ ∧
    ¬∃ e, UnionLayout.resolve rearrangedFields = .error e := by
  have hedits := edits_plain_rearranged
  have hclaims := sameClaims_of_edits hedits
  have hplain : UnionLayout.resolve plainFields =
      .ok ⟨[⟨1, 0xfd⟩, ⟨0, 0xf7⟩], [⟨2, 2⟩], [16]⟩ := by cbv
  have hsame := (layout_depends_on_claims plainFields rearrangedFields).1 hclaims
  have hsame' := (layout_depends_on_claims plainFields rearrangedFields).2 hedits
  refine ⟨hclaims, hedits, hplain, (hsame.returns_iff _).1 hplain, ?_⟩
  rw [← hsame'.fails_iff, hplain]
  simp

end Union

end VariantStorage
