import VariantStorage.Proofs.Union.Failure

/-!
Variants of their own against one variant that groups them all. The same storage is claimed, but the
bits of separate variants are joined mask by mask and those of a group within one partition. A byte
that the variants fill only together has an empty mask in the one layout and is a range in the
other, and a mask that the one layout keeps beside a range is not there in the other.
-/
namespace VariantStorage

namespace Field

variable {tag : Option UInt16} {fs : List Field} {byte k : Nat}

theorem claimsBit_group {n : Nat} :
    (Field.group tag fs).ClaimsBit n ↔ ∃ f ∈ fs, f.ClaimsBit n :=
  exists_leaf_group

theorem coversByte_group : (Field.group tag fs).CoversByte byte ↔ ∃ f ∈ fs, f.CoversByte byte :=
  exists_leaf_group

theorem endOverflows_group : (Field.group tag fs).EndOverflows ↔ ∃ f ∈ fs, f.EndOverflows :=
  exists_leaf_group

theorem pointerOverflows_group :
    (Field.group tag fs).PointerOverflows ↔ ∃ f ∈ fs, f.PointerOverflows :=
  exists_leaf_group

theorem pointsAt_group {n : Nat} : (Field.group tag fs).PointsAt n ↔ ∃ f ∈ fs, f.PointsAt n :=
  exists_leaf_group

/-- A byte that a member fills is filled by the group. -/
theorem fillsByte_group_of_mem (h : ∃ f ∈ fs, f.FillsByte byte) :
    (Field.group tag fs).FillsByte byte := by
  obtain ⟨f, hf, hfills⟩ := h
  intro k hk
  exact claimsBit_group.2 ⟨f, hf, hfills k hk⟩

/-- In a byte that no member fills, the members that share it are all that claim a bit of it. -/
theorem claimsBit_group_iff_shares (hfree : ¬∃ f ∈ fs, f.FillsByte byte) (hk : k < 8) :
    (Field.group tag fs).ClaimsBit (8 * byte + k) ↔
      ∃ f ∈ fs, f.SharesByte byte ∧ f.ClaimsBit (8 * byte + k) := by
  rw [claimsBit_group]
  constructor
  · intro ⟨f, hf, hbit⟩
    exact ⟨f, hf, ⟨⟨k, hk, hbit⟩, fun hfills => hfree ⟨f, hf, hfills⟩⟩, hbit⟩
  · intro ⟨f, hf, _, hbit⟩
    exact ⟨f, hf, hbit⟩

/-- A group shares a byte that a member shares and none fills, unless the members fill it together.
-/
theorem sharesByte_group_iff : (Field.group tag fs).SharesByte byte ↔
    (∃ f ∈ fs, f.SharesByte byte) ∧ (¬∃ f ∈ fs, f.FillsByte byte) ∧
      ¬(Field.group tag fs).FillsByte byte := by
  constructor
  · intro ⟨⟨k, hk, hbit⟩, hpart⟩
    have hfree : ¬∃ f ∈ fs, f.FillsByte byte := fun h => hpart (fillsByte_group_of_mem h)
    obtain ⟨f, hf, hshare, -⟩ := (claimsBit_group_iff_shares hfree hk).1 hbit
    exact ⟨⟨f, hf, hshare⟩, hfree, hpart⟩
  · intro ⟨⟨f, hf, ⟨k, hk, hbit⟩, _⟩, _, hpart⟩
    exact ⟨⟨k, hk, claimsBit_group.2 ⟨f, hf, hbit⟩⟩, hpart⟩

end Field

namespace Union

/-- The masks of one variant lie outside its ranges. -/
theorem masks_apart_of_one_variant {fields : List Field} {f : Field} {ms : List MaskEntry}
    {rs : List ByteRange} (hone : Field.variants fields = [f]) (hms : masks fields = .ok ms)
    (hrs : ranges fields = .ok rs) {e : MaskEntry} (he : e ∈ ms) :
    ¬∃ r ∈ rs, r.covers e.position.toNat = true := by
  obtain ⟨hdata, hshare, -⟩ := (mem_masks_iff hms).1 he
  rw [(ranges_canonical hrs).2, ClearsByte]
  rw [hone] at hdata hshare ⊢
  simp only [List.mem_singleton, exists_eq_left, not_or] at hdata hshare ⊢
  exact ⟨hshare.2, hdata⟩

section Grouped

variable {fs : List Field} (hall : ∀ f ∈ fs, f.isVariant = true) {d : UInt16}

/-- The one variant that holds all fields. -/
def grouped (d : UInt16) (fs : List Field) : Field :=
  (Field.group none fs).withTag d

theorem variants_grouped (d : UInt16) (fs : List Field) :
    Field.variants [grouped d fs] = [Field.group (some d) fs] :=
  rfl

include hall

theorem variants_eq_self : Field.variants fs = fs :=
  List.filter_eq_self.2 hall

/-- Variants in one group fail exactly if they fail by themselves. -/
theorem resolve_grouped_fails_iff : (∃ e, UnionLayout.resolve [grouped d fs] = .error e) ↔
    ∃ e, UnionLayout.resolve fs = .error e := by
  rw [resolve_fails_iff, resolve_fails_iff, variants_grouped, variants_eq_self hall]
  simp only [List.mem_singleton, exists_eq_left, Field.endOverflows_group,
    Field.pointerOverflows_group, and_or_left, exists_or]

/-- Variants in one group have the pointers that they have by themselves. -/
theorem pointers_grouped {ps qs : List UInt64} (hp : pointers [grouped d fs] = .ok ps)
    (hq : pointers fs = .ok qs) : ps = qs := by
  apply pointers_eq_of_pointsAt hp hq
  intro n
  rw [variants_grouped, variants_eq_self hall]
  simp only [List.mem_singleton, exists_eq_left, Field.pointsAt_group]

/-- At a byte that no variant fills, the joined mask keeps what no variant claims. -/
theorem masks_testBit_group {ms : List MaskEntry} (hms : masks fs = .ok ms) {e : MaskEntry}
    (he : e ∈ ms) (hfree : ¬∃ f ∈ fs, f.FillsByte e.position.toNat) {k : Nat} (hk : k < 8) :
    e.mask.toNat.testBit k = true ↔
      ¬(Field.group (some d) fs).ClaimsBit (8 * e.position.toNat + k) := by
  rw [masks_testBit_iff hms he hk, variants_eq_self hall,
    Field.claimsBit_group_iff_shares hfree hk]
  simp only [not_exists, not_and]

/-- The variants fill a byte together where their joined mask is empty. -/
theorem masks_eq_zero_iff {ms : List MaskEntry} (hms : masks fs = .ok ms) {e : MaskEntry}
    (he : e ∈ ms) (hfree : ¬∃ f ∈ fs, f.FillsByte e.position.toNat) :
    e.mask = 0 ↔ (Field.group (some d) fs).FillsByte e.position.toNat := by
  rw [byte_zero_iff]
  apply forall₂_congr
  intro k hk
  rw [masks_testBit_group hall hms he hfree hk, not_not]

/-- The group keeps the masks of separate variants that still keep a bit, at the bytes that are not
cleared whole anyway. -/
theorem mem_masks_grouped_iff {ms ms' : List MaskEntry} {rs : List ByteRange}
    (hgroup : masks [grouped d fs] = .ok ms') (hms : masks fs = .ok ms)
    (hrs : ranges fs = .ok rs) {e : MaskEntry} : e ∈ ms' ↔
      e ∈ ms ∧ e.mask ≠ 0 ∧ ¬∃ r ∈ rs, r.covers e.position.toNat = true := by
  have hcovers := (ranges_canonical hrs).2 e.position.toNat
  rw [mem_masks_iff hgroup, hcovers, ClearsByte, variants_grouped, variants_eq_self hall]
  simp only [List.mem_singleton, exists_eq_left, forall_eq, Field.coversByte_group, and_or_left,
    exists_or, not_or]
  -- a mask of the group is at a byte that no member fills, so both layouts keep the same bits of it
  constructor
  · rintro ⟨hdata, hshare, hkeeps⟩
    obtain ⟨hsome, hfree, hpart⟩ := Field.sharesByte_group_iff.1 hshare
    have he : e ∈ ms := by
      rw [mem_masks_iff hms, variants_eq_self hall]
      refine ⟨by simpa only [Field.coversByte_group] using hdata, hsome, fun k hk => ?_⟩
      rw [hkeeps k hk, imp_iff_right hshare, Field.claimsBit_group_iff_shares hfree hk]
      simp only [not_exists, not_and]
    exact ⟨he, mt (masks_eq_zero_iff hall hms he hfree).1 hpart, hfree, hdata⟩
  · rintro ⟨he, hne, hfree, hdata⟩
    have hsome : ∃ f ∈ fs, f.SharesByte e.position.toNat :=
      variants_eq_self hall ▸ ((mem_masks_iff hms).1 he).2.1
    have hpart : ¬(Field.group (some d) fs).FillsByte e.position.toNat :=
      mt (masks_eq_zero_iff hall hms he hfree).2 hne
    have hshare := Field.sharesByte_group_iff.2 ⟨hsome, hfree, hpart⟩
    refine ⟨hdata, hshare, fun k hk => ?_⟩
    rw [masks_testBit_group hall hms he hfree hk, imp_iff_right hshare]

/-- The bytes that separate variants fill only together are those of their empty masks. -/
theorem clearsByte_grouped_iff {ms : List MaskEntry} (hms : masks fs = .ok ms) {byte : Nat} :
    ClearsByte [grouped d fs] byte ↔
      ClearsByte fs byte ∨ ∃ e ∈ ms, e.mask = 0 ∧ e.position.toNat = byte := by
  rw [ClearsByte, ClearsByte, variants_grouped, variants_eq_self hall]
  simp only [List.mem_singleton, exists_eq_left, Field.coversByte_group, and_or_left, exists_or]
  by_cases hwhole : (∃ f ∈ fs, f.FillsByte byte) ∨ ∃ f ∈ fs, f.CoversByte byte
  · exact iff_of_true (hwhole.imp_left Field.fillsByte_group_of_mem) (.inl hwhole)
  · -- no member clears the byte alone, so bit 0 of it leads to a member that shares it
    obtain ⟨hfree, hdata⟩ := not_or.1 hwhole
    simp only [hfree, hdata, or_false, false_or]
    constructor
    · intro hfills
      obtain ⟨f, hf, hshare, -⟩ :=
        (Field.claimsBit_group_iff_shares hfree (Nat.zero_lt_succ 7)).1 (hfills 0 (by decide))
      have hposition : ∃ e ∈ ms, e.position.toNat = byte := by
        rw [masks_position_iff hms, variants_eq_self hall]
        exact ⟨hdata, f, hf, hshare⟩
      obtain ⟨e, he, rfl⟩ := hposition
      exact ⟨e, he, (masks_eq_zero_iff hall hms he hfree).2 hfills, rfl⟩
    · rintro ⟨e, he, hzero, rfl⟩
      exact (masks_eq_zero_iff hall hms he hfree).1 hzero

end Grouped

/-- One variant that groups all fields of a union has a layout exactly where separate variants have
one. It has the same pointers. Its masks are those of separate variants that keep a bit of a byte
outside the ranges, in the same order, and its ranges gain the bytes of the empty masks. -/
theorem grouped_layout (fs : List Field) (hall : ∀ f ∈ fs, f.isVariant = true) (d : UInt16) :
    ((∃ e, UnionLayout.resolve [(Field.group none fs).withTag d] = .error e) ↔
      ∃ e, UnionLayout.resolve fs = .error e) ∧
    ∀ separate, UnionLayout.resolve fs = .ok separate →
      ∃ whole, UnionLayout.resolve [(Field.group none fs).withTag d] = .ok whole ∧
        whole.pointers = separate.pointers ∧
        whole.masks = separate.masks.filter (fun e =>
          e.mask ≠ 0 && !separate.ranges.any fun r => r.covers e.position.toNat) ∧
        Canonical whole.ranges ∧
        (∀ byte, (∃ r ∈ whole.ranges, r.covers byte = true) ↔
          (∃ r ∈ separate.ranges, r.covers byte = true) ∨
            ∃ e ∈ separate.masks, e.mask = 0 ∧ e.position.toNat = byte) ∧
        ∀ e ∈ whole.masks, e.mask ≠ 0 ∧ ¬∃ r ∈ whole.ranges, r.covers e.position.toNat = true := by
  have hfails : (∃ e, UnionLayout.resolve [grouped d fs] = .error e) ↔
      ∃ e, UnionLayout.resolve fs = .error e := resolve_grouped_fails_iff hall
  refine ⟨hfails, fun separate hseparate => ?_⟩
  obtain ⟨whole, hwhole⟩ := (returns_iff_of_fails_iff hfails).2 ⟨separate, hseparate⟩
  obtain ⟨hms, hrs, hps⟩ := resolve_eq_ok.1 hseparate
  obtain ⟨hms', hrs', hps'⟩ := resolve_eq_ok.1 hwhole
  obtain ⟨hcanonical', hcovers'⟩ := ranges_canonical hrs'
  have hmem : ∀ e, e ∈ whole.masks ↔ e ∈ separate.masks ∧ e.mask ≠ 0 ∧
      ¬∃ r ∈ separate.ranges, r.covers e.position.toNat = true :=
    fun e => mem_masks_grouped_iff hall hms' hms hrs
  refine ⟨whole, hwhole, pointers_grouped hall hps' hps, ?_, hcanonical', fun byte => ?_,
    fun e he => ⟨((hmem e).1 he).2.1, ?_⟩⟩
  · apply eq_of_mem_iff_of_asymm ?_ (masks_descending hms') ((masks_descending hms).filter _)
    · intro e
      rw [hmem, List.mem_filter]
      simp
    · exact fun _ _ => Nat.lt_asymm
  · rw [hcovers', clearsByte_grouped_iff hall hms, (ranges_canonical hrs).2]
  · exact masks_apart_of_one_variant (variants_grouped d fs) hms' hrs' he

/-- Eight variants fill byte 0 together. One fills byte 1, of which another one claims a bit, and a
number lies in byte 2, of which a third one claims a bit. Two share byte 3. -/
def mingledFields : List Field :=
  ((List.range 8).map fun k =>
    .slot (some (UInt16.ofNat k)) ⟨.builtin .bool, UInt64.ofNat k⟩) ++
  [.wholeByte (some 8) 1, .slot (some 9) ⟨.builtin .bool, 12⟩,
    .slot (some 10) ⟨.builtin .uint8, 2⟩, .slot (some 11) ⟨.builtin .bool, 17⟩,
    .slot (some 12) ⟨.builtin .bool, 25⟩, .slot (some 13) ⟨.builtin .bool, 26⟩,
    .slot (some 14) ⟨.construct .list, 1⟩]

theorem grouped_layout_of_mingled :
    (∀ f ∈ mingledFields, f.isVariant = true) ∧
    UnionLayout.resolve mingledFields =
      .ok ⟨[⟨3, 0xf9⟩, ⟨1, 0xef⟩, ⟨0, 0⟩], [⟨1, 2⟩], [8]⟩ ∧
    ∃ whole, UnionLayout.resolve [(Field.group none mingledFields).withTag 7] = .ok whole ∧
      whole.pointers = [8] ∧ whole.masks = [⟨3, 0xf9⟩] ∧
      ∀ byte, (∃ r ∈ whole.ranges, r.covers byte = true) ↔ byte < 3 := by
  have hall : ∀ f ∈ mingledFields, f.isVariant = true := by decide
  have hseparate : UnionLayout.resolve mingledFields =
      .ok ⟨[⟨3, 0xf9⟩, ⟨1, 0xef⟩, ⟨0, 0⟩], [⟨1, 2⟩], [8]⟩ := by cbv
  obtain ⟨-, hwhole⟩ := grouped_layout mingledFields hall 7
  obtain ⟨whole, hresolve, hpointers, hmasks, -, hcovers, -⟩ := hwhole _ hseparate
  refine ⟨hall, hseparate, whole, hresolve, hpointers, hmasks, fun byte => ?_⟩
  rw [hcovers]
  simp [ByteRange.covers_iff, ByteRange.limit]
  omega

end Union

end VariantStorage
