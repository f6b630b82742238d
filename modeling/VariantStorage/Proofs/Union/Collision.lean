import VariantStorage.Proofs.BitPartition.Exact
import VariantStorage.Proofs.Union.Failure

/-!
When the byte ranges of a union fail. Before the sweep a product fails, where a number starts at no
address. In the sweep a sum fails exactly where two of the collected ranges meet and one of them
ends past the last address. Whether two ranges meet does not depend on the order in which they are
swept, so neither does the outcome depend on the order of the fields or of the members of a group.
-/
namespace VariantStorage

namespace ByteRange

/-- The two ranges share a byte, or one begins where the other one ends. -/
def Meets (r q : ByteRange) : Prop :=
  (∃ byte, r.covers byte = true ∧ q.covers byte = true) ∨
    r.limit = q.position.toNat ∨ q.limit = r.position.toNat

/-- The two ranges meet, and one of them ends past the last address. -/
def Collides (r q : ByteRange) : Prop :=
  r.Meets q ∧ (r.limit = 2 ^ 64 ∨ q.limit = 2 ^ 64)

theorem Meets.symm {r q : ByteRange} (h : r.Meets q) : q.Meets r := by
  rcases h with ⟨byte, hr, hq⟩ | hrq | hqr
  · exact .inl ⟨byte, hq, hr⟩
  · exact .inr (.inr hrq)
  · exact .inr (.inl hqr)

theorem Collides.symm {r q : ByteRange} (h : r.Collides q) : q.Collides r :=
  ⟨h.1.symm, h.2.symm⟩

section Nonempty

variable {r q : ByteRange} (hr : 0 < r.length.toNat) (hq : 0 < q.length.toNat)
include hr hq

theorem meets_iff : r.Meets q ↔ r.position.toNat ≤ q.limit ∧ q.position.toNat ≤ r.limit := by
  unfold Meets
  simp only [covers_iff]
  constructor
  · intro h
    rcases h with ⟨byte, hbr, hbq⟩ | hrq | hqr
    · omega
    · have hle := r.position_le_limit
      have hle' := q.position_le_limit
      omega
    · have hle := r.position_le_limit
      have hle' := q.position_le_limit
      omega
  · intro ⟨hrq, hqr⟩
    by_cases htouch : r.limit = q.position.toNat ∨ q.limit = r.position.toNat
    · exact .inr htouch
    · -- the later of the two starts lies in both ranges
      refine .inl ⟨max r.position.toNat q.position.toNat, ?_⟩
      unfold limit at *
      omega

theorem not_meets_iff :
    ¬r.Meets q ↔ q.limit < r.position.toNat ∨ r.limit < q.position.toNat := by
  rw [meets_iff hr hq]
  omega

/-- Ranges that end at one byte share the last one. -/
theorem meets_of_limit_eq (h : r.limit = q.limit) : r.Meets q := by
  rw [meets_iff hr hq]
  have hle := r.position_le_limit
  have hle' := q.position_le_limit
  omega

/-- For the sweep it is the later range that blocks the earlier one. -/
theorem collides_iff_blocks (hrl : r.limit ≤ 2 ^ 64) (hql : q.limit ≤ 2 ^ 64)
    (hpos : r.position.toNat ≤ q.position.toNat) : r.Collides q ↔ Union.Blocks r q := by
  rw [Collides, Union.Blocks, meets_iff hr hq]
  have hle := q.position_le_limit
  omega

end Nonempty

end ByteRange

/-- A range that no other one of a cover meets is a range of the canonical list. -/
theorem Canonical.mem_of_alone {ranges others : List ByteRange} (h : Canonical ranges)
    {r : ByteRange} (hsame : SameBytes ranges (r :: others)) (hr : 0 < r.length.toNat)
    (halone : ∀ q ∈ others, q.limit < r.position.toNat ∨ r.limit < q.position.toNat) :
    r ∈ ranges := by
  have hbytes : ∀ byte, (∃ p ∈ ranges, p.position.toNat ≤ byte ∧ byte < p.limit) ↔
      (r.position.toNat ≤ byte ∧ byte < r.limit) ∨
        ∃ q ∈ others, q.position.toNat ≤ byte ∧ byte < q.limit := by
    intro byte
    simpa [ByteRange.covers_iff] using hsame byte
  have hlimit : r.limit = r.position.toNat + r.length.toNat := rfl
  obtain ⟨p, hp, hlow, hhigh⟩ := (hbytes r.position.toNat).2 (.inl (by omega))
  have hstart : p.position.toNat = r.position.toNat := by
    by_contra hne
    -- the byte before `r` would lie in another range, which would touch `r`
    rcases (hbytes (r.position.toNat - 1)).1 ⟨p, hp, by omega, by omega⟩ with hin | ⟨q, hq, hin⟩
    · omega
    · rcases halone q hq with hgap | hgap <;> omega
  have hnotPast : p.limit ≤ r.limit := by
    by_contra hlt
    -- and so would the byte after it
    rcases (hbytes r.limit).1 ⟨p, hp, by omega, by omega⟩ with hin | ⟨q, hq, hin⟩
    · omega
    · rcases halone q hq with hgap | hgap <;> omega
  have hnotShort : r.limit ≤ p.limit := by
    by_contra hlt
    -- the rest of `r` would lie in a range that touches `p`
    obtain ⟨p', hp', hin⟩ := (hbytes p.limit).2 (.inl (by omega))
    have hne : p ≠ p' := by
      intro heq
      rw [← heq] at hin
      omega
    rcases h.gap hp hp' hne with hgap | hgap <;> omega
  have hlength : p.length.toNat = r.length.toNat := by
    have hplimit : p.limit = p.position.toNat + p.length.toNat := rfl
    omega
  have heq : p = r := ByteRange.ext (UInt64.toNat_inj.1 hstart) (UInt64.toNat_inj.1 hlength)
  exact heq ▸ hp

/-- Two entries of the list, at different places in it, collide. -/
def Colliding (ranges : List ByteRange) : Prop :=
  ∃ i j : Fin ranges.length, i ≠ j ∧ (ranges.get i).Collides (ranges.get j)

/-- No two entries collide exactly if no entry collides with a later one. -/
theorem not_colliding_iff {ranges : List ByteRange} :
    ¬Colliding ranges ↔ ranges.Pairwise fun r q => ¬r.Collides q := by
  rw [List.pairwise_iff_get]
  constructor
  · intro h i j hlt hc
    exact h ⟨i, j, Fin.ne_of_lt hlt, hc⟩
  · intro h ⟨i, j, hne, hc⟩
    rcases lt_or_gt_of_ne hne with hlt | hlt
    · exact h i j hlt hc
    · exact h j i hlt hc.symm

/-- The order of the entries plays no part. -/
theorem colliding_perm {ranges others : List ByteRange} (h : ranges.Perm others) :
    Colliding ranges ↔ Colliding others := by
  rw [← not_iff_not, not_colliding_iff, not_colliding_iff]
  exact h.pairwise_iff fun hc => mt ByteRange.Collides.symm hc

/-- A range that no other one meets, and that ends past the last address, is the only one that does
so, and collides with none. -/
theorem not_colliding_of_alone {before after : List ByteRange} {r : ByteRange}
    (hlen : ∀ q ∈ before ++ r :: after, 0 < q.length.toNat) (hend : r.limit = 2 ^ 64)
    (halone : ∀ q ∈ before ++ after, ¬r.Meets q) : ¬Colliding (before ++ r :: after) := by
  have hperm : (before ++ r :: after).Perm (r :: (before ++ after)) := List.perm_middle
  have hlen' : ∀ q ∈ r :: (before ++ after), 0 < q.length.toNat := fun q hq =>
    hlen q (hperm.mem_iff.2 hq)
  obtain ⟨hr, hothers⟩ := List.forall_mem_cons.1 hlen'
  have hshort : ∀ q ∈ before ++ after, q.limit ≠ 2 ^ 64 := fun q hq hql =>
    halone q hq (ByteRange.meets_of_limit_eq hr (hothers q hq) (hend.trans hql.symm))
  rw [colliding_perm hperm, not_colliding_iff, List.pairwise_cons]
  refine ⟨fun q hq hc => halone q hq hc.1, ?_⟩
  apply List.pairwise_of_forall_mem_list
  intro p hp q hq hc
  rcases hc.2 with hpl | hql
  · exact hshort p hp hpl
  · exact hshort q hq hql

namespace Union

section Collected

variable {fields : List Field} {all : List ByteRange} (h : collected fields = .ok all)
include h

/-- After the ranges are collected, nothing fails but a collision. -/
theorem ranges_returns_iff : (∃ out, ranges fields = .ok out) ↔ ¬Colliding all := by
  have hascending := ascending_mergeSort all
  have hperm := List.mergeSort_perm all fun r q => decide (r.position ≤ q.position)
  have hlen := collected_nonempty h
  have hlimit := collected_limit_le h
  have hblocks : ∀ r q, r ∈ all → q ∈ all → r.position.toNat ≤ q.position.toNat →
      (r.Collides q ↔ Blocks r q) := fun r q hr hq =>
    ByteRange.collides_iff_blocks (hlen r hr) (hlen q hq) (hlimit r hr) (hlimit q hq)
  rw [ranges_eq_collected, h]
  change (∃ out, merge _ = .ok out) ↔ _
  rw [merge_returns_iff hascending, ← colliding_perm hperm, not_colliding_iff]
  constructor
  · intro hp
    apply (List.Pairwise.and hascending hp).imp_of_mem
    intro r q hr hq ⟨hpos, hfree⟩
    rwa [hblocks r q (hperm.mem_iff.1 hr) (hperm.mem_iff.1 hq) hpos]
  · intro hp
    apply (List.Pairwise.and hascending hp).imp_of_mem
    intro r q hr hq ⟨hpos, hfree⟩
    rwa [← hblocks r q (hperm.mem_iff.1 hr) (hperm.mem_iff.1 hq) hpos]

/-- Once the ranges of all variants are there, the sweep fails exactly at a collision. -/
theorem ranges_eq_error_of_collected {e : Overflow} :
    ranges fields = .error e ↔ e = .add ∧ Colliding all := by
  have hadd : ∀ e, ranges fields = .error e → e = .add := by
    intro e he
    rw [ranges_eq_collected, h] at he
    exact merge_eq_error (ascending_mergeSort all) he
  have hfails : (∃ e, ranges fields = .error e) ↔ Colliding all := by
    rw [exists_error_iff, ranges_returns_iff h, not_not]
  constructor
  · intro he
    exact ⟨hadd e he, hfails.1 ⟨e, he⟩⟩
  · intro ⟨he, hc⟩
    obtain ⟨e', he'⟩ := hfails.2 hc
    rw [he, ← hadd e' he', he']

/-- A range that ends past the last address is returned where no other one meets it, although no
masks are. -/
theorem ranges_of_alone {before after : List ByteRange} {r : ByteRange}
    (hall : all = before ++ r :: after) (hend : r.limit = 2 ^ 64)
    (halone : ∀ q ∈ before ++ after, ¬r.Meets q) :
    masks fields = .error .add ∧ ∃ out, ranges fields = .ok out ∧ r ∈ out := by
  have hlen := collected_nonempty h
  subst hall
  have hr : r ∈ before ++ r :: after := by simp
  constructor
  · have hstart := collected_returns_iff.1 ⟨_, h⟩
    obtain ⟨e, he⟩ := masks_fails_iff.2 (endOverflows_of_limit h hr (Nat.le_of_eq hend.symm))
    obtain ⟨f, hf, hcause⟩ := masks_eq_error.1 he
    have hnot : ¬f.StartOverflows := fun ho => hstart ⟨f, List.mem_of_find?_eq_some hf, ho⟩
    rw [he, hcause, if_neg hnot]
  · obtain ⟨out, hout⟩ := (ranges_returns_iff h).2 (not_colliding_of_alone hlen hend halone)
    obtain ⟨hcanonical, hcovers⟩ := ranges_canonical hout
    have hperm : (before ++ r :: after).Perm (r :: (before ++ after)) := List.perm_middle
    have hsame : SameBytes out (r :: (before ++ after)) := by
      intro byte
      rw [hcovers, ← collected_covers h]
      simp only [hperm.mem_iff]
    have hapart : ∀ q ∈ before ++ after,
        q.limit < r.position.toNat ∨ r.limit < q.position.toNat := by
      intro q hq
      have hq' := hperm.mem_iff.2 (List.mem_cons_of_mem r hq)
      exact (ByteRange.not_meets_iff (hlen r hr) (hlen q hq')).1 (halone q hq)
    exact ⟨out, hout, hcanonical.mem_of_alone hsame (hlen r hr) hapart⟩

end Collected

end Union

namespace Field

/-- One change of the order of the members of a group, at any depth. -/
inductive Reordered : Field → Field → Prop where
  /-- The members of the group itself. -/
  | members (tag : Option UInt16) {members others : List Field} (h : members.Perm others) :
      Reordered (.group tag members) (.group tag others)
  /-- A change inside a member. -/
  | inside (tag : Option UInt16) (before : List Field) {f g : Field} (after : List Field)
      (h : Reordered f g) :
      Reordered (.group tag (before ++ f :: after)) (.group tag (before ++ g :: after))

theorem Reordered.symm {f g : Field} (h : Reordered f g) : Reordered g f := by
  induction h with
  | members tag h => exact .members tag h.symm
  | inside tag before after _ ih => exact .inside tag before after ih

theorem Reordered.isVariant_eq {f g : Field} (h : Reordered f g) : f.isVariant = g.isVariant := by
  cases h <;> rfl

/-- A change of order keeps the slots of a field. -/
theorem Reordered.leaves_perm {f g : Field} (h : Reordered f g) : f.leaves.Perm g.leaves := by
  induction h with
  | members tag h =>
    simp only [leaves, leavesAll_eq_flatMap]
    exact h.flatMap_right leaves
  | inside tag before after _ ih =>
    simp only [leaves, leavesAll_eq_flatMap, List.flatMap_append, List.flatMap_cons]
    exact (ih.append_right _).append_left _

end Field

namespace Union

/-- One change of order: of the fields, or of the members of a group at any depth. -/
inductive Reordering : List Field → List Field → Prop where
  /-- The fields in another order. -/
  | fields {fields others : List Field} (h : fields.Perm others) : Reordering fields others
  /-- The members of a group in another order. -/
  | inside (before : List Field) {f g : Field} (after : List Field) (h : f.Reordered g) :
      Reordering (before ++ f :: after) (before ++ g :: after)

theorem Reordering.symm {fields others : List Field} (h : Reordering fields others) :
    Reordering others fields := by
  cases h with
  | fields h => exact .fields h.symm
  | inside before after h => exact .inside before after h.symm

/-- The ranges of a variant are the same in another order: the bytes that it fills depend on the set
of its bits, and its numbers are collected one by one. -/
theorem variantRanges_perm {f g : Field} (h : f.leaves.Perm g.leaves) :
    ReturnsPerm (variantRanges f) (variantRanges g) := by
  have hbits : BitPartition.ofBits f.bits = BitPartition.ofBits g.bits := by
    apply BitPartition.ofBits_congr
    intro b
    rw [Field.bits_eq_flatMap, Field.bits_eq_flatMap]
    exact (h.flatMap_right Slot.bits).mem_iff
  intro out hout
  obtain ⟨p, hp, hrest⟩ := bind_eq_ok.1 hout
  obtain ⟨numbers, hnumbers, hout⟩ := bind_eq_ok.1 hrest
  obtain rfl := Except.ok.inj hout
  rw [Field.bytes_eq_gather] at hnumbers
  obtain ⟨numbers', hnumbers', hperm⟩ := gather_perm h numbers hnumbers
  refine ⟨p.ranges ++ numbers', ?_, hperm.append_left _⟩
  rw [variantRanges, ← hbits, hp, Field.bytes_eq_gather, hnumbers']
  rfl

theorem Reordering.collected_perm {fields others : List Field} (h : Reordering fields others) :
    ReturnsPerm (collected fields) (collected others) := by
  cases h with
  | fields h => exact gather_perm (h.filter _)
  | @inside before f g after h =>
    have hvariant := h.isVariant_eq
    simp only [collected, Field.variants, List.filter_append]
    cases hf : f.isVariant with
    | false =>
      rw [List.filter_cons_of_neg (by simp [hf]),
        List.filter_cons_of_neg (by simp [← hvariant, hf])]
      exact .refl _
    | true =>
      rw [List.filter_cons_of_pos hf, List.filter_cons_of_pos (hvariant ▸ hf)]
      exact gather_replace (variantRanges_perm h.leaves_perm) _ _

/-- The collected ranges determine the outcome, in whatever order they are. -/
theorem ranges_eq_of_perm {fields others : List Field} {all all' : List ByteRange}
    (h : collected fields = .ok all) (h' : collected others = .ok all') (hperm : all.Perm all') :
    ranges fields = ranges others := by
  by_cases hc : Colliding all
  · rw [(ranges_eq_error_of_collected h).2 ⟨rfl, hc⟩,
      (ranges_eq_error_of_collected h').2 ⟨rfl, (colliding_perm hperm).1 hc⟩]
  · obtain ⟨out, hout⟩ := (ranges_returns_iff h).2 hc
    obtain ⟨out', hout'⟩ := (ranges_returns_iff h').2 (mt (colliding_perm hperm).2 hc)
    obtain ⟨hcanonical, hcovers⟩ := ranges_canonical hout
    obtain ⟨hcanonical', hcovers'⟩ := ranges_canonical hout'
    have hsame : SameBytes out out' := by
      intro byte
      rw [hcovers, hcovers', ← collected_covers h, ← collected_covers h']
      simp only [hperm.mem_iff]
    rw [hout, hout', hcanonical.eq_of_sameBytes hcanonical' hsame]

/-- A change of order makes no difference to the ranges. -/
theorem Reordering.ranges_eq {fields others : List Field} (h : Reordering fields others) :
    ranges fields = ranges others := by
  -- where the ranges of one list are collected, so are those of the other one
  cases hall : collected fields with
  | ok all =>
    obtain ⟨all', hall', hperm⟩ := h.collected_perm all hall
    exact ranges_eq_of_perm hall hall' hperm
  | error e =>
    cases hall' : collected others with
    | ok all' =>
      obtain ⟨all, hok, -⟩ := h.symm.collected_perm all' hall'
      rw [hall] at hok
      cases hok
    | error e' =>
      rw [ranges_eq_collected, ranges_eq_collected, hall, hall', (collected_eq_error.1 hall).1,
        (collected_eq_error.1 hall').1]

theorem ranges_eq_of_reorderings {fields others : List Field}
    (h : Relation.EqvGen Reordering fields others) : ranges fields = ranges others := by
  induction h with
  | rel fields others h => exact h.ranges_eq
  | refl fields => rfl
  | symm fields others _ ih => exact ih.symm
  | trans fields others more _ _ ih ih' => exact ih.trans ih'

/-- Exactly when the ranges of a union fail, and with which message. A product fails where a number
of a variant starts at no address; otherwise the ranges are collected, and a sum fails where two of
them meet of which one ends past the last address. So one that ends there is returned if no other
one meets it, although the masks fail, and no order of fields or of members changes the outcome. -/
theorem ranges_fail_exactly (fields : List Field) :
    (∀ e, ranges fields = .error e ↔
      (e.message = "attempt to multiply with overflow" ∧
        ∃ f ∈ Field.variants fields, f.StartOverflows) ∨
      (e.message = "attempt to add with overflow" ∧
        (¬∃ f ∈ Field.variants fields, f.StartOverflows) ∧
        ∃ all, collected fields = .ok all ∧ Colliding all)) ∧
    ((∃ out, ranges fields = .ok out) ↔ ∃ all, collected fields = .ok all ∧ ¬Colliding all) ∧
    ((∃ all, collected fields = .ok all) ↔ ¬∃ f ∈ Field.variants fields, f.StartOverflows) ∧
    (∀ before r after, collected fields = .ok (before ++ r :: after) → r.limit = 2 ^ 64 →
      (∀ q ∈ before ++ after, ¬r.Meets q) →
      masks fields = .error .add ∧ ∃ out, ranges fields = .ok out ∧ r ∈ out) ∧
    ∀ others, Relation.EqvGen Reordering fields others → ranges others = ranges fields := by
  have hmultiply : "attempt to multiply with overflow" = Overflow.multiply.message := rfl
  have hadd : "attempt to add with overflow" = Overflow.add.message := rfl
  refine ⟨fun e => ?_, ?_, collected_returns_iff, fun before r after h => ranges_of_alone h rfl,
    fun others h => (ranges_eq_of_reorderings h).symm⟩
  · -- products fail while the ranges are collected, sums only in the sweep over what is collected
    rw [hmultiply, hadd, Overflow.message_inj, Overflow.message_inj, ← collected_returns_iff]
    cases hall : collected fields with
    | error e' =>
      obtain ⟨hcause, hstart⟩ := collected_eq_error.1 hall
      have hfails : ranges fields = .error .multiply := by
        rw [ranges_eq_collected, hall, hcause]
        rfl
      simp [hfails, hstart, eq_comm]
    | ok all =>
      have hstart := collected_returns_iff.1 ⟨all, hall⟩
      simp [ranges_eq_error_of_collected hall, hstart]
  · cases hall : collected fields with
    | error e =>
      rw [ranges_eq_collected, hall]
      exact iff_of_false (by simp [bind, Except.bind]) (by simp)
    | ok all => simp [ranges_returns_iff hall]

/-- Below the number that ends past the last address stands another one that touches it. -/
def crowdedFields : List Field :=
  .slot (some 4) ⟨.builtin .uint8, 0xfffffffffffffff7⟩ :: farFields

/-- Alone at the end of the addresses a number is returned, in whatever order the fields are; with a
neighbour the ranges fail. -/
theorem ranges_fail_exactly_at_last_address :
    collected farFields = .ok [⟨0xfffffffffffffff8, 8⟩, ⟨1, 1⟩, ⟨2, 1⟩, ⟨0, 1⟩] ∧
    (masks farFields = .error .add ∧
      ∃ out, ranges farFields = .ok out ∧ ⟨0xfffffffffffffff8, 8⟩ ∈ out) ∧
    Relation.EqvGen Reordering farFields farFields.reverse ∧
    ranges farFields.reverse = ranges farFields ∧
    ranges crowdedFields = .error .add := by
  have hfar : collected farFields =
      .ok ([] ++ ⟨0xfffffffffffffff8, 8⟩ :: [⟨1, 1⟩, ⟨2, 1⟩, ⟨0, 1⟩]) := by cbv
  have hcrowded : collected crowdedFields = .ok
      [⟨0xfffffffffffffff7, 1⟩, ⟨0xfffffffffffffff8, 8⟩, ⟨1, 1⟩, ⟨2, 1⟩, ⟨0, 1⟩] := by cbv
  obtain ⟨-, -, -, halone, horder⟩ := ranges_fail_exactly farFields
  obtain ⟨hfails, -, hstart, -, -⟩ := ranges_fail_exactly crowdedFields
  have hreverse : Relation.EqvGen Reordering farFields farFields.reverse :=
    .rel _ _ (.fields (List.reverse_perm farFields).symm)
  have hgap : ∀ q ∈ [] ++ [(⟨1, 1⟩ : ByteRange), ⟨2, 1⟩, ⟨0, 1⟩],
      ¬(⟨0xfffffffffffffff8, 8⟩ : ByteRange).Meets q := by
    intro q hq
    have hnear : 0 < q.length.toNat ∧ q.limit < 0xfffffffffffffff8 := by
      revert q
      decide
    exact (ByteRange.not_meets_iff (by decide) hnear.1).2 (.inl hnear.2)
  have hcollide : Colliding
      [⟨0xfffffffffffffff7, 1⟩, ⟨0xfffffffffffffff8, 8⟩, ⟨1, 1⟩, ⟨2, 1⟩, ⟨0, 1⟩] :=
    ⟨0, 1, by decide, .inr (.inl (by decide)), .inr (by decide)⟩
  refine ⟨hfar, halone _ _ _ hfar (by decide) hgap, hreverse, horder _ hreverse, ?_⟩
  exact (hfails .add).2 (.inr ⟨rfl, hstart.1 ⟨_, hcrowded⟩, _, hcrowded, hcollide⟩)

end Union

end VariantStorage
