import VariantStorage.Proofs.Footprint
import VariantStorage.Union.Layout

/-!
The pointers of a union. A pointer at offset `n` starts at byte `8 * n` of the pointer section. The
list that is returned holds the starts of the pointers of all variants, in strictly descending
order, so it is determined by the set of their offsets.
-/
namespace VariantStorage

/-- The slot is a pointer at the offset. -/
def Slot.PointsAt (s : Slot) (n : Nat) : Prop :=
  s.type.isPointer = true ∧ s.offset.toNat = n

def Field.PointsAt (f : Field) (n : Nat) : Prop :=
  ∃ s ∈ f.leaves, s.PointsAt n

instance (s : Slot) (n : Nat) : Decidable (s.PointsAt n) :=
  inferInstanceAs (Decidable (_ ∧ _))

instance (f : Field) (n : Nat) : Decidable (f.PointsAt n) :=
  inferInstanceAs (Decidable (∃ s ∈ f.leaves, _))

def Slot.IsReference (s : Slot) : Prop :=
  s.type = .construct .struct ∨ s.type = .construct .list ∨ s.type = .builtin .anyPointer

theorem Slot.isReference_iff {s : Slot} : s.IsReference ↔ s.type.isPointer = true := by
  cases ht : s.type with
  | builtin b => cases b <;> simp [IsReference, ht, SlotType.isPointer]
  | construct c => cases c <;> simp [IsReference, ht, SlotType.isPointer]

theorem Slot.mem_pointers {s : Slot} {ps : List UInt64} (h : s.pointers = .ok ps) {p : UInt64} :
    p ∈ ps ↔ ∃ n, s.PointsAt n ∧ p.toNat = 8 * n := by
  have h8 : Storage.pointerBytes.toNat = 8 := rfl
  unfold pointers at h
  unfold PointsAt
  split at h
  next hp =>
    obtain ⟨q, hq, hps⟩ := bind_eq_ok.1 h
    obtain rfl := Except.ok.inj hps
    rw [Storage.pointerPosition, Word.mul_eq_ok, h8] at hq
    simp [hp, ← UInt64.toNat_inj, hq]
  next hp =>
    obtain rfl := Except.ok.inj h
    simp [hp]

theorem Field.mem_pointers {f : Field} {ps : List UInt64} (h : f.pointers = .ok ps) {p : UInt64} :
    p ∈ ps ↔ ∃ n, f.PointsAt n ∧ p.toNat = 8 * n := by
  rw [pointers_eq_gather] at h
  rw [mem_gather_iff Slot.mem_pointers h]
  constructor
  · rintro ⟨s, hs, n, hat, hp⟩
    exact ⟨n, ⟨s, hs, hat⟩, hp⟩
  · rintro ⟨n, ⟨s, hs, hat⟩, hp⟩
    exact ⟨s, hs, n, hat, hp⟩

/-- A pointer starts past the last address exactly from offset `2 ^ 61` on. -/
theorem Field.pointerOverflows_iff {f : Field} :
    f.PointerOverflows ↔ ∃ n, f.PointsAt n ∧ 2 ^ 61 ≤ n := by
  constructor
  · rintro ⟨s, hs, hp, hn⟩
    exact ⟨_, ⟨s, hs, hp, rfl⟩, hn⟩
  · rintro ⟨n, ⟨s, hs, hp, rfl⟩, hn⟩
    exact ⟨s, hs, hp, hn⟩

namespace Union

theorem mem_dropRepeats {p : UInt64} {ps : List UInt64} : p ∈ dropRepeats ps ↔ p ∈ ps := by
  induction ps with
  | nil => rfl
  | cons q ps ih =>
    cases ps with
    | nil => rfl
    | cons r ps =>
      unfold dropRepeats
      split
      next hqr => simp [ih, hqr]
      next hqr => simp [ih]

/-- Without repeats a descending list is strictly descending. -/
theorem dropRepeats_descending {ps : List UInt64} (h : ps.Pairwise fun p q => q ≤ p) :
    (dropRepeats ps).Pairwise fun p q => q < p := by
  induction ps with
  | nil => exact List.Pairwise.nil
  | cons p ps ih =>
    obtain ⟨hp, hps⟩ := List.pairwise_cons.1 h
    cases ps with
    | nil => exact List.pairwise_singleton _ _
    | cons q ps =>
      unfold dropRepeats
      split
      next hpq => exact ih hps
      next hpq =>
        refine List.pairwise_cons.2 ⟨fun r hr => ?_, ih hps⟩
        have hq := hp q List.mem_cons_self
        have hqp : q < p := UInt64.lt_of_le_of_ne hq (Ne.symm hpq)
        rcases List.mem_cons.1 (mem_dropRepeats.1 hr) with rfl | hr
        · exact hqp
        · exact UInt64.lt_of_le_of_lt ((List.pairwise_cons.1 hps).1 r hr) hqp

theorem pointers_eq_gather (fields : List Field) : pointers fields = (do
    let all ← gather Field.pointers (Field.variants fields)
    return dropRepeats (all.mergeSort fun p q => decide (q ≤ p))) := by
  simp [pointers, gather]

/-- The pointers of a union start where the pointers of its variants do, the last one first. -/
theorem pointers_exact {fields : List Field} {out : List UInt64} (h : pointers fields = .ok out) :
    (out.Pairwise fun p q => q < p) ∧
    ∀ p, p ∈ out ↔ ∃ f ∈ Field.variants fields, ∃ n, f.PointsAt n ∧ p.toNat = 8 * n := by
  rw [pointers_eq_gather] at h
  obtain ⟨all, hall, hout⟩ := bind_eq_ok.1 h
  obtain rfl := Except.ok.inj hout
  have hsorted := List.pairwise_mergeSort' (· ≥ ·) all
  refine ⟨dropRepeats_descending hsorted, fun p => ?_⟩
  rw [mem_dropRepeats, List.mem_mergeSort, mem_gather_iff Field.mem_pointers hall]

/-- Lists whose variants point at the same offsets have the same pointers, where they have any. -/
theorem pointers_eq_of_pointsAt {fields others : List Field} {out out' : List UInt64}
    (h : pointers fields = .ok out) (h' : pointers others = .ok out')
    (hsame : ∀ n, (∃ f ∈ Field.variants fields, f.PointsAt n) ↔
      ∃ g ∈ Field.variants others, g.PointsAt n) : out = out' := by
  obtain ⟨hdesc, hmem⟩ := pointers_exact h
  obtain ⟨hdesc', hmem'⟩ := pointers_exact h'
  apply List.Pairwise.eq_of_mem_iff (r := (· > ·)) hdesc hdesc'
  intro p
  rw [hmem, hmem']
  constructor
  · intro ⟨f, hf, n, hat, hp⟩
    obtain ⟨g, hg, hat⟩ := (hsame n).1 ⟨f, hf, hat⟩
    exact ⟨g, hg, n, hat, hp⟩
  · intro ⟨g, hg, n, hat, hp⟩
    obtain ⟨f, hf, hat⟩ := (hsame n).2 ⟨g, hg, hat⟩
    exact ⟨f, hf, n, hat, hp⟩

/-- Pointers fail exactly if one of a variant starts past the last address. -/
theorem pointers_eq_error {fields : List Field} {e : Overflow} : pointers fields = .error e ↔
    e = .multiply ∧ ∃ f ∈ Field.variants fields, f.PointerOverflows := by
  simp only [pointers_eq_gather, bind_eq_error, pure, Except.pure, reduceCtorEq, and_false,
    exists_false, or_false]
  exact gather_eq_error_of_single fun _ _ => Field.pointers_eq_error

theorem pointers_returns_iff {fields : List Field} : (∃ out, pointers fields = .ok out) ↔
    ¬∃ f ∈ Field.variants fields, f.PointerOverflows := by
  rw [← not_iff_not, ← exists_error_iff, not_not]
  simp only [pointers_eq_error, exists_eq_left]

/-- Some variant has the slot, inside however many groups. -/
def HasSlot (fields : List Field) (s : Slot) : Prop :=
  ∃ f ∈ fields, f.isVariant = true ∧ s.OccursIn f

/-- The slots of variants are the leaves of their fields. -/
theorem hasSlot_iff {fields : List Field} {s : Slot} :
    HasSlot fields s ↔ ∃ f ∈ Field.variants fields, s ∈ f.leaves := by
  simp only [HasSlot, Field.variants, List.mem_filter, Field.mem_leaves, and_assoc]

theorem hasSlot_iff_mem_leavesAll {fields : List Field} {s : Slot} :
    HasSlot fields s ↔ s ∈ Field.leavesAll (Field.variants fields) := by
  rw [hasSlot_iff, Field.leavesAll_eq_flatMap, List.mem_flatMap]

/-- What some slot of a variant satisfies, some slot of the union does. -/
theorem exists_leaf_iff {P : Slot → Prop} {fields : List Field} :
    (∃ f ∈ Field.variants fields, ∃ s ∈ f.leaves, P s) ↔ ∃ s, HasSlot fields s ∧ P s := by
  simp only [hasSlot_iff]
  constructor
  · intro ⟨f, hf, s, hs, h⟩
    exact ⟨s, ⟨f, hf, hs⟩, h⟩
  · intro ⟨s, ⟨f, hf, hs⟩, h⟩
    exact ⟨f, hf, s, hs, h⟩

/-- The slots of a union that are pointers, and nothing else, decide its pointers and whether they
are listed at all. -/
theorem pointers_of_same_slots {fields others : List Field} {out : List UInt64}
    (h : pointers fields = .ok out)
    (hsame : ∀ s, s.IsReference → (HasSlot others s ↔ HasSlot fields s)) :
    pointers others = .ok out := by
  have hexists : ∀ P : Slot → Prop, (∀ s, P s → s.IsReference) →
      ((∃ s, HasSlot others s ∧ P s) ↔ ∃ s, HasSlot fields s ∧ P s) := by
    intro P hP
    exact exists_congr fun s => and_congr_left fun hs => hsame s (hP s hs)
  have hreturns : ∃ out', pointers others = .ok out' := by
    have hno := pointers_returns_iff.1 ⟨out, h⟩
    refine pointers_returns_iff.2 fun hover => hno ?_
    have hslot := exists_leaf_iff.1 hover
    exact exists_leaf_iff.2 ((hexists _ fun s hs => Slot.isReference_iff.2 hs.1).1 hslot)
  obtain ⟨out', h'⟩ := hreturns
  have heq : out' = out := by
    apply pointers_eq_of_pointsAt h' h
    intro n
    have hn := hexists (fun s => s.PointsAt n) fun s hs => Slot.isReference_iff.2 hs.1
    rw [← exists_leaf_iff, ← exists_leaf_iff] at hn
    exact hn
  rw [h', heq]

/-- The pointers of a union are the starts of its structs, lists and untyped pointers, the last one
first and none of them twice. Slots of other kinds and fields outside the union, whatever tags
stand inside those, add nothing. -/
theorem pointers_listed_once {fields : List Field} {out : List UInt64}
    (h : pointers fields = .ok out) :
    (out.Pairwise fun p q => q < p) ∧
    (∀ p, p ∈ out ↔ ∃ s, HasSlot fields s ∧ s.IsReference ∧ p.toNat = 8 * s.offset.toNat) ∧
    ∀ others, (∀ s, s.IsReference → (HasSlot others s ↔ HasSlot fields s)) →
      pointers others = .ok out := by
  obtain ⟨hdesc, hmem⟩ := pointers_exact h
  refine ⟨hdesc, fun p => ?_, fun others hsame => pointers_of_same_slots h hsame⟩
  have hstart : ∀ f : Field, (∃ n, f.PointsAt n ∧ p.toNat = 8 * n) ↔
      ∃ s ∈ f.leaves, s.IsReference ∧ p.toNat = 8 * s.offset.toNat := by
    intro f
    constructor
    · intro ⟨n, ⟨s, hs, href, hn⟩, hp⟩
      exact ⟨s, hs, Slot.isReference_iff.2 href, hn ▸ hp⟩
    · intro ⟨s, hs, href, hp⟩
      exact ⟨s.offset.toNat, ⟨s, hs, Slot.isReference_iff.1 href, rfl⟩, hp⟩
  rw [hmem, ← exists_leaf_iff]
  exact exists_congr fun f => and_congr_right fun _ => hstart f

/-- Two variants with one pointer, which one of them holds inside two groups, beside slots of other
kinds. Outside the union stands a group with a tagged pointer. -/
def pointerFields : List Field :=
  [.slot (some 0) ⟨.construct .struct, 3⟩,
    .group (some 1) [.slot none ⟨.construct .list, 0⟩,
      .group none [.slot (some 5) ⟨.builtin .anyPointer, 3⟩, .slot none ⟨.builtin .text, 1⟩]],
    .slot (some 2) ⟨.construct .capability, 2⟩, .slot (some 65535) ⟨.construct .enum, 4⟩,
    .group none [.slot (some 3) ⟨.construct .list, 7⟩]]

def plainPointerFields : List Field :=
  [.slot (some 9) ⟨.construct .list, 0⟩, .slot (some 8) ⟨.builtin .anyPointer, 3⟩,
    .slot (some 8) ⟨.construct .struct, 3⟩]

theorem pointers_listed_once_across_groups :
    pointers pointerFields = .ok [24, 0] ∧
    (∀ p, p ∈ [24, (0 : UInt64)] ↔
      ∃ s, HasSlot pointerFields s ∧ s.IsReference ∧ p.toNat = 8 * s.offset.toNat) ∧
    pointers plainPointerFields = .ok [24, 0] := by
  have h : pointers pointerFields = .ok [24, 0] := by cbv
  obtain ⟨-, hmem, hothers⟩ := pointers_listed_once h
  have hforth : ∀ s ∈ Field.leavesAll (Field.variants plainPointerFields),
      s ∈ Field.leavesAll (Field.variants pointerFields) := by decide
  have hback : ∀ s ∈ Field.leavesAll (Field.variants pointerFields), s.type.isPointer = true →
      s ∈ Field.leavesAll (Field.variants plainPointerFields) := by decide
  refine ⟨h, hmem, hothers plainPointerFields fun s hs => ?_⟩
  rw [hasSlot_iff_mem_leavesAll, hasSlot_iff_mem_leavesAll]
  exact ⟨hforth s, fun hslot => hback s hslot (Slot.isReference_iff.1 hs)⟩

end Union

end VariantStorage
