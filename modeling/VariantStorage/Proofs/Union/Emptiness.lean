import VariantStorage.Proofs.Union.Pointers
import VariantStorage.Proofs.Union.Reset

/-!
When there is nothing to reset. A claimed bit is cleared by some step of a layout, and there is no
step without a claimed bit: no range is empty, and a mask stands only where a variant claims part of
its byte. So although masks are dropped and ranges are merged on the way, no claim vanishes from all
lists at once, and a layout is empty exactly if its union claims no storage.
-/
namespace VariantStorage

def Slot.IsData (s : Slot) : Prop :=
  s.type = .builtin .bool ∨ ∃ w, s.type.dataWidth = some w

/-- Slots that are neither in the data section nor a pointer that a reset clears. -/
theorem Slot.not_claiming_iff {s : Slot} : ¬(s.IsData ∨ s.IsReference) ↔
    s.type = .builtin .void ∨ s.type = .builtin .text ∨ s.type = .builtin .data ∨
      s.type = .construct .capability := by
  cases ht : s.type with
  | builtin b =>
    cases b <;> simp [IsData, IsReference, ht, SlotType.dataWidth, Builtin.dataWidth]
  | construct c => cases c <;> simp [IsData, IsReference, ht, SlotType.dataWidth]

theorem Slot.CoversByte.first {s : Slot} {w : UInt64} (hw : s.type.dataWidth = some w) :
    s.CoversByte (w.toNat * s.offset.toNat) := by
  have hpos : 0 < w.toNat := by
    rcases SlotType.dataWidth_cases hw with rfl | rfl | rfl | rfl <;> decide
  refine ⟨w, hw, Nat.le_refl _, ?_⟩
  rw [Nat.mul_succ]
  omega

namespace UnionLayout

variable {fields : List Field} {layout : UnionLayout}

/-- Some bit is claimed exactly if some variant has a slot in the data section. -/
theorem exists_claimsBit_iff :
    (∃ n, ClaimsBit fields n) ↔ ∃ s, Union.HasSlot fields s ∧ s.IsData := by
  rw [← Union.exists_leaf_iff]
  constructor
  · intro ⟨n, f, hf, hclaim⟩
    rcases hclaim with ⟨s, hs, hbool, -⟩ | ⟨s, hs, w, hw, -⟩
    · exact ⟨f, hf, s, hs, .inl hbool⟩
    · exact ⟨f, hf, s, hs, .inr ⟨w, hw⟩⟩
  · intro ⟨f, hf, s, hs, hdata⟩
    rcases hdata with hbool | ⟨w, hw⟩
    · exact ⟨s.offset.toNat, f, hf, .inl ⟨s, hs, hbool, rfl⟩⟩
    · have hbyte : 8 * (w.toNat * s.offset.toNat) / 8 = w.toNat * s.offset.toNat :=
        Nat.mul_div_cancel_left _ (by decide)
      refine ⟨8 * (w.toNat * s.offset.toNat), f, hf, .inr ⟨s, hs, ?_⟩⟩
      rw [hbyte]
      exact .first hw

/-- Every step of a layout is there for a claimed bit. -/
theorem exists_claimsBit_of_mem_steps (h : resolve fields = .ok layout)
    {step : DataSection → DataSection} (hstep : step ∈ layout.steps) :
    ∃ n, ClaimsBit fields n := by
  obtain ⟨hmasks, hranges, -⟩ := Union.resolve_eq_ok.1 h
  rcases mem_steps.1 hstep with ⟨r, hr, -⟩ | ⟨e, he, -⟩
  · obtain ⟨hcanonical, hcovers⟩ := Union.ranges_canonical hranges
    obtain ⟨f, hf, hfills | ⟨s, hs, w, hw, -⟩⟩ :=
      (hcovers _).1 ⟨r, hr, hcanonical.covers_position hr⟩
    · exact ⟨_, f, hf, .inl (hfills 0 (by decide))⟩
    · exact exists_claimsBit_iff.2 (Union.exists_leaf_iff.1 ⟨f, hf, s, hs, .inr ⟨w, hw⟩⟩)
  · obtain ⟨-, f, hf, ⟨k, -, hbit⟩, -⟩ := (Union.masks_position_iff hmasks).1 ⟨e, he, rfl⟩
    exact ⟨_, f, hf, .inl hbit⟩

/-- A reset has nothing to do in the data section exactly if no variant stores anything there. -/
theorem steps_eq_nil_iff (h : resolve fields = .ok layout) :
    layout.steps = [] ↔ ¬∃ s, Union.HasSlot fields s ∧ s.IsData := by
  rw [← exists_claimsBit_iff]
  constructor
  · intro hnil ⟨n, hn⟩
    obtain ⟨step, hstep, -⟩ := exists_clears h hn
    rw [hnil] at hstep
    exact absurd hstep List.not_mem_nil
  · intro hno
    refine List.eq_nil_iff_forall_not_mem.2 fun step hstep => hno ?_
    exact exists_claimsBit_of_mem_steps h hstep

/-- A reset clears no pointer exactly if no variant has one. -/
theorem pointers_eq_nil_iff (h : resolve fields = .ok layout) :
    layout.pointers = [] ↔ ¬∃ s, Union.HasSlot fields s ∧ s.IsReference := by
  obtain ⟨-, -, hpointers⟩ := Union.resolve_eq_ok.1 h
  obtain ⟨-, hmem⟩ := Union.pointers_exact hpointers
  rw [← Union.exists_leaf_iff]
  constructor
  · intro hnil ⟨f, hf, s, hs, href⟩
    have hpointer := Slot.isReference_iff.1 href
    have hoffset : s.offset.toNat < 2 ^ 61 := by
      by_contra hge
      exact Union.pointers_returns_iff.1 ⟨_, hpointers⟩ ⟨f, hf, s, hs, hpointer, Nat.not_lt.1 hge⟩
    have hto : (UInt64.ofNat (8 * s.offset.toNat)).toNat = 8 * s.offset.toNat :=
      UInt64.toNat_ofNat_of_lt' (by simp only [UInt64.size]; omega)
    have hp := (hmem _).2 ⟨f, hf, s.offset.toNat, ⟨s, hs, hpointer, rfl⟩, hto⟩
    rw [hnil] at hp
    exact absurd hp List.not_mem_nil
  · intro hno
    refine List.eq_nil_iff_forall_not_mem.2 fun p hp => hno ?_
    obtain ⟨f, hf, n, ⟨s, hs, hpointer, -⟩, -⟩ := (hmem p).1 hp
    exact ⟨f, hf, s, hs, Slot.isReference_iff.2 hpointer⟩

theorem isEmpty_iff : layout.isEmpty = true ↔ layout.steps = [] ∧ layout.pointers = [] := by
  simp [isEmpty, steps, and_assoc, and_left_comm]

/-- A layout is empty exactly if no variant has, inside however many groups, a boolean, a number, an
enum, or a pointer that is reset; that is, if all slots of the union are void, text, data or
capabilities. -/
theorem isEmpty_iff_nothing_claimed (h : resolve fields = .ok layout) :
    (layout.isEmpty = true ↔ ¬∃ s, Union.HasSlot fields s ∧
      (s.type = .builtin .bool ∨ (∃ w, s.type.dataWidth = some w) ∨ s.IsReference)) ∧
    (layout.isEmpty = true ↔ ∀ s, Union.HasSlot fields s →
      s.type = .builtin .void ∨ s.type = .builtin .text ∨ s.type = .builtin .data ∨
        s.type = .construct .capability) := by
  have hclaims : layout.isEmpty = true ↔
      ¬∃ s, Union.HasSlot fields s ∧ (s.IsData ∨ s.IsReference) := by
    rw [isEmpty_iff, steps_eq_nil_iff h, pointers_eq_nil_iff h, ← not_or, ← exists_or]
    simp only [and_or_left]
  constructor
  · rw [hclaims]
    simp only [Slot.IsData, or_assoc]
  · rw [hclaims]
    simp only [not_exists, not_and, Slot.not_claiming_iff]

/-- Two variants without storage, beside a number outside the union. -/
def hollowFields : List Field :=
  [.group (some 0) [.slot none ⟨.builtin .void, 0⟩, .group none [.slot none ⟨.builtin .text, 2⟩]],
    .slot (some 1) ⟨.construct .capability, 0⟩, .slot none ⟨.builtin .uint64, 1⟩]

/-- Nothing is reset for variants without storage; where a number displaces the mask of a boolean,
its range is left. -/
theorem isEmpty_iff_nothing_claimed_by_hollow :
    (resolve hollowFields = .ok ⟨[], [], []⟩ ∧
      ∀ s, Union.HasSlot hollowFields s → s.type = .builtin .void ∨ s.type = .builtin .text ∨
        s.type = .builtin .data ∨ s.type = .construct .capability) ∧
    (resolve (.slot (some 2) ⟨.builtin .bool, 3⟩ :: .slot (some 3) ⟨.builtin .int8, 0⟩ ::
        hollowFields) = .ok ⟨[], [⟨0, 1⟩], []⟩ ∧
      (⟨[], [⟨0, 1⟩], []⟩ : UnionLayout).isEmpty = false) := by
  have hhollow : resolve hollowFields = .ok ⟨[], [], []⟩ := by cbv
  have hdisplaced : resolve (.slot (some 2) ⟨.builtin .bool, 3⟩ ::
      .slot (some 3) ⟨.builtin .int8, 0⟩ :: hollowFields) = .ok ⟨[], [⟨0, 1⟩], []⟩ := by cbv
  refine ⟨⟨hhollow, (isEmpty_iff_nothing_claimed hhollow).2.1 rfl⟩, hdisplaced, ?_⟩
  rw [← Bool.not_eq_true, (isEmpty_iff_nothing_claimed hdisplaced).1, not_not]
  exact ⟨⟨.builtin .bool, 3⟩, ⟨_, List.mem_cons_self, rfl, .slot _⟩, .inl rfl⟩

end UnionLayout

end VariantStorage
