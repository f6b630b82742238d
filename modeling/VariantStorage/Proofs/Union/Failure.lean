import VariantStorage.Proofs.Union.Masks
import VariantStorage.Proofs.Union.Pointers
import VariantStorage.Union.Layout

/-!
When the reducers fail. The masks fail on the first variant with a number that ends at no 64-bit
address, and where they return the ranges return too. The pointers fail on a pointer at no address.
So a layout is resolved exactly when no variant has either, and the masks decide the message. No
input makes a difference or a shift overflow.
-/
namespace VariantStorage

theorem Overflow.message_inj {e e' : Overflow} : e.message = e'.message ↔ e = e' := by
  cases e <;> cases e' <;> simp [message]

namespace Union

/-- A layout is resolved exactly if each of its parts is. -/
theorem resolve_eq_ok {fields : List Field} {layout : UnionLayout} :
    UnionLayout.resolve fields = .ok layout ↔ masks fields = .ok layout.masks ∧
      ranges fields = .ok layout.ranges ∧ pointers fields = .ok layout.pointers := by
  constructor
  · intro h
    obtain ⟨ms, hms, hrest⟩ := bind_eq_ok.1 h
    obtain ⟨rs, hrs, hrest⟩ := bind_eq_ok.1 hrest
    obtain ⟨ps, hps, hlayout⟩ := bind_eq_ok.1 hrest
    obtain rfl := Except.ok.inj hlayout
    exact ⟨hms, hrs, hps⟩
  · rintro ⟨hms, hrs, hps⟩
    rw [UnionLayout.resolve, hms, hrs, hps]
    rfl

/-- The masks are computed first, and where they are the ranges are too. -/
theorem resolve_eq_error {fields : List Field} {e : Overflow} :
    UnionLayout.resolve fields = .error e ↔
      masks fields = .error e ∨ (∃ ms, masks fields = .ok ms) ∧ pointers fields = .error e := by
  simp only [UnionLayout.resolve, bind_eq_error, pure, Except.pure, reduceCtorEq, and_false,
    exists_false, or_false]
  refine or_congr_right ⟨?_, ?_⟩
  · rintro ⟨ms, hms, hranges | ⟨rs, -, hpointers⟩⟩
    · have hno : ¬∃ rs, ranges fields = .ok rs := exists_error_iff.1 ⟨e, hranges⟩
      exact absurd (ranges_returns (masks_returns_iff.1 ⟨ms, hms⟩)) hno
    · exact ⟨⟨ms, hms⟩, hpointers⟩
  · rintro ⟨⟨ms, hms⟩, hpointers⟩
    obtain ⟨rs, hrs⟩ := ranges_returns (masks_returns_iff.1 ⟨ms, hms⟩)
    exact ⟨ms, hms, .inr ⟨rs, hrs, hpointers⟩⟩

/-- Resolving fails exactly if a number or a pointer of some variant reaches past the last address.
-/
theorem resolve_fails_iff {fields : List Field} :
    (∃ e, UnionLayout.resolve fields = .error e) ↔
      ∃ f ∈ Field.variants fields, f.EndOverflows ∨ f.PointerOverflows := by
  simp only [resolve_eq_error, exists_or, and_or_left, masks_fails_iff, masks_returns_iff,
    pointers_eq_error]
  constructor
  · rintro (hend | ⟨e, -, -, hpointer⟩)
    · exact .inl hend
    · exact .inr hpointer
  · intro h
    by_cases hend : ∃ f ∈ Field.variants fields, f.EndOverflows
    · exact .inl hend
    · have hall : ∀ f ∈ Field.variants fields, ¬f.EndOverflows := fun f hf ho => hend ⟨f, hf, ho⟩
      exact .inr ⟨.multiply, hall, rfl, h.resolve_left hend⟩

/-- Exactly when the reducers fail, and with which message. The first variant with a number that
ends beyond the addresses decides the message of the masks: a product overflows where one of its
numbers starts beyond them, and otherwise a sum. -/
theorem reducers_fail_exactly (fields : List Field) :
    ((∃ e, masks fields = .error e) ↔ ∃ f ∈ Field.variants fields, f.EndOverflows) ∧
    (∀ e, masks fields = .error e ↔
      ∃ f, (Field.variants fields).find? (fun f => f.EndOverflows) = some f ∧
        e.message = if f.StartOverflows then "attempt to multiply with overflow"
          else "attempt to add with overflow") ∧
    (∀ e, pointers fields = .error e ↔
      e.message = "attempt to multiply with overflow" ∧
        ∃ f ∈ Field.variants fields, f.PointerOverflows) ∧
    ((∃ ms, masks fields = .ok ms) → ∃ rs, ranges fields = .ok rs) ∧
    ((∃ e, UnionLayout.resolve fields = .error e) ↔
      ∃ f ∈ Field.variants fields, f.EndOverflows ∨ f.PointerOverflows) ∧
    (∀ e, UnionLayout.resolve fields = .error e ↔
      masks fields = .error e ∨ (∃ ms, masks fields = .ok ms) ∧ pointers fields = .error e) ∧
    ∀ e, masks fields = .error e ∨ ranges fields = .error e ∨ pointers fields = .error e →
      e ≠ .subtract ∧ e ≠ .shift := by
  have hmultiply : "attempt to multiply with overflow" = Overflow.multiply.message := rfl
  have hadd : "attempt to add with overflow" = Overflow.add.message := rfl
  refine ⟨masks_fails_iff, fun e => ?_, fun e => ?_, fun h => ?_, resolve_fails_iff,
    fun e => resolve_eq_error, fun e h => ?_⟩
  · rw [masks_eq_error, hmultiply, hadd]
    simp only [← apply_ite Overflow.message, Overflow.message_inj]
  · rw [pointers_eq_error, hmultiply, Overflow.message_inj]
  · exact ranges_returns (masks_returns_iff.1 h)
  · rcases h with h | h | h
    · obtain ⟨f, -, rfl⟩ := masks_eq_error.1 h
      split <;> exact ⟨by decide, by decide⟩
    · rcases ranges_eq_error h with rfl | rfl <;> exact ⟨by decide, by decide⟩
    · obtain ⟨rfl, -⟩ := pointers_eq_error.1 h
      exact ⟨by decide, by decide⟩

end Union

end VariantStorage
