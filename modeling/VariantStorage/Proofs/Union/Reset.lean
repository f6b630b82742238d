import VariantStorage.Proofs.Union.Failure
import VariantStorage.Union.Layout

/-!
What a reset leaves of a data section. Each step clears some bits and leaves all others, whatever
the data are, so a bit is cleared exactly when some step clears it, in whatever order the steps are
taken. The bits that some step of a layout clears are those that some variant claims.
-/
namespace VariantStorage

def DataSection.bit (data : DataSection) (n : Nat) : Bool :=
  (data (n / 8)).toNat.testBit (n % 8)

section Steps

variable {step : DataSection → DataSection} {steps : List (DataSection → DataSection)} {n : Nat}

/-- The step clears the bit of every data section. -/
def Clears (step : DataSection → DataSection) (n : Nat) : Prop :=
  ∀ data, (step data).bit n = false

/-- The step leaves the bit of every data section as it was. -/
def Leaves (step : DataSection → DataSection) (n : Nat) : Prop :=
  ∀ data, (step data).bit n = data.bit n

theorem ByteRange.clears {r : ByteRange} (h : r.covers (n / 8) = true) : Clears r.clear n := by
  intro data
  simp [DataSection.bit, clear, h]

theorem ByteRange.leaves {r : ByteRange} (h : ¬r.covers (n / 8) = true) : Leaves r.clear n := by
  intro data
  simp [DataSection.bit, clear, h]

theorem MaskEntry.clears {e : MaskEntry} (hp : e.position.toNat = n / 8)
    (h : ¬e.mask.toNat.testBit (n % 8) = true) : Clears e.clear n := by
  intro data
  simp [DataSection.bit, clear, hp, h]

theorem MaskEntry.leaves {e : MaskEntry}
    (h : e.position.toNat = n / 8 → e.mask.toNat.testBit (n % 8) = true) : Leaves e.clear n := by
  intro data
  by_cases hp : n / 8 = e.position.toNat
  · simp [DataSection.bit, clear, hp, h hp.symm]
  · simp [DataSection.bit, clear, hp]

/-- A bit that no step touches is as it was. -/
theorem bit_after_of_leaves (h : ∀ step ∈ steps, Leaves step n) (data : DataSection) :
    (data.after steps).bit n = data.bit n := by
  induction steps generalizing data with
  | nil => rfl
  | cons step steps ih =>
    obtain ⟨hstep, hsteps⟩ := List.forall_mem_cons.1 h
    exact (ih hsteps (step data)).trans (hstep data)

/-- A cleared bit stays cleared. -/
theorem bit_after_of_false (h : ∀ step ∈ steps, Clears step n ∨ Leaves step n) {data : DataSection}
    (hd : data.bit n = false) : (data.after steps).bit n = false := by
  induction steps generalizing data with
  | nil => exact hd
  | cons step steps ih =>
    obtain ⟨hstep, hsteps⟩ := List.forall_mem_cons.1 h
    rcases hstep with hclears | hleaves
    · exact ih hsteps (hclears data)
    · exact ih hsteps ((hleaves data).trans hd)

/-- A bit that some step clears stays cleared, for no step sets one. -/
theorem bit_after_of_clears (h : ∀ step ∈ steps, Clears step n ∨ Leaves step n)
    (hc : ∃ step ∈ steps, Clears step n) (data : DataSection) :
    (data.after steps).bit n = false := by
  induction steps generalizing data with
  | nil => simp at hc
  | cons step steps ih =>
    obtain ⟨hstep, hsteps⟩ := List.forall_mem_cons.1 h
    obtain ⟨later, hlater, hclears⟩ := hc
    rcases List.mem_cons.1 hlater with rfl | hlater
    · exact bit_after_of_false hsteps (hclears data)
    · exact ih hsteps ⟨later, hlater, hclears⟩ (step data)

end Steps

namespace UnionLayout

variable {fields : List Field} {layout : UnionLayout} {n : Nat}

/-- Some variant has a boolean at the bit, or a number or an enum over its byte. -/
def ClaimsBit (fields : List Field) (n : Nat) : Prop :=
  ∃ f ∈ Field.variants fields, f.ClaimsBit n ∨ f.CoversByte (n / 8)

theorem mem_steps {step : DataSection → DataSection} : step ∈ layout.steps ↔
    (∃ r ∈ layout.ranges, r.clear = step) ∨ ∃ e ∈ layout.masks, e.clear = step := by
  simp [steps]

/-- Every step of a layout clears a bit or leaves it. -/
theorem clears_or_leaves {step : DataSection → DataSection} (h : step ∈ layout.steps) :
    Clears step n ∨ Leaves step n := by
  rcases mem_steps.1 h with ⟨r, -, rfl⟩ | ⟨e, -, rfl⟩
  · by_cases hc : r.covers (n / 8) = true
    · exact .inl (ByteRange.clears hc)
    · exact .inr (ByteRange.leaves hc)
  · by_cases hk : e.position.toNat = n / 8 → e.mask.toNat.testBit (n % 8) = true
    · exact .inr (MaskEntry.leaves hk)
    · obtain ⟨hp, hoff⟩ := Classical.not_imp.1 hk
      exact .inl (MaskEntry.clears hp hoff)

/-- A claimed bit is cleared by a range, where its byte is cleared whole, or else by a mask. -/
theorem exists_clears (h : resolve fields = .ok layout) (hn : ClaimsBit fields n) :
    ∃ step ∈ layout.steps, Clears step n := by
  obtain ⟨hmasks, hranges, -⟩ := Union.resolve_eq_ok.1 h
  by_cases hwhole : Union.ClearsByte fields (n / 8)
  · obtain ⟨r, hr, hc⟩ := ((Union.ranges_canonical hranges).2 (n / 8)).2 hwhole
    exact ⟨r.clear, mem_steps.2 (.inl ⟨r, hr, rfl⟩), ByteRange.clears hc⟩
  · have hdata : ¬∃ f ∈ Field.variants fields, f.CoversByte (n / 8) := by
      rintro ⟨f, hf, hcovers⟩
      exact hwhole ⟨f, hf, .inr hcovers⟩
    obtain ⟨f, hf, hbit | hcovers⟩ := hn
    · have hk : n % 8 < 8 := Nat.mod_lt _ (by decide)
      rw [← Nat.div_add_mod n 8] at hbit
      have hshare : f.SharesByte (n / 8) :=
        ⟨⟨n % 8, hk, hbit⟩, fun hfills => hwhole ⟨f, hf, .inl hfills⟩⟩
      obtain ⟨e, he, hp⟩ := (Union.masks_position_iff hmasks).2 ⟨hdata, f, hf, hshare⟩
      have hoff : ¬e.mask.toNat.testBit (n % 8) = true := by
        rw [Union.masks_testBit_iff hmasks he hk, hp]
        exact fun hall => hall f hf hshare hbit
      exact ⟨e.clear, mem_steps.2 (.inr ⟨e, he, rfl⟩), MaskEntry.clears hp hoff⟩
    · exact absurd ⟨f, hf, hcovers⟩ hdata

/-- A bit that no variant claims is left by every step. -/
theorem all_leave (h : resolve fields = .ok layout) (hn : ¬ClaimsBit fields n)
    {step : DataSection → DataSection} (hstep : step ∈ layout.steps) : Leaves step n := by
  obtain ⟨hmasks, hranges, -⟩ := Union.resolve_eq_ok.1 h
  have hk : n % 8 < 8 := Nat.mod_lt _ (by decide)
  rcases mem_steps.1 hstep with ⟨r, hr, rfl⟩ | ⟨e, he, rfl⟩
  · apply ByteRange.leaves
    intro hc
    apply hn
    obtain ⟨f, hf, hfills | hcovers⟩ := ((Union.ranges_canonical hranges).2 (n / 8)).1 ⟨r, hr, hc⟩
    · have hbit := hfills (n % 8) hk
      rw [Nat.div_add_mod] at hbit
      exact ⟨f, hf, .inl hbit⟩
    · exact ⟨f, hf, .inr hcovers⟩
  · apply MaskEntry.leaves
    intro hp
    rw [Union.masks_testBit_iff hmasks he hk, hp, Nat.div_add_mod]
    exact fun f hf _ hbit => hn ⟨f, hf, .inl hbit⟩

/-- A reset clears exactly the claimed bits, in whatever order its steps are taken. -/
theorem reset_exact (h : resolve fields = .ok layout) (data : DataSection)
    {steps : List (DataSection → DataSection)} (hsteps : steps.Perm layout.steps) (n : Nat) :
    (ClaimsBit fields n → (data.after steps).bit n = false) ∧
      (¬ClaimsBit fields n → (data.after steps).bit n = data.bit n) := by
  constructor
  · intro hn
    obtain ⟨step, hstep, hclears⟩ := exists_clears h hn
    apply bit_after_of_clears ?_ ⟨step, hsteps.mem_iff.2 hstep, hclears⟩
    intro step hstep
    exact clears_or_leaves (hsteps.mem_iff.1 hstep)
  · intro hn
    apply bit_after_of_leaves
    intro step hstep
    exact all_leave h hn (hsteps.mem_iff.1 hstep)

def sharedLayout : UnionLayout :=
  ⟨[⟨2, 0xf9⟩, ⟨0, 0xf7⟩], [⟨0, 2⟩], []⟩

theorem reset_exact_backwards :
    resolve Union.sharedFields = .ok sharedLayout ∧
    sharedLayout.steps.reverse.Perm sharedLayout.steps ∧
    ∀ (data : DataSection) (n : Nat),
      (ClaimsBit Union.sharedFields n → (data.after sharedLayout.steps.reverse).bit n = false) ∧
        (¬ClaimsBit Union.sharedFields n →
          (data.after sharedLayout.steps.reverse).bit n = data.bit n) := by
  have h : resolve Union.sharedFields = .ok sharedLayout := by cbv
  have hperm := List.reverse_perm sharedLayout.steps
  exact ⟨h, hperm, fun data n => reset_exact h data hperm n⟩

end UnionLayout

end VariantStorage
