import VariantStorage.Proofs.Union.Failure

/-!
What a layout depends on: the sets of bits that single variants claim with their booleans, the set
of bytes that variants store numbers in, and the set of offsets of their pointers. Each of the three
lists of a layout is sorted without ties, so it is determined by what it holds; and whether a layout
is computed at all can be read off the same sets, since a number ends past the last address exactly
when it covers the last byte or one beyond it.
-/
namespace VariantStorage

namespace Union

/-- The sets of bits that single variants claim with their booleans, where they claim any. -/
def boolSets (fields : List Field) : Set (Set Nat) :=
  {bits | bits.Nonempty ∧ ∃ f ∈ Field.variants fields, bits = {n | f.ClaimsBit n}}

def dataSet (fields : List Field) : Set Nat :=
  {byte | ∃ f ∈ Field.variants fields, f.CoversByte byte}

def pointerSet (fields : List Field) : Set Nat :=
  {n | ∃ f ∈ Field.variants fields, f.PointsAt n}

/-- The variants of the two lists claim the same storage. -/
structure SameClaims (fields others : List Field) : Prop where
  bools : boolSets fields = boolSets others
  data : dataSet fields = dataSet others
  offsets : pointerSet fields = pointerSet others

theorem SameClaims.symm {fields others : List Field} (h : SameClaims fields others) :
    SameClaims others fields :=
  ⟨h.bools.symm, h.data.symm, h.offsets.symm⟩

/-- The layout of one list is resolved exactly when that of the other is, and it is the same. -/
structure SameLayout (fields others : List Field) : Prop where
  fails_iff : (∃ e, UnionLayout.resolve fields = .error e) ↔
    ∃ e, UnionLayout.resolve others = .error e
  returns_iff : ∀ layout, UnionLayout.resolve fields = .ok layout ↔
    UnionLayout.resolve others = .ok layout

section Sets

variable {fields others : List Field} (h : SameClaims fields others)
include h

theorem SameClaims.covers_iff (byte : Nat) :
    (∃ f ∈ Field.variants fields, f.CoversByte byte) ↔
      ∃ g ∈ Field.variants others, g.CoversByte byte :=
  Set.ext_iff.1 h.data byte

theorem SameClaims.points_iff (n : Nat) :
    (∃ f ∈ Field.variants fields, f.PointsAt n) ↔ ∃ g ∈ Field.variants others, g.PointsAt n :=
  Set.ext_iff.1 h.offsets n

/-- A variant that claims a bit has a counterpart that claims the same bits. -/
theorem SameClaims.exists_counterpart {f : Field} (hf : f ∈ Field.variants fields) {n : Nat}
    (hn : f.ClaimsBit n) : ∃ g ∈ Field.variants others, ∀ m, f.ClaimsBit m ↔ g.ClaimsBit m := by
  have hbits : {m | f.ClaimsBit m} ∈ boolSets fields := ⟨⟨n, hn⟩, f, hf, rfl⟩
  rw [h.bools] at hbits
  obtain ⟨-, g, hg, heq⟩ := hbits
  exact ⟨g, hg, Set.ext_iff.1 heq⟩

end Sets

theorem fillsByte_congr {f g : Field} (h : ∀ n, f.ClaimsBit n ↔ g.ClaimsBit n) {byte : Nat} :
    f.FillsByte byte ↔ g.FillsByte byte := by
  simp only [Field.FillsByte, h]

theorem sharesByte_congr {f g : Field} (h : ∀ n, f.ClaimsBit n ↔ g.ClaimsBit n) {byte : Nat} :
    f.SharesByte byte ↔ g.SharesByte byte := by
  simp only [Field.SharesByte, h, fillsByte_congr h]

-- Each fact about one list that a layout is made of holds of the other.
section Half

variable {fields others : List Field} (h : SameClaims fields others)
include h

theorem SameClaims.fills {byte : Nat} (hf : ∃ f ∈ Field.variants fields, f.FillsByte byte) :
    ∃ g ∈ Field.variants others, g.FillsByte byte := by
  obtain ⟨f, hf, hfills⟩ := hf
  obtain ⟨g, hg, hsame⟩ := h.exists_counterpart hf (hfills 0 (by decide))
  exact ⟨g, hg, (fillsByte_congr hsame).1 hfills⟩

theorem SameClaims.shares {byte : Nat} (hf : ∃ f ∈ Field.variants fields, f.SharesByte byte) :
    ∃ g ∈ Field.variants others, g.SharesByte byte := by
  obtain ⟨f, hf, hshare⟩ := hf
  obtain ⟨k, -, hbit⟩ := hshare.1
  obtain ⟨g, hg, hsame⟩ := h.exists_counterpart hf hbit
  exact ⟨g, hg, (sharesByte_congr hsame).1 hshare⟩

/-- A bit that no sharing variant of the other list claims is claimed by none of this one. -/
theorem SameClaims.keeps {byte n : Nat}
    (hg : ∀ g ∈ Field.variants others, g.SharesByte byte → ¬g.ClaimsBit n) :
    ∀ f ∈ Field.variants fields, f.SharesByte byte → ¬f.ClaimsBit n := by
  intro f hf hshare hbit
  obtain ⟨g, hg', hsame⟩ := h.exists_counterpart hf hbit
  exact hg g hg' ((sharesByte_congr hsame).1 hshare) ((hsame n).1 hbit)

/-- A number ends past the last address when it covers the last byte or one beyond it. -/
theorem SameClaims.endOverflows (hf : ∃ f ∈ Field.variants fields, f.EndOverflows) :
    ∃ g ∈ Field.variants others, g.EndOverflows := by
  obtain ⟨f, hf, s, hs, w, hw, hend⟩ := hf
  have hpos : 0 < w.toNat := by
    rcases SlotType.dataWidth_cases hw with rfl | rfl | rfl | rfl <;> decide
  have hlast : s.CoversByte (w.toNat * (s.offset.toNat + 1) - 1) := by
    refine ⟨w, hw, ?_, ?_⟩
    · rw [Nat.mul_succ]
      omega
    · omega
  obtain ⟨g, hg, t, ht, v, hv, -, hbyte⟩ := (h.covers_iff _).1 ⟨f, hf, s, hs, hlast⟩
  refine ⟨g, hg, t, ht, v, hv, ?_⟩
  omega

theorem SameClaims.pointerOverflows (hf : ∃ f ∈ Field.variants fields, f.PointerOverflows) :
    ∃ g ∈ Field.variants others, g.PointerOverflows := by
  obtain ⟨f, hf, hover⟩ := hf
  obtain ⟨n, hat, hn⟩ := Field.pointerOverflows_iff.1 hover
  obtain ⟨g, hg, hat⟩ := (h.points_iff n).1 ⟨f, hf, hat⟩
  exact ⟨g, hg, Field.pointerOverflows_iff.2 ⟨n, hat, hn⟩⟩

theorem SameClaims.fails
    (hf : ∃ f ∈ Field.variants fields, f.EndOverflows ∨ f.PointerOverflows) :
    ∃ g ∈ Field.variants others, g.EndOverflows ∨ g.PointerOverflows := by
  simp only [and_or_left, exists_or] at hf ⊢
  exact hf.imp h.endOverflows h.pointerOverflows

theorem SameClaims.clearsByte {byte : Nat} (hf : ClearsByte fields byte) :
    ClearsByte others byte := by
  simp only [ClearsByte, and_or_left, exists_or] at hf ⊢
  exact hf.imp h.fills (h.covers_iff byte).1

theorem SameClaims.mem_masks {ms ms' : List MaskEntry} (hms : masks fields = .ok ms)
    (hms' : masks others = .ok ms') {e : MaskEntry} (he : e ∈ ms) : e ∈ ms' := by
  obtain ⟨hclear, hshare, hkeeps⟩ := (mem_masks_iff hms).1 he
  rw [h.covers_iff] at hclear
  refine (mem_masks_iff hms').2 ⟨hclear, h.shares hshare, fun k hk => ?_⟩
  rw [hkeeps k hk]
  exact ⟨h.symm.keeps, h.keeps⟩

end Half

section Lists

variable {fields others : List Field} (h : SameClaims fields others)
include h

theorem SameClaims.masks_eq {ms ms' : List MaskEntry} (hms : masks fields = .ok ms)
    (hms' : masks others = .ok ms') : ms = ms' := by
  apply eq_of_mem_iff_of_asymm ?_ (masks_descending hms) (masks_descending hms')
  · exact fun e => ⟨h.mem_masks hms hms', h.symm.mem_masks hms' hms⟩
  · exact fun _ _ => Nat.lt_asymm

theorem SameClaims.ranges_eq {rs rs' : List ByteRange} (hrs : ranges fields = .ok rs)
    (hrs' : ranges others = .ok rs') : rs = rs' := by
  obtain ⟨hcanonical, hcovers⟩ := ranges_canonical hrs
  obtain ⟨hcanonical', hcovers'⟩ := ranges_canonical hrs'
  apply hcanonical.eq_of_sameBytes hcanonical'
  intro byte
  rw [hcovers, hcovers']
  exact ⟨h.clearsByte, h.symm.clearsByte⟩

theorem SameClaims.pointers_eq {ps ps' : List UInt64} (hps : pointers fields = .ok ps)
    (hps' : pointers others = .ok ps') : ps = ps' :=
  pointers_eq_of_pointsAt hps hps' h.points_iff

/-- Whether resolving fails depends on what is claimed alone. -/
theorem SameClaims.fails_iff : (∃ e, UnionLayout.resolve fields = .error e) ↔
    ∃ e, UnionLayout.resolve others = .error e := by
  rw [resolve_fails_iff, resolve_fails_iff]
  exact ⟨h.fails, h.symm.fails⟩

end Lists

/-- Lists whose variants claim the same storage have the same layout. -/
theorem SameClaims.returns {fields others : List Field} (h : SameClaims fields others)
    {layout : UnionLayout} (hl : UnionLayout.resolve fields = .ok layout) :
    UnionLayout.resolve others = .ok layout := by
  obtain ⟨layout', hl'⟩ := (returns_iff_of_fails_iff h.fails_iff).1 ⟨layout, hl⟩
  obtain ⟨hms, hrs, hps⟩ := resolve_eq_ok.1 hl
  obtain ⟨hms', hrs', hps'⟩ := resolve_eq_ok.1 hl'
  rw [hl', Except.ok.injEq]
  cases layout
  cases layout'
  simp only [UnionLayout.mk.injEq]
  exact ⟨(h.masks_eq hms hms').symm, (h.ranges_eq hrs hrs').symm, (h.pointers_eq hps hps').symm⟩

theorem SameClaims.sameLayout {fields others : List Field} (h : SameClaims fields others) :
    SameLayout fields others :=
  ⟨h.fails_iff, fun _ => ⟨h.returns, h.symm.returns⟩⟩

end Union

end VariantStorage
