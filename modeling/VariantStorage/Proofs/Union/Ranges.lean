import VariantStorage.Proofs.BitPartition
import VariantStorage.Proofs.Union.Sweep

/-!
The byte ranges of a union. They are computed unless a number starts at no 64-bit address or the
sweep fails, and they are the canonical cover of the bytes that some variant stores a number in or
fills with its booleans.
-/
namespace VariantStorage

namespace Union

theorem variantRanges_eq (f : Field) : ∃ whole : List ByteRange,
    (∀ r, r ∈ whole ↔ r.length = 1 ∧ f.FillsByte r.position.toNat) ∧
    variantRanges f = do return whole ++ (← f.bytes) := by
  obtain ⟨p, hp, hsplit⟩ := BitPartition.ofBits_splits f.bits
  refine ⟨p.ranges, fun r => ?_, by rw [variantRanges, hp]; rfl⟩
  rw [hsplit.mem_ranges, f.listed_bits]
  rfl

theorem variantRanges_eq_error {f : Field} {e : Overflow} :
    variantRanges f = .error e ↔ e = .multiply ∧ f.StartOverflows := by
  obtain ⟨whole, -, heq⟩ := variantRanges_eq f
  simp only [heq, bind_eq_error, Field.bytes_eq_error, pure, Except.pure, reduceCtorEq, and_false,
    exists_false, or_false]

/-- The ranges of a variant are the bytes that its booleans fill, and its numbers and enums. -/
theorem mem_variantRanges {f : Field} {out : List ByteRange} (h : variantRanges f = .ok out)
    {r : ByteRange} : r ∈ out ↔
      (r.length = 1 ∧ f.FillsByte r.position.toNat) ∨ ∃ s ∈ f.leaves, s.Stores r := by
  obtain ⟨whole, hwhole, heq⟩ := variantRanges_eq f
  rw [heq] at h
  obtain ⟨data, hdata, hout⟩ := bind_eq_ok.1 h
  obtain rfl := Except.ok.inj hout
  rw [List.mem_append, hwhole, Field.mem_bytes hdata]

/-- The ranges of a variant hold the bytes that it fills and those in which it stores numbers. -/
theorem variantRanges_covers {f : Field} {out : List ByteRange} (h : variantRanges f = .ok out)
    {byte : Nat} : (∃ r ∈ out, r.covers byte = true) ↔ f.FillsByte byte ∨ f.CoversByte byte := by
  obtain ⟨whole, hwhole, heq⟩ := variantRanges_eq f
  rw [heq] at h
  obtain ⟨data, hdata, hout⟩ := bind_eq_ok.1 h
  obtain rfl := Except.ok.inj hout
  have hfill : (∃ r ∈ whole, r.covers byte = true) ↔ f.FillsByte byte := by
    simp only [hwhole, ByteRange.covers_iff, ByteRange.limit]
    constructor
    · rintro ⟨r, ⟨hlen, hfills⟩, hb⟩
      have hone : r.length.toNat = 1 := by rw [hlen]; rfl
      obtain rfl : r.position.toNat = byte := by omega
      exact hfills
    · intro hfills
      have hlt := hfills.lt
      have hto : (UInt64.ofNat byte).toNat = byte :=
        UInt64.toNat_ofNat_of_lt' (Nat.lt_trans hlt (by decide))
      refine ⟨⟨UInt64.ofNat byte, 1⟩, ⟨rfl, by rwa [hto]⟩, ?_⟩
      simp [hto]
  rw [← hfill, ← Field.covers_iff hdata]
  simp only [List.mem_append, or_and_right, exists_or]

theorem variantRanges_nonempty {f : Field} {out : List ByteRange} (h : variantRanges f = .ok out) :
    ∀ r ∈ out, 0 < r.length.toNat := by
  intro r hr
  rcases (mem_variantRanges h).1 hr with ⟨hlen, -⟩ | ⟨s, -, hwidth, -⟩
  · rw [hlen]
    decide
  · rcases SlotType.dataWidth_cases hwidth with hlen | hlen | hlen | hlen <;> rw [hlen] <;> decide

/-- No range of a variant reaches beyond the last address. -/
theorem variantRanges_limit_le {f : Field} {out : List ByteRange} (h : variantRanges f = .ok out) :
    ∀ r ∈ out, r.limit ≤ 2 ^ 64 := by
  intro r hr
  rcases (mem_variantRanges h).1 hr with ⟨hlen, hfills⟩ | ⟨s, -, hstore⟩
  · have hone : r.length.toNat = 1 := by rw [hlen]; rfl
    have hlt := hfills.lt
    unfold ByteRange.limit
    omega
  · exact hstore.limit_le

theorem ascending_mergeSort (ranges : List ByteRange) :
    Ascending (ranges.mergeSort fun r q => decide (r.position ≤ q.position)) := by
  have hsorted := List.pairwise_mergeSort' (Order.Preimage ByteRange.position (· ≤ ·)) ranges
  exact hsorted.imp fun hle => UInt64.le_iff_toNat_le.1 hle

def collected (fields : List Field) : Except Overflow (List ByteRange) :=
  gather variantRanges (Field.variants fields)

theorem ranges_eq_collected (fields : List Field) :
    ranges fields = (do
      let all ← collected fields
      merge (all.mergeSort fun r q => decide (r.position ≤ q.position))) := by
  simp [ranges, collected, gather]

/-- Some variant stores a number in the byte or fills it with its booleans. -/
def ClearsByte (fields : List Field) (byte : Nat) : Prop :=
  ∃ f ∈ Field.variants fields, f.FillsByte byte ∨ f.CoversByte byte

section Collected

variable {fields : List Field} {all : List ByteRange}

theorem collected_eq_error {e : Overflow} : collected fields = .error e ↔
    e = .multiply ∧ ∃ f ∈ Field.variants fields, f.StartOverflows :=
  gather_eq_error_of_single fun _ _ => variantRanges_eq_error

theorem collected_returns_iff : (∃ all, collected fields = .ok all) ↔
    ¬∃ f ∈ Field.variants fields, f.StartOverflows := by
  rw [← not_iff_not, ← exists_error_iff, not_not]
  simp only [collected_eq_error, exists_eq_left]

theorem collected_nonempty (h : collected fields = .ok all) :
    ∀ r ∈ all, 0 < r.length.toNat := by
  intro r hr
  obtain ⟨f, -, out, hout, hr⟩ := (mem_gather h).1 hr
  exact variantRanges_nonempty hout r hr

/-- No range ends further than at the last address. -/
theorem collected_limit_le (h : collected fields = .ok all) : ∀ r ∈ all, r.limit ≤ 2 ^ 64 := by
  intro r hr
  obtain ⟨f, -, out, hout, hr⟩ := (mem_gather h).1 hr
  exact variantRanges_limit_le hout r hr

/-- A collected range that ends at no address is that of a number that does. -/
theorem endOverflows_of_limit (h : collected fields = .ok all) {r : ByteRange} (hr : r ∈ all)
    (hlimit : 2 ^ 64 ≤ r.limit) : ∃ f ∈ Field.variants fields, f.EndOverflows := by
  obtain ⟨f, hf, out, hout, hr⟩ := (mem_gather h).1 hr
  rcases (mem_variantRanges hout).1 hr with ⟨hlen, hfills⟩ | ⟨s, hs, hstore⟩
  · have hone : r.length.toNat = 1 := by rw [hlen]; rfl
    have hlt := hfills.lt
    unfold ByteRange.limit at hlimit
    omega
  · rw [hstore.limit_eq] at hlimit
    exact ⟨f, hf, s, hs, r.length, hstore.1, hlimit⟩

/-- The ranges of all variants hold the bytes that are to be cleared. -/
theorem collected_covers (h : collected fields = .ok all) {byte : Nat} :
    (∃ r ∈ all, r.covers byte = true) ↔ ClearsByte fields byte := by
  simp only [mem_gather h, ClearsByte]
  constructor
  · rintro ⟨r, ⟨f, hf, out, hout, hr⟩, hb⟩
    exact ⟨f, hf, (variantRanges_covers hout).1 ⟨r, hr, hb⟩⟩
  · rintro ⟨f, hf, hclears⟩
    obtain ⟨out, hout⟩ := gather_returns_iff.1 ⟨all, h⟩ f hf
    obtain ⟨r, hr, hb⟩ := (variantRanges_covers hout).2 hclears
    exact ⟨r, ⟨f, hf, out, hout, hr⟩, hb⟩

end Collected

/-- The ranges of a union are canonical, and they hold the bytes to be cleared whole. -/
theorem ranges_canonical {fields : List Field} {out : List ByteRange}
    (h : ranges fields = .ok out) :
    Canonical out ∧ ∀ byte, (∃ r ∈ out, r.covers byte = true) ↔ ClearsByte fields byte := by
  rw [ranges_eq_collected] at h
  obtain ⟨all, hall, hmerge⟩ := bind_eq_ok.1 h
  have hlen := collected_nonempty hall
  obtain ⟨hcanonical, hsame⟩ := merge_canonical (ascending_mergeSort all)
    (fun r hr => hlen r (List.mem_mergeSort.1 hr)) hmerge
  refine ⟨hcanonical, fun byte => ?_⟩
  rw [hsame, ← collected_covers hall]
  simp only [List.mem_mergeSort]

/-- Where every number and enum ends at an address, the ranges are computed. -/
theorem ranges_returns {fields : List Field}
    (h : ∀ f ∈ Field.variants fields, ¬f.EndOverflows) : ∃ out, ranges fields = .ok out := by
  have hstart : ¬∃ f ∈ Field.variants fields, f.StartOverflows := by
    rintro ⟨f, hf, ho⟩
    exact h f hf ho.endOverflows
  obtain ⟨all, hall⟩ := collected_returns_iff.2 hstart
  have hlimit : ∀ r ∈ all, r.limit < 2 ^ 64 := by
    intro r hr
    by_contra hge
    obtain ⟨f, hf, ho⟩ := endOverflows_of_limit hall hr (Nat.le_of_not_lt hge)
    exact h f hf ho
  obtain ⟨out, hout⟩ := merge_returns (ascending_mergeSort all)
    fun r hr => hlimit r (List.mem_mergeSort.1 hr)
  exact ⟨out, by rw [ranges_eq_collected, hall]; exact hout⟩

/-- The ranges of a union fail with a product or a sum, never with a difference or a shift. -/
theorem ranges_eq_error {fields : List Field} {e : Overflow} (h : ranges fields = .error e) :
    e = .multiply ∨ e = .add := by
  rw [ranges_eq_collected, bind_eq_error] at h
  rcases h with h | ⟨all, -, hmerge⟩
  · exact .inl (collected_eq_error.1 h).1
  · exact .inr (merge_eq_error (ascending_mergeSort all) hmerge)

/-- The ranges of a union are the one shortest cover of the bytes that some variant stores a number
in or fills with its booleans: they are separated by gaps, no cover has fewer ranges, and one with
as few has the same ranges in another order. -/
theorem ranges_minimal_cover {fields : List Field} {out : List ByteRange}
    (h : ranges fields = .ok out) :
    (∀ r ∈ out, 1 ≤ r.length.toNat) ∧
    (out.Pairwise fun r q => r.position.toNat + r.length.toNat < q.position.toNat) ∧
    (∀ byte, (∃ r ∈ out, r.covers byte = true) ↔
      ∃ f ∈ Field.variants fields, f.FillsByte byte ∨ f.CoversByte byte) ∧
    ∀ others : List ByteRange,
      (∀ byte, (∃ r ∈ out, r.covers byte = true) ↔ ∃ q ∈ others, q.covers byte = true) →
      out.length ≤ others.length ∧ (others.length = out.length → others.Perm out) := by
  obtain ⟨hcanonical, hcovers⟩ := ranges_canonical h
  refine ⟨hcanonical.nonempty, hcanonical.apart, hcovers, fun others hsame => ?_⟩
  refine ⟨hcanonical.length_le hsame, fun hlen => ?_⟩
  exact hcanonical.perm_of_length_le hsame (Nat.le_of_eq hlen)

/-- Three claims that merge into one range, and a number that ends past the last address. -/
def farFields : List Field :=
  [.slot (some 0) ⟨.builtin .uint64, 0x1fffffffffffffff⟩, .wholeByte (some 1) 1,
    .slot (some 2) ⟨.builtin .uint8, 2⟩, .slot (some 3) ⟨.builtin .uint8, 0⟩]

theorem ranges_minimal_cover_to_last_address :
    ranges farFields = .ok [⟨0, 3⟩, ⟨0xfffffffffffffff8, 8⟩] ∧
    ∀ others : List ByteRange, SameBytes [⟨0, 3⟩, ⟨0xfffffffffffffff8, 8⟩] others →
      2 ≤ others.length ∧ (others.length = 2 → others.Perm [⟨0, 3⟩, ⟨0xfffffffffffffff8, 8⟩]) := by
  have h : ranges farFields = .ok [⟨0, 3⟩, ⟨0xfffffffffffffff8, 8⟩] := by cbv
  exact ⟨h, (ranges_minimal_cover h).2.2.2⟩

end Union

end VariantStorage
