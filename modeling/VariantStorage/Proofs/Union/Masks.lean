import VariantStorage.Proofs.Union.Ranges
import VariantStorage.Union.Layout

/-!
The keep-masks of a union. Every variant has a mask for each byte that it claims in part; sorted by
position, the masks of one byte stand side by side and are joined into one that keeps what all of
them keep. What is left out before are the bytes in which some variant stores a number, and finding
those is all that can fail.
-/
namespace VariantStorage.Union

section Join

def Descending (entries : List MaskEntry) : Prop :=
  entries.Pairwise fun d e => e.position.toNat ≤ d.position.toNat

/-- One entry for each position, which keeps the bits that all entries of the position keep. -/
structure Joined (entries out : List MaskEntry) : Prop where
  descending : out.Pairwise fun d e => e.position.toNat < d.position.toNat
  position_iff : ∀ p, (∃ e ∈ out, e.position = p) ↔ ∃ e ∈ entries, e.position = p
  testBit_iff : ∀ e ∈ out, ∀ k, e.mask.toNat.testBit k = true ↔
    ∀ d ∈ entries, d.position = e.position → d.mask.toNat.testBit k = true

theorem Joined.single (e : MaskEntry) : Joined [e] [e] where
  descending := List.pairwise_singleton _ _
  position_iff p := Iff.rfl
  testBit_iff := by simp

/-- Two neighbours with one position may be joined first. -/
theorem Joined.same {entry e : MaskEntry} {es out : List MaskEntry}
    (h : Joined (⟨entry.position, entry.mask &&& e.mask⟩ :: es) out)
    (hp : e.position = entry.position) : Joined (entry :: e :: es) out where
  descending := h.descending
  position_iff p := by
    rw [h.position_iff]
    simp only [List.mem_cons, exists_eq_or_imp, hp]
    rw [← or_assoc, or_self]
  testBit_iff q hq k := by
    rw [h.testBit_iff q hq k]
    simp only [List.forall_mem_cons, hp, UInt8.toNat_and, Nat.testBit_and, Bool.and_eq_true]
    rw [← and_assoc, imp_and]

/-- An entry with a position of its own is complete. -/
theorem Joined.next {entry e : MaskEntry} {es later : List MaskEntry}
    (h : Joined (e :: es) later) (hdesc : Descending (entry :: e :: es))
    (hp : e.position ≠ entry.position) : Joined (entry :: e :: es) (entry :: later) := by
  obtain ⟨hfirst, hrest⟩ := List.pairwise_cons.1 hdesc
  have hlt : ∀ d ∈ e :: es, d.position.toNat < entry.position.toNat := by
    intro d hd
    have he := hfirst e List.mem_cons_self
    rw [ne_eq, ← UInt64.toNat_inj] at hp
    rcases List.mem_cons.1 hd with rfl | hd
    · omega
    · have hle := (List.pairwise_cons.1 hrest).1 d hd
      omega
  have hlater : ∀ q ∈ later, q.position.toNat < entry.position.toNat := by
    intro q hq
    obtain ⟨d, hd, hdq⟩ := (h.position_iff q.position).1 ⟨q, hq, rfl⟩
    exact hdq ▸ hlt d hd
  -- no entry to come has the position of `entry`
  refine ⟨List.pairwise_cons.2 ⟨hlater, h.descending⟩, fun p => ?_, ?_⟩
  · have hrest := h.position_iff p
    simp only [List.mem_cons, exists_eq_or_imp] at hrest ⊢
    rw [hrest]
  · refine List.forall_mem_cons.2 ⟨fun k => ?_, fun q hq k => ?_⟩
    · constructor
      · intro hk
        refine List.forall_mem_cons.2 ⟨fun _ => hk, fun d hd hde => ?_⟩
        exact absurd (hde ▸ hlt d hd) (Nat.lt_irrefl _)
      · intro hall
        exact hall entry List.mem_cons_self rfl
    · rw [h.testBit_iff q hq k]
      constructor
      · intro hall
        refine List.forall_mem_cons.2 ⟨fun heq => ?_, hall⟩
        exact absurd (heq ▸ hlater q hq) (Nat.lt_irrefl _)
      · intro hall
        exact (List.forall_mem_cons.1 hall).2

theorem joinMasksFrom_joined {entry : MaskEntry} {es : List MaskEntry}
    (h : Descending (entry :: es)) : Joined (entry :: es) (joinMasksFrom entry es) := by
  induction es generalizing entry with
  | nil => exact .single entry
  | cons e es ih =>
    obtain ⟨hfirst, hrest⟩ := List.pairwise_cons.1 h
    unfold joinMasksFrom
    split
    next hp =>
      refine (ih (List.pairwise_cons.2 ⟨fun d hd => ?_, (List.pairwise_cons.1 hrest).2⟩)).same hp
      exact hfirst d (List.mem_cons_of_mem e hd)
    next hp => exact (ih hrest).next h hp

/-- In descending order, entries of one position stand side by side and are joined. -/
theorem joinMasks_joined {entries : List MaskEntry} (h : Descending entries) :
    Joined entries (joinMasks entries) := by
  cases entries with
  | nil => exact ⟨List.Pairwise.nil, fun p => Iff.rfl, by simp [joinMasks]⟩
  | cons e es => exact joinMasksFrom_joined h

end Join

/-- The masks of a variant are computed whatever its bits are. -/
theorem variantMasks_returns (f : Field) : ∃ entries, variantMasks f = .ok entries := by
  obtain ⟨p, hp, -⟩ := BitPartition.ofBits_splits f.bits
  exact ⟨p.masks, by rw [variantMasks, hp]; rfl⟩

theorem mem_variantMasks {f : Field} {entries : List MaskEntry} (h : variantMasks f = .ok entries)
    {e : MaskEntry} : e ∈ entries ↔ f.MasksByte e := by
  obtain ⟨p, hp, hsplit⟩ := BitPartition.ofBits_splits f.bits
  rw [variantMasks, hp] at h
  obtain rfl := Except.ok.inj h
  exact Field.mem_masks hsplit

theorem descending_mergeSort (entries : List MaskEntry) :
    Descending (entries.mergeSort fun d e => decide (e.position ≤ d.position)) := by
  have hsorted := List.pairwise_mergeSort' (Order.Preimage MaskEntry.position (· ≥ ·)) entries
  exact hsorted.imp fun hle => UInt64.le_iff_toNat_le.1 hle

/-- The masks that go into the join: those of all variants, sorted, less the cleared bytes. -/
theorem masks_eq (fields : List Field) : ∃ entries, Descending entries ∧
    (∀ e, e ∈ entries ↔ ∃ f ∈ Field.variants fields, f.MasksByte e) ∧
    masks fields = do
      let cleared ← clearedBytes fields
      return joinMasks (entries.filter fun e => !cleared.contains e.position) := by
  obtain ⟨all, hall⟩ := gather_returns_iff.2 fun f (_ : f ∈ Field.variants fields) =>
    variantMasks_returns f
  refine ⟨_, descending_mergeSort all, fun e => ?_, ?_⟩
  · rw [List.mem_mergeSort, mem_gather_iff mem_variantMasks hall]
  · have hgather : masks fields = (do
        let all ← gather variantMasks (Field.variants fields)
        let cleared ← clearedBytes fields
        return joinMasks ((all.mergeSort fun d e => decide (e.position ≤ d.position)).filter
          fun e => !cleared.contains e.position)) := by
      simp [masks, gather]
    rw [hgather, hall]
    rfl

section Cleared

variable {f : Field} {fields : List Field} {e : Overflow}

theorem dataBytes_eq_gather (f : Field) :
    dataBytes f = f.bytes >>= fun ranges => gather ByteRange.bytes ranges :=
  rfl

theorem mem_dataBytes {bytes : List UInt64} (h : dataBytes f = .ok bytes) {b : UInt64} :
    b ∈ bytes ↔ f.CoversByte b.toNat := by
  rw [dataBytes_eq_gather] at h
  obtain ⟨ranges, hranges, hbytes⟩ := bind_eq_ok.1 h
  rw [← Field.covers_iff hranges]
  exact mem_gather_iff ByteRange.mem_bytes hbytes

/-- The bytes that are cleared whole are those in which a variant stores a number or an enum. -/
theorem mem_clearedBytes {cleared : List UInt64} (h : clearedBytes fields = .ok cleared)
    {b : UInt64} : b ∈ cleared ↔ ∃ f ∈ Field.variants fields, f.CoversByte b.toNat := by
  have hgather : gather dataBytes (Field.variants fields) = .ok cleared := h
  exact mem_gather_iff mem_dataBytes hgather

/-- Listing the bytes of a field: all products are computed before the first end. -/
theorem dataBytes_eq_error : dataBytes f = .error e ↔
    f.EndOverflows ∧ e = if f.StartOverflows then .multiply else .add := by
  rw [dataBytes_eq_gather, bind_eq_error, Field.bytes_eq_error]
  have hgather : ∀ ranges, gather ByteRange.bytes ranges = .error e ↔
      e = .add ∧ ∃ r ∈ ranges, 2 ^ 64 ≤ r.limit := fun ranges =>
    gather_eq_error_of_single fun _ _ => ByteRange.bytes_eq_error
  simp only [hgather]
  by_cases hstart : f.StartOverflows
  · have hno : ¬∃ ranges, f.bytes = .ok ranges :=
      exists_error_iff.1 ⟨.multiply, Field.bytes_eq_error.2 ⟨rfl, hstart⟩⟩
    simp only [hstart, hstart.endOverflows, if_true, and_true, true_and, or_iff_left_iff_imp]
    rintro ⟨ranges, hok, -⟩
    exact absurd ⟨ranges, hok⟩ hno
  · have hyes : ∃ ranges, f.bytes = .ok ranges := by
      by_contra hno
      obtain ⟨e', he⟩ := exists_error_iff.2 hno
      exact hstart (Field.bytes_eq_error.1 he).2
    obtain ⟨ranges, hok⟩ := hyes
    simp only [hok, Except.ok.injEq, exists_eq_left', hstart, and_false, false_or, if_false,
      Field.endOverflows_iff hok]
    exact and_comm

theorem dataBytes_fails_iff : (∃ e, dataBytes f = .error e) ↔ f.EndOverflows := by
  simp [dataBytes_eq_error]

/-- The masks fail on the first variant that stores a number beyond the last address. -/
theorem masks_eq_error : masks fields = .error e ↔
    ∃ f, (Field.variants fields).find? (fun f => f.EndOverflows) = some f ∧
      e = if f.StartOverflows then .multiply else .add := by
  obtain ⟨entries, -, -, heq⟩ := masks_eq fields
  have hcleared : masks fields = .error e ↔
      gather dataBytes (Field.variants fields) = .error e := by
    simp only [heq, bind_eq_error, pure, Except.pure, reduceCtorEq, and_false, exists_false,
      or_false]
    rfl
  rw [hcleared, gather_eq_error (p := fun f => f.EndOverflows) fun f => by
    rw [dataBytes_fails_iff, decide_eq_true_iff]]
  apply exists_congr
  intro f
  apply and_congr_right
  intro hf
  have hend : f.EndOverflows := by simpa using List.find?_some hf
  rw [dataBytes_eq_error, and_iff_right hend]

/-- Masks fail exactly if a number of some variant ends past the last address, also where there is
no mask. -/
theorem masks_fails_iff :
    (∃ e, masks fields = .error e) ↔ ∃ f ∈ Field.variants fields, f.EndOverflows := by
  simp only [masks_eq_error]
  constructor
  · rintro ⟨e, f, hf, -⟩
    exact ⟨f, List.mem_of_find?_eq_some hf, by simpa using List.find?_some hf⟩
  · rintro ⟨f, hf, hend⟩
    have hsome : ((Field.variants fields).find? fun f => f.EndOverflows).isSome := by
      rw [List.find?_isSome]
      exact ⟨f, hf, decide_eq_true hend⟩
    obtain ⟨g, hg⟩ := Option.isSome_iff_exists.1 hsome
    exact ⟨_, g, hg, rfl⟩

theorem masks_returns_iff :
    (∃ ms, masks fields = .ok ms) ↔ ∀ f ∈ Field.variants fields, ¬f.EndOverflows := by
  rw [← not_iff_not, ← exists_error_iff, masks_fails_iff]
  simp

end Cleared

section Returned

variable {fields : List Field} {ms : List MaskEntry} (h : masks fields = .ok ms)
include h

/-- The masks of a union are those of its variants, joined, at the bytes in which no variant stores
a number. -/
theorem masks_joined : ∃ entries, Joined entries ms ∧
    ∀ e, e ∈ entries ↔ (¬∃ f ∈ Field.variants fields, f.CoversByte e.position.toNat) ∧
      ∃ f ∈ Field.variants fields, f.MasksByte e := by
  obtain ⟨entries, hdesc, hmem, heq⟩ := masks_eq fields
  rw [heq] at h
  obtain ⟨cleared, hcleared, hms⟩ := bind_eq_ok.1 h
  obtain rfl := Except.ok.inj hms
  refine ⟨_, joinMasks_joined (hdesc.filter _), fun e => ?_⟩
  rw [List.mem_filter, hmem, ← mem_clearedBytes hcleared]
  simp [and_comm]

/-- No two masks are of one byte. -/
theorem masks_descending : ms.Pairwise fun d e => e.position.toNat < d.position.toNat := by
  obtain ⟨entries, hjoined, -⟩ := masks_joined h
  exact hjoined.descending

/-- Where the masks of a union are. -/
theorem masks_position_iff {byte : Nat} : (∃ e ∈ ms, e.position.toNat = byte) ↔
    (¬∃ f ∈ Field.variants fields, f.CoversByte byte) ∧
      ∃ f ∈ Field.variants fields, f.SharesByte byte := by
  obtain ⟨entries, hjoined, hmem⟩ := masks_joined h
  constructor
  · rintro ⟨e, he, rfl⟩
    obtain ⟨d, hd, hp⟩ := (hjoined.position_iff e.position).1 ⟨e, he, rfl⟩
    obtain ⟨hclear, f, hf, hmask⟩ := (hmem d).1 hd
    rw [hp] at hclear
    exact ⟨hclear, f, hf, hp ▸ hmask.1⟩
  · rintro ⟨hclear, f, hf, hshare⟩
    obtain ⟨d, hmask, rfl⟩ := hshare.exists_mask
    have hd := (hmem d).2 ⟨hclear, f, hf, hmask⟩
    obtain ⟨e, he, hp⟩ := (hjoined.position_iff d.position).2 ⟨d, hd, rfl⟩
    exact ⟨e, he, by rw [hp]⟩

/-- What the masks of a union keep. -/
theorem masks_testBit_iff {e : MaskEntry} (he : e ∈ ms) {k : Nat} (hk : k < 8) :
    e.mask.toNat.testBit k = true ↔ ∀ f ∈ Field.variants fields,
      f.SharesByte e.position.toNat → ¬f.ClaimsBit (8 * e.position.toNat + k) := by
  have hclear := ((masks_position_iff h).1 ⟨e, he, rfl⟩).1
  obtain ⟨entries, hjoined, hmem⟩ := masks_joined h
  rw [hjoined.testBit_iff e he k]
  constructor
  · intro hall f hf hshare
    obtain ⟨d, hmask, hp⟩ := hshare.exists_mask
    rw [← hp] at hclear ⊢
    have hd := (hmem d).2 ⟨hclear, f, hf, hmask⟩
    exact (hmask.2 k hk).1 (hall d hd (UInt64.toNat_inj.1 hp))
  · intro hall d hd hp
    obtain ⟨-, f, hf, hmask⟩ := (hmem d).1 hd
    have hnot := hall f hf (hp ▸ hmask.1)
    exact (hmask.2 k hk).2 (hp ▸ hnot)

/-- Where a mask is and what it keeps says which entries are among the masks. -/
theorem mem_masks_iff {e : MaskEntry} : e ∈ ms ↔
    (¬∃ f ∈ Field.variants fields, f.CoversByte e.position.toNat) ∧
      (∃ f ∈ Field.variants fields, f.SharesByte e.position.toNat) ∧
      ∀ k < 8, (e.mask.toNat.testBit k = true ↔ ∀ f ∈ Field.variants fields,
        f.SharesByte e.position.toNat → ¬f.ClaimsBit (8 * e.position.toNat + k)) := by
  constructor
  · intro he
    obtain ⟨hclear, hshare⟩ := (masks_position_iff h).1 ⟨e, he, rfl⟩
    exact ⟨hclear, hshare, fun k hk => masks_testBit_iff h he hk⟩
  · intro ⟨hclear, hshare, hkeeps⟩
    obtain ⟨d, hd, hpos⟩ := (masks_position_iff h).2 ⟨hclear, hshare⟩
    have hmask : d.mask = e.mask := by
      apply byte_ext
      intro k hk
      rw [Bool.eq_iff_iff, masks_testBit_iff h hd hk, hkeeps k hk, hpos]
    have hde : d = e := MaskEntry.ext (UInt64.toNat_inj.1 hpos) hmask
    exact hde ▸ hd

end Returned

/-- The masks of a union, bit by bit: where they are, what they keep, and which of their bytes are
cleared whole all the same because another variant fills them. -/
theorem masks_exact {fields : List Field} {ms : List MaskEntry} (h : masks fields = .ok ms) :
    (ms.Pairwise fun d e => e.position.toNat < d.position.toNat) ∧
    (∀ byte, (∃ e ∈ ms, e.position.toNat = byte) ↔
      (¬∃ f ∈ Field.variants fields, f.CoversByte byte) ∧
        ∃ f ∈ Field.variants fields, f.SharesByte byte) ∧
    (∀ e ∈ ms, ∀ k < 8, e.mask.toNat.testBit k = true ↔ ∀ f ∈ Field.variants fields,
      f.SharesByte e.position.toNat → ¬f.ClaimsBit (8 * e.position.toNat + k)) ∧
    (∀ e ∈ ms, e.mask ≠ 0xff) ∧
    ∃ rs, ranges fields = .ok rs ∧ ∀ e ∈ ms, ∀ f ∈ Field.variants fields,
      f.SharesByte e.position.toNat → ((∃ r ∈ rs, r.covers e.position.toNat = true) ↔
        ∃ g ∈ Field.variants fields, g ≠ f ∧ g.FillsByte e.position.toNat) := by
  obtain ⟨rs, hrs⟩ := ranges_returns (masks_returns_iff.1 ⟨ms, h⟩)
  refine ⟨masks_descending h, fun byte => masks_position_iff h,
    fun e he k hk => masks_testBit_iff h he hk, fun e he hfull => ?_, rs, hrs, ?_⟩
  · obtain ⟨-, f, hf, hshare⟩ := (masks_position_iff h).1 ⟨e, he, rfl⟩
    obtain ⟨k, hk, hbit⟩ := hshare.1
    exact (masks_testBit_iff h he hk).1 (byte_full_iff.1 hfull k hk) f hf hshare hbit
  · intro e he f hf hshare
    have hclear := ((masks_position_iff h).1 ⟨e, he, rfl⟩).1
    rw [(ranges_canonical hrs).2]
    constructor
    · rintro ⟨g, hg, hfills | hcovers⟩
      · refine ⟨g, hg, ?_, hfills⟩
        rintro rfl
        exact hshare.2 hfills
      · exact absurd ⟨g, hg, hcovers⟩ hclear
    · rintro ⟨g, hg, -, hfills⟩
      exact ⟨g, hg, .inl hfills⟩

/-- One variant fills byte 0, of which another claims one bit. In byte 1 a variant stores a number,
and two variants claim bits of byte 2. -/
def sharedFields : List Field :=
  [.wholeByte (some 0) 0, .slot (some 1) ⟨.builtin .bool, 3⟩,
    .slot (some 2) ⟨.builtin .bool, 12⟩, .slot (some 3) ⟨.builtin .uint8, 1⟩,
    .group (some 4) [.slot none ⟨.builtin .bool, 17⟩], .slot (some 5) ⟨.builtin .bool, 18⟩]

/-- The byte that one variant fills has a mask, and it lies in a range too. -/
theorem masks_exact_of_filled_byte :
    masks sharedFields = .ok [⟨2, 0xf9⟩, ⟨0, 0xf7⟩] ∧
    (∀ byte, (∃ e ∈ [(⟨2, 0xf9⟩ : MaskEntry), ⟨0, 0xf7⟩], e.position.toNat = byte) ↔
      (¬∃ f ∈ Field.variants sharedFields, f.CoversByte byte) ∧
        ∃ f ∈ Field.variants sharedFields, f.SharesByte byte) ∧
    ∃ rs, ranges sharedFields = .ok rs ∧ ∃ r ∈ rs, r.covers 0 = true := by
  have h : masks sharedFields = .ok [⟨2, 0xf9⟩, ⟨0, 0xf7⟩] := by cbv
  have hvariants : Field.variants sharedFields = sharedFields := rfl
  have hshare : (Field.slot (some 1) ⟨.builtin .bool, 3⟩).SharesByte 0 := by decide
  have hfills : (Field.wholeByte (some 0) 0).FillsByte 0 := by decide
  obtain ⟨-, hposition, -, -, rs, hrs, hrange⟩ := masks_exact h
  have hbyte := hrange ⟨0, 0xf7⟩ (by simp) (.slot (some 1) ⟨.builtin .bool, 3⟩)
    (by rw [hvariants]; simp [sharedFields]) hshare
  refine ⟨h, hposition, rs, hrs, hbyte.2 ⟨.wholeByte (some 0) 0, ?_, ?_, hfills⟩⟩
  · rw [hvariants]
    simp [sharedFields]
  · simp [Field.wholeByte]

end VariantStorage.Union
