import VariantStorage.Proofs.BitPartition

/-!
A partition as two sorted lists. Both ascend strictly and no byte is in both, so a listed bit is
claimed by one range or one mask and by no other, and a bit that is not listed by none. Sorted
without ties, the lists are determined by what they hold, and so the partition by the set of bits.
-/
namespace VariantStorage.BitPartition

structure Ordered (p : BitPartition) : Prop where
  ranges : p.ranges.Pairwise fun r q => r.position.toNat < q.position.toNat
  masks : p.masks.Pairwise fun d e => d.position.toNat < e.position.toNat

/-- How many ranges and masks of the partition claim the bit. -/
def claimants (p : BitPartition) (n : Nat) : Nat :=
  p.ranges.countP (fun r => r.covers (n / 8)) +
    p.masks.countP fun e => e.position.toNat = n / 8 && !e.mask.toNat.testBit (n % 8)

theorem ofBits_ordered {bits : List UInt64} {p : BitPartition} (h : ofBits bits = .ok p) :
    p.Ordered := by
  obtain ⟨claims, hclaims, htally⟩ := ByteClaim.ofBits_tallies bits
  have hascending : claims.Pairwise fun c d => c.position.toNat < d.position.toNat :=
    htally.ascending
  rw [ofBits, hclaims] at h
  obtain rfl := Except.ok.inj h
  constructor
  · exact List.pairwise_map.2 (hascending.filter _)
  · exact List.pairwise_map.2 (hascending.filter _)

section Splits

variable {p q : BitPartition} {bits others : List UInt64}

theorem Splits.covers_iff (h : p.Splits bits) {r : ByteRange} (hr : r ∈ p.ranges) {byte : Nat} :
    r.covers byte = true ↔ r.position.toNat = byte := by
  have hone : r.length.toNat = 1 := by rw [((h.mem_ranges r).1 hr).1]; rfl
  rw [ByteRange.covers_iff, ByteRange.limit]
  omega

/-- Where the ranges of a partition are. -/
theorem Splits.range_iff (h : p.Splits bits) {byte : Nat} :
    (∃ r ∈ p.ranges, r.position.toNat = byte) ↔ ∀ k < 8, Listed bits (8 * byte + k) := by
  constructor
  · intro ⟨r, hr, hp⟩
    exact hp ▸ ((h.mem_ranges r).1 hr).2
  · intro hall
    obtain ⟨b, hb, hbyte⟩ := hall 0 (by decide)
    have hto : (Storage.byteOf b).toNat = byte := by
      rw [Storage.toNat_byteOf]
      omega
    exact ⟨⟨Storage.byteOf b, 1⟩, (h.mem_ranges _).2 ⟨rfl, by rwa [hto]⟩, hto⟩

/-- Where the masks of a partition are. -/
theorem Splits.mask_iff (h : p.Splits bits) {byte : Nat} :
    (∃ e ∈ p.masks, e.position.toNat = byte) ↔
      (∃ k < 8, Listed bits (8 * byte + k)) ∧ ¬∀ k < 8, Listed bits (8 * byte + k) := by
  constructor
  · intro ⟨e, he, hp⟩
    exact hp ▸ ((h.mem_masks e).1 he).1
  · intro ⟨hsome, hpart⟩
    exact h.exists_mask byte hsome hpart

theorem Splits.mask_ne_zero (h : p.Splits bits) {e : MaskEntry} (he : e ∈ p.masks) :
    e.mask ≠ 0 := by
  obtain ⟨⟨-, hpart⟩, hmask⟩ := (h.mem_masks e).1 he
  intro hz
  apply hpart
  intro k hk
  by_contra hn
  exact byte_zero_iff.1 hz k hk ((hmask k hk).2 hn)

theorem Splits.mask_ne_full (h : p.Splits bits) {e : MaskEntry} (he : e ∈ p.masks) :
    e.mask ≠ 0xff := by
  obtain ⟨⟨⟨k, hk, hl⟩, -⟩, hmask⟩ := (h.mem_masks e).1 he
  intro hfull
  exact (hmask k hk).1 (byte_full_iff.1 hfull k hk) hl

/-- The set of listed bits determines a partition. -/
theorem Splits.eq_of_listed (hp : p.Splits bits) (hpo : p.Ordered) (hq : q.Splits others)
    (hqo : q.Ordered) (hsame : Listed bits = Listed others) : p = q := by
  have hranges : p.ranges = q.ranges :=
    eq_of_mem_iff_of_asymm (fun _ _ => Nat.lt_asymm) hpo.ranges hqo.ranges fun r => by
      rw [hp.mem_ranges, hq.mem_ranges, hsame]
  have hmasks : p.masks = q.masks :=
    eq_of_mem_iff_of_asymm (fun _ _ => Nat.lt_asymm) hpo.masks hqo.masks fun e => by
      rw [hp.mem_masks, hq.mem_masks, hsame]
  cases p
  cases q
  simp only [mk.injEq]
  exact ⟨hranges, hmasks⟩

end Splits

/-- Order and repetition of the listed bits play no part. -/
theorem ofBits_congr {bits others : List UInt64} (h : ∀ b, b ∈ bits ↔ b ∈ others) :
    ofBits bits = ofBits others := by
  obtain ⟨p, hp, hsplit⟩ := ofBits_splits bits
  obtain ⟨q, hq, hsplit'⟩ := ofBits_splits others
  have hsame : Listed bits = Listed others := by
    funext n
    simp only [Listed, h]
  rw [hp, hq, hsplit.eq_of_listed (ofBits_ordered hp) hsplit' (ofBits_ordered hq) hsame]

/-- Where one element satisfies a condition and no two do, one is counted. -/
theorem countP_eq_one {α : Type} {c : α → Bool} {l : List α}
    (h : l.Pairwise fun a b => ¬(c a = true ∧ c b = true)) (hex : ∃ a ∈ l, c a = true) :
    l.countP c = 1 := by
  induction l with
  | nil => simp at hex
  | cons a l ih =>
    obtain ⟨ha, hl⟩ := List.pairwise_cons.1 h
    by_cases hc : c a = true
    · have hrest : l.countP c = 0 := List.countP_eq_zero.2 fun b hb hcb => ha b hb ⟨hc, hcb⟩
      rw [List.countP_cons_of_pos hc, hrest]
    · have hex' : ∃ b ∈ l, c b = true := by
        obtain ⟨b, hb, hcb⟩ := hex
        rcases List.mem_cons.1 hb with heq | hb
        · exact absurd (heq ▸ hcb) hc
        · exact ⟨b, hb, hcb⟩
      rw [List.countP_cons_of_neg hc]
      exact ih hl hex'

section Claimants

variable {p : BitPartition} {bits : List UInt64} (h : p.Splits bits) (ho : p.Ordered) {n : Nat}
include h

/-- A range claims the bit if all bits of its byte are listed. -/
theorem Splits.range_claims_iff : (∃ r ∈ p.ranges, r.covers (n / 8) = true) ↔
    ∀ k < 8, Listed bits (8 * (n / 8) + k) := by
  rw [← h.range_iff]
  apply exists_congr
  intro r
  apply and_congr_right
  intro hr
  exact h.covers_iff hr

/-- A mask claims the bit if it is listed, but not all bits of its byte are. -/
theorem Splits.mask_claims_iff :
    (∃ e ∈ p.masks, (e.position.toNat = n / 8 && !e.mask.toNat.testBit (n % 8)) = true) ↔
      Listed bits n ∧ ¬∀ k < 8, Listed bits (8 * (n / 8) + k) := by
  have hk : n % 8 < 8 := Nat.mod_lt _ (by decide)
  simp only [Bool.and_eq_true, decide_eq_true_eq, Bool.not_eq_true', Bool.eq_false_iff]
  constructor
  · intro ⟨e, he, hp, hoff⟩
    obtain ⟨⟨-, hpart⟩, hmask⟩ := (h.mem_masks e).1 he
    rw [ne_eq, hmask _ hk, hp, Nat.div_add_mod, not_not] at hoff
    exact ⟨hoff, hp ▸ hpart⟩
  · intro ⟨hl, hpart⟩
    rw [← Nat.div_add_mod n 8] at hl
    obtain ⟨e, he, hp⟩ := h.mask_iff.2 ⟨⟨n % 8, hk, hl⟩, hpart⟩
    refine ⟨e, he, hp, ?_⟩
    rw [ne_eq, ((h.mem_masks e).1 he).2 _ hk, hp, not_not]
    exact hl

include ho

/-- A listed bit is claimed once: by a range where its byte is full, and else by a mask. -/
theorem Splits.claimants_of_listed (hl : Listed bits n) : p.claimants n = 1 := by
  have hranges : p.ranges.Pairwise fun r q =>
      ¬(r.covers (n / 8) = true ∧ q.covers (n / 8) = true) := by
    apply ho.ranges.imp_of_mem
    intro r q hr hq hlt
    rw [h.covers_iff hr, h.covers_iff hq]
    omega
  have hmasks : p.masks.Pairwise fun d e =>
      ¬((d.position.toNat = n / 8 && !d.mask.toNat.testBit (n % 8)) = true ∧
        (e.position.toNat = n / 8 && !e.mask.toNat.testBit (n % 8)) = true) := by
    apply ho.masks.imp
    intro d e hlt
    simp only [Bool.and_eq_true, decide_eq_true_eq]
    omega
  unfold claimants
  by_cases hfull : ∀ k < 8, Listed bits (8 * (n / 8) + k)
  · have hnone := mt h.mask_claims_iff.1 fun hpart => hpart.2 hfull
    rw [countP_eq_one hranges (h.range_claims_iff.2 hfull), List.countP_eq_zero.2]
    exact fun e he hclaim => hnone ⟨e, he, hclaim⟩
  · have hnone := mt h.range_claims_iff.1 hfull
    rw [countP_eq_one hmasks (h.mask_claims_iff.2 ⟨hl, hfull⟩), List.countP_eq_zero.2]
    exact fun r hr hclaim => hnone ⟨r, hr, hclaim⟩

omit ho

theorem Splits.claimants_of_not_listed (hl : ¬Listed bits n) : p.claimants n = 0 := by
  have hk : n % 8 < 8 := Nat.mod_lt _ (by decide)
  unfold claimants
  rw [List.countP_eq_zero.2, List.countP_eq_zero.2]
  · intro e he hclaim
    exact hl (h.mask_claims_iff.1 ⟨e, he, hclaim⟩).1
  · intro r hr hclaim
    have hfull := h.range_claims_iff.1 ⟨r, hr, hclaim⟩ (n % 8) hk
    rw [Nat.div_add_mod] at hfull
    exact hl hfull

end Claimants

/-- Every list of bits is split exactly: a byte is a range where all its bits are listed, and has a
mask of the bits that are not listed where only some are. Each listed bit is claimed once and no
other is, and the split depends on nothing but the set of listed bits. -/
theorem splits_exactly (bits : List UInt64) : ∃ p, ofBits bits = .ok p ∧
    (∀ r ∈ p.ranges, r.length = 1) ∧
    (p.ranges.Pairwise fun r q => r.position.toNat < q.position.toNat) ∧
    (p.masks.Pairwise fun d e => d.position.toNat < e.position.toNat) ∧
    (∀ r ∈ p.ranges, ∀ e ∈ p.masks, r.position ≠ e.position) ∧
    (∀ byte, (∃ r ∈ p.ranges, r.position.toNat = byte) ↔ ∀ k < 8, Listed bits (8 * byte + k)) ∧
    (∀ byte, (∃ e ∈ p.masks, e.position.toNat = byte) ↔
      (∃ k < 8, Listed bits (8 * byte + k)) ∧ ¬∀ k < 8, Listed bits (8 * byte + k)) ∧
    (∀ e ∈ p.masks, ∀ k < 8,
      (e.mask.toNat.testBit k = true ↔ ¬Listed bits (8 * e.position.toNat + k))) ∧
    (∀ e ∈ p.masks, e.mask ≠ 0 ∧ e.mask ≠ 0xff) ∧
    (∀ n, (Listed bits n → p.claimants n = 1) ∧ (¬Listed bits n → p.claimants n = 0)) ∧
    ∀ others, (∀ b, b ∈ others ↔ b ∈ bits) → ofBits others = .ok p := by
  obtain ⟨p, hp, h⟩ := ofBits_splits bits
  have ho := ofBits_ordered hp
  refine ⟨p, hp, fun r hr => ((h.mem_ranges r).1 hr).1, ho.ranges, ho.masks, ?_,
    fun byte => h.range_iff, fun byte => h.mask_iff, fun e he => ((h.mem_masks e).1 he).2,
    fun e he => ⟨h.mask_ne_zero he, h.mask_ne_full he⟩,
    fun n => ⟨h.claimants_of_listed ho, h.claimants_of_not_listed⟩, fun others hsame => ?_⟩
  · intro r hr e he heq
    have hfull := ((h.mem_ranges r).1 hr).2
    rw [heq] at hfull
    exact ((h.mem_masks e).1 he).1.2 hfull
  · rw [ofBits_congr hsame, hp]

/-- Byte 1 is full, byte 0 has one bit listed twice, and the last byte its last bit. -/
def scatteredBits : List UInt64 :=
  [0xffffffffffffffff, 3, 15, 8, 14, 9, 13, 10, 12, 11, 3]

theorem splits_exactly_to_last_bit :
    ofBits scatteredBits = .ok ⟨[⟨1, 1⟩], [⟨0, 0xf7⟩, ⟨0x1fffffffffffffff, 0x7f⟩]⟩ ∧
    (∀ b, b ∈ scatteredBits.reverse ↔ b ∈ scatteredBits) ∧
    ofBits scatteredBits.reverse =
      .ok ⟨[⟨1, 1⟩], [⟨0, 0xf7⟩, ⟨0x1fffffffffffffff, 0x7f⟩]⟩ := by
  have h : ofBits scatteredBits = .ok ⟨[⟨1, 1⟩], [⟨0, 0xf7⟩, ⟨0x1fffffffffffffff, 0x7f⟩]⟩ := by
    decide +kernel
  have hsame : ∀ b, b ∈ scatteredBits.reverse ↔ b ∈ scatteredBits := fun b => List.mem_reverse
  obtain ⟨p, hp, -, -, -, -, -, -, -, -, -, hset⟩ := splits_exactly scatteredBits
  obtain rfl := Except.ok.inj (hp.symm.trans h)
  exact ⟨h, hsame, hset _ hsame⟩

end VariantStorage.BitPartition
