import VariantStorage.Proofs.Footprint
import VariantStorage.Storage

/-!
Splitting a list of bits returns for every list, and what it returns is determined by which bits are
listed. The claims of the touched bytes are built one listed bit at a time; `Tallies` is what every
prefix of the list keeps true of them.
-/
namespace VariantStorage

theorem byte_ext {a b : UInt8} (h : ∀ k < 8, a.toNat.testBit k = b.toNat.testBit k) : a = b := by
  rw [← UInt8.toNat_inj]
  apply Nat.eq_of_testBit_eq
  intro k
  by_cases hk : k < 8
  · exact h k hk
  · have hpow : 2 ^ 8 ≤ 2 ^ k := Nat.pow_le_pow_right (by decide) (by omega)
    rw [Nat.testBit_lt_two_pow (Nat.lt_of_lt_of_le a.toNat_lt hpow),
      Nat.testBit_lt_two_pow (Nat.lt_of_lt_of_le b.toNat_lt hpow)]

theorem testBit_full {k : Nat} (hk : k < 8) : (0xff : UInt8).toNat.testBit k = true := by
  have h : (0xff : UInt8).toNat = 2 ^ 8 - 1 := rfl
  rw [h, Nat.testBit_two_pow_sub_one, decide_eq_true hk]

theorem byte_full_iff {m : UInt8} : m = 0xff ↔ ∀ k < 8, m.toNat.testBit k = true := by
  constructor
  · rintro rfl k hk
    exact testBit_full hk
  · intro h
    exact byte_ext fun k hk => by rw [h k hk, testBit_full hk]

theorem byte_zero_iff {m : UInt8} : m = 0 ↔ ∀ k < 8, ¬m.toNat.testBit k = true := by
  have hzero : ∀ k, ¬(0 : UInt8).toNat.testBit k = true := by simp
  constructor
  · intro h k _
    exact h ▸ hzero k
  · intro h
    exact byte_ext fun k hk => by rw [Bool.eq_false_iff.2 (h k hk), Bool.eq_false_iff.2 (hzero k)]

theorem exists_testBit {m : UInt8} (h : m ≠ 0) : ∃ k < 8, m.toNat.testBit k = true := by
  by_contra hn
  exact h (byte_zero_iff.2 fun k hk ht => hn ⟨k, hk, ht⟩)

theorem testBit_complement {m : UInt8} {k : Nat} (hk : k < 8) :
    (~~~m).toNat.testBit k = !m.toNat.testBit k := by
  have h : (~~~m).toNat = 2 ^ 8 - (m.toNat + 1) := by
    rw [UInt8.toNat_not]
    have := m.toNat_lt
    simp only [UInt8.size]
    omega
  rw [h, Nat.testBit_two_pow_sub_succ m.toNat_lt, decide_eq_true hk, Bool.true_and]

/-- Where all keys differ, the key determines the element. -/
theorem eq_of_key {α β : Type} {key : α → β} {l : List α} (h : l.Pairwise fun a b => key a ≠ key b)
    {a b : α} (ha : a ∈ l) (hb : b ∈ l) (hk : key a = key b) : a = b := by
  have : Std.Symm fun a b => key a ≠ key b := ⟨fun _ _ => Ne.symm⟩
  exact Classical.byContradiction fun hne => h.forall ha hb hne hk

/-- A list sorted without ties is determined by its elements. -/
theorem eq_of_mem_iff_of_asymm {α : Type} {r : α → α → Prop} (hr : ∀ a b, r a b → ¬r b a)
    {l l' : List α} (h : l.Pairwise r) (h' : l'.Pairwise r) (hmem : ∀ a, a ∈ l ↔ a ∈ l') :
    l = l' := by
  have : Std.Irrefl r := ⟨fun a ha => hr a a ha ha⟩
  have : Std.Antisymm r := ⟨fun a b hab hba => absurd hba (hr a b hab)⟩
  exact List.Pairwise.eq_of_mem_iff h h' hmem

def Listed (bits : List UInt64) (bit : Nat) : Prop :=
  ∃ b ∈ bits, b.toNat = bit

namespace ByteClaim

def Marks (claims : List ByteClaim) (bit : Nat) : Prop :=
  ∃ c ∈ claims, c.position.toNat = bit / 8 ∧ c.claimed.toNat.testBit (bit % 8) = true

/-- The claims are in ascending order of position, with one claim for each. -/
def Ascending (claims : List ByteClaim) : Prop :=
  claims.Pairwise fun c d => c.position.toNat < d.position.toNat

theorem marks_cons {c : ByteClaim} {cs : List ByteClaim} {bit : Nat} :
    Marks (c :: cs) bit ↔
      c.position.toNat = bit / 8 ∧ c.claimed.toNat.testBit (bit % 8) = true ∨ Marks cs bit := by
  simp only [Marks, List.mem_cons, exists_eq_or_imp]

/-- An insertion marks the bits that are inserted, and leaves the marked ones. -/
theorem marks_insert {p : UInt64} {m : UInt8} {cs : List ByteClaim} {bit : Nat} :
    Marks (insert p m cs) bit ↔
      Marks cs bit ∨ p.toNat = bit / 8 ∧ m.toNat.testBit (bit % 8) = true := by
  induction cs with
  | nil => simp [insert, Marks]
  | cons c cs ih =>
    unfold insert
    split
    · rw [marks_cons, or_comm]
    · split
      next heq =>
        subst heq
        simp only [marks_cons, UInt8.toNat_or, Nat.testBit_or, Bool.or_eq_true]
        grind
      next => rw [marks_cons, ih, marks_cons, or_assoc]

theorem position_of_mem_insert {p : UInt64} {m : UInt8} {cs : List ByteClaim} {c : ByteClaim}
    (h : c ∈ insert p m cs) : c.position = p ∨ ∃ d ∈ cs, d.position = c.position := by
  induction cs with
  | nil => simp_all [insert]
  | cons d cs ih =>
    unfold insert at h
    split at h
    · rcases List.mem_cons.1 h with rfl | h
      · exact .inl rfl
      · exact .inr ⟨c, h, rfl⟩
    · split at h
      · rcases List.mem_cons.1 h with rfl | h
        · exact .inl rfl
        · exact .inr ⟨c, List.mem_cons_of_mem d h, rfl⟩
      · rcases List.mem_cons.1 h with rfl | h
        · exact .inr ⟨c, List.mem_cons_self, rfl⟩
        · rcases ih h with hp | ⟨e, he, hp⟩
          · exact .inl hp
          · exact .inr ⟨e, List.mem_cons_of_mem d he, hp⟩

theorem ascending_insert {p : UInt64} {m : UInt8} {cs : List ByteClaim} (h : Ascending cs) :
    Ascending (insert p m cs) := by
  induction cs with
  | nil => simp [insert, Ascending]
  | cons d cs ih =>
    obtain ⟨hd, hcs⟩ := List.pairwise_cons.1 h
    unfold insert
    split
    next hlt =>
      rw [UInt64.lt_iff_toNat_lt] at hlt
      refine List.pairwise_cons.2 ⟨fun c hc => ?_, h⟩
      rcases List.mem_cons.1 hc with rfl | hc
      · exact hlt
      · exact Nat.lt_trans hlt (hd c hc)
    next hge =>
      split
      next heq => exact List.pairwise_cons.2 ⟨fun c hc => heq ▸ hd c hc, hcs⟩
      next hne =>
        rw [UInt64.lt_iff_toNat_lt] at hge
        rw [← UInt64.toNat_inj] at hne
        refine List.pairwise_cons.2 ⟨fun c hc => ?_, ih hcs⟩
        rcases position_of_mem_insert hc with hp | ⟨e, he, hp⟩
        · rw [hp]
          omega
        · rw [← hp]
          exact hd e he

theorem eq_of_position {cs : List ByteClaim} (h : Ascending cs) {c d : ByteClaim} (hc : c ∈ cs)
    (hd : d ∈ cs) (hp : c.position.toNat = d.position.toNat) : c = d := by
  exact eq_of_key (h.imp Nat.ne_of_lt) hc hd hp

theorem nonzero_insert {p : UInt64} {m : UInt8} {cs : List ByteClaim} (hm : m ≠ 0)
    (h : ∀ c ∈ cs, c.claimed ≠ 0) : ∀ c ∈ insert p m cs, c.claimed ≠ 0 := by
  induction cs with
  | nil => simpa [insert] using hm
  | cons d cs ih =>
    obtain ⟨hd, hcs⟩ := List.forall_mem_cons.1 h
    unfold insert
    split
    · exact List.forall_mem_cons.2 ⟨hm, h⟩
    · split
      · refine List.forall_mem_cons.2 ⟨?_, hcs⟩
        intro hz
        exact hd (UInt8.or_eq_zero_iff.1 hz).1
      · exact List.forall_mem_cons.2 ⟨hd, ih hcs⟩

/-- The claims of a list of bits: each listed bit is marked, no other is, and no claim is empty. -/
structure Tallies (bits : List UInt64) (claims : List ByteClaim) : Prop where
  ascending : Ascending claims
  marks_iff : ∀ bit, Marks claims bit ↔ Listed bits bit
  nonzero : ∀ c ∈ claims, c.claimed ≠ 0

theorem Tallies.nil : Tallies [] [] where
  ascending := List.Pairwise.nil
  marks_iff bit := by simp [Marks, Listed]
  nonzero := by simp

/-- Adding the next bit: the byte that holds it gets one more claimed bit. -/
theorem Tallies.insert {bits : List UInt64} {claims : List ByteClaim} (h : Tallies bits claims)
    (bit : UInt64) {m : UInt8} (hm : ∀ k, m.toNat.testBit k = decide (bit.toNat % 8 = k)) :
    Tallies (bits ++ [bit]) (insert (Storage.byteOf bit) m claims) where
  ascending := ascending_insert h.ascending
  marks_iff n := by
    have hbit : bit.toNat / 8 = n / 8 ∧ bit.toNat % 8 = n % 8 ↔ bit.toNat = n := by omega
    rw [marks_insert, h.marks_iff, Storage.toNat_byteOf, hm, decide_eq_true_iff, hbit]
    simp only [Listed, List.mem_append, List.mem_singleton, or_and_right, exists_or,
      exists_eq_left]
  nonzero := by
    apply nonzero_insert ?_ h.nonzero
    rintro rfl
    simpa using hm (bit.toNat % 8)

theorem bitAt_shiftOf (bit : UInt64) : ∃ m, Storage.bitAt (Storage.shiftOf bit) = .ok m ∧
    ∀ k, m.toNat.testBit k = decide (bit.toNat % 8 = k) := by
  have hlt : (Storage.shiftOf bit).toNat < 8 := by
    rw [Storage.toNat_shiftOf]
    exact Nat.mod_lt _ (by decide)
  rw [← Storage.toNat_shiftOf]
  exact Storage.bitAt_of_lt hlt

/-- The claims are built for every list: the shift of a bit within its byte never overflows. -/
theorem ofBits_tallies (bits : List UInt64) : ∃ claims, ofBits bits = .ok claims ∧
    Tallies bits claims := by
  -- over the bits still to come, for the claims of those already added
  suffices h : ∀ (rest done : List UInt64) (claims : List ByteClaim), Tallies done claims →
      ∃ out, rest.foldlM (fun claims bit => do
        return insert (Storage.byteOf bit) (← Storage.bitAt (Storage.shiftOf bit)) claims)
          claims = Except.ok (ε := Overflow) out ∧ Tallies (done ++ rest) out from
    h bits [] [] .nil
  intro rest
  induction rest with
  | nil =>
    intro done claims h
    exact ⟨claims, rfl, by rwa [List.append_nil]⟩
  | cons bit rest ih =>
    intro done claims h
    obtain ⟨m, hm, hbit⟩ := bitAt_shiftOf bit
    obtain ⟨out, hout, ht⟩ := ih (done ++ [bit]) _ (h.insert bit hbit)
    refine ⟨out, ?_, by simpa using ht⟩
    rw [List.foldlM_cons, hm]
    exact hout

/-- The claims of a list of bits show, bit by bit, what is listed. -/
theorem Tallies.testBit_iff {bits : List UInt64} {claims : List ByteClaim} (h : Tallies bits claims)
    {c : ByteClaim} (hc : c ∈ claims) {k : Nat} (hk : k < 8) :
    c.claimed.toNat.testBit k = true ↔ Listed bits (8 * c.position.toNat + k) := by
  have hdiv : (8 * c.position.toNat + k) / 8 = c.position.toNat := by omega
  have hmod : (8 * c.position.toNat + k) % 8 = k := by omega
  rw [← h.marks_iff, Marks, hdiv, hmod]
  constructor
  · intro ht
    exact ⟨c, hc, rfl, ht⟩
  · rintro ⟨d, hd, hp, ht⟩
    obtain rfl := eq_of_position h.ascending hd hc hp
    exact ht

/-- A claim is full if all eight bits of its byte are listed. -/
theorem Tallies.isFull_iff {bits : List UInt64} {claims : List ByteClaim} (h : Tallies bits claims)
    {c : ByteClaim} (hc : c ∈ claims) :
    c.isFull = true ↔ ∀ k < 8, Listed bits (8 * c.position.toNat + k) := by
  rw [isFull, beq_iff_eq, byte_full_iff]
  exact forall₂_congr fun k hk => h.testBit_iff hc hk

/-- A byte is touched when one of its bits is listed. -/
theorem Tallies.exists_claim {bits : List UInt64} {claims : List ByteClaim}
    (h : Tallies bits claims) {byte : Nat} {k : Nat} (hk : k < 8)
    (hl : Listed bits (8 * byte + k)) : ∃ c ∈ claims, c.position.toNat = byte := by
  obtain ⟨c, hc, hp, -⟩ := (h.marks_iff _).2 hl
  exact ⟨c, hc, by omega⟩

theorem Tallies.exists_listed {bits : List UInt64} {claims : List ByteClaim}
    (h : Tallies bits claims) {c : ByteClaim} (hc : c ∈ claims) :
    ∃ k < 8, Listed bits (8 * c.position.toNat + k) := by
  obtain ⟨k, hk, ht⟩ := exists_testBit (h.nonzero c hc)
  exact ⟨k, hk, (h.testBit_iff hc hk).1 ht⟩

theorem Tallies.complement_iff {bits : List UInt64} {claims : List ByteClaim}
    (h : Tallies bits claims) {c : ByteClaim} (hc : c ∈ claims) {k : Nat} (hk : k < 8) :
    (~~~c.claimed).toNat.testBit k = true ↔ ¬Listed bits (8 * c.position.toNat + k) := by
  rw [testBit_complement hk, ← h.testBit_iff hc hk]
  simp

end ByteClaim

namespace BitPartition

/-- A byte is a range when all its bits are listed, and it has a mask, of the bits that are not
listed, when some of its bits are listed but not all. -/
structure Splits (p : BitPartition) (bits : List UInt64) : Prop where
  mem_ranges : ∀ r, r ∈ p.ranges ↔
    r.length = 1 ∧ ∀ k < 8, Listed bits (8 * r.position.toNat + k)
  mem_masks : ∀ e, e ∈ p.masks ↔
    ((∃ k < 8, Listed bits (8 * e.position.toNat + k)) ∧
      ¬∀ k < 8, Listed bits (8 * e.position.toNat + k)) ∧
    ∀ k < 8, (e.mask.toNat.testBit k = true ↔ ¬Listed bits (8 * e.position.toNat + k))
  exists_mask : ∀ byte, (∃ k < 8, Listed bits (8 * byte + k)) →
    (¬∀ k < 8, Listed bits (8 * byte + k)) → ∃ e ∈ p.masks, e.position.toNat = byte

/-- Full claims become ranges, and all others become masks. -/
theorem splits_of_tallies {bits : List UInt64} {claims : List ByteClaim}
    (h : ByteClaim.Tallies bits claims) :
    Splits
      { ranges := (claims.filter ByteClaim.isFull).map ByteClaim.toRange
        masks := (claims.filter fun c => !c.isFull).map ByteClaim.toMask } bits where
  mem_ranges r := by
    simp only [List.mem_map, List.mem_filter]
    constructor
    · rintro ⟨c, ⟨hc, hfull⟩, rfl⟩
      exact ⟨rfl, (h.isFull_iff hc).1 hfull⟩
    · rintro ⟨hlen, hall⟩
      -- bit 0 leads to the claim of the byte
      obtain ⟨c, hc, hp⟩ := h.exists_claim (by decide) (hall 0 (by decide))
      refine ⟨c, ⟨hc, (h.isFull_iff hc).2 (by rwa [hp])⟩, ?_⟩
      rw [UInt64.toNat_inj] at hp
      rw [ByteClaim.toRange, hp, ← hlen]
  mem_masks e := by
    simp only [List.mem_map, List.mem_filter, Bool.not_eq_true', Bool.eq_false_iff]
    constructor
    · rintro ⟨c, ⟨hc, hpart⟩, rfl⟩
      exact ⟨⟨h.exists_listed hc, fun hall => hpart ((h.isFull_iff hc).2 hall)⟩,
        fun k => h.complement_iff hc⟩
    · rintro ⟨⟨⟨k, hk, hl⟩, hpart⟩, hmask⟩
      obtain ⟨c, hc, hp⟩ := h.exists_claim hk hl
      refine ⟨c, ⟨hc, fun hfull => hpart (hp ▸ (h.isFull_iff hc).1 hfull)⟩, ?_⟩
      have hm : ~~~c.claimed = e.mask := by
        apply byte_ext
        intro k hk
        rw [Bool.eq_iff_iff, h.complement_iff hc hk, hp, hmask k hk]
      rw [UInt64.toNat_inj] at hp
      rw [ByteClaim.toMask, hp, hm]
  exists_mask byte := by
    rintro ⟨k, hk, hl⟩ hpart
    obtain ⟨c, hc, rfl⟩ := h.exists_claim hk hl
    have hfull : (!c.isFull) = true := by
      rw [Bool.not_eq_true', Bool.eq_false_iff]
      exact fun hfull => hpart ((h.isFull_iff hc).1 hfull)
    exact ⟨c.toMask, List.mem_map_of_mem (List.mem_filter.2 ⟨hc, hfull⟩), rfl⟩

/-- Every list of bits is split. -/
theorem ofBits_splits (bits : List UInt64) : ∃ p, ofBits bits = .ok p ∧ p.Splits bits := by
  obtain ⟨claims, hok, h⟩ := ByteClaim.ofBits_tallies bits
  exact ⟨_, by rw [ofBits, hok]; rfl, splits_of_tallies h⟩

end BitPartition

namespace Field

/-- A field lists the bits that its booleans claim. -/
theorem listed_bits (f : Field) : Listed f.bits = f.ClaimsBit := by
  funext bit
  simp only [Listed, mem_bits, eq_iff_iff]
  constructor
  · rintro ⟨b, hb, rfl⟩
    exact hb
  · rintro ⟨s, hs, htype, rfl⟩
    exact ⟨s.offset, ⟨s, hs, htype, rfl⟩, rfl⟩

/-- A field fills only bytes whose bits have 64-bit offsets. -/
theorem FillsByte.lt {f : Field} {byte : Nat} (h : f.FillsByte byte) : byte < 2 ^ 61 := by
  obtain ⟨s, -, -, hoffset⟩ := h 0 (by decide)
  have hword := s.offset.toNat_lt
  omega

/-- The entry is at a byte that the field claims in part, and keeps the bits that are not claimed.
-/
def MasksByte (f : Field) (e : MaskEntry) : Prop :=
  f.SharesByte e.position.toNat ∧
    ∀ k < 8, (e.mask.toNat.testBit k = true ↔ ¬f.ClaimsBit (8 * e.position.toNat + k))

/-- The masks of the bits of a field are those of the bytes that it claims in part. -/
theorem mem_masks {f : Field} {p : BitPartition} (h : p.Splits f.bits) {e : MaskEntry} :
    e ∈ p.masks ↔ f.MasksByte e := by
  rw [h.mem_masks, f.listed_bits]
  rfl

theorem SharesByte.exists_mask {f : Field} {byte : Nat} (h : f.SharesByte byte) :
    ∃ e, f.MasksByte e ∧ e.position.toNat = byte := by
  obtain ⟨p, -, hsplit⟩ := BitPartition.ofBits_splits f.bits
  obtain ⟨hsome, hpart⟩ := h
  have hexists := hsplit.exists_mask byte
  rw [f.listed_bits] at hexists
  obtain ⟨e, he, hp⟩ := hexists hsome hpart
  exact ⟨e, (mem_masks hsplit).1 he, hp⟩

end Field

end VariantStorage
