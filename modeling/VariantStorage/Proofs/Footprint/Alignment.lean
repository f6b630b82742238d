import VariantStorage.Proofs.Footprint

/-!
Alignment of what is stored as a number. The range of a number is a block: its length is a power of
two, and its position is a multiple of its length. Of two blocks the shorter one has a length that
divides the other's, so it lies inside the other one or apart from it; in particular a block of at
most eight bytes lies inside one word, and therefore ends where addresses end at the latest.
-/
namespace VariantStorage

/-- Of two blocks whose lengths divide each other, the shorter one lies before the longer one, after
it or inside it. -/
theorem block_nests {l m : Nat} (h : l ∣ m) (i j : Nat) :
    l * (i + 1) ≤ m * j ∨ m * (j + 1) ≤ l * i ∨ (m * j ≤ l * i ∧ l * (i + 1) ≤ m * (j + 1)) := by
  obtain ⟨c, rfl⟩ := h
  rw [Nat.mul_assoc, Nat.mul_assoc]
  by_cases hbefore : i + 1 ≤ c * j
  · exact .inl (Nat.mul_le_mul_left l hbefore)
  · by_cases hafter : c * (j + 1) ≤ i
    · exact .inr (.inl (Nat.mul_le_mul_left l hafter))
    · have hlow : c * j ≤ i := by omega
      have hhigh : i + 1 ≤ c * (j + 1) := by omega
      exact .inr (.inr ⟨Nat.mul_le_mul_left l hlow, Nat.mul_le_mul_left l hhigh⟩)

namespace ByteRange

def Apart (r q : ByteRange) : Prop :=
  ∀ byte, ¬(r.covers byte = true ∧ q.covers byte = true)

def Within (r q : ByteRange) : Prop :=
  ∀ byte, r.covers byte = true → q.covers byte = true

/-- The ranges share a byte, and each has one that the other one lacks. -/
def Straddles (r q : ByteRange) : Prop :=
  (∃ byte, r.covers byte = true ∧ q.covers byte = true) ∧
    ¬r.Within q ∧ ¬q.Within r

/-- The length is a power of two that is at most eight, and it divides the position. -/
structure IsBlock (r : ByteRange) : Prop where
  power : ∃ k ≤ 3, r.length.toNat = 2 ^ k
  dvd : r.length.toNat ∣ r.position.toNat

variable {r q : ByteRange}

theorem Apart.symm (h : r.Apart q) : q.Apart r := by
  intro byte hbyte
  exact h byte ⟨hbyte.2, hbyte.1⟩

/-- A block counted in units of its own length. -/
theorem IsBlock.exists_index (h : r.IsBlock) : ∃ i, r.position.toNat = r.length.toNat * i ∧
    r.limit = r.length.toNat * (i + 1) := by
  obtain ⟨i, hi⟩ := h.dvd
  refine ⟨i, hi, ?_⟩
  rw [limit, hi, Nat.mul_succ]

/-- A block lies inside any longer one or apart from it. -/
theorem IsBlock.nests (hr : r.IsBlock) (hq : q.IsBlock) (h : r.length.toNat ∣ q.length.toNat) :
    r.Apart q ∨ r.Within q := by
  obtain ⟨i, hri, hrl⟩ := hr.exists_index
  obtain ⟨j, hqj, hql⟩ := hq.exists_index
  have hcases := block_nests h i j
  rw [← hri, ← hrl, ← hqj, ← hql] at hcases
  unfold Apart Within
  simp only [covers_iff]
  rcases hcases with hbefore | hafter | hinside
  · left
    intro byte
    omega
  · left
    intro byte
    omega
  · right
    intro byte
    omega

/-- Of two blocks, the longer one holds the other one or has no byte in common with it. -/
theorem IsBlock.apart_or_within (hr : r.IsBlock) (hq : q.IsBlock) :
    r.Apart q ∨ r.Within q ∨ q.Within r := by
  obtain ⟨k, -, hk⟩ := hr.power
  obtain ⟨n, -, hn⟩ := hq.power
  rcases Nat.le_total k n with hkn | hnk
  · have hdvd : r.length.toNat ∣ q.length.toNat := by
      rw [hk, hn]
      exact Nat.pow_dvd_pow 2 hkn
    rcases hr.nests hq hdvd with hapart | hwithin
    · exact .inl hapart
    · exact .inr (.inl hwithin)
  · have hdvd : q.length.toNat ∣ r.length.toNat := by
      rw [hk, hn]
      exact Nat.pow_dvd_pow 2 hnk
    rcases hq.nests hr hdvd with hapart | hwithin
    · exact .inl hapart.symm
    · exact .inr (.inr hwithin)

theorem not_straddles (h : r.Apart q ∨ r.Within q ∨ q.Within r) : ¬r.Straddles q := by
  intro ⟨⟨byte, hbyte⟩, hr, hq⟩
  rcases h with hapart | hrq | hqr
  · exact hapart byte hbyte
  · exact hr hrq
  · exact hq hqr

/-- A block lies inside one word, since its length divides that of a word. -/
theorem IsBlock.exists_word (h : r.IsBlock) :
    ∃ word, 8 * word ≤ r.position.toNat ∧ r.limit ≤ 8 * (word + 1) := by
  obtain ⟨i, hi, hlimit⟩ := h.exists_index
  obtain ⟨k, hk, hlength⟩ := h.power
  have hdvd : r.length.toNat ∣ 8 := by
    rw [hlength]
    exact Nat.pow_dvd_pow 2 hk
  have hpos : 0 < r.length.toNat := by
    rw [hlength]
    exact Nat.two_pow_pos k
  -- the word in which the block begins
  have hcases := block_nests hdvd i (r.position.toNat / 8)
  rw [← hi, ← hlimit] at hcases
  have hle : r.limit = r.position.toNat + r.length.toNat := rfl
  exact ⟨r.position.toNat / 8, by omega, by omega⟩

end ByteRange

/-- What is stored as a number occupies a block. -/
theorem Slot.Stores.isBlock {s : Slot} {r : ByteRange} (h : s.Stores r) : r.IsBlock := by
  obtain ⟨hwidth, hposition⟩ := h
  constructor
  · rcases SlotType.dataWidth_cases hwidth with hw | hw | hw | hw
    · exact ⟨0, by decide, by rw [hw]; rfl⟩
    · exact ⟨1, by decide, by rw [hw]; rfl⟩
    · exact ⟨2, by decide, by rw [hw]; rfl⟩
    · exact ⟨3, by decide, by rw [hw]; rfl⟩
  · exact ⟨s.offset.toNat, hposition⟩

namespace Field

variable {f g : Field} {ranges others : List ByteRange} {r q : ByteRange}

/-- Every range of a field is that of a slot in it. -/
theorem exists_stores_of_mem (h : f.bytes = .ok ranges) (hr : r ∈ ranges) :
    ∃ s : Slot, s.Stores r := by
  obtain ⟨s, -, hs⟩ := (mem_bytes h).1 hr
  exact ⟨s, hs⟩

/-- The ranges of fields are aligned to powers of two up to the length of a word. So each of them
lies inside one word and ends after the last address at the latest, and any two of them are nested
or have no byte in common. -/
theorem ranges_nest_or_apart (hf : f.bytes = .ok ranges) (hg : g.bytes = .ok others)
    (hr : r ∈ ranges) (hq : q ∈ others) :
    ((∃ k ≤ 3, r.length.toNat = 2 ^ k) ∧ r.length.toNat ∣ r.position.toNat) ∧
    (∃ word, 8 * word ≤ r.position.toNat ∧ r.limit ≤ 8 * (word + 1)) ∧ r.limit ≤ 2 ^ 64 ∧
    (r.Apart q ∨ r.Within q ∨ q.Within r) ∧ ¬r.Straddles q := by
  obtain ⟨s, hs⟩ := exists_stores_of_mem hf hr
  obtain ⟨t, ht⟩ := exists_stores_of_mem hg hq
  have hnested := hs.isBlock.apart_or_within ht.isBlock
  exact ⟨⟨hs.isBlock.power, hs.isBlock.dvd⟩, hs.isBlock.exists_word, hs.limit_le, hnested,
    ByteRange.not_straddles hnested⟩

/-- The last word, and the enum in the two last bytes of it. -/
theorem ranges_nest_or_apart_in_last_word :
    let word : ByteRange := ⟨0xfffffffffffffff8, 8⟩
    let ordinal : ByteRange := ⟨0xfffffffffffffffe, 2⟩
    let f : Field := .group none [.slot none ⟨.builtin .uint8, 7⟩,
      .slot (some 1) ⟨.builtin .float64, 0x1fffffffffffffff⟩]
    let g : Field := .slot none ⟨.construct .enum, 0x7fffffffffffffff⟩
    f.bytes = .ok [⟨7, 1⟩, word] ∧ g.bytes = .ok [ordinal] ∧
      (∃ k ≤ 3, word.length.toNat = 2 ^ k) ∧ word.limit ≤ 2 ^ 64 ∧ ¬word.Straddles ordinal := by
  intro word ordinal f g
  have hf : f.bytes = .ok [⟨7, 1⟩, word] := by decide
  have hg : g.bytes = .ok [ordinal] := by decide
  obtain ⟨⟨hpower, -⟩, -, hlimit, -, hnested⟩ :=
    ranges_nest_or_apart (r := word) (q := ordinal) hf hg (by simp) (by simp)
  exact ⟨hf, hg, hpower, hlimit, hnested⟩

end Field

end VariantStorage
