import VariantStorage.Proofs.Footprint

/-!
Lists of ranges as covers of a set of bytes. In a canonical list no range is empty and there is a
gap after each range. A range of any other cover of the same bytes cannot reach over a gap, so it
holds the start of at most one range of the canonical list: no cover is shorter, and one of the same
length consists of the same ranges.
-/
namespace VariantStorage

/-- No range is empty, and a gap separates each range from all later ones. -/
structure Canonical (ranges : List ByteRange) : Prop where
  nonempty : ∀ r ∈ ranges, 0 < r.length.toNat
  apart : ranges.Pairwise fun r q => r.limit < q.position.toNat

def SameBytes (ranges others : List ByteRange) : Prop :=
  ∀ byte, (∃ r ∈ ranges, r.covers byte = true) ↔ ∃ q ∈ others, q.covers byte = true

namespace Canonical

variable {ranges others : List ByteRange} (h : Canonical ranges)
include h

theorem covers_position {r : ByteRange} (hr : r ∈ ranges) : r.covers r.position.toNat = true := by
  have hlen := h.nonempty r hr
  rw [ByteRange.covers_iff, ByteRange.limit]
  omega

/-- A gap lies between two ranges, whichever comes first. -/
theorem gap {r q : ByteRange} (hr : r ∈ ranges) (hq : q ∈ ranges) (hne : r ≠ q) :
    r.limit < q.position.toNat ∨ q.limit < r.position.toNat := by
  have hsymm : Std.Symm fun r q : ByteRange =>
      r.limit < q.position.toNat ∨ q.limit < r.position.toNat := ⟨fun _ _ => Or.symm⟩
  have hor : ranges.Pairwise fun r q =>
      r.limit < q.position.toNat ∨ q.limit < r.position.toNat := h.apart.imp fun hlt => .inl hlt
  exact hor.forall hr hq hne

/-- Canonical ranges share no byte. -/
theorem eq_of_covers {r q : ByteRange} (hr : r ∈ ranges) (hq : q ∈ ranges) {byte : Nat}
    (hrb : r.covers byte = true) (hqb : q.covers byte = true) : r = q := by
  by_contra hne
  rw [ByteRange.covers_iff] at hrb hqb
  rcases h.gap hr hq hne with hgap | hgap <;> omega

theorem nodup : ranges.Nodup := by
  apply h.apart.imp_of_mem
  intro r q _ hq hlt he
  have hlen := h.nonempty q hq
  rw [he, ByteRange.limit] at hlt
  omega

/-- A range of covered bytes that holds the start of one of the ranges lies within that one. -/
theorem within {r q : ByteRange} (hr : r ∈ ranges)
    (hq : ∀ byte, q.covers byte = true → ∃ r ∈ ranges, r.covers byte = true)
    (hstart : q.covers r.position.toNat = true) :
    q.position = r.position ∧ q.limit ≤ r.limit := by
  have hrange := r.position_le_limit
  simp only [ByteRange.covers_iff] at hq hstart
  constructor
  · by_contra hne
    rw [← UInt64.toNat_inj] at hne
    -- the byte before the start would lie in another range, and that one would touch `r`
    obtain ⟨p, hp, hlow, hhigh⟩ := hq (r.position.toNat - 1) (by omega)
    have hpr : p ≠ r := by
      rintro rfl
      omega
    rcases h.gap hp hr hpr with hgap | hgap <;> omega
  · by_contra hlt
    obtain ⟨p, hp, hlow, hhigh⟩ := hq r.limit (by omega)
    have hpr : p ≠ r := by
      rintro rfl
      omega
    rcases h.gap hp hr hpr with hgap | hgap <;> omega

/-- Each range has its own range in every other cover. -/
theorem exists_embedding (hsame : SameBytes ranges others) :
    ∃ g : ByteRange → ByteRange,
      (∀ r ∈ ranges, (g r).position = r.position ∧ (g r).limit ≤ r.limit) ∧
      (ranges.map g).Subperm others := by
  have hstart : ∀ r ∈ ranges, ∃ q ∈ others, q.covers r.position.toNat = true :=
    fun r hr => (hsame _).1 ⟨r, hr, h.covers_position hr⟩
  choose! g hg hcovers using hstart
  have hwithin : ∀ r ∈ ranges, (g r).position = r.position ∧ (g r).limit ≤ r.limit := by
    intro r hr
    exact h.within hr (fun byte hb => (hsame byte).2 ⟨g r, hg r hr, hb⟩) (hcovers r hr)
  -- ranges that go to the same one start at the same byte
  have hnodup : (ranges.map g).Nodup := by
    apply List.Nodup.map_on ?_ h.nodup
    intro r hr q hq he
    have hpos : r.position = q.position := by rw [← (hwithin r hr).1, he, (hwithin q hq).1]
    exact h.eq_of_covers hr hq (h.covers_position hr) (hpos ▸ h.covers_position hq)
  have hsub : ranges.map g ⊆ others := by
    intro q hq
    obtain ⟨r, hr, rfl⟩ := List.mem_map.1 hq
    exact hg r hr
  exact ⟨g, hwithin, List.subperm_of_subset hnodup hsub⟩

/-- No cover of the same bytes is shorter. -/
theorem length_le (hsame : SameBytes ranges others) : ranges.length ≤ others.length := by
  obtain ⟨g, -, hsub⟩ := h.exists_embedding hsame
  simpa using hsub.length_le

/-- A cover of the same bytes that is as short consists of the same ranges. -/
theorem perm_of_length_le (hsame : SameBytes ranges others)
    (hlen : others.length ≤ ranges.length) : others.Perm ranges := by
  obtain ⟨g, hwithin, hsub⟩ := h.exists_embedding hsame
  have hperm : (ranges.map g).Perm others := hsub.perm_of_length_le (by simpa using hlen)
  have hid : ∀ r ∈ ranges, g r = r := by
    intro r hr
    have hlen := h.nonempty r hr
    obtain ⟨hpos, hle⟩ := hwithin r hr
    -- the last byte of `r` lies in the image of some range, which can only be `r`
    have hlast : r.covers (r.limit - 1) = true := by
      rw [ByteRange.covers_iff]
      unfold ByteRange.limit
      omega
    obtain ⟨q, hq, hqb⟩ := (hsame _).1 ⟨r, hr, hlast⟩
    obtain ⟨p, hp, rfl⟩ := List.mem_map.1 (hperm.mem_iff.2 hq)
    obtain ⟨hpp, hpl⟩ := hwithin p hp
    have hpb : p.covers (r.limit - 1) = true := by
      rw [ByteRange.covers_iff, hpp] at hqb
      rw [ByteRange.covers_iff]
      omega
    obtain rfl := h.eq_of_covers hp hr hpb hlast
    have hlimit : (g p).limit = p.limit := by
      rw [ByteRange.covers_iff] at hqb
      omega
    have hlength : (g p).length = p.length := by
      rw [ByteRange.limit, ByteRange.limit, hpp] at hlimit
      rw [← UInt64.toNat_inj]
      omega
    exact ByteRange.ext hpp hlength
  have hmap : ranges.map g = ranges := by
    conv => rhs; rw [← List.map_id ranges]
    exact List.map_congr_left hid
  exact (hmap ▸ hperm).symm

/-- A canonical list is determined by the bytes that it holds. -/
theorem eq_of_sameBytes (h' : Canonical others) (hsame : SameBytes ranges others) :
    ranges = others := by
  have hback : SameBytes others ranges := fun byte => (hsame byte).symm
  have hperm : ranges.Perm others := h'.perm_of_length_le hback (h.length_le hsame)
  apply hperm.eq_of_pairwise ?_ h.apart h'.apart
  intro r q _ _ hrq hqr
  have hr := r.position_le_limit
  have hq := q.position_le_limit
  omega

end Canonical

end VariantStorage
