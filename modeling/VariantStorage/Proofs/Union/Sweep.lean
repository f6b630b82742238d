import VariantStorage.Proofs.Cover
import VariantStorage.Union.Layout

/-!
The sweep that merges sorted ranges. A step starts a new range after a gap, extends the current one,
or fails because one of the two ranges ends at no 64-bit address; `mergeFrom_cases` says that it can
do nothing else. From it come when the sweep returns, what it returns, and which failure it reports.
The difference that it computes never overflows, because a range that follows starts no earlier than
the current one.
-/
namespace VariantStorage

namespace ByteRange

/-- One range over both, where `r` starts no earlier than `current` and leaves no gap. -/
def join (current r : ByteRange) : ByteRange :=
  ⟨current.position, max current.length (r.position + r.length - current.position)⟩

theorem toNat_position_add_length {r : ByteRange} (h : r.limit < 2 ^ 64) :
    (r.position + r.length).toNat = r.limit := by
  rw [UInt64.toNat_add]
  exact Nat.mod_eq_of_lt h

theorem le_position_add_length {r : ByteRange} (h : r.limit < 2 ^ 64) {p : UInt64} :
    p ≤ r.position + r.length ↔ p.toNat ≤ r.limit := by
  rw [UInt64.le_iff_toNat_le, toNat_position_add_length h]

/-- The length that a range from the start of `current` to the end of `r` would have. -/
theorem toNat_reach {current r : ByteRange} (hpos : current.position.toNat ≤ r.position.toNat)
    (hr : r.limit < 2 ^ 64) :
    (r.position + r.length - current.position).toNat = r.limit - current.position.toNat := by
  have hle : current.position ≤ r.position + r.length :=
    (le_position_add_length hr).2 (Nat.le_trans hpos r.position_le_limit)
  rw [UInt64.toNat_sub_of_le _ _ hle, toNat_position_add_length hr]

theorem limit_join {current r : ByteRange} (hpos : current.position.toNat ≤ r.position.toNat)
    (hr : r.limit < 2 ^ 64) : (current.join r).limit = max current.limit r.limit := by
  have hpr := r.position_le_limit
  have hmax : ∀ a b : UInt64, (max a b).toNat = max a.toNat b.toNat := by
    intro a b
    change (if a ≤ b then b else a).toNat = max a.toNat b.toNat
    split <;> simp only [UInt64.le_iff_toNat_le] at * <;> omega
  simp only [limit, join, hmax, toNat_reach hpos hr] at hpr ⊢
  omega

/-- Joining two ranges without a gap between them adds no byte and loses none. -/
theorem covers_join {current r : ByteRange} (hpos : current.position.toNat ≤ r.position.toNat)
    (htouch : r.position.toNat ≤ current.limit) (hr : r.limit < 2 ^ 64) {byte : Nat} :
    (current.join r).covers byte = true ↔ current.covers byte = true ∨ r.covers byte = true := by
  have hjoin : (current.join r).position = current.position := rfl
  simp only [covers_iff, limit_join hpos hr, hjoin]
  have hpr := r.position_le_limit
  omega

end ByteRange

namespace Union

def Ascending (ranges : List ByteRange) : Prop :=
  ranges.Pairwise fun r q => r.position.toNat ≤ q.position.toNat

section Step

variable {current r : ByteRange} {rs : List ByteRange}

theorem Ascending.next (h : Ascending (current :: r :: rs)) : Ascending (r :: rs) :=
  (List.pairwise_cons.1 h).2

theorem Ascending.le (h : Ascending (current :: r :: rs)) :
    current.position.toNat ≤ r.position.toNat :=
  (List.pairwise_cons.1 h).1 r List.mem_cons_self

theorem Ascending.join (h : Ascending (current :: r :: rs)) : Ascending (current.join r :: rs) := by
  obtain ⟨hcurrent, hrest⟩ := List.pairwise_cons.1 h
  refine List.pairwise_cons.2 ⟨fun q hq => ?_, (List.pairwise_cons.1 hrest).2⟩
  exact hcurrent q (List.mem_cons_of_mem r hq)

/-- After a gap the current range is complete. -/
theorem mergeFrom_of_gap (h : current.limit < r.position.toNat) :
    mergeFrom current (r :: rs) = do
      let later ← mergeFrom r rs
      return current :: later := by
  have hlimit : current.limit < 2 ^ 64 := Nat.lt_trans h r.position.toNat_lt
  have hstop := ByteRange.toNat_position_add_length hlimit
  have hgap : ¬r.position ≤ current.position + current.length := by
    rw [ByteRange.le_position_add_length hlimit]
    exact Nat.not_le_of_gt h
  rw [mergeFrom, ByteRange.stop_eq_ok.2 hstop]
  simp [bind, Except.bind, hgap]

/-- A range that overlaps or touches the current one is joined to it. -/
theorem mergeFrom_of_touch (hpos : current.position.toNat ≤ r.position.toNat)
    (h : r.position.toNat ≤ current.limit) (hc : current.limit < 2 ^ 64) (hr : r.limit < 2 ^ 64) :
    mergeFrom current (r :: rs) = mergeFrom (current.join r) rs := by
  have hstop := ByteRange.toNat_position_add_length hc
  have hreach := ByteRange.toNat_position_add_length hr
  have htouch := (ByteRange.le_position_add_length hc).2 h
  have hsub : Word.sub (r.position + r.length) current.position =
      .ok (r.position + r.length - current.position) := by
    have hpr := r.position_le_limit
    rw [Word.sub_eq_ok, ByteRange.toNat_reach hpos hr]
    omega
  rw [mergeFrom, ByteRange.stop_eq_ok.2 hstop]
  simp [bind, Except.bind, htouch, ByteRange.stop_eq_ok.2 hreach, hsub, ByteRange.join]

/-- Where the two ranges overlap or touch and one of them ends at no address, the sweep fails. -/
theorem mergeFrom_of_overflow (h : r.position.toNat ≤ current.limit)
    (ho : 2 ^ 64 ≤ current.limit ∨ 2 ^ 64 ≤ r.limit) :
    mergeFrom current (r :: rs) = .error .add := by
  by_cases hc : current.limit < 2 ^ 64
  · have hstop := ByteRange.toNat_position_add_length hc
    have htouch := (ByteRange.le_position_add_length hc).2 h
    have hreach : r.stop = .error .add := ByteRange.stop_eq_error.2 ⟨rfl, by omega⟩
    rw [mergeFrom, ByteRange.stop_eq_ok.2 hstop]
    simp [bind, Except.bind, htouch, hreach]
  · have hstop : current.stop = .error .add := ByteRange.stop_eq_error.2 ⟨rfl, by omega⟩
    rw [mergeFrom, hstop]
    rfl

/-- All that one step of the sweep can do. -/
theorem mergeFrom_cases (hpos : current.position.toNat ≤ r.position.toNat) :
    (current.limit < r.position.toNat ∧ mergeFrom current (r :: rs) = do
        let later ← mergeFrom r rs
        return current :: later) ∨
      (r.position.toNat ≤ current.limit ∧ current.limit < 2 ^ 64 ∧ r.limit < 2 ^ 64 ∧
        mergeFrom current (r :: rs) = mergeFrom (current.join r) rs) ∨
      (r.position.toNat ≤ current.limit ∧ (2 ^ 64 ≤ current.limit ∨ 2 ^ 64 ≤ r.limit) ∧
        mergeFrom current (r :: rs) = .error .add) := by
  by_cases hgap : current.limit < r.position.toNat
  · exact .inl ⟨hgap, mergeFrom_of_gap hgap⟩
  · have htouch : r.position.toNat ≤ current.limit := by omega
    by_cases ho : 2 ^ 64 ≤ current.limit ∨ 2 ^ 64 ≤ r.limit
    · exact .inr (.inr ⟨htouch, ho, mergeFrom_of_overflow htouch ho⟩)
    · have hc : current.limit < 2 ^ 64 := by omega
      have hr : r.limit < 2 ^ 64 := by omega
      exact .inr (.inl ⟨htouch, hc, hr, mergeFrom_of_touch hpos htouch hc hr⟩)

end Step

/-- The sweep reports no other failure than a range that ends at no address. -/
theorem mergeFrom_eq_error {current : ByteRange} {rs : List ByteRange} {e : Overflow}
    (h : Ascending (current :: rs)) (he : mergeFrom current rs = .error e) : e = .add := by
  induction rs generalizing current with
  | nil => simp [mergeFrom] at he
  | cons r rs ih =>
    rcases mergeFrom_cases h.le with ⟨-, hm⟩ | ⟨-, -, -, hm⟩ | ⟨-, -, hm⟩
    · rw [hm, bind_eq_error] at he
      rcases he with he | ⟨later, -, he⟩
      · exact ih h.next he
      · cases he
    · exact ih h.join (hm ▸ he)
    · rw [hm] at he
      exact (Except.error.inj he).symm

/-- The later of two ranges overlaps or touches the other one, and one of them ends at no address.
-/
def Blocks (r q : ByteRange) : Prop :=
  q.position.toNat ≤ r.limit ∧ (2 ^ 64 ≤ r.limit ∨ 2 ^ 64 ≤ q.limit)

/-- A range blocks the join of two ranges that end at addresses exactly when it blocks one of the
two. -/
theorem blocks_join {current r q : ByteRange} (hpos : current.position.toNat ≤ r.position.toNat)
    (hc : current.limit < 2 ^ 64) (hr : r.limit < 2 ^ 64) :
    Blocks (current.join r) q ↔ Blocks current q ∨ Blocks r q := by
  rw [Blocks, Blocks, Blocks, ByteRange.limit_join hpos hr]
  omega

/-- A range that ends before the next one starts blocks none of those after the gap. -/
theorem not_blocks_of_gap {current r : ByteRange} {rs : List ByteRange} (h : Ascending (r :: rs))
    (hgap : current.limit < r.position.toNat) : ∀ q ∈ r :: rs, ¬Blocks current q := by
  intro q hq
  have hle : r.position.toNat ≤ q.position.toNat := by
    rcases List.mem_cons.1 hq with heq | hq
    · rw [heq]
    · exact (List.pairwise_cons.1 h).1 q hq
  unfold Blocks
  omega

/-- The sweep returns exactly when no range blocks a later one. -/
theorem mergeFrom_returns_iff {current : ByteRange} {rs : List ByteRange}
    (h : Ascending (current :: rs)) : (∃ out, mergeFrom current rs = .ok out) ↔
      (current :: rs).Pairwise fun r q => ¬Blocks r q := by
  -- over the ranges to come; a range blocks what the sweep holds if it blocks one that went into it
  induction rs generalizing current with
  | nil => exact iff_of_true ⟨[current], rfl⟩ (List.pairwise_singleton _ _)
  | cons r rs ih =>
    rcases mergeFrom_cases h.le with ⟨hgap, hm⟩ | ⟨htouch, hc, hr, hm⟩ | ⟨htouch, ho, hm⟩
    · rw [List.pairwise_cons, and_iff_right (not_blocks_of_gap h.next hgap), ← ih h.next, hm]
      constructor
      · intro ⟨out, hout⟩
        obtain ⟨later, hlater, -⟩ := bind_eq_ok.1 hout
        exact ⟨later, hlater⟩
      · intro ⟨later, hlater⟩
        exact ⟨current :: later, by rw [hlater]; rfl⟩
    · have hfree : ¬Blocks current r := by
        unfold Blocks
        omega
      rw [hm, ih h.join]
      simp only [List.pairwise_cons, blocks_join h.le hc hr, List.forall_mem_cons, hfree, not_or,
        not_false_eq_true, true_and]
      constructor
      · intro ⟨hboth, hrest⟩
        exact ⟨fun q hq => (hboth q hq).1, fun q hq => (hboth q hq).2, hrest⟩
      · intro ⟨hcurrent, hnext, hrest⟩
        exact ⟨fun q hq => ⟨hcurrent q hq, hnext q hq⟩, hrest⟩
    · rw [hm]
      refine iff_of_false (by simp) fun hp => ?_
      exact (List.pairwise_cons.1 hp).1 r List.mem_cons_self ⟨htouch, ho⟩

/-- What is true of the ranges that the sweep returns from `current` on: they are canonical, none
starts before `current`, and they hold the bytes of the ranges that went in. -/
structure Swept (current : ByteRange) (rs out : List ByteRange) : Prop extends Canonical out where
  first_le : ∀ r ∈ out, current.position.toNat ≤ r.position.toNat
  same : SameBytes out (current :: rs)

theorem Swept.last {current : ByteRange} (h : 0 < current.length.toNat) :
    Swept current [] [current] where
  nonempty := by simpa using h
  apart := List.pairwise_singleton _ _
  first_le := by simp
  same _ := Iff.rfl

/-- Before a gap the current range is done. -/
theorem Swept.gap {current r : ByteRange} {rs later : List ByteRange} (h : Swept r rs later)
    (hc : 0 < current.length.toNat) (hgap : current.limit < r.position.toNat) :
    Swept current (r :: rs) (current :: later) where
  nonempty := List.forall_mem_cons.2 ⟨hc, h.nonempty⟩
  apart := by
    refine List.pairwise_cons.2 ⟨fun q hq => ?_, h.apart⟩
    exact Nat.lt_of_lt_of_le hgap (h.first_le q hq)
  first_le := by
    refine List.forall_mem_cons.2 ⟨Nat.le_refl _, fun q hq => ?_⟩
    have hle := h.first_le q hq
    have hpos := current.position_le_limit
    omega
  same byte := by
    have hlater := h.same byte
    simp only [List.mem_cons, exists_eq_or_imp] at hlater ⊢
    rw [hlater]

/-- A range that touches the current one is joined into it. -/
theorem Swept.touch {current r : ByteRange} {rs out : List ByteRange}
    (h : Swept (current.join r) rs out) (hpos : current.position.toNat ≤ r.position.toNat)
    (htouch : r.position.toNat ≤ current.limit) (hr : r.limit < 2 ^ 64) :
    Swept current (r :: rs) out where
  toCanonical := h.toCanonical
  first_le := h.first_le
  same byte := by
    have hout := h.same byte
    simp only [List.mem_cons, exists_eq_or_imp, ByteRange.covers_join hpos htouch hr] at hout ⊢
    rw [hout, or_assoc]

/-- What the sweep returns. -/
theorem mergeFrom_swept {current : ByteRange} {rs out : List ByteRange}
    (h : Ascending (current :: rs)) (hlen : ∀ r ∈ current :: rs, 0 < r.length.toNat)
    (hout : mergeFrom current rs = .ok out) : Swept current rs out := by
  -- over the ranges to come, for the range that the sweep holds before them
  induction rs generalizing current out with
  | nil =>
    obtain rfl := Except.ok.inj hout
    exact .last (hlen current List.mem_cons_self)
  | cons r rs ih =>
    obtain ⟨hc, hrest⟩ := List.forall_mem_cons.1 hlen
    rcases mergeFrom_cases h.le with ⟨hgap, hm⟩ | ⟨htouch, -, hr, hm⟩ | ⟨-, -, hm⟩
    · rw [hm] at hout
      obtain ⟨later, hl, hcons⟩ := bind_eq_ok.1 hout
      obtain rfl := Except.ok.inj hcons
      exact (ih h.next hrest hl).gap hc hgap
    · rw [hm] at hout
      refine (ih h.join (List.forall_mem_cons.2 ⟨?_, ?_⟩) hout).touch h.le htouch hr
      · have hjoin := ByteRange.limit_join h.le hr
        have hstart : (current.join r).position = current.position := rfl
        simp only [ByteRange.limit, hstart] at hjoin
        omega
      · exact (List.forall_mem_cons.1 hrest).2
    · rw [hm] at hout
      cases hout

section Merge

variable {ranges : List ByteRange} (h : Ascending ranges)
include h

/-- The sweep returns canonical ranges that hold the bytes it was given. -/
theorem merge_canonical {out : List ByteRange} (hlen : ∀ r ∈ ranges, 0 < r.length.toNat)
    (hout : merge ranges = .ok out) : Canonical out ∧ SameBytes out ranges := by
  cases ranges with
  | nil =>
    obtain rfl := Except.ok.inj hout
    exact ⟨⟨by simp, List.Pairwise.nil⟩, fun byte => Iff.rfl⟩
  | cons r rs =>
    have hswept := mergeFrom_swept h hlen hout
    exact ⟨hswept.toCanonical, hswept.same⟩

/-- The sweep returns exactly if no range that ends past the last address has to be compared. -/
theorem merge_returns_iff :
    (∃ out, merge ranges = .ok out) ↔ ranges.Pairwise fun r q => ¬Blocks r q := by
  cases ranges with
  | nil => exact iff_of_true ⟨[], rfl⟩ List.Pairwise.nil
  | cons r rs => exact mergeFrom_returns_iff h

/-- The sweep returns when every range ends at an address. -/
theorem merge_returns (hlimit : ∀ r ∈ ranges, r.limit < 2 ^ 64) :
    ∃ out, merge ranges = .ok out := by
  apply (merge_returns_iff h).2
  apply List.pairwise_of_forall_mem_list
  intro r hr q hq hblocks
  have hrl := hlimit r hr
  have hql := hlimit q hq
  unfold Blocks at hblocks
  omega

theorem merge_eq_error {e : Overflow} (he : merge ranges = .error e) : e = .add := by
  cases ranges with
  | nil => cases he
  | cons r rs => exact mergeFrom_eq_error h he

end Merge

end Union

end VariantStorage
