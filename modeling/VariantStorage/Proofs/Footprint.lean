import Mathlib
import VariantStorage.Field
import VariantStorage.Proofs.Gather
import VariantStorage.Union.Layout

/-!
What a field claims, said in natural numbers about its leaves, and the collectors against it. A
leaf claims one bit or covers the bytes of a number, and it may lie so far out that its first byte,
or the byte past its end, is no 64-bit address. The collectors are traversals of the leaves, so how
the leaves are bracketed into groups plays no part below.
-/
namespace VariantStorage

/-- First byte past the end of the range, in exact numbers. -/
def ByteRange.limit (r : ByteRange) : Nat :=
  r.position.toNat + r.length.toNat

namespace ByteRange

theorem position_le_limit (r : ByteRange) : r.position.toNat ≤ r.limit :=
  Nat.le_add_right _ _

theorem covers_iff {r : ByteRange} {byte : Nat} :
    r.covers byte = true ↔ r.position.toNat ≤ byte ∧ byte < r.limit := by
  simp [covers, limit]

theorem stop_eq_ok {r : ByteRange} {n : UInt64} : r.stop = .ok n ↔ n.toNat = r.limit :=
  Word.add_eq_ok

theorem stop_eq_error {r : ByteRange} {e : Overflow} :
    r.stop = .error e ↔ e = .add ∧ 2 ^ 64 ≤ r.limit :=
  Word.add_eq_error

/-- A range that ends past the last address has no list of bytes. -/
theorem bytes_eq_error {r : ByteRange} {e : Overflow} :
    r.bytes = .error e ↔ e = .add ∧ 2 ^ 64 ≤ r.limit := by
  simp only [bytes, bind_eq_error, stop_eq_error, pure, Except.pure, reduceCtorEq, and_false,
    exists_false, or_false]

theorem mem_bytes {r : ByteRange} {bytes : List UInt64} (h : r.bytes = .ok bytes) {b : UInt64} :
    b ∈ bytes ↔ r.covers b.toNat = true := by
  obtain ⟨n, hn, hb⟩ := bind_eq_ok.1 h
  obtain rfl := Except.ok.inj hb
  have hlimit := stop_eq_ok.1 hn
  have hword := n.toNat_lt
  have hto : ∀ i < r.length.toNat, (r.position + UInt64.ofNat i).toNat = r.position.toNat + i := by
    intro i hi
    rw [UInt64.toNat_add, UInt64.toNat_ofNat_of_lt' (Nat.lt_trans hi r.length.toNat_lt)]
    exact Nat.mod_eq_of_lt (by unfold limit at hlimit; omega)
  simp only [List.mem_map, List.mem_range, covers_iff, limit]
  constructor
  · rintro ⟨i, hi, rfl⟩
    rw [hto i hi]
    omega
  · rintro ⟨hlow, hhigh⟩
    refine ⟨b.toNat - r.position.toNat, by omega, ?_⟩
    rw [← UInt64.toNat_inj, hto _ (by omega)]
    omega

end ByteRange

/-- Numbers and enums are one, two, four or eight bytes wide. -/
theorem SlotType.dataWidth_cases {t : SlotType} {w : UInt64} (h : t.dataWidth = some w) :
    w = 1 ∨ w = 2 ∨ w = 4 ∨ w = 8 := by
  cases t with
  | builtin b => cases b <;> simp_all [SlotType.dataWidth, Builtin.dataWidth, eq_comm]
  | construct c => cases c <;> simp_all [SlotType.dataWidth, eq_comm]

namespace Slot

/-- The slot is the boolean at a bit of the data section. -/
def ClaimsBit (s : Slot) (bit : Nat) : Prop :=
  s.type = .builtin .bool ∧ s.offset.toNat = bit

/-- The slot is a number or an enum with `byte` among its bytes. -/
def CoversByte (s : Slot) (byte : Nat) : Prop :=
  ∃ w ∈ s.type.dataWidth, w.toNat * s.offset.toNat ≤ byte ∧ byte < w.toNat * (s.offset.toNat + 1)

/-- The slot is a number or an enum, and its first byte is no 64-bit address. -/
def StartOverflows (s : Slot) : Prop :=
  ∃ w ∈ s.type.dataWidth, 2 ^ 64 ≤ w.toNat * s.offset.toNat

/-- The slot is a number or an enum, and the byte past its end is no 64-bit address. -/
def EndOverflows (s : Slot) : Prop :=
  ∃ w ∈ s.type.dataWidth, 2 ^ 64 ≤ w.toNat * (s.offset.toNat + 1)

/-- The slot is a pointer, and its first byte is no 64-bit address. -/
def PointerOverflows (s : Slot) : Prop :=
  s.type.isPointer = true ∧ 2 ^ 61 ≤ s.offset.toNat

instance (s : Slot) (bit : Nat) : Decidable (s.ClaimsBit bit) :=
  inferInstanceAs (Decidable (_ ∧ _))

instance (s : Slot) (byte : Nat) : Decidable (s.CoversByte byte) :=
  inferInstanceAs (Decidable (∃ w ∈ s.type.dataWidth, _))

instance (s : Slot) : Decidable s.StartOverflows :=
  inferInstanceAs (Decidable (∃ w ∈ s.type.dataWidth, _))

instance (s : Slot) : Decidable s.EndOverflows :=
  inferInstanceAs (Decidable (∃ w ∈ s.type.dataWidth, _))

instance (s : Slot) : Decidable s.PointerOverflows :=
  inferInstanceAs (Decidable (_ ∧ _))

/-- The slot is a number or an enum that occupies exactly the range. -/
def Stores (s : Slot) (r : ByteRange) : Prop :=
  s.type.dataWidth = some r.length ∧ r.position.toNat = r.length.toNat * s.offset.toNat

theorem mem_bits {s : Slot} {b : UInt64} : b ∈ s.bits ↔ s.ClaimsBit b.toNat := by
  unfold bits ClaimsBit
  split
  · simp [*, eq_comm, ← UInt64.toNat_inj]
  · simp [*]

theorem bytes_eq_error {s : Slot} {e : Overflow} :
    s.bytes = .error e ↔ e = .multiply ∧ s.StartOverflows := by
  unfold bytes StartOverflows
  cases s.type.dataWidth with
  | none => simp
  | some w => simp [bind_eq_error, Word.mul_eq_error, pure, Except.pure]

/-- The range of a slot is the one that it stores its value in. -/
theorem mem_bytes {s : Slot} {ranges : List ByteRange} (h : s.bytes = .ok ranges) {r : ByteRange} :
    r ∈ ranges ↔ s.Stores r := by
  unfold bytes at h
  unfold Stores
  cases hw : s.type.dataWidth with
  | none =>
    obtain rfl : [] = ranges := by simpa [hw] using h
    simp
  | some w =>
    rw [hw] at h
    obtain ⟨p, hp, hout⟩ := bind_eq_ok.1 h
    obtain rfl := Except.ok.inj hout
    rw [Word.mul_eq_ok] at hp
    rw [List.mem_singleton, Option.some.injEq]
    constructor
    · rintro rfl
      exact ⟨rfl, hp⟩
    · rintro ⟨rfl, hr⟩
      rw [← hp, UInt64.toNat_inj] at hr
      rw [← hr]

/-- What starts past the last address also ends past it. -/
theorem StartOverflows.endOverflows {s : Slot} (h : s.StartOverflows) : s.EndOverflows := by
  obtain ⟨w, hw, hstart⟩ := h
  exact ⟨w, hw, Nat.le_trans hstart (Nat.mul_le_mul_left _ (Nat.le_succ _))⟩

theorem exists_stores {s : Slot} {w : UInt64} (hw : s.type.dataWidth = some w)
    (h : ¬s.StartOverflows) : ∃ r, s.Stores r := by
  cases hp : Word.mul w s.offset with
  | error e => exact absurd ⟨w, hw, (Word.mul_eq_error.1 hp).2⟩ h
  | ok p => exact ⟨⟨p, w⟩, hw, Word.mul_eq_ok.1 hp⟩

theorem Stores.limit_eq {s : Slot} {r : ByteRange} (h : s.Stores r) :
    r.limit = r.length.toNat * (s.offset.toNat + 1) := by
  rw [ByteRange.limit, h.2, Nat.mul_succ]

/-- A number that starts at an address reaches no further than past the last one, since its width
divides the number of addresses. -/
theorem Stores.limit_le {s : Slot} {r : ByteRange} (h : s.Stores r) : r.limit ≤ 2 ^ 64 := by
  have hword := r.position.toNat_lt
  have hlimit := h.limit_eq
  obtain ⟨hwidth, hpos⟩ := h
  rcases SlotType.dataWidth_cases hwidth with hw | hw | hw | hw <;>
    simp only [hw, UInt64.reduceToNat] at hpos hlimit <;> omega

theorem Stores.covers_iff {s : Slot} {r : ByteRange} (h : s.Stores r) {byte : Nat} :
    r.covers byte = true ↔ s.CoversByte byte := by
  simp [ByteRange.covers_iff, CoversByte, h.1, h.limit_eq, h.2]

theorem pointers_eq_error {s : Slot} {e : Overflow} :
    s.pointers = .error e ↔ e = .multiply ∧ s.PointerOverflows := by
  have h8 : Storage.pointerBytes.toNat = 8 := rfl
  have hword : UInt64.size ≤ 8 * s.offset.toNat ↔ 2 ^ 61 ≤ s.offset.toNat := by
    simp only [UInt64.size]
    omega
  unfold pointers PointerOverflows Storage.pointerPosition
  split
  · simp only [bind_eq_error, Word.mul_eq_error, pure, Except.pure, reduceCtorEq, and_false,
      exists_false, or_false, true_and, *]
  · simp [*]

end Slot

/-- The slot lies in the field, inside however many groups. -/
inductive Slot.OccursIn (s : Slot) : Field → Prop where
  | slot (tag : Option UInt16) : s.OccursIn (.slot tag s)
  | group (tag : Option UInt16) {members : List Field} {f : Field} (hf : f ∈ members)
      (h : s.OccursIn f) : s.OccursIn (.group tag members)

namespace Field

def ClaimsBit (f : Field) (bit : Nat) : Prop :=
  ∃ s ∈ f.leaves, s.ClaimsBit bit

def CoversByte (f : Field) (byte : Nat) : Prop :=
  ∃ s ∈ f.leaves, s.CoversByte byte

/-- The booleans of the field claim all eight bits of the byte. -/
def FillsByte (f : Field) (byte : Nat) : Prop :=
  ∀ k < 8, f.ClaimsBit (8 * byte + k)

/-- The booleans of the field claim some of the byte's bits, but not all eight. -/
def SharesByte (f : Field) (byte : Nat) : Prop :=
  (∃ k < 8, f.ClaimsBit (8 * byte + k)) ∧ ¬f.FillsByte byte

def StartOverflows (f : Field) : Prop :=
  ∃ s ∈ f.leaves, s.StartOverflows

def EndOverflows (f : Field) : Prop :=
  ∃ s ∈ f.leaves, s.EndOverflows

def PointerOverflows (f : Field) : Prop :=
  ∃ s ∈ f.leaves, s.PointerOverflows

instance (f : Field) (bit : Nat) : Decidable (f.ClaimsBit bit) :=
  inferInstanceAs (Decidable (∃ s ∈ f.leaves, _))

instance (f : Field) (byte : Nat) : Decidable (f.CoversByte byte) :=
  inferInstanceAs (Decidable (∃ s ∈ f.leaves, _))

instance (f : Field) (byte : Nat) : Decidable (f.FillsByte byte) :=
  inferInstanceAs (Decidable (∀ k < 8, _))

instance (f : Field) (byte : Nat) : Decidable (f.SharesByte byte) :=
  inferInstanceAs (Decidable (_ ∧ _))

instance (f : Field) : Decidable f.StartOverflows :=
  inferInstanceAs (Decidable (∃ s ∈ f.leaves, _))

instance (f : Field) : Decidable f.EndOverflows :=
  inferInstanceAs (Decidable (∃ s ∈ f.leaves, _))

instance (f : Field) : Decidable f.PointerOverflows :=
  inferInstanceAs (Decidable (∃ s ∈ f.leaves, _))

def wholeByte (tag : Option UInt16) (byte : UInt64) : Field :=
  .group tag ((List.range 8).map fun k => .slot none ⟨.builtin .bool, 8 * byte + UInt64.ofNat k⟩)

theorem leavesAll_eq_flatMap (fs : List Field) : leavesAll fs = fs.flatMap leaves := by
  induction fs with
  | nil => rfl
  | cons f fs ih => rw [leavesAll, ih, List.flatMap_cons]

theorem leavesAll_append (fs gs : List Field) :
    leavesAll (fs ++ gs) = leavesAll fs ++ leavesAll gs := by
  simp [leavesAll_eq_flatMap]

theorem leavesAll_slots (slots : List Slot) : leavesAll (slots.map (.slot none)) = slots := by
  induction slots with
  | nil => rfl
  | cons s slots ih => simp [leavesAll, leaves, ih]

/-- What holds of some slot of a group holds of some slot of a member. -/
theorem exists_leaf_group {P : Slot → Prop} {tag : Option UInt16} {members : List Field} :
    (∃ s ∈ (Field.group tag members).leaves, P s) ↔ ∃ f ∈ members, ∃ s ∈ f.leaves, P s := by
  simp only [leaves, leavesAll_eq_flatMap, List.mem_flatMap]
  constructor
  · intro ⟨s, ⟨f, hf, hs⟩, h⟩
    exact ⟨f, hf, s, hs, h⟩
  · intro ⟨f, hf, s, hs, h⟩
    exact ⟨s, ⟨f, hf, hs⟩, h⟩

/-- A slot occurs in a field exactly if it is among the leaves, into which all groups dissolve. -/
theorem mem_leaves {f : Field} {s : Slot} : s ∈ f.leaves ↔ s.OccursIn f := by
  constructor
  · intro h
    match f with
    | .slot tag t =>
      obtain rfl := List.mem_singleton.1 h
      exact .slot tag
    | .group tag members =>
      rw [leaves, leavesAll_eq_flatMap] at h
      obtain ⟨g, hg, hs⟩ := List.mem_flatMap.1 h
      exact .group tag hg (mem_leaves.1 hs)
  · intro h
    induction h with
    | slot tag => exact List.mem_singleton.2 rfl
    | group tag hg _ ih =>
      rw [leaves, leavesAll_eq_flatMap]
      exact List.mem_flatMap.2 ⟨_, hg, ih⟩
termination_by sizeOf f

mutual

/-- A field claims the bits of its slots, one slot after another. -/
theorem bits_eq_flatMap : ∀ f : Field, f.bits = f.leaves.flatMap Slot.bits
  | .slot _ s => by simp [bits, leaves]
  | .group _ members => by rw [bits, leaves, bitsAll_eq_flatMap members]

theorem bitsAll_eq_flatMap : ∀ fs : List Field, bitsAll fs = (leavesAll fs).flatMap Slot.bits
  | [] => rfl
  | f :: fs => by
    rw [bitsAll, leavesAll, List.flatMap_append, bits_eq_flatMap f, bitsAll_eq_flatMap fs]

end

mutual

/-- A field claims the ranges of its slots, one slot after another, up to the first failure. -/
theorem bytes_eq_gather : ∀ f : Field, f.bytes = gather Slot.bytes f.leaves
  | .slot _ s => by rw [bytes, leaves, gather_singleton]
  | .group _ members => by rw [bytes, leaves, bytesAll_eq_gather members]

theorem bytesAll_eq_gather : ∀ fs : List Field, bytesAll fs = gather Slot.bytes (leavesAll fs)
  | [] => rfl
  | f :: fs => by
    rw [bytesAll, leavesAll, gather_append, bytes_eq_gather f, bytesAll_eq_gather fs]

end

mutual

/-- A field claims the pointers of its slots, one slot after another, up to the first failure. -/
theorem pointers_eq_gather : ∀ f : Field, f.pointers = gather Slot.pointers f.leaves
  | .slot _ s => by rw [pointers, leaves, gather_singleton]
  | .group _ members => by rw [pointers, leaves, pointersAll_eq_gather members]

theorem pointersAll_eq_gather :
    ∀ fs : List Field, pointersAll fs = gather Slot.pointers (leavesAll fs)
  | [] => rfl
  | f :: fs => by
    rw [pointersAll, leavesAll, gather_append, pointers_eq_gather f, pointersAll_eq_gather fs]

end

theorem mem_bits {f : Field} {b : UInt64} : b ∈ f.bits ↔ f.ClaimsBit b.toNat := by
  simp [bits_eq_flatMap, ClaimsBit, Slot.mem_bits]

/-- The ranges of a field fail exactly if one of its numbers starts past the last address. -/
theorem bytes_eq_error {f : Field} {e : Overflow} :
    f.bytes = .error e ↔ e = .multiply ∧ f.StartOverflows := by
  rw [bytes_eq_gather]
  exact gather_eq_error_of_single fun _ _ => Slot.bytes_eq_error

theorem not_startOverflows {f : Field} {ranges : List ByteRange} (h : f.bytes = .ok ranges) :
    ¬f.StartOverflows := by
  intro ho
  have := bytes_eq_error.2 ⟨rfl, ho⟩
  simp [h] at this

theorem mem_bytes {f : Field} {ranges : List ByteRange} (h : f.bytes = .ok ranges)
    {r : ByteRange} : r ∈ ranges ↔ ∃ s ∈ f.leaves, s.Stores r := by
  rw [bytes_eq_gather] at h
  exact mem_gather_iff Slot.mem_bytes h

/-- The ranges of a field hold exactly the bytes that its numbers and enums cover. -/
theorem covers_iff {f : Field} {ranges : List ByteRange} (h : f.bytes = .ok ranges)
    {byte : Nat} : (∃ r ∈ ranges, r.covers byte = true) ↔ f.CoversByte byte := by
  constructor
  · rintro ⟨r, hr, hb⟩
    obtain ⟨s, hs, hstore⟩ := (mem_bytes h).1 hr
    exact ⟨s, hs, hstore.covers_iff.1 hb⟩
  · rintro ⟨s, hs, hb⟩
    have hs' : ¬s.StartOverflows := fun ho => not_startOverflows h ⟨s, hs, ho⟩
    obtain ⟨w, hw, -⟩ := id hb
    obtain ⟨r, hstore⟩ := Slot.exists_stores hw hs'
    exact ⟨r, (mem_bytes h).2 ⟨s, hs, hstore⟩, hstore.covers_iff.2 hb⟩

theorem StartOverflows.endOverflows {f : Field} (h : f.StartOverflows) : f.EndOverflows := by
  obtain ⟨s, hs, hstart⟩ := h
  exact ⟨s, hs, hstart.endOverflows⟩

/-- Some range of a field ends at no address exactly when one of its numbers or enums does. -/
theorem endOverflows_iff {f : Field} {ranges : List ByteRange} (h : f.bytes = .ok ranges) :
    (∃ r ∈ ranges, 2 ^ 64 ≤ r.limit) ↔ f.EndOverflows := by
  constructor
  · rintro ⟨r, hr, hlimit⟩
    obtain ⟨s, hs, hstore⟩ := (mem_bytes h).1 hr
    rw [hstore.limit_eq] at hlimit
    exact ⟨s, hs, r.length, hstore.1, hlimit⟩
  · rintro ⟨s, hs, w, hw, hend⟩
    have hstart : ¬s.StartOverflows := fun ho => not_startOverflows h ⟨s, hs, ho⟩
    obtain ⟨r, hstore⟩ := Slot.exists_stores hw hstart
    refine ⟨r, (mem_bytes h).2 ⟨s, hs, hstore⟩, ?_⟩
    obtain rfl : r.length = w := Option.some.inj (hstore.1.symm.trans hw)
    rwa [hstore.limit_eq]

/-- The pointers of a field fail exactly if one of them starts past the last address. -/
theorem pointers_eq_error {f : Field} {e : Overflow} :
    f.pointers = .error e ↔ e = .multiply ∧ f.PointerOverflows := by
  rw [pointers_eq_gather]
  exact gather_eq_error_of_single fun _ _ => Slot.pointers_eq_error

end Field

end VariantStorage
