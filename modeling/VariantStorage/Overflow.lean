/-!
Checked arithmetic on 64-bit words, and checked shifts of bytes. A sum, difference or product that
is not a word is an `Overflow`, never a wrapped word, and so is a shift by the width of a byte or
more. Each operation is pinned down by the natural number that a result stands for and by when it
fails.
-/
namespace VariantStorage

/-- The operation that has no exact result. -/
inductive Overflow where
  | add
  | subtract
  | multiply
  | shift
  deriving DecidableEq, Repr

def Overflow.message : Overflow → String
  | .add => "attempt to add with overflow"
  | .subtract => "attempt to subtract with overflow"
  | .multiply => "attempt to multiply with overflow"
  | .shift => "attempt to shift left with overflow"

namespace Word

def add (a b : UInt64) : Except Overflow UInt64 :=
  if a.toNat + b.toNat < UInt64.size then .ok (a + b) else .error .add

def sub (a b : UInt64) : Except Overflow UInt64 :=
  if b.toNat ≤ a.toNat then .ok (a - b) else .error .subtract

def mul (a b : UInt64) : Except Overflow UInt64 :=
  if a.toNat * b.toNat < UInt64.size then .ok (a * b) else .error .multiply

/-- A sum is returned exactly if it is a word. -/
theorem add_eq_ok {a b c : UInt64} : add a b = .ok c ↔ c.toNat = a.toNat + b.toNat := by
  have hc := c.toNat_lt_size
  unfold add
  split
  · have h : (a + b).toNat = a.toNat + b.toNat := by
      rw [UInt64.toNat_add]; exact Nat.mod_eq_of_lt ‹_›
    rw [← h, Except.ok.injEq, ← UInt64.toNat_inj]
    exact eq_comm
  · simp only [reduceCtorEq, false_iff]
    omega

theorem add_eq_error {a b : UInt64} {e : Overflow} :
    add a b = .error e ↔ e = .add ∧ UInt64.size ≤ a.toNat + b.toNat := by
  unfold add
  split
  · simp only [reduceCtorEq, false_iff]
    omega
  · simp only [Except.error.injEq, eq_comm (a := Overflow.add), Nat.not_lt.1 ‹_›, and_true]

/-- A difference is returned exactly if it is a natural number. -/
theorem sub_eq_ok {a b c : UInt64} : sub a b = .ok c ↔ c.toNat + b.toNat = a.toNat := by
  unfold sub
  split
  · have h : (a - b).toNat = a.toNat - b.toNat :=
      UInt64.toNat_sub_of_le _ _ (UInt64.le_iff_toNat_le.2 ‹_›)
    rw [Except.ok.injEq, ← UInt64.toNat_inj, h]
    omega
  · simp only [reduceCtorEq, false_iff]
    omega

theorem sub_eq_error {a b : UInt64} {e : Overflow} :
    sub a b = .error e ↔ e = .subtract ∧ a.toNat < b.toNat := by
  unfold sub
  split
  · simp only [reduceCtorEq, false_iff]
    omega
  · simp only [Except.error.injEq, eq_comm (a := Overflow.subtract), Nat.not_le.1 ‹_›, and_true]

/-- A product is returned exactly if it is a word. -/
theorem mul_eq_ok {a b c : UInt64} : mul a b = .ok c ↔ c.toNat = a.toNat * b.toNat := by
  have hc := c.toNat_lt_size
  unfold mul
  split
  · have h : (a * b).toNat = a.toNat * b.toNat := by
      rw [UInt64.toNat_mul]; exact Nat.mod_eq_of_lt ‹_›
    rw [← h, Except.ok.injEq, ← UInt64.toNat_inj]
    exact eq_comm
  · simp only [reduceCtorEq, false_iff]
    omega

theorem mul_eq_error {a b : UInt64} {e : Overflow} :
    mul a b = .error e ↔ e = .multiply ∧ UInt64.size ≤ a.toNat * b.toNat := by
  unfold mul
  split
  · simp only [reduceCtorEq, false_iff]
    omega
  · simp only [Except.error.injEq, eq_comm (a := Overflow.multiply), Nat.not_lt.1 ‹_›, and_true]

end Word

def Byte.shiftLeft (a : UInt8) (shift : UInt32) : Except Overflow UInt8 :=
  if shift < 8 then .ok (a <<< shift.toUInt8) else .error .shift

end VariantStorage
