import VariantStorage.Decimal

/-!
Numbers as JSON text writes them, and the values they stand for. A numeral without fraction and
exponent is an integer if it is a 64-bit word, or if it is negative and fits the signed 64-bit
integers; every other numeral, `-0` among them, is a binary64 number.
-/
namespace VariantStorage.Json

/-- A number as it is written. The digits after the point are kept one by one, since zeros at the
end of a fraction belong to the text; there are none exactly if there is no point. -/
structure Numeral where
  negative : Bool
  whole : Nat
  fraction : List Nat
  exponent : Option Int
  deriving DecidableEq, Repr

namespace Numeral

def digitValue (c : Char) : Nat :=
  c.toNat - '0'.toNat

/-- The digits at the head of a text, and what follows them. -/
def leadingDigits (cs : List Char) : List Nat × List Char :=
  ((cs.takeWhile Char.isDigit).map digitValue, cs.dropWhile Char.isDigit)

/-- The digits at the head of a text, of which there must be one. -/
def readDigits (cs : List Char) : Option (List Nat × List Char) :=
  let (ds, rest) := leadingDigits cs
  if ds.isEmpty then none else some (ds, rest)

def readSign : List Char → Bool × List Char
  | '-' :: cs => (true, cs)
  | cs => (false, cs)

/-- The digits before the point; a zero stands alone. -/
def readWhole (cs : List Char) : Option (Nat × List Char) := do
  let (ds, rest) ← readDigits cs
  if ds.head? = some 0 ∧ ds ≠ [0] then none else some (Decimal.ofDigits ds, rest)

def readFraction : List Char → Option (List Nat × List Char)
  | '.' :: cs => readDigits cs
  | cs => some ([], cs)

def readPower : List Char → Option (Int × List Char)
  | '+' :: cs => (readDigits cs).map fun (ds, rest) => ((Decimal.ofDigits ds : Int), rest)
  | '-' :: cs => (readDigits cs).map fun (ds, rest) => (-(Decimal.ofDigits ds : Int), rest)
  | cs => (readDigits cs).map fun (ds, rest) => ((Decimal.ofDigits ds : Int), rest)

def readExponent : List Char → Option (Option Int × List Char)
  | 'e' :: cs => (readPower cs).map fun (e, rest) => (some e, rest)
  | 'E' :: cs => (readPower cs).map fun (e, rest) => (some e, rest)
  | cs => some (none, cs)

/-- The number at the head of a text, and what follows it. -/
def read (cs : List Char) : Option (Numeral × List Char) := do
  let (negative, cs) := readSign cs
  let (whole, cs) ← readWhole cs
  let (fraction, cs) ← readFraction cs
  let (exponent, cs) ← readExponent cs
  return (⟨negative, whole, fraction, exponent⟩, cs)

theorem readDigits_length {cs rest : List Char} {ds : List Nat}
    (h : readDigits cs = some (ds, rest)) : rest.length < cs.length := by
  by_cases hne : cs.takeWhile Char.isDigit = []
  · simp [readDigits, leadingDigits, hne] at h
  · have hrest : cs.dropWhile Char.isDigit = rest := by
      simp only [readDigits, leadingDigits, List.isEmpty_iff, List.map_eq_nil_iff, hne, if_false,
        Option.some.injEq, Prod.mk.injEq] at h
      exact h.2
    have hsum : (cs.takeWhile Char.isDigit).length + (cs.dropWhile Char.isDigit).length
        = cs.length := by
      rw [← List.length_append, List.takeWhile_append_dropWhile]
    have hpos := List.length_pos_iff.2 hne
    rw [← hrest]
    omega

theorem readSign_length (cs : List Char) : (readSign cs).2.length ≤ cs.length := by
  unfold readSign
  split <;> simp

theorem readWhole_length {cs rest : List Char} {n : Nat}
    (h : readWhole cs = some (n, rest)) : rest.length < cs.length := by
  simp only [readWhole, Option.bind_eq_bind, Option.bind_eq_some_iff, Prod.exists] at h
  obtain ⟨ds, r, hr, h⟩ := h
  split at h
  · simp at h
  · simp only [Option.some.injEq, Prod.mk.injEq] at h
    rw [← h.2]
    exact readDigits_length hr

theorem readFraction_length {cs rest : List Char} {ds : List Nat}
    (h : readFraction cs = some (ds, rest)) : rest.length ≤ cs.length := by
  unfold readFraction at h
  split at h
  · have := readDigits_length h
    simp only [List.length_cons]
    omega
  · simp only [Option.some.injEq, Prod.mk.injEq] at h
    exact Nat.le_of_eq (congrArg List.length h.2.symm)

theorem readPower_length {cs rest : List Char} {e : Int}
    (h : readPower cs = some (e, rest)) : rest.length < cs.length := by
  unfold readPower at h
  split at h <;>
  · simp only [Option.map_eq_some_iff, Prod.exists, Prod.mk.injEq] at h
    obtain ⟨ds, r, hr, -, rfl⟩ := h
    have := readDigits_length hr
    simp_all <;> omega

theorem readExponent_length {cs rest : List Char} {e : Option Int}
    (h : readExponent cs = some (e, rest)) : rest.length ≤ cs.length := by
  unfold readExponent at h
  split at h
  · simp only [Option.map_eq_some_iff, Prod.exists, Prod.mk.injEq] at h
    obtain ⟨e, r, hr, -, rfl⟩ := h
    have := readPower_length hr
    simp only [List.length_cons]
    omega
  · simp only [Option.map_eq_some_iff, Prod.exists, Prod.mk.injEq] at h
    obtain ⟨e, r, hr, -, rfl⟩ := h
    have := readPower_length hr
    simp only [List.length_cons]
    omega
  · simp only [Option.some.injEq, Prod.mk.injEq] at h
    exact Nat.le_of_eq (congrArg List.length h.2.symm)

/-- A number takes at least one character. -/
theorem read_length {cs rest : List Char} {n : Numeral}
    (h : read cs = some (n, rest)) : rest.length < cs.length := by
  simp only [read, Option.bind_eq_bind, Option.bind_eq_some_iff, Prod.exists, Option.pure_def,
    Option.some.injEq, Prod.mk.injEq] at h
  obtain ⟨w, r₁, h₁, f, r₂, h₂, e, r₃, h₃, -, rfl⟩ := h
  have h₀ := readSign_length cs
  have h₁ := readWhole_length h₁
  have h₂ := readFraction_length h₂
  have h₃ := readExponent_length h₃
  omega

def chars (n : Numeral) : List Char :=
  (if n.negative then ['-'] else []) ++ Decimal.chars n.whole ++
    (if n.fraction.isEmpty then [] else '.' :: n.fraction.map Nat.digitChar) ++
    match n.exponent with
    | none => []
    | some e => 'e' :: (if e < 0 then ['-'] else []) ++ Decimal.chars e.natAbs

/-- The natural number `n`, without fraction and exponent. -/
def ofNat (n : Nat) : Numeral :=
  ⟨false, n, [], none⟩

end Numeral

inductive Number where
  | integer (n : Int)
  | float (negative : Bool) (magnitude : Decimal.Binary64)
  deriving DecidableEq, Repr

namespace Numeral

/-- Appends digits to a significand as long as it stays a 64-bit word; each one lowers the
exponent, and what follows the first digit that does not fit is ignored. -/
def appendDigits (significand : Nat) (exponent : Int) : List Nat → Nat × Int
  | [] => (significand, exponent)
  | d :: ds =>
    if 10 * significand + d < UInt64.size then appendDigits (10 * significand + d) (exponent - 1) ds
    else (significand, exponent)

/-- Drops digits at the end of a significand until it is a 64-bit word; each one raises the
exponent. -/
def dropDigits (significand : Nat) (exponent : Int) : Nat × Int :=
  if significand < UInt64.size then (significand, exponent)
  else dropDigits (significand / 10) (exponent + 1)
termination_by significand
decreasing_by
  simp only [UInt64.size] at *
  omega

/-- The significand, a 64-bit word, and the power of ten of a numeral. -/
def scientific (n : Numeral) : Nat × Int :=
  let (significand, exponent) := dropDigits n.whole 0
  let (significand, exponent) := appendDigits significand exponent n.fraction
  (significand, exponent + n.exponent.getD 0)

/-- The largest power of ten that is a binary64 number. -/
def largestPower : Nat := 308

/-- A number times a power of ten. A power beyond the largest one divides in steps, and multiplies
only zero; every step is rounded. -/
def scale (x : Decimal.Binary64) (exponent : Int) : Option Decimal.Binary64 :=
  if exponent < -largestPower then
    if x.isZero then some x
    else do
      let power ← Decimal.Binary64.ofRatio (Nat.pow 10 largestPower) 1
      scale (← x.div power) (exponent + largestPower)
  else if exponent < 0 then do
    x.div (← Decimal.Binary64.ofRatio (Nat.pow 10 exponent.natAbs) 1)
  else if exponent ≤ largestPower then do
    x.mul (← Decimal.Binary64.ofRatio (Nat.pow 10 exponent.natAbs) 1)
  else if x.isZero then some x
  else none
termination_by exponent.natAbs
decreasing_by
  simp only [largestPower] at *
  omega

/-- The magnitude of a numeral as a binary64 number, if it is finite. -/
def magnitude (n : Numeral) : Option Decimal.Binary64 := do
  let (significand, exponent) := n.scientific
  scale (← Decimal.Binary64.ofRatio significand 1) exponent

/-- Whether a numeral is an integer: it is written without fraction and exponent, and it is a 64-bit
word, or negative and a signed 64-bit integer. -/
def isInteger (n : Numeral) : Bool :=
  n.fraction.isEmpty && n.exponent.isNone &&
    if n.negative then 0 < n.whole && 2 * n.whole ≤ UInt64.size else n.whole < UInt64.size

/-- The value of a numeral; none if it is too large for a binary64 number. -/
def value (n : Numeral) : Option Number :=
  if n.isInteger then
    some (.integer (if n.negative then -n.whole else n.whole))
  else
    n.magnitude.map (.float n.negative)

end Numeral

end VariantStorage.Json
