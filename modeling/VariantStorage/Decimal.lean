/-!
Decimals. Digits of natural numbers stand most significant first, and `ofDigits_digits` says that
writing a number and reading it back changes nothing.

Finite non-negative numbers in IEEE binary64 are a significand and a power of two. Every operation
takes the exact result as a ratio of natural numbers and rounds it once, to nearest with ties to
even; it fails where the rounded result is not finite.

The shortest decimal that reads back as a given binary64 number, and of several the nearest one, is
found on grids. The reals that round to `m * 2 ^ e` form an interval around it, with its ends
exactly if `m` is even. For one digit, two digits, … up to seventeen, the two neighbours of the
number on the grid of decimals with that many digits are tried; the first grid with a neighbour in
the interval wins.
-/
namespace VariantStorage

namespace Decimal

/-- The decimal digits of `n`; zero has the one digit `0`. -/
def digits (n : Nat) : List Nat :=
  if n < 10 then [n] else digits (n / 10) ++ [n % 10]
termination_by n

def ofDigits (ds : List Nat) : Nat :=
  ds.foldl (fun n d => 10 * n + d) 0

@[simp] theorem ofDigits_nil : ofDigits [] = 0 := rfl

@[simp] theorem ofDigits_concat (ds : List Nat) (d : Nat) :
    ofDigits (ds ++ [d]) = 10 * ofDigits ds + d := by
  simp [ofDigits]

/-- Reading the digits of a number gives the number. -/
theorem ofDigits_digits (n : Nat) : ofDigits (digits n) = n := by
  induction n using Nat.strongRecOn with
  | _ n ih =>
    rw [digits]
    split
    · simp [ofDigits]
    · rw [ofDigits_concat, ih (n / 10) (by omega)]
      omega

theorem digits_ne_nil (n : Nat) : digits n ≠ [] := by
  rw [digits]
  split <;> simp

theorem digits_lt (n : Nat) : ∀ d ∈ digits n, d < 10 := by
  induction n using Nat.strongRecOn with
  | _ n ih =>
    intro d hd
    rw [digits] at hd
    split at hd
    · simp_all
    · rcases List.mem_append.1 hd with h | h
      · exact ih (n / 10) (by omega) d h
      · have := List.mem_singleton.1 h
        omega

def chars (n : Nat) : List Char :=
  (digits n).map Nat.digitChar

def text (n : Nat) : String :=
  String.ofList (chars n)

/-- The number `significand * 2 ^ exponent`. -/
structure Binary64 where
  significand : Nat
  exponent : Int
  deriving DecidableEq, Repr

/-- The integer nearest to `num / den`, the even one of two. -/
def roundDiv (num den : Nat) : Nat :=
  let q := num / den
  let r := num % den
  if 2 * r < den || (2 * r == den && q % 2 == 0) then q else q + 1

/-- The ratio `num / den / base ^ e`, as a numerator and a denominator. -/
def scaled (base num den : Nat) (e : Int) : Nat × Nat :=
  if 0 ≤ e then (num, den * base.pow e.toNat) else (num * base.pow (-e).toNat, den)

namespace Binary64

def zero : Binary64 := ⟨0, -1074⟩

def isZero (x : Binary64) : Bool :=
  x.significand == 0

/-- The exponent of the last place of a number in the binade of `num / den`: 53 binary digits, but
never below `-1074`. -/
def lastPlace (num den : Nat) : Int :=
  let e : Int := (num.log2 : Int) - den.log2
  let (n, d) := scaled 2 num den e
  max (if d ≤ n then e - 52 else e - 53) (-1074)

/-- The number nearest to `num / den`, if it is finite. -/
def ofRatio (num den : Nat) : Option Binary64 :=
  if num = 0 then some zero
  else
    let e := lastPlace num den
    let (n, d) := scaled 2 num den e
    let m := roundDiv n d
    let x : Binary64 := if m = Nat.pow 2 53 then ⟨Nat.pow 2 52, e + 1⟩ else ⟨m, e⟩
    if x.exponent ≤ 971 then some x else none

def ratio (x : Binary64) : Nat × Nat :=
  scaled 2 x.significand 1 (-x.exponent)

def mul (x y : Binary64) : Option Binary64 :=
  ofRatio (x.ratio.1 * y.ratio.1) (x.ratio.2 * y.ratio.2)

def div (x y : Binary64) : Option Binary64 :=
  ofRatio (x.ratio.1 * y.ratio.2) (x.ratio.2 * y.ratio.1)

end Binary64

/-- The number `digits * 10 ^ exponent`. -/
structure Scientific where
  digits : Nat
  exponent : Int
  deriving DecidableEq, Repr

namespace Binary64

/-- The interval of reals that round to a number, over a common denominator. -/
structure Interval where
  low : Nat
  value : Nat
  high : Nat
  den : Nat
  closed : Bool

/-- Half the distance to the next number above and below; below a power of two the numbers lie twice
as close. -/
def interval (x : Binary64) : Interval :=
  let (num, den) := x.ratio
  let unit := num / x.significand
  let below := if x.significand = Nat.pow 2 52 ∧ -1074 < x.exponent then 1 else 2
  { low := 4 * num - below * unit
    value := 4 * num
    high := 4 * num + 2 * unit
    den := 4 * den
    closed := x.significand % 2 == 0 }

/-- The exponent of the leading decimal digit of `num / den`. -/
def leading (num den : Nat) : Int :=
  if den ≤ num then (digits (num / den)).length - 1
  else -((digits ((den + num - 1) / num - 1)).length : Int)

/-- Whether the decimal reads back as the number of the interval. -/
def Interval.holds (i : Interval) (x : Scientific) : Bool :=
  let (num, den) := scaled 10 x.digits 1 (-x.exponent)
  let (low, c, high) := (i.low * den, num * i.den, i.high * den)
  if i.closed then low ≤ c && c ≤ high else low < c && c < high

/-- The neighbours of the number on the grid of multiples of `10 ^ e`, the nearer one first and the
even one first of two. -/
def neighbours (i : Interval) (e : Int) : List Scientific :=
  let (num, den) := scaled 10 i.value i.den e
  let below := num / den
  let nearest := roundDiv num den
  [⟨nearest, e⟩, ⟨if nearest = below then below + 1 else below, e⟩]

/-- The shortest decimal of a positive number; seventeen digits always suffice. -/
def shortest (x : Binary64) : Scientific :=
  let i := x.interval
  let lead := leading i.value i.den
  let candidates := (List.range 17).flatMap fun (n : Nat) => neighbours i (lead - n)
  (candidates.find? i.holds).getD ⟨0, 0⟩

end Binary64

/-- How a decimal is written: positional if the exponent of its leading digit lies between `lowest`
and `highest`, and with an exponent after `mark` otherwise. -/
structure FloatFormat where
  lowest : Int
  highest : Int
  mark : Char

namespace FloatFormat

def zeros (n : Nat) : List Char :=
  List.replicate n '0'

/-- Digits and exponent as text. A positional text always has a fraction, and an exponent always
has a sign. -/
def chars (format : FloatFormat) (x : Scientific) : List Char :=
  let ds := (Decimal.chars x.digits).reverse.dropWhile (· == '0') |>.reverse
  let lead := x.exponent + (Decimal.chars x.digits).length - 1
  if lead < format.lowest ∨ format.highest < lead then
    let tail := if ds.length ≤ 1 then [] else '.' :: ds.drop 1
    let sign := if lead < 0 then '-' else '+'
    ds.take 1 ++ tail ++ format.mark :: sign :: Decimal.chars lead.natAbs
  else if lead < 0 then
    '0' :: '.' :: zeros (lead.natAbs - 1) ++ ds
  else
    let whole := lead.toNat + 1
    let fraction := ds.drop whole
    ds.take whole ++ zeros (whole - ds.length) ++ '.' ::
      (if fraction.isEmpty then ['0'] else fraction)

end FloatFormat

end Decimal

end VariantStorage
