import VariantStorage.Json.Fragment

/-!
How JSON text spells tokens, said without a reader. A token has one spelling but for escapes in
quoted text and the mark, the sign and the leading zeros of an exponent; between tokens, before the
first and after the last one blanks may stand. A text spells a value if it spells the tokens of the
value's compact text.
-/
namespace VariantStorage.Json

structure SpellsDigits (ds : List Nat) (cs : List Char) : Prop where
  ne_nil : ds ≠ []
  lt : ∀ d ∈ ds, d < 10
  eq : cs = ds.map Nat.digitChar

namespace Numeral

/-- A point and the digits after it, or nothing where there are none. -/
inductive SpellsFraction : List Nat → List Char → Prop where
  | none : SpellsFraction [] []
  | some {ds : List Nat} {cs : List Char} (h : SpellsDigits ds cs) : SpellsFraction ds ('.' :: cs)

/-- The sign and the digits of an exponent. -/
inductive SpellsPower : Int → List Char → Prop where
  | plain {ds : List Nat} {cs : List Char} (h : SpellsDigits ds cs) :
      SpellsPower (Decimal.ofDigits ds) cs
  | plus {ds : List Nat} {cs : List Char} (h : SpellsDigits ds cs) :
      SpellsPower (Decimal.ofDigits ds) ('+' :: cs)
  | minus {ds : List Nat} {cs : List Char} (h : SpellsDigits ds cs) :
      SpellsPower (-(Decimal.ofDigits ds)) ('-' :: cs)

/-- A mark and a power, or nothing where there is none. -/
inductive SpellsExponent : Option Int → List Char → Prop where
  | none : SpellsExponent none []
  | lower {e : Int} {cs : List Char} (h : SpellsPower e cs) : SpellsExponent (some e) ('e' :: cs)
  | upper {e : Int} {cs : List Char} (h : SpellsPower e cs) : SpellsExponent (some e) ('E' :: cs)

/-- A sign, the digits before the point without leading zeros, a fraction and an exponent. -/
inductive Spells (n : Numeral) : List Char → Prop where
  | intro {fraction exponent : List Char} (hf : SpellsFraction n.fraction fraction)
      (he : SpellsExponent n.exponent exponent) :
      Spells n ((if n.negative then ['-'] else []) ++ (Decimal.chars n.whole ++
        (fraction ++ exponent)))

end Numeral

/-- The inside of a quoted text: characters as they are, escapes of one letter, and codes. -/
inductive Unit16.Spells : List Unit16 → List Char → Prop where
  | nil : Spells [] []
  | plain {c : Char} {us : List Unit16} {cs : List Char} (hquote : c ≠ '"') (hslash : c ≠ '\\')
      (hcontrol : 0x20 ≤ c.toNat) (h : Spells us cs) : Spells (.char c :: us) (c :: cs)
  | letter {e c : Char} {us : List Unit16} {cs : List Char} (he : escaped e = some c)
      (h : Spells us cs) : Spells (.char c :: us) ('\\' :: e :: cs)
  | code {a b c d : Char} {n : Nat} {us : List Unit16} {cs : List Char}
      (hn : hexCode a b c d = some n) (h : Spells us cs) :
      Spells (.ofCode n :: us) ('\\' :: 'u' :: a :: b :: c :: d :: cs)

namespace Token

/-- The spellings of a token. What is malformed has none. -/
inductive Spelling : Token → List Char → Prop where
  | openArray : Spelling .openArray ['[']
  | closeArray : Spelling .closeArray [']']
  | openObject : Spelling .openObject ['{']
  | closeObject : Spelling .closeObject ['}']
  | comma : Spelling .comma [',']
  | colon : Spelling .colon [':']
  | nullWord : Spelling (.scalar .null) ['n', 'u', 'l', 'l']
  | trueWord : Spelling (.scalar (.bool true)) ['t', 'r', 'u', 'e']
  | falseWord : Spelling (.scalar (.bool false)) ['f', 'a', 'l', 's', 'e']
  | number {n : Numeral} {cs : List Char} (h : n.Spells cs) : Spelling (.scalar (.number n)) cs
  | quoted {us : List Unit16} {cs : List Char} (h : Unit16.Spells us cs) :
      Spelling (.scalar (.ofUnits us)) ('"' :: (cs ++ ['"']))

/-- The characters are spellings of the tokens, one after another, with blanks between them. -/
inductive Spells : List Token → List Char → Prop where
  | nil : Spells [] []
  | blank {c : Char} {ts : List Token} {cs : List Char} (hc : isBlank c = true)
      (h : Spells ts cs) : Spells ts (c :: cs)
  | cons {t : Token} {ts : List Token} {w cs : List Char} (ht : t.Spelling w) (h : Spells ts cs) :
      Spells (t :: ts) (w ++ cs)

/-- The largest number of brackets that are open at once, where `level` are open before. -/
def nesting (level : Nat) : List Token → Nat
  | [] => level
  | t :: ts =>
    match t with
    | .openArray | .openObject => nesting (level + 1) ts
    | .closeArray | .closeObject => max level (nesting (level - 1) ts)
    | _ => nesting level ts

end Token

/-- The text spells the value. -/
def Fragment.SpelledBy (v : Fragment) (text : String) : Prop :=
  Token.Spells v.tokens text.toList

def nesting (text : String) : Nat :=
  Token.nesting 0 (Token.scan text.toList)

end VariantStorage.Json
