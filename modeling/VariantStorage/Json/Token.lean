import VariantStorage.Json.Numeral

/-!
JSON text as a sequence of tokens. Scanning goes on to the first character at which no token of
the grammar begins; there the sequence ends with `malformed`. A quoted text whose escapes hold half
of a surrogate pair is grammatical and yet stands for no text: it has a token of its own.
-/
namespace VariantStorage.Json

inductive Scalar where
  | null
  | bool (b : Bool)
  | number (n : Numeral)
  | text (s : String)
  | unpaired
  deriving DecidableEq, Repr

inductive Token where
  | openArray
  | closeArray
  | openObject
  | closeObject
  | comma
  | colon
  | scalar (s : Scalar)
  | malformed
  deriving DecidableEq, Repr

/-- What one character or escape of a quoted text stands for: a character, or one half of a
surrogate pair. -/
inductive Unit16 where
  | char (c : Char)
  | half (code : Nat)
  deriving DecidableEq, Repr

namespace Unit16

def isHigh (code : Nat) : Bool :=
  0xd800 ≤ code && code < 0xdc00

def isLow (code : Nat) : Bool :=
  0xdc00 ≤ code && code < 0xe000

def ofCode (code : Nat) : Unit16 :=
  if isHigh code || isLow code then .half code else .char (Char.ofNat code)

def pair (high low : Nat) : Char :=
  Char.ofNat (0x10000 + (high - 0xd800) * 0x400 + (low - 0xdc00))

/-- The characters that units stand for, if every half is one of a pair. -/
def join : List Unit16 → Option (List Char)
  | [] => some []
  | .char c :: us => (join us).map (c :: ·)
  | .half high :: .half low :: us =>
    if isHigh high && isLow low then (join us).map (pair high low :: ·) else none
  | .half _ :: _ => none

end Unit16

def hexValue (c : Char) : Option Nat :=
  if '0' ≤ c ∧ c ≤ '9' then some (c.toNat - '0'.toNat)
  else if 'a' ≤ c ∧ c ≤ 'f' then some (c.toNat - 'a'.toNat + 10)
  else if 'A' ≤ c ∧ c ≤ 'F' then some (c.toNat - 'A'.toNat + 10)
  else none

def hexCode (a b c d : Char) : Option Nat := do
  return (((← hexValue a) * 16 + (← hexValue b)) * 16 + (← hexValue c)) * 16 + (← hexValue d)

def escaped : Char → Option Char
  | '"' => some '"'
  | '\\' => some '\\'
  | '/' => some '/'
  | 'b' => some '\x08'
  | 'f' => some '\x0c'
  | 'n' => some '\n'
  | 'r' => some '\r'
  | 't' => some '\t'
  | _ => none

/-- The units up to the closing quotation mark, and what follows it. -/
def readQuoted : List Char → Option (List Unit16 × List Char)
  | [] => none
  | '"' :: cs => some ([], cs)
  | '\\' :: 'u' :: a :: b :: c :: d :: cs => do
    let code ← hexCode a b c d
    let (us, rest) ← readQuoted cs
    return (.ofCode code :: us, rest)
  | '\\' :: e :: cs => do
    let c ← escaped e
    let (us, rest) ← readQuoted cs
    return (.char c :: us, rest)
  | c :: cs =>
    if c = '\\' ∨ c.toNat < 0x20 then none
    else do
      let (us, rest) ← readQuoted cs
      return (.char c :: us, rest)

theorem readQuoted_length {cs rest : List Char} {us : List Unit16}
    (h : readQuoted cs = some (us, rest)) : rest.length < cs.length := by
  fun_induction readQuoted cs generalizing us rest with
  | case1 => simp at h
  | case2 cs => simp_all
  | case3 a b c d cs ih =>
    simp only [Option.bind_eq_bind, Option.bind_eq_some_iff, Prod.exists, Option.pure_def,
      Option.some.injEq, Prod.mk.injEq] at h
    obtain ⟨code, -, us', rest', hr, -, rfl⟩ := h
    have := ih hr
    simp only [List.length_cons]
    omega
  | case4 e cs _ ih =>
    simp only [Option.bind_eq_bind, Option.bind_eq_some_iff, Prod.exists, Option.pure_def,
      Option.some.injEq, Prod.mk.injEq] at h
    obtain ⟨c, -, us', rest', hr, -, rfl⟩ := h
    have := ih hr
    simp only [List.length_cons]
    omega
  | case5 => simp at h
  | case6 c cs _ _ _ _ ih =>
    simp only [Option.bind_eq_bind, Option.bind_eq_some_iff, Prod.exists, Option.pure_def,
      Option.some.injEq, Prod.mk.injEq] at h
    obtain ⟨us', rest', hr, -, rfl⟩ := h
    have := ih hr
    simp only [List.length_cons]
    omega

/-- A quoted text, as the characters it stands for. -/
def Scalar.ofUnits (us : List Unit16) : Scalar :=
  match Unit16.join us with
  | some cs => .text (String.ofList cs)
  | none => .unpaired

namespace Token

def isBlank (c : Char) : Bool :=
  c == ' ' || c == '\t' || c == '\n' || c == '\r'

/-- The token at the head of a text, and what follows it. -/
def read : List Char → Option (Token × List Char)
  | '[' :: cs => some (.openArray, cs)
  | ']' :: cs => some (.closeArray, cs)
  | '{' :: cs => some (.openObject, cs)
  | '}' :: cs => some (.closeObject, cs)
  | ',' :: cs => some (.comma, cs)
  | ':' :: cs => some (.colon, cs)
  | 'n' :: 'u' :: 'l' :: 'l' :: cs => some (.scalar .null, cs)
  | 't' :: 'r' :: 'u' :: 'e' :: cs => some (.scalar (.bool true), cs)
  | 'f' :: 'a' :: 'l' :: 's' :: 'e' :: cs => some (.scalar (.bool false), cs)
  | '"' :: cs => (readQuoted cs).map fun (us, rest) => (.scalar (.ofUnits us), rest)
  | cs => (Numeral.read cs).map fun (n, rest) => (.scalar (.number n), rest)

theorem read_length {cs rest : List Char} {t : Token} (h : read cs = some (t, rest)) :
    rest.length < cs.length := by
  unfold read at h
  split at h
  case h_10 =>
    simp only [Option.map_eq_some_iff, Prod.exists, Prod.mk.injEq] at h
    obtain ⟨us, r, hr, -, rfl⟩ := h
    have := readQuoted_length hr
    simp only [List.length_cons]
    omega
  case h_11 =>
    simp only [Option.map_eq_some_iff, Prod.exists, Prod.mk.injEq] at h
    obtain ⟨n, r, hr, -, rfl⟩ := h
    exact Numeral.read_length hr
  all_goals
    simp only [Option.some.injEq, Prod.mk.injEq] at h
    obtain ⟨-, rfl⟩ := h
    simp only [List.length_cons]
    omega

def scan : List Char → List Token
  | [] => []
  | c :: cs =>
    if isBlank c then scan cs
    else
      match _h : read (c :: cs) with
      | some (t, rest) => t :: scan rest
      | none => [.malformed]
termination_by cs => cs.length
decreasing_by
  · simp
  · exact read_length ‹_›

/-- The letter by which a character is written after a backslash. A slash is written as it is. -/
def letterOf : Char → Option Char
  | '"' => some '"'
  | '\\' => some '\\'
  | '\x08' => some 'b'
  | '\x0c' => some 'f'
  | '\n' => some 'n'
  | '\r' => some 'r'
  | '\t' => some 't'
  | _ => none

theorem escaped_of_letterOf {c e : Char} (h : letterOf c = some e) : escaped e = some c := by
  unfold letterOf at h
  split at h <;> cases h <;> rfl

/-- A character as it stands in quoted text; a control that has no letter is written by its code. -/
def writeChar (c : Char) : List Char :=
  match letterOf c with
  | some e => ['\\', e]
  | none =>
    if c.toNat < 0x20 then
      ['\\', 'u', '0', '0', Nat.digitChar (c.toNat / 16), Nat.digitChar (c.toNat % 16)]
    else [c]

example : ['a', '\n', '\x0b', '/'].flatMap writeChar =
    ['a', '\\', 'n', '\\', 'u', '0', '0', '0', 'b', '/'] := by decide +kernel

/-- A token as text. The two tokens that stand for no text are written as nothing. -/
def chars : Token → List Char
  | .openArray => ['[']
  | .closeArray => [']']
  | .openObject => ['{']
  | .closeObject => ['}']
  | .comma => [',']
  | .colon => [':']
  | .scalar .null => ['n', 'u', 'l', 'l']
  | .scalar (.bool true) => ['t', 'r', 'u', 'e']
  | .scalar (.bool false) => ['f', 'a', 'l', 's', 'e']
  | .scalar (.number n) => n.chars
  | .scalar (.text s) => '"' :: s.toList.flatMap writeChar ++ ['"']
  | .scalar .unpaired => []
  | .malformed => []

end Token

end VariantStorage.Json
