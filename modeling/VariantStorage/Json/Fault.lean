import VariantStorage.Json.Token
import VariantStorage.Text.Quoted

/-!
Why a text is not read. Either it is not JSON up to the point where reading stops, or it is, and
what it holds there is not what is wanted; of the second kind each fault has a message.
-/
namespace VariantStorage.Json

/-- What stands in a text where something else is wanted. -/
inductive Found where
  | null
  | bool (b : Bool)
  | number (n : Number)
  | text (s : String)
  | array
  | object
  deriving DecidableEq, Repr

inductive Wanted where
  | word64
  | word16
  | word8
  | null
  | name
  | array
  | fieldRecord
  | structRecord
  | constructRecord
  | range
  | mask
  deriving DecidableEq, Repr

/-- A fault in grammatical text. -/
inductive Fault where
  | wrongKind (found : Found) (wanted : Wanted)
  | outOfRange (n : Int) (wanted : Wanted)
  | duplicate (key : String)
  | missing (key : String)
  | tooShort (length : Nat) (wanted : Wanted) (fields : Nat)
  | unknownName (name : String) (known : List String)
  | noAlternative
  deriving DecidableEq, Repr

inductive ReadError where
  | malformed
  | data (fault : Fault)
  deriving DecidableEq, Repr

/-- An error as it is reported. Where something other than a text stands in place of the key that
names an element, as in `{5:null}`, the reader finds a value of the wrong kind, and the fault has a
message. But every answer that was observed to such a text is the one to malformed text, and the
report follows the answers. -/
def ReadError.reported : ReadError → ReadError
  | .data (.wrongKind _ .name) => .malformed
  | e => e

/-- How messages write binary64 numbers: positional from `0.00001` to below `10 ^ 16`. -/
def floatFormat : Decimal.FloatFormat :=
  ⟨-5, 15, 'e'⟩

example : floatFormat.chars ⟨15, -1⟩ = ['1', '.', '5'] := by decide +kernel

example : floatFormat.chars ⟨1, 2⟩ = ['1', '0', '0', '.', '0'] := by decide +kernel

example : floatFormat.chars ⟨125, 14⟩ = ['1', '.', '2', '5', 'e', '+', '1', '6'] := by
  decide +kernel

def integerText (n : Int) : String :=
  if n < 0 then "-" ++ Decimal.text n.natAbs else Decimal.text n.natAbs

/-- A binary64 number: the shortest decimal that reads back, with its sign also at zero. -/
def floatText (negative : Bool) (x : Decimal.Binary64) : String :=
  let magnitude := if x.isZero then ['0', '.', '0'] else floatFormat.chars x.shortest
  String.ofList (if negative then '-' :: magnitude else magnitude)

def marked (s : String) : String :=
  "`" ++ s ++ "`"

def Found.message : Found → String
  | .null => "null"
  | .bool true => "boolean " ++ marked "true"
  | .bool false => "boolean " ++ marked "false"
  | .number (.integer n) => "integer " ++ marked (integerText n)
  | .number (.float negative x) => "floating point " ++ marked (floatText negative x)
  | .text s => "string " ++ Text.quoted s
  | .array => "sequence"
  | .object => "map"

def Wanted.message : Wanted → String
  | .word64 => "usize"
  | .word16 => "u16"
  | .word8 => "u8"
  | .null => "unit"
  | .name => "variant identifier"
  | .array => "a sequence"
  | .fieldRecord => "struct FieldDef"
  | .structRecord => "struct StructDef"
  | .constructRecord => "struct variant ListElementDef::Meta"
  | .range => "struct Range"
  | .mask => "struct MaskEntry"

/-- The message that reports a fault, without the line and column where reading stopped. -/
def Fault.message : Fault → String
  | .wrongKind found wanted => "invalid type: " ++ found.message ++ ", expected " ++ wanted.message
  | .outOfRange n wanted =>
    "invalid value: integer " ++ marked (integerText n) ++ ", expected " ++ wanted.message
  | .duplicate key => "duplicate field " ++ marked key
  | .missing key => "missing field " ++ marked key
  | .tooShort length wanted fields =>
    "invalid length " ++ Decimal.text length ++ ", expected " ++ wanted.message ++ " with " ++
      Decimal.text fields ++ if fields = 1 then " element" else " elements"
  | .unknownName name known =>
    "unknown variant " ++ marked name ++ ", expected one of " ++
      String.intercalate ", " (known.map marked)
  | .noAlternative => "data did not match any variant of untagged enum ListElementDef"

end VariantStorage.Json
