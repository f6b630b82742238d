import VariantStorage.Json.Fault
import VariantStorage.Json.Fragment

/-!
Typed reading of fragments, in the order of the text. What stands in the tree before the fault that
is reported has been read, and nothing after it has been looked at. A bracket takes one unit of
`room`; a bracket that finds none left is malformed.

A bracket of the wrong kind is reported without looking inside it. A scalar of the wrong kind is
reported only if it stands for a value: a number that is not finite and an unpaired surrogate are
malformed.
-/
namespace VariantStorage.Json

/-- Brackets that may be open at once in text that is read for its content. -/
def maxDepth : Nat := 127

/-- What a scalar is, if it stands for a value. -/
def Scalar.found : Scalar → Option Found
  | .null => some .null
  | .bool b => some (.bool b)
  | .number n => n.value.map .number
  | .text s => some (.text s)
  | .unpaired => none

/-- What a value that begins with a token is, if one does. -/
def Token.found : Token → Option Found
  | .scalar s => s.found
  | .openArray => some .array
  | .openObject => some .object
  | _ => none

def Fragment.found : Fragment → Option Found
  | .cut => none
  | .scalar s => s.found
  | .array _ => some .array
  | .object _ => some .object

/-- Whether a value can be read for its content: nothing is cut, numbers are finite, texts are made
of characters, and at most `room` brackets are open at once. -/
def Fragment.isReadable : Nat → Fragment → Bool
  | _, .cut => false
  | _, .scalar s => s.found.isSome
  | 0, _ => false
  | room + 1, .array items => items.all (isReadable room)
  | room + 1, .object members => members.all fun (key, v) =>
    key.isText && isReadable room v

/-- The fault of something that is not what is wanted. -/
def refuse {α : Type} (found : Option Found) (wanted : Wanted) : Except ReadError α :=
  match found with
  | some found => .error (.data (.wrongKind found wanted))
  | none => .error .malformed

def readNull : Fragment → Except ReadError Unit
  | .scalar .null => .ok ()
  | v => refuse v.found .null

/-- A natural number below `bound`, written as an integer. -/
def readNat (wanted : Wanted) (bound : Nat) : Fragment → Except ReadError Nat
  | .scalar (.number n) =>
    match n.value with
    | some (.integer i) =>
      if 0 ≤ i ∧ i < bound then .ok i.toNat else .error (.data (.outOfRange i wanted))
    | value => refuse (value.map .number) wanted
  | v => refuse v.found wanted

def readWord64 (v : Fragment) : Except ReadError UInt64 :=
  (readNat .word64 UInt64.size v).map UInt64.ofNat

def readWord16 (v : Fragment) : Except ReadError UInt16 :=
  (readNat .word16 UInt16.size v).map UInt16.ofNat

def readWord8 (v : Fragment) : Except ReadError UInt8 :=
  (readNat .word8 UInt8.size v).map UInt8.ofNat

def readOption {α : Type} (read : Fragment → Except ReadError α) :
    Fragment → Except ReadError (Option α)
  | .scalar .null => .ok none
  | v => (read v).map some

/-- A finite type whose elements have names. -/
structure Names (α : Type) where
  all : List α
  name : α → String

namespace Names

variable {α : Type} (names : Names α)

def find? (s : String) : Option α :=
  names.all.find? fun a => names.name a == s

def ofText (s : String) : Except ReadError α :=
  match names.find? s with
  | some a => .ok a
  | none => .error (.data (.unknownName s (names.all.map names.name)))

/-- The element that a key names. Where something else begins in its place, that is refused. -/
def ofKey : Key → Except ReadError α
  | .text s => names.ofText s
  | .unpaired => .error .malformed
  | .missing t => refuse t.found .name

/-- A name, as a text or as the only key of an object that holds null. A value of another kind is
malformed, and so is a second key. -/
def read (room : Nat) : Fragment → Except ReadError α
  | .scalar (.text s) => names.ofText s
  | .object ((key, payload) :: more) =>
    if room = 0 then .error .malformed
    else do
      let a ← names.ofKey key
      readNull payload
      if more.isEmpty then .ok a else .error .malformed
  | _ => .error .malformed

end Names

def readList {α : Type} (item : Fragment → Except ReadError α) (room : Nat) :
    Fragment → Except ReadError (List α)
  | .array items => if room = 0 then .error .malformed else items.mapM item
  | v => refuse v.found .array

/-- A record with named fields. It is written as an object with the fields in any order, or as an
array of their values in the order of `keys`. Either all fields are required or none is. -/
structure Shape (κ σ : Type) where
  wanted : Wanted
  keys : List κ
  name : κ → String
  required : Bool
  blank : σ

namespace Shape

variable {κ σ : Type} [DecidableEq κ] (shape : Shape κ σ)
  (set : κ → Fragment → σ → Except ReadError σ)

def find? (s : String) : Option κ :=
  shape.keys.find? fun k => shape.name k == s

/-- The members of an object. A second member for one field is refused at its key, and the value of
a key that is no field only has to be grammatical. -/
def readMembers : List κ → σ → List (Key × Fragment) → Except ReadError (List κ × σ)
  | seen, record, [] => .ok (seen, record)
  | seen, record, (.text s, v) :: ms =>
    match shape.find? s with
    | some k =>
      if k ∈ seen then .error (.data (.duplicate s))
      else do
        let record ← set k v record
        readMembers (k :: seen) record ms
    | none => if v.isWhole then readMembers seen record ms else .error .malformed
  | _, _, _ :: _ => .error .malformed

/-- The items of an array, one for each field; returns the fields that the array leaves out. -/
def readItems : List κ → σ → List Fragment → Except ReadError (List κ × σ)
  | keys, record, [] => .ok (keys, record)
  | k :: keys, record, v :: vs => do
    let record ← set k v record
    readItems keys record vs
  | [], _, _ :: _ => .error .malformed

def read (room : Nat) : Fragment → Except ReadError σ
  | .object members =>
    if room = 0 then .error .malformed
    else do
      let (seen, record) ← shape.readMembers set [] shape.blank members
      match shape.keys.find? fun k => shape.required && !seen.contains k with
      | some k => .error (.data (.missing (shape.name k)))
      | none => .ok record
  | .array items =>
    if room = 0 then .error .malformed
    else do
      let (omitted, record) ← readItems set shape.keys shape.blank items
      if shape.required && !omitted.isEmpty then
        let count := shape.keys.length
        .error (.data (.tooShort (count - omitted.length) shape.wanted count))
      else
        .ok record
  | v => refuse v.found shape.wanted

end Shape

/-- Reads a document that holds one value and nothing after it. What follows the value is looked at
last. -/
def readDocument {α : Type} (read : Fragment → Except ReadError α) (document : Document) :
    Except ReadError α := do
  let a ← read document.value
  if document.trailed then .error .malformed else .ok a

/-- Reads a text, and reports what is found in it. -/
def readText {α : Type} (read : Fragment → Except ReadError α) (text : String) :
    Except ReadError α :=
  (readDocument read (.ofText text)).mapError ReadError.reported

end VariantStorage.Json
