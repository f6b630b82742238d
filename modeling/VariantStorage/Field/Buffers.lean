import VariantStorage.Field
import VariantStorage.Storage

/-!
What accessors need beside the place of a field: whether they work on raw bytes, how the elements of
a list are laid out, and the pointer word that they fall back to, of an empty list with the right
element size. The size of an element is the three-bit tag of a list pointer; it comes with the bytes
that one element takes in each section, but bit lists have elements smaller than a byte, so their
widths are absent.
-/
namespace VariantStorage

/-- Whether the accessors of a slot work on raw bytes. -/
def SlotType.isBuffer : SlotType → Bool
  | .builtin .text | .builtin .data | .builtin .float32 | .builtin .float64 => true
  | type => type.isPointer

/-- Whether a field is a slot whose accessors work on raw bytes; a group never is. -/
def Field.isBuffer : Field → Bool
  | .slot _ s => s.type.isBuffer
  | .group _ _ => false

def Field.buffers (fields : List Field) : List Field :=
  fields.filter Field.isBuffer

inductive ListError where
  | group
  | construct (kind : Construct)
  | sizeCode (code : UInt8)
  deriving DecidableEq, Repr

def Construct.title : Construct → String
  | .enum => "Enum"
  | .struct => "Struct"
  | .list => "List"
  | .capability => "Capability"

/-- The message that reports a list without an encoding; a code is written with two hexadecimal
digits. -/
def ListError.message : ListError → String
  | .group => "lists of groups are not supported"
  | .construct kind => "lists of " ++ kind.title ++ " are not supported"
  | .sizeCode code =>
    "invalid list element size code 0x" ++
      String.ofList [Nat.digitChar (code.toNat / 16), Nat.digitChar (code.toNat % 16)]

inductive ElementSize where
  | void
  | bit
  | byte
  | twoBytes
  | fourBytes
  | eightBytes
  | pointer
  | inlineComposite
  deriving DecidableEq, Repr

namespace ElementSize

def name : ElementSize → String
  | .void => "Void"
  | .bit => "Bit"
  | .byte => "Byte"
  | .twoBytes => "TwoBytes"
  | .fourBytes => "FourBytes"
  | .eightBytes => "EightBytes"
  | .pointer => "Pointer"
  | .inlineComposite => "InlineComposite"

def code : ElementSize → UInt8
  | .void => 0
  | .bit => 1
  | .byte => 2
  | .twoBytes => 3
  | .fourBytes => 4
  | .eightBytes => 5
  | .pointer => 6
  | .inlineComposite => 7

/-- The element size with a given tag; a tag has three bits. -/
def ofCode : UInt8 → Except ListError ElementSize
  | 0 => .ok .void
  | 1 => .ok .bit
  | 2 => .ok .byte
  | 3 => .ok .twoBytes
  | 4 => .ok .fourBytes
  | 5 => .ok .eightBytes
  | 6 => .ok .pointer
  | 7 => .ok .inlineComposite
  | code => .error (.sizeCode code)

/-- Every element size is found by its own tag. -/
@[simp] theorem ofCode_code (s : ElementSize) : ofCode s.code = .ok s := by
  cases s <;> rfl

instance : Ord ElementSize where
  compare a b := compare a.code b.code

def ofBuiltin : Builtin → ElementSize
  | .void => .void
  | .bool => .bit
  | .int8 | .uint8 | .data | .text => .byte
  | .int16 | .uint16 => .twoBytes
  | .int32 | .uint32 | .float32 => .fourBytes
  | .int64 | .uint64 | .float64 => .eightBytes
  | .anyPointer => .pointer

/-- The element size in the default pointer of a list. A list of structs has no size of its own
there: its elements are described by a tag word that an empty list does not have. -/
def ofElement : SlotType → Except ListError ElementSize
  | .builtin type => .ok (ofBuiltin type)
  | .construct .enum => .ok .twoBytes
  | .construct .struct => .ok .void
  | .construct .list => .ok .pointer
  | .construct .capability => .error (.construct .capability)

/-- Bytes of one element in the data section; only a composite takes its width from
`dataWords`. -/
def dataBytes (dataWords : UInt64) : ElementSize → Except Overflow (Option UInt64)
  | .void | .pointer => .ok (some 0)
  | .bit => .ok none
  | .byte => .ok (some 1)
  | .twoBytes => .ok (some 2)
  | .fourBytes => .ok (some 4)
  | .eightBytes => .ok (some 8)
  | .inlineComposite => do return some (← Word.mul dataWords Storage.wordBytes)

/-- Bytes of one element in the pointer section; only a composite takes its width from
`pointers`. -/
def pointerBytes (pointers : UInt64) : ElementSize → Except Overflow (Option UInt64)
  | .bit => .ok none
  | .pointer => .ok (some Storage.pointerBytes)
  | .inlineComposite => do return some (← Word.mul pointers Storage.pointerBytes)
  | _ => .ok (some 0)

end ElementSize

namespace ListPointer

/-- The pointer word of a list: its kind in the first byte, and in the fifth the element size with
the low bits of the element count above it. -/
def word (count : UInt8) (size : ElementSize) : List UInt8 :=
  [1, 0, 0, 0, count <<< 3 ||| size.code, 0, 0, 0]

/-- The null pointer of a list of `element`. A text holds its terminator, so its list has one
element, in the word that follows the pointer. -/
def null (element : SlotType) : Except ListError (List UInt8) := do
  let size ← ElementSize.ofElement element
  if element = .builtin .text then
    return word 1 size ++ List.replicate 8 0
  else
    return word 0 size

end ListPointer

end VariantStorage
