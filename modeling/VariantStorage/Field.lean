import VariantStorage.Storage

/-!
The fields of a struct. A field is a slot of the struct's storage or a group of further fields,
and it may carry a tag: the discriminant under which it is a variant of the struct's union.

A field claims of its struct's storage bits of the data section, byte ranges of the data section,
and bytes of the pointer section at which a pointer starts. A slot claims at most one of the three,
and a group claims what its members claim, in their order.
-/
namespace VariantStorage

/-- Types that every schema knows. -/
inductive Builtin where
  | void
  | bool
  | int8
  | int16
  | int32
  | int64
  | uint8
  | uint16
  | uint32
  | uint64
  | float32
  | float64
  | text
  | data
  | anyPointer
  deriving DecidableEq, Repr

/-- Types that a schema declares or builds from others. -/
inductive Construct where
  | enum
  | struct
  | list
  | capability
  deriving DecidableEq, Repr

namespace Builtin

def name : Builtin → String
  | .void => "Void"
  | .bool => "Bool"
  | .int8 => "Int8"
  | .int16 => "Int16"
  | .int32 => "Int32"
  | .int64 => "Int64"
  | .uint8 => "UInt8"
  | .uint16 => "UInt16"
  | .uint32 => "UInt32"
  | .uint64 => "UInt64"
  | .float32 => "Float32"
  | .float64 => "Float64"
  | .text => "Text"
  | .data => "Data"
  | .anyPointer => "AnyPointer"

/-- The builtin types, in the order in which messages list them. -/
def all : List Builtin :=
  [.void, .bool, .int8, .int16, .int32, .int64, .uint8, .uint16, .uint32, .uint64,
    .float32, .float64, .text, .data, .anyPointer]

theorem mem_all (b : Builtin) : b ∈ all := by
  cases b <;> decide

end Builtin

namespace Construct

def name : Construct → String
  | .enum => "enum"
  | .struct => "struct"
  | .list => "list"
  | .capability => "capability"

def all : List Construct :=
  [.enum, .struct, .list, .capability]

theorem mem_all (c : Construct) : c ∈ all := by
  cases c <;> decide

end Construct

inductive SlotType where
  | builtin (type : Builtin)
  | construct (kind : Construct)
  deriving DecidableEq, Repr

/-- Bytes of a builtin type in the data section; none for `void`, `bool` and what is stored behind
a pointer. -/
def Builtin.dataWidth : Builtin → Option UInt64
  | .int8 | .uint8 => some 1
  | .int16 | .uint16 => some 2
  | .int32 | .uint32 | .float32 => some 4
  | .int64 | .uint64 | .float64 => some 8
  | .void | .bool | .text | .data | .anyPointer => none

/-- Bytes of a slot in the data section: an enum is stored as its 16-bit ordinal. -/
def SlotType.dataWidth : SlotType → Option UInt64
  | .builtin type => type.dataWidth
  | .construct .enum => some 2
  | .construct _ => none

/-- Whether a slot is one of the pointers that a reset clears; text and data are left to their own
accessors. -/
def SlotType.isPointer : SlotType → Bool
  | .builtin .anyPointer | .construct .struct | .construct .list => true
  | _ => false

/-- A place in a struct's storage. The offset counts in units of the type's own width: bits for
`bool`, pointers for what is stored behind one. -/
structure Slot where
  type : SlotType
  offset : UInt64
  deriving DecidableEq, Repr

/-- A field of a struct: a slot, or a group of fields under one tag. -/
inductive Field where
  | slot (tag : Option UInt16) (slot : Slot)
  | group (tag : Option UInt16) (members : List Field)
  deriving Repr

namespace Field

/-- The discriminant of the variant that the field is, if it is one. -/
def tag : Field → Option UInt16
  | .slot tag _ => tag
  | .group tag _ => tag

def withTag (d : UInt16) : Field → Field
  | .slot _ s => .slot (some d) s
  | .group _ members => .group (some d) members

def isVariant (f : Field) : Bool :=
  f.tag.isSome

@[simp] theorem tag_withTag (d : UInt16) (f : Field) : (f.withTag d).tag = some d := by
  cases f <;> rfl

@[simp] theorem isVariant_withTag (d : UInt16) (f : Field) : (f.withTag d).isVariant = true := by
  simp [isVariant]

mutual

/-- The slots of a field, in the order in which its groups list them. -/
def leaves : Field → List Slot
  | .slot _ s => [s]
  | .group _ members => leavesAll members

def leavesAll : List Field → List Slot
  | [] => []
  | f :: fs => f.leaves ++ leavesAll fs

end

def variants (fields : List Field) : List Field :=
  fields.filter isVariant

end Field

namespace Slot

def bits (s : Slot) : List UInt64 :=
  if s.type = .builtin .bool then [s.offset] else []

def bytes (s : Slot) : Except Overflow (List ByteRange) :=
  match s.type.dataWidth with
  | some width => do return [⟨← Word.mul width s.offset, width⟩]
  | none => .ok []

def pointers (s : Slot) : Except Overflow (List UInt64) :=
  if s.type.isPointer then do return [← Storage.pointerPosition s.offset] else .ok []

end Slot

namespace Field

mutual

/-- Every bit that a boolean of the field claims. -/
def bits : Field → List UInt64
  | .slot _ s => s.bits
  | .group _ members => bitsAll members

def bitsAll : List Field → List UInt64
  | [] => []
  | f :: fs => f.bits ++ bitsAll fs

end

mutual

/-- Every byte range that a number or an enum of the field claims. -/
def bytes : Field → Except Overflow (List ByteRange)
  | .slot _ s => s.bytes
  | .group _ members => bytesAll members

def bytesAll : List Field → Except Overflow (List ByteRange)
  | [] => .ok []
  | f :: fs => do
    let here ← f.bytes
    let later ← bytesAll fs
    return here ++ later

end

mutual

/-- Every pointer that the field claims. -/
def pointers : Field → Except Overflow (List UInt64)
  | .slot _ s => s.pointers
  | .group _ members => pointersAll members

def pointersAll : List Field → Except Overflow (List UInt64)
  | [] => .ok []
  | f :: fs => do
    let here ← f.pointers
    let later ← pointersAll fs
    return here ++ later

end

end Field

end VariantStorage
