import VariantStorage.Field.Buffers
import VariantStorage.Record.Basic
import VariantStorage.Record.Reader
import VariantStorage.Union.Layout

/-!
What is computed from the text of a schema: the fields of a struct, the layout of its union, and the
null pointer of a list. A text is read first, then its records are converted, then storage is
resolved; the first of these that fails is the failure of the whole.
-/
namespace VariantStorage

inductive Failure where
  | text (e : Json.ReadError)
  | record (e : RecordError)
  | list (e : ListError)
  | storage (e : Overflow)
  deriving DecidableEq, Repr

namespace Schema

def fields (text : String) : Except Failure (List Field) := do
  let records ← (FieldRecord.ofText text).mapError .text
  (FieldRecord.toFields records).mapError .record

/-- The layout of the union of the struct whose fields an array of field records describes. -/
def fieldsLayout (text : String) : Except Failure UnionLayout := do
  let fields ← fields text
  (UnionLayout.resolve fields).mapError .storage

/-- The layout of the union of the struct that a struct record describes. -/
def layout (text : String) : Except Failure UnionLayout := do
  let struct ← (StructRecord.ofText text).mapError .text
  let fields ← (FieldRecord.toFields struct.fields).mapError .record
  (UnionLayout.resolve fields).mapError .storage

def element (text : String) : Except Failure SlotType := do
  let record ← (ElementRecord.ofText text).mapError .text
  record.toSlotType.mapError .list

def listPointer (text : String) : Except Failure (SlotType × List UInt8) := do
  let element ← element text
  let pointer ← (ListPointer.null element).mapError .list
  return (element, pointer)

end Schema

end VariantStorage
