import VariantStorage.Field.Buffers
import VariantStorage.Record.Basic

/-!
Reading records from JSON. A field record may leave out any member; a struct record must have its
fields. A list element is the name of a type, or an object whose member `meta` names a construct:
its whole value is read before either form is tried, so it has to be readable throughout, and if
neither form fits, that alone is reported, and not what is wrong with either.
-/
namespace VariantStorage

open Json (Fragment ReadError Shape)

namespace FieldRecord

inductive Key where
  | offset
  | type
  | kind
  | discriminant
  | fields
  deriving DecidableEq, Repr

def Key.name : Key → String
  | .offset => "offset"
  | .type => "type"
  | .kind => "meta"
  | .discriminant => "discriminantValue"
  | .fields => "fields"

def blank : FieldRecord :=
  ⟨none, none, none, noDiscriminant, none⟩

def shape : Shape Key FieldRecord where
  wanted := .fieldRecord
  keys := [.offset, .type, .kind, .discriminant, .fields]
  name := Key.name
  required := false
  blank := blank

def set (room : Nat) (readFields : Fragment → Except ReadError (List FieldRecord)) (key : Key)
    (v : Fragment) (r : FieldRecord) : Except ReadError FieldRecord :=
  match key with
  | .offset => do return { r with offset := ← Json.readOption Json.readWord64 v }
  | .type => do return { r with type := ← Json.readOption (TypeName.names.read room) v }
  | .kind => do return { r with kind := ← Json.readOption (Construct.names.read room) v }
  | .discriminant => do return { r with discriminant := ← Json.readWord16 v }
  | .fields => do return { r with fields := ← Json.readOption readFields v }

/-- A field record. Between a record and the records of its members lie two brackets: its own, and
that of the array. -/
def read : Nat → Fragment → Except ReadError FieldRecord
  | 0 => shape.read (set 0 (Json.readList (fun _ => .error .malformed) 0)) 0
  | 1 => shape.read (set 0 (Json.readList (fun _ => .error .malformed) 0)) 1
  | room + 2 =>
    shape.read (set (room + 1) (Json.readList (read room) (room + 1))) (room + 2)

def readList (room : Nat) : Fragment → Except ReadError (List FieldRecord) :=
  Json.readList (read (room - 1)) room

def ofText (text : String) : Except ReadError (List FieldRecord) :=
  Json.readText (readList Json.maxDepth) text

end FieldRecord

namespace StructRecord

inductive Key where
  | fields
  deriving DecidableEq, Repr

def shape : Shape Key StructRecord where
  wanted := .structRecord
  keys := [.fields]
  name := fun _ => "fields"
  required := true
  blank := ⟨[]⟩

def read (room : Nat) : Fragment → Except ReadError StructRecord :=
  shape.read (fun _ v _ => (FieldRecord.readList (room - 1) v).map StructRecord.mk) room

def ofText (text : String) : Except ReadError StructRecord :=
  Json.readText (read Json.maxDepth) text

end StructRecord

inductive ElementRecord where
  | type (name : TypeName)
  | construct (kind : Construct)
  deriving DecidableEq, Repr

namespace ElementRecord

inductive Key where
  | kind
  deriving DecidableEq, Repr

/-- The form of an object that names a construct. -/
def shape : Json.Shape Key Construct where
  wanted := .constructRecord
  keys := [.kind]
  name := fun _ => "meta"
  required := true
  blank := .enum

/-- The construct that an object names in its member `meta`; an array names none. The value has been
read before, so the room in it is not counted down again. -/
def readConstruct (room : Nat) : Fragment → Except ReadError Construct
  | .array _ => Json.refuse (some .array) shape.wanted
  | v => shape.read (fun _ w _ => Construct.names.read room w) room v

def read (room : Nat) (v : Fragment) : Except ReadError ElementRecord :=
  if v.isReadable room then
    match TypeName.names.read room v, readConstruct room v with
    | .ok name, _ => .ok (.type name)
    | _, .ok kind => .ok (.construct kind)
    | _, _ => .error (.data .noAlternative)
  else
    .error .malformed

def ofText (text : String) : Except ReadError ElementRecord :=
  Json.readText (read Json.maxDepth) text

/-- The type of the elements; a group is no element. -/
def toSlotType : ElementRecord → Except ListError SlotType
  | .type (.builtin b) => .ok (.builtin b)
  | .type .group => .error .group
  | .construct kind => .ok (.construct kind)

end ElementRecord

end VariantStorage
