import VariantStorage.Field
import VariantStorage.Json.Reader

/-!
Records: fields as a schema front end describes them. A record is looser than a field. It may name a
type, a construct, both or neither; its offset and its members may be absent; and a discriminant
that is all ones marks a field outside the union.

In the field that a record describes, a construct wins over a type beside it; a slot needs an
offset, and a group needs members. The first record that lacks something is reported, where a group
stands before its members. The members of a record that is no group are never looked at.
-/
namespace VariantStorage

inductive TypeName where
  | builtin (type : Builtin)
  | group
  deriving DecidableEq, Repr

namespace TypeName

def name : TypeName → String
  | .builtin type => type.name
  | .group => "group"

/-- The type names, in the order in which messages list them. -/
def all : List TypeName :=
  Builtin.all.map .builtin ++ [.group]

theorem mem_all (t : TypeName) : t ∈ all := by
  cases t with
  | builtin b => simp [all, Builtin.mem_all]
  | group => simp [all]

def names : Json.Names TypeName :=
  ⟨all, name⟩

end TypeName

def Construct.names : Json.Names Construct :=
  ⟨all, name⟩

/-- A field as a record describes it. -/
structure FieldRecord where
  offset : Option UInt64
  type : Option TypeName
  kind : Option Construct
  discriminant : UInt16
  fields : Option (List FieldRecord)
  deriving Repr

/-- The discriminant of a field outside the union. -/
def FieldRecord.noDiscriminant : UInt16 := 0xffff

structure StructRecord where
  fields : List FieldRecord
  deriving Repr

inductive RecordError where
  | kind
  | offset
  | members
  deriving DecidableEq, Repr

def RecordError.message : RecordError → String
  | .kind => "field has neither a type nor a meta"
  | .offset => "field has no offset"
  | .members => "group field has no member fields"

namespace FieldRecord

def tagOf (discriminant : UInt16) : Option UInt16 :=
  if discriminant = noDiscriminant then none else some discriminant

/-- A slot, which must have an offset. -/
def toSlot (discriminant : UInt16) (type : SlotType) : Option UInt64 → Except RecordError Field
  | some offset => .ok (.slot (tagOf discriminant) ⟨type, offset⟩)
  | none => .error .offset

mutual

def toField : FieldRecord → Except RecordError Field
  | ⟨offset, _, some kind, discriminant, _⟩ => toSlot discriminant (.construct kind) offset
  | ⟨offset, some (.builtin type), none, discriminant, _⟩ =>
    toSlot discriminant (.builtin type) offset
  | ⟨_, some .group, none, discriminant, some fields⟩ => do
    return .group (tagOf discriminant) (← toFields fields)
  | ⟨_, some .group, none, _, none⟩ => .error .members
  | ⟨_, none, none, _, _⟩ => .error .kind

def toFields : List FieldRecord → Except RecordError (List Field)
  | [] => .ok []
  | r :: rs => do
    let f ← r.toField
    let fs ← toFields rs
    return f :: fs

end

def discriminantOf (tag : Option UInt16) : UInt16 :=
  tag.getD noDiscriminant

mutual

def ofField : Field → FieldRecord
  | .slot tag ⟨.builtin type, offset⟩ =>
    ⟨some offset, some (.builtin type), none, discriminantOf tag, none⟩
  | .slot tag ⟨.construct kind, offset⟩ =>
    ⟨some offset, none, some kind, discriminantOf tag, none⟩
  | .group tag members =>
    ⟨none, some .group, none, discriminantOf tag, some (ofFields members)⟩

def ofFields : List Field → List FieldRecord
  | [] => []
  | f :: fs => ofField f :: ofFields fs

end

end FieldRecord

end VariantStorage
