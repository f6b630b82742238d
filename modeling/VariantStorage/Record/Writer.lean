import VariantStorage.Record.Basic

/-!
Writing records as compact JSON. Members that are absent are left out; the discriminant is always
written.
-/
namespace VariantStorage

open Json (Fragment)

namespace FieldRecord

/-- A member that is left out if it is absent. -/
def optional {α : Type} (key : String) (write : α → Fragment) :
    Option α → List (Json.Key × Fragment)
  | some a => [(.text key, write a)]
  | none => []

mutual

def fragment : FieldRecord → Fragment
  | ⟨offset, type, kind, discriminant, fields⟩ =>
    .object
      (optional "offset" (fun n => .ofNat n.toNat) offset ++
        optional "type" (fun t => .ofName t.name) type ++
        optional "meta" (fun c => .ofName c.name) kind ++
        [(.text "discriminantValue", .ofNat discriminant.toNat)] ++
        match fields with
        | some fs => [(.text "fields", .array (fragments fs))]
        | none => [])

def fragments : List FieldRecord → List Fragment
  | [] => []
  | r :: rs => r.fragment :: fragments rs

end

def listText (rs : List FieldRecord) : String :=
  (Fragment.array (fragments rs)).text

end FieldRecord

def StructRecord.fragment (r : StructRecord) : Fragment :=
  .object [(.text "fields", .array (FieldRecord.fragments r.fields))]

def StructRecord.text (r : StructRecord) : String :=
  r.fragment.text

end VariantStorage
