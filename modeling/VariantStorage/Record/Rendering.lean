import Mathlib.Data.List.Forall2
import VariantStorage.Record.Reader

/-!
The JSON values that stand for records, said without a reader. A record is an object with its
fields in any order, beside which any other keys may stand, or an array of its values; an optional
value may be null or left out; a name is a text or the only key of an object. `room` bounds the
brackets around what is looked at: what stands under a key that is no field may nest as deep as it
likes.
-/
namespace VariantStorage

/-- The values that the members of an object have under one key. -/
def ElementRecord.valuesOf (key : String) (members : List (Json.Key × Json.Fragment)) :
    List Json.Fragment :=
  (members.filter fun m => m.1 == .text key).map Prod.snd

namespace Json

/-- Null stands for no value. -/
def Nullable {α : Type} (R : Fragment → α → Prop) (v : Fragment) : Option α → Prop
  | none => v = .scalar .null
  | some a => R v a

/-- What a record holds where these values are given to one of its fields: at most one may be. -/
inductive Given {α : Type} (R : Fragment → α → Prop) (default : α) : List Fragment → α → Prop where
  | absent : Given R default [] default
  | present {v : Fragment} {a : α} (h : R v a) : Given R default [v] a

/-- A name as a text, or as the only key of an object that holds null. -/
inductive Names.Renders {α : Type} (names : Names α) (room : Nat) : Fragment → α → Prop where
  | text (a : α) : Renders names room (.scalar (.text (names.name a))) a
  | key (a : α) (h : 0 < room) :
      Renders names room (.object [(.text (names.name a), .scalar .null)]) a

/-- The keys of an object are texts; under one that is no field any grammatical value may stand. -/
def Shape.Admits {κ σ : Type} (shape : Shape κ σ) (m : Key × Fragment) : Prop :=
  ∃ s, m.1 = .text s ∧ ((∀ k, shape.name k ≠ s) → m.2.isWhole = true)

/-- The values that are given to each field of a record: by the members of an object under the name
of the field, or by the items of an array, which may be shorter than the record. -/
inductive Shape.Presents {κ σ : Type} [DecidableEq κ] (shape : Shape κ σ) :
    Fragment → (κ → List Fragment) → Prop where
  | object {members : List (Key × Fragment)} (h : ∀ m ∈ members, shape.Admits m) :
      Presents shape (.object members) fun k => ElementRecord.valuesOf (shape.name k) members
  | array {items : List Fragment} (h : items.length ≤ shape.keys.length) :
      Presents shape (.array items) fun k => items[shape.keys.idxOf k]?.toList

end Json

open Json (Fragment Given Nullable)

namespace FieldRecord

mutual

def Renders : Nat → Fragment → FieldRecord → Prop
  | 0, _, _ => False
  | room + 1, v, r => ∃ values, shape.Presents v values ∧
      Given (Nullable fun v n => v = .ofNat n.toNat) none (values .offset) r.offset ∧
      Given (Nullable (TypeName.names.Renders room)) none (values .type) r.type ∧
      Given (Nullable (Construct.names.Renders room)) none (values .kind) r.kind ∧
      Given (fun v d => v = .ofNat d.toNat) noDiscriminant (values .discriminant) r.discriminant ∧
      Given (Nullable (RendersList room)) none (values .fields) r.fields

def RendersList : Nat → Fragment → List FieldRecord → Prop
  | 0, _, _ => False
  | room + 1, v, rs => ∃ items, v = .array items ∧ List.Forall₂ (Renders room) items rs

end

end FieldRecord

/-- The value stands for the struct record, whose fields must be given. -/
def StructRecord.Renders : Nat → Fragment → StructRecord → Prop
  | 0, _, _ => False
  | room + 1, v, r => ∃ values fields, shape.Presents v values ∧ values .fields = [fields] ∧
      FieldRecord.RendersList room fields r.fields

end VariantStorage
