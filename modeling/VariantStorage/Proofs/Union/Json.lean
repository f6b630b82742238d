import VariantStorage.Proofs.Record.Writing
import VariantStorage.Union.Json

/-!
Byte ranges, masks and layouts as text. Ranges and masks are records whose fields are numbers, all
of them required. A text is read as such a record exactly if it spells a value that gives each field
its number and no second one, as an object or as an array; and the text that is written for a record
is one of these.

A compact text spells one value only, and in the value of a layout each mask, range and pointer
stands in its place with all its numbers; so two layouts with one text are equal.
-/
namespace VariantStorage

open Json (Fragment ReadError)

namespace Json

/-- The object that gives the fields these numbers, in the order of the fields. -/
def Shape.numbers {κ σ : Type} (shape : Shape κ σ) (number : κ → Nat) : Fragment :=
  .object (shape.members fun k => [.ofNat (number k)])

/-- The value gives each field its number and nothing else. -/
def Shape.PresentsNumbers {κ σ : Type} [DecidableEq κ] (shape : Shape κ σ) (v : Fragment)
    (number : κ → Nat) : Prop :=
  shape.Presents v fun k => [.ofNat (number k)]

theorem Shape.writable_numbers {κ σ : Type} (shape : Shape κ σ) (number : κ → Nat) :
    (shape.numbers number).Writable := by
  apply Fragment.writable_object
  intro m hm
  obtain ⟨k, hkey, hv⟩ := mem_members hm
  rw [hkey, List.mem_singleton.1 hv]
  exact ⟨rfl, Fragment.writable_scalar rfl⟩

/-- A record whose fields are numbers, all of them required. -/
structure NumberRecord (κ σ : Type) where
  shape : Shape κ σ
  complete : shape.names.Complete
  required : shape.required = true
  parts : Parts κ σ
  read : (k : κ) → Fragment → Except ReadError (parts.Part k)
  number : (k : κ) → parts.Part k → Nat
  read_eq_ok : ∀ k v a, read k v = .ok a ↔ v = .ofNat (number k a)

namespace NumberRecord

variable {κ σ : Type} (record : NumberRecord κ σ)

def numbersOf (r : σ) (k : κ) : Nat :=
  record.number k (record.parts.get k r)

variable [DecidableEq κ]

def ofText (text : String) : Except ReadError σ :=
  readText (record.shape.read (record.parts.set record.read) maxDepth) text

variable {record} {r : σ}

/-- A record is read from a value that gives its fields their numbers. -/
theorem shape_read_eq_ok {room : Nat} {v : Fragment} :
    record.shape.read (record.parts.set record.read) room v = .ok r ↔
      0 < room ∧ record.shape.PresentsNumbers v (record.numbersOf r) := by
  rw [Shape.read_eq_ok record.complete record.read_eq_ok]
  apply and_congr_right
  intro _
  constructor
  · intro ⟨values, hpresents, hholds, hgiven⟩
    have hvalues : values = fun k => [.ofNat (record.numbersOf r k)] := by
      funext k
      have hk := hholds k
      cases hvs : values k with
      | nil => exact absurd hvs (hgiven record.required k)
      | cons w ws =>
        rw [hvs] at hk
        obtain ⟨rfl, rfl⟩ := given_cons.1 hk
        rfl
    rw [hvalues] at hpresents
    exact hpresents
  · intro hpresents
    exact ⟨_, hpresents, fun k => .present rfl, fun _ k => List.cons_ne_nil _ _⟩

/-- A text is read as a record of numbers exactly if it spells a value that gives each field its
number. -/
theorem ofText_eq_ok {text : String} : record.ofText text = .ok r ↔
    ∃ v : Fragment, v.SpelledBy text ∧ record.shape.PresentsNumbers v (record.numbersOf r) := by
  have hsome : 0 < maxDepth := by decide
  have hwhole : ∀ v, record.shape.read (record.parts.set record.read) maxDepth v = .ok r →
      v.isWhole = true := by
    intro v hv
    have hpresents := (shape_read_eq_ok.1 hv).2
    exact Shape.Presents.isWhole record.complete hpresents fun k => List.forall_mem_singleton.2 rfl
  rw [ofText, readText_eq_ok hwhole]
  simp only [shape_read_eq_ok, hsome, true_and]

/-- The text that is written for the numbers of a record is read as the record. -/
theorem ofText_numbers (r : σ) :
    record.ofText (record.shape.numbers (record.numbersOf r)).text = .ok r := by
  have hspells := (record.shape.writable_numbers (record.numbersOf r)).spelledBy
  exact ofText_eq_ok.2 ⟨_, hspells, Shape.presents_members record.complete _⟩

end NumberRecord

end Json

namespace ByteRange

def number (r : ByteRange) : Key → Nat
  | .position => r.position.toNat
  | .length => r.length.toNat

def RenderedBy (r : ByteRange) (v : Fragment) : Prop :=
  shape.PresentsNumbers v r.number

def json (r : ByteRange) : String :=
  r.fragment.text

def rewritten (text : String) : Except ReadError String :=
  (ofText text).map json

def record : Json.NumberRecord Key ByteRange where
  shape := shape
  complete := ⟨fun k => by cases k <;> decide, by decide⟩
  required := rfl
  parts :=
    { Part := fun _ => UInt64
      get := fun
        | .position, r => r.position
        | .length, r => r.length
      put := fun
        | .position, a, r => { r with position := a }
        | .length, a, r => { r with length := a }
      get_put := fun k a r => by cases k <;> rfl
      get_put_ne := fun {k k'} a r h => by
        cases k <;> cases k' <;> first | rfl | exact absurd rfl h
      ext := fun h => ByteRange.ext (h .position) (h .length) }
  read := fun _ => Json.readWord64
  number := fun _ => UInt64.toNat
  read_eq_ok := fun _ _ _ => Json.readWord64_eq_ok

theorem ofText_eq : ofText = record.ofText := by
  have hset : set = record.parts.set record.read := by
    funext k v r
    cases k <;> exact bind_pure_comp _ _
  funext text
  rw [ofText, hset]
  rfl

theorem numbersOf_eq (r : ByteRange) : record.numbersOf r = r.number := by
  funext k
  cases k <;> rfl

/-- A text is read as a byte range exactly if it spells a value that stands for it. -/
theorem ofText_eq_ok {text : String} {r : ByteRange} :
    ofText text = .ok r ↔ ∃ v : Fragment, v.SpelledBy text ∧ r.RenderedBy v := by
  rw [ofText_eq, Json.NumberRecord.ofText_eq_ok, numbersOf_eq]
  rfl

theorem ofText_json (r : ByteRange) : ofText r.json = .ok r := by
  have hread := record.ofText_numbers r
  rw [numbersOf_eq] at hread
  rw [ofText_eq]
  exact hread

/-- Whatever text a byte range is read from, it is written as its one compact text. -/
theorem rewritten_eq {text : String} {r : ByteRange} (h : ofText text = .ok r) :
    rewritten text = .ok r.json ∧ rewritten r.json = .ok r.json := by
  rw [rewritten, rewritten, h, ofText_json]
  exact ⟨rfl, rfl⟩

end ByteRange

namespace MaskEntry

def number (e : MaskEntry) : Key → Nat
  | .position => e.position.toNat
  | .mask => e.mask.toNat

def RenderedBy (e : MaskEntry) (v : Fragment) : Prop :=
  shape.PresentsNumbers v e.number

def json (e : MaskEntry) : String :=
  e.fragment.text

def rewritten (text : String) : Except ReadError String :=
  (ofText text).map json

abbrev Key.Part : Key → Type
  | .position => UInt64
  | .mask => UInt8

def record : Json.NumberRecord Key MaskEntry where
  shape := shape
  complete := ⟨fun k => by cases k <;> decide, by decide⟩
  required := rfl
  parts :=
    { Part := Key.Part
      get := fun
        | .position, e => e.position
        | .mask, e => e.mask
      put := fun
        | .position, a, e => { e with position := a }
        | .mask, a, e => { e with mask := a }
      get_put := fun k a e => by cases k <;> rfl
      get_put_ne := fun {k k'} a e h => by
        cases k <;> cases k' <;> first | rfl | exact absurd rfl h
      ext := fun h => MaskEntry.ext (h .position) (h .mask) }
  read := fun
    | .position => Json.readWord64
    | .mask => Json.readWord8
  number := fun
    | .position => UInt64.toNat
    | .mask => UInt8.toNat
  read_eq_ok := fun
    | .position, _, _ => Json.readWord64_eq_ok
    | .mask, _, _ => Json.readWord8_eq_ok

theorem ofText_eq : ofText = record.ofText := by
  have hset : set = record.parts.set record.read := by
    funext k v e
    cases k <;> exact bind_pure_comp _ _
  funext text
  rw [ofText, hset]
  rfl

theorem numbersOf_eq (e : MaskEntry) : record.numbersOf e = e.number := by
  funext k
  cases k <;> rfl

/-- A text is read as a mask entry exactly if it spells a value that stands for it. -/
theorem ofText_eq_ok {text : String} {e : MaskEntry} :
    ofText text = .ok e ↔ ∃ v : Fragment, v.SpelledBy text ∧ e.RenderedBy v := by
  rw [ofText_eq, Json.NumberRecord.ofText_eq_ok, numbersOf_eq]
  rfl

theorem ofText_json (e : MaskEntry) : ofText e.json = .ok e := by
  have hread := record.ofText_numbers e
  rw [numbersOf_eq] at hread
  rw [ofText_eq]
  exact hread

/-- Whatever text a mask entry is read from, it is written as its one compact text. -/
theorem rewritten_eq {text : String} {e : MaskEntry} (h : ofText text = .ok e) :
    rewritten text = .ok e.json ∧ rewritten e.json = .ok e.json := by
  rw [rewritten, rewritten, h, ofText_json]
  exact ⟨rfl, rfl⟩

end MaskEntry

namespace Json

theorem Fragment.ofNat_inj {m n : Nat} (h : Fragment.ofNat m = .ofNat n) : m = n := by
  simpa [Fragment.ofNat, Numeral.ofNat] using h

theorem Fragment.ofWord_injective :
    Function.Injective fun p : UInt64 => Fragment.ofNat p.toNat := by
  intro p q h
  exact UInt64.toNat_inj.1 (Fragment.ofNat_inj h)

/-- What is written determines the value. -/
theorem Fragment.eq_of_text_eq {v w : Fragment} (hv : v.Writable) (hw : w.Writable)
    (h : v.text = w.text) : v = w := by
  have hspells := hw.spelledBy
  rw [← h] at hspells
  have hdocument := Document.ofText_of_spelledBy hv.spelledBy
  rw [Document.ofText_of_spelledBy hspells, Document.mk.injEq] at hdocument
  exact hdocument.1.symm

/-- Two objects in which the fields have the same numbers were written from the same numbers. -/
theorem Shape.numbers_inj {κ σ : Type} [DecidableEq κ] {shape : Shape κ σ}
    (hnames : shape.names.Complete) {number number' : κ → Nat}
    (h : shape.numbers number = shape.numbers number') (k : κ) : number k = number' k := by
  have hmembers := Fragment.object.inj h
  have hvalues := valuesOf_members hnames (fun k => [.ofNat (number k)]) k
  rw [hmembers, valuesOf_members hnames] at hvalues
  exact Fragment.ofNat_inj (List.singleton_inj.1 hvalues).symm

end Json

theorem ByteRange.fragment_injective : Function.Injective ByteRange.fragment := by
  intro r q h
  have hnumber : ∀ k, r.number k = q.number k := Json.Shape.numbers_inj record.complete h
  exact ByteRange.ext (UInt64.toNat_inj.1 (hnumber .position))
    (UInt64.toNat_inj.1 (hnumber .length))

theorem MaskEntry.fragment_injective : Function.Injective MaskEntry.fragment := by
  intro e d h
  have hnumber : ∀ k, e.number k = d.number k := Json.Shape.numbers_inj record.complete h
  exact MaskEntry.ext (UInt64.toNat_inj.1 (hnumber .position)) (UInt8.toNat_inj.1 (hnumber .mask))

namespace UnionLayout

variable {l l' : UnionLayout}

theorem writable_fragment (l : UnionLayout) : l.fragment.Writable := by
  have hmasks : (Fragment.array (l.masks.map MaskEntry.fragment)).Writable := by
    apply Fragment.writable_array
    intro v hv
    obtain ⟨e, -, rfl⟩ := List.mem_map.1 hv
    exact MaskEntry.shape.writable_numbers e.number
  have hranges : (Fragment.array (l.ranges.map ByteRange.fragment)).Writable := by
    apply Fragment.writable_array
    intro v hv
    obtain ⟨r, -, rfl⟩ := List.mem_map.1 hv
    exact ByteRange.shape.writable_numbers r.number
  have hpointers : (Fragment.array (l.pointers.map fun p => .ofNat p.toNat)).Writable := by
    apply Fragment.writable_array
    intro v hv
    obtain ⟨p, -, rfl⟩ := List.mem_map.1 hv
    exact Fragment.writable_scalar rfl
  apply Fragment.writable_object
  simp only [List.mem_cons, List.not_mem_nil, or_false, forall_eq_or_imp, forall_eq]
  exact ⟨⟨rfl, hmasks⟩, ⟨rfl, hranges⟩, rfl, hpointers⟩

theorem eq_of_fragment_eq (h : l.fragment = l'.fragment) : l = l' := by
  simp only [fragment, Fragment.object.injEq, List.cons.injEq, Prod.mk.injEq, true_and, and_true,
    Fragment.array.injEq] at h
  obtain ⟨hmasks, hranges, hpointers⟩ := h
  have hmasks := List.map_injective_iff.2 MaskEntry.fragment_injective hmasks
  have hranges := List.map_injective_iff.2 ByteRange.fragment_injective hranges
  have hpointers := List.map_injective_iff.2 Fragment.ofWord_injective hpointers
  rw [mk.injEq]
  exact ⟨hmasks, hranges, hpointers⟩

/-- Layouts with one text are equal. -/
theorem eq_of_text_eq (h : l.text = l'.text) : l = l' :=
  eq_of_fragment_eq (Fragment.eq_of_text_eq l.writable_fragment l'.writable_fragment h)

/-- Every byte range and every mask entry is read back from its compact text. A text is read as one
of them exactly if it spells, with any blanks and escapes, a value that stands for it, and written
again it is the compact text, which stays as it is. So the compact text of a layout determines its
masks, its ranges and its pointers. -/
theorem text_loses_nothing :
    ((∀ r : ByteRange, ByteRange.ofText r.json = .ok r) ∧
      (∀ text r, ByteRange.ofText text = .ok r ↔
        ∃ v : Fragment, v.SpelledBy text ∧ r.RenderedBy v) ∧
      ∀ text r, ByteRange.ofText text = .ok r →
        ByteRange.rewritten text = .ok r.json ∧ ByteRange.rewritten r.json = .ok r.json) ∧
    ((∀ e : MaskEntry, MaskEntry.ofText e.json = .ok e) ∧
      (∀ text e, MaskEntry.ofText text = .ok e ↔
        ∃ v : Fragment, v.SpelledBy text ∧ e.RenderedBy v) ∧
      ∀ text e, MaskEntry.ofText text = .ok e →
        MaskEntry.rewritten text = .ok e.json ∧ MaskEntry.rewritten e.json = .ok e.json) ∧
    ∀ l l' : UnionLayout, l.text = l'.text →
      l.masks = l'.masks ∧ l.ranges = l'.ranges ∧ l.pointers = l'.pointers := by
  have hlayouts : ∀ l l' : UnionLayout, l.text = l'.text →
      l.masks = l'.masks ∧ l.ranges = l'.ranges ∧ l.pointers = l'.pointers := by
    intro l l' h
    obtain rfl := eq_of_text_eq h
    exact ⟨rfl, rfl, rfl⟩
  exact ⟨⟨ByteRange.ofText_json, fun _ _ => ByteRange.ofText_eq_ok,
      fun _ _ => ByteRange.rewritten_eq⟩,
    ⟨MaskEntry.ofText_json, fun _ _ => MaskEntry.ofText_eq_ok, fun _ _ => MaskEntry.rewritten_eq⟩,
    hlayouts⟩

/-- The length first, beside a number that is too large to be read, and an array with blanks; and a
layout whose text is that of no other one. -/
theorem text_loses_nothing_beside_number :
    ByteRange.rewritten "\x7b\"x\":1e999, \"l\\u0065ngth\":2,\"position\":18446744073709551615\x7d" =
      .ok "\x7b\"position\":18446744073709551615,\"length\":2\x7d" ∧
    MaskEntry.rewritten "[ 7,\n252 ]" = .ok "\x7b\"position\":7,\"mask\":252\x7d" ∧
    ∀ l : UnionLayout,
      l.text = "\x7b\"bits\":[\x7b\"position\":0,\"mask\":252\x7d],\"bytes\":[],\"pointers\":[8,0]\x7d" →
        l.masks = [⟨0, 252⟩] ∧ l.ranges = [] ∧ l.pointers = [8, 0] := by
  have hrange : ByteRange.ofText
      "\x7b\"x\":1e999, \"l\\u0065ngth\":2,\"position\":18446744073709551615\x7d" =
      .ok ⟨18446744073709551615, 2⟩ := by cbv
  have hmask : MaskEntry.ofText "[ 7,\n252 ]" = .ok ⟨7, 252⟩ := by cbv
  have hlayout : (⟨[⟨0, 252⟩], [], [8, 0]⟩ : UnionLayout).text =
      "\x7b\"bits\":[\x7b\"position\":0,\"mask\":252\x7d],\"bytes\":[],\"pointers\":[8,0]\x7d" := by cbv
  have hjson : (⟨18446744073709551615, 2⟩ : ByteRange).json =
      "\x7b\"position\":18446744073709551615,\"length\":2\x7d" := by cbv
  have hjson' : (⟨7, 252⟩ : MaskEntry).json = "\x7b\"position\":7,\"mask\":252\x7d" := by cbv
  obtain ⟨⟨-, -, hranges⟩, ⟨-, -, hmasks⟩, hlayouts⟩ := text_loses_nothing
  rw [← hjson, ← hjson']
  refine ⟨(hranges _ _ hrange).1, (hmasks _ _ hmask).1, fun l hl => ?_⟩
  exact hlayouts l ⟨[⟨0, 252⟩], [], [8, 0]⟩ (hl.trans hlayout.symm)

end UnionLayout

end VariantStorage
