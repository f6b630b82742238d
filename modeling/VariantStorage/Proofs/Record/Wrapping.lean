import VariantStorage.Proofs.Record.Depth
import VariantStorage.Proofs.Record.RoundTrip

/-!
A struct record around the text of its fields. The fields are read as they would be by themselves,
with one bracket less to spare: so the layout is the same as long as the fields leave that bracket,
and where they do not, the text around them is malformed.
-/
namespace VariantStorage

open Json (Fragment ReadError Token)

namespace StructRecord

/-- The forms of a struct record: its fields are the only member of an object or the only item of an
array. -/
inductive Frame where
  | object
  | array
  deriving DecidableEq, Repr

namespace Frame

/-- The text of a struct record around the text of its fields. -/
def around : Frame → String → String
  | .object, text => "\x7b\"fields\":" ++ text ++ "\x7d"
  | .array, text => "[" ++ text ++ "]"

def fragment : Frame → Fragment → Fragment
  | .object, v => .object [(.text "fields", v)]
  | .array, v => .array [v]

def before : Frame → List Token
  | .object => [.openObject, .scalar (.text "fields"), .colon]
  | .array => [.openArray]

def after : Frame → List Token
  | .object => [.closeObject]
  | .array => [.closeArray]

variable (frame : Frame) {v : Fragment} {text : String}

theorem tokens_fragment (v : Fragment) :
    (frame.fragment v).tokens = frame.before ++ (v.tokens ++ frame.after) := by
  cases frame <;> rfl

theorem toList_around (text : String) :
    (frame.around text).toList =
      frame.before.flatMap Token.chars ++ (text.toList ++ frame.after.flatMap Token.chars) := by
  cases frame <;> simp [around, before, after, Token.chars, Token.writeChar, Token.letterOf]

/-- The text around the fields spells the record around them. -/
theorem spelledBy_around (h : v.SpelledBy text) :
    (frame.fragment v).SpelledBy (frame.around text) := by
  have hbefore : Token.Spells frame.before (frame.before.flatMap Token.chars) :=
    Token.spells_chars (by cases frame <;> decide)
  have hafter : Token.Spells frame.after (frame.after.flatMap Token.chars) :=
    Token.spells_chars (by cases frame <;> decide)
  rw [Fragment.SpelledBy, tokens_fragment, toList_around]
  exact hbefore.append (h.append hafter)

/-- The fields are read as by themselves, where there is room for one bracket less. -/
theorem read_fragment (room : Nat) (v : Fragment) :
    read (room + 1) (frame.fragment v) = (FieldRecord.readList room v).map mk := by
  cases frame with
  | object =>
    cases hread : FieldRecord.readList room v <;>
    simp [read, fragment, shape, Json.Shape.read, Json.Shape.readMembers, Json.Shape.find?, hread,
      Except.map, bind, Except.bind]
  | array =>
    cases hread : FieldRecord.readList room v <;>
    simp [read, fragment, shape, Json.Shape.read, Json.Shape.readItems, hread,
      Except.map, bind, Except.bind]

/-- A text around fields is read as the fields are, with one bracket less to spare. -/
theorem ofText_around (h : v.SpelledBy text) :
    ofText (frame.around text) =
      ((FieldRecord.readList 126 v).map mk).mapError Json.ReadError.reported := by
  rw [ofText, Json.readText_of_spelledBy (frame.spelledBy_around h)]
  exact congrArg _ (frame.read_fragment 126 v)

end Frame

end StructRecord

namespace FieldRecord

variable {v : Fragment} {rs : List FieldRecord} {room : Nat} {text : String}

theorem typedNesting_of_spelledBy (h : v.SpelledBy text) :
    typedNesting text = typedDepthAt .fields v := by
  rw [typedNesting, Json.Document.ofText_of_spelledBy h]

/-- Records that need the last bracket are malformed without it: with less room than they are deep
they cannot be read, and no other answer is possible. -/
theorem readList_malformed (h : RendersList (room + 1) v rs)
    (hdepth : typedDepthAt .fields v = room + 1) : readList room v = .error .malformed := by
  refine (readList_within (Nat.le_succ room) v).eq_malformed fun hsame => ?_
  have hread := hsame.trans ((readList_eq_ok _ v rs).2 h)
  have hfits := ((readList_eq_ok room v rs).1 hread).typedDepth_le
  omega

/-- The fields of `n` groups inside each other, around a boolean whose type is named by a key. -/
def nestedFields : Nat → Fragment
  | 0 =>
    .array [.array [.ofNat 5, .object [(.text "Bool", .scalar .null)], .scalar .null, .ofNat 0]]
  | n + 1 => .array [.object [(.text "type", .ofName "group"), (.text "fields", nestedFields n)]]

/-- Each group takes two brackets. -/
theorem nestedFields_renders (n : Nat) :
    RendersList (2 * n + 3) (nestedFields n) [StructRecord.nestedGroups n] := by
  induction n with
  | zero => exact (readList_eq_ok _ _ _).1 (by cbv)
  | succ n ih =>
    rw [Nat.mul_succ, nestedFields, RendersList]
    refine ⟨_, rfl, .cons ?_ .nil⟩
    rw [renders_succ]
    refine ⟨_, .object fun m hm => ?_, fun k => ?_⟩
    · simp only [List.mem_cons, List.not_mem_nil, or_false] at hm
      cases hm with
      | inl htype => exact htype ▸ ⟨_, rfl, fun hne => absurd rfl (hne .type)⟩
      | inr hfields => exact hfields ▸ ⟨_, rfl, fun hne => absurd rfl (hne .fields)⟩
    · cases k with
      | offset => exact .absent
      | type => exact .present (.text TypeName.group)
      | kind => exact .absent
      | discriminant => exact .absent
      | fields => exact .present ih

theorem typedDepthAt_nestedFields (n : Nat) :
    typedDepthAt .fields (nestedFields n) = 2 * n + 3 := by
  induction n with
  | zero => rfl
  | succ n ih =>
    have htype : shape.find? "type" = some .type := by decide
    have hfields : shape.find? "fields" = some .fields := by decide
    simp [nestedFields, typedDepthAt, typedDepthOfRecords, typedDepth, typedDepthOfMembers, htype,
      hfields, Fragment.ofName, Fragment.depth, ih, Nat.mul_succ]

theorem writable_nestedFields (n : Nat) : (nestedFields n).Writable := by
  induction n with
  | zero =>
    intro t ht
    revert t
    decide
  | succ n ih =>
    refine Fragment.writable_array (List.forall_mem_singleton.2 (Fragment.writable_object ?_))
    refine List.forall_mem_cons.2 ⟨⟨rfl, Fragment.writable_scalar rfl⟩, ?_⟩
    exact List.forall_mem_singleton.2 ⟨rfl, ih⟩

end FieldRecord

namespace Schema

open FieldRecord (nestedFields ofText typedNesting)
open StructRecord (Frame nestedGroups)

/-- The text of an array of field records, and the text of a struct record in either form around it,
have one layout or one failure, which is none of reading, as long as at most 126 brackets that are
looked at are nested in the array. There are never more than 127, and with 127 the text of the
struct record is malformed. -/
theorem layouts_agree {text : String} {rs : List FieldRecord} (h : ofText text = .ok rs) :
    typedNesting text ≤ 127 ∧
    (typedNesting text ≤ 126 → ∀ frame : Frame, layout (frame.around text) = fieldsLayout text) ∧
    (typedNesting text = 127 → ∀ frame : Frame,
      layout (frame.around text) = .error (.text .malformed)) ∧
    ∀ e, fieldsLayout text ≠ .error (.text e) := by
  obtain ⟨v, hspells, hrenders⟩ := FieldRecord.ofText_eq_ok.1 h
  have hlayout : fieldsLayout text = (do
      let fields ← (FieldRecord.toFields rs).mapError .record
      (UnionLayout.resolve fields).mapError .storage) := by
    rw [fieldsLayout, fields, h]
    rfl
  rw [FieldRecord.typedNesting_of_spelledBy hspells]
  refine ⟨hrenders.typedDepth_le, fun hdepth frame => ?_, fun hdepth frame => ?_, fun e => ?_⟩
  · have hread : FieldRecord.readList 126 v = .ok rs :=
      (FieldRecord.readList_eq_ok 126 v rs).2 (hrenders.of_typedDepth_le hdepth)
    rw [hlayout, layout, frame.ofText_around hspells, hread]
    rfl
  · have hread := FieldRecord.readList_malformed hrenders hdepth
    rw [layout, frame.ofText_around hspells, hread]
    rfl
  · rw [hlayout]
    cases FieldRecord.toFields rs with
    | error e =>
      intro hfailure
      cases hfailure
    | ok fields =>
      cases hresolve : UnionLayout.resolve fields <;>
      simp [hresolve, Except.mapError, bind, Except.bind]

/-- A text with a bracket to spare, with and without the struct record around it, and one that uses
up all brackets. -/
theorem layouts_agree_up_to_limit :
    let text := "[[3,\"Bool\",null,1]]"
    let deep := (nestedFields 62).text
    ofText text = .ok [⟨some 3, some (.builtin .bool), none, 1, none⟩] ∧ typedNesting text = 2 ∧
      fieldsLayout text = .ok ⟨[⟨0, 0xf7⟩], [], []⟩ ∧
      layout "\x7b\"fields\":[[3,\"Bool\",null,1]]\x7d" = .ok ⟨[⟨0, 0xf7⟩], [], []⟩ ∧
      layout "[[[3,\"Bool\",null,1]]]" = .ok ⟨[⟨0, 0xf7⟩], [], []⟩ ∧
    ofText deep = .ok [nestedGroups 62] ∧ typedNesting deep = 127 ∧
      layout (Frame.object.around deep) = .error (.text .malformed) ∧
      layout (Frame.array.around deep) = .error (.text .malformed) := by
  intro text deep
  have htext : ofText text = .ok [⟨some 3, some (.builtin .bool), none, 1, none⟩] := by cbv
  have hnesting : typedNesting text = 2 := by cbv
  have hlayout : fieldsLayout text = .ok ⟨[⟨0, 0xf7⟩], [], []⟩ := by cbv
  have hspells : (nestedFields 62).SpelledBy deep :=
    (FieldRecord.writable_nestedFields 62).spelledBy
  have hdeep : ofText deep = .ok [nestedGroups 62] :=
    FieldRecord.ofText_eq_ok.2 ⟨_, hspells, FieldRecord.nestedFields_renders 62⟩
  have hlimit : typedNesting deep = 127 :=
    (FieldRecord.typedNesting_of_spelledBy hspells).trans (FieldRecord.typedDepthAt_nestedFields 62)
  obtain ⟨-, hsame, -⟩ := layouts_agree htext
  obtain ⟨-, -, hmalformed, -⟩ := layouts_agree hdeep
  have hagree := hsame (by omega)
  exact ⟨htext, hnesting, hlayout, (hagree .object).trans hlayout, (hagree .array).trans hlayout,
    hdeep, hlimit, hmalformed hlimit .object, hmalformed hlimit .array⟩

end Schema

end VariantStorage
