import VariantStorage.Proofs.Json.Document
import VariantStorage.Proofs.Record.Shape

/-!
The grammar of records. A reader of records returns `r` on a value exactly if the value stands for
`r`; since only whole values stand for records, a text is read to `r` exactly if it spells a value
that stands for `r`.
-/
namespace VariantStorage

open Json (Fragment Given Nullable ReadError)

theorem TypeName.names_complete : TypeName.names.Complete :=
  ⟨TypeName.mem_all, by decide⟩

theorem Construct.names_complete : Construct.names.Complete :=
  ⟨Construct.mem_all, by decide⟩

namespace FieldRecord

abbrev Key.Part : Key → Type
  | .offset => Option UInt64
  | .type => Option TypeName
  | .kind => Option Construct
  | .discriminant => UInt16
  | .fields => Option (List FieldRecord)

def parts : Json.Parts Key FieldRecord where
  Part := Key.Part
  get
    | .offset, r => r.offset
    | .type, r => r.type
    | .kind, r => r.kind
    | .discriminant, r => r.discriminant
    | .fields, r => r.fields
  put
    | .offset, a, r => { r with offset := a }
    | .type, a, r => { r with type := a }
    | .kind, a, r => { r with kind := a }
    | .discriminant, a, r => { r with discriminant := a }
    | .fields, a, r => { r with fields := a }
  get_put k a r := by cases k <;> rfl
  get_put_ne {k k'} a r h := by cases k <;> cases k' <;> first | rfl | exact absurd rfl h
  ext {r r'} h := by
    cases r
    cases r'
    rw [mk.injEq]
    exact ⟨h .offset, h .type, h .kind, h .discriminant, h .fields⟩

def readPart (room : Nat) : (k : Key) → Fragment → Except ReadError (parts.Part k)
  | .offset => Json.readOption Json.readWord64
  | .type => Json.readOption (TypeName.names.read room)
  | .kind => Json.readOption (Construct.names.read room)
  | .discriminant => Json.readWord16
  | .fields => Json.readOption (readList room)

def PartRenders (room : Nat) : (k : Key) → Fragment → parts.Part k → Prop
  | .offset => Nullable fun v n => v = .ofNat n.toNat
  | .type => Nullable (TypeName.names.Renders room)
  | .kind => Nullable (Construct.names.Renders room)
  | .discriminant => fun v d => v = .ofNat d.toNat
  | .fields => Nullable (RendersList room)

theorem set_eq (room : Nat) : set room (readList room) = parts.set (readPart room) := by
  funext k v r
  cases k <;> exact bind_pure_comp _ _

theorem shape_complete : shape.names.Complete :=
  ⟨fun k => by cases k <;> decide, by decide⟩

theorem not_rendersList_null (room : Nat) (rs : List FieldRecord) :
    ¬RendersList room (.scalar .null) rs := by
  cases room <;> simp [RendersList]

theorem readList_zero (v : Fragment) (rs : List FieldRecord) : readList 0 v ≠ .ok rs := by
  intro h
  have hroom := ((Json.readList_eq_ok fun _ _ => Iff.rfl).1 h).1
  cases hroom

/-- However much room there is, a record is read as what its fields are given. -/
theorem read_eq_shape_read (room : Nat) :
    read room = shape.read (parts.set (readPart (room - 1))) room := by
  rw [← set_eq]
  have hlist : Json.readList (fun _ => .error .malformed) 0 = readList 0 := by
    funext v
    cases v <;> rfl
  match room with
  | 0 => rw [read, hlist]
  | 1 => rw [read, hlist]
  | _ + 2 => rfl

/-- A field record stands in a value that gives its fields what they hold. -/
theorem renders_succ {room : Nat} {v : Fragment} {r : FieldRecord} :
    Renders (room + 1) v r ↔
      ∃ values, shape.Presents v values ∧ parts.Holds (PartRenders room) blank values r := by
  rw [Renders]
  refine exists_congr fun values => and_congr_right fun _ => ?_
  constructor
  · rintro ⟨hoffset, htype, hkind, hdiscriminant, hfields⟩ k
    cases k <;> assumption
  · intro h
    exact ⟨h .offset, h .type, h .kind, h .discriminant, h .fields⟩

mutual

/-- A value is read to a record exactly if it stands for the record. -/
theorem read_eq_ok (room : Nat) (v : Fragment) (r : FieldRecord) :
    read room v = .ok r ↔ Renders room v r := by
  rw [read_eq_shape_read]
  match room with
  | 0 =>
    rw [Json.Shape.read_eq_ok shape_complete fun _ _ _ => Iff.rfl]
    simp [Renders]
  | room + 1 =>
    have hpart : ∀ k v a, readPart room k v = .ok a ↔ PartRenders room k v a := by
      intro k v a
      cases k with
      | offset =>
        exact Json.readOption_eq_ok (fun _ _ => Json.readWord64_eq_ok) (by simp [Fragment.ofNat])
      | type =>
        exact Json.readOption_eq_ok (TypeName.names_complete.read_eq_ok room)
          (TypeName.names.not_renders_null room)
      | kind =>
        exact Json.readOption_eq_ok (Construct.names_complete.read_eq_ok room)
          (Construct.names.not_renders_null room)
      | discriminant => exact Json.readWord16_eq_ok
      | fields => exact Json.readOption_eq_ok (readList_eq_ok room) (not_rendersList_null room)
    rw [Nat.add_sub_cancel, Json.Shape.read_eq_ok shape_complete hpart, renders_succ]
    simp [shape]

/-- A value is read to several records exactly if it stands for them. -/
theorem readList_eq_ok (room : Nat) (v : Fragment) (rs : List FieldRecord) :
    readList room v = .ok rs ↔ RendersList room v rs := by
  match room with
  | 0 => simp [RendersList, readList_zero]
  | room + 1 =>
    rw [RendersList, readList, Nat.add_sub_cancel, Json.readList_eq_ok (read_eq_ok room)]
    simp

end

mutual

/-- Nothing is cut in what stands for a record. -/
theorem Renders.isWhole {room : Nat} {v : Fragment} {r : FieldRecord} (h : Renders room v r) :
    v.isWhole = true := by
  match room with
  | 0 => exact absurd h (by simp [Renders])
  | room + 1 =>
    obtain ⟨values, hpresents, hholds⟩ := renders_succ.1 h
    refine hpresents.isWhole shape_complete fun k => Json.given_forall (hholds k) ?_
    cases k with
    | offset => exact Json.nullable_forall rfl fun v n hv => hv ▸ rfl
    | type => exact Json.nullable_forall rfl (TypeName.names.isWhole_of_renders room)
    | kind => exact Json.nullable_forall rfl (Construct.names.isWhole_of_renders room)
    | discriminant => exact fun v d hv => hv ▸ rfl
    | fields => exact Json.nullable_forall rfl fun v rs hv => RendersList.isWhole hv

theorem RendersList.isWhole {room : Nat} {v : Fragment} {rs : List FieldRecord}
    (h : RendersList room v rs) : v.isWhole = true := by
  match room with
  | 0 => exact absurd h (by simp [RendersList])
  | room + 1 =>
    rw [RendersList] at h
    obtain ⟨items, rfl, hitems⟩ := h
    have hwhole := hitems.imp fun w r hw => And.intro (Renders.isWhole hw) hw
    rw [Fragment.isWhole, Fragment.allWhole_eq_all, List.all_eq_true]
    exact ((List.forall₂_and_left items rs).1 hwhole).1

end

/-- A text is read to field records exactly if it spells a value that stands for them. -/
theorem ofText_eq_ok {text : String} {rs : List FieldRecord} :
    ofText text = .ok rs ↔ ∃ v : Fragment, v.SpelledBy text ∧ RendersList Json.maxDepth v rs := by
  have hwhole : ∀ v, readList Json.maxDepth v = .ok rs → v.isWhole = true := fun v hv =>
    ((readList_eq_ok _ v rs).1 hv).isWhole
  rw [ofText, Json.readText_eq_ok hwhole]
  simp only [readList_eq_ok]

end FieldRecord

namespace StructRecord

def parts : Json.Parts Key StructRecord where
  Part _ := List FieldRecord
  get _ r := r.fields
  put _ a _ := ⟨a⟩
  get_put _ _ _ := rfl
  get_put_ne {k k'} _ _ h := absurd (by cases k; cases k'; rfl) h
  ext {r r'} h := by
    cases r
    cases r'
    rw [mk.injEq]
    exact h .fields

theorem shape_complete : shape.names.Complete :=
  ⟨fun k => by cases k; decide, by decide⟩

def readPart (room : Nat) : (k : Key) → Fragment → Except ReadError (parts.Part k) :=
  fun _ => FieldRecord.readList room

def PartRenders (room : Nat) : (k : Key) → Fragment → parts.Part k → Prop :=
  fun _ => FieldRecord.RendersList room

/-- A value is read to a struct record exactly if it stands for the record. -/
theorem read_eq_ok (room : Nat) (v : Fragment) (r : StructRecord) :
    read room v = .ok r ↔ Renders room v r := by
  have hpart : ∀ k v a, readPart (room - 1) k v = .ok a ↔ PartRenders (room - 1) k v a :=
    fun _ => FieldRecord.readList_eq_ok (room - 1)
  have hset : read room = shape.read (parts.set (readPart (room - 1))) room := rfl
  rw [hset, Json.Shape.read_eq_ok_of_single shape_complete hpart rfl fun k => by cases k; rfl]
  cases room with
  | zero => simp [Renders]
  | succ room => exact and_iff_right (Nat.succ_pos room)

theorem Renders.isWhole {room : Nat} {v : Fragment} {r : StructRecord} (h : Renders room v r) :
    v.isWhole = true := by
  cases room with
  | zero => exact absurd h (by simp [Renders])
  | succ room =>
    rw [Renders] at h
    obtain ⟨values, w, hpresents, hvalues, hw⟩ := h
    refine hpresents.isWhole shape_complete fun k => ?_
    cases k
    rw [hvalues]
    exact List.forall_mem_singleton.2 hw.isWhole

theorem ofText_eq_ok {text : String} {r : StructRecord} :
    ofText text = .ok r ↔ ∃ v : Fragment, v.SpelledBy text ∧ Renders Json.maxDepth v r := by
  have hwhole : ∀ v, read Json.maxDepth v = .ok r → v.isWhole = true := fun v hv =>
    ((read_eq_ok _ v r).1 hv).isWhole
  rw [ofText, Json.readText_eq_ok hwhole]
  simp only [read_eq_ok]

/-- A text is read to a record exactly if it spells, with any blanks and escapes, a value that
stands for the record with at most 127 brackets around what is looked at; and the choice of blanks
and escapes makes no difference where the text is refused, either. -/
theorem reads_exactly_renderings (text : String) (r : StructRecord) :
    (ofText text = .ok r ↔ ∃ v : Fragment, v.SpelledBy text ∧ Renders 127 v r) ∧
      ∀ (v : Fragment) (other : String), v.SpelledBy text → v.SpelledBy other →
        ofText other = ofText text := by
  refine ⟨ofText_eq_ok, fun v other htext hother => ?_⟩
  have hdocument := Json.Document.ofText_eq_of_spelledBy htext hother
  rw [ofText, ofText, Json.readText, Json.readText, hdocument]

/-- A field record as an array, beside a number that is too large to be read. -/
theorem reads_exactly_renderings_beside_number :
    let v : Fragment := .object
      [(.text "x", .scalar (.number ⟨false, 1, [], some 999⟩)),
        (.text "fields", .array [.array [.ofNat 3, .ofName "Bool"]])]
    let text := "\x7b\"x\":1e999,\"fields\":[[3,\"Bool\"]]\x7d"
    let other := "\x7b \"\\u0078\":1E+0999, \"fields\":[[3,\"Bool\"]]\x7d"
    let r : StructRecord := ⟨[⟨some 3, some (.builtin .bool), none, 0xffff, none⟩]⟩
    v.SpelledBy text ∧ v.SpelledBy other ∧ Renders 127 v r ∧ ofText text = .ok r ∧
      ofText other = .ok r := by
  intro v text other r
  have htext : v.SpelledBy text := Json.Document.spelledBy_of_ofText rfl (by cbv)
  have hother : v.SpelledBy other := Json.Document.spelledBy_of_ofText rfl (by cbv)
  have hrenders : Renders 127 v r := (read_eq_ok 127 v r).1 (by cbv)
  have hread := (reads_exactly_renderings text r).1.2 ⟨v, htext, hrenders⟩
  have halike := (reads_exactly_renderings text r).2 v other htext hother
  exact ⟨htext, hother, hrenders, hread, halike.trans hread⟩

end StructRecord

end VariantStorage
