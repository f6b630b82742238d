import VariantStorage.Proofs.Json.Nesting
import VariantStorage.Proofs.Record.Grammar
import VariantStorage.Record.Writer

/-!
What is written for records. The written value of a record stands for it as soon as there is room
for its own brackets, and whatever else stands for the record has at least as many: the written
value is the shallowest one.
-/
namespace VariantStorage

open Json (Fragment Given Nullable)

namespace Json.Shape

open ElementRecord (valuesOf)

variable {κ σ : Type} [DecidableEq κ] {shape : Shape κ σ}

/-- The members that give these values to the fields, in the order of the fields. -/
def members (shape : Shape κ σ) (written : κ → List Fragment) : List (Key × Fragment) :=
  shape.keys.flatMap fun k => (written k).map fun v => (.text (shape.name k), v)

omit [DecidableEq κ] in
theorem mem_members {written : κ → List Fragment} {m : Key × Fragment}
    (h : m ∈ shape.members written) : ∃ k, m.1 = .text (shape.name k) ∧ m.2 ∈ written k := by
  obtain ⟨k, -, hm⟩ := List.mem_flatMap.1 h
  obtain ⟨v, hv, rfl⟩ := List.mem_map.1 hm
  exact ⟨k, rfl, hv⟩

theorem valuesOf_append (s : String) (ms ns : List (Key × Fragment)) :
    valuesOf s (ms ++ ns) = valuesOf s ms ++ valuesOf s ns := by
  simp [valuesOf]

theorem valuesOf_map_of_ne {s t : String} (h : t ≠ s) (vs : List Fragment) :
    valuesOf s (vs.map fun v => (.text t, v)) = [] := by
  induction vs with
  | nil => rfl
  | cons v vs ih => rw [List.map_cons, valuesOf_cons_of_ne h, ih]

theorem valuesOf_map (s : String) (vs : List Fragment) :
    valuesOf s (vs.map fun v => (.text s, v)) = vs := by
  induction vs with
  | nil => rfl
  | cons v vs ih => rw [List.map_cons, valuesOf_cons, ih]

variable (hnames : shape.names.Complete) (written : κ → List Fragment)
include hnames

omit [DecidableEq κ] in
theorem valuesOf_flatMap_of_notMem {k : κ} {ks : List κ} (hk : k ∉ ks) :
    valuesOf (shape.name k)
      (ks.flatMap fun j => (written j).map fun v => (.text (shape.name j), v)) = [] := by
  induction ks with
  | nil => rfl
  | cons j ks ih =>
    rw [List.mem_cons, not_or] at hk
    have hname : shape.name j ≠ shape.name k := fun h => hk.1 (hnames.name_inj h).symm
    rw [List.flatMap_cons, valuesOf_append, valuesOf_map_of_ne hname, ih hk.2, List.append_nil]

omit [DecidableEq κ] in
/-- The members before and after those of a field are for other fields. -/
theorem valuesOf_members (k : κ) :
    valuesOf (shape.name k) (shape.members written) = written k := by
  obtain ⟨before, after, hsplit⟩ := List.append_of_mem (hnames.mem k)
  have hkeys : (before ++ k :: after).Nodup := hsplit ▸ keys_nodup hnames
  obtain ⟨-, hrest, hapart⟩ := List.nodup_append.1 hkeys
  have hbefore : k ∉ before := fun hk => hapart k hk k List.mem_cons_self rfl
  have hafter : k ∉ after := (List.nodup_cons.1 hrest).1
  have hshape : shape.keys = before ++ k :: after := hsplit
  rw [members, hshape, List.flatMap_append, List.flatMap_cons, valuesOf_append, valuesOf_append,
    valuesOf_flatMap_of_notMem hnames written hbefore, valuesOf_map,
    valuesOf_flatMap_of_notMem hnames written hafter, List.nil_append, List.append_nil]

/-- What is written for the fields is given to them. -/
theorem presents_members :
    shape.Presents (.object (shape.members written)) written := by
  have hadmits : ∀ m ∈ shape.members written, shape.Admits m := by
    intro m hm
    obtain ⟨k, hk, -⟩ := mem_members hm
    exact ⟨_, hk, fun hne => absurd rfl (hne k)⟩
  have hvalues := Presents.object hadmits
  simp only [valuesOf_members hnames] at hvalues
  exact hvalues

end Json.Shape

namespace FieldRecord

/-- What is written for each field of a record. -/
def written (r : FieldRecord) : Key → List Fragment
  | .offset => (r.offset.map fun n => .ofNat n.toNat).toList
  | .type => (r.type.map fun t => .ofName t.name).toList
  | .kind => (r.kind.map fun c => .ofName c.name).toList
  | .discriminant => [.ofNat r.discriminant.toNat]
  | .fields => (r.fields.map fun rs => .array (fragments rs)).toList

/-- A record is written field by field, and an absent one is left out. -/
theorem fragment_eq (r : FieldRecord) : r.fragment = .object (shape.members r.written) := by
  obtain ⟨offset, type, kind, discriminant, fields⟩ := r
  cases offset <;> cases type <;> cases kind <;> cases fields <;> rfl

theorem fragments_eq_map (rs : List FieldRecord) : fragments rs = rs.map fragment := by
  induction rs with
  | nil => rfl
  | cons r rs ih => rw [fragments, ih, List.map_cons]

theorem mem_written {r : FieldRecord} {k : Key} {v : Fragment} (h : v ∈ r.written k) :
    (∃ s : Json.Scalar, s.isWritable = true ∧ v = .scalar s) ∨
      ∃ rs, r.fields = some rs ∧ v = .array (fragments rs) := by
  cases k with
  | discriminant => exact .inl ⟨_, rfl, List.mem_singleton.1 h⟩
  | fields =>
    obtain ⟨rs, hrs, hv⟩ := Option.map_eq_some_iff.1 (Option.mem_toList.1 h)
    exact .inr ⟨rs, hrs, hv.symm⟩
  | _ =>
    obtain ⟨a, -, hv⟩ := Option.map_eq_some_iff.1 (Option.mem_toList.1 h)
    exact .inl ⟨_, rfl, hv.symm⟩

/-- What is written for a record is as deep as its fields, and the bracket around them. -/
theorem depth_fragment_le {r : FieldRecord} {room : Nat} :
    r.fragment.depth ≤ room + 1 ↔
      ∀ rs, r.fields = some rs → (Fragment.array (fragments rs)).depth ≤ room := by
  rw [fragment_eq, Fragment.depth, Nat.add_le_add_iff_right, Fragment.depthOfMembers_le]
  constructor
  · intro h rs hrs
    refine h (.text "fields", _) (List.mem_flatMap.2 ⟨.fields, by decide, ?_⟩)
    simp only [written, hrs]
    exact List.mem_singleton.2 rfl
  · rintro h ⟨key, v⟩ hm
    obtain ⟨k, -, hv⟩ := Json.Shape.mem_members hm
    rcases mem_written hv with ⟨s, -, rfl⟩ | ⟨rs, hrs, rfl⟩
    · exact Nat.zero_le room
    · exact h rs hrs

theorem depth_array_le {rs : List FieldRecord} {room : Nat} :
    (Fragment.array (fragments rs)).depth ≤ room + 1 ↔ ∀ r ∈ rs, r.fragment.depth ≤ room := by
  rw [Fragment.depth, Nat.add_le_add_iff_right, Fragment.depthOfItems_le, fragments_eq_map,
    List.forall_mem_map]

mutual

/-- Everything in the object of a field record can be written. -/
theorem writable_fragment (r : FieldRecord) : r.fragment.Writable := by
  rw [fragment_eq]
  refine Fragment.writable_object fun m hm => ?_
  obtain ⟨k, hk, hv⟩ := Json.Shape.mem_members hm
  refine ⟨by rw [hk]; rfl, ?_⟩
  rcases mem_written hv with ⟨s, hs, hm⟩ | ⟨rs, hrs, hm⟩
  · exact hm ▸ Fragment.writable_scalar hs
  · exact hm ▸ writable_array rs
termination_by sizeOf r
decreasing_by
  cases r
  simp only at hrs
  simp only [hrs, mk.sizeOf_spec, Option.some.sizeOf_spec]
  omega

theorem writable_array (rs : List FieldRecord) : (Fragment.array (fragments rs)).Writable := by
  rw [fragments_eq_map]
  refine Fragment.writable_array fun v hv => ?_
  obtain ⟨r, hr, rfl⟩ := List.mem_map.1 hv
  exact writable_fragment r
termination_by sizeOf rs

end

mutual

/-- What stands for a record has room for what is written for it. -/
theorem Renders.depth_le {room : Nat} {v : Fragment} {r : FieldRecord} (h : Renders room v r) :
    r.fragment.depth ≤ room := by
  match room with
  | 0 => exact absurd h (by simp [Renders])
  | room + 1 =>
    obtain ⟨values, -, hholds⟩ := renders_succ.1 h
    refine depth_fragment_le.2 fun rs hrs => ?_
    have hfields : Given (Nullable (RendersList room)) none (values .fields) r.fields :=
      hholds .fields
    rw [hrs] at hfields
    obtain ⟨w, hw⟩ := Json.exists_of_given_some hfields
    exact RendersList.depth_le hw

theorem RendersList.depth_le {room : Nat} {v : Fragment} {rs : List FieldRecord}
    (h : RendersList room v rs) : (Fragment.array (fragments rs)).depth ≤ room := by
  match room with
  | 0 => exact absurd h (by simp [RendersList])
  | room + 1 =>
    rw [RendersList] at h
    obtain ⟨items, -, hitems⟩ := h
    have hdepths : List.Forall₂ (fun r w => r.fragment.depth ≤ room ∧ Renders room w r) rs items :=
      List.Forall₂.flip (hitems.imp fun w r hw => ⟨Renders.depth_le hw, hw⟩)
    exact depth_array_le.2 ((List.forall₂_and_left rs items).1 hdepths).1

end

mutual

/-- What is written for a record stands for it, where there is room for it. -/
theorem renders_fragment {room : Nat} {r : FieldRecord} (h : r.fragment.depth ≤ room) :
    Renders room r.fragment r := by
  match room with
  | 0 => exact absurd h (by rw [fragment_eq]; simp [Fragment.depth])
  | room + 1 =>
    rw [renders_succ, fragment_eq]
    refine ⟨_, Json.Shape.presents_members shape_complete r.written, fun k => ?_⟩
    cases k with
    | offset => exact Json.given_toList fun n _ => rfl
    | type => exact Json.given_toList fun t _ => .text t
    | kind => exact Json.given_toList fun c _ => .text c
    | discriminant => exact .present rfl
    | fields =>
      exact Json.given_toList fun rs hrs => rendersList_array (depth_fragment_le.1 h rs hrs)

/-- What is written for records stands for them, where there is room for it. -/
theorem rendersList_array {room : Nat} {rs : List FieldRecord}
    (h : (Fragment.array (fragments rs)).depth ≤ room) :
    RendersList room (.array (fragments rs)) rs := by
  match room with
  | 0 => exact absurd h (by simp [Fragment.depth])
  | room + 1 =>
    have hdepths := depth_array_le.1 h
    rw [RendersList, fragments_eq_map]
    refine ⟨_, rfl, List.forall₂_map_left_iff.2 (List.forall₂_same.2 fun r hr => ?_)⟩
    exact renders_fragment (hdepths r hr)

end

theorem nesting_listText (rs : List FieldRecord) :
    Json.nesting (listText rs) = (Fragment.array (fragments rs)).depth :=
  Fragment.nesting_text (writable_array rs)

end FieldRecord

namespace StructRecord

theorem writable_fragment (r : StructRecord) : r.fragment.Writable := by
  refine Fragment.writable_object fun m hm => ?_
  rw [List.mem_singleton.1 hm]
  exact ⟨rfl, FieldRecord.writable_array r.fields⟩

theorem depth_fragment (r : StructRecord) :
    r.fragment.depth = (Fragment.array (FieldRecord.fragments r.fields)).depth + 1 :=
  congrArg (· + 1) (Nat.max_zero _)

/-- What stands for a struct record has room for what is written for it. -/
theorem Renders.depth_le {room : Nat} {v : Fragment} {r : StructRecord} (h : Renders room v r) :
    r.fragment.depth ≤ room := by
  cases room with
  | zero => exact absurd h (by simp [Renders])
  | succ room =>
    rw [Renders] at h
    obtain ⟨values, w, -, -, hw⟩ := h
    rw [depth_fragment]
    exact Nat.succ_le_succ hw.depth_le

/-- What is written for a struct record stands for it, where there is room for it. -/
theorem renders_fragment {room : Nat} {r : StructRecord} (h : r.fragment.depth ≤ room) :
    Renders room r.fragment r := by
  rw [depth_fragment] at h
  cases room with
  | zero => omega
  | succ room =>
    have hfields := FieldRecord.rendersList_array (Nat.le_of_succ_le_succ h)
    have hpresents := Json.Shape.presents_members shape_complete
      fun _ => [.array (FieldRecord.fragments r.fields)]
    rw [Renders]
    exact ⟨_, _, hpresents, rfl, hfields⟩

/-- The brackets of the written text are those of the written value. -/
theorem nesting_text (r : StructRecord) : Json.nesting r.text = r.fragment.depth :=
  Fragment.nesting_text r.writable_fragment

end StructRecord

end VariantStorage
