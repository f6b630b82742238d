import VariantStorage.Proofs.Json.Limits
import VariantStorage.Proofs.Record.Grammar
import VariantStorage.Schema

/-!
The values that describe the elements of a list: the name of a type, and an object that names a
construct in its only member `meta`. No value has both forms, so it makes no difference which of
them is tried first; and beside its members `meta`, nothing in an object matters but that it can be
read.
-/
namespace VariantStorage

open Json (Fragment ReadError)

namespace ElementRecord

variable {room : Nat} {v w : Fragment} {members ms ns : List (Json.Key × Fragment)}

inductive Renders (room : Nat) : Fragment → ElementRecord → Prop where
  | type {v : Fragment} {t : TypeName} (h : TypeName.names.Renders room v t) :
      Renders room v (.type t)
  | construct {members : List (Json.Key × Fragment)} {v : Fragment} {c : Construct}
      (hlimits : (Fragment.object members).InLimits room) (hmeta : valuesOf "meta" members = [v])
      (h : Construct.names.Renders room v c) : Renders room (.object members) (.construct c)

def parts : Json.Parts Key Construct where
  Part _ := Construct
  get _ c := c
  put _ c _ := c
  get_put _ _ _ := rfl
  get_put_ne {k k'} _ _ h := absurd (by cases k; cases k'; rfl) h
  ext h := h .kind

theorem shape_complete : shape.names.Complete :=
  ⟨fun k => by cases k; decide, by decide⟩

/-- In a value that can be read in full, keys are texts and no member is cut. -/
theorem admits_of_inLimits (h : (Fragment.object members).InLimits room) :
    0 < room ∧ ∀ m ∈ members, shape.Admits m := by
  cases room with
  | zero => exact absurd h.depth_le (Nat.not_succ_le_zero _)
  | succ room =>
    refine ⟨Nat.succ_pos room, fun m hm => ?_⟩
    obtain ⟨htext, hlimits⟩ := Fragment.inLimits_object.1 h m hm
    obtain ⟨key, w⟩ := m
    cases key with
    | text s => exact ⟨s, rfl, fun _ => hlimits.isWhole⟩
    | unpaired => cases htext
    | missing t => cases htext

def readPart (room : Nat) : (k : Key) → Fragment → Except ReadError (parts.Part k) :=
  fun _ => Construct.names.read room

def PartRenders (room : Nat) : (k : Key) → Fragment → parts.Part k → Prop :=
  fun _ => Construct.names.Renders room

theorem readConstruct_object (room : Nat) (members : List (Json.Key × Fragment)) :
    readConstruct room (.object members) =
      shape.read (parts.set (readPart room)) room (.object members) := by
  have hset : (fun (_ : Key) w (_ : Construct) => Construct.names.read room w) =
      parts.set (readPart room) := by
    funext _ w _
    exact (congrFun Except.map_id (Construct.names.read room w)).symm
  rw [← hset]
  rfl

/-- What can be read in full is read to a construct exactly if it is an object whose only member
`meta` names the construct. -/
theorem readConstruct_eq_ok (hlimits : v.InLimits room) {c : Construct} :
    readConstruct room v = .ok c ↔
      ∃ members w, v = .object members ∧ valuesOf "meta" members = [w] ∧
        Construct.names.Renders room w c := by
  have hpart : ∀ k w c, readPart room k w = .ok c ↔ PartRenders room k w c :=
    fun _ => Construct.names_complete.read_eq_ok room
  cases v with
  | object members =>
    obtain ⟨hroom, hadmits⟩ := admits_of_inLimits hlimits
    rw [readConstruct_object,
      Json.Shape.read_eq_ok_of_single shape_complete hpart rfl fun k => by cases k; rfl]
    constructor
    · rintro ⟨-, values, w, hpresents, hvalues, hw⟩
      obtain ⟨-, rfl⟩ := Json.Shape.presents_object.1 hpresents
      exact ⟨members, w, rfl, hvalues, hw⟩
    · rintro ⟨members, w, h, hmeta, hw⟩
      obtain rfl := Fragment.object.inj h
      exact ⟨hroom, _, w, .object hadmits, hmeta, hw⟩
  | _ => simp [readConstruct, Json.Shape.read, Json.refuse_ne_ok]

/-- An object that names a type has no member `meta`. -/
theorem valuesOf_meta_of_renders {t : TypeName}
    (h : TypeName.names.Renders room (.object members) t) : valuesOf "meta" members = [] := by
  cases h with
  | key _ _ =>
    have hname : ∀ t ∈ TypeName.all, t.name ≠ "meta" := by decide
    exact Json.Shape.valuesOf_cons_of_ne (hname t (TypeName.mem_all t)) _ _

/-- A name keeps to the limits. -/
theorem inLimits_of_renders {t : TypeName} (h : TypeName.names.Renders room v t) :
    v.InLimits room := by
  cases h with
  | text => exact Fragment.inLimits_scalar.2 rfl
  | key _ hroom =>
    obtain ⟨room, rfl⟩ := Nat.exists_eq_succ_of_ne_zero (Nat.ne_of_gt hroom)
    refine Fragment.inLimits_object.2 (List.forall_mem_singleton.2 ⟨rfl, ?_⟩)
    exact Fragment.inLimits_scalar.2 rfl

/-- An object that neither is a name nor has a member `meta` is in neither form. -/
theorem not_renders_of_no_meta (hmeta : valuesOf "meta" members = []) (hname : members.length ≠ 1)
    (r : ElementRecord) : ¬Renders room (.object members) r := by
  intro h
  cases h with
  | type ht =>
    cases ht with
    | key _ _ => exact hname rfl
  | construct _ hone _ =>
    rw [hmeta] at hone
    cases hone

/-- No value has both forms. -/
theorem not_both_forms {t : TypeName} {c : Construct} (ht : TypeName.names.read room v = .ok t)
    (hc : readConstruct room v = .ok c) : False := by
  have htype := (TypeName.names_complete.read_eq_ok _ _ _).1 ht
  obtain ⟨members, w, rfl, hmeta, -⟩ := (readConstruct_eq_ok (inLimits_of_renders htype)).1 hc
  have hnone := valuesOf_meta_of_renders htype
  rw [hmeta] at hnone
  cases hnone

theorem Renders.inLimits {r : ElementRecord} (h : Renders room v r) : v.InLimits room := by
  cases h with
  | type h => exact inLimits_of_renders h
  | construct hlimits _ _ => exact hlimits

/-- A value is read to an element exactly if it stands for the element. -/
theorem read_eq_ok {r : ElementRecord} : read room v = .ok r ↔ Renders room v r := by
  constructor
  · intro h
    unfold read at h
    split at h
    next hreadable =>
      split at h
      next t ht =>
        obtain rfl := Except.ok.inj h
        exact .type ((TypeName.names_complete.read_eq_ok _ _ _).1 ht)
      next c hc _ =>
        obtain rfl := Except.ok.inj h
        have hlimits := (Fragment.isReadable_iff _ _).1 hreadable
        obtain ⟨members, w, rfl, hmeta, hw⟩ := (readConstruct_eq_ok hlimits).1 hc
        exact .construct hlimits hmeta hw
      next => cases h
    next => cases h
  · intro h
    have hreadable := (Fragment.isReadable_iff room v).2 h.inLimits
    cases h with
    | type ht =>
      have hread := (TypeName.names_complete.read_eq_ok _ _ _).2 ht
      simp [read, hreadable, hread]
    | @construct members w c hlimits hmeta hw =>
      have hread : readConstruct room (.object members) = .ok c :=
        (readConstruct_eq_ok hlimits).2 ⟨members, w, rfl, hmeta, hw⟩
      cases htype : TypeName.names.read room (.object members) with
      | ok t => exact (not_both_forms htype hread).elim
      | error e => simp [read, hreadable, htype, hread]

/-- A value that does not keep to the limits is malformed, whatever its form. -/
theorem read_of_not_inLimits (h : ¬v.InLimits room) : read room v = .error .malformed := by
  rw [read, if_neg (mt (Fragment.isReadable_iff room v).1 h)]

/-- A readable value in neither form is in fault as a whole. -/
theorem read_of_no_form (hlimits : v.InLimits room) (h : ∀ r, ¬Renders room v r) :
    read room v = .error (.data .noAlternative) := by
  have hread : ∀ r, read room v ≠ .ok r := fun r hr => h r (read_eq_ok.1 hr)
  have hreadable := (Fragment.isReadable_iff room v).2 hlimits
  rw [read, if_pos hreadable] at hread ⊢
  split at hread
  next => exact absurd rfl (hread _)
  next => exact absurd rfl (hread _)
  next => rfl

/-- Values that keep to the limits alike and stand for the same elements are read alike. -/
theorem read_congr (hlimits : v.InLimits room ↔ w.InLimits room)
    (h : ∀ r, Renders room v r ↔ Renders room w r) : read room v = read room w := by
  by_cases hv : v.InLimits room
  · by_cases hform : ∃ r, Renders room v r
    · obtain ⟨r, hr⟩ := hform
      rw [read_eq_ok.2 hr, read_eq_ok.2 ((h r).1 hr)]
    · have hnone := not_exists.1 hform
      rw [read_of_no_form hv hnone,
        read_of_no_form (hlimits.1 hv) fun r hr => hnone r ((h r).2 hr)]
  · rw [read_of_not_inLimits hv, read_of_not_inLimits fun hw => hv (hlimits.2 hw)]

/-- An element, where the construct is tried before the type. -/
def readConstructFirst (room : Nat) (v : Fragment) : Except ReadError ElementRecord :=
  if v.isReadable room then
    match readConstruct room v, TypeName.names.read room v with
    | .ok kind, _ => .ok (.construct kind)
    | _, .ok name => .ok (.type name)
    | _, _ => .error (.data .noAlternative)
  else
    .error .malformed

/-- Either form may be tried first. -/
theorem readConstructFirst_eq (room : Nat) (v : Fragment) :
    readConstructFirst room v = read room v := by
  unfold readConstructFirst read
  cases ht : TypeName.names.read room v with
  | error e => cases readConstruct room v <;> rfl
  | ok t =>
    cases hc : readConstruct room v with
    | error e => rfl
    | ok c => exact (not_both_forms ht hc).elim

theorem renders_construct {c : Construct} : Renders room (.object members) (.construct c) ↔
    (Fragment.object members).InLimits room ∧
      ∃ w, valuesOf "meta" members = [w] ∧ Construct.names.Renders room w c := by
  constructor
  · intro h
    cases h with
    | construct hlimits hmeta hw => exact ⟨hlimits, _, hmeta, hw⟩
  · intro ⟨hlimits, w, hmeta, hw⟩
    exact .construct hlimits hmeta hw

/-- Nothing but the members `meta` of an object matters, if it has any. -/
theorem read_of_same_meta (hms : (Fragment.object ms).InLimits room)
    (hns : (Fragment.object ns).InLimits room) (hmeta : valuesOf "meta" ms ≠ [])
    (hsame : valuesOf "meta" ns = valuesOf "meta" ms) :
    read room (.object ns) = read room (.object ms) := by
  refine read_congr (iff_of_true hns hms) fun r => ?_
  cases r with
  | type t =>
    have hnone : ∀ xs, valuesOf "meta" xs ≠ [] → ¬Renders room (.object xs) (.type t) := by
      intro xs hxs h
      cases h with
      | type ht => exact hxs (valuesOf_meta_of_renders ht)
    exact iff_of_false (hnone ns (hsame ▸ hmeta)) (hnone ms hmeta)
  | construct c =>
    rw [renders_construct, renders_construct, hsame]
    exact and_congr_left' (iff_of_true hns hms)

/-- A name has only one order. -/
theorem eq_of_reordering {α : Type} {names : Json.Names α} {a : α} (h : names.Renders room v a)
    (hstep : Fragment.Reordering v w) : w = v := by
  cases h with
  | text => cases hstep
  | key _ _ =>
    -- the object has one member, and what is under it has no members to put in order
    generalize hv : Fragment.object [(.text (names.name a), .scalar .null)] = v at hstep
    cases hstep with
    | members hperm =>
      obtain rfl := Fragment.object.inj hv
      rw [List.singleton_perm.1 hperm]
    | item => cases hv
    | @member v w key ms ns hvalue =>
      have hmem : (key, v) ∈ ms ++ (key, v) :: ns := by simp
      rw [← Fragment.object.inj hv, List.mem_singleton] at hmem
      obtain ⟨-, rfl⟩ := Prod.mk.inj hmem
      cases hvalue

theorem valuesOf_perm (key : String) (h : ms.Perm ns) :
    (valuesOf key ms).Perm (valuesOf key ns) :=
  (h.filter _).map _

/-- A value stands for the same element in any order of its members. -/
theorem renders_of_reordering {r : ElementRecord} (h : Renders room v r)
    (hstep : Fragment.Reordering v w) : Renders room w r := by
  have hlimits := (hstep.inLimits_iff room).1 h.inLimits
  cases h with
  | type ht =>
    rw [eq_of_reordering ht hstep]
    exact .type ht
  | @construct members p c _ hmeta hp =>
    generalize hv : Fragment.object members = v at hstep
    cases hstep with
    | @members ms ns hperm =>
      obtain rfl := Fragment.object.inj hv
      have hperm := valuesOf_perm "meta" hperm
      rw [hmeta] at hperm
      exact .construct hlimits (List.singleton_perm.1 hperm).symm hp
    | item => cases hv
    | @member v w key ms ns hvalue =>
      obtain rfl := Fragment.object.inj hv
      -- only under `meta` does the value matter, and there it is a name
      by_cases hkey : key = .text "meta"
      · have hmem : v ∈ valuesOf "meta" (ms ++ (key, v) :: ns) := by simp [valuesOf, hkey]
        rw [hmeta, List.mem_singleton] at hmem
        rw [hmem] at hvalue hmeta
        rw [eq_of_reordering hp hvalue] at hlimits ⊢
        exact .construct hlimits hmeta hp
      · have hsame : valuesOf "meta" (ms ++ (key, w) :: ns) =
            valuesOf "meta" (ms ++ (key, v) :: ns) := by simp [valuesOf, hkey]
        exact .construct hlimits (hsame.trans hmeta) hp

/-- The order of members makes no difference, at any depth. -/
theorem read_of_reordered (h : Fragment.Reordered v w) : read room w = read room v := by
  induction h with
  | refl => rfl
  | tail _ hstep ih =>
    rw [← ih]
    refine read_congr (hstep.symm.inLimits_iff room) fun r => ?_
    exact ⟨fun h => renders_of_reordering h hstep.symm, fun h => renders_of_reordering h hstep⟩

/-- The record of a type that elements can have. -/
def ofSlotType : SlotType → ElementRecord
  | .builtin b => .type (.builtin b)
  | .construct c => .construct c

theorem ofText_eq_ok {text : String} {r : ElementRecord} :
    ofText text = .ok r ↔ ∃ v : Fragment, v.SpelledBy text ∧ Renders 127 v r := by
  have hwhole : ∀ v, read Json.maxDepth v = .ok r → v.isWhole = true := fun v hv =>
    (read_eq_ok.1 hv).inLimits.isWhole
  rw [ofText, Json.readText_eq_ok hwhole]
  exact exists_congr fun v => and_congr_right' read_eq_ok

theorem renders_type {t : TypeName} :
    Renders room v (.type t) ↔ TypeName.names.Renders room v t := by
  constructor
  · intro h
    cases h with
    | type ht => exact ht
  · exact .type

theorem ofText_eq_type {text : String} {t : TypeName} : ofText text = .ok (.type t) ↔
    ∃ v : Fragment, v.SpelledBy text ∧ TypeName.names.Renders 127 v t := by
  rw [ofText_eq_ok]
  exact exists_congr fun v => and_congr_right' renders_type

theorem ofText_eq_construct {text : String} {c : Construct} :
    ofText text = .ok (.construct c) ↔ ∃ members w, (Fragment.object members).SpelledBy text ∧
      (Fragment.object members).InLimits 127 ∧ valuesOf "meta" members = [w] ∧
        Construct.names.Renders 127 w c := by
  rw [ofText_eq_ok]
  constructor
  · intro ⟨v, hspells, h⟩
    cases h with
    | construct hlimits hmeta hw => exact ⟨_, _, hspells, hlimits, hmeta, hw⟩
  · intro ⟨members, w, hspells, hlimits, hmeta, hw⟩
    exact ⟨_, hspells, .construct hlimits hmeta hw⟩

end ElementRecord

namespace Schema

open ElementRecord (valuesOf)

variable {text other : String}

/-- The type of the elements, by what the text is read as. -/
theorem element_eq (text : String) : element text =
    match ElementRecord.ofText text with
    | .error e => .error (.text e)
    | .ok (.type (.builtin b)) => .ok (.builtin b)
    | .ok (.type .group) => .error (.list .group)
    | .ok (.construct c) => .ok (.construct c) := by
  unfold element
  cases ElementRecord.ofText text with
  | error e => rfl
  | ok r =>
    cases r with
    | type t => cases t <;> rfl
    | construct c => rfl

theorem element_eq_ok {t : SlotType} :
    element text = .ok t ↔ ElementRecord.ofText text = .ok (ElementRecord.ofSlotType t) := by
  rw [element_eq]
  cases ElementRecord.ofText text with
  | error e => simp
  | ok r => cases t <;> split <;> simp_all [ElementRecord.ofSlotType]

/-- Groups are the only elements that a list refuses. -/
theorem element_eq_list {e : ListError} : element text = .error (.list e) ↔
    e = .group ∧ ElementRecord.ofText text = .ok (.type .group) := by
  rw [element_eq]
  cases ElementRecord.ofText text with
  | error e => simp
  | ok r => split <;> simp_all [eq_comm]

theorem element_of_error {e : ReadError} (h : ElementRecord.ofText text = .error e) :
    element text = .error (.text e) := by
  rw [element_eq, h]

theorem element_congr (h : ElementRecord.ofText other = ElementRecord.ofText text) :
    element other = element text := by
  rw [element, element, h]

/-- A text describes elements of a builtin type exactly if it spells a name of the type, and of a
construct exactly if it spells an object, which can be read in full, whose only member `meta` is a
name of the construct; names of groups have a failure of their own. Whatever else can be read in
full is in neither form, and the rest is malformed. Nothing is in both forms, so it makes no
difference which is tried first; nor does the order of members, nor, where an object has a member
`meta`, what its other members are. -/
theorem element_exact (text : String) :
    (∀ b, element text = .ok (.builtin b) ↔
      ∃ v : Fragment, v.SpelledBy text ∧ TypeName.names.Renders 127 v (.builtin b)) ∧
    (∀ c, element text = .ok (.construct c) ↔
      ∃ members w, (Fragment.object members).SpelledBy text ∧
        (Fragment.object members).InLimits 127 ∧ valuesOf "meta" members = [w] ∧
          Construct.names.Renders 127 w c) ∧
    ((∃ e, element text = .error (.list e) ∧ e.message = "lists of groups are not supported") ↔
      ∃ v : Fragment, v.SpelledBy text ∧ TypeName.names.Renders 127 v .group) ∧
    (∀ v : Fragment, v.SpelledBy text → v.InLimits 127 →
      (∀ r, ¬ElementRecord.Renders 127 v r) →
        ∃ fault, element text = .error (.text (.data fault)) ∧
          fault.message = "data did not match any variant of untagged enum ListElementDef") ∧
    (∀ v : Fragment, v.SpelledBy text → ¬v.InLimits 127 →
      element text = .error (.text .malformed)) ∧
    (∀ v t c, TypeName.names.read 127 v = .ok t → ElementRecord.readConstruct 127 v ≠ .ok c) ∧
    Json.readText (ElementRecord.readConstructFirst 127) text = ElementRecord.ofText text ∧
    (∀ (v w : Fragment) (other : String), v.SpelledBy text → w.SpelledBy other → v.Reordered w →
      element other = element text) ∧
    ∀ ms ns other, (Fragment.object ms).SpelledBy text → (Fragment.object ns).SpelledBy other →
      (Fragment.object ms).InLimits 127 → (Fragment.object ns).InLimits 127 →
        valuesOf "meta" ms ≠ [] → valuesOf "meta" ns = valuesOf "meta" ms →
          element other = element text := by
  have hread : ∀ {v : Fragment} {text : String}, v.SpelledBy text →
      ElementRecord.ofText text = (ElementRecord.read 127 v).mapError Json.ReadError.reported :=
    Json.readText_of_spelledBy
  refine ⟨fun b => ?_, fun c => ?_, ?_, ?_, ?_, ?_, ?_, ?_, ?_⟩
  · rw [element_eq_ok, ElementRecord.ofSlotType, ElementRecord.ofText_eq_type]
  · rw [element_eq_ok, ElementRecord.ofSlotType, ElementRecord.ofText_eq_construct]
  · rw [← ElementRecord.ofText_eq_type]
    constructor
    · intro ⟨e, he, _⟩
      exact (element_eq_list.1 he).2
    · intro h
      exact ⟨.group, element_eq_list.2 ⟨rfl, h⟩, rfl⟩
  · intro v hspells hlimits hnone
    have hfault := hread hspells
    rw [ElementRecord.read_of_no_form hlimits hnone] at hfault
    exact ⟨_, element_of_error hfault, rfl⟩
  · intro v hspells hlimits
    have hfault := hread hspells
    rw [ElementRecord.read_of_not_inLimits hlimits] at hfault
    exact element_of_error hfault
  · intro v t c ht hc
    exact ElementRecord.not_both_forms ht hc
  · rw [funext (ElementRecord.readConstructFirst_eq 127)]
    rfl
  · intro v w other hv hw hsame
    apply element_congr
    rw [hread hv, hread hw, ElementRecord.read_of_reordered hsame]
  · intro ms ns other hms hns hlimits hlimits' hmeta hsame
    apply element_congr
    rw [hread hms, hread hns, ElementRecord.read_of_same_meta hlimits hlimits' hmeta hsame]

def boolMember : Json.Key × Fragment :=
  (.text "Bool", .scalar .null)

def enumMember : Json.Key × Fragment :=
  (.text "meta", .object [(.text "enum", .scalar .null)])

def twoNames : Fragment :=
  .object [boolMember, (.text "Text", .scalar .null)]

def tooLarge : Fragment :=
  .array [.scalar (.number ⟨false, 1, [], some 999⟩)]

theorem spelledBy_named : (Fragment.object [boolMember, enumMember]).SpelledBy
    "\x7b\"Bool\":null, \"meta\":\x7b\"enum\":null\x7d\x7d" :=
  Json.Document.spelledBy_of_ofText rfl (by cbv)

theorem spelledBy_turned : (Fragment.object [enumMember, boolMember]).SpelledBy
    "\x7b\"meta\":\x7b\"enum\":null\x7d,\"Bool\":null\x7d" :=
  Json.Document.spelledBy_of_ofText rfl (by cbv)

theorem spelledBy_alone : (Fragment.object [enumMember]).SpelledBy
    "\x7b\"meta\":\x7b\"enum\":null\x7d\x7d" :=
  Json.Document.spelledBy_of_ofText rfl (by cbv)

theorem spelledBy_bool : (Fragment.object [boolMember]).SpelledBy "\x7b\"Bool\":null\x7d" :=
  Json.Document.spelledBy_of_ofText rfl (by cbv)

theorem spelledBy_group : (Fragment.ofName "group").SpelledBy " \"group\"" :=
  Json.Document.spelledBy_of_ofText rfl (by cbv)

theorem spelledBy_twoNames : twoNames.SpelledBy "\x7b\"Bool\":null,\"Text\":null\x7d" :=
  Json.Document.spelledBy_of_ofText rfl (by cbv)

theorem spelledBy_tooLarge : tooLarge.SpelledBy "[1e999]" :=
  Json.Document.spelledBy_of_ofText rfl (by cbv)

theorem inLimits_named : (Fragment.object [boolMember, enumMember]).InLimits 127 :=
  (Fragment.isReadable_iff _ _).1 (by cbv)

theorem inLimits_alone : (Fragment.object [enumMember]).InLimits 127 :=
  (Fragment.isReadable_iff _ _).1 (by cbv)

theorem inLimits_twoNames : twoNames.InLimits 127 :=
  (Fragment.isReadable_iff _ _).1 (by cbv)

theorem not_inLimits_tooLarge : ¬tooLarge.InLimits 127 := by
  have hvalue : (Json.Scalar.number ⟨false, 1, [], some 999⟩).found.isSome = false := by
    decide +kernel
  intro h
  have hsound := Fragment.inLimits_scalar.1 (Fragment.inLimits_array.1 h _ List.mem_cons_self)
  rw [hvalue] at hsound
  cases hsound

/-- A construct beside the name of a type, in another order and alone; the names of a type and of
groups; two names at once; and a number that is too large. -/
theorem element_exact_beside_type_name :
    let named := "\x7b\"Bool\":null, \"meta\":\x7b\"enum\":null\x7d\x7d"
    let turned := "\x7b\"meta\":\x7b\"enum\":null\x7d,\"Bool\":null\x7d"
    let alone := "\x7b\"meta\":\x7b\"enum\":null\x7d\x7d"
    element named = .ok (.construct .enum) ∧ element turned = .ok (.construct .enum) ∧
      element alone = .ok (.construct .enum) ∧
      element "\x7b\"Bool\":null\x7d" = .ok (.builtin .bool) ∧
      (∃ e, element " \"group\"" = .error (.list e) ∧
        e.message = "lists of groups are not supported") ∧
      (∃ fault, element "\x7b\"Bool\":null,\"Text\":null\x7d" = .error (.text (.data fault)) ∧
        fault.message = "data did not match any variant of untagged enum ListElementDef") ∧
      element "[1e999]" = .error (.text .malformed) := by
  intro named turned alone
  have henum : Construct.names.Renders 127 enumMember.2 .enum := .key Construct.enum (by decide)
  have hbool : TypeName.names.Renders 127 (.object [boolMember]) (.builtin .bool) :=
    .key (TypeName.builtin .bool) (by decide)
  obtain ⟨-, hconstruct, -, -, -, -, -, hreordered, hmeta⟩ := element_exact named
  have hresult : element named = .ok (.construct .enum) :=
    (hconstruct .enum).2 ⟨_, _, spelledBy_named, inLimits_named, rfl, henum⟩
  have hstep := Fragment.Reordering.members (List.Perm.swap enumMember boolMember [])
  have hother := hreordered _ _ turned spelledBy_named spelledBy_turned (.single hstep)
  have hsame := hmeta _ _ alone spelledBy_named spelledBy_alone inLimits_named inLimits_alone
    (List.cons_ne_nil enumMember.2 []) rfl
  have hnone : ∀ r, ¬ElementRecord.Renders 127 twoNames r :=
    ElementRecord.not_renders_of_no_meta rfl (by decide)
  exact ⟨hresult, hother.trans hresult, hsame.trans hresult,
    ((element_exact _).1 .bool).2 ⟨_, spelledBy_bool, hbool⟩,
    (element_exact _).2.2.1.2 ⟨_, spelledBy_group, .text TypeName.group⟩,
    (element_exact _).2.2.2.1 _ spelledBy_twoNames inLimits_twoNames hnone,
    (element_exact _).2.2.2.2.1 _ spelledBy_tooLarge not_inLimits_tooLarge⟩

end Schema

end VariantStorage
