import VariantStorage.Proofs.Record.Writing

/-!
How deep the part of a value is that a reader of records looks at. Brackets under a key that is no
field are skipped and do not count. What stands for records where there is room for many brackets
stands for the same records exactly where there is room for those that are looked at.
-/
namespace VariantStorage

open Json (Fragment Given Nullable)

namespace FieldRecord

mutual

/-- The largest number of brackets around a place in a field record that is looked at. -/
def typedDepth : Fragment → Nat
  | .object members => typedDepthOfMembers members + 1
  | .array items => typedDepthOfItems shape.keys items + 1
  | _ => 0

/-- The depth of the deepest member, where only the members for fields are looked at. -/
def typedDepthOfMembers : List (Json.Key × Fragment) → Nat
  | [] => 0
  | (.text s, v) :: ms =>
    match shape.find? s with
    | some k => max (typedDepthAt k v) (typedDepthOfMembers ms)
    | none => typedDepthOfMembers ms
  | (_, _) :: ms => typedDepthOfMembers ms

/-- The depth of the deepest item, where the items are values of these fields. -/
def typedDepthOfItems : List Key → List Fragment → Nat
  | k :: ks, v :: vs => max (typedDepthAt k v) (typedDepthOfItems ks vs)
  | _, _ => 0

def typedDepthAt : Key → Fragment → Nat
  | .fields, .array items => typedDepthOfRecords items + 1
  | .fields, _ => 0
  | _, v => v.depth

def typedDepthOfRecords : List Fragment → Nat
  | [] => 0
  | v :: vs => max (typedDepth v) (typedDepthOfRecords vs)

end

/-- The largest number of nested brackets in the text of an array of field records that is looked
at. -/
def typedNesting (text : String) : Nat :=
  typedDepthAt .fields (Json.Document.ofText text).value

example : typedNesting "[\x7b\"x\":[[[]]],\"type\":\x7b\"Bool\":null\x7d\x7d]" = 3 := by cbv

theorem typedDepthAt_eq {k : Key} (h : k ≠ .fields) (v : Fragment) :
    typedDepthAt k v = v.depth := by
  rw [typedDepthAt]
  · exact h
  · exact fun _ hk _ => h hk

theorem typedDepthOfRecords_le {vs : List Fragment} {n : Nat} :
    typedDepthOfRecords vs ≤ n ↔ ∀ v ∈ vs, typedDepth v ≤ n := by
  induction vs with
  | nil => simp [typedDepthOfRecords]
  | cons v vs ih => rw [typedDepthOfRecords, Nat.max_le, ih, List.forall_mem_cons]

/-- Where a field is given one value more, a bound holds of that value and of those given later. -/
theorem forall_typedDepthAt_cons {values later : Key → List Fragment} {k₀ : Key} {v : Fragment}
    (hsame : values k₀ = v :: later k₀) (hother : ∀ k, k ≠ k₀ → values k = later k) {n : Nat} :
    (∀ k, ∀ w ∈ values k, typedDepthAt k w ≤ n) ↔
      typedDepthAt k₀ v ≤ n ∧ ∀ k, ∀ w ∈ later k, typedDepthAt k w ≤ n := by
  constructor
  · intro h
    have hk₀ := h k₀
    rw [hsame] at hk₀
    obtain ⟨hv, hlater⟩ := List.forall_mem_cons.1 hk₀
    refine ⟨hv, fun k => ?_⟩
    by_cases hk : k = k₀
    · exact hk ▸ hlater
    · rw [← hother k hk]
      exact h k
  · intro ⟨hv, hlater⟩ k
    by_cases hk : k = k₀
    · rw [hk, hsame]
      exact List.forall_mem_cons.2 ⟨hv, hlater k₀⟩
    · rw [hother k hk]
      exact hlater k

theorem typedDepthOfMembers_le {ms : List (Json.Key × Fragment)} {n : Nat} :
    typedDepthOfMembers ms ≤ n ↔
      ∀ k, ∀ w ∈ ElementRecord.valuesOf (shape.name k) ms, typedDepthAt k w ≤ n := by
  induction ms with
  | nil => simp [typedDepthOfMembers, ElementRecord.valuesOf]
  | cons m ms ih =>
    obtain ⟨key, v⟩ := m
    cases key with
    | text s =>
      cases hfind : shape.find? s with
      | none =>
        -- what stands under a key that is no field is skipped
        have hne := (Json.Shape.find?_eq_none shape_complete).1 hfind
        simp only [typedDepthOfMembers, hfind, ih]
        exact forall_congr' fun k => by rw [Json.Shape.valuesOf_cons_of_ne (hne k).symm]
      | some k₀ =>
        obtain rfl := (Json.Shape.find?_eq_some shape_complete).1 hfind
        have hsame := Json.Shape.valuesOf_cons (shape.name k₀) v ms
        have hother : ∀ k, k ≠ k₀ →
            ElementRecord.valuesOf (shape.name k) ((.text (shape.name k₀), v) :: ms) =
              ElementRecord.valuesOf (shape.name k) ms :=
          fun k hk => Json.Shape.valuesOf_cons_field shape_complete hk v ms
        simp only [typedDepthOfMembers, hfind, Nat.max_le, ih]
        exact (forall_typedDepthAt_cons hsame hother).symm
    | unpaired => exact ih
    | missing => exact ih

theorem typedDepthOfItems_le {ks : List Key} (hks : ks.Nodup) {vs : List Fragment}
    (hlength : vs.length ≤ ks.length) {n : Nat} :
    typedDepthOfItems ks vs ≤ n ↔ ∀ k, ∀ w ∈ vs[ks.idxOf k]?.toList, typedDepthAt k w ≤ n := by
  induction ks generalizing vs with
  | nil =>
    obtain rfl := List.length_eq_zero_iff.1 (Nat.le_zero.1 hlength)
    simp [typedDepthOfItems]
  | cons k₀ ks ih =>
    obtain ⟨hk₀, hks⟩ := List.nodup_cons.1 hks
    cases vs with
    | nil => simp [typedDepthOfItems]
    | cons v vs =>
      have hrest : vs.length ≤ ks.length := Nat.le_of_succ_le_succ hlength
      rw [typedDepthOfItems, Nat.max_le, ih hks hrest]
      refine (forall_typedDepthAt_cons ?_ ?_).symm
      · exact Json.Shape.item_head hk₀ hrest v
      · exact fun k hk => Json.Shape.item_tail hk v vs

/-- A record is as deep as what is given to its fields, and its own bracket. -/
theorem typedDepth_le {v : Fragment} {values : Key → List Fragment} (h : shape.Presents v values)
    {n : Nat} : typedDepth v ≤ n + 1 ↔ ∀ k, ∀ w ∈ values k, typedDepthAt k w ≤ n := by
  cases h with
  | object _ => rw [typedDepth, Nat.add_le_add_iff_right, typedDepthOfMembers_le]
  | array hlength =>
    rw [typedDepth, Nat.add_le_add_iff_right,
      typedDepthOfItems_le (Json.Shape.keys_nodup shape_complete) hlength]

theorem typedDepth_pos {v : Fragment} {values : Key → List Fragment}
    (h : shape.Presents v values) : 0 < typedDepth v := by
  cases h <;> exact Nat.succ_pos _

end FieldRecord

namespace Json.Names

variable {α : Type} {names : Names α} {room room' : Nat} {v : Fragment} {a : α}

/-- A name is no deeper than the room in which it stands. -/
theorem Renders.depth_le (h : names.Renders room v a) : v.depth ≤ room := by
  cases h with
  | text => exact Nat.zero_le room
  | key _ hroom => exact hroom

/-- A name needs no more room than it is deep. -/
theorem Renders.of_depth_le (h : names.Renders room v a) (hdepth : v.depth ≤ room') :
    names.Renders room' v a := by
  cases h with
  | text => exact .text a
  | key => exact .key a hdepth

end Json.Names

namespace FieldRecord

mutual

/-- What stands for a record where there is so much room is no deeper than that. -/
theorem Renders.typedDepth_le {room : Nat} {v : Fragment} {r : FieldRecord}
    (h : Renders room v r) : typedDepth v ≤ room := by
  match room with
  | 0 => exact absurd h (by simp [Renders])
  | room + 1 =>
    obtain ⟨values, hpresents, hholds⟩ := renders_succ.1 h
    refine (FieldRecord.typedDepth_le hpresents).2 fun k => Json.given_forall (hholds k) ?_
    cases k with
    | offset => exact Json.nullable_forall (Nat.zero_le room) fun v n hv => hv ▸ Nat.zero_le room
    | type =>
      exact Json.nullable_forall (Nat.zero_le room) fun v t hv =>
        (typedDepthAt_eq (by decide) v).trans_le hv.depth_le
    | kind =>
      exact Json.nullable_forall (Nat.zero_le room) fun v c hv =>
        (typedDepthAt_eq (by decide) v).trans_le hv.depth_le
    | discriminant => exact fun v d hv => hv ▸ Nat.zero_le room
    | fields =>
      exact Json.nullable_forall (Nat.zero_le room) fun v rs hv => RendersList.typedDepth_le hv

theorem RendersList.typedDepth_le {room : Nat} {v : Fragment} {rs : List FieldRecord}
    (h : RendersList room v rs) : typedDepthAt .fields v ≤ room := by
  match room with
  | 0 => exact absurd h (by simp [RendersList])
  | room + 1 =>
    rw [RendersList] at h
    obtain ⟨items, rfl, hitems⟩ := h
    have hdepths := hitems.imp fun w r hw => And.intro (Renders.typedDepth_le hw) hw
    rw [typedDepthAt, Nat.add_le_add_iff_right, typedDepthOfRecords_le]
    exact ((List.forall₂_and_left items rs).1 hdepths).1

end

mutual

/-- What stands for a record needs no more room than it is deep. -/
theorem Renders.of_typedDepth_le {room room' : Nat} {v : Fragment} {r : FieldRecord}
    (h : Renders room v r) (hdepth : typedDepth v ≤ room') : Renders room' v r := by
  match room with
  | 0 => exact absurd h (by simp [Renders])
  | room + 1 =>
    obtain ⟨values, hpresents, hholds⟩ := renders_succ.1 h
    match room' with
    | 0 => exact absurd (typedDepth_pos hpresents) (Nat.not_lt.2 hdepth)
    | room' + 1 =>
      have hvalues := (FieldRecord.typedDepth_le hpresents).1 hdepth
      refine renders_succ.2 ⟨values, hpresents, fun k => Json.given_imp (hholds k) ?_⟩
      intro w hw
      have hroom := hvalues k w hw
      cases k with
      | offset => exact id
      | type =>
        rw [typedDepthAt_eq (by decide)] at hroom
        exact fun hpart => Json.nullable_imp hpart fun t ht => ht.of_depth_le hroom
      | kind =>
        rw [typedDepthAt_eq (by decide)] at hroom
        exact fun hpart => Json.nullable_imp hpart fun c hc => hc.of_depth_le hroom
      | discriminant => exact id
      | fields =>
        exact fun hpart => Json.nullable_imp hpart fun rs hrs =>
          RendersList.of_typedDepth_le hrs hroom

/-- Records stand in any room that is as large as they are deep. -/
theorem RendersList.of_typedDepth_le {room room' : Nat} {v : Fragment} {rs : List FieldRecord}
    (h : RendersList room v rs) (hdepth : typedDepthAt .fields v ≤ room') :
    RendersList room' v rs := by
  match room with
  | 0 => exact absurd h (by simp [RendersList])
  | room + 1 =>
    rw [RendersList] at h
    obtain ⟨items, rfl, hitems⟩ := h
    match room' with
    | 0 => exact absurd hdepth (Nat.not_succ_le_zero _)
    | room' + 1 =>
      have hrecords := typedDepthOfRecords_le.1 (Nat.le_of_succ_le_succ hdepth)
      rw [RendersList]
      refine ⟨items, rfl, ?_⟩
      exact ((List.forall₂_and_left items rs).2 ⟨hrecords, hitems⟩).imp
        fun w r hw => Renders.of_typedDepth_le hw.2 hw.1

end

end FieldRecord

end VariantStorage
