import VariantStorage.Proofs.Record.Grammar

/-!
Room for brackets. Up to the bracket that finds no room left, a reader has read the same as one with
more room, and there it finds the text malformed. So less room never turns an answer into another
one: the answer is the same, or it is `malformed`.
-/
namespace VariantStorage

open Json (Fragment ReadError)

namespace Json

variable {α β κ σ : Type}

/-- The first answer is the second one, or malformed. -/
def Within (x y : Except ReadError α) : Prop :=
  x = .error .malformed ∨ x = y

theorem Within.refl (x : Except ReadError α) : Within x x :=
  .inr rfl

/-- What is not the second answer is malformed. -/
theorem Within.eq_malformed {x y : Except ReadError α} (h : Within x y) (hne : x ≠ y) :
    x = .error .malformed :=
  Or.resolve_right h hne

theorem Within.malformed (y : Except ReadError α) : Within (.error .malformed) y :=
  .inl rfl

theorem Within.bind {x y : Except ReadError α} {f g : α → Except ReadError β} (h : Within x y)
    (hf : ∀ a, Within (f a) (g a)) : Within (x >>= f) (y >>= g) := by
  rcases h with rfl | rfl
  · exact .malformed _
  · cases x with
    | error e => exact .refl _
    | ok a => exact hf a

theorem Within.map {x y : Except ReadError α} (h : Within x y) (f : α → β) :
    Within (x.map f) (y.map f) :=
  h.bind fun a => .refl (.ok (f a))

variable {room room' : Nat}

/-- A bracket that finds no room is malformed; one that finds room leaves both readers to go on. -/
theorem within_bracket {x y : Except ReadError α} (h : room ≤ room') (hxy : 0 < room → Within x y) :
    Within (if room = 0 then .error .malformed else x)
      (if room' = 0 then .error .malformed else y) := by
  by_cases hroom : room = 0
  · rw [if_pos hroom]
    exact .malformed _
  · have hroom' : room' ≠ 0 := by omega
    rw [if_neg hroom, if_neg hroom']
    exact hxy (Nat.pos_of_ne_zero hroom)

theorem Names.read_within (names : Names α) (h : room ≤ room') (v : Fragment) :
    Within (names.read room v) (names.read room' v) := by
  unfold read
  split
  · exact .refl _
  · exact within_bracket h fun _ => .refl _
  · exact .refl _

theorem readOption_within {read read' : Fragment → Except ReadError α}
    (h : ∀ v, Within (read v) (read' v)) (v : Fragment) :
    Within (readOption read v) (readOption read' v) := by
  unfold readOption
  split
  · exact .refl _
  · exact (h v).map some

theorem mapM_within {f g : β → Except ReadError α} (h : ∀ x, Within (f x) (g x)) (xs : List β) :
    Within (xs.mapM f) (xs.mapM g) := by
  induction xs with
  | nil => exact .refl _
  | cons x xs ih =>
    rw [List.mapM_cons, List.mapM_cons]
    exact (h x).bind fun a => ih.bind fun as => .refl _

theorem readList_within {item item' : Fragment → Except ReadError α} (h : room ≤ room')
    (hitem : 0 < room → ∀ v, Within (item v) (item' v)) (v : Fragment) :
    Within (readList item room v) (readList item' room' v) := by
  unfold readList
  split
  · exact within_bracket h fun hroom => mapM_within (hitem hroom) _
  · exact .refl _

namespace Shape

variable [DecidableEq κ] (shape : Shape κ σ) {set set' : κ → Fragment → σ → Except ReadError σ}

/-- Members are read alike as long as their values are. -/
theorem readMembers_within (h : ∀ k v r, Within (set k v r) (set' k v r)) (seen : List κ) (r : σ)
    (ms : List (Key × Fragment)) :
    Within (shape.readMembers set seen r ms) (shape.readMembers set' seen r ms) := by
  induction ms generalizing seen r with
  | nil => exact .refl _
  | cons m ms ih =>
    obtain ⟨key, v⟩ := m
    cases key with
    | text s =>
      cases hfind : shape.find? s with
      | none =>
        rw [readMembers_other hfind, readMembers_other hfind]
        split
        · exact ih seen r
        · exact .refl _
      | some k =>
        rw [readMembers_field hfind, readMembers_field hfind]
        split
        · exact .refl _
        · exact (h k v r).bind fun record => ih (k :: seen) record
    | unpaired => exact .refl _
    | missing => exact .refl _

omit [DecidableEq κ] in
theorem readItems_within (h : ∀ k v r, Within (set k v r) (set' k v r)) (keys : List κ) (r : σ)
    (items : List Fragment) :
    Within (readItems set keys r items) (readItems set' keys r items) := by
  induction items generalizing keys r with
  | nil =>
    rw [readItems, readItems]
    exact .refl _
  | cons v vs ih =>
    cases keys with
    | nil => exact .refl _
    | cons k keys => exact (h k v r).bind fun record => ih keys record

theorem read_within (h : room ≤ room') (hset : 0 < room → ∀ k v r, Within (set k v r) (set' k v r))
    (v : Fragment) : Within (shape.read set room v) (shape.read set' room' v) := by
  unfold read
  split
  · refine within_bracket h fun hroom => ?_
    exact (readMembers_within shape (hset hroom) _ _ _).bind fun _ => .refl _
  · refine within_bracket h fun hroom => ?_
    exact (readItems_within (hset hroom) _ _ _).bind fun _ => .refl _
  · exact .refl _

end Shape

end Json

open Json (Within)

namespace FieldRecord

mutual

theorem read_within {room room' : Nat} (h : room ≤ room') (v : Fragment) :
    Within (read room v) (read room' v) := by
  rw [read_eq_shape_read, read_eq_shape_read]
  refine shape.read_within h (fun hroom k v r => ?_) v
  have hless : room - 1 ≤ room' - 1 := by omega
  refine Within.map ?_ _
  cases k with
  | offset => exact .refl _
  | type => exact Json.readOption_within (TypeName.names.read_within hless) v
  | kind => exact Json.readOption_within (Construct.names.read_within hless) v
  | discriminant => exact .refl _
  | fields => exact Json.readOption_within (fun w => readList_within hless w) v
termination_by room

/-- With more room field records are read alike, or were malformed before. -/
theorem readList_within {room room' : Nat} (h : room ≤ room') (v : Fragment) :
    Within (readList room v) (readList room' v) := by
  refine Json.readList_within h (fun hroom w => ?_) v
  exact read_within (by omega) w
termination_by room

end

end FieldRecord

/-- Less room for a struct record never gives another answer but `malformed`. -/
theorem StructRecord.read_within {room room' : Nat} (h : room ≤ room') (v : Fragment) :
    Within (read room v) (read room' v) := by
  have hless : room - 1 ≤ room' - 1 := by omega
  exact shape.read_within h (fun _ _ w _ => (FieldRecord.readList_within hless w).map _) v

end VariantStorage
