import VariantStorage.Json.Reader
import VariantStorage.Proofs.Json.Nesting

/-!
What is read in full. A value that is looked at throughout has to keep to limits everywhere in it:
on its depth, on its numbers and on the halves of surrogate pairs. The order of the members of an
object is none of them.
-/
namespace VariantStorage.Json

/-- Whether the token may stand in a value that is read in full: numbers have to be finite, and
texts have to be made of characters. -/
def Token.isSound : Token → Bool
  | .scalar s => s.found.isSome
  | .malformed => false
  | _ => true

theorem Token.isSound_punctuation (t : Token) (h : t.isPunctuation = true) : t.isSound = true := by
  cases t <;> first | rfl | cases h

namespace Fragment

/-- The value can be read in full where so many brackets may be open. -/
structure InLimits (room : Nat) (v : Fragment) : Prop where
  depth_le : v.depth ≤ room
  sound : ∀ t ∈ v.tokens, t.isSound = true

theorem inLimits_scalar {room : Nat} {s : Scalar} :
    InLimits room (.scalar s) ↔ s.found.isSome = true := by
  constructor
  · intro h
    exact h.sound _ (List.mem_singleton.2 rfl)
  · intro h
    exact ⟨Nat.zero_le room, List.forall_mem_singleton.2 h⟩

/-- An array needs a bracket more than its items. -/
theorem inLimits_array {room : Nat} {items : List Fragment} :
    InLimits (room + 1) (.array items) ↔ ∀ v ∈ items, v.InLimits room := by
  have hsound : (∀ t ∈ (Fragment.array items).tokens, t.isSound = true) ↔
      ∀ v ∈ items, ∀ t ∈ v.tokens, t.isSound = true :=
    forall_tokens_array Token.isSound_punctuation
  have hdepth : (Fragment.array items).depth ≤ room + 1 ↔ ∀ v ∈ items, v.depth ≤ room := by
    rw [depth, Nat.add_le_add_iff_right, depthOfItems_le]
  constructor
  · intro h v hv
    exact ⟨hdepth.1 h.depth_le v hv, hsound.1 h.sound v hv⟩
  · intro h
    exact ⟨hdepth.2 fun v hv => (h v hv).depth_le, hsound.2 fun v hv => (h v hv).sound⟩

/-- An object needs a bracket more than its members, and its keys have to be texts. -/
theorem inLimits_object {room : Nat} {members : List (Key × Fragment)} :
    InLimits (room + 1) (.object members) ↔
      ∀ m ∈ members, m.1.isText = true ∧ m.2.InLimits room := by
  have hsound : (∀ t ∈ (Fragment.object members).tokens, t.isSound = true) ↔
      ∀ m ∈ members, m.1.token.isSound = true ∧ ∀ t ∈ m.2.tokens, t.isSound = true :=
    forall_tokens_object Token.isSound_punctuation
  have hdepth : (Fragment.object members).depth ≤ room + 1 ↔ ∀ m ∈ members, m.2.depth ≤ room := by
    rw [depth, Nat.add_le_add_iff_right, depthOfMembers_le]
  have hkey : ∀ key : Key, key.token.isSound = key.isText := by
    intro key
    cases key <;> rfl
  constructor
  · intro h m hm
    obtain ⟨htext, htokens⟩ := hsound.1 h.sound m hm
    exact ⟨(hkey m.1).symm.trans htext, hdepth.1 h.depth_le m hm, htokens⟩
  · intro h
    refine ⟨hdepth.2 fun m hm => (h m hm).2.depth_le, hsound.2 fun m hm => ?_⟩
    exact ⟨(hkey m.1).trans (h m hm).1, (h m hm).2.sound⟩

/-- A value can be read in full exactly if it keeps to the limits. -/
theorem isReadable_iff (room : Nat) (v : Fragment) :
    v.isReadable room = true ↔ v.InLimits room := by
  match room, v with
  | room, .cut =>
    have hcut : ¬InLimits room .cut := fun h =>
      nomatch h.sound .malformed (List.mem_singleton.2 rfl)
    simp [isReadable, hcut]
  | room, .scalar s => rw [isReadable, inLimits_scalar]
  | 0, .array items =>
    have hnone : ¬InLimits 0 (.array items) := fun h => Nat.not_succ_le_zero _ h.depth_le
    simp [isReadable, hnone]
  | 0, .object members =>
    have hnone : ¬InLimits 0 (.object members) := fun h => Nat.not_succ_le_zero _ h.depth_le
    simp [isReadable, hnone]
  | room + 1, .array items =>
    rw [isReadable, inLimits_array, List.all_eq_true]
    exact forall₂_congr fun v _ => isReadable_iff room v
  | room + 1, .object members =>
    rw [isReadable, inLimits_object, List.all_eq_true]
    refine forall₂_congr fun m _ => ?_
    rw [Bool.and_eq_true, isReadable_iff room m.2]

theorem InLimits.isWhole {room : Nat} {v : Fragment} (h : v.InLimits room) : v.isWhole = true := by
  rw [isWhole_iff]
  intro t ht hmalformed
  have hsound := h.sound t ht
  rw [hmalformed] at hsound
  cases hsound

/-- The members of one object in the value, at any depth, are put into another order. -/
inductive Reordering : Fragment → Fragment → Prop where
  | members {ms ns : List (Key × Fragment)} (h : ms.Perm ns) : Reordering (.object ms) (.object ns)
  | item {v w : Fragment} (vs ws : List Fragment) (h : Reordering v w) :
      Reordering (.array (vs ++ v :: ws)) (.array (vs ++ w :: ws))
  | member {v w : Fragment} (key : Key) (ms ns : List (Key × Fragment)) (h : Reordering v w) :
      Reordering (.object (ms ++ (key, v) :: ns)) (.object (ms ++ (key, w) :: ns))

/-- The values are equal but for the order of the members of objects. -/
def Reordered : Fragment → Fragment → Prop :=
  Relation.ReflTransGen Reordering

theorem Reordering.symm {v w : Fragment} (h : Reordering v w) : Reordering w v := by
  induction h with
  | members h => exact .members h.symm
  | item vs ws _ ih => exact .item vs ws ih
  | member key ms ns _ ih => exact .member key ms ns ih

theorem Reordering.isReadable_eq {v w : Fragment} (h : Reordering v w) (room : Nat) :
    v.isReadable room = w.isReadable room := by
  induction h generalizing room with
  | members h =>
    cases room with
    | zero => rfl
    | succ room => exact h.all_eq
  | item vs ws _ ih =>
    cases room with
    | zero => rfl
    | succ room => simp [isReadable, ih]
  | member key ms ns _ ih =>
    cases room with
    | zero => rfl
    | succ room => simp [isReadable, ih]

/-- Whether a value keeps to the limits does not depend on the order of members. -/
theorem Reordering.inLimits_iff {v w : Fragment} (h : Reordering v w) (room : Nat) :
    v.InLimits room ↔ w.InLimits room := by
  rw [← isReadable_iff, ← isReadable_iff, h.isReadable_eq]

end Fragment

end VariantStorage.Json
