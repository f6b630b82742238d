import VariantStorage.Proofs.Union.Pointers

/-!
The collectors as one flattening. Each of them runs through the slots of a field in the order in
which its groups list them, takes up the slots of its own kinds, and fails where one of these
overflows. No slot is of a kind that two of them take up.

Tags and brackets are all that is lost in the slots: two lists of fields have the same slots in the
same order exactly if one becomes the other when tags are changed and brackets are put around
neighbours or taken away. So these changes leave no trace in what is collected.
-/
namespace VariantStorage

variable {α β ε : Type}

/-- Where `f` gives one result for the elements that satisfy `p`, and none for the others, a
traversal gives the results for the elements that satisfy `p`, one by one. -/
theorem gather_eq_ok_filter {f : α → Except ε (List β)} {p : α → Bool} {R : α → β → Prop}
    (hf : ∀ x ys, f x = .ok ys ↔ if p x then ∃ y, R x y ∧ ys = [y] else ys = [])
    {xs : List α} {out : List β} :
    gather f xs = .ok out ↔ List.Forall₂ R (xs.filter p) out := by
  induction xs generalizing out with
  | nil => simp [eq_comm]
  | cons x xs ih =>
    rw [gather_cons_eq_ok]
    by_cases hp : p x = true
    · rw [List.filter_cons_of_pos hp, List.forall₂_cons_left_iff]
      constructor
      · rintro ⟨here, later, hx, hxs, hout⟩
        rw [hf, if_pos hp] at hx
        obtain ⟨y, hy, rfl⟩ := hx
        exact ⟨y, later, hy, ih.1 hxs, hout.symm⟩
      · rintro ⟨y, later, hy, hxs, hout⟩
        have hx : f x = .ok [y] := by
          rw [hf, if_pos hp]
          exact ⟨y, hy, rfl⟩
        exact ⟨[y], later, hx, ih.2 hxs, hout.symm⟩
    · rw [List.filter_cons_of_neg hp, ← ih]
      constructor
      · rintro ⟨here, later, hx, hxs, hout⟩
        rw [hf, if_neg hp] at hx
        subst hx
        exact hout ▸ hxs
      · intro hxs
        have hx : f x = .ok [] := by
          rw [hf, if_neg hp]
        exact ⟨[], out, hx, hxs, rfl⟩

namespace Slot

/-- The pointer starts at the byte of the pointer section. -/
def StartsAt (s : Slot) (p : UInt64) : Prop :=
  p.toNat = 8 * s.offset.toNat

instance (s : Slot) : Decidable s.IsReference :=
  inferInstanceAs (Decidable (_ ∨ _ ∨ _))

/-- A slot gives the range that it stores a number or an enum in, or none. -/
theorem bytes_eq_ok (s : Slot) (ranges : List ByteRange) : s.bytes = .ok ranges ↔
    if s.type.dataWidth.isSome then ∃ r, s.Stores r ∧ ranges = [r] else ranges = [] := by
  unfold bytes Stores
  cases hw : s.type.dataWidth with
  | none => simp [eq_comm]
  | some w =>
    simp only [bind_eq_ok, Word.mul_eq_ok, pure, Except.pure, Except.ok.injEq, Option.isSome_some,
      if_true, Option.some.injEq]
    constructor
    · rintro ⟨p, hp, hranges⟩
      exact ⟨⟨p, w⟩, ⟨rfl, hp⟩, hranges.symm⟩
    · rintro ⟨r, ⟨hwidth, hposition⟩, hranges⟩
      subst hwidth
      exact ⟨r.position, hposition, hranges.symm⟩

theorem pointers_eq_ok (s : Slot) (ps : List UInt64) : s.pointers = .ok ps ↔
    if decide s.IsReference then ∃ p, s.StartsAt p ∧ ps = [p] else ps = [] := by
  have h8 : Storage.pointerBytes.toNat = 8 := rfl
  unfold pointers StartsAt
  by_cases href : s.IsReference
  · rw [if_pos (isReference_iff.1 href)]
    simp only [href, decide_true, if_true, bind_eq_ok, Storage.pointerPosition, Word.mul_eq_ok, h8,
      pure, Except.pure, Except.ok.injEq]
    constructor
    · rintro ⟨p, hp, hps⟩
      exact ⟨p, hp, hps.symm⟩
    · rintro ⟨p, hp, hps⟩
      exact ⟨p, hp, hps.symm⟩
  · rw [if_neg fun hp => href (isReference_iff.2 hp)]
    simp [href, eq_comm]

/-- No slot is of a kind that two collectors take up. -/
theorem collected_once (s : Slot) :
    (s.bits = [] ∧ s.bytes = .ok []) ∨ (s.bits = [] ∧ s.pointers = .ok []) ∨
      (s.bytes = .ok [] ∧ s.pointers = .ok []) := by
  unfold bits bytes pointers
  obtain ⟨type, offset⟩ := s
  cases type with
  | builtin b => cases b <;> simp [SlotType.dataWidth, Builtin.dataWidth, SlotType.isPointer]
  | construct c => cases c <;> simp [SlotType.dataWidth, SlotType.isPointer]

theorem flatMap_bits (slots : List Slot) :
    slots.flatMap bits = (slots.filter fun s => s.type = .builtin .bool).map offset := by
  induction slots with
  | nil => rfl
  | cons s slots ih =>
    rw [List.flatMap_cons, ih]
    by_cases hs : s.type = .builtin .bool
    · simp [bits, hs]
    · simp [bits, hs]

end Slot

namespace Field

/-- One change to the tags and the brackets of fields. -/
inductive Regrouping : List Field → List Field → Prop where
  /-- Another tag on a slot. -/
  | retag (tag other : Option UInt16) (s : Slot) : Regrouping [.slot tag s] [.slot other s]
  /-- Brackets around all fields, with any tag. -/
  | bracket (tag : Option UInt16) (members : List Field) : Regrouping members [.group tag members]
  /-- A change between other fields. -/
  | among (before : List Field) {fs gs : List Field} (after : List Field) (h : Regrouping fs gs) :
      Regrouping (before ++ (fs ++ after)) (before ++ (gs ++ after))

/-- One list of fields becomes the other by any number of changes, made or undone. -/
def Regrouped : List Field → List Field → Prop :=
  Relation.EqvGen Regrouping

theorem Regrouping.leavesAll_eq {fs gs : List Field} (h : Regrouping fs gs) :
    leavesAll fs = leavesAll gs := by
  induction h with
  | retag tag other s => rfl
  | bracket tag members => simp [leavesAll, leaves]
  | among before after _ ih => simp only [leavesAll_append, ih]

/-- Tags and brackets do not touch the slots or their order. -/
theorem Regrouped.leavesAll_eq {fs gs : List Field} (h : Regrouped fs gs) :
    leavesAll fs = leavesAll gs := by
  induction h with
  | rel fs gs h => exact h.leavesAll_eq
  | refl fs => rfl
  | symm fs gs _ ih => exact ih.symm
  | trans fs gs hs _ _ ih ih' => exact ih.trans ih'

theorem Regrouped.among {fs gs : List Field} (h : Regrouped fs gs) (before after : List Field) :
    Regrouped (before ++ (fs ++ after)) (before ++ (gs ++ after)) := by
  induction h with
  | rel fs gs h => exact .rel _ _ (.among before after h)
  | refl fs => exact .refl _
  | symm fs gs _ ih => exact .symm _ _ ih
  | trans fs gs hs _ _ ih ih' => exact .trans _ _ _ ih ih'

mutual

/-- A field dissolves into its slots. -/
theorem regrouped_leaves (f : Field) : Regrouped [f] (f.leaves.map (.slot none)) := by
  match f with
  | .slot tag s => exact .rel _ _ (.retag tag none s)
  | .group tag members =>
    have hopen : Regrouped [.group tag members] members :=
      .symm _ _ (.rel _ _ (.bracket tag members))
    exact .trans _ _ _ hopen (regrouped_leavesAll members)

/-- All tags and brackets can be taken away. -/
theorem regrouped_leavesAll (fs : List Field) : Regrouped fs ((leavesAll fs).map (.slot none)) := by
  match fs with
  | [] => exact .refl _
  | f :: fs =>
    have hhead := (regrouped_leaves f).among [] fs
    have htail := (regrouped_leavesAll fs).among (f.leaves.map (.slot none)) []
    rw [leavesAll, List.map_append]
    simp only [List.append_nil] at htail
    exact .trans _ _ _ hhead htail

end

/-- Fields have the same slots in the same order exactly if they differ in tags and brackets. -/
theorem leavesAll_eq_iff {fs gs : List Field} :
    leavesAll fs = leavesAll gs ↔ Regrouped fs gs := by
  constructor
  · intro h
    have hfs := regrouped_leavesAll fs
    have hgs := regrouped_leavesAll gs
    rw [h] at hfs
    exact .trans _ _ _ hfs (.symm _ _ hgs)
  · exact Regrouped.leavesAll_eq

theorem Regrouped.leaves_eq {f g : Field} (h : Regrouped [f] [g]) : f.leaves = g.leaves := by
  have hall := h.leavesAll_eq
  simpa [leavesAll] using hall

/-- A field gives the ranges of its numbers and enums, one for each and in their order. -/
theorem bytes_eq_ok {f : Field} {ranges : List ByteRange} : f.bytes = .ok ranges ↔
    List.Forall₂ Slot.Stores (f.leaves.filter fun s => s.type.dataWidth.isSome) ranges := by
  rw [bytes_eq_gather]
  exact gather_eq_ok_filter Slot.bytes_eq_ok

/-- A field gives the starts of its pointers, one for each and in their order. -/
theorem pointers_eq_ok {f : Field} {ps : List UInt64} : f.pointers = .ok ps ↔
    List.Forall₂ Slot.StartsAt (f.leaves.filter fun s => s.IsReference) ps := by
  rw [pointers_eq_gather]
  exact gather_eq_ok_filter Slot.pointers_eq_ok

/-- The bits of a field are the offsets of its booleans, its ranges those of its numbers and enums,
and its pointers the starts of its structs, lists and untyped pointers, each in the order of the
slots. Ranges and pointers fail exactly where the start of one of them is no 64-bit address. No slot
is taken up twice, and neither tags nor brackets leave a trace. -/
theorem collectors_flatten (f : Field) :
    f.bits = (f.leaves.filter fun s => s.type = .builtin .bool).map Slot.offset ∧
    ((∀ ranges, f.bytes = .ok ranges ↔
        List.Forall₂ Slot.Stores (f.leaves.filter fun s => s.type.dataWidth.isSome) ranges) ∧
      ∀ e, f.bytes = .error e ↔ e = .multiply ∧
        ∃ s ∈ f.leaves, ∃ w ∈ s.type.dataWidth, 2 ^ 64 ≤ w.toNat * s.offset.toNat) ∧
    ((∀ ps, f.pointers = .ok ps ↔
        List.Forall₂ Slot.StartsAt (f.leaves.filter fun s => s.IsReference) ps) ∧
      ∀ e, f.pointers = .error e ↔ e = .multiply ∧
        ∃ s ∈ f.leaves, s.IsReference ∧ 2 ^ 61 ≤ s.offset.toNat) ∧
    (∀ s ∈ f.leaves, (s.bits = [] ∧ s.bytes = .ok []) ∨ (s.bits = [] ∧ s.pointers = .ok []) ∨
      (s.bytes = .ok [] ∧ s.pointers = .ok [])) ∧
    ∀ g, Regrouped [f] [g] → g.bits = f.bits ∧ g.bytes = f.bytes ∧ g.pointers = f.pointers := by
  have hbits : f.bits = (f.leaves.filter fun s => s.type = .builtin .bool).map Slot.offset := by
    rw [bits_eq_flatMap, Slot.flatMap_bits]
  have hpointers : ∀ e, f.pointers = .error e ↔ e = .multiply ∧
      ∃ s ∈ f.leaves, s.IsReference ∧ 2 ^ 61 ≤ s.offset.toNat := by
    intro e
    simp only [pointers_eq_error, PointerOverflows, Slot.PointerOverflows, Slot.isReference_iff]
  have hsame : ∀ g, Regrouped [f] [g] →
      g.bits = f.bits ∧ g.bytes = f.bytes ∧ g.pointers = f.pointers := by
    intro g hg
    have hleaves := hg.leaves_eq
    simp only [bits_eq_flatMap, bytes_eq_gather, pointers_eq_gather, hleaves, and_self]
  exact ⟨hbits, ⟨fun _ => bytes_eq_ok, fun _ => bytes_eq_error⟩,
    ⟨fun _ => pointers_eq_ok, hpointers⟩, fun s _ => s.collected_once, hsame⟩

/-- Slots of every kind in groups inside each other. -/
def mixedGroup : Field :=
  .group (some 1) [.slot none ⟨.builtin .bool, 9⟩,
    .group none [.slot (some 4) ⟨.builtin .uint16, 3⟩, .slot none ⟨.construct .struct, 2⟩],
    .slot none ⟨.builtin .text, 1⟩, .slot (some 65535) ⟨.builtin .bool, 2⟩,
    .slot none ⟨.construct .enum, 3⟩]

def mixedOtherwise : Field :=
  .group none [.group (some 7) [.slot (some 0) ⟨.builtin .bool, 9⟩, .slot none ⟨.builtin .uint16, 3⟩],
    .group none [], .slot none ⟨.construct .struct, 2⟩,
    .group none [.group none [.slot none ⟨.builtin .text, 1⟩], .slot none ⟨.builtin .bool, 2⟩],
    .slot (some 3) ⟨.construct .enum, 3⟩]

theorem collectors_flatten_mixed :
    Regrouped [mixedGroup] [mixedOtherwise] ∧
    mixedOtherwise.bits = [9, 2] ∧ mixedOtherwise.bytes = .ok [⟨6, 2⟩, ⟨6, 2⟩] ∧
    mixedOtherwise.pointers = .ok [16] ∧
    (Field.slot none ⟨.builtin .int64, 0x2000000000000000⟩).bytes = .error .multiply := by
  have hsame : Regrouped [mixedGroup] [mixedOtherwise] := leavesAll_eq_iff.1 (by rfl)
  obtain ⟨hbits, hbytes, hpointers⟩ := (collectors_flatten mixedGroup).2.2.2.2 _ hsame
  have hfails := (collectors_flatten (.slot none ⟨.builtin .int64, 0x2000000000000000⟩)).2.1.2
  exact ⟨hsame, hbits.trans (by decide), hbytes.trans (by decide), hpointers.trans (by decide),
    (hfails .multiply).2 ⟨rfl, by decide⟩⟩

end Field

end VariantStorage
