import Mathlib.Data.List.Nodup
import VariantStorage.Proofs.Json.Document
import VariantStorage.Record.Rendering

/-!
What typed readers accept: words, names, options and lists. The reader returns `a` on a value
exactly if the value stands for `a`, where the reader of the parts comes with such a statement of
its own.
-/
namespace VariantStorage.Json

variable {α : Type}

theorem refuse_ne_ok {found : Option Found} {wanted : Wanted} {a : α} :
    refuse found wanted ≠ .ok a := by
  cases found <;> simp [refuse]

/-- A numeral whose value is a natural number is written as one. -/
theorem Numeral.value_eq_integer {m : Numeral} {i : Int} (h : m.value = some (.integer i))
    (hi : 0 ≤ i) : m = ofNat i.toNat := by
  obtain ⟨negative, whole, fraction, exponent⟩ := m
  unfold value at h
  split at h
  next hinteger =>
    simp only [isInteger, Bool.and_eq_true, List.isEmpty_iff, Option.isNone_iff_eq_none] at hinteger
    obtain ⟨⟨rfl, rfl⟩, hsize⟩ := hinteger
    simp only [Option.some.injEq, Number.integer.injEq] at h
    cases negative with
    | true =>
      simp only [if_true, Bool.and_eq_true, decide_eq_true_eq] at h hsize
      omega
    | false =>
      simp only [Bool.false_eq_true, if_false] at h
      rw [← h]
      rfl
  next => simp at h

theorem Numeral.value_ofNat {n : Nat} (h : n < UInt64.size) :
    (ofNat n).value = some (.integer n) := by
  have hinteger : (ofNat n).isInteger = true := by simp [isInteger, ofNat, h]
  rw [value, if_pos hinteger]
  rfl

/-- A number is read exactly if it is written as a natural number below the bound. -/
theorem readNat_eq_ok {wanted : Wanted} {bound : Nat} {v : Fragment} {n : Nat}
    (hbound : bound ≤ UInt64.size) :
    readNat wanted bound v = .ok n ↔ v = .ofNat n ∧ n < bound := by
  constructor
  · intro h
    unfold readNat at h
    split at h
    next m =>
      split at h
      next i hi =>
        split at h
        next hrange =>
          obtain rfl : i.toNat = n := by simpa using h
          rw [Numeral.value_eq_integer hi hrange.1]
          exact ⟨rfl, by omega⟩
        next => cases h
      next => exact absurd h refuse_ne_ok
    next => exact absurd h refuse_ne_ok
  · rintro ⟨rfl, hn⟩
    have hvalue := Numeral.value_ofNat (Nat.lt_of_lt_of_le hn hbound)
    have hrange : 0 ≤ (n : Int) ∧ (n : Int) < bound := by omega
    simp only [readNat, Fragment.ofNat, hvalue, if_pos hrange, Int.toNat_natCast]

/-- A word of any size is read from the natural number that it is. -/
theorem readNat_map_eq_ok {W : Type} {wanted : Wanted} {size : Nat} {ofNat : Nat → W}
    {toNat : W → Nat} (hsize : size ≤ UInt64.size) (hlt : ∀ w, toNat w < size)
    (hword : ∀ w, ofNat (toNat w) = w) (hnat : ∀ n < size, toNat (ofNat n) = n) {v : Fragment}
    {w : W} : (readNat wanted size v).map ofNat = .ok w ↔ v = .ofNat (toNat w) := by
  simp only [map_eq_ok, readNat_eq_ok hsize]
  constructor
  · rintro ⟨n, ⟨rfl, hn⟩, rfl⟩
    rw [hnat n hn]
  · rintro rfl
    exact ⟨toNat w, ⟨rfl, hlt w⟩, hword w⟩

theorem readWord64_eq_ok {v : Fragment} {n : UInt64} :
    readWord64 v = .ok n ↔ v = .ofNat n.toNat :=
  readNat_map_eq_ok (Nat.le_refl _) UInt64.toNat_lt (fun _ => UInt64.ofNat_toNat)
    fun _ => UInt64.toNat_ofNat_of_lt'

theorem readWord16_eq_ok {v : Fragment} {n : UInt16} :
    readWord16 v = .ok n ↔ v = .ofNat n.toNat :=
  readNat_map_eq_ok (by decide) UInt16.toNat_lt (fun _ => UInt16.ofNat_toNat)
    fun _ => UInt16.toNat_ofNat_of_lt'

theorem readWord8_eq_ok {v : Fragment} {n : UInt8} : readWord8 v = .ok n ↔ v = .ofNat n.toNat :=
  readNat_map_eq_ok (by decide) UInt8.toNat_lt (fun _ => UInt8.ofNat_toNat)
    fun _ => UInt8.toNat_ofNat_of_lt'

/-- A value that may be null is null, or a value that is not. -/
theorem readOption_eq_ok {read : Fragment → Except ReadError α} {R : Fragment → α → Prop}
    (hread : ∀ v a, read v = .ok a ↔ R v a) (hnull : ∀ a, ¬R (.scalar .null) a) {v : Fragment}
    {o : Option α} : readOption read v = .ok o ↔ Nullable R v o := by
  by_cases hv : v = .scalar .null
  · subst hv
    cases o with
    | none => simp [readOption, Nullable]
    | some a => simp [readOption, Nullable, hnull]
  · have hsome : readOption read v = (read v).map some := by
      rw [readOption]
      exact hv
    rw [hsome, map_eq_ok]
    cases o with
    | none => simp [Nullable, hv]
    | some a => simp [Nullable, hread]

namespace Names

variable (names : Names α)

theorem not_renders_null (room : Nat) (a : α) : ¬names.Renders room (.scalar .null) a := by
  intro h
  cases h

theorem isWhole_of_renders (room : Nat) (v : Fragment) (a : α) (h : names.Renders room v a) :
    v.isWhole = true := by
  cases h <;> rfl

/-- Every element has a name, and no two have the same one. -/
structure Complete : Prop where
  mem : ∀ a, a ∈ names.all
  nodup : (names.all.map names.name).Nodup

variable {names}

theorem Complete.name_inj (h : names.Complete) {a b : α} (hname : names.name a = names.name b) :
    a = b :=
  List.inj_on_of_nodup_map h.nodup (h.mem a) (h.mem b) hname

theorem Complete.find?_eq_some (h : names.Complete) {s : String} {a : α} :
    names.find? s = some a ↔ names.name a = s := by
  constructor
  · intro hfind
    simpa using List.find?_some hfind
  · rintro rfl
    cases hfind : names.find? (names.name a) with
    | none => simpa using List.find?_eq_none.1 hfind a (h.mem a)
    | some b =>
      have hname : names.name b = names.name a := by simpa using List.find?_some hfind
      rw [h.name_inj hname]

theorem Complete.find?_eq_none (h : names.Complete) {s : String} :
    names.find? s = none ↔ ∀ a, names.name a ≠ s := by
  simp [find?, h.mem]

theorem Complete.ofText_eq_ok (h : names.Complete) {s : String} {a : α} :
    names.ofText s = .ok a ↔ names.name a = s := by
  rw [← h.find?_eq_some]
  unfold ofText
  split
  next b hb => simp [hb]
  next hnone => simp [hnone]

theorem Complete.ofKey_eq_ok (h : names.Complete) {key : Key} {a : α} :
    names.ofKey key = .ok a ↔ key = .text (names.name a) := by
  cases key with
  | text s => rw [ofKey, h.ofText_eq_ok, Key.text.injEq, eq_comm]
  | unpaired => simp [ofKey]
  | missing t => simp [ofKey, refuse_ne_ok]

theorem readNull_eq_ok {v : Fragment} : readNull v = .ok () ↔ v = .scalar .null := by
  constructor
  · intro h
    unfold readNull at h
    split at h
    · rfl
    · exact absurd h refuse_ne_ok
  · rintro rfl
    rfl

/-- A name is read to the element that it names, as a text or as a key. -/
theorem Complete.read_eq_ok (h : names.Complete) (room : Nat) (v : Fragment) (a : α) :
    names.read room v = .ok a ↔ names.Renders room v a := by
  constructor
  · intro hread
    unfold read at hread
    split at hread
    next s =>
      obtain rfl := h.ofText_eq_ok.1 hread
      exact .text a
    next key payload more =>
      split at hread
      next => cases hread
      next hroom =>
        obtain ⟨b, hb, hread⟩ := bind_eq_ok.1 hread
        obtain ⟨_, hnull, hread⟩ := bind_eq_ok.1 hread
        split at hread
        next hmore =>
          obtain rfl : b = a := by simpa using hread
          obtain rfl := h.ofKey_eq_ok.1 hb
          obtain rfl := readNull_eq_ok.1 hnull
          obtain rfl := List.isEmpty_iff.1 hmore
          exact .key b (Nat.pos_of_ne_zero hroom)
        next => cases hread
    next => cases hread
  · intro hrenders
    cases hrenders with
    | text => exact h.ofText_eq_ok.2 rfl
    | key _ hroom =>
      have hname := h.ofKey_eq_ok.2 (rfl : Key.text (names.name a) = .text (names.name a))
      simp [read, Nat.ne_of_gt hroom, hname, readNull, bind, Except.bind]

end Names

theorem mapM_eq_ok {β ε : Type} {f : α → Except ε β} {xs : List α} {ys : List β} :
    xs.mapM f = .ok ys ↔ List.Forall₂ (fun x y => f x = .ok y) xs ys := by
  induction xs generalizing ys with
  | nil => simp [pure, Except.pure, eq_comm]
  | cons x xs ih =>
    simp only [List.mapM_cons, bind_eq_ok, ih, List.forall₂_cons_left_iff, pure, Except.pure,
      Except.ok.injEq]
    constructor
    · rintro ⟨y, hy, ys, hys, rfl⟩
      exact ⟨y, ys, hy, hys, rfl⟩
    · rintro ⟨y, ys, hy, hys, rfl⟩
      exact ⟨y, hy, ys, hys, rfl⟩

/-- An array is read item by item. -/
theorem readList_eq_ok {item : Fragment → Except ReadError α} {R : Fragment → α → Prop}
    (hitem : ∀ v a, item v = .ok a ↔ R v a) {room : Nat} {v : Fragment} {as : List α} :
    readList item room v = .ok as ↔
      0 < room ∧ ∃ items, v = .array items ∧ List.Forall₂ R items as := by
  have hR : (fun v a => item v = .ok a) = R := by
    funext v a
    exact propext (hitem v a)
  cases v with
  | array items =>
    by_cases hroom : room = 0
    · simp [readList, hroom]
    · simp [readList, hroom, mapM_eq_ok, hR, Nat.pos_of_ne_zero hroom]
  | _ => simp [readList, refuse_ne_ok]

theorem given_nil {R : Fragment → α → Prop} {start a : α} : Given R start [] a ↔ a = start := by
  constructor
  · intro h
    cases h
    rfl
  · rintro rfl
    exact .absent

/-- A field to which a value is given holds it, and no second one may be given. -/
theorem given_cons {R : Fragment → α → Prop} {start a : α} {v : Fragment} {vs : List Fragment} :
    Given R start (v :: vs) a ↔ vs = [] ∧ R v a := by
  constructor
  · intro h
    cases h with
    | present hR => exact ⟨rfl, hR⟩
  · rintro ⟨rfl, hR⟩
    exact .present hR

theorem exists_of_given_some {R : Fragment → α → Prop} {a : α} {vs : List Fragment}
    (h : Given (Nullable R) none vs (some a)) : ∃ v, R v a := by
  cases h with
  | present hv => exact ⟨_, hv⟩

theorem given_toList {R : Fragment → α → Prop} {f : α → Fragment} {o : Option α}
    (h : ∀ a, o = some a → R (f a) a) : Given (Nullable R) none (o.map f).toList o := by
  cases o with
  | none => exact .absent
  | some a => exact .present (h a rfl)

/-- What holds of all that stands for a field's values holds of the values given to it. -/
theorem given_forall {R : Fragment → α → Prop} {P : Fragment → Prop} {start a : α}
    {vs : List Fragment} (h : Given R start vs a) (hR : ∀ v a, R v a → P v) : ∀ v ∈ vs, P v := by
  cases h with
  | absent => exact fun v hv => absurd hv List.not_mem_nil
  | present hv => exact List.forall_mem_singleton.2 (hR _ _ hv)

theorem nullable_forall {R : Fragment → α → Prop} {P : Fragment → Prop}
    (hnull : P (.scalar .null)) (hR : ∀ v a, R v a → P v) (v : Fragment) (o : Option α)
    (h : Nullable R v o) : P v := by
  cases o with
  | none =>
    obtain rfl := h
    exact hnull
  | some a => exact hR v a h

theorem given_imp {R R' : Fragment → α → Prop} {start a : α} {vs : List Fragment}
    (h : Given R start vs a) (hR : ∀ v ∈ vs, R v a → R' v a) : Given R' start vs a := by
  cases h with
  | absent => exact .absent
  | present hv => exact .present (hR _ (List.mem_singleton.2 rfl) hv)

theorem nullable_imp {R R' : Fragment → α → Prop} {v : Fragment} {o : Option α}
    (h : Nullable R v o) (hR : ∀ a, R v a → R' v a) : Nullable R' v o := by
  cases o with
  | none => exact h
  | some a => exact hR a h

end VariantStorage.Json
