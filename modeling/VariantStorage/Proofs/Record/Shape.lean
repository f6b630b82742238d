import VariantStorage.Proofs.Record.Values

/-!
What readers of records accept. A record is taken apart into its fields, each of which can be
replaced without touching the others. So the order in which fields are read leaves no trace, and
either form of a record is read to exactly what is given to its fields.
-/
namespace VariantStorage.Json

variable {α : Type}

/-- The fields of a record, each of which can be replaced by itself. -/
structure Parts (κ σ : Type) where
  Part : κ → Type
  get : (k : κ) → σ → Part k
  put : (k : κ) → Part k → σ → σ
  get_put : ∀ (k : κ) (a : Part k) (r : σ), get k (put k a r) = a
  get_put_ne : ∀ {k k' : κ} (a : Part k) (r : σ), k' ≠ k → get k' (put k a r) = get k' r
  ext : ∀ {r r' : σ}, (∀ k, get k r = get k r') → r = r'

namespace Parts

variable {κ σ : Type} (parts : Parts κ σ)

def set (read : (k : κ) → Fragment → Except ReadError (parts.Part k)) (k : κ) (v : Fragment)
    (r : σ) : Except ReadError σ :=
  (read k v).map fun a => parts.put k a r

/-- The record holds what is given to its fields, and what `start` holds elsewhere. -/
def Holds (R : (k : κ) → Fragment → parts.Part k → Prop) (start : σ) (values : κ → List Fragment)
    (r : σ) : Prop :=
  ∀ k, Given (R k) (parts.get k start) (values k) (parts.get k r)

variable {parts} {R : (k : κ) → Fragment → parts.Part k → Prop} {start r : σ}
  {values : κ → List Fragment}

theorem set_bind_eq_ok {read : (k : κ) → Fragment → Except ReadError (parts.Part k)}
    (hread : ∀ k v a, read k v = .ok a ↔ R k v a) {k : κ} {v : Fragment}
    {f : σ → Except ReadError α} {b : α} :
    parts.set read k v r >>= f = .ok b ↔ ∃ a, R k v a ∧ f (parts.put k a r) = .ok b := by
  simp only [bind_eq_ok, set, map_eq_ok, hread]
  constructor
  · rintro ⟨-, ⟨a, ha, rfl⟩, h⟩
    exact ⟨a, ha, h⟩
  · rintro ⟨a, ha, h⟩
    exact ⟨_, ⟨a, ha, rfl⟩, h⟩

/-- A record to which nothing is given is as it was at the start. -/
theorem holds_nil (hvalues : ∀ k, values k = []) : parts.Holds R start values r ↔ r = start := by
  simp only [Holds, hvalues, given_nil]
  constructor
  · exact fun h => parts.ext h
  · rintro rfl k
    rfl

/-- One value more, for a field to which no other is given. -/
theorem holds_cons {later : κ → List Fragment} {k₀ : κ} {v : Fragment}
    (hsame : values k₀ = v :: later k₀) (hother : ∀ k, k ≠ k₀ → values k = later k) :
    parts.Holds R start values r ↔
      later k₀ = [] ∧ ∃ a, R k₀ v a ∧ parts.Holds R (parts.put k₀ a start) later r := by
  constructor
  · intro h
    have hk₀ := h k₀
    rw [hsame, given_cons] at hk₀
    refine ⟨hk₀.1, _, hk₀.2, fun k => ?_⟩
    by_cases hk : k = k₀
    · subst hk
      rw [hk₀.1, given_nil, parts.get_put]
    · rw [parts.get_put_ne _ _ hk, ← hother k hk]
      exact h k
  · rintro ⟨hnone, a, hR, h⟩ k
    have hkept := h k
    by_cases hk : k = k₀
    · subst hk
      rw [hnone, given_nil, parts.get_put] at hkept
      rw [hsame, given_cons, hkept]
      exact ⟨hnone, hR⟩
    · rw [parts.get_put_ne _ _ hk] at hkept
      rwa [hother k hk]

end Parts

namespace Shape

open ElementRecord (valuesOf)

variable {κ σ : Type} {shape : Shape κ σ}

def names (shape : Shape κ σ) : Names κ :=
  ⟨shape.keys, shape.name⟩

theorem find?_eq_some (hnames : shape.names.Complete) {s : String} {k : κ} :
    shape.find? s = some k ↔ shape.name k = s :=
  hnames.find?_eq_some

theorem find?_eq_none (hnames : shape.names.Complete) {s : String} :
    shape.find? s = none ↔ ∀ k, shape.name k ≠ s :=
  hnames.find?_eq_none

theorem keys_nodup (hnames : shape.names.Complete) : shape.keys.Nodup :=
  List.Nodup.of_map _ hnames.nodup

theorem valuesOf_cons (s : String) (v : Fragment) (ms : List (Key × Fragment)) :
    valuesOf s ((.text s, v) :: ms) = v :: valuesOf s ms := by
  simp [valuesOf]

theorem valuesOf_cons_of_ne {s t : String} (h : t ≠ s) (v : Fragment)
    (ms : List (Key × Fragment)) : valuesOf s ((.text t, v) :: ms) = valuesOf s ms := by
  simp [valuesOf, h]

/-- A member for one field is none for another. -/
theorem valuesOf_cons_field (hnames : shape.names.Complete) {k k₀ : κ} (h : k ≠ k₀) (v : Fragment)
    (ms : List (Key × Fragment)) :
    valuesOf (shape.name k) ((.text (shape.name k₀), v) :: ms) = valuesOf (shape.name k) ms :=
  valuesOf_cons_of_ne (fun hname => h (hnames.name_inj hname.symm)) v ms

variable [DecidableEq κ] {parts : Parts κ σ}
  {read : (k : κ) → Fragment → Except ReadError (parts.Part k)}
  {R : (k : κ) → Fragment → parts.Part k → Prop}
  {set : κ → Fragment → σ → Except ReadError σ} {seen seen' : List κ} {start r : σ}

/-- A member under a key that is no field. -/
theorem readMembers_other {s : String} (hfind : shape.find? s = none) (v : Fragment)
    (ms : List (Key × Fragment)) :
    shape.readMembers set seen start ((.text s, v) :: ms) =
      if v.isWhole then shape.readMembers set seen start ms else .error .malformed := by
  rw [readMembers]
  simp only [hfind]

/-- A member for a field. -/
theorem readMembers_field {s : String} {k : κ} (hfind : shape.find? s = some k) (v : Fragment)
    (ms : List (Key × Fragment)) :
    shape.readMembers set seen start ((.text s, v) :: ms) =
      if k ∈ seen then .error (.data (.duplicate s))
      else set k v start >>= fun record => shape.readMembers set (k :: seen) record ms := by
  rw [readMembers]
  simp only [hfind]

/-- The fields seen in an object are those that have a member. -/
theorem seen_of_readMembers (hnames : shape.names.Complete) {ms : List (Key × Fragment)}
    (h : shape.readMembers set seen start ms = .ok (seen', r)) (k : κ) :
    k ∈ seen' ↔ k ∈ seen ∨ valuesOf (shape.name k) ms ≠ [] := by
  induction ms generalizing seen start with
  | nil =>
    simp only [readMembers, Except.ok.injEq, Prod.mk.injEq] at h
    simp [h.1, valuesOf]
  | cons m ms ih =>
    obtain ⟨key, v⟩ := m
    cases key with
    | text s =>
      cases hfind : shape.find? s with
      | none =>
        have hne := (find?_eq_none hnames).1 hfind k
        rw [readMembers_other hfind] at h
        split at h
        · rw [ih h, valuesOf_cons_of_ne hne.symm]
        · cases h
      | some k₀ =>
        obtain rfl := (find?_eq_some hnames).1 hfind
        rw [readMembers_field hfind] at h
        split at h
        · cases h
        · obtain ⟨record, -, h⟩ := bind_eq_ok.1 h
          rw [ih h]
          by_cases hk : k = k₀
          · simp [hk, valuesOf_cons]
          · simp [hk, valuesOf_cons_field hnames hk]
    | unpaired => simp [readMembers] at h
    | missing => simp [readMembers] at h

/-- The members give the fields what `r` holds beyond `start`, and nothing to a field in `seen`. -/
def Gives (shape : Shape κ σ) (R : (k : κ) → Fragment → parts.Part k → Prop) (seen : List κ)
    (start : σ) (ms : List (Key × Fragment)) (r : σ) : Prop :=
  (∀ m ∈ ms, shape.Admits m) ∧ (∀ k ∈ seen, valuesOf (shape.name k) ms = []) ∧
    parts.Holds R start (fun k => valuesOf (shape.name k) ms) r

omit [DecidableEq κ] in
/-- A member under a key that is no field gives nothing. -/
theorem gives_other {s : String} (hother : ∀ k, shape.name k ≠ s) (v : Fragment)
    (ms : List (Key × Fragment)) :
    shape.Gives R seen start ((.text s, v) :: ms) r ↔
      v.isWhole = true ∧ shape.Gives R seen start ms r := by
  have hvalues : ∀ k, valuesOf (shape.name k) ((.text s, v) :: ms) = valuesOf (shape.name k) ms :=
    fun k => valuesOf_cons_of_ne (hother k).symm v ms
  have hadmits : shape.Admits (.text s, v) ↔ v.isWhole = true := by
    simp [Admits, hother]
  simp only [Gives, List.forall_mem_cons, hvalues, hadmits, and_assoc]

omit [DecidableEq κ] in
/-- A member for a field is the first and the last one for it. -/
theorem gives_field (hnames : shape.names.Complete) {k₀ : κ} (v : Fragment)
    (ms : List (Key × Fragment)) :
    shape.Gives R seen start ((.text (shape.name k₀), v) :: ms) r ↔
      k₀ ∉ seen ∧ ∃ a, R k₀ v a ∧ shape.Gives R (k₀ :: seen) (parts.put k₀ a start) ms r := by
  have hadmits : shape.Admits (.text (shape.name k₀), v) :=
    ⟨_, rfl, fun hne => absurd rfl (hne k₀)⟩
  have hsame := valuesOf_cons (shape.name k₀) v ms
  have hother := fun k hk => @valuesOf_cons_field κ σ shape hnames k k₀ hk v ms
  simp only [Gives, List.forall_mem_cons, hadmits, true_and, Parts.holds_cons hsame hother]
  by_cases hseen : k₀ ∈ seen
  · -- the member would be the second one for its field
    simp only [hseen, not_true_eq_false, false_and, iff_false]
    intro ⟨_, hunseen, _⟩
    have hnone := hunseen k₀ hseen
    rw [hsame] at hnone
    cases hnone
  · have hunseen : ∀ k ∈ seen,
        valuesOf (shape.name k) ((.text (shape.name k₀), v) :: ms) = [] ↔
          valuesOf (shape.name k) ms = [] := fun k hk => by
      rw [hother k fun h => hseen (h ▸ hk)]
    simp only [hseen, not_false_eq_true, true_and, forall₂_congr hunseen]
    constructor
    · intro ⟨hms, hrest, hnone, a, ha, hholds⟩
      exact ⟨a, ha, hms, ⟨hnone, hrest⟩, hholds⟩
    · intro ⟨a, ha, hms, ⟨hnone, hrest⟩, hholds⟩
      exact ⟨hms, hrest, hnone, a, ha, hholds⟩

/-- The members of an object are read to `r`, where none of them may be for a field in `seen`. -/
theorem readMembers_returns (hnames : shape.names.Complete)
    (hread : ∀ k v a, read k v = .ok a ↔ R k v a) {ms : List (Key × Fragment)} :
    (∃ seen', shape.readMembers (parts.set read) seen start ms = .ok (seen', r)) ↔
      shape.Gives R seen start ms r := by
  -- over the members still to come, for what those before them have given
  induction ms generalizing seen start with
  | nil =>
    have hnone : ∀ k, valuesOf (shape.name k) [] = [] := fun _ => rfl
    rw [Gives, Parts.holds_nil hnone]
    simp [readMembers, hnone, eq_comm]
  | cons m ms ih =>
    obtain ⟨key, v⟩ := m
    cases key with
    | text s =>
      cases hfind : shape.find? s with
      | none =>
        rw [readMembers_other hfind, gives_other ((find?_eq_none hnames).1 hfind)]
        by_cases hwhole : v.isWhole = true
        · simp only [hwhole, if_true, ih, true_and]
        · simp [hwhole]
      | some k₀ =>
        obtain rfl := (find?_eq_some hnames).1 hfind
        rw [readMembers_field hfind, gives_field hnames]
        by_cases hseen : k₀ ∈ seen
        · simp [hseen]
        · simp only [hseen, if_false, Parts.set_bind_eq_ok hread, not_false_eq_true, true_and]
          rw [exists_comm]
          simp only [exists_and_left, ih]
    | unpaired => simp [readMembers, Gives, Admits]
    | missing => simp [readMembers, Gives, Admits]

/-- No field that is required is missing. -/
theorem missing_eq_none (hnames : shape.names.Complete) :
    (shape.keys.find? fun k => shape.required && !seen.contains k) = none ↔
      (shape.required = true → ∀ k, k ∈ seen) := by
  cases hrequired : shape.required with
  | false => simp
  | true =>
    have hkeys : ∀ k, k ∈ shape.keys := hnames.mem
    simp [hkeys]

/-- An object is read to what its members give to the fields. -/
theorem read_object_eq_ok (hnames : shape.names.Complete)
    (hread : ∀ k v a, read k v = .ok a ↔ R k v a) {room : Nat} {members : List (Key × Fragment)} :
    shape.read (parts.set read) room (.object members) = .ok r ↔
      0 < room ∧ (∀ m ∈ members, shape.Admits m) ∧
        parts.Holds R shape.blank (fun k => valuesOf (shape.name k) members) r ∧
        (shape.required = true → ∀ k, valuesOf (shape.name k) members ≠ []) := by
  by_cases hroom : room = 0
  · simp [Shape.read, hroom]
  rw [Shape.read, if_neg hroom]
  constructor
  · intro h
    obtain ⟨⟨seen, record⟩, hmembers, h⟩ := bind_eq_ok.1 h
    dsimp only at h
    split at h
    next => cases h
    next hseen =>
      obtain rfl := Except.ok.inj h
      obtain ⟨hadmits, -, hholds⟩ := (readMembers_returns hnames hread).1 ⟨seen, hmembers⟩
      refine ⟨Nat.pos_of_ne_zero hroom, hadmits, hholds, fun hrequired k => ?_⟩
      have hk := (missing_eq_none hnames).1 hseen hrequired k
      simpa using (seen_of_readMembers hnames hmembers k).1 hk
  · rintro ⟨-, hadmits, hholds, hrequired⟩
    obtain ⟨seen, hmembers⟩ := (readMembers_returns hnames hread).2
      ⟨hadmits, fun k hk => absurd hk List.not_mem_nil, hholds⟩
    have hseen := (missing_eq_none hnames).2 fun hr k =>
      (seen_of_readMembers hnames hmembers k).2 (.inr (hrequired hr k))
    simp only [hmembers, hseen, bind, Except.bind]

omit [DecidableEq κ] in
/-- The fields that an array leaves out are those after its last item. -/
theorem omitted_of_readItems {keys omitted : List κ} {items : List Fragment}
    (h : readItems set keys start items = .ok (omitted, r)) : omitted = keys.drop items.length := by
  induction items generalizing keys start with
  | nil =>
    rw [readItems] at h
    simp only [Except.ok.injEq, Prod.mk.injEq] at h
    exact h.1.symm
  | cons v vs ih =>
    cases keys with
    | nil => simp [readItems] at h
    | cons k keys =>
      rw [readItems] at h
      obtain ⟨record, -, h⟩ := bind_eq_ok.1 h
      simpa using ih h

/-- A field that is not among the keys is given no item. -/
theorem item_beyond {k₀ : κ} {keys : List κ} (hk₀ : k₀ ∉ keys) {vs : List Fragment}
    (hlength : vs.length ≤ keys.length) : vs[keys.idxOf k₀]?.toList = [] := by
  rw [List.idxOf_eq_length hk₀, List.getElem?_eq_none hlength]
  rfl

/-- The first key is given the first item, and no other item. -/
theorem item_head {k₀ : κ} {keys : List κ} (hk₀ : k₀ ∉ keys) {vs : List Fragment}
    (hlength : vs.length ≤ keys.length) (v : Fragment) :
    (v :: vs)[(k₀ :: keys).idxOf k₀]?.toList = v :: vs[keys.idxOf k₀]?.toList := by
  rw [item_beyond hk₀ hlength, List.idxOf_cons_self]
  rfl

theorem item_tail {k k₀ : κ} {keys : List κ} (hk : k ≠ k₀) (v : Fragment) (vs : List Fragment) :
    (v :: vs)[(k₀ :: keys).idxOf k]?.toList = vs[keys.idxOf k]?.toList := by
  rw [List.idxOf_cons_ne keys (Ne.symm hk), List.getElem?_cons_succ]

/-- The items of an array are read to `r`. -/
theorem readItems_returns (hread : ∀ k v a, read k v = .ok a ↔ R k v a) {keys : List κ}
    (hkeys : keys.Nodup) {items : List Fragment} :
    (∃ omitted, readItems (parts.set read) keys start items = .ok (omitted, r)) ↔
      items.length ≤ keys.length ∧
        parts.Holds R start (fun k => items[keys.idxOf k]?.toList) r := by
  induction items generalizing keys start with
  | nil =>
    have hnone : ∀ k, ([] : List Fragment)[keys.idxOf k]?.toList = [] := fun _ => rfl
    rw [Parts.holds_nil hnone]
    simp [readItems, eq_comm]
  | cons v vs ih =>
    cases keys with
    | nil => simp [readItems]
    | cons k₀ keys =>
      obtain ⟨hk₀, hkeys⟩ := List.nodup_cons.1 hkeys
      have hrest : (∃ omitted, readItems (parts.set read) (k₀ :: keys) start (v :: vs) =
            .ok (omitted, r)) ↔
          ∃ a, R k₀ v a ∧ vs.length ≤ keys.length ∧
            parts.Holds R (parts.put k₀ a start) (fun k => vs[keys.idxOf k]?.toList) r := by
        simp only [readItems, Parts.set_bind_eq_ok hread]
        rw [exists_comm]
        simp only [exists_and_left, ih hkeys]
      by_cases hlength : vs.length ≤ keys.length
      · have hsame := item_head hk₀ hlength v
        have hother := fun k hk => @item_tail κ _ k k₀ keys hk v vs
        rw [hrest, Parts.holds_cons hsame hother]
        simp [hlength, item_beyond hk₀ hlength]
      · rw [hrest]
        simp [hlength]

/-- No field is left out by an array that is as long as the record. -/
theorem forall_given_iff (hnames : shape.names.Complete) {items : List Fragment} :
    (∀ k, items[shape.keys.idxOf k]?.toList ≠ []) ↔ shape.keys.drop items.length = [] := by
  have hgiven : ∀ k, items[shape.keys.idxOf k]?.toList ≠ [] ↔
      shape.keys.idxOf k < items.length := by
    intro k
    simp [Option.toList_eq_nil_iff]
  simp only [hgiven, List.drop_eq_nil_iff]
  constructor
  · intro h
    by_contra hshort
    have hlast : items.length < shape.keys.length := by omega
    have hk := h shape.keys[items.length]
    rw [(keys_nodup hnames).idxOf_getElem _ hlast] at hk
    omega
  · intro h k
    have hk : shape.keys.idxOf k < shape.keys.length := List.idxOf_lt_length_of_mem (hnames.mem k)
    omega

/-- An array is read to what its items give to the fields in order. -/
theorem read_array_eq_ok (hnames : shape.names.Complete)
    (hread : ∀ k v a, read k v = .ok a ↔ R k v a) {room : Nat} {items : List Fragment} :
    shape.read (parts.set read) room (.array items) = .ok r ↔
      0 < room ∧ items.length ≤ shape.keys.length ∧
        parts.Holds R shape.blank (fun k => items[shape.keys.idxOf k]?.toList) r ∧
        (shape.required = true → ∀ k, items[shape.keys.idxOf k]?.toList ≠ []) := by
  have hkeys := keys_nodup hnames
  rw [forall_given_iff hnames]
  by_cases hroom : room = 0
  · simp [Shape.read, hroom]
  rw [Shape.read, if_neg hroom]
  constructor
  · intro h
    obtain ⟨⟨omitted, record⟩, hitems, h⟩ := bind_eq_ok.1 h
    dsimp only at h
    split at h
    next => cases h
    next homitted =>
      obtain rfl := Except.ok.inj h
      obtain ⟨hlength, hholds⟩ := (readItems_returns hread hkeys).1 ⟨omitted, hitems⟩
      refine ⟨Nat.pos_of_ne_zero hroom, hlength, hholds, fun hrequired => ?_⟩
      rw [← omitted_of_readItems hitems]
      simpa [hrequired] using homitted
  · rintro ⟨-, hlength, hholds, hrequired⟩
    obtain ⟨omitted, hitems⟩ := (readItems_returns hread hkeys).2 ⟨hlength, hholds⟩
    have homitted : (shape.required && !omitted.isEmpty) = false := by
      rw [omitted_of_readItems hitems]
      cases hr : shape.required with
      | false => rfl
      | true => rw [hrequired hr]; rfl
    simp [hitems, homitted, bind, Except.bind]

theorem presents_object {members : List (Key × Fragment)} {values : κ → List Fragment} :
    shape.Presents (.object members) values ↔
      (∀ m ∈ members, shape.Admits m) ∧ values = fun k => valuesOf (shape.name k) members := by
  constructor
  · intro h
    cases h with
    | object h => exact ⟨h, rfl⟩
  · rintro ⟨h, rfl⟩
    exact .object h

theorem presents_array {items : List Fragment} {values : κ → List Fragment} :
    shape.Presents (.array items) values ↔ items.length ≤ shape.keys.length ∧
      values = fun k => items[shape.keys.idxOf k]?.toList := by
  constructor
  · intro h
    cases h with
    | array h => exact ⟨h, rfl⟩
  · rintro ⟨h, rfl⟩
    exact .array h

/-- A record is read in either form from what its fields are given. -/
theorem read_eq_ok (hnames : shape.names.Complete) (hread : ∀ k v a, read k v = .ok a ↔ R k v a)
    {room : Nat} {v : Fragment} :
    shape.read (parts.set read) room v = .ok r ↔
      0 < room ∧ ∃ values, shape.Presents v values ∧ parts.Holds R shape.blank values r ∧
        (shape.required = true → ∀ k, values k ≠ []) := by
  cases v with
  | object members =>
    rw [read_object_eq_ok hnames hread]
    simp only [presents_object, and_assoc, exists_and_left, exists_eq_left]
  | array items =>
    rw [read_array_eq_ok hnames hread]
    simp only [presents_array, and_assoc, exists_and_left, exists_eq_left]
  | _ =>
    constructor
    · intro h
      unfold Shape.read at h
      exact absurd h refuse_ne_ok
    · rintro ⟨-, values, hpresents, -⟩
      cases hpresents

/-- A record with one field, which is required, is read from the one value that is given to it. -/
theorem read_eq_ok_of_single (hnames : shape.names.Complete)
    (hread : ∀ k v a, read k v = .ok a ↔ R k v a) (hrequired : shape.required = true) {k₀ : κ}
    (hsingle : ∀ k, k = k₀) {room : Nat} {v : Fragment} :
    shape.read (parts.set read) room v = .ok r ↔
      0 < room ∧ ∃ values w, shape.Presents v values ∧ values k₀ = [w] ∧
        R k₀ w (parts.get k₀ r) := by
  rw [read_eq_ok hnames hread]
  refine and_congr_right fun _ => exists_congr fun values => ?_
  constructor
  · rintro ⟨hpresents, hholds, hgiven⟩
    obtain ⟨w, ws, hvalues⟩ := List.exists_cons_of_ne_nil (hgiven hrequired k₀)
    have hk₀ := hholds k₀
    rw [hvalues, given_cons] at hk₀
    obtain ⟨rfl, hw⟩ := hk₀
    exact ⟨w, hpresents, hvalues, hw⟩
  · rintro ⟨w, hpresents, hvalues, hw⟩
    refine ⟨hpresents, fun k => ?_, fun _ k => ?_⟩
    · rw [hsingle k, hvalues]
      exact .present hw
    · rw [hsingle k, hvalues]
      exact List.cons_ne_nil w []

/-- Nothing is cut in what presents a record if nothing is cut in what is given to its fields. -/
theorem Presents.isWhole (hnames : shape.names.Complete) {v : Fragment}
    {values : κ → List Fragment} (h : shape.Presents v values)
    (hvalues : ∀ k, ∀ w ∈ values k, w.isWhole = true) : v.isWhole = true := by
  cases h with
  | object hadmits =>
    rw [Fragment.isWhole, Fragment.membersWhole_eq_all, List.all_eq_true]
    rintro ⟨key, w⟩ hm
    obtain ⟨s, rfl, hother⟩ := hadmits _ hm
    have hw : w.isWhole = true := by
      by_cases hk : ∃ k, shape.name k = s
      · obtain ⟨k, rfl⟩ := hk
        refine hvalues k w ?_
        simp only [valuesOf, List.mem_map, List.mem_filter, beq_iff_eq]
        exact ⟨_, ⟨hm, rfl⟩, rfl⟩
      · exact hother fun k hks => hk ⟨k, hks⟩
    simp [hw, Key.isQuoted]
  | array hlength =>
    rw [Fragment.isWhole, Fragment.allWhole_eq_all, List.all_eq_true]
    intro w hw
    obtain ⟨i, hi, rfl⟩ := List.getElem_of_mem hw
    have hlast : i < shape.keys.length := Nat.lt_of_lt_of_le hi hlength
    apply hvalues shape.keys[i]
    dsimp only
    rw [(keys_nodup hnames).idxOf_getElem, List.getElem?_eq_getElem hi]
    exact List.mem_singleton.2 rfl

end Shape

end VariantStorage.Json
