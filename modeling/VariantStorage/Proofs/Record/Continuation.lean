import VariantStorage.Proofs.Json.Continuation
import VariantStorage.Proofs.Json.Limits
import VariantStorage.Proofs.Record.Grammar
import VariantStorage.Record.Reader
import VariantStorage.Union.Json

/-!
Faults that stand. A reader goes through a value in the order of its text. If the text ends before
it finds a fault, it stands where the value is cut and finds the text malformed; so a fault that it
reports lies before the cut, and growth of the value leaves it there. One token more lets the value
grow at most, and therefore no text that follows changes the report.
-/
namespace VariantStorage

open Json (Fault Fragment ReadError)

namespace Json

variable {α β κ σ : Type} {room : Nat}

/-- The first answer is malformed, or it is a fault and the second answer is the same fault. -/
def Foretells (x y : Except ReadError α) : Prop :=
  x = .error .malformed ∨ ∃ f, x = .error (.data f) ∧ y = .error (.data f)

theorem Foretells.malformed (y : Except ReadError α) : Foretells (.error .malformed) y :=
  .inl rfl

theorem Foretells.error (e : ReadError) : Foretells (.error e : Except ReadError α) (.error e) := by
  cases e with
  | malformed => exact .malformed _
  | data f => exact .inr ⟨f, rfl, rfl⟩

/-- A fault is not looked behind. -/
theorem Foretells.bind {x y : Except ReadError α} (h : Foretells x y)
    (f g : α → Except ReadError β) : Foretells (x >>= f) (y >>= g) := by
  rcases h with rfl | ⟨fault, rfl, rfl⟩
  · exact .malformed _
  · exact .error _

theorem Foretells.map {x y : Except ReadError α} (h : Foretells x y) (f : α → β) :
    Foretells (x.map f) (y.map f) :=
  h.bind (fun a => .ok (f a)) fun a => .ok (f a)

/-- What is read first is read alike. -/
theorem Foretells.after (x : Except ReadError α) {f g : α → Except ReadError β}
    (h : ∀ a, Foretells (f a) (g a)) : Foretells (x >>= f) (x >>= g) := by
  cases x with
  | error e => exact .error e
  | ok a => exact h a

/-- Without room for a bracket both answers are malformed. -/
theorem foretells_bracket {x y : Except ReadError α} (h : 0 < room → Foretells x y) :
    Foretells (if room = 0 then .error .malformed else x)
      (if room = 0 then .error .malformed else y) := by
  by_cases hroom : room = 0
  · rw [if_pos hroom]
    exact .malformed _
  · rw [if_neg hroom, if_neg hroom]
    exact h (Nat.pos_of_ne_zero hroom)

/-- The reader goes through values in the order of their text: at a cut it finds the text malformed,
and what it finds before a cut it finds again when the value has grown. -/
structure InOrder (read : Fragment → Except ReadError α) : Prop where
  cut : read .cut = .error .malformed
  grows : ∀ {v w : Fragment}, v.Grows w → Foretells (read v) (read w)

theorem InOrder.map {read : Fragment → Except ReadError α} (h : InOrder read) (f : α → β) :
    InOrder fun v => (read v).map f where
  cut := by
    rw [h.cut]
    rfl
  grows hg := (h.grows hg).map f

/-- No scalar grows, so a reader may read scalars as it likes. -/
theorem InOrder.of_eq {read read' : Fragment → Except ReadError α} (h : InOrder read)
    (hsame : ∀ v, (∀ s, v ≠ .scalar s) → read' v = read v) : InOrder read' where
  cut := by
    rw [hsame .cut nofun]
    exact h.cut
  grows {v w} hg := by
    have hv : ∀ s, v ≠ .scalar s := by
      rintro s rfl
      cases hg
    rw [hsame v hv]
    by_cases hw : ∃ s, w = .scalar s
    · -- only what is cut altogether becomes a scalar
      obtain ⟨s, rfl⟩ := hw
      cases hg
      exact .inl h.cut
    · rw [hsame w fun s hs => hw ⟨s, hs⟩]
      exact h.grows hg

/-- What a value begins with does not change as it grows. -/
theorem inOrder_refuse (wanted : Wanted) :
    InOrder fun v => (refuse v.found wanted : Except ReadError α) where
  cut := rfl
  grows hg := by
    cases hg with
    | fill => exact .malformed _
    | _ => exact .error _

theorem inOrder_readNat (wanted : Wanted) (bound : Nat) : InOrder (readNat wanted bound) := by
  apply (inOrder_refuse wanted).of_eq
  intro v hv
  cases v with
  | scalar s => exact absurd rfl (hv s)
  | _ => rfl

theorem inOrder_readWord64 : InOrder readWord64 :=
  (inOrder_readNat _ _).map _

theorem inOrder_readWord16 : InOrder readWord16 :=
  (inOrder_readNat _ _).map _

theorem inOrder_readWord8 : InOrder readWord8 :=
  (inOrder_readNat _ _).map _

theorem inOrder_readNull : InOrder readNull := by
  apply (inOrder_refuse .null).of_eq
  intro v hv
  rw [readNull]
  exact hv .null

theorem InOrder.readOption {read : Fragment → Except ReadError α} (h : InOrder read) :
    InOrder (Json.readOption read) := by
  apply (h.map some).of_eq
  intro v hv
  rw [Json.readOption]
  exact hv .null

/-- A second member is malformed, but only after the first one. -/
theorem Names.read_foretells (names : Names α) (m : Key × Fragment)
    {ms : List (Key × Fragment)} (hms : ms ≠ []) (ns : List (Key × Fragment)) :
    Foretells (names.read room (.object (m :: ms))) (names.read room (.object (m :: ns))) := by
  apply foretells_bracket
  intro _
  apply Foretells.after
  intro a
  apply Foretells.after
  intro _
  rw [List.isEmpty_eq_false_iff.2 hms]
  exact .malformed _

/-- Where something else begins in place of the key, that is a fault however it goes on. -/
theorem Names.inOrder_read (names : Names α) (room : Nat) : InOrder (names.read room) where
  cut := rfl
  grows hg := by
    cases hg with
    | member ms key ns hg =>
      cases ms with
      | nil =>
        apply foretells_bracket
        intro _
        apply Foretells.after
        intro a
        exact (inOrder_readNull.grows hg).bind _ _
      | cons m ms => exact names.read_foretells m (by simp) _
    | members ms ns =>
      cases ms with
      | nil =>
        left
        rw [List.nil_append, read]
        split <;> rfl
      | cons m ms => exact names.read_foretells m (by simp) _
    | _ => exact .malformed _

theorem InOrder.readList {item : Fragment → Except ReadError α}
    (h : 0 < room → InOrder item) : InOrder (Json.readList item room) where
  cut := rfl
  grows hg := by
    cases hg with
    | fill => exact .malformed _
    | item vs ws hg =>
      apply foretells_bracket
      intro hroom
      rw [List.mapM_append, List.mapM_append, List.mapM_cons, List.mapM_cons]
      apply Foretells.after
      intro as
      exact (((h hroom).grows hg).bind _ _).bind _ _
    | closeArray vs =>
      -- before the bracket the next item is still open
      have hclose : 0 < room → Foretells ((vs ++ [Fragment.cut]).mapM item)
          ((vs ++ []).mapM item) := by
        intro hroom
        rw [List.mapM_append, List.mapM_append, List.mapM_cons, (h hroom).cut]
        exact .after _ fun as => .malformed _
      rw [List.append_nil] at hclose
      exact foretells_bracket hclose
    | _ => exact .error _

namespace Shape

variable [DecidableEq κ] (shape : Shape κ σ) {set : κ → Fragment → σ → Except ReadError σ}

/-- Members that two objects begin with are read alike. -/
theorem readMembers_append {ms ns : List (Key × Fragment)}
    (h : ∀ seen r, Foretells (shape.readMembers set seen r ms) (shape.readMembers set seen r ns))
    (first : List (Key × Fragment)) (seen : List κ) (r : σ) :
    Foretells (shape.readMembers set seen r (first ++ ms))
      (shape.readMembers set seen r (first ++ ns)) := by
  induction first generalizing seen r with
  | nil => exact h seen r
  | cons m first ih =>
    obtain ⟨key, v⟩ := m
    cases key with
    | text s =>
      rw [List.cons_append, List.cons_append]
      cases hfind : shape.find? s with
      | none =>
        rw [readMembers_other hfind, readMembers_other hfind]
        split
        · exact ih seen r
        · exact .malformed _
      | some k =>
        rw [readMembers_field hfind, readMembers_field hfind]
        split
        · exact .error _
        · exact .after _ fun record => ih (k :: seen) record
    | _ => exact .malformed _

/-- A second member for one field is refused at its key, whatever its value is. -/
theorem readMembers_member (hset : ∀ k r, InOrder fun v => set k v r) {v w : Fragment}
    (hg : v.Grows w) (key : Key) (ns : List (Key × Fragment)) (seen : List κ) (r : σ) :
    Foretells (shape.readMembers set seen r [(key, v)])
      (shape.readMembers set seen r ((key, w) :: ns)) := by
  cases key with
  | text s =>
    cases hfind : shape.find? s with
    | none =>
      rw [readMembers_other hfind, hg.isWhole_eq]
      exact .malformed _
    | some k =>
      rw [readMembers_field hfind, readMembers_field hfind]
      split
      · exact .error _
      · exact ((hset k r).grows hg).bind _ _
  | _ => exact .malformed _

omit [DecidableEq κ] in
/-- Items that two arrays begin with are read alike. -/
theorem readItems_append {vs ws : List Fragment}
    (h : ∀ keys r, Foretells (readItems set keys r vs) (readItems set keys r ws))
    (first : List Fragment) (keys : List κ) (r : σ) :
    Foretells (readItems set keys r (first ++ vs)) (readItems set keys r (first ++ ws)) := by
  induction first generalizing keys r with
  | nil => exact h keys r
  | cons v first ih =>
    cases keys with
    | nil => exact .malformed _
    | cons k keys => exact .after _ fun record => ih keys record

omit [DecidableEq κ] in
theorem readItems_item (hset : ∀ k r, InOrder fun v => set k v r) {v w : Fragment}
    (hg : v.Grows w) (ws : List Fragment) (keys : List κ) (r : σ) :
    Foretells (readItems set keys r [v]) (readItems set keys r (w :: ws)) := by
  cases keys with
  | nil => exact .malformed _
  | cons k keys => exact ((hset k r).grows hg).bind _ _

omit [DecidableEq κ] in
theorem readItems_cut (hset : ∀ k r, InOrder fun v => set k v r) (keys : List κ) (r : σ) :
    Foretells (readItems set keys r [.cut]) (readItems set keys r []) := by
  cases keys with
  | nil => exact .malformed _
  | cons k keys =>
    have hcut : set k .cut r = .error .malformed := (hset k r).cut
    left
    rw [readItems, hcut]
    rfl

/-- A record is read in the order of the text if each of its fields is. -/
theorem inOrder_read (hset : 0 < room → ∀ k r, InOrder fun v => set k v r) :
    InOrder (shape.read set room) where
  cut := rfl
  grows hg := by
    cases hg with
    | fill => exact .malformed _
    | item vs ws hg =>
      apply foretells_bracket
      intro hroom
      exact (readItems_append (readItems_item (hset hroom) hg ws) vs _ _).bind _ _
    | closeArray vs =>
      have hclose : 0 < room → ∀ keys r,
          Foretells (readItems set keys r (vs ++ [.cut])) (readItems set keys r (vs ++ [])) :=
        fun hroom => readItems_append (readItems_cut (hset hroom)) vs
      rw [List.append_nil] at hclose
      apply foretells_bracket
      intro hroom
      exact (hclose hroom _ _).bind _ _
    | member ms key ns hg =>
      apply foretells_bracket
      intro hroom
      exact (shape.readMembers_append (shape.readMembers_member (hset hroom) hg key ns) ms _ _).bind
        _ _
    | members ms ns =>
      -- a key is due, and where it is missing there is no fault yet
      have hmissing : ∀ seen r,
          Foretells (shape.readMembers set seen r [(.missing .malformed, .cut)])
            (shape.readMembers set seen r ns) := fun _ _ => .malformed _
      apply foretells_bracket
      intro _
      exact (shape.readMembers_append hmissing ms _ _).bind _ _

end Shape

section Text

variable {read : Fragment → Except ReadError α}

/-- After one token more the fault is the same. -/
theorem InOrder.fault_step (h : InOrder read) {s : Fragment.State} {f : Fault}
    (hf : read s.fragment = .error (.data f)) (t : Token) :
    read (s.step t).fragment = .error (.data f) := by
  cases s.extends_step t with
  | inl heq =>
    rw [heq]
    exact hf
  | inr hgrows =>
    have hforetells := h.grows hgrows
    rw [hf] at hforetells
    rcases hforetells with hmalformed | ⟨g, hg, hstep⟩
    · cases hmalformed
    · rw [hg]
      exact hstep

/-- However many tokens follow, the fault is the same. -/
theorem InOrder.fault_foldl (h : InOrder read) {s : Fragment.State} {f : Fault}
    (hf : read s.fragment = .error (.data f)) (ts : List Token) :
    read (ts.foldl Fragment.State.step s).fragment = .error (.data f) := by
  induction ts generalizing s with
  | nil => exact hf
  | cons t ts ih => exact ih (h.fault_step hf t)

/-- The reader finds the fault in the text, whether it reports it as what it is or as malformed
text. -/
def Finds (read : Fragment → Except ReadError α) (text : String) (f : Fault) : Prop :=
  readDocument read (.ofText text) = .error (.data f)

/-- A fault is found in the value; what follows the value is only malformed. -/
theorem finds_iff {text : String} {f : Fault} :
    Finds read text f ↔ read (Document.ofText text).value = .error (.data f) := by
  rw [Finds, readDocument, bind_eq_error]
  constructor
  · intro hread
    rcases hread with hread | ⟨a, -, hend⟩
    · exact hread
    · split at hend <;> cases hend
  · exact .inl

/-- A fault that is found in a text is found in any longer text, unless a number goes on. -/
theorem InOrder.finds_append (h : InOrder read) {text more : String}
    (hmore : ¬NumberGoesOn text more) {f : Fault} (hf : Finds read text f) :
    Finds read (text ++ more) f := by
  rw [finds_iff] at hf ⊢
  obtain ⟨ts, later, htext, hlonger⟩ := Token.scan_append (stopsAt_of_not_numberGoesOn hmore)
  have hvalue : (Document.ofText text).value =
      (ts.foldl Fragment.State.step .start).fragment := by
    rcases htext with htext | htext
    · rw [Document.ofText, htext]
    · rw [Document.ofText, htext, List.foldl_concat]
      exact Fragment.State.fragment_step_malformed _
  rw [hvalue] at hf
  rw [Document.ofText, String.toList_append, hlonger, List.foldl_append]
  exact h.fault_foldl hf later

/-- A fault that is reported is the one that is found. -/
theorem eq_data_of_reported {e : ReadError} {f : Fault} (h : e.reported = .data f) :
    e = .data f := by
  unfold ReadError.reported at h
  split at h
  · cases h
  · exact h

/-- Whether a fault is reported depends on the fault alone. -/
theorem readText_eq_fault {text : String} {f : Fault} : readText read text = .error (.data f) ↔
    Finds read text f ∧ (ReadError.data f).reported = .data f := by
  rw [readText, Finds]
  cases readDocument read (.ofText text) with
  | ok a => simp [Except.mapError]
  | error e =>
    simp only [Except.mapError, Except.error.injEq]
    constructor
    · intro h
      obtain rfl := eq_data_of_reported h
      exact ⟨rfl, h⟩
    · rintro ⟨rfl, h⟩
      exact h

/-- A fault that is reported in a text is reported in any longer text, unless a number goes on. -/
theorem InOrder.fault_append (h : InOrder read) {text more : String}
    (hmore : ¬NumberGoesOn text more) {f : Fault} (hf : readText read text = .error (.data f)) :
    readText read (text ++ more) = .error (.data f) := by
  rw [readText_eq_fault] at hf ⊢
  exact ⟨h.finds_append hmore hf.1, hf.2⟩

end Text

end Json

open Json (Finds InOrder)

namespace FieldRecord

mutual

theorem inOrder_read (room : Nat) : InOrder (read room) := by
  rw [read_eq_shape_read]
  apply shape.inOrder_read
  intro hroom k r
  apply InOrder.map
  cases k with
  | offset => exact Json.inOrder_readWord64.readOption
  | type => exact (TypeName.names.inOrder_read _).readOption
  | kind => exact (Construct.names.inOrder_read _).readOption
  | discriminant => exact Json.inOrder_readWord16
  | fields => exact (inOrder_readList (room - 1)).readOption
termination_by room

/-- Field records are read in the order of the text, at any depth. -/
theorem inOrder_readList (room : Nat) : InOrder (readList room) := by
  apply InOrder.readList
  intro hroom
  exact inOrder_read (room - 1)
termination_by room

end

end FieldRecord

theorem StructRecord.inOrder_read (room : Nat) : InOrder (read room) := by
  apply shape.inOrder_read
  intro _ _ _
  exact (FieldRecord.inOrder_readList (room - 1)).map _

theorem ByteRange.inOrder_read (room : Nat) : InOrder (shape.read set room) := by
  apply shape.inOrder_read
  intro _ k r
  cases k with
  | position => exact Json.inOrder_readWord64.map _
  | length => exact Json.inOrder_readWord64.map _

theorem MaskEntry.inOrder_read (room : Nat) : InOrder (shape.read set room) := by
  apply shape.inOrder_read
  intro _ k e
  cases k with
  | position => exact Json.inOrder_readWord64.map _
  | mask => exact Json.inOrder_readWord8.map _

/-- An element is read only where its whole value is there. -/
theorem ElementRecord.inOrder_read (room : Nat) : InOrder (read room) where
  cut := by
    rw [read, Fragment.isReadable]
    rfl
  grows {v w} hg := by
    have hunreadable : v.isReadable room = false := by
      by_contra hreadable
      have hlimits := (v.isReadable_iff room).1 (eq_true_of_ne_false hreadable)
      have hwhole := hlimits.isWhole
      rw [hg.isWhole_eq] at hwhole
      cases hwhole
    rw [read, hunreadable]
    exact .malformed _

/-- A fault is decided by what stands before it. Where a reader reports a fault in a text, it
reports the same fault, and so the same message, in every longer text: neither a later fault nor
text that is not JSON changes it. Only a number at the end of the text must not go on. The same
holds of every fault that a reader finds, also where something else stands in place of a name, which
has a message but is reported as malformed text. A message says nothing of lines and columns: a
position that were added to it could move with the text that follows. -/
theorem faults_stand (text more : String) (hmore : ¬Json.NumberGoesOn text more) (f : Fault) :
    (FieldRecord.ofText text = .error (.data f) →
      FieldRecord.ofText (text ++ more) = .error (.data f)) ∧
    (StructRecord.ofText text = .error (.data f) →
      StructRecord.ofText (text ++ more) = .error (.data f)) ∧
    (ByteRange.ofText text = .error (.data f) →
      ByteRange.ofText (text ++ more) = .error (.data f)) ∧
    (MaskEntry.ofText text = .error (.data f) →
      MaskEntry.ofText (text ++ more) = .error (.data f)) ∧
    (ElementRecord.ofText text = .error (.data f) →
      ElementRecord.ofText (text ++ more) = .error (.data f)) ∧
    (Finds (FieldRecord.readList 127) text f →
      Finds (FieldRecord.readList 127) (text ++ more) f) ∧
    (Finds (StructRecord.read 127) text f → Finds (StructRecord.read 127) (text ++ more) f) ∧
    (Finds (ByteRange.shape.read ByteRange.set 127) text f →
      Finds (ByteRange.shape.read ByteRange.set 127) (text ++ more) f) ∧
    (Finds (MaskEntry.shape.read MaskEntry.set 127) text f →
      Finds (MaskEntry.shape.read MaskEntry.set 127) (text ++ more) f) ∧
    (Finds (ElementRecord.read 127) text f → Finds (ElementRecord.read 127) (text ++ more) f) :=
  ⟨(FieldRecord.inOrder_readList 127).fault_append hmore,
    (StructRecord.inOrder_read 127).fault_append hmore,
    (ByteRange.inOrder_read 127).fault_append hmore,
    (MaskEntry.inOrder_read 127).fault_append hmore,
    (ElementRecord.inOrder_read 127).fault_append hmore,
    (FieldRecord.inOrder_readList 127).finds_append hmore,
    (StructRecord.inOrder_read 127).finds_append hmore,
    (ByteRange.inOrder_read 127).finds_append hmore,
    (MaskEntry.inOrder_read 127).finds_append hmore,
    (ElementRecord.inOrder_read 127).finds_append hmore⟩

/-- A fault in each reader, and one at what stands in place of a name, before text that is not
JSON. -/
theorem faults_stand_before_garbage :
    let fields := "[\x7b\"offset\":\"1\",\"type\":"
    let struct := "\x7b\"fields\":[],\"fields\""
    let element := "\x7b\"meta\":\"list\",\"meta\":null\x7d"
    let unnamed := "[\x7b\"type\":\x7b["
    FieldRecord.ofText (fields ++ ",,]") = .error (.data (.wrongKind (.text "1") .word64)) ∧
      StructRecord.ofText (struct ++ "=") = .error (.data (.duplicate "fields")) ∧
      ByteRange.ofText ("[1]" ++ " 2]") = .error (.data (.tooShort 1 .range 2)) ∧
      MaskEntry.ofText ("[0,300" ++ "\x7d") = .error (.data (.outOfRange 300 .word8)) ∧
      ElementRecord.ofText (element ++ "nul") = .error (.data .noAlternative) ∧
      Finds (FieldRecord.readList 127) (unnamed ++ "1:\x7d") (.wrongKind .array .name) := by
  intro fields struct element unnamed
  have hfields : ¬Json.NumberGoesOn fields ",,]" := by
    simp [fields, Json.NumberGoesOn, Json.EndsInDigit]
  have hstruct : ¬Json.NumberGoesOn struct "=" := by
    simp [struct, Json.NumberGoesOn, Json.EndsInDigit]
  have hrange : ¬Json.NumberGoesOn "[1]" " 2]" := by
    simp [Json.NumberGoesOn, Json.EndsInDigit]
  have hmask : ¬Json.NumberGoesOn "[0,300" "\x7d" := by
    simp [Json.NumberGoesOn, Json.Numeral.continues]
  have helement : ¬Json.NumberGoesOn element "nul" := by
    simp [element, Json.NumberGoesOn, Json.EndsInDigit]
  have hunnamed : ¬Json.NumberGoesOn unnamed "1:\x7d" := by
    simp [unnamed, Json.NumberGoesOn, Json.EndsInDigit]
  have hfound : Finds (FieldRecord.readList 127) unnamed (.wrongKind .array .name) := by
    unfold Finds
    cbv
  obtain ⟨-, -, -, -, -, hlonger, -⟩ := faults_stand unnamed _ hunnamed (.wrongKind .array .name)
  exact ⟨(faults_stand _ _ hfields _).1 (by cbv), (faults_stand _ _ hstruct _).2.1 (by cbv),
    (faults_stand _ _ hrange _).2.2.1 (by cbv), (faults_stand _ _ hmask _).2.2.2.1 (by cbv),
    (faults_stand _ _ helement _).2.2.2.2.1 (by cbv), hlonger hfound⟩

/-- A number that goes on is another number. -/
example : MaskEntry.ofText "[0,300" = .error (.data (.outOfRange 300 .word8)) ∧
    MaskEntry.ofText ("[0,300" ++ "0") = .error (.data (.outOfRange 3000 .word8)) :=
  ⟨by cbv, by cbv⟩

end VariantStorage
