import VariantStorage.Json.Fragment.Tokens
import VariantStorage.Json.Reader
import VariantStorage.Proofs.Gather
import VariantStorage.Proofs.Json.Token

/-!
Texts and the values they spell. The automaton that builds a value stands after a whole value only
when it has taken exactly the tokens of that value, so the document of a text is a whole value with
nothing after it exactly when the text spells that value. A typed reader that accepts whole values
only therefore accepts exactly the spellings of what it accepts.
-/
namespace VariantStorage.Json

namespace Fragment

theorem allWhole_eq_all (vs : List Fragment) : allWhole vs = vs.all isWhole := by
  induction vs with
  | nil => rfl
  | cons v vs ih => rw [allWhole, List.all_cons, ih]

theorem membersWhole_eq_all (ms : List (Key × Fragment)) :
    membersWhole ms = ms.all fun m => m.1.isQuoted && m.2.isWhole := by
  induction ms with
  | nil => rfl
  | cons m ms ih => rw [membersWhole, List.all_cons, ih]

theorem separated_cons {t : Token} {ts : List Token} (ht : t.isNumber = false)
    (h : Token.Separated ts) : Token.Separated (t :: ts) :=
  List.isChain_cons.2 ⟨fun u _ => by simp [ht], h⟩

theorem isNumber_token (key : Key) : key.token.isNumber = false := by
  cases key <;> rfl

mutual

/-- In a written value no number stands directly before a number. -/
theorem separated_tokens (v : Fragment) {ts : List Token} (hts : Token.Separated ts)
    (hhead : ∀ t ∈ ts.head?, t.isNumber = false) : Token.Separated (v.tokens ++ ts) := by
  match v with
  | .cut => exact separated_cons rfl hts
  | .scalar s =>
    refine List.isChain_cons.2 ⟨fun u hu => ?_, hts⟩
    simp [hhead u hu]
  | .array items => exact separated_cons rfl (separated_tokensOfItems items hts)
  | .object members => exact separated_cons rfl (separated_tokensOfMembers members hts)
termination_by sizeOf v

theorem separated_tokensOfItems (vs : List Fragment) {ts : List Token}
    (hts : Token.Separated ts) : Token.Separated (tokensOfItems vs ++ ts) := by
  match vs with
  | [] => exact separated_cons rfl hts
  | [v] =>
    rw [tokensOfItems, List.append_assoc]
    exact separated_tokens v (separated_cons rfl hts) (by simp [Token.isNumber])
  | v :: w :: ws =>
    rw [tokensOfItems, List.append_assoc]
    · exact separated_tokens v (separated_cons rfl (separated_tokensOfItems (w :: ws) hts))
        (by simp [Token.isNumber])
    · simp
termination_by sizeOf vs

theorem separated_tokensOfMembers (ms : List (Key × Fragment)) {ts : List Token}
    (hts : Token.Separated ts) : Token.Separated (tokensOfMembers ms ++ ts) := by
  match ms with
  | [] => exact separated_cons rfl hts
  | [(key, v)] =>
    simp only [tokensOfMembers, List.cons_append, List.append_assoc]
    refine separated_cons (isNumber_token key) (separated_cons rfl ?_)
    exact separated_tokens v (separated_cons rfl hts) (by simp [Token.isNumber])
  | (key, v) :: m :: ms =>
    rw [tokensOfMembers]
    · simp only [List.cons_append, List.append_assoc]
      refine separated_cons (isNumber_token key) (separated_cons rfl ?_)
      exact separated_tokens v (separated_cons rfl (separated_tokensOfMembers (m :: ms) hts))
        (by simp [Token.isNumber])
    · simp
termination_by sizeOf ms

end

/-- Between two numbers of a value stands a comma. -/
theorem separated (v : Fragment) : Token.Separated v.tokens := by
  have hend : Token.Separated (v.tokens ++ []) := separated_tokens v .nil (by simp)
  rwa [List.append_nil] at hend

section Punctuation

variable {P : Token → Prop} (hP : ∀ t : Token, t.isPunctuation = true → P t)
include hP

/-- What holds of brackets, commas and colons holds of all tokens of an array if it does so of the
tokens of its items. -/
theorem forall_tokens_array {vs : List Fragment} :
    (∀ t ∈ (Fragment.array vs).tokens, P t) ↔ ∀ v ∈ vs, ∀ t ∈ v.tokens, P t := by
  have hcomma := hP .comma rfl
  have hclose := hP .closeArray rfl
  rw [tokens, List.forall_mem_cons, and_iff_right (hP .openArray rfl)]
  induction vs with
  | nil => simp [tokensOfItems, hclose]
  | cons v vs ih =>
    cases vs with
    | nil => simp [tokensOfItems, or_imp, forall_and, hclose]
    | cons w ws =>
      have hsplit : tokensOfItems (v :: w :: ws) = v.tokens ++ .comma :: tokensOfItems (w :: ws) :=
        rfl
      rw [hsplit, List.forall_mem_append, List.forall_mem_cons, and_iff_right hcomma,
        List.forall_mem_cons]
      exact and_congr_right' ih

theorem forall_tokens_object {ms : List (Key × Fragment)} :
    (∀ t ∈ (Fragment.object ms).tokens, P t) ↔
      ∀ m ∈ ms, P m.1.token ∧ ∀ t ∈ m.2.tokens, P t := by
  have hcomma := hP .comma rfl
  have hcolon := hP .colon rfl
  have hclose := hP .closeObject rfl
  rw [tokens, List.forall_mem_cons, and_iff_right (hP .openObject rfl)]
  induction ms with
  | nil => simp [tokensOfMembers, hclose]
  | cons m ms ih =>
    cases ms with
    | nil => simp [tokensOfMembers, or_imp, forall_and, hcolon, hclose]
    | cons n ns =>
      have hsplit : tokensOfMembers (m :: n :: ns) =
          m.1.token :: .colon :: (m.2.tokens ++ .comma :: tokensOfMembers (n :: ns)) := rfl
      rw [hsplit, List.forall_mem_cons, List.forall_mem_cons, List.forall_mem_append,
        List.forall_mem_cons, and_iff_right hcolon, and_iff_right hcomma, List.forall_mem_cons,
        and_assoc]
      exact and_congr_right' (and_congr_right' ih)

end Punctuation

/-- A key is a token of JSON exactly if it is quoted. -/
theorem token_ne_malformed {key : Key} : key.token ≠ .malformed ↔ key.isQuoted = true := by
  cases key <;> simp [Key.token, Key.isQuoted]

mutual

/-- A value is whole if no malformed token is among its tokens. -/
theorem isWhole_iff (v : Fragment) : v.isWhole = true ↔ ∀ t ∈ v.tokens, t ≠ .malformed := by
  have hpunctuation : ∀ t : Token, t.isPunctuation = true → t ≠ .malformed := by
    intro t ht hmalformed
    rw [hmalformed] at ht
    cases ht
  match v with
  | .cut => simp [isWhole, tokens]
  | .scalar s => simp [isWhole, tokens]
  | .array items =>
    rw [isWhole, forall_tokens_array hpunctuation]
    exact allWhole_iff items
  | .object members =>
    rw [isWhole, forall_tokens_object hpunctuation]
    exact membersWhole_iff members

theorem allWhole_iff (vs : List Fragment) :
    allWhole vs = true ↔ ∀ v ∈ vs, ∀ t ∈ v.tokens, t ≠ .malformed := by
  match vs with
  | [] => simp [allWhole]
  | v :: vs =>
    rw [allWhole, Bool.and_eq_true, isWhole_iff v, allWhole_iff vs, List.forall_mem_cons]

theorem membersWhole_iff (ms : List (Key × Fragment)) :
    membersWhole ms = true ↔
      ∀ m ∈ ms, m.1.token ≠ .malformed ∧ ∀ t ∈ m.2.tokens, t ≠ .malformed := by
  match ms with
  | [] => simp [membersWhole]
  | (key, v) :: ms =>
    rw [membersWhole, Bool.and_eq_true, Bool.and_eq_true, isWhole_iff v,
      membersWhole_iff ms, List.forall_mem_cons, token_ne_malformed]

end

/-- What a text spells is whole. -/
theorem SpelledBy.isWhole {v : Fragment} {text : String} (h : v.SpelledBy text) :
    v.isWhole = true := by
  rw [isWhole_iff]
  intro t ht hmalformed
  exact h.malformed_notMem (hmalformed ▸ ht)

def Writable (v : Fragment) : Prop :=
  ∀ t ∈ v.tokens, t.isWritable = true

theorem writable_punctuation (t : Token) (h : t.isPunctuation = true) : t.isWritable = true := by
  cases t <;> first | rfl | cases h

theorem writable_scalar {s : Scalar} (h : s.isWritable = true) : Writable (.scalar s) :=
  List.forall_mem_singleton.2 h

theorem writable_array {vs : List Fragment} (h : ∀ v ∈ vs, Writable v) : Writable (.array vs) :=
  (forall_tokens_array writable_punctuation).2 h

theorem writable_object {ms : List (Key × Fragment)}
    (h : ∀ m ∈ ms, m.1.isText = true ∧ Writable m.2) : Writable (.object ms) := by
  refine (forall_tokens_object writable_punctuation).2 fun m hm => ?_
  obtain ⟨hkey, hv⟩ := h m hm
  refine ⟨?_, hv⟩
  obtain ⟨key, v⟩ := m
  cases key <;> first | rfl | cases hkey

/-- The compact text of a value spells it. -/
theorem Writable.spelledBy {v : Fragment} (h : v.Writable) : v.SpelledBy v.text := by
  unfold SpelledBy text
  rw [String.toList_ofList]
  exact Token.spells_chars h

def tokensBefore (items : List Fragment) : List Token :=
  items.flatMap fun v => v.tokens ++ [.comma]

def membersBefore (members : List (Key × Fragment)) : List Token :=
  members.flatMap fun m => m.1.token :: .colon :: (m.2.tokens ++ [.comma])

/-- The tokens from the start of the text to the place where a value is due. -/
def openTokens : List Open → List Token
  | [] => []
  | .array items :: outer => openTokens outer ++ .openArray :: tokensBefore items.reverse
  | .object members key :: outer =>
    openTokens outer ++ .openObject :: (membersBefore members.reverse ++ [key.token, .colon])

theorem tokensOfItems_concat (vs : List Fragment) (v : Fragment) :
    tokensOfItems (vs ++ [v]) = tokensBefore vs ++ (v.tokens ++ [.closeArray]) := by
  induction vs with
  | nil => simp [tokensOfItems, tokensBefore]
  | cons w ws ih =>
    have hne : ws ++ [v] ≠ [] := by simp
    rw [List.cons_append, tokensOfItems, ih]
    · simp [tokensBefore]
    · exact hne

theorem tokensOfMembers_concat (ms : List (Key × Fragment)) (key : Key) (v : Fragment) :
    tokensOfMembers (ms ++ [(key, v)]) =
      membersBefore ms ++ key.token :: .colon :: (v.tokens ++ [.closeObject]) := by
  induction ms with
  | nil => simp [tokensOfMembers, membersBefore]
  | cons m ms ih =>
    have hne : ms ++ [(key, v)] ≠ [] := by simp
    rw [List.cons_append, tokensOfMembers, ih]
    · simp [membersBefore]
    · exact hne

/-- What is cut leaves everything around it cut. -/
theorem isWhole_plug {v : Fragment} (h : v.isWhole = false) (outer : List Open) :
    (plug v outer).isWhole = false := by
  induction outer generalizing v with
  | nil => exact h
  | cons o outer ih =>
    cases o with
    | array items =>
      apply ih
      simp [isWhole, allWhole_eq_all, h]
    | object members key =>
      apply ih
      simp [isWhole, membersWhole_eq_all, h]

namespace State

/-- What has been taken when the automaton stands there. Where the text is not JSON the value is
cut, and nothing is said where more follows after a value. -/
def Taken : State → List Token → Prop
  | .value outer, ts => ts = openTokens outer
  | .firstItem outer, ts => ts = openTokens outer ++ [.openArray]
  | .firstKey outer, ts => ts = openTokens outer ++ [.openObject]
  | .member members outer, ts =>
    ts = openTokens outer ++ .openObject :: membersBefore members.reverse
  | .colon members key outer, ts =>
    ts = openTokens outer ++ .openObject :: (membersBefore members.reverse ++ [key.token])
  | .after v outer, ts => ts = openTokens outer ++ v.tokens
  | .broken v, _ => v.isWhole = false
  | .trailed _, _ => True

theorem taken_openValue (outer : List Open) (t : Token) :
    (openValue outer t).Taken (openTokens outer ++ [t]) := by
  cases t with
  | scalar s => rfl
  | openArray => rfl
  | openObject => rfl
  | _ => exact isWhole_plug rfl outer

/-- A key is the token it was read from. -/
theorem token_ofToken {t : Token} (h : ∀ instead, Key.ofToken t ≠ .missing instead) :
    (Key.ofToken t).token = t := by
  cases t with
  | scalar s =>
    cases s with
    | text s => rfl
    | unpaired => rfl
    | _ => exact absurd rfl (h _)
  | _ => exact absurd rfl (h _)

theorem taken_openMember (members : List (Key × Fragment)) (outer : List Open) (t : Token) :
    (openMember members outer t).Taken
      (openTokens outer ++ .openObject :: (membersBefore members.reverse ++ [t])) := by
  unfold openMember
  split
  next => exact isWhole_plug rfl _
  next key hmissing =>
    rw [Taken, token_ofToken]
    exact fun instead h => hmissing instead h

theorem taken_after (v : Fragment) (outer : List Open) (t : Token) :
    ((State.after v outer).step t).Taken (openTokens outer ++ v.tokens ++ [t]) := by
  cases outer with
  | nil => exact trivial
  | cons o outer =>
    cases o with
    | array items =>
      cases t with
      | comma => simp [step, Taken, openTokens, tokensBefore]
      | closeArray => simp [step, Taken, openTokens, tokens, tokensOfItems_concat]
      | _ => exact isWhole_plug rfl _
    | object members key =>
      cases t with
      | comma => simp [step, Taken, openTokens, membersBefore]
      | closeObject => simp [step, Taken, openTokens, tokens, tokensOfMembers_concat]
      | _ => exact isWhole_plug rfl _

/-- What does not close an array is taken where its first item is due. -/
theorem step_firstItem_of_ne {t : Token} (h : t ≠ .closeArray) (outer : List Open) :
    step (.firstItem outer) t = openValue (.array [] :: outer) t := by
  rw [step]
  exact h

/-- What does not close an object is taken where its first key is due. -/
theorem step_firstKey_of_ne {t : Token} (h : t ≠ .closeObject) (outer : List Open) :
    step (.firstKey outer) t = openMember [] outer t := by
  rw [step]
  exact h

/-- One token more has been taken after one step. -/
theorem taken_step {s : State} {ts : List Token} (h : s.Taken ts) (t : Token) :
    (s.step t).Taken (ts ++ [t]) := by
  -- what is open spells the tokens so far, and the step appends the token to it or closes a bracket
  cases s with
  | value outer =>
    obtain rfl := h
    exact taken_openValue outer t
  | firstItem outer =>
    obtain rfl := h
    by_cases hclose : t = .closeArray
    · simp [hclose, step, Taken, tokens, tokensOfItems]
    · rw [step_firstItem_of_ne hclose]
      simpa [openTokens, tokensBefore] using taken_openValue (.array [] :: outer) t
  | firstKey outer =>
    obtain rfl := h
    by_cases hclose : t = .closeObject
    · simp [hclose, step, Taken, tokens, tokensOfMembers]
    · rw [step_firstKey_of_ne hclose]
      simpa [membersBefore] using taken_openMember [] outer t
  | member members outer =>
    obtain rfl := h
    simpa [step] using taken_openMember members outer t
  | colon members key outer =>
    obtain rfl := h
    cases t with
    | colon => simp [step, Taken, openTokens]
    | _ => exact isWhole_plug rfl _
  | after v outer =>
    obtain rfl := h
    exact taken_after v outer t
  | broken v => exact h
  | trailed v => exact trivial

/-- What has been taken after a run. -/
theorem taken_foldl (ts : List Token) : (ts.foldl step .start).Taken ts := by
  induction ts using List.reverseRecOn with
  | nil => rfl
  | append_singleton ts t ih =>
    rw [List.foldl_concat]
    exact taken_step ih t

/-- Where the value is whole and nothing follows it, its tokens and no others have been taken. -/
theorem eq_tokens_of_isWhole {s : State} {ts : List Token} (h : s.Taken ts)
    (hwhole : s.fragment.isWhole = true) (htrailed : s.isTrailed = false) :
    ts = s.fragment.tokens := by
  have hcut : ∀ outer, (plug .cut outer).isWhole ≠ true := fun outer hplug => by
    rw [isWhole_plug rfl outer] at hplug
    cases hplug
  cases s with
  | after v outer =>
    cases outer with
    | nil => exact h
    | cons o outer => cases o <;> exact absurd hwhole (hcut _)
  | broken v =>
    have hbroken : v.isWhole = false := h
    rw [fragment, hbroken] at hwhole
    cases hwhole
  | trailed v => cases htrailed
  | _ => exact absurd hwhole (hcut _)

end State

end Fragment

/-- A text that spells a value holds the value and nothing else. -/
theorem Document.ofText_of_spelledBy {v : Fragment} {text : String} (h : v.SpelledBy text) :
    ofText text = ⟨v, false⟩ := by
  have hscan := Token.scan_of_spells h v.separated
  have hrun := Fragment.foldl_tokens_start v h.isWhole
  simp [ofText, hscan, hrun, Fragment.State.fragment, Fragment.State.isTrailed]

/-- Two texts that spell one value are one document. -/
theorem Document.ofText_eq_of_spelledBy {v : Fragment} {text other : String}
    (h : v.SpelledBy text) (hother : v.SpelledBy other) : ofText other = ofText text := by
  rw [ofText, ofText, Token.scan_of_spells h v.separated, Token.scan_of_spells hother v.separated]

/-- If a text holds a whole value and nothing else, it spells the value. -/
theorem Document.spelledBy_of_ofText {v : Fragment} {text : String} (hwhole : v.isWhole = true)
    (h : ofText text = ⟨v, false⟩) : v.SpelledBy text := by
  have htaken := Fragment.State.taken_foldl (Token.scan text.toList)
  unfold ofText at h
  rw [mk.injEq] at h
  obtain ⟨rfl, htrailed⟩ := h
  have htokens := Fragment.State.eq_tokens_of_isWhole htaken hwhole htrailed
  have hmalformed : .malformed ∉ Token.scan text.toList := by
    rw [htokens]
    exact fun hm => (Fragment.isWhole_iff _).1 hwhole _ hm rfl
  have hspells := Token.spells_scan hmalformed
  rwa [htokens] at hspells

/-- A text that spells a value is read as the value is. -/
theorem readText_of_spelledBy {α : Type} {read : Fragment → Except ReadError α} {v : Fragment}
    {text : String} (h : v.SpelledBy text) :
    readText read text = (read v).mapError ReadError.reported := by
  rw [readText, readDocument, Document.ofText_of_spelledBy h]
  exact congrArg _ (bind_pure (read v))

/-- A reader that accepts nothing but whole values accepts exactly the texts that spell what it
accepts. -/
theorem readText_eq_ok {α : Type} {read : Fragment → Except ReadError α} {text : String} {a : α}
    (h : ∀ v, read v = .ok a → v.isWhole = true) :
    readText read text = .ok a ↔ ∃ v : Fragment, v.SpelledBy text ∧ read v = .ok a := by
  constructor
  · intro hread
    obtain ⟨b, hb, hend⟩ := bind_eq_ok.1 (mapError_eq_ok.1 hread)
    generalize hdocument : Document.ofText text = document at hb hend
    obtain ⟨v, trailed⟩ := document
    cases trailed with
    | true => cases hend
    | false =>
      obtain rfl : b = a := by simpa using hend
      exact ⟨v, Document.spelledBy_of_ofText (h v hb) hdocument, hb⟩
  · rintro ⟨v, hspells, hv⟩
    rw [readText_of_spelledBy hspells, hv]
    rfl

end VariantStorage.Json
