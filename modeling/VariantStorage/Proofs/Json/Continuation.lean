import VariantStorage.Proofs.Json.Document

/-!
Texts that go on. The tokens of a text are those with which any longer text begins, but for two at
its end: a number may go on, and what is malformed may become a token. So unless a number goes on,
the value of a text grows only where it is cut, and everything before the cut stays as it is.
-/
namespace VariantStorage.Json

theorem StopsAt.append {p : Char → Bool} {rest more : List Char} (h : StopsAt p rest)
    (hmore : rest = [] → StopsAt p more) : StopsAt p (rest ++ more) := by
  cases rest with
  | nil => exact hmore rfl
  | cons c rest => exact h

def EndsInDigit (cs : List Char) : Prop :=
  ∃ c ∈ cs.getLast?, c.isDigit = true

/-- The text ends in a digit, and what follows it could go on with a number there. -/
def NumberGoesOn (text more : String) : Prop :=
  EndsInDigit text.toList ∧ ∃ c ∈ more.toList.head?, Numeral.continues c = true

/-- What follows a digit does not go on with the number. -/
theorem stopsAt_of_not_numberGoesOn {text more : String} (h : ¬NumberGoesOn text more)
    (hends : EndsInDigit text.toList) : StopsAt Numeral.continues more.toList := by
  intro c hc
  by_contra hcontinues
  exact h ⟨hends, c, hc, eq_true_of_ne_false hcontinues⟩

theorem EndsInDigit.append {cs : List Char} (h : EndsInDigit cs) (before : List Char) :
    EndsInDigit (before ++ cs) := by
  obtain ⟨c, hc, hdigit⟩ := h
  exact ⟨c, List.mem_getLast?_append_of_mem_getLast? hc, hdigit⟩

theorem SpellsDigits.endsInDigit {ds : List Nat} {cs : List Char} (h : SpellsDigits ds cs) :
    EndsInDigit cs := by
  obtain ⟨hne, hlt, rfl⟩ := h
  have hmem := List.getLast_mem hne
  refine ⟨Nat.digitChar (ds.getLast hne), ?_, Numeral.isDigit_digitChar _ (hlt _ hmem)⟩
  simp [List.getLast?_map, List.getLast?_eq_getLast_of_ne_nil hne]

namespace Numeral

theorem SpellsFraction.endsInDigit {ds : List Nat} {cs : List Char} (h : SpellsFraction ds cs)
    (hne : cs ≠ []) : EndsInDigit cs := by
  cases h with
  | none => exact absurd rfl hne
  | some h => exact h.endsInDigit.append ['.']

theorem SpellsPower.endsInDigit {e : Int} {cs : List Char} (h : SpellsPower e cs) :
    EndsInDigit cs := by
  cases h with
  | plain h => exact h.endsInDigit
  | plus h => exact h.endsInDigit.append ['+']
  | minus h => exact h.endsInDigit.append ['-']

theorem SpellsExponent.endsInDigit {e : Option Int} {cs : List Char} (h : SpellsExponent e cs)
    (hne : cs ≠ []) : EndsInDigit cs := by
  cases h with
  | none => exact absurd rfl hne
  | lower h => exact h.endsInDigit.append ['e']
  | upper h => exact h.endsInDigit.append ['E']

/-- Every part of a number that is not empty ends in a digit. -/
theorem Spells.endsInDigit {n : Numeral} {cs : List Char} (h : n.Spells cs) : EndsInDigit cs := by
  obtain @⟨fraction, exponent, hf, he⟩ := h
  apply EndsInDigit.append
  by_cases hexponent : exponent = []
  · by_cases hfraction : fraction = []
    · rw [hexponent, hfraction, List.append_nil, List.append_nil]
      exact (spellsDigits_digits n.whole).endsInDigit
    · rw [hexponent, List.append_nil]
      exact (hf.endsInDigit hfraction).append _
  · exact ((he.endsInDigit hexponent).append _).append _

section Append

variable {cs rest more : List Char} (hmore : rest = [] → StopsAt continues more)
include hmore

theorem stopsAt_isDigit (h : StopsAt Char.isDigit rest) : StopsAt Char.isDigit (rest ++ more) := by
  apply h.append
  intro hrest
  exact (hmore hrest).mono fun c hc => by simp [continues, hc]

/-- Digits that end before the end of the text are read alike in a longer text. -/
theorem readDigits_append {ds : List Nat} (h : readDigits cs = some (ds, rest)) :
    readDigits (cs ++ more) = some (ds, rest ++ more) := by
  obtain ⟨w, hw, rfl, hstop⟩ := spells_of_readDigits h
  rw [List.append_assoc]
  exact readDigits_of_spells hw (stopsAt_isDigit hmore hstop)

theorem readWhole_append {n : Nat} (h : readWhole cs = some (n, rest)) :
    readWhole (cs ++ more) = some (n, rest ++ more) := by
  obtain ⟨rfl, hstop⟩ := chars_of_readWhole h
  rw [List.append_assoc]
  exact readWhole_chars n (stopsAt_isDigit hmore hstop)

/-- A text that does not begin with a character of numbers still does not if it is made longer. -/
theorem append_ne_cons {c : Char} (hc : continues c = true) (h : ∀ later, rest ≠ c :: later)
    (later : List Char) : rest ++ more ≠ c :: later := by
  intro heq
  cases rest with
  | nil =>
    have hstop := hmore rfl c (by simp [show more = c :: later from heq])
    rw [hc] at hstop
    cases hstop
  | cons d rest =>
    obtain ⟨rfl, -⟩ := List.cons.inj heq
    exact h rest rfl

theorem readFraction_append {ds : List Nat} (h : readFraction cs = some (ds, rest)) :
    readFraction (cs ++ more) = some (ds, rest ++ more) := by
  unfold readFraction at h
  split at h
  next cs => exact readDigits_append hmore h
  next hpoint =>
    simp only [Option.some.injEq, Prod.mk.injEq] at h
    obtain ⟨rfl, rfl⟩ := h
    rw [readFraction]
    exact append_ne_cons hmore rfl fun later heq => hpoint later heq

theorem readPower_append {e : Int} (h : readPower cs = some (e, rest)) :
    readPower (cs ++ more) = some (e, rest ++ more) := by
  unfold readPower at h
  split at h <;>
    simp only [Option.map_eq_some_iff, Prod.exists, Prod.mk.injEq] at h <;>
    obtain ⟨ds, r, hr, rfl, rfl⟩ := h
  next => simp [readPower, readDigits_append hmore hr]
  next => simp [readPower, readDigits_append hmore hr]
  next =>
    obtain ⟨w, hw, rfl, hstop⟩ := spells_of_readDigits hr
    rw [List.append_assoc]
    exact readPower_of_digits hw (stopsAt_isDigit hmore hstop)

theorem readExponent_append {e : Option Int} (h : readExponent cs = some (e, rest)) :
    readExponent (cs ++ more) = some (e, rest ++ more) := by
  unfold readExponent at h
  split at h
  next cs =>
    simp only [Option.map_eq_some_iff, Prod.exists, Prod.mk.injEq] at h
    obtain ⟨e, r, hr, rfl, rfl⟩ := h
    simp [readExponent, readPower_append hmore hr]
  next cs =>
    simp only [Option.map_eq_some_iff, Prod.exists, Prod.mk.injEq] at h
    obtain ⟨e, r, hr, rfl, rfl⟩ := h
    simp [readExponent, readPower_append hmore hr]
  next hlower hupper =>
    simp only [Option.some.injEq, Prod.mk.injEq] at h
    obtain ⟨rfl, rfl⟩ := h
    rw [readExponent]
    · exact append_ne_cons hmore rfl fun later heq => hlower later heq
    · exact append_ne_cons hmore rfl fun later heq => hupper later heq

/-- A number is read the same in a longer text, unless it reaches the end and what follows could go
on with it. -/
theorem read_append {n : Numeral} (h : read cs = some (n, rest)) :
    read (cs ++ more) = some (n, rest ++ more) := by
  have hsign : readSign (cs ++ more) = ((readSign cs).1, (readSign cs).2 ++ more) := by
    cases cs with
    | nil => simp [read, readSign, readWhole, readDigits, leadingDigits] at h
    | cons c cs =>
      by_cases hc : c = '-'
      · rw [hc]
        rfl
      · simp [readSign, hc]
  simp only [read, Option.bind_eq_bind, Option.bind_eq_some_iff, Prod.exists, Option.pure_def,
    Option.some.injEq, Prod.mk.injEq] at h
  obtain ⟨w, r₁, h₁, f, r₂, h₂, e, r₃, h₃, rfl, rfl⟩ := h
  -- if a part of the number ends at the end of the text, so do all parts after it
  have hl₂ := readFraction_length h₂
  have hl₃ := readExponent_length h₃
  have hmore₂ : r₂ = [] → StopsAt continues more := by
    intro hr
    exact hmore (List.length_eq_zero_iff.1 (by rw [hr] at hl₃; simpa using hl₃))
  have hmore₁ : r₁ = [] → StopsAt continues more := by
    intro hr
    exact hmore₂ (List.length_eq_zero_iff.1 (by rw [hr] at hl₂; simpa using hl₂))
  simp [read, hsign, readWhole_append hmore₁ h₁, readFraction_append hmore₂ h₂,
    readExponent_append hmore h₃]

end Append

end Numeral

namespace Token

/-- A quoted text is no number. -/
theorem isNumber_ofUnits (us : List Unit16) : isNumber (.scalar (.ofUnits us)) = false := by
  unfold Scalar.ofUnits
  split <;> rfl

theorem numeral_of_read {n : Numeral} {cs rest : List Char}
    (h : read cs = some (.scalar (.number n), rest)) : Numeral.read cs = some (n, rest) := by
  unfold read at h
  split at h
  case h_10 =>
    simp only [Option.map_eq_some_iff, Prod.exists, Prod.mk.injEq, Token.scalar.injEq] at h
    obtain ⟨us, r, -, hus, -⟩ := h
    have hnumber := isNumber_ofUnits us
    rw [hus] at hnumber
    cases hnumber
  case h_11 =>
    simp only [Option.map_eq_some_iff, Prod.exists, Prod.mk.injEq, Token.scalar.injEq,
      Scalar.number.injEq] at h
    obtain ⟨m, r, hr, rfl, rfl⟩ := h
    exact hr
  all_goals simp at h

/-- A token is read the same in a longer text, unless a number goes on. -/
theorem read_append {t : Token} {cs rest more : List Char} (h : read cs = some (t, rest))
    (hmore : t.isNumber = true → rest = [] → StopsAt Numeral.continues more) :
    read (cs ++ more) = some (t, rest ++ more) := by
  -- of all tokens only a number can be cut short and still be a token
  cases hnumber : t.isNumber with
  | false =>
    obtain ⟨w, hw, rfl⟩ := spelling_of_read h
    rw [List.append_assoc]
    apply read_of_spelling hw
    intro ht
    rw [ht] at hnumber
    cases hnumber
  | true =>
    cases t with
    | scalar s =>
      cases s with
      | number n =>
        have hread := numeral_of_read h
        obtain ⟨w, hw, hcs⟩ := Numeral.spells_of_read hread
        obtain ⟨c, later, rfl, hc⟩ := numeral_head hw
        have hlonger := Numeral.read_append (hmore rfl) hread
        rw [hcs, List.cons_append, List.cons_append] at hlonger ⊢
        rw [read_of_digit hc, hlonger]
        rfl
      | _ => cases hnumber
    | _ => cases hnumber

/-- The tokens of a longer text begin with those of the text, but for a last one that is malformed.
-/
theorem scan_append {cs more : List Char}
    (h : EndsInDigit cs → StopsAt Numeral.continues more) :
    ∃ ts later, (scan cs = ts ∨ scan cs = ts ++ [.malformed]) ∧
      scan (cs ++ more) = ts ++ later := by
  fun_induction scan cs with
  | case1 => exact ⟨[], scan more, .inl rfl, rfl⟩
  | case2 c cs hc ih =>
    obtain ⟨ts, later, hts, hlonger⟩ := ih fun hends => h (hends.append [c])
    rw [List.cons_append, scan_cons_of_blank hc]
    exact ⟨ts, later, hts, hlonger⟩
  | case3 c cs hc t rest hread ih =>
    obtain ⟨w, hw, hcs⟩ := spelling_of_read hread
    obtain ⟨ts, later, hts, hlonger⟩ := ih fun hends => h (hcs ▸ hends.append w)
    -- a number that reaches the end of the text ends in a digit
    have hmore : t.isNumber = true → rest = [] → StopsAt Numeral.continues more := by
      intro hnumber hrest
      apply h
      rw [hcs, hrest, List.append_nil]
      cases hw with
      | number hn => exact hn.endsInDigit
      | quoted _ =>
        rw [isNumber_ofUnits] at hnumber
        cases hnumber
      | _ => cases hnumber
    have hhead := read_append hread hmore
    rw [List.cons_append] at hhead ⊢
    rw [scan_of_read (by simpa using hc) hhead, hlonger]
    refine ⟨t :: ts, later, ?_, rfl⟩
    cases hts with
    | inl hts => exact .inl (by rw [hts])
    | inr hts => exact .inr (by rw [hts, List.cons_append])
  | case4 c cs hc hread => exact ⟨[], _, .inr rfl, rfl⟩

end Token

namespace Fragment

/-- The value goes on where it is cut. What is cut last in an array or an object may also turn out
to be nothing, because the bracket closes there. -/
inductive Grows : Fragment → Fragment → Prop where
  | fill (w : Fragment) : Grows .cut w
  | item (vs : List Fragment) {v w : Fragment} (ws : List Fragment) (h : Grows v w) :
      Grows (.array (vs ++ [v])) (.array (vs ++ w :: ws))
  | closeArray (vs : List Fragment) : Grows (.array (vs ++ [.cut])) (.array vs)
  | member (ms : List (Key × Fragment)) (key : Key) {v w : Fragment}
      (ns : List (Key × Fragment)) (h : Grows v w) :
      Grows (.object (ms ++ [(key, v)])) (.object (ms ++ (key, w) :: ns))
  | members (ms ns : List (Key × Fragment)) :
      Grows (.object (ms ++ [(.missing .malformed, .cut)])) (.object (ms ++ ns))

/-- Only what is cut can grow. -/
theorem Grows.isWhole_eq {v w : Fragment} (h : Grows v w) : v.isWhole = false := by
  induction h with
  | fill w => rfl
  | item vs ws _ ih => simp [isWhole, allWhole_eq_all, ih]
  | closeArray vs => simp [isWhole, allWhole_eq_all]
  | member ms key ns _ ih => simp [isWhole, membersWhole_eq_all, ih]
  | members ms ns => simp [isWhole, membersWhole_eq_all]

/-- What grows inside open brackets grows with them. -/
theorem Grows.plug {v w : Fragment} (h : Grows v w) (outer : List Open) :
    Grows (plug v outer) (plug w outer) := by
  induction outer generalizing v w with
  | nil => exact h
  | cons o outer ih =>
    cases o with
    | array items =>
      apply ih
      rw [List.reverse_cons, List.reverse_cons]
      exact .item items.reverse [] h
    | object members key =>
      apply ih
      rw [List.reverse_cons, List.reverse_cons]
      exact .member members.reverse key [] h

/-- After a value something more may be cut. -/
theorem Grows.after {v w : Fragment} (h : Grows v w) (outer : List Open) :
    Grows (Fragment.plug v outer) (State.after w outer).fragment := by
  cases outer with
  | nil => exact h
  | cons o outer =>
    cases o with
    | array items =>
      have hitem := Grows.item items.reverse [.cut] h
      have hplug := hitem.plug outer
      simpa [Fragment.plug, State.fragment] using hplug
    | object members key =>
      have hmember := Grows.member members.reverse key [(.missing .malformed, .cut)] h
      have hplug := hmember.plug outer
      simpa [Fragment.plug, State.fragment] using hplug

namespace State

/-- The value before a step is the one after it, or grows into it. -/
def Extends (s s' : State) : Prop :=
  s'.fragment = s.fragment ∨ s.fragment.Grows s'.fragment

theorem extends_openValue (outer : List Open) (t : Token) :
    Extends (.value outer) (openValue outer t) := by
  cases t with
  | scalar s => exact .inr (Grows.after (.fill _) outer)
  | openArray => exact .inr (Grows.plug (.fill _) outer)
  | openObject => exact .inr (Grows.plug (.fill _) outer)
  | _ => exact .inl rfl

theorem extends_openMember (members : List (Key × Fragment)) (outer : List Open) (t : Token) :
    Extends (.member members outer) (openMember members outer t) := by
  have hfragment : (openMember members outer t).fragment =
      plug .cut (.object members (Key.ofToken t) :: outer) := by
    unfold openMember
    split
    next hmissing =>
      rw [hmissing]
      rfl
    next => rfl
  right
  rw [hfragment]
  have hmembers := Grows.members members.reverse [(Key.ofToken t, .cut)]
  have hplug := hmembers.plug outer
  simpa [plug, fragment] using hplug

theorem extends_after (v : Fragment) (outer : List Open) (t : Token) :
    Extends (.after v outer) (step (.after v outer) t) := by
  cases outer with
  | nil => exact .inl rfl
  | cons o outer =>
    cases o with
    | array items =>
      cases t with
      | closeArray =>
        right
        have hclose := Grows.closeArray (v :: items).reverse
        rw [← List.reverse_cons] at hclose
        exact hclose.after outer
      | _ => exact .inl rfl
    | object members key =>
      cases t with
      | closeObject =>
        right
        have hclose := Grows.members ((key, v) :: members).reverse []
        rw [← List.reverse_cons, List.append_nil] at hclose
        exact hclose.after outer
      | _ => exact .inl rfl

/-- One token more lets the value grow at most. -/
theorem extends_step (s : State) (t : Token) : Extends s (s.step t) := by
  cases s with
  | value outer => exact extends_openValue outer t
  | firstItem outer =>
    by_cases hclose : t = .closeArray
    · rw [hclose]
      exact .inr (Grows.after (.closeArray []) outer)
    · rw [step_firstItem_of_ne hclose]
      exact extends_openValue (.array [] :: outer) t
  | firstKey outer =>
    by_cases hclose : t = .closeObject
    · rw [hclose]
      exact .inr (Grows.after (.members [] []) outer)
    · rw [step_firstKey_of_ne hclose]
      exact extends_openMember [] outer t
  | member members outer => exact extends_openMember members outer t
  | colon members key outer => cases t <;> exact .inl rfl
  | after v outer => exact extends_after v outer t
  | broken v => exact .inl rfl
  | trailed v => exact .inl rfl

/-- A malformed token leaves the value as it is. -/
theorem fragment_step_malformed (s : State) : (s.step .malformed).fragment = s.fragment := by
  cases s with
  | after v outer =>
    cases outer with
    | nil => rfl
    | cons o outer => cases o <;> rfl
  | _ => rfl

end State

end Fragment

end VariantStorage.Json
