import Mathlib
import VariantStorage.Json.Grammar

/-!
Reading a number at the head of a text. What is read is a spelling of the number, and a spelling is
read whole unless what follows could go on with it: a digit, a point or the mark of an exponent.
-/
namespace VariantStorage

namespace Decimal

theorem digits_concat {n d : Nat} (hn : 0 < n) (hd : d < 10) :
    digits (10 * n + d) = digits n ++ [d] := by
  have hdiv : (10 * n + d) / 10 = n := by omega
  have hmod : (10 * n + d) % 10 = d := by omega
  rw [digits, if_neg (by omega), hdiv, hmod]

/-- Zero is the only number whose digits begin with a zero. -/
theorem digits_eq_zero {n : Nat} (h : (digits n).head? = some 0) : digits n = [0] := by
  have hzero : n = 0 := by
    induction n using Nat.strongRecOn with
    | _ n ih =>
      rw [digits] at h
      split at h
      · simpa using h
      · rw [List.head?_append_of_ne_nil _ (digits_ne_nil _)] at h
        have := ih (n / 10) (by omega) h
        omega
  rw [hzero]
  decide +kernel

/-- Digits without leading zeros are those of the number that they stand for. -/
theorem digits_ofDigits {ds : List Nat} (hne : ds ≠ []) (hlt : ∀ d ∈ ds, d < 10)
    (hzero : ds.head? = some 0 → ds = [0]) : digits (ofDigits ds) = ds := by
  induction ds using List.reverseRecOn with
  | nil => exact absurd rfl hne
  | append_singleton ds d ih =>
    have hd : d < 10 := hlt d (by simp)
    rw [ofDigits_concat]
    by_cases hds : ds = []
    · subst hds
      rw [ofDigits_nil, Nat.mul_zero, Nat.zero_add, digits, if_pos hd, List.nil_append]
    · have hhead : ds.head? ≠ some 0 := by
        intro h
        have hall := hzero (by rw [List.head?_append_of_ne_nil _ hds, h])
        have hlen := congrArg List.length hall
        rw [List.length_append, List.length_singleton, List.length_singleton] at hlen
        exact hds (List.length_eq_zero_iff.1 (by omega))
      have hrest := ih hds (fun d hd => hlt d (by simp [hd])) fun h => absurd h hhead
      have hpos : 0 < ofDigits ds := by
        apply Nat.pos_of_ne_zero
        intro h
        rw [h] at hrest
        rw [← hrest] at hhead
        exact hhead (by decide +kernel)
      rw [digits_concat hpos hd, hrest]

end Decimal

namespace Json

/-- The text does not begin with a character of the class. -/
def StopsAt (p : Char → Bool) (cs : List Char) : Prop :=
  ∀ c ∈ cs.head?, p c = false

theorem StopsAt.mono {p q : Char → Bool} {cs : List Char} (h : StopsAt p cs)
    (hpq : ∀ c, q c = true → p c = true) : StopsAt q cs := by
  intro c hc
  have hp := h c hc
  cases hq : q c with
  | false => rfl
  | true =>
    rw [hpq c hq] at hp
    cases hp

theorem stopsAt_dropWhile (p : Char → Bool) (cs : List Char) : StopsAt p (cs.dropWhile p) := by
  intro c hc
  cases h : cs.dropWhile p with
  | nil => simp [h] at hc
  | cons d ds =>
    obtain rfl : d = c := by simpa [h] using hc
    have hhead := List.head_dropWhile_not p (l := cs) (by simp [h])
    simpa [h] using hhead

theorem takeWhile_append_of_stopsAt {p : Char → Bool} {w rest : List Char}
    (hw : ∀ c ∈ w, p c = true) (h : StopsAt p rest) :
    (w ++ rest).takeWhile p = w ∧ (w ++ rest).dropWhile p = rest := by
  rw [List.takeWhile_append_of_pos hw, List.dropWhile_append_of_pos hw]
  cases rest with
  | nil => simp
  | cons c rest =>
    have hc : p c = false := h c rfl
    simp [hc]

namespace Numeral

theorem digitValue_digitChar : ∀ d < 10, digitValue (Nat.digitChar d) = d := by
  decide

theorem isDigit_digitChar : ∀ d < 10, (Nat.digitChar d).isDigit = true := by
  decide

theorem toNat_of_isDigit {c : Char} (h : c.isDigit = true) : 48 ≤ c.toNat ∧ c.toNat ≤ 57 :=
  Char.isDigit_iff_toNat.1 h

theorem digitValue_lt {c : Char} (h : c.isDigit = true) : digitValue c < 10 := by
  have hrange := toNat_of_isDigit h
  change c.toNat - 48 < 10
  omega

theorem digitChar_digitValue {c : Char} (h : c.isDigit = true) :
    Nat.digitChar (digitValue c) = c := by
  have hrange := toNat_of_isDigit h
  have hvalue : digitValue c = c.toNat - 48 := rfl
  rw [hvalue]
  apply Char.toNat_inj.1
  rw [Nat.toNat_digitChar_of_lt_ten (by omega)]
  omega

/-- Digits are read up to a character that is none. -/
theorem readDigits_of_spells {ds : List Nat} {w rest : List Char} (h : SpellsDigits ds w)
    (hrest : StopsAt Char.isDigit rest) : readDigits (w ++ rest) = some (ds, rest) := by
  have hw : ∀ c ∈ w, c.isDigit = true := by
    rw [h.eq]
    simpa using fun d hd => isDigit_digitChar d (h.lt d hd)
  have hvalue : w.map digitValue = ds := by
    rw [h.eq, List.map_map]
    conv => rhs; rw [← List.map_id ds]
    exact List.map_congr_left fun d hd => digitValue_digitChar d (h.lt d hd)
  obtain ⟨htake, hdrop⟩ := takeWhile_append_of_stopsAt hw hrest
  simp [readDigits, leadingDigits, htake, hdrop, hvalue, h.ne_nil]

theorem spells_of_readDigits {ds : List Nat} {cs rest : List Char}
    (h : readDigits cs = some (ds, rest)) :
    ∃ w, SpellsDigits ds w ∧ cs = w ++ rest ∧ StopsAt Char.isDigit rest := by
  by_cases hne : cs.takeWhile Char.isDigit = []
  · simp [readDigits, leadingDigits, hne] at h
  · simp only [readDigits, leadingDigits, List.isEmpty_iff, List.map_eq_nil_iff, hne, if_false,
      Option.some.injEq, Prod.mk.injEq] at h
    obtain ⟨rfl, rfl⟩ := h
    have hall : ∀ c ∈ cs.takeWhile Char.isDigit, c.isDigit = true := fun c hc =>
      List.mem_takeWhile_imp hc
    refine ⟨cs.takeWhile Char.isDigit, ⟨by simpa using hne, ?_, ?_⟩, ?_, stopsAt_dropWhile _ _⟩
    · simpa using fun c hc => digitValue_lt (hall c hc)
    · rw [List.map_map]
      conv => lhs; rw [← List.map_id (cs.takeWhile Char.isDigit)]
      exact List.map_congr_left fun c hc => (digitChar_digitValue (hall c hc)).symm
    · exact List.takeWhile_append_dropWhile.symm

theorem spellsDigits_digits (n : Nat) : SpellsDigits (Decimal.digits n) (Decimal.chars n) :=
  ⟨Decimal.digits_ne_nil n, Decimal.digits_lt n, rfl⟩

theorem readWhole_chars (n : Nat) {rest : List Char} (h : StopsAt Char.isDigit rest) :
    readWhole (Decimal.chars n ++ rest) = some (n, rest) := by
  have hzero : ¬((Decimal.digits n).head? = some 0 ∧ Decimal.digits n ≠ [0]) := by
    rintro ⟨hhead, hne⟩
    exact hne (Decimal.digits_eq_zero hhead)
  simp [readWhole, readDigits_of_spells (spellsDigits_digits n) h, Decimal.ofDigits_digits, hzero]

/-- The digits before the point have no other spelling. -/
theorem chars_of_readWhole {cs rest : List Char} {n : Nat} (h : readWhole cs = some (n, rest)) :
    cs = Decimal.chars n ++ rest ∧ StopsAt Char.isDigit rest := by
  simp only [readWhole, Option.bind_eq_bind, Option.bind_eq_some_iff, Prod.exists] at h
  obtain ⟨ds, r, hr, h⟩ := h
  split at h
  · cases h
  next hzero =>
    simp only [Option.some.injEq, Prod.mk.injEq] at h
    obtain ⟨rfl, rfl⟩ := h
    obtain ⟨w, hw, rfl, hstop⟩ := spells_of_readDigits hr
    have hds : Decimal.digits (Decimal.ofDigits ds) = ds := by
      apply Decimal.digits_ofDigits hw.ne_nil hw.lt
      intro hhead
      by_contra hne
      exact hzero ⟨hhead, hne⟩
    exact ⟨by rw [Decimal.chars, hds, hw.eq], hstop⟩

theorem readFraction_of_spells {ds : List Nat} {w rest : List Char} (h : SpellsFraction ds w)
    (hdigit : StopsAt Char.isDigit rest) (hpoint : StopsAt (· == '.') rest) :
    readFraction (w ++ rest) = some (ds, rest) := by
  cases h with
  | none =>
    rw [List.nil_append]
    unfold readFraction
    split
    · cases hpoint '.' rfl
    · rfl
  | some h => exact readDigits_of_spells h hdigit

theorem spells_of_readFraction {ds : List Nat} {cs rest : List Char}
    (h : readFraction cs = some (ds, rest)) : ∃ w, SpellsFraction ds w ∧ cs = w ++ rest := by
  unfold readFraction at h
  split at h
  next cs =>
    obtain ⟨w, hw, rfl, -⟩ := spells_of_readDigits h
    exact ⟨'.' :: w, .some hw, rfl⟩
  next =>
    simp only [Option.some.injEq, Prod.mk.injEq] at h
    obtain ⟨rfl, rfl⟩ := h
    exact ⟨[], .none, rfl⟩

/-- A row of digits begins with a digit, so it is no sign. -/
theorem readPower_of_digits {ds : List Nat} {w rest : List Char} (h : SpellsDigits ds w)
    (hdigit : StopsAt Char.isDigit rest) :
    readPower (w ++ rest) = some ((Decimal.ofDigits ds : Int), rest) := by
  have hread := readDigits_of_spells h hdigit
  have hhead : ∀ c ∈ w, c.isDigit = true := by
    rw [h.eq]
    simpa using fun d hd => isDigit_digitChar d (h.lt d hd)
  cases w with
  | nil => exact absurd h.eq.symm (by simpa using h.ne_nil)
  | cons c w =>
    have hc := hhead c (by simp)
    rw [List.cons_append] at hread ⊢
    unfold readPower
    split
    next heq =>
      obtain ⟨rfl, -⟩ := List.cons.inj heq
      cases hc
    next heq =>
      obtain ⟨rfl, -⟩ := List.cons.inj heq
      cases hc
    next => simp [hread]

theorem readPower_of_spells {e : Int} {w rest : List Char} (h : SpellsPower e w)
    (hdigit : StopsAt Char.isDigit rest) : readPower (w ++ rest) = some (e, rest) := by
  cases h with
  | plain h => exact readPower_of_digits h hdigit
  | plus h => simp [readPower, readDigits_of_spells h hdigit]
  | minus h => simp [readPower, readDigits_of_spells h hdigit]

theorem spells_of_readPower {e : Int} {cs rest : List Char} (h : readPower cs = some (e, rest)) :
    ∃ w, SpellsPower e w ∧ cs = w ++ rest := by
  unfold readPower at h
  split at h <;>
    simp only [Option.map_eq_some_iff, Prod.exists, Prod.mk.injEq] at h <;>
    obtain ⟨ds, r, hr, rfl, rfl⟩ := h <;>
    obtain ⟨w, hw, rfl, -⟩ := spells_of_readDigits hr
  · exact ⟨'+' :: w, .plus hw, rfl⟩
  · exact ⟨'-' :: w, .minus hw, rfl⟩
  · exact ⟨w, .plain hw, rfl⟩

/-- An exponent is read in any of its spellings. -/
theorem readExponent_of_spells {e : Option Int} {w rest : List Char} (h : SpellsExponent e w)
    (hdigit : StopsAt Char.isDigit rest) (hmark : StopsAt (fun c => c == 'e' || c == 'E') rest) :
    readExponent (w ++ rest) = some (e, rest) := by
  cases h with
  | none =>
    rw [List.nil_append]
    unfold readExponent
    split
    · cases hmark 'e' rfl
    · cases hmark 'E' rfl
    · rfl
  | lower h => simp [readExponent, readPower_of_spells h hdigit]
  | upper h => simp [readExponent, readPower_of_spells h hdigit]

theorem spells_of_readExponent {e : Option Int} {cs rest : List Char}
    (h : readExponent cs = some (e, rest)) : ∃ w, SpellsExponent e w ∧ cs = w ++ rest := by
  unfold readExponent at h
  split at h
  next cs =>
    simp only [Option.map_eq_some_iff, Prod.exists, Prod.mk.injEq] at h
    obtain ⟨e, r, hr, rfl, rfl⟩ := h
    obtain ⟨w, hw, rfl⟩ := spells_of_readPower hr
    exact ⟨'e' :: w, .lower hw, rfl⟩
  next cs =>
    simp only [Option.map_eq_some_iff, Prod.exists, Prod.mk.injEq] at h
    obtain ⟨e, r, hr, rfl, rfl⟩ := h
    obtain ⟨w, hw, rfl⟩ := spells_of_readPower hr
    exact ⟨'E' :: w, .upper hw, rfl⟩
  next =>
    simp only [Option.some.injEq, Prod.mk.injEq] at h
    obtain ⟨rfl, rfl⟩ := h
    exact ⟨[], .none, rfl⟩

/-- What could go on with a number. -/
def continues (c : Char) : Bool :=
  c.isDigit || c == '.' || c == 'e' || c == 'E'

theorem SpellsFraction.stopsAt {p : Char → Bool} {ds : List Nat} {w rest : List Char}
    (h : SpellsFraction ds w) (hpoint : p '.' = false) (hrest : StopsAt p rest) :
    StopsAt p (w ++ rest) := by
  cases h with
  | none => exact hrest
  | some h => simpa [StopsAt] using hpoint

theorem SpellsExponent.stopsAt {p : Char → Bool} {e : Option Int} {w rest : List Char}
    (h : SpellsExponent e w) (hlower : p 'e' = false) (hupper : p 'E' = false)
    (hrest : StopsAt p rest) : StopsAt p (w ++ rest) := by
  cases h with
  | none => exact hrest
  | lower h => simpa [StopsAt] using hlower
  | upper h => simpa [StopsAt] using hupper

/-- A written natural number begins with a digit. -/
theorem exists_digit (n : Nat) : ∃ c cs, Decimal.chars n = c :: cs ∧ c.isDigit = true := by
  obtain ⟨d, ds, hds⟩ := List.exists_cons_of_ne_nil (Decimal.digits_ne_nil n)
  refine ⟨Nat.digitChar d, ds.map Nat.digitChar, by rw [Decimal.chars, hds, List.map_cons], ?_⟩
  exact isDigit_digitChar d (Decimal.digits_lt n d (by simp [hds]))

theorem readSign_chars (negative : Bool) (n : Nat) (rest : List Char) :
    readSign ((if negative then ['-'] else []) ++ (Decimal.chars n ++ rest)) =
      (negative, Decimal.chars n ++ rest) := by
  cases negative with
  | true => rfl
  | false =>
    obtain ⟨c, cs, hcs, hc⟩ := exists_digit n
    simp only [hcs, Bool.false_eq_true, if_false, List.nil_append, List.cons_append]
    unfold readSign
    split
    next heq =>
      obtain ⟨rfl, -⟩ := List.cons.inj heq
      cases hc
    next => rfl

/-- A spelling is read whole unless what follows could go on with it. -/
theorem read_of_spells {n : Numeral} {w rest : List Char} (h : n.Spells w)
    (hrest : StopsAt continues rest) : read (w ++ rest) = some (n, rest) := by
  obtain @⟨fraction, exponent, hf, he⟩ := h
  have hdigit : StopsAt Char.isDigit rest := hrest.mono fun c hc => by simp [continues, hc]
  have hpoint : StopsAt (· == '.') rest := hrest.mono fun c hc => by simp_all [continues]
  have hmark : StopsAt (fun c => c == 'e' || c == 'E') rest := hrest.mono fun c hc => by
    rcases Bool.or_eq_true_iff.1 hc with hc | hc <;> simp [continues, hc]
  have hread := readExponent_of_spells he hdigit hmark
  have hread' : readFraction (fraction ++ (exponent ++ rest)) =
      some (n.fraction, exponent ++ rest) :=
    readFraction_of_spells hf (he.stopsAt rfl rfl hdigit) (he.stopsAt rfl rfl hpoint)
  have hread'' : readWhole (Decimal.chars n.whole ++ (fraction ++ (exponent ++ rest))) =
      some (n.whole, fraction ++ (exponent ++ rest)) :=
    readWhole_chars n.whole (hf.stopsAt rfl (he.stopsAt rfl rfl hdigit))
  simp only [List.append_assoc, read, readSign_chars, hread'', hread', hread, Option.bind_eq_bind,
    Option.bind_some, Option.pure_def]

theorem readSign_eq (cs : List Char) :
    cs = (if (readSign cs).1 then ['-'] else []) ++ (readSign cs).2 := by
  unfold readSign
  split <;> rfl

/-- What is read is a spelling of the number. -/
theorem spells_of_read {n : Numeral} {cs rest : List Char} (h : read cs = some (n, rest)) :
    ∃ w, n.Spells w ∧ cs = w ++ rest := by
  simp only [read, Option.bind_eq_bind, Option.bind_eq_some_iff, Prod.exists, Option.pure_def,
    Option.some.injEq, Prod.mk.injEq] at h
  obtain ⟨whole, r, hwhole, ds, r', hfraction, e, r'', hexponent, rfl, rfl⟩ := h
  obtain ⟨fraction, hf, rfl⟩ := spells_of_readFraction hfraction
  obtain ⟨exponent, he, rfl⟩ := spells_of_readExponent hexponent
  refine ⟨_, .intro hf he, ?_⟩
  simp only [List.append_assoc]
  rw [← (chars_of_readWhole hwhole).1]
  exact readSign_eq cs

end Numeral

end Json

end VariantStorage
