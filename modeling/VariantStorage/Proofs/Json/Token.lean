import VariantStorage.Proofs.Json.Numeral

/-!
Scanning and spelling are inverse to each other. A token is read from the head of a text exactly by
one of its spellings; only a number could be read too far, so where no two numbers are neighbours
the tokens that a text spells are the tokens that are scanned.
-/
namespace VariantStorage.Json

/-- Every spelling of a quoted text is read up to its quotation mark. -/
theorem readQuoted_of_spells {us : List Unit16} {w : List Char} (h : Unit16.Spells us w)
    (rest : List Char) : readQuoted (w ++ '"' :: rest) = some (us, rest) := by
  induction h with
  | nil => rfl
  | @plain c us w hquote hslash hcontrol _ ih =>
    have hplain : ¬(c = '\\' ∨ c.toNat < 0x20) := by
      rintro (hc | hc)
      · exact hslash hc
      · omega
    rw [List.cons_append, readQuoted]
    · simp [hplain, ih]
    · exact hquote
    · exact fun _ _ _ _ _ hc => absurd hc hslash
    · exact fun _ _ hc => absurd hc hslash
  | @letter e c us w he _ ih =>
    have hu : e ≠ 'u' := by
      rintro rfl
      cases he
    rw [List.cons_append, List.cons_append, readQuoted]
    · simp [he, ih]
    · exact fun _ _ _ _ _ hc => absurd hc hu
  | code hn _ ih => simp [readQuoted, hn, ih]

theorem spells_of_readQuoted {cs rest : List Char} {us : List Unit16}
    (h : readQuoted cs = some (us, rest)) :
    ∃ w, Unit16.Spells us w ∧ cs = w ++ '"' :: rest := by
  fun_induction readQuoted cs generalizing us rest with
  | case1 => cases h
  | case2 cs =>
    simp only [Option.some.injEq, Prod.mk.injEq] at h
    obtain ⟨rfl, rfl⟩ := h
    exact ⟨[], .nil, rfl⟩
  | case3 a b c d cs ih =>
    simp only [Option.bind_eq_bind, Option.bind_eq_some_iff, Prod.exists, Option.pure_def,
      Option.some.injEq, Prod.mk.injEq] at h
    obtain ⟨n, hn, us, r, hr, rfl, rfl⟩ := h
    obtain ⟨w, hw, rfl⟩ := ih hr
    exact ⟨_, .code hn hw, rfl⟩
  | case4 e cs _ ih =>
    simp only [Option.bind_eq_bind, Option.bind_eq_some_iff, Prod.exists, Option.pure_def,
      Option.some.injEq, Prod.mk.injEq] at h
    obtain ⟨c, hc, us, r, hr, rfl, rfl⟩ := h
    obtain ⟨w, hw, rfl⟩ := ih hr
    exact ⟨_, .letter hc hw, rfl⟩
  | case5 => cases h
  | case6 c cs hquote _ _ hplain ih =>
    simp only [Option.bind_eq_bind, Option.bind_eq_some_iff, Prod.exists, Option.pure_def,
      Option.some.injEq, Prod.mk.injEq] at h
    obtain ⟨us, r, hr, rfl, rfl⟩ := h
    obtain ⟨w, hw, rfl⟩ := ih hr
    rw [not_or, Nat.not_lt] at hplain
    exact ⟨_, .plain (fun hc => hquote hc) hplain.1 hplain.2 hw, rfl⟩

namespace Token

/-- A text that begins with a sign or a digit can only be a number. -/
theorem read_of_digit {c : Char} (h : c = '-' ∨ c.isDigit = true) (cs : List Char) :
    read (c :: cs) = (Numeral.read (c :: cs)).map fun (n, rest) => (.scalar (.number n), rest) := by
  rw [read]
  all_goals
    intros
    simp_all

theorem numeral_head {n : Numeral} {w : List Char} (h : n.Spells w) :
    ∃ c cs, w = c :: cs ∧ (c = '-' ∨ c.isDigit = true) := by
  obtain ⟨hf, he⟩ := h
  cases n.negative with
  | true => exact ⟨'-', _, rfl, .inl rfl⟩
  | false =>
    obtain ⟨c, cs, hcs, hc⟩ := Numeral.exists_digit n.whole
    exact ⟨c, _, by rw [hcs]; rfl, .inr hc⟩

def isNumber : Token → Bool
  | .scalar (.number _) => true
  | _ => false

/-- A token is read in any spelling, where a number does not go on after it. -/
theorem read_of_spelling {t : Token} {w rest : List Char} (h : t.Spelling w)
    (hrest : t.isNumber = true → StopsAt Numeral.continues rest) :
    read (w ++ rest) = some (t, rest) := by
  cases h with
  | number h =>
    have hread := Numeral.read_of_spells h (hrest rfl)
    obtain ⟨c, cs, rfl, hc⟩ := numeral_head h
    rw [List.cons_append] at hread ⊢
    rw [read_of_digit hc, hread]
    rfl
  | quoted h =>
    have hread := readQuoted_of_spells h rest
    simp [read, hread]
  | _ => rfl

/-- What is read as a token is a spelling of it. -/
theorem spelling_of_read {t : Token} {cs rest : List Char} (h : read cs = some (t, rest)) :
    ∃ w, t.Spelling w ∧ cs = w ++ rest := by
  unfold read at h
  split at h
  case h_10 =>
    simp only [Option.map_eq_some_iff, Prod.exists, Prod.mk.injEq] at h
    obtain ⟨us, r, hr, rfl, rfl⟩ := h
    obtain ⟨w, hw, rfl⟩ := spells_of_readQuoted hr
    exact ⟨_, .quoted hw, by simp⟩
  case h_11 =>
    simp only [Option.map_eq_some_iff, Prod.exists, Prod.mk.injEq] at h
    obtain ⟨n, r, hr, rfl, rfl⟩ := h
    obtain ⟨w, hw, rfl⟩ := Numeral.spells_of_read hr
    exact ⟨w, .number hw, rfl⟩
  all_goals
    simp only [Option.some.injEq, Prod.mk.injEq] at h
    obtain ⟨rfl, rfl⟩ := h
  · exact ⟨_, .openArray, rfl⟩
  · exact ⟨_, .closeArray, rfl⟩
  · exact ⟨_, .openObject, rfl⟩
  · exact ⟨_, .closeObject, rfl⟩
  · exact ⟨_, .comma, rfl⟩
  · exact ⟨_, .colon, rfl⟩
  · exact ⟨_, .nullWord, rfl⟩
  · exact ⟨_, .trueWord, rfl⟩
  · exact ⟨_, .falseWord, rfl⟩

/-- A token begins with no blank, and only a number with what could go on with a number. -/
theorem Spelling.head {t : Token} {w : List Char} (h : t.Spelling w) :
    ∃ c cs, w = c :: cs ∧ isBlank c = false ∧
      (t.isNumber = false → Numeral.continues c = false) := by
  cases h with
  | number h =>
    obtain ⟨c, cs, rfl, hc⟩ := numeral_head h
    refine ⟨c, cs, rfl, ?_, fun hn => nomatch hn⟩
    cases hblank : isBlank c with
    | false => rfl
    | true =>
      simp only [isBlank, Bool.or_eq_true, beq_iff_eq] at hblank
      rcases hblank with ((rfl | rfl) | rfl) | rfl <;> simp at hc
  | _ => exact ⟨_, _, rfl, rfl, fun _ => rfl⟩

/-- No number stands directly before a number. -/
def Separated (ts : List Token) : Prop :=
  ts.IsChain fun t u => ¬(t.isNumber = true ∧ u.isNumber = true)

theorem scan_cons_of_blank {c : Char} (hc : isBlank c = true) (cs : List Char) :
    scan (c :: cs) = scan cs := by
  rw [scan, if_pos hc]

theorem scan_of_read {cs rest : List Char} {t : Token} {c : Char} (hc : isBlank c = false)
    (h : read (c :: cs) = some (t, rest)) : scan (c :: cs) = t :: scan rest := by
  rw [scan, if_neg (by simp [hc])]
  split
  next heq =>
    rw [h] at heq
    obtain ⟨rfl, rfl⟩ := Prod.mk.inj (Option.some.inj heq)
    rfl
  next heq =>
    rw [h] at heq
    cases heq

/-- What follows a number in a text does not go on with it. -/
theorem Spells.stopsAt {ts : List Token} {cs : List Char} (h : Spells ts cs)
    (hts : ∀ t ∈ ts.head?, t.isNumber = false) : StopsAt Numeral.continues cs := by
  cases h with
  | nil => exact fun c hc => nomatch hc
  | @blank c ts cs hblank h =>
    intro d hd
    obtain rfl : c = d := by simpa using hd
    simp only [isBlank, Bool.or_eq_true, beq_iff_eq] at hblank
    rcases hblank with ((rfl | rfl) | rfl) | rfl <;> rfl
  | @cons t ts w cs ht h =>
    obtain ⟨c, w, rfl, -, hc⟩ := ht.head
    intro d hd
    obtain rfl : c = d := by simpa using hd
    exact hc (hts t rfl)

/-- Whether the token is a bracket or stands between values. -/
def isPunctuation : Token → Bool
  | .scalar _ => false
  | .malformed => false
  | _ => true

/-- What is malformed has no spelling. -/
theorem Spells.malformed_notMem {ts : List Token} {cs : List Char} (h : Spells ts cs) :
    .malformed ∉ ts := by
  induction h with
  | nil => exact List.not_mem_nil
  | blank _ _ ih => exact ih
  | cons ht _ ih =>
    intro hm
    cases List.mem_cons.1 hm with
    | inl heq => exact nomatch heq ▸ ht
    | inr hrest => exact ih hrest

theorem Spells.append {ts us : List Token} {cs ds : List Char} (h : Spells ts cs)
    (h' : Spells us ds) : Spells (ts ++ us) (cs ++ ds) := by
  induction h with
  | nil => exact h'
  | blank hc _ ih => exact .blank hc ih
  | cons ht _ ih =>
    rw [List.append_assoc]
    exact .cons ht ih

/-- Scanning finds the tokens that a text spells. -/
theorem scan_of_spells {ts : List Token} {cs : List Char} (h : Spells ts cs) (hts : Separated ts) :
    scan cs = ts := by
  induction h with
  | nil => rw [scan]
  | blank hc _ ih => rw [scan_cons_of_blank hc, ih hts]
  | @cons t ts w cs ht h ih =>
    have hstop : t.isNumber = true → StopsAt Numeral.continues cs := by
      intro hnumber
      apply h.stopsAt
      intro u hu
      have hnot := (List.isChain_cons.1 hts).1 u hu
      simpa [hnumber] using hnot
    obtain ⟨c, w, rfl, hblank, -⟩ := ht.head
    have hread := read_of_spelling ht hstop
    rw [List.cons_append] at hread ⊢
    rw [scan_of_read hblank hread, ih hts.tail]

/-- A text without malformed tokens spells the tokens that are scanned. -/
theorem spells_scan {cs : List Char} (h : .malformed ∉ scan cs) : Spells (scan cs) cs := by
  fun_induction scan cs with
  | case1 => exact .nil
  | case2 c cs hc ih => exact .blank hc (ih h)
  | case3 c cs hc t rest hread ih =>
    obtain ⟨w, hw, heq⟩ := spelling_of_read hread
    rw [heq]
    exact .cons hw (ih fun hm => h (List.mem_cons_of_mem _ hm))
  | case4 => simp at h

end Token

namespace Numeral

theorem spellsExponent_chars (exponent : Option Int) : SpellsExponent exponent
    (match exponent with
    | none => []
    | some e => 'e' :: (if e < 0 then ['-'] else []) ++ Decimal.chars e.natAbs) := by
  cases exponent with
  | none => exact .none
  | some e =>
    have hdigits := spellsDigits_digits e.natAbs
    have hvalue := Decimal.ofDigits_digits e.natAbs
    by_cases hneg : e < 0
    · have hpower := SpellsPower.minus hdigits
      rw [hvalue, show -(e.natAbs : Int) = e by omega] at hpower
      simpa [hneg] using SpellsExponent.lower hpower
    · have hpower := SpellsPower.plain hdigits
      rw [hvalue, show (e.natAbs : Int) = e by omega] at hpower
      simpa [hneg] using SpellsExponent.lower hpower

theorem spells_chars {n : Numeral} (h : ∀ d ∈ n.fraction, d < 10) : n.Spells n.chars := by
  have hf : SpellsFraction n.fraction
      (if n.fraction.isEmpty then [] else '.' :: n.fraction.map Nat.digitChar) := by
    cases hds : n.fraction with
    | nil => exact .none
    | cons d ds => exact .some ⟨by simp, by rwa [hds] at h, rfl⟩
  have hspells := Spells.intro hf (spellsExponent_chars n.exponent)
  simp only [chars, List.append_assoc]
  exact hspells

end Numeral

theorem hexValue_digitChar : ∀ d < 16, hexValue (Nat.digitChar d) = some d := by
  decide

/-- A control is the character of its code. -/
theorem ofCode_toNat {c : Char} (h : c.toNat < 0x20) : Unit16.ofCode c.toNat = .char c := by
  have hhigh : Unit16.isHigh c.toNat = false := by
    simp only [Unit16.isHigh, Bool.and_eq_false_iff, decide_eq_false_iff_not]
    omega
  have hlow : Unit16.isLow c.toNat = false := by
    simp only [Unit16.isLow, Bool.and_eq_false_iff, decide_eq_false_iff_not]
    omega
  simp [Unit16.ofCode, hhigh, hlow]

/-- However a character is written, it is spelled. -/
theorem spells_writeChar (c : Char) {us : List Unit16} {cs : List Char} (h : Unit16.Spells us cs) :
    Unit16.Spells (.char c :: us) (Token.writeChar c ++ cs) := by
  unfold Token.writeChar
  split
  next e he => exact .letter (Token.escaped_of_letterOf he) h
  next hletter =>
    split
    next hcontrol =>
      have hcode : hexCode '0' '0' (Nat.digitChar (c.toNat / 16)) (Nat.digitChar (c.toNat % 16)) =
          some c.toNat := by
        have hhigh := hexValue_digitChar (c.toNat / 16) (by omega)
        have hlow := hexValue_digitChar (c.toNat % 16) (by omega)
        have hzero : hexValue '0' = some 0 := rfl
        simp only [hexCode, hhigh, hlow, hzero, Option.bind_eq_bind, Option.bind_some,
          Option.pure_def, Option.some.injEq]
        omega
      rw [← ofCode_toNat hcontrol]
      exact .code hcode h
    next hcontrol =>
      have hquote : c ≠ '"' := by
        rintro rfl
        cases hletter
      have hslash : c ≠ '\\' := by
        rintro rfl
        cases hletter
      exact .plain hquote hslash (Nat.not_lt.1 hcontrol) h

theorem spells_writeChars (cs : List Char) :
    Unit16.Spells (cs.map .char) (cs.flatMap Token.writeChar) := by
  induction cs with
  | nil => exact .nil
  | cons c cs ih => exact spells_writeChar c ih

theorem join_chars (cs : List Char) : Unit16.join (cs.map .char) = some cs := by
  induction cs with
  | nil => rfl
  | cons c cs ih => simp [Unit16.join, ih]

theorem ofUnits_chars (s : String) : Scalar.ofUnits (s.toList.map .char) = .text s := by
  simp [Scalar.ofUnits, join_chars]

/-- Whether the scalar can be written: its digits are digits, and it stands for a value. -/
def Scalar.isWritable : Scalar → Bool
  | .unpaired => false
  | .number n => n.fraction.all (· < 10)
  | _ => true

def Token.isWritable : Token → Bool
  | .scalar s => s.isWritable
  | .malformed => false
  | _ => true

theorem Token.spelling_chars {t : Token} (h : t.isWritable = true) : t.Spelling t.chars := by
  cases t with
  | scalar s =>
    cases s with
    | null => exact .nullWord
    | bool b =>
      cases b with
      | true => exact .trueWord
      | false => exact .falseWord
    | number n =>
      refine .number (Numeral.spells_chars fun d hd => ?_)
      simpa using List.all_eq_true.1 h d hd
    | text s =>
      have hquoted := Spelling.quoted (spells_writeChars s.toList)
      rw [ofUnits_chars] at hquoted
      exact hquoted
    | unpaired => cases h
  | malformed => cases h
  | openArray => exact .openArray
  | closeArray => exact .closeArray
  | openObject => exact .openObject
  | closeObject => exact .closeObject
  | comma => exact .comma
  | colon => exact .colon

/-- The text of tokens that can be written spells them. -/
theorem Token.spells_chars {ts : List Token} (h : ∀ t ∈ ts, t.isWritable = true) :
    Spells ts (ts.flatMap chars) := by
  induction ts with
  | nil => exact .nil
  | cons t ts ih =>
    obtain ⟨ht, hts⟩ := List.forall_mem_cons.1 h
    exact .cons (spelling_chars ht) (ih hts)

end VariantStorage.Json
