import VariantStorage.Json.Fragment

/-!
The automaton reads back what is written: after the tokens of a whole value it stands after that
value, whatever brackets are open around it and whatever follows.
-/
namespace VariantStorage.Json.Fragment

open State

/-- A written value begins with a token that closes no array. -/
theorem step_firstItem (v : Fragment) (h : v.isWhole) (outer : List Open) (ts : List Token) :
    (v.tokens ++ ts).foldl step (.firstItem outer) =
      (v.tokens ++ ts).foldl step (.value (.array [] :: outer)) := by
  cases v with
  | cut => simp [isWhole] at h
  | scalar s => rfl
  | array items => rfl
  | object members => rfl

/-- A key closes no object. -/
theorem step_firstKey {key : Key} (h : key.isQuoted) (outer : List Open) :
    step (.firstKey outer) key.token = .colon [] key outer := by
  cases key <;> simp_all [Key.isQuoted, Key.token, Key.ofToken, step, openMember]

theorem step_member {key : Key} (h : key.isQuoted) (members : List (Key × Fragment))
    (outer : List Open) : step (.member members outer) key.token = .colon members key outer := by
  cases key <;> simp_all [Key.isQuoted, Key.token, Key.ofToken, step, openMember]

/-- The first token of an array's items is that of its first item. -/
theorem tokensOfItems_cons (v : Fragment) (vs : List Fragment) :
    ∃ ts, tokensOfItems (v :: vs) = v.tokens ++ ts := by
  cases vs with
  | nil => exact ⟨_, rfl⟩
  | cons w ws => exact ⟨_, rfl⟩

mutual

/-- After the tokens of a whole value the automaton stands after the value. -/
theorem foldl_tokens (v : Fragment) (h : v.isWhole) (outer : List Open) (ts : List Token) :
    (v.tokens ++ ts).foldl step (.value outer) = ts.foldl step (.after v outer) := by
  match v with
  | .cut => simp [isWhole] at h
  | .scalar s => rfl
  | .array [] => rfl
  | .array (v :: vs) =>
    simp only [isWhole, allWhole, Bool.and_eq_true] at h
    have hitems := foldl_tokensOfItems v vs h.1 h.2 [] outer ts
    obtain ⟨rest, hrest⟩ := tokensOfItems_cons v vs
    rw [hrest, List.append_assoc, ← step_firstItem v h.1, ← List.append_assoc, ← hrest] at hitems
    exact hitems
  | .object [] => rfl
  | .object ((key, v) :: ms) =>
    simp only [isWhole, membersWhole, Bool.and_eq_true] at h
    have hmembers := foldl_tokensOfMembers v ms h.1.2 h.2 key [] outer ts
    cases ms <;>
    · simp only [tokens, tokensOfMembers, List.cons_append, List.foldl_cons] at hmembers ⊢
      rw [show step (.value outer) .openObject = .firstKey outer from rfl, step_firstKey h.1.1]
      exact hmembers
termination_by sizeOf v

/-- The items of an array from `v` on, where `items` have been read before. -/
theorem foldl_tokensOfItems (v : Fragment) (vs : List Fragment) (hv : v.isWhole)
    (hvs : allWhole vs) (items : List Fragment) (outer : List Open) (ts : List Token) :
    (tokensOfItems (v :: vs) ++ ts).foldl step (.value (.array items :: outer)) =
      ts.foldl step (.after (.array (items.reverse ++ v :: vs)) outer) := by
  match vs with
  | [] =>
    rw [tokensOfItems, List.append_assoc, foldl_tokens v hv]
    simp [step]
  | w :: ws =>
    simp only [allWhole, Bool.and_eq_true] at hvs
    have hrest := foldl_tokensOfItems w ws hvs.1 hvs.2 (v :: items) outer ts
    rw [tokensOfItems, List.append_assoc, foldl_tokens v hv]
    · simpa [step] using hrest
    · simp
termination_by sizeOf v + sizeOf vs

/-- The members of an object from the value of `key` on, where `members` have been read before. -/
theorem foldl_tokensOfMembers (v : Fragment) (ms : List (Key × Fragment)) (hv : v.isWhole)
    (hms : membersWhole ms) (key : Key) (members : List (Key × Fragment))
    (outer : List Open) (ts : List Token) :
    ((tokensOfMembers ((key, v) :: ms)).tail ++ ts).foldl step (.colon members key outer) =
      ts.foldl step (.after (.object (members.reverse ++ (key, v) :: ms)) outer) := by
  match ms with
  | [] =>
    simp only [tokensOfMembers, List.cons_append, List.tail_cons, List.foldl_cons,
      List.append_assoc]
    rw [show step (.colon members key outer) .colon = .value (.object members key :: outer) from
      rfl, foldl_tokens v hv]
    simp [step]
  | (k, w) :: ms =>
    simp only [membersWhole, Bool.and_eq_true] at hms
    have hrest := foldl_tokensOfMembers w ms hms.1.2 hms.2 k ((key, v) :: members) outer ts
    rw [tokensOfMembers]
    · simp only [List.cons_append, List.tail_cons, List.foldl_cons, List.append_assoc]
      rw [show step (.colon members key outer) .colon = .value (.object members key :: outer)
        from rfl, foldl_tokens v hv]
      cases ms <;>
      · simp only [tokensOfMembers, List.cons_append, List.tail_cons, List.foldl_cons] at hrest ⊢
        rw [show step (.after v (.object members key :: outer)) .comma =
          .member ((key, v) :: members) outer from rfl, step_member hms.1.1]
        simpa using hrest
    · simp
termination_by sizeOf v + sizeOf ms

end

/-- Building the fragment of written tokens gives the value back. -/
theorem foldl_tokens_start (v : Fragment) (h : v.isWhole) :
    v.tokens.foldl step .start = .after v [] := by
  simpa [start] using foldl_tokens v h [] []

end VariantStorage.Json.Fragment
