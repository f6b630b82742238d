import VariantStorage.Overflow

/-!
Checked traversals. `gather f xs` joins the lists that `f` returns for the elements of `xs`, and
stops at the first element on which `f` fails. The collectors and the reducers are all traversals
of this shape, so when they return, what they return and which failure they report are settled here
once.
-/
namespace VariantStorage

variable {α β ε : Type}

/-- The second computation returns on what the first one returned. -/
theorem bind_eq_ok {x : Except ε α} {f : α → Except ε β} {b : β} :
    x >>= f = .ok b ↔ ∃ a, x = .ok a ∧ f a = .ok b := by
  cases x with
  | error e => simp [bind, Except.bind]
  | ok a => simp [bind, Except.bind]

/-- Either computation may fail, the second one only after the first one returned. -/
theorem bind_eq_error {x : Except ε α} {f : α → Except ε β} {e : ε} :
    x >>= f = .error e ↔ x = .error e ∨ ∃ a, x = .ok a ∧ f a = .error e := by
  cases x with
  | error e => simp [bind, Except.bind]
  | ok a => simp [bind, Except.bind]

theorem map_eq_ok {x : Except ε α} {f : α → β} {b : β} :
    x.map f = .ok b ↔ ∃ a, x = .ok a ∧ f a = b := by
  cases x with
  | error e => simp [Except.map]
  | ok a => simp [Except.map]

theorem mapError_eq_ok {ε' : Type} {x : Except ε α} {f : ε → ε'} {a : α} :
    x.mapError f = .ok a ↔ x = .ok a := by
  cases x with
  | error e => exact iff_of_false nofun nofun
  | ok b =>
    constructor
    · exact fun h => congrArg Except.ok (Except.ok.inj h)
    · exact fun h => congrArg Except.ok (Except.ok.inj h)

/-- A computation that does not return reports some failure. -/
theorem exists_error_iff {x : Except ε α} : (∃ e, x = .error e) ↔ ¬∃ a, x = .ok a := by
  cases x with
  | error e => simp
  | ok a => simp

/-- Computations that fail together return together. -/
theorem returns_iff_of_fails_iff {x : Except ε α} {y : Except ε β}
    (h : (∃ e, x = .error e) ↔ ∃ e, y = .error e) : (∃ a, x = .ok a) ↔ ∃ b, y = .ok b := by
  cases x with
  | error e =>
    obtain ⟨e', rfl⟩ := h.1 ⟨e, rfl⟩
    simp
  | ok a =>
    cases y with
    | error e' => simpa using h.2 ⟨e', rfl⟩
    | ok b => simp

/-- Where the failures of a computation are known, so is when it returns. -/
theorem returns_iff_of_eq_error {x : Except ε α} {found : Option ε}
    (h : ∀ e, x = .error e ↔ found = some e) : (∃ a, x = .ok a) ↔ found = none := by
  cases x with
  | error e => simp [(h e).1 rfl]
  | ok a =>
    cases found with
    | none => simp
    | some e => cases (h e).2 rfl

/-- The lists that `f` returns for the elements of `xs`, one after another. -/
def gather (f : α → Except ε (List β)) (xs : List α) : Except ε (List β) := do
  return (← xs.mapM f).flatten

variable {f : α → Except ε (List β)}

@[simp] theorem gather_nil : gather f [] = .ok [] := rfl

@[simp] theorem gather_singleton (x : α) : gather f [x] = f x := by
  unfold gather
  cases h : f x with
  | error e => simp [h, bind, Except.bind]
  | ok ys => simp [h, bind, Except.bind, pure, Except.pure]

theorem gather_cons (x : α) (xs : List α) :
    gather f (x :: xs) = do
      let here ← f x
      let later ← gather f xs
      return here ++ later := by
  simp [gather]

/-- Two rows are gathered one after the other. -/
theorem gather_append (xs ys : List α) :
    gather f (xs ++ ys) = do
      let left ← gather f xs
      let right ← gather f ys
      return left ++ right := by
  simp [gather]

theorem gather_cons_eq_ok {x : α} {xs : List α} {out : List β} :
    gather f (x :: xs) = .ok out ↔
      ∃ here later, f x = .ok here ∧ gather f xs = .ok later ∧ here ++ later = out := by
  simp only [gather_cons, bind_eq_ok, pure, Except.pure, Except.ok.injEq]
  constructor
  · rintro ⟨here, hx, later, hxs, rfl⟩
    exact ⟨here, later, hx, hxs, rfl⟩
  · rintro ⟨here, later, hx, hxs, rfl⟩
    exact ⟨here, hx, later, hxs, rfl⟩

theorem gather_cons_eq_error {x : α} {xs : List α} {e : ε} :
    gather f (x :: xs) = .error e ↔
      f x = .error e ∨ ∃ here, f x = .ok here ∧ gather f xs = .error e := by
  simp only [gather_cons, bind_eq_error, pure, Except.pure, reduceCtorEq, and_false,
    exists_false, or_false]

/-- A traversal returns exactly when `f` returns on every element. -/
theorem gather_returns_iff {xs : List α} :
    (∃ out, gather f xs = .ok out) ↔ ∀ x ∈ xs, ∃ ys, f x = .ok ys := by
  induction xs with
  | nil => simp
  | cons x xs ih =>
    rw [List.forall_mem_cons, ← ih]
    constructor
    · rintro ⟨out, h⟩
      obtain ⟨here, later, hx, hxs, -⟩ := gather_cons_eq_ok.1 h
      exact ⟨⟨here, hx⟩, ⟨later, hxs⟩⟩
    · rintro ⟨⟨here, hx⟩, ⟨later, hxs⟩⟩
      exact ⟨here ++ later, gather_cons_eq_ok.2 ⟨here, later, hx, hxs, rfl⟩⟩

/-- What a traversal returns holds what `f` returns on the elements, and nothing else. -/
theorem mem_gather {xs : List α} {out : List β} (h : gather f xs = .ok out) {y : β} :
    y ∈ out ↔ ∃ x ∈ xs, ∃ ys, f x = .ok ys ∧ y ∈ ys := by
  induction xs generalizing out with
  | nil =>
    obtain rfl : [] = out := by simpa using h
    simp
  | cons x xs ih =>
    obtain ⟨here, later, hx, hxs, rfl⟩ := gather_cons_eq_ok.1 h
    rw [List.mem_append, ih hxs]
    simp [hx]

/-- Where it is known what the lists of `f` hold, it is known what a traversal returns. -/
theorem mem_gather_iff {P : α → β → Prop}
    (hf : ∀ {x : α} {ys : List β}, f x = .ok ys → ∀ {y : β}, y ∈ ys ↔ P x y)
    {xs : List α} {out : List β} (h : gather f xs = .ok out) {y : β} :
    y ∈ out ↔ ∃ x ∈ xs, P x y := by
  rw [mem_gather h]
  apply exists_congr
  intro x
  apply and_congr_right
  intro hx
  obtain ⟨ys, hok⟩ := gather_returns_iff.1 ⟨out, h⟩ x hx
  simp [hok, hf hok]

/-- A traversal fails with the failure of the first element on which `f` fails. -/
theorem gather_eq_error {p : α → Bool} (hp : ∀ x, p x = true ↔ ∃ e, f x = .error e)
    {xs : List α} {e : ε} :
    gather f xs = .error e ↔ ∃ x, xs.find? p = some x ∧ f x = .error e := by
  induction xs with
  | nil => simp
  | cons x xs ih =>
    rw [gather_cons_eq_error, ih, List.find?_cons]
    cases hx : f x with
    | error e' =>
      have hpx : p x = true := (hp x).2 ⟨e', hx⟩
      simp [hpx, hx]
    | ok ys =>
      have hpx : ¬p x = true := by
        rw [hp, hx]
        simp
      simp [hpx]

/-- Where every failure is the same, the first one need not be found. -/
theorem gather_eq_error_of_single {P : α → Prop} {e₀ : ε}
    (hf : ∀ x e, f x = .error e ↔ e = e₀ ∧ P x) {xs : List α} {e : ε} :
    gather f xs = .error e ↔ e = e₀ ∧ ∃ x ∈ xs, P x := by
  induction xs with
  | nil => simp
  | cons x xs ih =>
    simp only [gather_cons_eq_error, hf, ih, List.mem_cons, exists_eq_or_imp]
    constructor
    · rintro (⟨he, hx⟩ | ⟨-, -, he, hxs⟩)
      · exact ⟨he, .inl hx⟩
      · exact ⟨he, .inr hxs⟩
    · rintro ⟨he, hx | hxs⟩
      · exact .inl ⟨he, hx⟩
      · cases hfx : f x with
        | error e' => exact .inl ⟨he, ((hf x e').1 hfx).2⟩
        | ok ys => exact .inr ⟨ys, rfl, he, hxs⟩

section Reordered

/-- Whatever list `x` returns, `y` returns it in some order. -/
def ReturnsPerm (x y : Except ε (List β)) : Prop :=
  ∀ out, x = .ok out → ∃ out', y = .ok out' ∧ out.Perm out'

theorem ReturnsPerm.refl (x : Except ε (List β)) : ReturnsPerm x x :=
  fun out h => ⟨out, h, .refl out⟩

/-- A traversal of the elements in another order. -/
theorem gather_perm {xs ys : List α} (h : xs.Perm ys) :
    ReturnsPerm (gather f xs) (gather f ys) := by
  induction h with
  | nil => exact .refl _
  | cons x _ ih =>
    intro out hout
    obtain ⟨here, later, hx, hxs, rfl⟩ := gather_cons_eq_ok.1 hout
    obtain ⟨later', hys, hperm⟩ := ih later hxs
    exact ⟨here ++ later', gather_cons_eq_ok.2 ⟨here, later', hx, hys, rfl⟩, hperm.append_left here⟩
  | swap x y zs =>
    intro out hout
    -- `zs` is traversed after both, so the two results before it change places
    obtain ⟨first, later, hy, hlater, rfl⟩ := gather_cons_eq_ok.1 hout
    obtain ⟨second, rest, hx, hrest, rfl⟩ := gather_cons_eq_ok.1 hlater
    have hcons : gather f (y :: zs) = .ok (first ++ rest) :=
      gather_cons_eq_ok.2 ⟨first, rest, hy, hrest, rfl⟩
    refine ⟨second ++ (first ++ rest), gather_cons_eq_ok.2 ⟨second, _, hx, hcons, rfl⟩, ?_⟩
    rw [← List.append_assoc, ← List.append_assoc]
    exact List.perm_append_comm.append_right rest
  | trans _ _ ih ih' =>
    intro out hout
    obtain ⟨middle, hmiddle, hperm⟩ := ih out hout
    obtain ⟨out', hout', hperm'⟩ := ih' middle hmiddle
    exact ⟨out', hout', hperm.trans hperm'⟩

/-- A traversal with another element in the place of one. -/
theorem gather_replace {x y : α} (h : ReturnsPerm (f x) (f y)) (before after : List α) :
    ReturnsPerm (gather f (before ++ x :: after)) (gather f (before ++ y :: after)) := by
  induction before with
  | nil =>
    intro out hout
    obtain ⟨here, later, hx, hxs, rfl⟩ := gather_cons_eq_ok.1 hout
    obtain ⟨here', hy, hperm⟩ := h here hx
    exact ⟨here' ++ later, gather_cons_eq_ok.2 ⟨here', later, hy, hxs, rfl⟩,
      hperm.append_right later⟩
  | cons z before ih =>
    intro out hout
    obtain ⟨here, later, hz, hlater, rfl⟩ := gather_cons_eq_ok.1 hout
    obtain ⟨later', hlater', hperm⟩ := ih later hlater
    exact ⟨here ++ later', gather_cons_eq_ok.2 ⟨here, later', hz, hlater', rfl⟩,
      hperm.append_left here⟩

end Reordered

end VariantStorage
