import VariantStorage.Proofs.Json.Document

/-!
The nesting of brackets in a text and the depth of the value that it spells. Every bracket of a text
is one of its tokens, so in the compact text of a value as many brackets are open at once as the
value is deep.
-/
namespace VariantStorage.Json

theorem Token.le_nesting (level : Nat) (ts : List Token) : level ≤ nesting level ts := by
  induction ts generalizing level with
  | nil => exact Nat.le_refl level
  | cons t ts ih =>
    cases t with
    | openArray => exact Nat.le_of_succ_le (ih (level + 1))
    | openObject => exact Nat.le_of_succ_le (ih (level + 1))
    | closeArray => exact Nat.le_max_left _ _
    | closeObject => exact Nat.le_max_left _ _
    | _ => exact ih level

namespace Fragment

mutual

/-- The largest number of brackets around a place in the value. -/
def depth : Fragment → Nat
  | .cut => 0
  | .scalar _ => 0
  | .array items => depthOfItems items + 1
  | .object members => depthOfMembers members + 1

def depthOfItems : List Fragment → Nat
  | [] => 0
  | v :: vs => max v.depth (depthOfItems vs)

def depthOfMembers : List (Key × Fragment) → Nat
  | [] => 0
  | (_, v) :: ms => max v.depth (depthOfMembers ms)

end

theorem depthOfItems_cons (v : Fragment) (vs : List Fragment) :
    depthOfItems (v :: vs) = max v.depth (depthOfItems vs) := rfl

theorem depthOfMembers_cons (key : Key) (v : Fragment) (ms : List (Key × Fragment)) :
    depthOfMembers ((key, v) :: ms) = max v.depth (depthOfMembers ms) := rfl

theorem depthOfItems_le {vs : List Fragment} {n : Nat} :
    depthOfItems vs ≤ n ↔ ∀ v ∈ vs, v.depth ≤ n := by
  induction vs with
  | nil => simp [depthOfItems]
  | cons v vs ih => rw [depthOfItems_cons, Nat.max_le, ih, List.forall_mem_cons]

theorem depthOfMembers_le {ms : List (Key × Fragment)} {n : Nat} :
    depthOfMembers ms ≤ n ↔ ∀ m ∈ ms, m.2.depth ≤ n := by
  induction ms with
  | nil => simp [depthOfMembers]
  | cons m ms ih => rw [depthOfMembers_cons, Nat.max_le, ih, List.forall_mem_cons]

theorem nesting_token (key : Key) (level : Nat) (ts : List Token) :
    Token.nesting level (key.token :: ts) = Token.nesting level ts := by
  cases key <;> rfl

mutual

/-- The tokens of a value open as many brackets at once as the value is deep. -/
theorem nesting_tokens (v : Fragment) (level : Nat) (ts : List Token) :
    Token.nesting level (v.tokens ++ ts) = max (level + v.depth) (Token.nesting level ts) := by
  have hle := Token.le_nesting level ts
  match v with
  | .cut =>
    simp only [tokens, List.cons_append, List.nil_append, Token.nesting, depth]
    omega
  | .scalar s =>
    simp only [tokens, List.cons_append, List.nil_append, Token.nesting, depth]
    omega
  | .array items =>
    have hitems := nesting_tokensOfItems items level ts
    simp only [tokens, List.cons_append, Token.nesting, depth, hitems]
    omega
  | .object members =>
    have hmembers := nesting_tokensOfMembers members level ts
    simp only [tokens, List.cons_append, Token.nesting, depth, hmembers]
    omega
termination_by sizeOf v

/-- The items of an array and its closing bracket. -/
theorem nesting_tokensOfItems (vs : List Fragment) (level : Nat) (ts : List Token) :
    Token.nesting (level + 1) (tokensOfItems vs ++ ts) =
      max (level + 1 + depthOfItems vs) (Token.nesting level ts) := by
  match vs with
  | [] => rfl
  | [v] =>
    rw [tokensOfItems, List.append_assoc, nesting_tokens v]
    simp only [List.cons_append, List.nil_append, Token.nesting, depthOfItems,
      Nat.add_sub_cancel]
    omega
  | v :: w :: ws =>
    have hrest := nesting_tokensOfItems (w :: ws) level ts
    rw [tokensOfItems, List.append_assoc, nesting_tokens v]
    · simp only [List.cons_append, Token.nesting, hrest, depthOfItems_cons v]
      omega
    · simp
termination_by sizeOf vs

/-- The members of an object and its closing bracket. -/
theorem nesting_tokensOfMembers (ms : List (Key × Fragment)) (level : Nat) (ts : List Token) :
    Token.nesting (level + 1) (tokensOfMembers ms ++ ts) =
      max (level + 1 + depthOfMembers ms) (Token.nesting level ts) := by
  match ms with
  | [] => rfl
  | [(key, v)] =>
    simp only [tokensOfMembers, List.cons_append, List.append_assoc, nesting_token, Token.nesting,
      nesting_tokens v, List.nil_append, depthOfMembers, Nat.add_sub_cancel]
    omega
  | (key, v) :: m :: ms =>
    have hrest := nesting_tokensOfMembers (m :: ms) level ts
    rw [tokensOfMembers]
    · simp only [List.cons_append, List.append_assoc, nesting_token, Token.nesting,
        nesting_tokens v, hrest, depthOfMembers_cons key v]
      omega
    · simp
termination_by sizeOf ms

end

/-- In the compact text of a value as many brackets are nested as the value is deep. -/
theorem nesting_text {v : Fragment} (h : v.Writable) : nesting v.text = v.depth := by
  have htokens := nesting_tokens v 0 []
  rw [List.append_nil, Token.nesting, Nat.zero_add, Nat.max_zero] at htokens
  rw [nesting, Token.scan_of_spells h.spelledBy v.separated, htokens]

end Fragment

end VariantStorage.Json
