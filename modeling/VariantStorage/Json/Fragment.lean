import VariantStorage.Json.Token

/-!
JSON values as far as their text can be read. A `Fragment` is the tree of a value in which `cut`
stands where the text ends or stops being JSON; everything before that point is in the tree, so
typed reading can walk it in the order of the text and meet the cut where the text does.

The tree is built by an automaton that takes one token after another and keeps the brackets that
are open. It has no limit on depth.
-/
namespace VariantStorage.Json

/-- The key of a member: a text, or a quoted text that stands for no text. If there is no key, the
token that stands in its place is kept, which is `malformed` at the end of the text. -/
inductive Key where
  | text (s : String)
  | unpaired
  | missing (instead : Token)
  deriving DecidableEq, Repr

namespace Key

def ofToken : Token → Key
  | .scalar (.text s) => .text s
  | .scalar .unpaired => .unpaired
  | t => .missing t

def token : Key → Token
  | .text s => .scalar (.text s)
  | .unpaired => .scalar .unpaired
  | .missing _ => .malformed

def isQuoted : Key → Bool
  | .missing _ => false
  | _ => true

def isText : Key → Bool
  | .text _ => true
  | _ => false

end Key

/-- A JSON value as far as its text goes. If the key of a member is missing, its value is cut. -/
inductive Fragment where
  | cut
  | scalar (s : Scalar)
  | array (items : List Fragment)
  | object (members : List (Key × Fragment))
  deriving Repr

namespace Fragment

/-- An open bracket and what has been read inside it, last first. Inside an object a value is due
for `key`. -/
inductive Open where
  | array (items : List Fragment)
  | object (members : List (Key × Fragment)) (key : Key)
  deriving Repr

/-- Puts a value where one is due and closes every open bracket after it. -/
def plug (v : Fragment) : List Open → Fragment
  | [] => v
  | .array items :: outer => plug (.array (v :: items).reverse) outer
  | .object members key :: outer => plug (.object ((key, v) :: members).reverse) outer

inductive State where
  /-- A value is due. -/
  | value (outer : List Open)
  /-- A value is due, or the end of the array just opened. -/
  | firstItem (outer : List Open)
  /-- A key is due, or the end of the object just opened. -/
  | firstKey (outer : List Open)
  /-- A key is due. -/
  | member (members : List (Key × Fragment)) (outer : List Open)
  /-- The colon after a key is due. -/
  | colon (members : List (Key × Fragment)) (key : Key) (outer : List Open)
  /-- A value is complete: a comma or a closing bracket is due, or nothing more. -/
  | after (v : Fragment) (outer : List Open)
  /-- The text is not JSON beyond this fragment. -/
  | broken (v : Fragment)
  /-- More follows after a complete value. -/
  | trailed (v : Fragment)
  deriving Repr

namespace State

def start : State :=
  .value []

def openValue (outer : List Open) : Token → State
  | .scalar s => .after (.scalar s) outer
  | .openArray => .firstItem outer
  | .openObject => .firstKey outer
  | _ => .broken (plug .cut outer)

def openMember (members : List (Key × Fragment)) (outer : List Open) (t : Token) : State :=
  match Key.ofToken t with
  | .missing t => .broken (plug .cut (.object members (.missing t) :: outer))
  | key => .colon members key outer

def step : State → Token → State
  | .value outer, t => openValue outer t
  | .firstItem outer, .closeArray => .after (.array []) outer
  | .firstItem outer, t => openValue (.array [] :: outer) t
  | .firstKey outer, .closeObject => .after (.object []) outer
  | .firstKey outer, t => openMember [] outer t
  | .member members outer, t => openMember members outer t
  | .colon members key outer, .colon => .value (.object members key :: outer)
  | .colon members key outer, _ => .broken (plug .cut (.object members key :: outer))
  | .after v [], _ => .trailed v
  | .after v (.array items :: outer), .comma => .value (.array (v :: items) :: outer)
  | .after v (.array items :: outer), .closeArray => .after (.array (v :: items).reverse) outer
  | .after v (.array items :: outer), _ => .broken (plug .cut (.array (v :: items) :: outer))
  | .after v (.object members key :: outer), .comma => .member ((key, v) :: members) outer
  | .after v (.object members key :: outer), .closeObject =>
    .after (.object ((key, v) :: members).reverse) outer
  | .after v (.object members key :: outer), _ =>
    .broken (plug .cut (.object ((key, v) :: members) (.missing .malformed) :: outer))
  | .broken v, _ => .broken v
  | .trailed v, _ => .trailed v

/-- The fragment at the end of the text: what is due is cut. -/
def fragment : State → Fragment
  | .value outer => plug .cut outer
  | .firstItem outer => plug .cut (.array [] :: outer)
  | .firstKey outer => plug .cut (.object [] (.missing .malformed) :: outer)
  | .member members outer => plug .cut (.object members (.missing .malformed) :: outer)
  | .colon members key outer => plug .cut (.object members key :: outer)
  | .after v [] => v
  | .after v (.array items :: outer) => plug .cut (.array (v :: items) :: outer)
  | .after v (.object members key :: outer) =>
    plug .cut (.object ((key, v) :: members) (.missing .malformed) :: outer)
  | .broken v => v
  | .trailed v => v

def isTrailed : State → Bool
  | .trailed _ => true
  | _ => false

end State

def ofName (s : String) : Fragment :=
  .scalar (.text s)

def ofNat (n : Nat) : Fragment :=
  .scalar (.number (.ofNat n))

mutual

def tokens : Fragment → List Token
  | .cut => [.malformed]
  | .scalar s => [.scalar s]
  | .array items => .openArray :: tokensOfItems items
  | .object members => .openObject :: tokensOfMembers members

/-- The items of an array, separated by commas, and the closing bracket. -/
def tokensOfItems : List Fragment → List Token
  | [] => [.closeArray]
  | [v] => v.tokens ++ [.closeArray]
  | v :: vs => v.tokens ++ .comma :: tokensOfItems vs

/-- The members of an object, separated by commas, and the closing bracket. -/
def tokensOfMembers : List (Key × Fragment) → List Token
  | [] => [.closeObject]
  | [(key, v)] => key.token :: .colon :: v.tokens ++ [.closeObject]
  | (key, v) :: ms => key.token :: .colon :: v.tokens ++ .comma :: tokensOfMembers ms

end

def text (v : Fragment) : String :=
  String.ofList (v.tokens.flatMap Token.chars)

mutual

/-- Whether nothing is cut: the text of the value is grammatical throughout. -/
def isWhole : Fragment → Bool
  | .cut => false
  | .scalar _ => true
  | .array items => allWhole items
  | .object members => membersWhole members

def allWhole : List Fragment → Bool
  | [] => true
  | v :: vs => v.isWhole && allWhole vs

def membersWhole : List (Key × Fragment) → Bool
  | [] => true
  | (key, v) :: ms => key.isQuoted && v.isWhole && membersWhole ms

end

end Fragment

/-- A text as a JSON value, and whether more than blanks follows it. -/
structure Document where
  value : Fragment
  trailed : Bool
  deriving Repr

def Document.ofText (text : String) : Document :=
  let state := (Token.scan text.toList).foldl Fragment.State.step .start
  ⟨state.fragment, state.isTrailed⟩

end VariantStorage.Json
